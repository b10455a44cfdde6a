import StarkOne.EventCore
import StarkOne.Machine

/-!
# The event bus under every interleaving

Any task may publish and subscribe between two sections of a dispatch, and the
handlers of a running dispatch may do so too, and may call dispatch again. A
running dispatch is a frame with its local variables and its place in the
loop. The remaining fields are a history: the accepted events, numbered in
order, and what became of each of them.
-/

set_option autoImplicit false

namespace StarkOne.EventBus
open StarkOne.RingQueue StarkOne.EventCore StarkOne.Machine

inductive Pc where
  | loop (more : Bool)
  | deliver (e : StarkEvent) (subs : List StarkEventSub)

/-- The locals of a running dispatch. `call` and `begun` belong to the history:
the number of the call and how many events were accepted before it. -/
structure Frame where
  start : ℕ
  maxEvents : ℕ
  delivered : ℕ
  pc : Pc
  call : ℕ
  begun : ℕ

structure Drop where
  id : ℕ
  queue : List ℕ

structure Taken where
  id : ℕ
  event : StarkEvent
  registered : List StarkEventSub
  call : ℕ

structure Call where
  nested : Bool
  begun : ℕ
  maxEvents : ℕ
  result : Option ℕ

structure Sys where
  bus : StarkEventCore
  stack : List Frame
  accepted : List StarkEvent
  waiting : List ℕ
  dropped : List Drop
  taken : List Taken
  registered : List StarkEventSub
  calls : List Call
  handled : List (StarkEvent × StarkEventSub)

inductive Action where
  | publish (e : Option StarkEvent)
  | subscribe (typeMask : ℕ) (fn : Option ℕ) (ctx : ℕ)
  | dispatch (maxEvents : ℕ)
  | step

def boot (bus : StarkEventCore) : Sys :=
  { bus := bus, stack := [], accepted := [], waiting := [], dropped := [], taken := [],
    registered := [], calls := [], handled := [] }

def publish (s : Sys) (e : Option StarkEvent) : Sys :=
  match starkEventCorePublish s.bus e, e with
  | (.ok,bus), some ev =>
    let full := s.bus.ring.count = s.bus.ring.capacity
    { s with
      bus := bus
      accepted := s.accepted ++ [ev]
      waiting := (if full then s.waiting.tail else s.waiting) ++ [s.accepted.length]
      dropped := s.dropped ++
        (if full then (s.waiting.take 1).map (fun i => ⟨i,s.waiting⟩) else []) }
  | (_,bus), _ => { s with bus := bus }

def subscribe (s : Sys) (typeMask : ℕ) (fn : Option ℕ) (ctx : ℕ) : Sys :=
  match starkEventCoreSubscribe s.bus typeMask fn ctx, fn with
  | (.ok,bus), some f =>
    { s with bus := bus, registered := s.registered ++ [⟨typeMask,f,ctx⟩] }
  | (_,bus), _ => { s with bus := bus }

/-- A dispatch call up to its first section: it returns 0 at once when it asks
for no event or finds a dispatch running, and becomes a frame otherwise. -/
def dispatch (s : Sys) (maxEvents : ℕ) : Sys :=
  let refused : Sys :=
    { s with calls := s.calls ++ [⟨!s.stack.isEmpty,s.accepted.length,maxEvents,some 0⟩] }
  if maxEvents = 0 then refused
  else match dispatchEnter s.bus with
    | none => refused
    | some (start,bus) =>
      { s with
        bus := bus
        stack := ⟨start,maxEvents,0,.loop true,s.calls.length,s.accepted.length⟩ :: s.stack
        calls := s.calls ++ [⟨!s.stack.isEmpty,s.accepted.length,maxEvents,none⟩] }

def finish (s : Sys) (f : Frame) (rest : List Frame) : Sys :=
  { s with
    bus := dispatchLeave s.bus
    stack := rest
    calls := s.calls.modify f.call (fun c => { c with result := some f.delivered }) }

/-- The next action of the innermost running dispatch: a section of its loop,
or the call of one handler. -/
def step (s : Sys) : Option Sys :=
  match s.stack with
  | [] => none
  | f::rest =>
    match f.pc with
    | .loop more =>
      if more && decide (f.delivered < f.maxEvents) then
        match dispatchTake s.bus f.start with
        | some (e,subs,bus) =>
          some { s with
            bus := bus
            stack := { f with pc := .deliver e subs } :: rest
            waiting := s.waiting.tail
            taken := s.taken ++ (s.waiting.take 1).map (fun i => ⟨i,e,s.registered,f.call⟩) }
        | none => some { s with stack := { f with pc := .loop false } :: rest }
      else some (finish s f rest)
    | .deliver e (sub::subs) =>
      some { s with
        stack := { f with pc := .deliver e subs } :: rest
        handled := if wants e sub then s.handled ++ [(e,sub)] else s.handled }
    | .deliver _ [] =>
      some { s with stack := { f with pc := .loop true, delivered := f.delivered+1 } :: rest }

def act (s : Sys) : Action → Option Sys
  | .publish e => some (publish s e)
  | .subscribe typeMask fn ctx => some (subscribe s typeMask fn ctx)
  | .dispatch maxEvents => some (dispatch s maxEvents)
  | .step => step s

/-- No running dispatch has seen `2^32` publishes. -/
def Timely (s : Sys) (_ : Action) : Prop := ∀ f ∈ s.stack, s.accepted.length-f.begun < 2^32

instance (s : Sys) (a : Action) : Decidable (Timely s a) :=
  inferInstanceAs (Decidable (∀ f ∈ s.stack, s.accepted.length-f.begun < 2^32))

def deliveries (t : Taken) : List (StarkEvent × StarkEventSub) :=
  (t.registered.filter (wants t.event)).map (fun sub => (t.event,sub))

def pending : List Frame → List (StarkEvent × StarkEventSub)
  | [] => []
  | f::rest =>
    match f.pc with
    | .loop _ => pending rest
    | .deliver e subs => (subs.filter (wants e)).map (fun sub => (e,sub)) ++ pending rest

def takenBy (taken : List Taken) (call : ℕ) : List Taken :=
  taken.filter (fun t => t.call == call)

/-- What the bus owes its users, in every state: nothing is lost but what a
full ring drops, nothing comes twice, and a dispatch hands each event it takes
to the subscribers of that moment. -/
structure Delivery (s : Sys) : Prop where
  /-- The ring holds the waiting events, oldest first. -/
  queued : (toList s.bus.ring).map some = s.waiting.map (fun i => s.accepted[i]?)
  /-- Taken and waiting events are the accepted ones without the dropped ones, in order. -/
  ordered : s.taken.map Taken.id ++ s.waiting =
    (List.range s.accepted.length).filter (fun i => i ∉ s.dropped.map Drop.id)
  /-- Each accepted event is waiting, taken or dropped, one of them and once. -/
  one_fate : ∀ i < s.accepted.length, s.waiting.count i+(s.taken.map Taken.id).count i+
    (s.dropped.map Drop.id).count i = 1
  /-- An event is dropped only as the oldest one of a full ring. -/
  dropped_oldest : ∀ d ∈ s.dropped,
    d.queue.length = s.bus.ring.capacity ∧ d.queue.head? = some d.id
  /-- A taken event is the accepted event of its number. -/
  taken_event : ∀ t ∈ s.taken, s.accepted[t.id]? = some t.event
  /-- A dispatch takes only what was accepted before it began, and at most `maxEvents`. -/
  taken_old : ∀ t ∈ s.taken, ∃ c, s.calls[t.call]? = some c ∧ t.id < c.begun
  taken_bound : ∀ (i : ℕ) (c : Call), s.calls[i]? = some c → (takenBy s.taken i).length ≤ c.maxEvents
  /-- A dispatch returns how many events it took. -/
  returned : ∀ (i : ℕ) (c : Call) (n : ℕ), s.calls[i]? = some c → c.result = some n →
    (takenBy s.taken i).length = n
  /-- A nested dispatch returns 0 at once. -/
  nested : ∀ c ∈ s.calls, c.nested = true → c.result = some 0
  /-- Every taken event goes to the subscribers registered when it was taken
  that want its type, in subscription order; the rest is still to come. -/
  handled : s.handled ++ pending s.stack = s.taken.flatMap deliveries
  /-- The counters agree modulo `2^32`. -/
  counters : s.bus.stats.published =
    u32 (s.bus.stats.dropped+s.taken.length+s.bus.ring.count)

end StarkOne.EventBus
