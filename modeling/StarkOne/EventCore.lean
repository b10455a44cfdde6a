import StarkOne.RingQueue
import StarkOne.StarkErr

/-!
# The event bus core

A fixed-capacity ring of events and a table of at most eight subscribers.
Publishing into a full ring gives up the oldest event. Dispatching is cut at
its lock-bracketed sections: entering, taking one event with a copy of the
subscriber table, and leaving. Between two sections the lock is free. The
null checks of the bus pointer have no counterpart here, those of the other
pointers are `Option` arguments.
-/

set_option autoImplicit false

namespace StarkOne.EventCore
open StarkOne.RingQueue

/-- The union of `stark_event_t`; only the member of the event's type is meaningful. -/
inductive Payload where
  | none
  | key (key action rep : ℕ)
  | app (id : ℕ) (arg : ℤ)
  | system (id : ℕ) (arg : ℤ)
  deriving DecidableEq, Repr

def evtNone : ℕ := 0
def evtKey : ℕ := 1
def evtTick : ℕ := 2
def evtSystem : ℕ := 4
def evtTypeLast : ℕ := evtSystem

structure StarkEvent where
  type : ℕ
  tsUs : ℕ
  payload : Payload
  deriving DecidableEq, Repr

def evtMask (type : ℕ) : ℕ := u32 (1 <<< type)

structure StarkEventSub where
  mask : ℕ
  fn : ℕ
  ctx : ℕ
  deriving DecidableEq, Repr

structure StarkEventStats where
  published : ℕ
  dropped : ℕ
  maxDepth : ℕ
  deriving DecidableEq, Repr

def maxSubs : ℕ := 8

structure StarkEventCore where
  ring : RingBuffer StarkEvent
  subs : List StarkEventSub
  subs_le : subs.length ≤ maxSubs
  dispatching : Bool
  stats : StarkEventStats

def typeValid (type : ℕ) : Bool := evtNone < type && type ≤ evtTypeLast

def starkEventCoreInit (storage : ℕ → StarkEvent) (capacity : ℕ) :
    Except StarkErr StarkEventCore :=
  if h : capacity = 0 then .error .invalidArg
  else .ok
    { ring := empty storage capacity (Nat.pos_of_ne_zero h)
      subs := []
      subs_le := Nat.zero_le _
      dispatching := false
      stats := ⟨0,0,0⟩ }

/-- The full ring drops its oldest event first, so the new one always fits. -/
def pushRing (r : RingBuffer StarkEvent) (e : StarkEvent) : RingBuffer StarkEvent :=
  if h : r.count = r.capacity then
    append (advance r) e (by have := r.head_lt; simp only [advance_count, advance_capacity]; omega)
  else append r e (lt_of_le_of_ne r.count_le h)

def starkEventCorePublish (bus : StarkEventCore) (e : Option StarkEvent) :
    StarkErr × StarkEventCore :=
  match e with
  | none => (.invalidArg,bus)
  | some e =>
    if !typeValid e.type then (.invalidArg,bus)
    else
      let dropped := if bus.ring.count = bus.ring.capacity then u32 (bus.stats.dropped+1)
        else bus.stats.dropped
      let ring := pushRing bus.ring e
      (.ok,
        { bus with
          ring := ring
          stats :=
            { published := u32 (bus.stats.published+1)
              dropped := dropped
              maxDepth := if ring.count > bus.stats.maxDepth then u32 ring.count
                else bus.stats.maxDepth } })

def starkEventCoreSubscribe (bus : StarkEventCore) (typeMask : ℕ) (fn : Option ℕ) (ctx : ℕ) :
    StarkErr × StarkEventCore :=
  match fn with
  | none => (.invalidArg,bus)
  | some fn =>
    if typeMask = 0 then (.invalidArg,bus)
    else if h : bus.subs.length < maxSubs then
      (.ok,
        { bus with
          subs := bus.subs ++ [⟨typeMask,fn,ctx⟩]
          subs_le := by rw [List.length_append]; exact h })
    else (.noMem,bus)

/-- The first section of `stark_event_core_dispatch`: refused while a dispatch
is running, else it marks the bus and returns `start`. -/
def dispatchEnter (bus : StarkEventCore) : Option (ℕ × StarkEventCore) :=
  if bus.dispatching then none
  else some (bus.stats.published,{ bus with dispatching := true })

def dispatchTake (bus : StarkEventCore) (start : ℕ) :
    Option (StarkEvent × List StarkEventSub × StarkEventCore) :=
  if bus.ring.count > sub32 bus.stats.published start then
    some (oldest bus.ring,bus.subs,{ bus with ring := advance bus.ring })
  else none

def dispatchLeave (bus : StarkEventCore) : StarkEventCore := { bus with dispatching := false }

def wants (e : StarkEvent) (sub : StarkEventSub) : Bool := sub.mask &&& evtMask e.type != 0

theorem pushRing_capacity (r : RingBuffer StarkEvent) (e : StarkEvent) :
    (pushRing r e).capacity = r.capacity := by
  unfold pushRing
  split <;> rfl

theorem toList_pushRing (r : RingBuffer StarkEvent) (e : StarkEvent) :
    toList (pushRing r e) =
      (if r.count = r.capacity then (toList r).tail else toList r) ++ [e] := by
  unfold pushRing
  split
  · rw [toList_append, toList_advance]
  · rw [toList_append]

/-- Either the arguments are refused and nothing changes, or the event is
accepted, whatever the state of the ring. -/
theorem publish_cases (bus : StarkEventCore) (e : Option StarkEvent) :
    starkEventCorePublish bus e = (.invalidArg,bus) ∨
    ∃ ev maxDepth, e = some ev ∧ typeValid ev.type = true ∧
      starkEventCorePublish bus e =
        (.ok,{ bus with
          ring := pushRing bus.ring ev
          stats := ⟨u32 (bus.stats.published+1),
            if bus.ring.count = bus.ring.capacity then u32 (bus.stats.dropped+1)
              else bus.stats.dropped,maxDepth⟩ }) := by
  cases e with
  | none => exact Or.inl rfl
  | some ev =>
    by_cases hv : typeValid ev.type = true
    · exact Or.inr ⟨ev,(starkEventCorePublish bus (some ev)).2.stats.maxDepth,rfl,hv,
        by simp [starkEventCorePublish, hv]⟩
    · exact Or.inl (by simp [starkEventCorePublish, hv])

theorem subscribe_cases (bus : StarkEventCore) (typeMask : ℕ) (fn : Option ℕ) (ctx : ℕ) :
    (∃ err, err ≠ StarkErr.ok ∧ starkEventCoreSubscribe bus typeMask fn ctx = (err,bus)) ∨
    ∃ f h, fn = some f ∧ starkEventCoreSubscribe bus typeMask fn ctx =
      (.ok,{ bus with subs := bus.subs ++ [⟨typeMask,f,ctx⟩], subs_le := h }) := by
  cases fn with
  | none => exact Or.inl ⟨_,by decide,rfl⟩
  | some f =>
    by_cases hm : typeMask = 0
    · exact Or.inl ⟨.invalidArg,by decide,by simp [starkEventCoreSubscribe, hm]⟩
    by_cases hl : bus.subs.length < maxSubs
    · exact Or.inr ⟨f,by rw [List.length_append]; exact hl,rfl,by simp [starkEventCoreSubscribe, hm, hl]⟩
    · exact Or.inl ⟨.noMem,by decide,by simp [starkEventCoreSubscribe, hm, hl]⟩

end StarkOne.EventCore
