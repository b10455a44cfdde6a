import StarkOne.EventDelivery

/-!
# Waiting for events

Publishers enqueue under the lock and give the wake-up semaphore afterwards. The
one consumer dispatches, adds up what it consumed, and waits: it looks at the
counters, takes the semaphore, and looks again. Each of these is one step, and
the steps of all tasks come in any order.
-/

set_option autoImplicit false

namespace StarkOne.EventWait
open StarkOne.Machine StarkOne.RingQueue StarkOne.EventCore StarkOne.EventBus

/-- Where the consumer is. `check true` is the look after the time is up, `take` the take of
the semaphore, blocked while there is no token. -/
inductive Place where
  | running
  | dispatching
  | adding (n : ℕ)
  | check (last : Bool)
  | take
  | timing
  | returned (result : StarkErr)
  deriving DecidableEq

structure Waiting where
  sys : Sys
  consumed : ℕ
  token : Bool
  publishers : ℕ → Bool
  place : Place

inductive Act where
  | publish (p : ℕ) (e : Option StarkEvent)
  | give (p : ℕ)
  | subscribe (typeMask : ℕ) (fn : Option ℕ) (ctx : ℕ)
  | dispatch (maxEvents : ℕ)
  | nested (maxEvents : ℕ)
  | round
  | add
  | wait
  | look
  | take
  | expire
  | time (out : Bool)
  | leave

def busPending (bus : StarkEventCore) (consumed : ℕ) : Bool :=
  sub32 (sub32 bus.stats.published bus.stats.dropped) consumed ≠ 0

def step (s : Waiting) : Act → Option Waiting
  | .publish p e =>
    if s.publishers p then none
    else some { s with
      sys := publish s.sys e
      publishers := Function.update s.publishers p ((starkEventCorePublish s.sys.bus e).1 = .ok) }
  | .give p =>
    if s.publishers p then
      some { s with token := true, publishers := Function.update s.publishers p false }
    else none
  | .subscribe typeMask fn ctx => some { s with sys := subscribe s.sys typeMask fn ctx }
  | .dispatch maxEvents =>
    if s.place = .running then
      let sys := dispatch s.sys maxEvents
      some { s with sys := sys, place := if sys.stack.isEmpty then .adding 0 else .dispatching }
    else none
  | .nested maxEvents =>
    if s.place = .dispatching then some { s with sys := dispatch s.sys maxEvents } else none
  | .round =>
    if s.place = .dispatching then
      (EventBus.step s.sys).map fun sys => { s with
        sys := sys
        place := if sys.stack.isEmpty then .adding ((s.sys.stack.head?.map Frame.delivered).getD 0)
          else .dispatching }
    else none
  | .add => match s.place with
    | .adding n => some { s with consumed := u32 (s.consumed+n), place := .running }
    | _ => none
  | .wait => if s.place = .running then some { s with place := .check false } else none
  | .look => match s.place with
    | .check last => some { s with
        place := if busPending s.sys.bus s.consumed then .returned .ok
          else if last then .returned .timeout else .take }
    | _ => none
  | .take =>
    if s.place = .take ∧ s.token then some { s with token := false, place := .timing } else none
  | .expire =>
    if s.place = .take ∧ !s.token then some { s with place := .returned .timeout } else none
  | .time out => if s.place = .timing then some { s with place := .check out } else none
  | .leave => match s.place with
    | .returned _ => some { s with place := .running }
    | _ => none

def boot (bus : StarkEventCore) : Waiting := ⟨EventBus.boot bus,0,false,fun _ => false,.running⟩

def took (f : Frame) : ℕ := f.delivered+EventDelivery.inHand f.pc

def inFlight (place : Place) (stack : List Frame) : ℕ :=
  match place with
  | .dispatching => (stack.map took).sum
  | .adding n => n
  | _ => 0

/-- The counters account for every event in the ring. -/
structure Balanced (bus : StarkEventCore) (away : ℕ) : Prop where
  capacity : bus.ring.capacity < 2^32
  published : bus.stats.published = u32 (bus.stats.dropped+away+bus.ring.count)
  dropped : bus.stats.dropped < 2^32

theorem balanced_publish {bus : StarkEventCore} {away : ℕ} (h : Balanced bus away)
    (e : Option StarkEvent) : Balanced (starkEventCorePublish bus e).2 away ∧
      bus.ring.count ≤ (starkEventCorePublish bus e).2.ring.count ∧
      ((starkEventCorePublish bus e).1 = .ok ∨ (starkEventCorePublish bus e).2 = bus) := by
  rcases publish_cases bus e with hp | ⟨ev,depth,-,-,hp⟩
  · rw [hp]
    exact ⟨h,Nat.le_refl _,.inr rfl⟩
  · rw [hp]
    have hcount : (pushRing bus.ring ev).count =
        if bus.ring.count = bus.ring.capacity then bus.ring.count else bus.ring.count+1 := by
      have hlt := bus.ring.head_lt
      have hle := bus.ring.count_le
      unfold pushRing
      split
      · simp only [append_count, advance_count]
        omega
      · rfl
    refine ⟨⟨?_,?_,?_⟩,?_,.inl rfl⟩
    · rw [pushRing_capacity]
      exact h.capacity
    · dsimp only
      rw [h.published, hcount, u32_add_one]
      unfold u32
      split <;> omega
    · dsimp only
      split
      · exact u32_lt _
      · exact h.dropped
    · dsimp only
      rw [hcount]
      split <;> omega

theorem balanced_pending {bus : StarkEventCore} {consumed : ℕ} (h : Balanced bus consumed)
    (hc : consumed < 2^32) :
    sub32 (sub32 bus.stats.published bus.stats.dropped) consumed = bus.ring.count := by
  have hle := bus.ring.count_le
  have hcap := h.capacity
  have hd := h.dropped
  rw [h.published]
  unfold sub32 u32
  omega

theorem round_cases {s t : Sys} {f : Frame} (hf : s.stack = [f]) (h : EventBus.step s = some t) :
    (∃ g, t.stack = [g] ∧ t.bus = s.bus ∧ took g = took f) ∨
    (∃ g, t.stack = [g] ∧ 0 < s.bus.ring.count ∧
      t.bus = { s.bus with ring := advance s.bus.ring } ∧ took g = took f+1) ∨
    t.stack = [] ∧ t.bus = dispatchLeave s.bus ∧ took f = f.delivered := by
  unfold EventBus.step at h
  rw [hf] at h
  dsimp only at h
  cases hpc : f.pc with
  | loop more =>
    rw [hpc] at h
    dsimp only at h
    have htook : took f = f.delivered := by
      unfold took
      rw [hpc]
      rfl
    split at h
    · split at h
      · rename_i e subs bus htake
        obtain rfl := Option.some.inj h
        unfold dispatchTake at htake
        split at htake
        · rename_i hgt
          cases htake
          refine .inr (.inl ⟨_,rfl,by omega,rfl,?_⟩)
          rw [htook]
          rfl
        · cases htake
      · obtain rfl := Option.some.inj h
        exact .inl ⟨_,rfl,rfl,htook.symm⟩
    · obtain rfl := Option.some.inj h
      exact .inr (.inr ⟨rfl,rfl,htook⟩)
  | deliver e subs =>
    rw [hpc] at h
    have htook : took f = f.delivered+1 := by
      unfold took
      rw [hpc]
      rfl
    cases subs with
    | nil =>
      obtain rfl := Option.some.inj h
      exact .inl ⟨_,rfl,rfl,htook.symm⟩
    | cons sub subs =>
      obtain rfl := Option.some.inj h
      exact .inl ⟨_,rfl,rfl,htook.symm⟩

def Framed (place : Place) (sys : Sys) : Prop :=
  if place = .dispatching then ∃ f, sys.stack = [f] ∧ sys.bus.dispatching = true
  else sys.stack = [] ∧ sys.bus.dispatching = false

structure Inv (s : Waiting) : Prop where
  balanced : Balanced s.sys.bus (s.consumed+inFlight s.place s.sys.stack)
  consumed : s.consumed < 2^32
  framed : Framed s.place s.sys
  awake : s.place = .returned .ok → 0 < s.sys.bus.ring.count
  asleep : s.place = .take → s.token = false → 0 < s.sys.bus.ring.count → ∃ p, s.publishers p = true

theorem publish_frame (s : Sys) (e : Option StarkEvent) :
    (publish s e).bus = (starkEventCorePublish s.bus e).2 ∧ (publish s e).stack = s.stack ∧
      (publish s e).bus.dispatching = s.bus.dispatching := by
  rcases publish_cases s.bus e with hp | ⟨ev,depth,rfl,-,hp⟩
  · unfold publish
    rw [hp]
    exact ⟨rfl,rfl,rfl⟩
  · unfold publish
    rw [hp]
    exact ⟨rfl,rfl,rfl⟩

theorem subscribe_frame (s : Sys) (typeMask : ℕ) (fn : Option ℕ) (ctx : ℕ) :
    (subscribe s typeMask fn ctx).bus.ring = s.bus.ring ∧
    (subscribe s typeMask fn ctx).bus.stats = s.bus.stats ∧
    (subscribe s typeMask fn ctx).stack = s.stack ∧
    (subscribe s typeMask fn ctx).bus.dispatching = s.bus.dispatching := by
  rcases subscribe_cases s.bus typeMask fn ctx with ⟨err,hne,hs⟩ | ⟨f,hlen,rfl,hs⟩
  · unfold subscribe
    rw [hs]
    cases err <;> first | exact absurd rfl hne | exact ⟨rfl,rfl,rfl,rfl⟩
  · unfold subscribe
    rw [hs]
    exact ⟨rfl,rfl,rfl,rfl⟩

theorem balanced_same {a b : StarkEventCore} {away : ℕ} (h : Balanced a away)
    (hr : b.ring = a.ring) (hs : b.stats = a.stats) : Balanced b away := by
  constructor
  · rw [hr]
    exact h.capacity
  · rw [hr, hs]
    exact h.published
  · rw [hs]
    exact h.dropped

theorem dispatch_cases (s : Sys) (maxEvents : ℕ) :
    ((dispatch s maxEvents).bus = s.bus ∧ (dispatch s maxEvents).stack = s.stack) ∨
    s.bus.dispatching = false ∧ (dispatch s maxEvents).bus = { s.bus with dispatching := true } ∧
      ∃ f, (dispatch s maxEvents).stack = f::s.stack ∧ took f = 0 := by
  unfold dispatch
  dsimp only
  split
  · exact .inl ⟨rfl,rfl⟩
  · cases hd : s.bus.dispatching with
    | true =>
      rw [show dispatchEnter s.bus = none from if_pos hd]
      exact .inl ⟨rfl,rfl⟩
    | false =>
      have henter : dispatchEnter s.bus =
          some (s.bus.stats.published,{ s.bus with dispatching := true }) :=
        if_neg (by rw [hd]; decide)
      rw [henter]
      exact .inr ⟨rfl,rfl,_,rfl,rfl⟩

section
variable {s t : Waiting}

theorem Inv.move (h : Inv s) {place : Place} {token : Bool}
    (hs : s.place ≠ .dispatching ∧ inFlight s.place s.sys.stack = 0)
    (hp : place ≠ .dispatching ∧ inFlight place s.sys.stack = 0)
    (hawake : place = .returned .ok → 0 < s.sys.bus.ring.count)
    (hasleep : place = .take → token = false → 0 < s.sys.bus.ring.count →
      ∃ p, s.publishers p = true) :
    Inv { s with place := place, token := token } where
  balanced := by
    have hb := h.balanced
    rw [hs.2] at hb
    dsimp only
    rw [hp.2]
    exact hb
  consumed := h.consumed
  framed := by
    have hf := h.framed
    unfold Framed at hf ⊢
    rw [if_neg hs.1] at hf
    rw [if_neg hp.1]
    exact hf
  awake := hawake
  asleep := hasleep

theorem inv_publish (h : Inv s) (p : ℕ) (e : Option StarkEvent) (hfree : s.publishers p = false) :
    Inv { s with
      sys := publish s.sys e
      publishers := Function.update s.publishers p ((starkEventCorePublish s.sys.bus e).1 = .ok) } := by
  obtain ⟨hbus,hstack,hdisp⟩ := publish_frame s.sys e
  obtain ⟨hb,hcount,hok⟩ := balanced_publish h.balanced e
  constructor
  · dsimp only
    rw [hbus, hstack]
    exact hb
  · exact h.consumed
  · have hf := h.framed
    unfold Framed at hf ⊢
    dsimp only
    rw [hstack, hdisp]
    exact hf
  · intro hp
    dsimp only
    rw [hbus]
    exact Nat.lt_of_lt_of_le (h.awake hp) hcount
  · intro hp htoken hne
    rcases hok with hok | hsame
    · exact ⟨p,(Function.update_self _ _ _).trans (decide_eq_true hok)⟩
    · dsimp only at hne
      rw [hbus, hsame] at hne
      obtain ⟨q,hq⟩ := h.asleep hp htoken hne
      refine ⟨q,(Function.update_of_ne ?_ _ _).trans hq⟩
      rintro rfl
      rw [hfree] at hq
      cases hq

theorem inv_give (h : Inv s) (p : ℕ) :
    Inv { s with token := true, publishers := Function.update s.publishers p false } :=
  ⟨h.balanced,h.consumed,h.framed,h.awake,fun _ htoken => by cases htoken⟩

theorem inv_subscribe (h : Inv s) (typeMask : ℕ) (fn : Option ℕ) (ctx : ℕ) :
    Inv { s with sys := subscribe s.sys typeMask fn ctx } := by
  obtain ⟨hring,hstats,hstack,hdisp⟩ := subscribe_frame s.sys typeMask fn ctx
  constructor
  · dsimp only
    rw [hstack]
    exact balanced_same h.balanced hring hstats
  · exact h.consumed
  · have hf := h.framed
    unfold Framed at hf ⊢
    dsimp only
    rw [hstack, hdisp]
    exact hf
  · dsimp only
    rw [hring]
    exact h.awake
  · dsimp only
    rw [hring]
    exact h.asleep

theorem inv_dispatch (h : Inv s) (hs : s.place = .running) (maxEvents : ℕ) :
    Inv { s with
      sys := dispatch s.sys maxEvents
      place := if (dispatch s.sys maxEvents).stack.isEmpty then .adding 0 else .dispatching } := by
  have hf := h.framed
  unfold Framed at hf
  rw [hs, if_neg (by decide)] at hf
  have hb := h.balanced
  rw [hs] at hb
  rcases dispatch_cases s.sys maxEvents with ⟨hbus,hstack⟩ | ⟨-,hbus,f,hstack,htook⟩
  · rw [hstack, hf.1]
    constructor
    · dsimp only
      rw [hbus]
      exact hb
    · exact h.consumed
    · unfold Framed
      rw [if_neg (by simp), hstack, hbus]
      exact hf
    · exact fun hp => by cases hp
    · exact fun hp => by cases hp
  · rw [hstack]
    constructor
    · dsimp only
      rw [hbus, hstack, hf.1]
      show Balanced _ (s.consumed+([f].map took).sum)
      rw [List.map_singleton, List.sum_singleton, htook]
      exact balanced_same hb rfl rfl
    · exact h.consumed
    · unfold Framed
      rw [if_pos (by rfl), hstack, hbus, hf.1]
      exact ⟨f,rfl,rfl⟩
    · exact fun hp => by cases hp
    · exact fun hp => by cases hp

theorem inv_nested (h : Inv s) (hs : s.place = .dispatching) (maxEvents : ℕ) :
    Inv { s with sys := dispatch s.sys maxEvents } := by
  have hf := h.framed
  unfold Framed at hf
  rw [hs, if_pos rfl] at hf
  obtain ⟨f,hstack,hdisp⟩ := hf
  rcases dispatch_cases s.sys maxEvents with ⟨hbus,hsame⟩ | ⟨hfree,-⟩
  · constructor
    · dsimp only
      rw [hbus, hsame]
      exact h.balanced
    · exact h.consumed
    · have hf := h.framed
      unfold Framed at hf ⊢
      dsimp only
      rw [hbus, hsame]
      exact hf
    · dsimp only
      rw [hs]
      exact fun hp => by cases hp
    · dsimp only
      rw [hs]
      exact fun hp => by cases hp
  · rw [hdisp] at hfree
    cases hfree

theorem inv_round (h : Inv s) (hs : s.place = .dispatching) {sys : Sys}
    (hr : EventBus.step s.sys = some sys) :
    Inv { s with
      sys := sys
      place := if sys.stack.isEmpty then .adding ((s.sys.stack.head?.map Frame.delivered).getD 0)
        else .dispatching } := by
  have hf := h.framed
  unfold Framed at hf
  rw [hs, if_pos rfl] at hf
  obtain ⟨f,hstack,hdisp⟩ := hf
  have hb := h.balanced
  rw [hs, hstack] at hb
  have haway : s.consumed+inFlight .dispatching [f] = s.consumed+took f := by
    show s.consumed+([f].map took).sum = _
    rw [List.map_singleton, List.sum_singleton]
  rw [haway] at hb
  have hgo : ∀ g, sys.stack = [g] → sys.bus.dispatching = true → Balanced sys.bus (s.consumed+took g) →
      Inv { s with
        sys := sys
        place := if sys.stack.isEmpty then .adding ((s.sys.stack.head?.map Frame.delivered).getD 0)
          else .dispatching } := by
    intro g hg hd hbal
    rw [hg]
    constructor
    · dsimp only
      rw [hg]
      show Balanced _ (s.consumed+([g].map took).sum)
      rw [List.map_singleton, List.sum_singleton]
      exact hbal
    · exact h.consumed
    · unfold Framed
      rw [if_pos (by rfl)]
      exact ⟨g,hg,hd⟩
    · exact fun hp => by cases hp
    · exact fun hp => by cases hp
  rcases round_cases hstack hr with ⟨g,hg,hbus,htook⟩ | ⟨g,hg,hpos,hbus,htook⟩ | ⟨hnil,hbus,htook⟩
  · exact hgo g hg (hbus ▸ hdisp) (by rw [hbus, htook]; exact hb)
  · refine hgo g hg (by rw [hbus]; exact hdisp) ?_
    rw [hbus, htook]
    refine ⟨hb.capacity,?_,hb.dropped⟩
    have hpub := hb.published
    dsimp only
    rw [advance_count, hpub]
    congr 1
    omega
  · rw [hnil, hstack]
    constructor
    · rw [hbus]
      show Balanced _ (s.consumed+f.delivered)
      rw [← htook]
      exact balanced_same hb rfl rfl
    · exact h.consumed
    · unfold Framed
      rw [if_neg (by simp), hbus]
      exact ⟨hnil,rfl⟩
    · exact fun hp => by cases hp
    · exact fun hp => by cases hp

theorem inv_add (h : Inv s) {n : ℕ} (hs : s.place = .adding n) :
    Inv { s with consumed := u32 (s.consumed+n), place := .running } := by
  have hb := h.balanced
  rw [hs] at hb
  have hf := h.framed
  rw [hs] at hf
  refine ⟨⟨hb.capacity,?_,hb.dropped⟩,u32_lt _,hf,fun hp => (by cases hp),fun hp => by cases hp⟩
  have hpub := hb.published
  dsimp only
  rw [hpub]
  show u32 (s.sys.bus.stats.dropped+(s.consumed+n)+s.sys.bus.ring.count) =
    u32 (s.sys.bus.stats.dropped+(u32 (s.consumed+n)+0)+s.sys.bus.ring.count)
  unfold u32
  omega

theorem inv_step {a : Act} (h : Inv s) (ht : step s a = some t) : Inv t := by
  cases a with
  | publish p e =>
    dsimp only [step] at ht
    split at ht
    · cases ht
    · rename_i hp
      obtain rfl := Option.some.inj ht
      exact inv_publish h p e (Bool.eq_false_iff.mpr hp)
  | give p =>
    dsimp only [step] at ht
    split at ht
    · obtain rfl := Option.some.inj ht
      exact inv_give h p
    · cases ht
  | subscribe typeMask fn ctx =>
    obtain rfl := Option.some.inj ht
    exact inv_subscribe h typeMask fn ctx
  | dispatch maxEvents =>
    dsimp only [step] at ht
    split at ht
    · obtain rfl := Option.some.inj ht
      exact inv_dispatch h ‹_› maxEvents
    · cases ht
  | nested maxEvents =>
    dsimp only [step] at ht
    split at ht
    · obtain rfl := Option.some.inj ht
      exact inv_nested h ‹_› maxEvents
    · cases ht
  | round =>
    dsimp only [step] at ht
    split at ht
    · obtain ⟨sys,hr,rfl⟩ := Option.map_eq_some_iff.mp ht
      exact inv_round h ‹_› hr
    · cases ht
  | add =>
    dsimp only [step] at ht
    split at ht
    · obtain rfl := Option.some.inj ht
      exact inv_add h ‹_›
    · cases ht
  | wait =>
    dsimp only [step] at ht
    split at ht
    · rename_i hs
      obtain rfl := Option.some.inj ht
      exact h.move (by rw [hs]; exact ⟨by decide,rfl⟩) ⟨by decide,rfl⟩ (fun hp => by cases hp)
        fun hp => by cases hp
    · cases ht
  | look =>
    dsimp only [step] at ht
    split at ht
    · rename_i last hs
      obtain rfl := Option.some.inj ht
      have hb : Balanced s.sys.bus s.consumed := by
        have hb := h.balanced
        rw [hs] at hb
        exact hb
      have hpending := balanced_pending hb h.consumed
      have hiff : busPending s.sys.bus s.consumed = true ↔ 0 < s.sys.bus.ring.count := by
        unfold busPending
        rw [decide_eq_true_iff, hpending, Nat.pos_iff_ne_zero]
      refine h.move (by rw [hs]; exact ⟨by simp,rfl⟩) ?_ ?_ ?_
      · split
        · exact ⟨by decide,rfl⟩
        · split <;> exact ⟨by decide,rfl⟩
      · intro hp
        by_cases hring : busPending s.sys.bus s.consumed = true
        · exact hiff.mp hring
        · rw [if_neg hring] at hp
          split at hp <;> cases hp
      · intro hp _ hpos
        rw [if_pos (hiff.mpr hpos)] at hp
        cases hp
    · cases ht
  | take =>
    dsimp only [step] at ht
    split at ht
    · rename_i hs
      obtain rfl := Option.some.inj ht
      exact h.move (by rw [hs.1]; exact ⟨by decide,rfl⟩) ⟨by decide,rfl⟩ (fun hp => by cases hp)
        fun hp => by cases hp
    · cases ht
  | expire =>
    dsimp only [step] at ht
    split at ht
    · rename_i hs
      obtain rfl := Option.some.inj ht
      exact h.move (by rw [hs.1]; exact ⟨by decide,rfl⟩) ⟨by decide,rfl⟩ (fun hp => by cases hp)
        fun hp => by cases hp
    · cases ht
  | time out =>
    dsimp only [step] at ht
    split at ht
    · rename_i hs
      obtain rfl := Option.some.inj ht
      exact h.move (by rw [hs]; exact ⟨by decide,rfl⟩) ⟨by simp,rfl⟩ (fun hp => by cases hp)
        fun hp => by cases hp
    · cases ht
  | leave =>
    dsimp only [step] at ht
    split at ht
    · rename_i r hs
      obtain rfl := Option.some.inj ht
      exact h.move (by rw [hs]; exact ⟨by simp,rfl⟩) ⟨by decide,rfl⟩ (fun hp => by cases hp)
        fun hp => by cases hp
    · cases ht

end

theorem inv_boot {storage : ℕ → StarkEvent} {capacity : ℕ} {bus : StarkEventCore}
    (hb : starkEventCoreInit storage capacity = .ok bus) (hcap : capacity < 2^32) :
    Inv (boot bus) := by
  unfold starkEventCoreInit at hb
  split at hb
  · cases hb
  · cases hb
    have hzero : 0 < 2^32 := by decide
    exact ⟨⟨hcap,rfl,hzero⟩,hzero,⟨rfl,rfl⟩,fun hp => (by cases hp),fun hp => by cases hp⟩

/-- Whatever the tasks do in between: a wait ends well only while the ring holds an event;
the waiter is blocked over a ring that holds one only until a publisher gives the semaphore;
and outside of a dispatch the counters tell how many events are queued. -/
theorem wait_never_misses (storage : ℕ → StarkEvent) (capacity : ℕ) (hcap : capacity < 2^32)
    (bus : StarkEventCore) (hb : starkEventCoreInit storage capacity = .ok bus) (as : List Act)
    (s : Waiting) (h : Run step Free (boot bus) as s) :
    (s.place = .returned .ok → 0 < s.sys.bus.ring.count) ∧
    (s.place = .take → s.token = false → 0 < s.sys.bus.ring.count →
      ∃ p, s.publishers p = true) ∧
    (s.place ≠ .dispatching → (∀ n, s.place ≠ .adding n) →
      sub32 (sub32 s.sys.bus.stats.published s.sys.bus.stats.dropped) s.consumed =
        s.sys.bus.ring.count) := by
  have hi := run_invariant Inv (fun _ _ _ hi _ h => inv_step hi h) as (inv_boot hb hcap) h
  refine ⟨hi.awake,hi.asleep,fun hd ha => ?_⟩
  have hzero : inFlight s.place s.sys.stack = 0 := by
    unfold inFlight
    split
    · exact absurd ‹_› hd
    · exact absurd ‹_› (ha _)
    · rfl
  have hbal := hi.balanced
  rw [hzero] at hbal
  exact balanced_pending hbal hi.consumed

/-- A publisher enqueues while the waiter is on its way into the take. -/
def raceRun : List Act :=
  [.publish 0 (some ⟨evtTick,0,.none⟩),.give 0,.dispatch 3,.round,.round,.round,.round,.add,.wait,
    .look,.take,.time false,.look,.publish 1 (some ⟨evtTick,0,.none⟩)]

theorem wait_never_misses_race : ∃ s, Run step Free (boot EventDelivery.singleBus) raceRun s ∧
    s.place = .take ∧ s.token = false ∧ ∃ p, s.publishers p = true := by
  obtain ⟨s,hs,hp,ht,hc⟩ := run_witness step (G := Free) (s := boot EventDelivery.singleBus)
    (p := fun s => s.place = .take ∧ s.token = false ∧ 0 < s.sys.bus.ring.count) raceRun
    (by decide) (by decide)
  have h := wait_never_misses _ 1 (by decide) _ rfl raceRun s hs
  exact ⟨s,hs,hp,ht,h.2.1 hp ht hc⟩

end StarkOne.EventWait
