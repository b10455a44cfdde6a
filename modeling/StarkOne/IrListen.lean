import StarkOne.IrTransmit

/-!
# Listening

Callers of `stark_ir_rx_start` and `stark_ir_rx_stop` exchange the flag, call
the driver and arm the receiver in separate atomic steps. Between them come
the steps of other callers, of the IR task, of transmissions and the interrupt
that ends a capture. The driver refuses what does not fit its state.
-/

set_option autoImplicit false

namespace StarkOne.IrListen
open StarkOne.Machine

/-- The receive channel as its driver sees it; only an enabled channel can be armed. -/
inductive Channel where
  | disabled
  | enabled
  | armed
  deriving DecidableEq

namespace Channel

def isEnabled : Channel → Bool
  | disabled => false
  | enabled | armed => true

/-- What the driver makes of a call, or nothing when it refuses. -/
def rmtEnable : Channel → Option Channel
  | disabled => some enabled
  | enabled | armed => none

def rmtDisable : Channel → Option Channel
  | disabled => none
  | enabled | armed => some disabled

def rmtReceive : Channel → Option Channel
  | enabled => some armed
  | disabled | armed => none

theorem rmtEnable_some {c d : Channel} (h : c.rmtEnable = some d) :
    c = disabled ∧ d = enabled := by
  cases c with
  | disabled => exact ⟨rfl,(Option.some.inj h).symm⟩
  | enabled | armed => cases h

theorem rmtEnable_none {c : Channel} (h : c.rmtEnable = none) : c.isEnabled = true := by
  cases c with
  | disabled => cases h
  | enabled | armed => rfl

end Channel

/-- Where a caller is; `starting` and `stopping` have changed the flag and call the driver
next, `arming` has found the flag on in `arm`. -/
inductive Caller where
  | idle (result : StarkErr)
  | starting
  | refused
  | enabled
  | arming
  | stopping
  deriving DecidableEq

def Caller.isIdle : Caller → Bool
  | .idle _ => true
  | _ => false

def Caller.arms : Caller → Bool
  | .starting | .enabled | .arming => true
  | .idle _ | .refused | .stopping => false

inductive Stage where
  | fetched
  | handling
  | arming
  deriving DecidableEq

/-- The last field notes the changes of the flag whose driver call is still to come, the
oldest first. -/
structure Listener where
  ir : IrTransmit.Ir
  fitted : Bool
  on : Bool
  channel : Channel
  stage : Stage
  callers : List Caller
  changes : List Bool

inductive Act where
  | start (c : ℕ)
  | enable (c : ℕ)
  | giveUp (c : ℕ)
  | load (c : ℕ)
  | receive (c : ℕ)
  | stop (c : ℕ)
  | disable (c : ℕ)
  | frame
  | taskLoad
  | taskArm
  | taskReceive
  | ir (a : IrTransmit.Act)

namespace Listener

def move (s : Listener) (c : ℕ) (x : Caller) : Listener := { s with callers := s.callers.set c x }

/-- A receive that is refused leaves the channel as it is. -/
def arm (s : Listener) : Listener := { s with channel := s.channel.rmtReceive.getD s.channel }

end Listener

def Heard (s : IrTransmit.Ir) : Prop := IrTransmit.Msg.rx ∈ s.queue ∨ s.work = .rx

instance (s : IrTransmit.Ir) : Decidable (Heard s) := by
  unfold Heard
  infer_instance

def transmits : IrTransmit.Act → Bool
  | .captured | .handled => false
  | _ => true

section
variable (interval : ℕ)

def handled (s : Listener) : Option Listener :=
  (IrTransmit.step interval s.ir .handled).map fun ir => { s with ir := ir, stage := .fetched }

def step (s : Listener) : Act → Option Listener
  | .start c => match s.callers[c]? with
    | some (.idle _) =>
      if !s.fitted then some (s.move c (.idle .notSupported))
      else if s.on then some (s.move c (.idle .ok))
      else some (Listener.move { s with on := true, changes := s.changes++[true] } c .starting)
    | _ => none
  | .enable c => match s.callers[c]? with
    | some .starting =>
      let s := { s with changes := s.changes.erase true }
      some (match s.channel.rmtEnable with
        | some channel => Listener.move { s with channel := channel } c .enabled
        | none => s.move c .refused)
    | _ => none
  | .giveUp c => match s.callers[c]? with
    | some .refused => some (Listener.move { s with on := false } c (.idle .io))
    | _ => none
  | .load c => match s.callers[c]? with
    | some .enabled => some (s.move c (if s.on then .arming else .idle .ok))
    | _ => none
  | .receive c => match s.callers[c]? with
    | some .arming => some (s.arm.move c (.idle .ok))
    | _ => none
  | .stop c => match s.callers[c]? with
    | some (.idle _) =>
      if !s.fitted then some (s.move c (.idle .notSupported))
      else if s.on then
        some (Listener.move { s with on := false, changes := s.changes++[false] } c .stopping)
      else some (s.move c (.idle .ok))
    | _ => none
  | .disable c => match s.callers[c]? with
    | some .stopping =>
      let s := { s with changes := s.changes.erase false }
      some (Listener.move { s with channel := s.channel.rmtDisable.getD s.channel } c (.idle .ok))
    | _ => none
  | .frame => match s.channel with
    | .armed => (IrTransmit.step interval s.ir .captured).map
        fun ir => { s with channel := .enabled, ir := ir }
    | _ => none
  | .taskLoad =>
    if s.ir.work = .rx ∧ s.stage = .fetched then
      if s.on then some { s with stage := .handling } else handled interval s
    else none
  | .taskArm =>
    if s.ir.work = .rx ∧ s.stage = .handling then
      if s.on then some { s with stage := .arming } else handled interval s
    else none
  | .taskReceive =>
    if s.ir.work = .rx ∧ s.stage = .arming then handled interval s.arm else none
  | .ir a =>
    if transmits a then (IrTransmit.step interval s.ir a).map fun ir => { s with ir := ir }
    else none

end

def start (fitted : Bool) (tasks t : ℕ) : Listener :=
  ⟨IrTransmit.start t,fitted,false,.disabled,.fetched,List.replicate tasks (.idle .ok),[]⟩

/-- With no call in progress the channel is enabled just when listening is on, and then it
will hear the next frame; and no call has failed. -/
def Sound (s : Listener) : Prop :=
  ((∀ x ∈ s.callers, x.isIdle = true) → s.channel.isEnabled = s.on ∧
    (s.on = true → s.channel = .armed ∨ Heard s.ir)) ∧
  .idle .io ∉ s.callers

instance (s : Listener) : Decidable (Sound s) := by
  unfold Sound
  infer_instance

/-- The driver is called in the order in which the flag was changed. -/
def InTurn (s : Listener) : Act → Prop
  | .enable _ => s.changes.head? = some true
  | .disable _ => s.changes.head? = some false
  | _ => True

instance (s : Listener) (a : Act) : Decidable (InTurn s a) := by
  cases a <;> unfold InTurn <;> infer_instance

inductive Moves (interval : ℕ) (s : Listener) : Act → Listener → Prop where
  | startUnfitted (c : ℕ) (r : StarkErr) (hc : s.callers[c]? = some (.idle r))
      (hf : s.fitted = false) : Moves interval s (.start c) (s.move c (.idle .notSupported))
  | startOn (c : ℕ) (r : StarkErr) (hc : s.callers[c]? = some (.idle r)) (hon : s.on = true) :
      Moves interval s (.start c) (s.move c (.idle .ok))
  | start (c : ℕ) (r : StarkErr) (hc : s.callers[c]? = some (.idle r)) (hf : s.fitted = true)
      (hon : s.on = false) : Moves interval s (.start c)
        (Listener.move { s with on := true, changes := s.changes++[true] } c .starting)
  | enable (c : ℕ) (hc : s.callers[c]? = some .starting) (hch : s.channel = .disabled) :
      Moves interval s (.enable c) (Listener.move
        { s with changes := s.changes.erase true, channel := .enabled } c .enabled)
  | refused (c : ℕ) (hc : s.callers[c]? = some .starting) (hch : s.channel.isEnabled = true) :
      Moves interval s (.enable c)
        (Listener.move { s with changes := s.changes.erase true } c .refused)
  | giveUp (c : ℕ) (hc : s.callers[c]? = some .refused) :
      Moves interval s (.giveUp c) (Listener.move { s with on := false } c (.idle .io))
  | loadOn (c : ℕ) (hc : s.callers[c]? = some .enabled) (hon : s.on = true) :
      Moves interval s (.load c) (s.move c .arming)
  | loadOff (c : ℕ) (hc : s.callers[c]? = some .enabled) (hon : s.on = false) :
      Moves interval s (.load c) (s.move c (.idle .ok))
  | receive (c : ℕ) (hc : s.callers[c]? = some .arming) :
      Moves interval s (.receive c) (s.arm.move c (.idle .ok))
  | stopUnfitted (c : ℕ) (r : StarkErr) (hc : s.callers[c]? = some (.idle r))
      (hf : s.fitted = false) : Moves interval s (.stop c) (s.move c (.idle .notSupported))
  | stop (c : ℕ) (r : StarkErr) (hc : s.callers[c]? = some (.idle r)) (hf : s.fitted = true)
      (hon : s.on = true) : Moves interval s (.stop c)
        (Listener.move { s with on := false, changes := s.changes++[false] } c .stopping)
  | stopOff (c : ℕ) (r : StarkErr) (hc : s.callers[c]? = some (.idle r)) (hon : s.on = false) :
      Moves interval s (.stop c) (s.move c (.idle .ok))
  | disable (c : ℕ) (hc : s.callers[c]? = some .stopping) :
      Moves interval s (.disable c) (Listener.move
        { s with changes := s.changes.erase false, channel := .disabled } c (.idle .ok))
  | frame (ir : IrTransmit.Ir) (hch : s.channel = .armed)
      (hi : IrTransmit.step interval s.ir .captured = some ir) :
      Moves interval s .frame { s with channel := .enabled, ir := ir }
  | wanted (hw : s.ir.work = .rx) (hon : s.on = true) :
      Moves interval s .taskLoad { s with stage := .handling }
  | dropped (ir : IrTransmit.Ir) (hon : s.on = false)
      (hi : IrTransmit.step interval s.ir .handled = some ir) :
      Moves interval s .taskLoad { s with ir := ir, stage := .fetched }
  | again (hw : s.ir.work = .rx) (hon : s.on = true) :
      Moves interval s .taskArm { s with stage := .arming }
  | left (ir : IrTransmit.Ir) (hon : s.on = false)
      (hi : IrTransmit.step interval s.ir .handled = some ir) :
      Moves interval s .taskArm { s with ir := ir, stage := .fetched }
  | rearmed (ir : IrTransmit.Ir) (hi : IrTransmit.step interval s.ir .handled = some ir) :
      Moves interval s .taskReceive { s.arm with ir := ir, stage := .fetched }
  | ir (a : IrTransmit.Act) (ir : IrTransmit.Ir) (ha : transmits a = true)
      (hi : IrTransmit.step interval s.ir a = some ir) :
      Moves interval s (.ir a) { s with ir := ir }

theorem handled_some {interval : ℕ} {s t : Listener} (h : handled interval s = some t) :
    ∃ ir, IrTransmit.step interval s.ir .handled = some ir ∧
      t = { s with ir := ir, stage := .fetched } := by
  obtain ⟨ir,hi,rfl⟩ := Option.map_eq_some_iff.mp h
  exact ⟨ir,hi,rfl⟩

theorem step_cases {interval : ℕ} {s t : Listener} {a : Act} (h : step interval s a = some t) :
    Moves interval s a t := by
  cases a with
  | start c =>
    dsimp only [step] at h
    split at h
    · rename_i r hc
      split at h
      · rename_i hf
        obtain rfl := Option.some.inj h
        exact .startUnfitted c r hc (by simpa using hf)
      · rename_i hf
        split at h <;> obtain rfl := Option.some.inj h
        · exact .startOn c r hc ‹_›
        · rename_i hon
          exact .start c r hc (by simpa using hf) (Bool.eq_false_iff.mpr hon)
    · cases h
  | enable c =>
    dsimp only [step] at h
    split at h
    · rename_i hc
      obtain rfl := Option.some.inj h
      split
      · rename_i channel hen
        obtain ⟨hch,rfl⟩ := Channel.rmtEnable_some hen
        exact .enable c hc hch
      · rename_i hen
        exact .refused c hc (Channel.rmtEnable_none hen)
    · cases h
  | giveUp c =>
    dsimp only [step] at h
    split at h
    · obtain rfl := Option.some.inj h
      exact .giveUp c ‹_›
    · cases h
  | load c =>
    dsimp only [step] at h
    split at h
    · rename_i hc
      obtain rfl := Option.some.inj h
      cases hon : s.on
      · exact .loadOff c hc hon
      · exact .loadOn c hc hon
    · cases h
  | receive c =>
    dsimp only [step] at h
    split at h
    · obtain rfl := Option.some.inj h
      exact .receive c ‹_›
    · cases h
  | stop c =>
    dsimp only [step] at h
    split at h
    · rename_i r hc
      split at h
      · rename_i hf
        obtain rfl := Option.some.inj h
        exact .stopUnfitted c r hc (by simpa using hf)
      · rename_i hf
        split at h <;> obtain rfl := Option.some.inj h
        · exact .stop c r hc (by simpa using hf) ‹_›
        · rename_i hon
          exact .stopOff c r hc (Bool.eq_false_iff.mpr hon)
    · cases h
  | disable c =>
    dsimp only [step] at h
    split at h
    · rename_i hc
      obtain rfl := Option.some.inj h
      have hd : s.channel.rmtDisable.getD s.channel = .disabled := by
        cases s.channel <;> rfl
      rw [hd]
      exact .disable c hc
    · cases h
  | frame =>
    dsimp only [step] at h
    split at h
    · obtain ⟨ir,hi,rfl⟩ := Option.map_eq_some_iff.mp h
      exact .frame ir ‹_› hi
    · cases h
  | taskLoad =>
    dsimp only [step] at h
    split at h
    · rename_i hw
      split at h
      · obtain rfl := Option.some.inj h
        exact .wanted hw.1 ‹_›
      · rename_i hon
        obtain ⟨ir,hi,rfl⟩ := handled_some h
        exact .dropped ir (Bool.eq_false_iff.mpr hon) hi
    · cases h
  | taskArm =>
    dsimp only [step] at h
    split at h
    · rename_i hw
      split at h
      · obtain rfl := Option.some.inj h
        exact .again hw.1 ‹_›
      · rename_i hon
        obtain ⟨ir,hi,rfl⟩ := handled_some h
        exact .left ir (Bool.eq_false_iff.mpr hon) hi
    · cases h
  | taskReceive =>
    dsimp only [step] at h
    split at h
    · obtain ⟨ir,hi,rfl⟩ := handled_some h
      exact .rearmed ir hi
    · cases h
  | ir a =>
    dsimp only [step] at h
    split at h
    · obtain ⟨ir,hi,rfl⟩ := Option.map_eq_some_iff.mp h
      exact .ir a ir ‹_› hi
    · cases h

section
variable {α : Type*} {l : List α} {c : ℕ} {x y z : α}

theorem not_mem_set (hx : x ≠ z) (hz : z ∉ l) : z ∉ l.set c x := by
  intro h
  rcases List.mem_or_eq_of_mem_set h with hl | rfl
  · exact hz hl
  · exact hx rfl

variable [DecidableEq α]

theorem count_enter (h : l[c]? = some y) (hne : y ≠ x) : (l.set c x).count x = l.count x+1 := by
  obtain ⟨hc,hy⟩ := List.getElem?_eq_some_iff.mp h
  rw [List.count_set hc, hy, if_neg (by simpa using hne), if_pos (by simp)]
  rfl

theorem count_leave (h : l[c]? = some x) (hne : y ≠ x) :
    (l.set c y).count x+1 = l.count x := by
  obtain ⟨hc,hx⟩ := List.getElem?_eq_some_iff.mp h
  have hpos : 0 < l.count x := List.count_pos_iff.mpr (List.mem_of_getElem? h)
  rw [List.count_set hc, hx, if_pos (by simp), if_neg (by simpa using hne)]
  omega

theorem count_elsewhere (h : l[c]? = some y) (hy : y ≠ z) (hx : x ≠ z) :
    (l.set c x).count z = l.count z := by
  obtain ⟨hc,hy'⟩ := List.getElem?_eq_some_iff.mp h
  rw [List.count_set hc, hy', if_neg (by simpa using hy), if_neg (by simpa using hx)]
  rfl

theorem mem_set_of_ne (h : l[c]? = some y) (hne : y ≠ z) (hz : z ∈ l) : z ∈ l.set c x := by
  by_cases hx : x = z
  · subst hx
    exact List.mem_set (List.getElem?_eq_some_iff.mp h).1 x
  · rw [← List.count_pos_iff, count_elsewhere h hne hx]
    exact List.count_pos_iff.mpr hz

end

def Alternates : Bool → List Bool → Bool → Prop
  | e, [], on => e = on
  | e, k::ks, on => k = !e ∧ Alternates k ks on

theorem alternates_append {e : Bool} {ks : List Bool} {on : Bool} (h : Alternates e ks on) :
    Alternates e (ks++[!on]) (!on) := by
  induction ks generalizing e with
  | nil => exact ⟨by rw [← (show e = on from h)],rfl⟩
  | cons k ks ih => exact ⟨h.1,ih h.2⟩

theorem alternates_balance {e : Bool} {ks : List Bool} {on : Bool} (h : Alternates e ks on) :
    ks.count true+e.toNat = ks.count false+on.toNat := by
  induction ks generalizing e with
  | nil =>
    obtain rfl : e = on := h
    rfl
  | cons k ks ih =>
    obtain ⟨rfl,h⟩ := h
    have := ih h
    cases e <;> simp at this ⊢ <;> omega

def Coming (l : List Caller) : Prop := ∃ x ∈ l, x.arms = true

def Live (s : Listener) : Prop :=
  s.on = true → s.channel = .armed ∨ Heard s.ir ∨ Coming s.callers

structure Steady (s : Listener) : Prop where
  alternates : Alternates s.channel.isEnabled s.changes s.on
  starting : s.callers.count .starting = s.changes.count true
  stopping : s.callers.count .stopping = s.changes.count false
  fitted : s.changes ≠ [] → s.fitted = true
  refused : .refused ∉ s.callers
  io : .idle .io ∉ s.callers
  holder : IrTransmit.Holder s.ir
  live : Live s

section
variable {interval : ℕ} {s t : Listener}

theorem Steady.starts (h : Steady s) (hk : true ∈ s.changes) : .starting ∈ s.callers := by
  rw [← List.count_pos_iff] at hk ⊢
  rwa [h.starting]

theorem Steady.enabling (h : Steady s) (hon : s.on = true) (hch : s.channel = .disabled) :
    .starting ∈ s.callers := by
  apply h.starts
  have hb := alternates_balance h.alternates
  rw [hon, hch] at hb
  simp [Channel.isEnabled] at hb
  rw [← List.count_pos_iff]
  omega

theorem Steady.move (h : Steady s) {c : ℕ} {x y : Caller} (hc : s.callers[c]? = some y)
    (hy : y ≠ .starting ∧ y ≠ .stopping)
    (hx : x ≠ .starting ∧ x ≠ .stopping ∧ x ≠ .refused ∧ x ≠ .idle .io)
    (hlive : Live (s.move c x)) : Steady (s.move c x) where
  alternates := h.alternates
  starting := (count_elsewhere hc hy.1 hx.1).trans h.starting
  stopping := (count_elsewhere hc hy.2 hx.2.1).trans h.stopping
  fitted := h.fitted
  refused := not_mem_set hx.2.2.1 h.refused
  io := not_mem_set hx.2.2.2 h.io
  holder := h.holder
  live := hlive

theorem Live.move (h : Live s) {c : ℕ} {x y : Caller} (hc : s.callers[c]? = some y)
    (hy : y.arms = false) : Live (s.move c x) := by
  intro hon
  rcases h hon with ha | hh | ⟨z,hz,harms⟩
  · exact .inl ha
  · exact .inr (.inl hh)
  · refine .inr (.inr ⟨z,mem_set_of_ne hc ?_ hz,harms⟩)
    rintro rfl
    rw [hy] at harms
    cases harms

theorem live_coming {c : ℕ} {x y : Caller} (hc : s.callers[c]? = some y)
    (hx : x.arms = true) : Live (s.move c x) := fun _ =>
  .inr (.inr ⟨x,List.mem_set (List.getElem?_eq_some_iff.mp hc).1 x,hx⟩)

theorem Steady.armed (h : Steady s) (hon : s.on = true) :
    s.arm.channel = .armed ∨ .starting ∈ s.callers := by
  unfold Listener.arm
  cases hch : s.channel with
  | disabled => exact .inr (h.enabling hon hch)
  | enabled | armed => exact .inl rfl

theorem arm_isEnabled (s : Listener) : s.arm.channel.isEnabled = s.channel.isEnabled := by
  unfold Listener.arm
  cases s.channel <;> rfl

theorem heard_kept {a : IrTransmit.Act} {u v : IrTransmit.Ir} (ha : transmits a = true)
    (hu : Heard u) (h : IrTransmit.step interval u a = some v) : Heard v := by
  cases IrTransmit.step_cases h with
  | captured | dropped | handled => cases ha
  | refused | planned | early | checked | taken | claimed | filled | unsent | waited => exact hu
  | sent => exact hu.imp_left fun hq => List.mem_append_left _ hq
  | receivedRx => exact .inr rfl
  | receivedTx queue hw hq =>
    rcases hu with hu | hu
    · rw [hq] at hu
      exact .inl ((List.mem_cons.mp hu).resolve_left (by decide))
    · rw [hw] at hu
      cases hu
  | started hw | repeated k hw | finished k done hw | cleared done hw =>
    rcases hu with hu | hu
    · exact .inl hu
    · rw [hw] at hu
      cases hu

theorem heard_captured {u v : IrTransmit.Ir} (hu : IrTransmit.Holder u)
    (h : IrTransmit.step interval u .captured = some v) : Heard v := by
  cases IrTransmit.step_cases h with
  | captured => exact .inl (List.mem_append_right _ (List.mem_singleton_self _))
  | dropped hfull =>
    refine .inl (Classical.byContradiction fun hrx => ?_)
    have hall : u.queue.count .tx = u.queue.length := by
      refine List.count_eq_length.mpr fun m hm => ?_
      cases m with
      | rx => exact absurd hm hrx
      | tx => rfl
    have hone := hu.one
    have hlen : IrTransmit.queueLen = 4 := rfl
    omega

theorem idle_still {y : Caller} (hy : ∃ r, y = .idle r) :
    (y ≠ .starting ∧ y ≠ .stopping) ∧ y.arms = false := by
  obtain ⟨r,rfl⟩ := hy
  exact ⟨⟨(by simp),(by simp)⟩,rfl⟩

theorem steady_step {a : Act} (hs : Steady s) (hg : InTurn s a) (h : step interval s a = some t) :
    Steady t := by
  cases step_cases h with
  | startUnfitted c r hc | startOn c r hc | stopUnfitted c r hc | stopOff c r hc =>
    have hy := idle_still ⟨r,rfl⟩
    exact hs.move hc hy.1 (by decide) (hs.live.move hc hy.2)
  | start c r hc hf hon =>
    have hy := idle_still ⟨r,rfl⟩
    exact {
      alternates := by
        have happ := alternates_append hs.alternates
        rw [hon] at happ
        exact happ
      starting := by
        show (s.callers.set c _).count _ = (s.changes++[true]).count true
        rw [count_enter hc hy.1.1, hs.starting, List.count_append]
        rfl
      stopping := by
        show (s.callers.set c _).count _ = (s.changes++[true]).count false
        rw [count_elsewhere hc hy.1.2 (by decide), hs.stopping, List.count_append]
        rfl
      fitted := fun _ => hf
      refused := not_mem_set (by decide) hs.refused
      io := not_mem_set (by decide) hs.io
      holder := hs.holder
      live := live_coming hc rfl }
  | enable c hc hch =>
    obtain ⟨ks,hks⟩ := List.head?_eq_some_iff.mp hg
    have hrest : s.changes.erase true = ks := by rw [hks, List.erase_cons_head]
    exact {
      alternates := by
        have halt := hs.alternates
        rw [hks] at halt
        show Alternates true (s.changes.erase true) s.on
        rw [hrest]
        exact halt.2
      starting := by
        show (s.callers.set c _).count _ = (s.changes.erase true).count true
        have hleave := count_leave hc (show Caller.enabled ≠ .starting by decide)
        have hstart := hs.starting
        rw [hks, List.count_cons_self] at hstart
        rw [hrest]
        omega
      stopping := by
        show (s.callers.set c _).count _ = (s.changes.erase true).count false
        rw [count_elsewhere hc (by decide) (by decide), hs.stopping, hks, List.erase_cons_head]
        exact List.count_cons_of_ne (by decide)
      fitted := fun _ => hs.fitted (by rw [hks]; exact List.cons_ne_nil _ _)
      refused := not_mem_set (by decide) hs.refused
      io := not_mem_set (by decide) hs.io
      holder := hs.holder
      live := live_coming hc rfl }
  | refused c hc hch =>
    obtain ⟨ks,hks⟩ := List.head?_eq_some_iff.mp hg
    have halt := hs.alternates
    rw [hks, hch] at halt
    cases halt.1
  | giveUp c hc => exact absurd (List.mem_of_getElem? hc) hs.refused
  | loadOn c hc => exact hs.move hc (by decide) (by decide) (live_coming hc rfl)
  | loadOff c hc hoff =>
    refine hs.move hc (by decide) (by decide) fun hon => ?_
    rw [show s.on = true from hon] at hoff
    cases hoff
  | receive c hc =>
    exact {
      alternates := by
        show Alternates s.arm.channel.isEnabled _ _
        rw [arm_isEnabled]
        exact hs.alternates
      starting := (count_elsewhere hc (by decide) (by decide)).trans hs.starting
      stopping := (count_elsewhere hc (by decide) (by decide)).trans hs.stopping
      fitted := hs.fitted
      refused := not_mem_set (by decide) hs.refused
      io := not_mem_set (by decide) hs.io
      holder := hs.holder
      live := fun hon => (hs.armed hon).imp_right fun hstart =>
        .inr ⟨.starting,mem_set_of_ne hc (by decide) hstart,rfl⟩ }
  | stop c r hc hf hon =>
    have hy := idle_still ⟨r,rfl⟩
    exact {
      alternates := by
        have happ := alternates_append hs.alternates
        rw [hon] at happ
        exact happ
      starting := by
        show (s.callers.set c _).count _ = (s.changes++[false]).count true
        rw [count_elsewhere hc hy.1.1 (by decide), hs.starting, List.count_append]
        rfl
      stopping := by
        show (s.callers.set c _).count _ = (s.changes++[false]).count false
        rw [count_enter hc hy.1.2, hs.stopping, List.count_append]
        rfl
      fitted := fun _ => hf
      refused := not_mem_set (by decide) hs.refused
      io := not_mem_set (by decide) hs.io
      holder := hs.holder
      live := fun hon => by cases hon }
  | disable c hc =>
    obtain ⟨ks,hks⟩ := List.head?_eq_some_iff.mp hg
    have hrest : s.changes.erase false = ks := by rw [hks, List.erase_cons_head]
    have halt := hs.alternates
    rw [hks] at halt
    have hstarts : (s.callers.set c (.idle .ok)).count .starting = ks.count true := by
      rw [count_elsewhere hc (by decide) (by decide), hs.starting, hks]
      exact List.count_cons_of_ne (by decide)
    exact {
      alternates := by
        show Alternates false (s.changes.erase false) s.on
        rw [hrest]
        exact halt.2
      starting := by
        show (s.callers.set c _).count _ = (s.changes.erase false).count true
        rw [hrest]
        exact hstarts
      stopping := by
        show (s.callers.set c _).count _ = (s.changes.erase false).count false
        have hleave := count_leave hc (show Caller.idle .ok ≠ .stopping by decide)
        have hstop := hs.stopping
        rw [hks, List.count_cons_self] at hstop
        rw [hrest]
        omega
      fitted := fun _ => hs.fitted (by rw [hks]; exact List.cons_ne_nil _ _)
      refused := not_mem_set (by decide) hs.refused
      io := not_mem_set (by decide) hs.io
      holder := hs.holder
      live := fun hon => by
        have hb := alternates_balance halt.2
        rw [show s.on = true from hon] at hb
        simp at hb
        refine .inr (.inr ⟨.starting,List.count_pos_iff.mp ?_,rfl⟩)
        show 0 < (s.callers.set c (.idle .ok)).count .starting
        rw [hstarts]
        omega }
  | frame ir hch hi =>
    have halt := hs.alternates
    rw [hch] at halt
    exact { hs with
      alternates := halt
      holder := IrTransmit.holder_step hs.holder hi
      live := fun _ => .inr (.inl (heard_captured hs.holder hi)) }
  | wanted | again => exact { hs with live := hs.live }
  | dropped ir hoff hi | left ir hoff hi =>
    exact { hs with
      holder := IrTransmit.holder_step hs.holder hi
      live := fun hon => by
        rw [show s.on = true from hon] at hoff
        cases hoff }
  | rearmed ir hi =>
    exact { hs with
      alternates := by
        show Alternates s.arm.channel.isEnabled _ _
        rw [arm_isEnabled]
        exact hs.alternates
      holder := IrTransmit.holder_step hs.holder hi
      live := fun hon => (hs.armed hon).imp_right fun hstart => .inr ⟨.starting,hstart,rfl⟩ }
  | ir a ir ha hi =>
    exact { hs with
      holder := IrTransmit.holder_step hs.holder hi
      live := fun hon => (hs.live hon).imp_right (Or.imp_left fun hu => heard_kept ha hu hi) }

theorem steady_start (fitted : Bool) (tasks t : ℕ) : Steady (start fitted tasks t) where
  alternates := rfl
  starting := List.count_replicate.trans (if_neg (by decide))
  stopping := List.count_replicate.trans (if_neg (by decide))
  fitted := fun h => absurd rfl h
  refused := fun h => by cases List.eq_of_mem_replicate h
  io := fun h => by cases List.eq_of_mem_replicate h
  holder := IrTransmit.holder_start t
  live := fun hon => by cases hon

theorem Steady.sound (h : Steady s) : Sound s := by
  refine ⟨fun hidle => ?_,h.io⟩
  have hnone : ∀ x : Caller, x.isIdle = false → s.callers.count x = 0 := by
    intro x hx
    refine List.count_eq_zero.mpr fun hmem => ?_
    rw [hidle x hmem] at hx
    cases hx
  have htrue : true ∉ s.changes := by
    rw [← List.count_eq_zero, ← h.starting]
    exact hnone _ rfl
  have hfalse : false ∉ s.changes := by
    rw [← List.count_eq_zero, ← h.stopping]
    exact hnone _ rfl
  have hnil : s.changes = [] := by
    refine List.eq_nil_iff_forall_not_mem.mpr fun k hk => ?_
    cases k with
    | true => exact htrue hk
    | false => exact hfalse hk
  have halt := h.alternates
  rw [hnil] at halt
  refine ⟨halt,fun hon => ?_⟩
  rcases h.live hon with ha | hh | ⟨x,hx,harms⟩
  · exact .inl ha
  · exact .inr hh
  · have hi := hidle x hx
    cases x <;> cases hi
    cases harms

theorem place_moved {c : ℕ} {x y : Caller} (hc : s.callers[c]? = some y) :
    (s.move c x).callers[c]? = some x :=
  List.getElem?_set_self (List.getElem?_eq_some_iff.mp hc).1

theorem fails_refused {c : ℕ} (hc : s.callers[c]? = some .refused) :
    ∃ u, Run (step interval) Free s [.giveUp c] u ∧ .idle .io ∈ u.callers := by
  refine ⟨Listener.move { s with on := false } c (.idle .io),⟨trivial,_,?_,rfl⟩,?_⟩
  · simp [step, hc]
  · exact List.mem_set (List.getElem?_eq_some_iff.mp hc).1 _

theorem fails_starting {c : ℕ} (hc : s.callers[c]? = some .starting)
    (hch : s.channel.isEnabled = true) :
    ∃ u, Run (step interval) Free s [.enable c,.giveUp c] u ∧ .idle .io ∈ u.callers := by
  let v := Listener.move { s with changes := s.changes.erase true } c .refused
  obtain ⟨u,hu,hio⟩ := fails_refused (s := v) (c := c) (place_moved hc)
  refine ⟨u,⟨trivial,v,?_,hu⟩,hio⟩
  cases hs : s.channel with
  | disabled =>
    rw [hs] at hch
    cases hch
  | enabled | armed => simp [step, hc, hs, Channel.rmtEnable, v]

theorem starts_off {c : ℕ} {r : StarkErr} (hc : s.callers[c]? = some (.idle r))
    (hf : s.fitted = true) (hon : s.on = false) :
    step interval s (.start c) =
      some (Listener.move { s with on := true, changes := s.changes++[true] } c .starting) := by
  simp [step, hc, hf, hon]

theorem loads_off {c : ℕ} (hc : s.callers[c]? = some .enabled) (hon : s.on = false) :
    step interval s (.load c) = some (s.move c (.idle .ok)) := by
  simp [step, hc, hon]

theorem fails_later {c : ℕ} (hc : s.callers[c]? = some .enabled) (hf : s.fitted = true)
    (hon : s.on = false) (hch : s.channel.isEnabled = true) :
    ∃ u, Run (step interval) Free s [.load c,.start c,.enable c,.giveUp c] u ∧
      .idle .io ∈ u.callers := by
  let v := s.move c (.idle .ok)
  let w := Listener.move { v with on := true, changes := v.changes++[true] } c .starting
  have hv : v.callers[c]? = some (.idle .ok) := place_moved hc
  have h1 : step interval s (.load c) = some v := loads_off hc hon
  have h2 : step interval v (.start c) = some w := starts_off hv hf hon
  obtain ⟨u,hu,hio⟩ := fails_starting (s := w) (place_moved hv) hch
  exact ⟨u,⟨trivial,v,h1,trivial,w,h2,hu⟩,hio⟩

/-- A driver call that overtakes another can make a start fail. -/
theorem overtaking {a : Act} (hs : Steady s) (hn : ¬InTurn s a)
    (h : step interval s a = some t) :
    ∃ bs u, Run (step interval) Free t bs u ∧ .idle .io ∈ u.callers := by
  have hhead : ∀ k, k ∈ s.changes → s.changes.head? ≠ some k →
      s.changes.head? = some (!k) ∧ s.channel.isEnabled = k := by
    intro k hk hne
    have halt := hs.alternates
    cases hks : s.changes with
    | nil =>
      rw [hks] at hk
      cases hk
    | cons k' ks =>
      rw [hks] at halt hne
      have hnot : k' = !k := Bool.eq_not.mpr fun h => hne (congrArg some h)
      exact ⟨congrArg some hnot,Bool.not_inj (halt.1.symm.trans hnot)⟩
  cases step_cases h with
  | enable c hc hch =>
    have hcount := List.count_pos_iff.mpr (List.mem_of_getElem? hc)
    rw [hs.starting] at hcount
    have hen := (hhead true (List.count_pos_iff.mp hcount) hn).2
    rw [hch] at hen
    cases hen
  | refused c hc => exact ⟨_,fails_refused (place_moved hc)⟩
  | disable c hc =>
    have hcount := List.count_pos_iff.mpr (List.mem_of_getElem? hc)
    rw [hs.stopping] at hcount
    obtain ⟨hfirst,hch⟩ := hhead false (List.count_pos_iff.mp hcount) hn
    obtain ⟨ks,hks⟩ := List.head?_eq_some_iff.mp hfirst
    let v := Listener.move
      { s with changes := s.changes.erase false, channel := .disabled } c (.idle .ok)
    have hsame : v.callers.count .starting = s.callers.count .starting :=
      count_elsewhere hc (by decide) (by decide)
    have htrue : true ∈ s.changes := by
      rw [hks]
      exact List.mem_cons_self
    have hstart : .starting ∈ v.callers := mem_set_of_ne hc (by decide) (hs.starts htrue)
    obtain ⟨i,hi⟩ := List.mem_iff_getElem?.mp hstart
    let w := Listener.move { v with changes := v.changes.erase true, channel := .enabled } i .enabled
    have hw : step interval v (.enable i) = some w := by
      simp [step, hi, w, Channel.rmtEnable, show v.channel = .disabled from rfl]
    have hfit : s.fitted = true := hs.fitted (by rw [hks]; exact List.cons_ne_nil _ _)
    rcases Bool.eq_false_or_eq_true s.on with hon | hon
    · -- two starts have changed the flag, and the second finds the channel enabled
      have hb := alternates_balance hs.alternates
      rw [hch, hon] at hb
      simp at hb
      have hleave := count_leave hi (show Caller.enabled ≠ .starting by decide)
      have hsecond : .starting ∈ w.callers := by
        refine List.count_pos_iff.mp ?_
        show 0 < (v.callers.set i .enabled).count .starting
        rw [hsame, hs.starting] at hleave
        omega
      obtain ⟨j,hj⟩ := List.mem_iff_getElem?.mp hsecond
      obtain ⟨u,hu,hio⟩ := fails_starting hj rfl
      exact ⟨.enable i::_,u,⟨trivial,w,hw,hu⟩,hio⟩
    · obtain ⟨u,hu,hio⟩ := fails_later (s := w) (place_moved hi) hfit hon rfl
      exact ⟨.enable i::_,u,⟨trivial,w,hw,hu⟩,hio⟩
  | _ => exact absurd trivial hn

end

/-- In the runs where the driver is called in the order in which the flag was changed, the
receiver's state is sound whenever no call is in progress and no start fails; any other
driver call can lead to a start that fails. -/
theorem listening_sound (interval tasks t0 : ℕ) (fitted : Bool) (as : List Act) (s : Listener)
    (hs : Run (step interval) InTurn (start fitted tasks t0) as s) :
    Sound s ∧ ∀ a t, ¬InTurn s a → step interval s a = some t →
      ∃ bs u, Run (step interval) Free t bs u ∧ ¬Sound u := by
  have hsteady := run_invariant Steady (fun _ _ _ hi hg h => steady_step hi hg h) as
    (steady_start fitted tasks t0) hs
  refine ⟨hsteady.sound,fun a t hn h => ?_⟩
  obtain ⟨bs,u,hu,hio⟩ := overtaking hsteady hn h
  exact ⟨bs,u,hu,fun hsound => hsound.2 hio⟩

def orderly : List Act :=
  [.start 0,.enable 0,.load 0,.receive 0,.frame,.ir .receive,.taskLoad,.stop 1,.disable 1,.start 1,
    .taskArm,.taskReceive,.enable 1,.load 1,.receive 1]

theorem listening_sound_orderly : ∃ s,
    Run (step 1000) InTurn (start true 2 0) orderly s ∧ s.channel = .armed ∧ Sound s := by
  obtain ⟨s,hs,harmed⟩ := run_witness (step 1000) (G := InTurn) (p := fun s => s.channel = .armed)
    (s := start true 2 0) orderly (by decide) (by decide)
  exact ⟨s,hs,harmed,(listening_sound 1000 2 0 true orderly s hs).1⟩

def overtaken : List Act := [.start 0,.stop 1,.disable 1,.enable 0,.load 0]

/-- The channel stays enabled with listening off, and every later start fails. -/
theorem listening_stuck : ∃ s, Run (step 1000) Free (start true 2 0) overtaken s ∧
    ((∀ x ∈ s.callers, x.isIdle = true) ∧ s.channel.isEnabled = true ∧ s.on = false ∧ ¬Sound s) ∧
    ∃ u, Run (step 1000) Free s [.start 1,.enable 1,.giveUp 1] u ∧
      u.callers = [.idle .ok,.idle .io] ∧ u.channel = .enabled ∧ u.on = false := by
  refine ⟨_,⟨trivial,_,rfl,trivial,_,rfl,trivial,_,rfl,trivial,_,rfl,trivial,_,rfl,rfl⟩,by decide,?_⟩
  exact ⟨_,⟨trivial,_,rfl,trivial,_,rfl,trivial,_,rfl,rfl⟩,rfl,rfl,rfl⟩

end StarkOne.IrListen
