import Mathlib.Logic.Function.Basic
import StarkOne.IrTxGuard
import StarkOne.Machine

/-!
# Transmissions and their callers

A caller of `stark_ir_transmit` and the IR task take atomic steps: the rate
check in its critical section, the exchange of the busy flag, the queue send,
and the stages of a transmission. The clock runs between the steps. A history
of starts and ends, newest first, is what an observer of the LED sees.
-/

set_option autoImplicit false

namespace StarkOne.IrTransmit
open StarkOne.Machine StarkOne.IrCodec StarkOne.IrTxGuard

inductive Msg where
  | rx
  | tx
  deriving DecidableEq

def queueLen : ℕ := 4

/-- Where a caller is; `ends` is the number of transmissions ended at its rate check. -/
inductive Caller where
  | idle (result : StarkErr)
  | planned (s : IrSignal) (repeats : ℕ) (plan : IrTxPlan)
  | checked (s : IrSignal) (repeats : ℕ) (plan : IrTxPlan) (ends : ℕ)
  | claimed (s : IrSignal) (repeats : ℕ) (plan : IrTxPlan)
  | filled

/-- What the IR task does; `frames` of the transmission have been started. -/
inductive Work where
  | idle
  | rx
  | tx (frames : ℕ)
  | closing (done : Bool)
  deriving DecidableEq

/-- The times are readings of the millisecond clock. -/
inductive Seen where
  | started (t : ℕ)
  | ended (t : ℕ)
  deriving DecidableEq

structure Ir where
  clock : ℕ
  haveLast : Bool
  lastEndMs : ℕ
  busy : Bool
  signal : IrSignal
  repeats : ℕ
  plan : IrTxPlan
  queue : List Msg
  work : Work
  callers : ℕ → Caller
  history : List Seen

inductive Act where
  | begin (c : ℕ) (s : IrSignal) (repeats : ℕ)
  | rate (c : ℕ)
  | claim (c : ℕ)
  | fill (c : ℕ)
  | send (c : ℕ)
  | captured
  | receive
  | handled
  | frame
  | finish (done : Bool)
  | clear
  | wait (ms : ℕ)

def setCaller (s : Ir) (c : ℕ) (at_ : Caller) : Ir :=
  { s with callers := Function.update s.callers c at_ }

def ends : List Seen → ℕ
  | [] => 0
  | .ended _::h => ends h+1
  | .started _::h => ends h

def lastEnd : List Seen → Option ℕ
  | [] => none
  | .ended t::_ => some t
  | .started _::h => lastEnd h

def Spaced (interval : ℕ) : List Seen → Prop
  | [] => True
  | .ended _::h => Spaced interval h
  | .started t::h => (∀ e ∈ lastEnd h, e+interval ≤ t) ∧ Spaced interval h

def Work.inFlight : Work → ℕ
  | .tx _ | .closing _ => 1
  | .idle | .rx => 0

section
variable (interval : ℕ)

def step (s : Ir) : Act → Option Ir
  | .begin c sig repeats => match s.callers c with
    | .idle _ => some (setCaller s c (match irTxCheck sig repeats with
      | .error e => .idle e.code
      | .ok plan => .planned sig repeats plan))
    | _ => none
  | .rate c => match s.callers c with
    | .planned sig repeats plan =>
      let rate := irTxRate s.haveLast s.lastEndMs (u32 s.clock) interval
      some (setCaller s c (if rate = .ok then .checked sig repeats plan (ends s.history)
        else .idle rate))
    | _ => none
  | .claim c => match s.callers c with
    | .checked sig repeats plan _ =>
      if s.busy then some (setCaller s c (.idle .busy))
      else some (setCaller { s with busy := true } c (.claimed sig repeats plan))
    | _ => none
  | .fill c => match s.callers c with
    | .claimed sig repeats plan =>
      some (setCaller { s with signal := sig, repeats := repeats, plan := plan } c .filled)
    | _ => none
  | .send c => match s.callers c with
    | .filled =>
      if s.queue.length < queueLen then
        some (setCaller { s with queue := s.queue ++ [.tx] } c (.idle .ok))
      else some (setCaller { s with busy := false } c (.idle .busy))
    | _ => none
  | .captured =>
    some (if s.queue.length < queueLen then { s with queue := s.queue ++ [.rx] } else s)
  | .receive => match s.work, s.queue with
    | .idle, .rx::queue => some { s with queue := queue, work := .rx }
    | .idle, .tx::queue => some { s with queue := queue, work := .tx 0 }
    | _, _ => none
  | .handled => if s.work = .rx then some { s with work := .idle } else none
  | .frame => match s.work with
    | .tx k =>
      if k ≤ s.repeats then
        some { s with
          work := .tx (k+1)
          history := if k = 0 then .started s.clock::s.history else s.history }
      else none
    | _ => none
  | .finish done => match s.work with
    | .tx k =>
      if done && k != s.repeats+1 then none
      else some { s with
        work := .closing done
        haveLast := true
        lastEndMs := u32 s.clock
        history := .ended s.clock::s.history }
    | _ => none
  | .clear => match s.work with
    | .closing _ => some { s with busy := false, work := .idle }
    | _ => none
  | .wait ms => some { s with clock := s.clock+ms }

end

inductive Moves (interval : ℕ) (s : Ir) : Act → Ir → Prop where
  | refused (c : ℕ) (sig : IrSignal) (repeats : ℕ) (r : StarkErr) (e : Fault)
      (hc : s.callers c = .idle r) (he : irTxCheck sig repeats = .error e) :
      Moves interval s (.begin c sig repeats) (setCaller s c (.idle e.code))
  | planned (c : ℕ) (sig : IrSignal) (repeats : ℕ) (r : StarkErr) (plan : IrTxPlan)
      (hc : s.callers c = .idle r) (hp : irTxCheck sig repeats = .ok plan) :
      Moves interval s (.begin c sig repeats) (setCaller s c (.planned sig repeats plan))
  | early (c : ℕ) (sig : IrSignal) (repeats : ℕ) (plan : IrTxPlan)
      (hc : s.callers c = .planned sig repeats plan)
      (hr : irTxRate s.haveLast s.lastEndMs (u32 s.clock) interval ≠ .ok) :
      Moves interval s (.rate c)
        (setCaller s c (.idle (irTxRate s.haveLast s.lastEndMs (u32 s.clock) interval)))
  | checked (c : ℕ) (sig : IrSignal) (repeats : ℕ) (plan : IrTxPlan)
      (hc : s.callers c = .planned sig repeats plan)
      (hr : irTxRate s.haveLast s.lastEndMs (u32 s.clock) interval = .ok) :
      Moves interval s (.rate c) (setCaller s c (.checked sig repeats plan (ends s.history)))
  | taken (c : ℕ) (sig : IrSignal) (repeats : ℕ) (plan : IrTxPlan) (n : ℕ)
      (hc : s.callers c = .checked sig repeats plan n) (hb : s.busy = true) :
      Moves interval s (.claim c) (setCaller s c (.idle .busy))
  | claimed (c : ℕ) (sig : IrSignal) (repeats : ℕ) (plan : IrTxPlan) (n : ℕ)
      (hc : s.callers c = .checked sig repeats plan n) (hb : s.busy = false) :
      Moves interval s (.claim c) (setCaller { s with busy := true } c (.claimed sig repeats plan))
  | filled (c : ℕ) (sig : IrSignal) (repeats : ℕ) (plan : IrTxPlan)
      (hc : s.callers c = .claimed sig repeats plan) :
      Moves interval s (.fill c)
        (setCaller { s with signal := sig, repeats := repeats, plan := plan } c .filled)
  | sent (c : ℕ) (hc : s.callers c = .filled) (hroom : s.queue.length < queueLen) :
      Moves interval s (.send c) (setCaller { s with queue := s.queue ++ [.tx] } c (.idle .ok))
  | unsent (c : ℕ) (hc : s.callers c = .filled) (hfull : queueLen ≤ s.queue.length) :
      Moves interval s (.send c) (setCaller { s with busy := false } c (.idle .busy))
  | captured (hroom : s.queue.length < queueLen) :
      Moves interval s .captured { s with queue := s.queue ++ [.rx] }
  | dropped (hfull : queueLen ≤ s.queue.length) : Moves interval s .captured s
  | receivedRx (queue : List Msg) (hw : s.work = .idle) (hq : s.queue = .rx::queue) :
      Moves interval s .receive { s with queue := queue, work := .rx }
  | receivedTx (queue : List Msg) (hw : s.work = .idle) (hq : s.queue = .tx::queue) :
      Moves interval s .receive { s with queue := queue, work := .tx 0 }
  | handled (hw : s.work = .rx) : Moves interval s .handled { s with work := .idle }
  | started (hw : s.work = .tx 0) :
      Moves interval s .frame { s with work := .tx 1, history := .started s.clock::s.history }
  | repeated (k : ℕ) (hw : s.work = .tx k) (hk : k ≠ 0) (hle : k ≤ s.repeats) :
      Moves interval s .frame { s with work := .tx (k+1) }
  | finished (k : ℕ) (done : Bool) (hw : s.work = .tx k) (hk : done = true → k = s.repeats+1) :
      Moves interval s (.finish done) { s with
        work := .closing done
        haveLast := true
        lastEndMs := u32 s.clock
        history := .ended s.clock::s.history }
  | cleared (done : Bool) (hw : s.work = .closing done) :
      Moves interval s .clear { s with busy := false, work := .idle }
  | waited (ms : ℕ) : Moves interval s (.wait ms) { s with clock := s.clock+ms }

theorem step_cases {interval : ℕ} {s t : Ir} {a : Act} (h : step interval s a = some t) :
    Moves interval s a t := by
  cases a with
  | begin c sig repeats =>
    dsimp only [step] at h
    split at h
    · rename_i r hc
      obtain rfl := Option.some.inj h
      cases hcheck : irTxCheck sig repeats with
      | error e => exact .refused c sig repeats r e hc hcheck
      | ok plan => exact .planned c sig repeats r plan hc hcheck
    · cases h
  | rate c =>
    dsimp only [step] at h
    split at h
    · rename_i sig repeats plan hc
      obtain rfl := Option.some.inj h
      split
      · exact .checked c sig repeats plan hc ‹_›
      · exact .early c sig repeats plan hc ‹_›
    · cases h
  | claim c =>
    dsimp only [step] at h
    split at h
    · rename_i sig repeats plan n hc
      split at h
      · obtain rfl := Option.some.inj h
        exact .taken c sig repeats plan n hc ‹_›
      · rename_i hb
        obtain rfl := Option.some.inj h
        exact .claimed c sig repeats plan n hc (Bool.eq_false_iff.mpr hb)
    · cases h
  | fill c =>
    dsimp only [step] at h
    split at h
    · rename_i sig repeats plan hc
      obtain rfl := Option.some.inj h
      exact .filled c sig repeats plan hc
    · cases h
  | send c =>
    dsimp only [step] at h
    split at h
    · rename_i hc
      split at h
      · obtain rfl := Option.some.inj h
        exact .sent c hc ‹_›
      · rename_i hfull
        obtain rfl := Option.some.inj h
        exact .unsent c hc (Nat.not_lt.mp hfull)
    · cases h
  | captured =>
    obtain rfl := Option.some.inj h
    split
    · exact .captured ‹_›
    · rename_i hfull
      exact .dropped (Nat.not_lt.mp hfull)
  | receive =>
    dsimp only [step] at h
    split at h
    · rename_i queue hw hq
      obtain rfl := Option.some.inj h
      exact .receivedRx queue hw hq
    · rename_i queue hw hq
      obtain rfl := Option.some.inj h
      exact .receivedTx queue hw hq
    · cases h
  | handled =>
    simp only [step, Option.ite_none_right_eq_some] at h
    obtain ⟨hw,h⟩ := h
    obtain rfl := Option.some.inj h
    exact .handled hw
  | frame =>
    dsimp only [step] at h
    split at h
    · rename_i k hw
      simp only [Option.ite_none_right_eq_some] at h
      obtain ⟨hle,h⟩ := h
      obtain rfl := Option.some.inj h
      split
      · rename_i hk
        subst hk
        exact .started hw
      · exact .repeated k hw ‹_› hle
    · cases h
  | finish done =>
    dsimp only [step] at h
    split at h
    · rename_i k hw
      simp only [Option.ite_none_left_eq_some, Bool.and_eq_true, bne_iff_ne, ne_eq, not_and,
        not_not] at h
      obtain ⟨hk,h⟩ := h
      obtain rfl := Option.some.inj h
      exact .finished k done hw hk
    · cases h
  | clear =>
    dsimp only [step] at h
    split at h
    · rename_i done hw
      obtain rfl := Option.some.inj h
      exact .cleared done hw
    · cases h
  | wait ms =>
    obtain rfl := Option.some.inj h
    exact .waited ms

def start (t : ℕ) : Ir where
  clock := t
  haveLast := false
  lastEndMs := 0
  busy := false
  signal := zeroSignal
  repeats := 0
  plan := ⟨0,0,0⟩
  queue := []
  work := .idle
  callers := fun _ => .idle .ok
  history := []

def Caller.holds : Caller → Bool
  | .claimed _ _ _ | .filled => true
  | .idle _ | .planned _ _ _ | .checked _ _ _ _ => false

inductive Holder (s : Ir) : Prop where
  | free (hb : s.busy = false) (hc : ∀ d, (s.callers d).holds = false)
      (hq : s.queue.count .tx = 0) (hw : s.work.inFlight = 0)
  | caller (c : ℕ) (hb : s.busy = true) (hc : ∀ d, (s.callers d).holds = true ↔ d = c)
      (hq : s.queue.count .tx = 0) (hw : s.work.inFlight = 0)
  | queued (hb : s.busy = true) (hc : ∀ d, (s.callers d).holds = false)
      (hq : s.queue.count .tx = 1) (hw : s.work.inFlight = 0)
  | task (hb : s.busy = true) (hc : ∀ d, (s.callers d).holds = false)
      (hq : s.queue.count .tx = 0) (hw : s.work.inFlight = 1)

theorem Holder.one {s : Ir} (h : Holder s) : s.queue.count .tx+s.work.inFlight ≤ 1 := by
  rcases h with ⟨-,-,hq,hw⟩ | ⟨c,-,-,hq,hw⟩ | ⟨-,-,hq,hw⟩ | ⟨-,-,hq,hw⟩ <;> omega

theorem Holder.move {s : Ir} (h : Holder s) {c : ℕ} {x : Caller}
    (hc : (s.callers c).holds = x.holds) : Holder (setCaller s c x) := by
  have hsame : ∀ d, ((setCaller s c x).callers d).holds = (s.callers d).holds := by
    intro d
    by_cases hd : d = c
    · subst hd
      show (Function.update s.callers d x d).holds = _
      rw [Function.update_self, hc]
    · show (Function.update s.callers c x d).holds = _
      rw [Function.update_of_ne hd]
  rcases h with ⟨hb,hc,hq,hw⟩ | ⟨c',hb,hc,hq,hw⟩ | ⟨hb,hc,hq,hw⟩ | ⟨hb,hc,hq,hw⟩
  · exact .free hb (fun d => (hsame d).trans (hc d)) hq hw
  · exact .caller c' hb (fun d => by rw [hsame]; exact hc d) hq hw
  · exact .queued hb (fun d => (hsame d).trans (hc d)) hq hw
  · exact .task hb (fun d => (hsame d).trans (hc d)) hq hw

theorem Holder.takes {s : Ir} (h : Holder s) (hb : s.busy = false) {c : ℕ} {x : Caller}
    (hx : x.holds = true) : Holder (setCaller { s with busy := true } c x) := by
  rcases h with ⟨-,hc,hq,hw⟩ | ⟨-,hb',-⟩ | ⟨hb',-⟩ | ⟨hb',-⟩
  · refine .caller c rfl (fun d => ?_) hq hw
    show (Function.update s.callers c x d).holds = true ↔ _
    by_cases hd : d = c
    · subst hd
      simp [hx]
    · rw [Function.update_of_ne hd, hc]
      simp [hd]
  · rw [hb] at hb'
    cases hb'
  · rw [hb] at hb'
    cases hb'
  · rw [hb] at hb'
    cases hb'

theorem Holder.of_caller {s : Ir} (h : Holder s) {c : ℕ} (hc : (s.callers c).holds = true) :
    s.busy = true ∧ (∀ d, (s.callers d).holds = true ↔ d = c) ∧ s.queue.count .tx = 0 ∧
      s.work.inFlight = 0 := by
  rcases h with ⟨-,hc',-⟩ | ⟨d,hb,hd,hq,hw⟩ | ⟨-,hc',-⟩ | ⟨-,hc',-⟩
  · rw [hc' c] at hc
    cases hc
  · obtain rfl := (hd c).mp hc
    exact ⟨hb,hd,hq,hw⟩
  · rw [hc' c] at hc
    cases hc
  · rw [hc' c] at hc
    cases hc

theorem callers_released {s : Ir} {c : ℕ} {x : Caller}
    (hc : ∀ d, (s.callers d).holds = true ↔ d = c) (hx : x.holds = false) (d : ℕ) :
    (Function.update s.callers c x d).holds = false := by
  by_cases hd : d = c
  · subst hd
    rw [Function.update_self, hx]
  · rw [Function.update_of_ne hd, ← Bool.not_eq_true, hc]
    exact hd

theorem Holder.of_flight {s : Ir} (h : Holder s) (hw : s.work.inFlight = 1) :
    s.busy = true ∧ (∀ d, (s.callers d).holds = false) ∧ s.queue.count .tx = 0 := by
  rcases h with ⟨-,-,-,hw'⟩ | ⟨c,-,-,-,hw'⟩ | ⟨-,-,-,hw'⟩ | ⟨hb,hc,hq,-⟩
  · rw [hw] at hw'
    cases hw'
  · rw [hw] at hw'
    cases hw'
  · rw [hw] at hw'
    cases hw'
  · exact ⟨hb,hc,hq⟩

theorem Holder.congr {s t : Ir} (h : Holder s) (hb : t.busy = s.busy) (hc : t.callers = s.callers)
    (hq : t.queue.count .tx = s.queue.count .tx) (hw : t.work.inFlight = s.work.inFlight) :
    Holder t := by
  rcases h with ⟨hb',hc',hq',hw'⟩ | ⟨c,hb',hc',hq',hw'⟩ | ⟨hb',hc',hq',hw'⟩ | ⟨hb',hc',hq',hw'⟩
  · exact .free (hb.trans hb') (hc ▸ hc') (hq.trans hq') (hw.trans hw')
  · exact .caller c (hb.trans hb') (hc ▸ hc') (hq.trans hq') (hw.trans hw')
  · exact .queued (hb.trans hb') (hc ▸ hc') (hq.trans hq') (hw.trans hw')
  · exact .task (hb.trans hb') (hc ▸ hc') (hq.trans hq') (hw.trans hw')

theorem holder_step {interval : ℕ} {s t : Ir} {a : Act} (hh : Holder s)
    (h : step interval s a = some t) : Holder t := by
  cases step_cases h with
  | refused c sig repeats r e hc => exact hh.move (by rw [hc]; rfl)
  | planned c sig repeats r plan hc => exact hh.move (by rw [hc]; rfl)
  | early c sig repeats plan hc => exact hh.move (by rw [hc]; rfl)
  | checked c sig repeats plan hc => exact hh.move (by rw [hc]; rfl)
  | taken c sig repeats plan n hc => exact hh.move (by rw [hc]; rfl)
  | claimed c sig repeats plan n hc hb => exact hh.takes hb rfl
  | filled c sig repeats plan hc =>
    have hmove : Holder { s with signal := sig, repeats := repeats, plan := plan } :=
      hh.congr rfl rfl rfl rfl
    apply hmove.move
    show (s.callers c).holds = _
    rw [hc]
    rfl
  | sent c hc =>
    obtain ⟨hb,hd,hq,hw⟩ := hh.of_caller (c := c) (by rw [hc]; rfl)
    refine .queued hb (callers_released hd rfl) ?_ hw
    show (s.queue ++ [Msg.tx]).count .tx = 1
    rw [List.count_append, hq]
    rfl
  | unsent c hc =>
    obtain ⟨hb,hd,hq,hw⟩ := hh.of_caller (c := c) (by rw [hc]; rfl)
    exact .free rfl (callers_released hd rfl) hq hw
  | captured =>
    refine hh.congr rfl rfl ?_ rfl
    show (s.queue ++ [Msg.rx]).count .tx = _
    rw [List.count_append]
    rfl
  | dropped => exact hh
  | receivedRx queue hw hq =>
    refine hh.congr rfl rfl ?_ ?_
    · show queue.count .tx = _
      rw [hq, List.count_cons]
      rfl
    · rw [hw]
      rfl
  | receivedTx queue hw hq =>
    have hcount : s.queue.count .tx = queue.count .tx+1 := by
      rw [hq, List.count_cons]
      rfl
    rcases hh with ⟨-,-,hq',-⟩ | ⟨c,-,-,hq',-⟩ | ⟨hb,hc,hq',-⟩ | ⟨-,-,hq',-⟩
    · rw [hcount] at hq'
      cases hq'
    · rw [hcount] at hq'
      cases hq'
    · exact .task hb hc (Nat.succ.inj (hcount.symm.trans hq')) rfl
    · rw [hcount] at hq'
      cases hq'
  | handled hw =>
    refine hh.congr rfl rfl rfl ?_
    rw [hw]
    rfl
  | started hw =>
    refine hh.congr rfl rfl rfl ?_
    rw [hw]
    rfl
  | repeated k hw =>
    refine hh.congr rfl rfl rfl ?_
    rw [hw]
    rfl
  | finished k done hw =>
    refine hh.congr rfl rfl rfl ?_
    rw [hw]
    rfl
  | cleared done hw =>
    obtain ⟨-,hc,hq⟩ := hh.of_flight (by rw [hw]; rfl)
    exact .free rfl hc hq rfl
  | waited => exact hh.congr rfl rfl rfl rfl

def Rested (interval : ℕ) (s : Ir) : Prop := ∀ e ∈ lastEnd s.history, e+interval ≤ s.clock

instance (interval : ℕ) (s : Ir) : Decidable (Rested interval s) := by
  unfold Rested
  infer_instance

structure Timed (interval : ℕ) (s : Ir) : Prop where
  none : lastEnd s.history = none → s.haveLast = false
  some : ∀ e, lastEnd s.history = some e → s.haveLast = true ∧ s.lastEndMs = u32 e ∧ e ≤ s.clock
  checked : ∀ c sig repeats plan n, s.callers c = .checked sig repeats plan n →
    n ≤ ends s.history ∧ (n = ends s.history → Rested interval s)

section
variable {interval : ℕ} {s t : Ir}

theorem Timed.congr (h : Timed interval s) (hc : t.clock = s.clock) (hl : t.haveLast = s.haveLast)
    (he : t.lastEndMs = s.lastEndMs) (hcs : t.callers = s.callers)
    (hh : lastEnd t.history = lastEnd s.history) (hn : ends t.history = ends s.history) :
    Timed interval t := by
  constructor
  · rw [hh, hl]
    exact h.none
  · rw [hh, hl, he, hc]
    exact h.some
  · intro c sig repeats plan n hcall
    rw [hn, Rested, hh, hc]
    exact h.checked c sig repeats plan n (hcs ▸ hcall)

theorem Timed.move (h : Timed interval s) {c : ℕ} {x : Caller}
    (hx : ∀ sig repeats plan n, x = .checked sig repeats plan n →
      n ≤ ends s.history ∧ (n = ends s.history → Rested interval s)) :
    Timed interval (setCaller s c x) := by
  refine ⟨h.none,h.some,fun d sig repeats plan n hd => ?_⟩
  by_cases hdc : d = c
  · subst hdc
    exact hx sig repeats plan n ((Function.update_self _ _ _).symm.trans hd)
  · exact h.checked d sig repeats plan n ((Function.update_of_ne hdc _ _).symm.trans hd)

theorem rested_of_rate (h : Timed interval s)
    (hr : irTxRate s.haveLast s.lastEndMs (u32 s.clock) interval = .ok) : Rested interval s := by
  intro e he
  obtain ⟨hl,hu,hle⟩ := h.some e he
  rw [hl, hu] at hr
  exact irTxRate_ok hle hr

theorem timed_step {a : Act} (ht : Timed interval s) (h : step interval s a = some t) :
    Timed interval t := by
  cases step_cases h with
  | refused | planned | early | taken => exact ht.move fun _ _ _ _ hx => by cases hx
  | checked c sig repeats plan hc hr =>
    apply ht.move
    intro sig' repeats' plan' n hx
    cases hx
    exact ⟨Nat.le_refl _,fun _ => rested_of_rate ht hr⟩
  | claimed =>
    have hsame : Timed interval { s with busy := true } := ht.congr rfl rfl rfl rfl rfl rfl
    exact hsame.move fun _ _ _ _ hx => by cases hx
  | filled c sig repeats plan =>
    have hsame : Timed interval { s with signal := sig, repeats := repeats, plan := plan } :=
      ht.congr rfl rfl rfl rfl rfl rfl
    exact hsame.move fun _ _ _ _ hx => by cases hx
  | sent =>
    have hsame : Timed interval { s with queue := s.queue ++ [.tx] } :=
      ht.congr rfl rfl rfl rfl rfl rfl
    exact hsame.move fun _ _ _ _ hx => by cases hx
  | unsent =>
    have hsame : Timed interval { s with busy := false } := ht.congr rfl rfl rfl rfl rfl rfl
    exact hsame.move fun _ _ _ _ hx => by cases hx
  | captured | receivedRx | receivedTx | handled | started | repeated | cleared =>
    exact ht.congr rfl rfl rfl rfl rfl rfl
  | dropped => exact ht
  | finished =>
    refine ⟨fun h => (by cases h),fun e he => ?_,fun c sig repeats plan n hc => ?_⟩
    · obtain rfl := Option.some.inj he
      exact ⟨rfl,rfl,Nat.le_refl _⟩
    · have hle := (ht.checked c sig repeats plan n hc).1
      refine ⟨Nat.le_succ_of_le hle,fun hn => ?_⟩
      rw [hn] at hle
      exact absurd hle (Nat.not_succ_le_self _)
  | waited =>
    refine ⟨ht.none,fun e he => ?_,fun c sig repeats plan n hc => ?_⟩
    · obtain ⟨hl,hu,hle⟩ := ht.some e he
      exact ⟨hl,hu,Nat.le_add_right_of_le hle⟩
    · obtain ⟨hle,hrest⟩ := ht.checked c sig repeats plan n hc
      exact ⟨hle,fun hn e he => Nat.le_add_right_of_le (hrest hn e he)⟩

/-- A free busy flag is taken only while the caller's rate check still holds: no
transmission has ended since, or the interval has passed all the same. -/
def Fresh (interval : ℕ) (s : Ir) : Act → Prop
  | .claim c => s.busy = false → ∀ sig repeats plan n,
      s.callers c = .checked sig repeats plan n → n = ends s.history ∨ Rested interval s
  | _ => True

/-- The history so far is spaced, and so is what may start next. -/
structure Calm (interval : ℕ) (s : Ir) : Prop where
  spaced : Spaced interval s.history
  rested : s.busy = true → (∀ done, s.work ≠ .closing done) → Rested interval s

theorem calm_step {a : Act} (hh : Holder s) (ht : Timed interval s) (hc : Calm interval s)
    (hf : Fresh interval s a) (h : step interval s a = some t) : Calm interval t := by
  cases step_cases h with
  | refused | planned | early | checked | taken | filled | sent | captured | dropped =>
    exact ⟨hc.spaced,hc.rested⟩
  | claimed c sig repeats plan n hcall hb =>
    refine ⟨hc.spaced,fun _ _ => ?_⟩
    rcases hf hb sig repeats plan n hcall with hn | hr
    · exact (ht.checked c sig repeats plan n hcall).2 hn
    · exact hr
  | unsent | cleared => exact ⟨hc.spaced,fun hb => by cases hb⟩
  | receivedRx queue hw =>
    exact ⟨hc.spaced,fun hb _ => hc.rested hb fun done hd => by rw [hw] at hd; cases hd⟩
  | receivedTx queue hw =>
    exact ⟨hc.spaced,fun hb _ => hc.rested hb fun done hd => by rw [hw] at hd; cases hd⟩
  | handled hw =>
    exact ⟨hc.spaced,fun hb _ => hc.rested hb fun done hd => by rw [hw] at hd; cases hd⟩
  | started hw =>
    have hrest : Rested interval s :=
      hc.rested (hh.of_flight (by rw [hw]; rfl)).1 fun done hd => by rw [hw] at hd; cases hd
    exact ⟨⟨hrest,hc.spaced⟩,fun _ _ => hrest⟩
  | repeated k hw =>
    exact ⟨hc.spaced,fun hb _ => hc.rested hb fun done hd => by rw [hw] at hd; cases hd⟩
  | finished k done => exact ⟨hc.spaced,fun _ hw => absurd rfl (hw done)⟩
  | waited ms => exact ⟨hc.spaced,fun hb hw e he => Nat.le_add_right_of_le (hc.rested hb hw e he)⟩

theorem holder_start (t : ℕ) : Holder (start t) := .free rfl (fun _ => rfl) rfl rfl

theorem timed_start (t : ℕ) : Timed interval (start t) :=
  ⟨fun _ => rfl,fun e he => (by cases he),fun c sig repeats plan n hc => by cases hc⟩

theorem calm_start (t : ℕ) : Calm interval (start t) := ⟨trivial,fun hb => by cases hb⟩

theorem free_run {t0 : ℕ} (as : List Act) (hs : Run (step interval) Free (start t0) as s) :
    Holder s ∧ Timed interval s :=
  run_invariant (fun s => Holder s ∧ Timed interval s)
    (fun _ _ _ hi _ h => ⟨holder_step hi.1 h,timed_step hi.2 h⟩) as
    ⟨holder_start t0,timed_start t0⟩ hs

theorem calm_run {t0 : ℕ} (as : List Act)
    (hs : Run (step interval) (Fresh interval) (start t0) as s) : Calm interval s := by
  have hall := run_invariant (fun s => Holder s ∧ Timed interval s ∧ Calm interval s)
    (fun _ _ _ ⟨hh,ht,hc⟩ hf h => ⟨holder_step hh h,timed_step ht h,calm_step hh ht hc hf h⟩) as
    ⟨holder_start t0,timed_start t0,calm_start t0⟩ hs
  exact hall.2.2

theorem drain (queue : List Msg) : ∀ s : Ir, s.queue = queue → s.work = .idle →
    queue.count .tx = 0 → ∃ bs, Run (step interval) Free s bs { s with queue := [] } := by
  induction queue with
  | nil =>
    intro s hq _ _
    exact ⟨[],by rw [← hq]; rfl⟩
  | cons m queue ih =>
    intro s hq hw hcount
    cases m with
    | tx =>
      rw [List.count_cons_self] at hcount
      cases hcount
    | rx =>
      have hrest : queue.count .tx = 0 := by
        rwa [List.count_cons_of_ne (by decide)] at hcount
      obtain ⟨bs,hb⟩ := ih { s with queue := queue, work := .idle } rfl rfl hrest
      refine ⟨.receive::.handled::bs,trivial,{ s with queue := queue, work := .rx },?_,
        trivial,{ s with queue := queue, work := .idle },?_,?_⟩
      · dsimp only [step]
        rw [hw, hq]
      · simp [step]
      · rw [← hw] at hb
        rw [← hw]
        exact hb

theorem settle (s : Ir) (hw : s.work.inFlight = 0) (hq : s.queue.count .tx = 0) :
    ∃ bs, Run (step interval) Free s bs { s with queue := [], work := .idle } := by
  cases hwork : s.work with
  | idle =>
    obtain ⟨bs,hb⟩ := drain s.queue s rfl hwork hq
    exact ⟨bs,by rw [← hwork]; exact hb⟩
  | rx =>
    obtain ⟨bs,hb⟩ := drain s.queue { s with work := .idle } rfl rfl hq
    exact ⟨.handled::bs,trivial,{ s with work := .idle },if_pos hwork,hb⟩
  | tx k =>
    rw [hwork] at hw
    cases hw
  | closing done =>
    rw [hwork] at hw
    cases hw

theorem starts {c : ℕ} {sig : IrSignal} {repeats : ℕ} {plan : IrTxPlan} (v : Ir)
    (hc : v.callers c = .claimed sig repeats plan) (hq : v.queue = []) (hw : v.work = .idle) :
    ∃ u, Run (step interval) Free v [.fill c,.send c,.receive,.frame] u ∧
      u.history = .started v.clock::v.history := by
  let filled := setCaller { v with signal := sig, repeats := repeats, plan := plan } c .filled
  let sent := setCaller { filled with queue := [.tx] } c (.idle .ok)
  have h1 : step interval v (.fill c) = some filled := by
    simp [step, hc, filled]
  have h2 : step interval filled (.send c) = some sent := by
    simp [step, setCaller, hq, queueLen, filled, sent]
  have h3 : step interval sent .receive = some { sent with queue := [], work := .tx 0 } := by
    simp [step, setCaller, hw, filled, sent]
  have h4 : step interval { sent with queue := [], work := .tx 0 } .frame =
      some { sent with queue := [], work := .tx 1, history := .started v.clock::v.history } := by
    simp [step, setCaller, filled, sent]
  exact ⟨_,⟨trivial,_,h1,trivial,_,h2,trivial,_,h3,trivial,_,h4,rfl⟩,rfl⟩

/-- A claim on a check that holds no longer can start a transmission too early. -/
theorem stale_claim {c : ℕ} (hh : Holder s) (hstale : ¬Fresh interval s (.claim c))
    (h : step interval s (.claim c) = some t) :
    ∃ bs u, Run (step interval) Free t bs u ∧ ¬Spaced interval u.history := by
  simp only [Fresh, not_forall] at hstale
  obtain ⟨hb,sig,repeats,plan,n,hc,hn⟩ := hstale
  have hrest : ¬Rested interval s := fun hr => hn (.inr hr)
  rcases hh with ⟨-,-,hq,hw⟩ | ⟨_,hb',-⟩ | ⟨hb',-⟩ | ⟨hb',-⟩
  · have ht : t = setCaller { s with busy := true } c (.claimed sig repeats plan) := by
      simpa [step, hc, hb] using h.symm
    have hcall : t.callers c = .claimed sig repeats plan := by
      rw [ht]
      exact Function.update_self _ _ _
    obtain ⟨bs,hrun⟩ := settle t (by rw [ht]; exact hw) (by rw [ht]; exact hq)
    obtain ⟨u,hu,hhist⟩ := starts { t with queue := [], work := .idle } hcall rfl rfl
    refine ⟨bs ++ _,u,(run_append bs _).mpr ⟨_,hrun,hu⟩,?_⟩
    rw [hhist, ht]
    exact fun hsp => hrest hsp.1
  · rw [hb] at hb'
    cases hb'
  · rw [hb] at hb'
    cases hb'
  · rw [hb] at hb'
    cases hb'

end

/-- At most one transmission is queued or in flight; and every one starts the interval
after the end before it, in the runs where the busy flag is taken on rate checks that still
hold, while any other claim can lead to a start that is too early. -/
theorem transmissions_spaced (interval t0 : ℕ) (as : List Act) (s : Ir)
    (hs : Run (step interval) Free (start t0) as s) :
    s.queue.count .tx+s.work.inFlight ≤ 1 ∧
    (Run (step interval) (Fresh interval) (start t0) as s → Spaced interval s.history) ∧
    ∀ c t, ¬Fresh interval s (.claim c) → step interval s (.claim c) = some t →
      ∃ bs u, Run (step interval) Free t bs u ∧ ¬Spaced interval u.history := by
  have hh := (free_run as hs).1
  exact ⟨hh.one,fun hf => (calm_run as hf).spaced,fun c t hn h => stale_claim hh hn h⟩

def blip : IrSignal := ⟨[1000],38000,noFrame⟩

def twice : List Act :=
  [.begin 0 blip 0,.rate 0,.claim 0,.fill 0,.send 0,.receive,.frame,.wait 1,.finish true,.clear,
    .wait 1000,.begin 1 blip 0,.rate 1,.claim 1,.fill 1,.send 1,.receive,.frame]

theorem transmissions_spaced_twice : ∃ s, Run (step 1000) Free (start 0) twice s ∧
    s.history = [.started 1001,.ended 1,.started 0] ∧ s.queue.count .tx+s.work.inFlight ≤ 1 ∧
      Spaced 1000 s.history := by
  have hrun : Run (step 1000) (Fresh 1000) (start 0) twice _ :=
    ⟨trivial,_,rfl,trivial,_,rfl,fun _ _ _ _ _ h => (by cases h; exact .inl rfl),_,rfl,
      trivial,_,rfl,trivial,_,rfl,trivial,_,rfl,trivial,_,rfl,trivial,_,rfl,trivial,_,rfl,
      trivial,_,rfl,trivial,_,rfl,trivial,_,rfl,trivial,_,rfl,
      fun _ _ _ _ _ h => (by cases h; exact .inl rfl),_,rfl,trivial,_,rfl,trivial,_,rfl,
      trivial,_,rfl,trivial,_,rfl,rfl⟩
  have hfree := run_weaken (H := Free) (fun _ _ _ => trivial) _ hrun
  have h := transmissions_spaced 1000 0 twice _ hfree
  exact ⟨_,hfree,rfl,h.1,h.2.1 hrun⟩

def overtaken : List Act :=
  [.begin 0 blip 0,.rate 0,.begin 1 blip 0,.rate 1,.claim 1,.fill 1,.send 1,.receive,.frame,
    .wait 1,.finish true,.clear]

def retaken : List Act := [.claim 0,.fill 0,.send 0,.receive,.frame]

/-- The overtaken caller transmits in the millisecond in which the other's ended. -/
theorem transmission_too_early : ∃ s,
    Run (step 1000) Free (start 0) (overtaken ++ retaken) s ∧ ¬Spaced 1000 s.history := by
  refine ⟨_,⟨trivial,_,rfl,trivial,_,rfl,trivial,_,rfl,trivial,_,rfl,trivial,_,rfl,trivial,_,rfl,
    trivial,_,rfl,trivial,_,rfl,trivial,_,rfl,trivial,_,rfl,trivial,_,rfl,trivial,_,rfl,
    trivial,_,rfl,trivial,_,rfl,trivial,_,rfl,trivial,_,rfl,trivial,_,rfl,rfl⟩,?_⟩
  intro h
  exact absurd (h.1 1 rfl) (by decide)

end StarkOne.IrTransmit
