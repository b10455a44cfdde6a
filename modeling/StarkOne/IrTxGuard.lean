import StarkOne.IrCodec

/-!
# The transmit gate

Every transmission is checked against constant limits, and the plan of a
signal that passes says how long it takes.
-/

set_option autoImplicit false

namespace StarkOne.IrTxGuard
open StarkOne.IrCodec

def irTxMinUs : ℕ := 50
def irTxMaxTotalUs : ℕ := 1000000
def irTxMaxRepeats : ℕ := 3
def irTxCarrierMin : ℕ := 30000
def irTxCarrierMax : ℕ := 60000

structure IrTxPlan where
  signalUs : ℕ
  periodMs : ℕ
  totalMs : ℕ
  deriving DecidableEq, Repr

def irTxPeriodMs (p : IrProtocol) (signalUs : ℕ) : ℕ :=
  match p with
  | .nec | .necx => 108
  | .rc5 | .rc6 => 114
  | .sirc12 | .sirc15 | .sirc20 => 45
  | .unknown => (signalUs+999)/1000+100

/-- The sum of the durations, unless one of them is too short. -/
def irTxSum (signal : ℕ) : List ℕ → Option ℕ
  | [] => some signal
  | d::rest => if d < irTxMinUs then none else irTxSum (signal+d) rest

def irTxCheck (s : IrSignal) (repeats : ℕ) : Except Fault IrTxPlan :=
  let n := s.timings.length
  if n = 0 || irMaxDurations < n || n % 2 = 0 || irTxMaxRepeats < repeats ||
      s.carrierHz < irTxCarrierMin || irTxCarrierMax < s.carrierHz then .error .invalidArg
  else match irTxSum 0 s.timings with
    | none => .error .invalidArg
    | some signal =>
      if irTxMaxTotalUs < signal*(repeats+1) then .error .invalidArg
      else
        let frameMs := (signal+999)/1000
        let period := max (irTxPeriodMs s.frame.protocol signal) frameMs
        .ok ⟨signal,period,period*repeats+frameMs⟩

def irTxRate (haveLast : Bool) (lastEndMs nowMs minIntervalMs : ℕ) : StarkErr :=
  if !haveLast then .ok else if minIntervalMs ≤ sub32 nowMs lastEndMs then .ok else .busy

theorem irTxSum_eq_some {signal total : ℕ} (us : List ℕ) :
    irTxSum signal us = some total ↔ (∀ d ∈ us, irTxMinUs ≤ d) ∧ signal+us.sum = total := by
  induction us generalizing signal with
  | nil => simp [irTxSum]
  | cons d rest ih =>
    unfold irTxSum
    split
    · rename_i hd
      simp only [List.mem_cons, forall_eq_or_imp, reduceCtorEq, false_iff, not_and]
      exact fun h => absurd hd (Nat.not_lt.mpr h.1)
    · rename_i hd
      rw [ih, List.sum_cons, Nat.add_assoc]
      simp [Nat.not_lt.mp hd]

/-- A signal that passes ends on a mark and stays inside every limit. -/
theorem irTxCheck_limits {s : IrSignal} {repeats : ℕ} {plan : IrTxPlan}
    (h : irTxCheck s repeats = .ok plan) :
    s.timings.length % 2 = 1 ∧ s.timings.length ≤ irMaxDurations ∧ repeats ≤ irTxMaxRepeats ∧
      irTxCarrierMin ≤ s.carrierHz ∧ s.carrierHz ≤ irTxCarrierMax ∧
      (∀ d ∈ s.timings, irTxMinUs ≤ d) ∧ plan.signalUs = s.timings.sum ∧
      s.timings.sum*(repeats+1) ≤ irTxMaxTotalUs := by
  unfold irTxCheck at h
  dsimp only at h
  split at h
  · cases h
  rename_i hc
  simp only [Bool.or_eq_true, decide_eq_true_eq, not_or, Nat.not_lt] at hc
  obtain ⟨⟨⟨⟨⟨-,hn⟩,hodd⟩,hr⟩,hmin⟩,hmax⟩ := hc
  split at h
  · cases h
  rename_i total hs
  obtain ⟨hd,ht⟩ := (irTxSum_eq_some s.timings).mp hs
  rw [Nat.zero_add] at ht
  split at h
  · cases h
  rename_i hlen
  cases h
  exact ⟨Nat.mod_two_ne_zero.mp hodd,hn,hr,hmin,hmax,hd,ht.symm,ht ▸ Nat.not_lt.mp hlen⟩

/-- Once a transmission has ended, the next passes only after the interval, however often
the clock has wrapped. -/
theorem irTxRate_ok {ended now interval : ℕ} (hle : ended ≤ now)
    (h : irTxRate true (u32 ended) (u32 now) interval = .ok) : ended+interval ≤ now := by
  unfold irTxRate at h
  rw [if_neg (by decide)] at h
  split at h
  · rename_i hi
    unfold sub32 u32 at hi
    omega
  · cases h

end StarkOne.IrTxGuard
