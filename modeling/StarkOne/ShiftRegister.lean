import Mathlib.Logic.Function.Iterate
import Mathlib.Tactic.WLOG

/-!
# Shift registers with feedback

A register is shifted up, and the polynomial is added when a bit is shifted
out: it holds a power of the variable modulo the polynomial. The step is
linear. It can be undone when the polynomial has a constant term, and keeps
the parity of the register when the polynomial has an even number of terms.
-/

set_option autoImplicit false

namespace StarkOne.ShiftRegister

variable {w : ℕ}

def shift (g c : BitVec w) : BitVec w := if c.msb then c <<< 1 ^^^ g else c <<< 1

def parityTo (c : BitVec w) : ℕ → Bool
  | 0 => false
  | n+1 => parityTo c n ^^ c.getLsbD n

def parity (c : BitVec w) : Bool := parityTo c w

theorem shift_xor (g a b : BitVec w) : shift g (a ^^^ b) = shift g a ^^^ shift g b := by
  unfold shift
  rw [BitVec.msb_xor, BitVec.shiftLeft_xor_distrib]
  cases a.msb <;> cases b.msb
  · rfl
  · exact BitVec.xor_assoc _ _ _
  · show a <<< 1 ^^^ b <<< 1 ^^^ g = a <<< 1 ^^^ g ^^^ b <<< 1
    ac_rfl
  · show a <<< 1 ^^^ b <<< 1 = a <<< 1 ^^^ g ^^^ (b <<< 1 ^^^ g)
    calc a <<< 1 ^^^ b <<< 1 = a <<< 1 ^^^ b <<< 1 ^^^ (g ^^^ g) := by simp
      _ = a <<< 1 ^^^ g ^^^ (b <<< 1 ^^^ g) := by ac_rfl

theorem iterate_xor (g : BitVec w) (n : ℕ) (a b : BitVec w) :
    (shift g)^[n] (a ^^^ b) = (shift g)^[n] a ^^^ (shift g)^[n] b := by
  induction n generalizing a b with
  | zero => rfl
  | succ n ih => simp only [Function.iterate_succ_apply, shift_xor, ih]

theorem shift_eq_zero {g : BitVec w} (hg : g.getLsbD 0 = true) {c : BitVec w} (h : shift g c = 0) :
    c = 0 := by
  unfold shift at h
  have hmsb : c.msb = false := by
    by_contra hc
    rw [if_pos (by simpa using hc)] at h
    have hlow := congrArg (fun c => c.getLsbD 0) h
    simp [hg] at hlow
  rw [hmsb, if_neg Bool.false_ne_true] at h
  apply BitVec.eq_of_getLsbD_eq
  intro i hi
  rcases Nat.lt_or_ge (i+1) w with hlt | hge
  · have hbit := congrArg (fun c => c.getLsbD (i+1)) h
    simpa [hlt, hi] using hbit
  · rw [BitVec.msb_eq_getLsbD_last, show w-1 = i by omega] at hmsb
    simpa using hmsb

theorem shift_injective {g : BitVec w} (hg : g.getLsbD 0 = true) : Function.Injective (shift g) := by
  intro a b h
  rw [← BitVec.xor_eq_zero_iff]
  apply shift_eq_zero hg
  rw [shift_xor, h]
  exact BitVec.xor_self

theorem powers_ne {g : BitVec w} (hg : g.getLsbD 0 = true) {c : BitVec w} {n : ℕ}
    (h : ∀ d < n, 0 < d → (shift g)^[d] c ≠ c) {a b : ℕ} (ha : a < n) (hb : b < n)
    (hab : (shift g)^[a] c = (shift g)^[b] c) : a = b := by
  wlog hle : a ≤ b generalizing a b
  · exact (this hb ha hab.symm (Nat.le_of_not_le hle)).symm
  by_contra hne
  refine h (b-a) (by omega) (by omega) ((shift_injective hg).iterate a ?_)
  rw [← Function.iterate_add_apply, Nat.add_sub_cancel' hle, hab]

theorem parityTo_xor (a b : BitVec w) (n : ℕ) :
    parityTo (a ^^^ b) n = (parityTo a n ^^ parityTo b n) := by
  induction n with
  | zero => rfl
  | succ n ih =>
    simp only [parityTo, ih, BitVec.getLsbD_xor, Bool.xor_assoc]
    rw [Bool.xor_left_comm (parityTo b n)]

theorem parity_xor (a b : BitVec w) : parity (a ^^^ b) = (parity a ^^ parity b) := parityTo_xor a b w

theorem parityTo_up (c : BitVec w) {n : ℕ} (hn : n < w) : parityTo (c <<< 1) (n+1) = parityTo c n := by
  induction n with
  | zero => simp [parityTo]
  | succ n ih =>
    rw [parityTo, ih (by omega), parityTo]
    simp [hn, Nat.lt_of_succ_lt hn]

/-- The bit shifted out is made up for by the polynomial. -/
theorem parity_shift {g : BitVec w} (hg : parity g = true) (c : BitVec w) :
    parity (shift g c) = parity c := by
  cases w with
  | zero => rfl
  | succ n =>
    have hup : parity (c <<< 1) = (parity c ^^ c.msb) := by
      rw [BitVec.msb_eq_getLsbD_last, parity, parityTo_up c (Nat.lt_succ_self n), parity, parityTo,
        Bool.xor_assoc]
      simp
    unfold shift
    cases hmsb : c.msb
    · rw [if_neg Bool.false_ne_true, hup, hmsb, Bool.xor_false]
    · rw [if_pos rfl, parity_xor, hup, hg, hmsb, Bool.xor_assoc, Bool.xor_self, Bool.xor_false]

theorem parity_iterate {g : BitVec w} (hg : parity g = true) (n : ℕ) (c : BitVec w) :
    parity ((shift g)^[n] c) = parity c := by
  induction n generalizing c with
  | zero => rfl
  | succ n ih => rw [Function.iterate_succ_apply, ih, parity_shift hg]

end StarkOne.ShiftRegister
