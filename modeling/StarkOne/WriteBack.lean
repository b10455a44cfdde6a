import Mathlib.Algebra.Group.Nat.Defs
import Mathlib.Logic.Function.Basic

/-!
# Writing back to a store

Items live in memory and are marked when they differ from the store. Writing
them back may stop at any item; the marks tell what is still to be written.
-/

set_option autoImplicit false

namespace StarkOne.WriteBack

variable {ι κ ν ε : Type*} [DecidableEq κ]

/-- One write, which leaves the store alone when it is refused. -/
def put (refused : κ → Option ε) (s : κ → Option ν) (k : κ) (v : ν) : Except ε (κ → Option ν) :=
  match refused k with
  | some e => .error e
  | none => .ok (Function.update s k (some v))

/-- The marked items of a list are written in turn, up to the first refused one. The
number of writes is counted from `n` on. -/
def flush (refused : κ → Option ε) (key : ι → κ) (value : ι → ν) (dirty : ι → Bool) :
    List ι → ℕ → (κ → Option ν) → Except ε ℕ × (κ → Option ν)
  | [], n, s => (.ok n,s)
  | i::is, n, s =>
    if dirty i then
      match put refused s (key i) (value i) with
      | .error e => (.error e,s)
      | .ok s => flush refused key value dirty is (n+1) s
    else flush refused key value dirty is n s

theorem put_ok {refused : κ → Option ε} {s t : κ → Option ν} {k : κ} {v : ν}
    (h : put refused s k v = .ok t) : t = Function.update s k (some v) := by
  unfold put at h
  split at h
  · cases h
  · exact (Except.ok.inj h).symm

variable {refused : κ → Option ε} {key : ι → κ} {value : ι → ν} {dirty : ι → Bool}

theorem flush_other (is : List ι) (n : ℕ) (s : κ → Option ν) (k : κ)
    (hk : ∀ i ∈ is, dirty i = true → key i ≠ k) :
    (flush refused key value dirty is n s).2 k = s k := by
  induction is generalizing n s with
  | nil => rfl
  | cons i is ih =>
    have hrest := fun n s => ih n s fun j hj => hk j (List.mem_cons_of_mem i hj)
    unfold flush
    split
    · rename_i hi
      split
      · rfl
      · rename_i t ht
        rw [hrest, put_ok ht, Function.update_of_ne (hk i List.mem_cons_self hi).symm]
    · exact hrest n s

theorem flush_present (is : List ι) (n : ℕ) (s : κ → Option ν) (k : κ) (hs : s k ≠ none) :
    (flush refused key value dirty is n s).2 k ≠ none := by
  induction is generalizing n s with
  | nil => exact hs
  | cons i is ih =>
    unfold flush
    split
    · split
      · exact hs
      · rename_i t ht
        apply ih
        rw [put_ok ht]
        by_cases hk : k = key i
        · rw [hk, Function.update_self]
          simp
        · rw [Function.update_of_ne hk]
          exact hs
    · exact ih n s hs

/-- When no write was refused, every marked item is in the store. -/
theorem flush_ok (hkey : Function.Injective key) (is : List ι) (n m : ℕ) (s : κ → Option ν)
    (h : (flush refused key value dirty is n s).1 = .ok m) (i : ι) (hi : i ∈ is)
    (hd : dirty i = true) : (flush refused key value dirty is n s).2 (key i) = some (value i) := by
  induction is generalizing n s with
  | nil => cases hi
  | cons j is ih =>
    by_cases hlater : i ∈ is
    · unfold flush at h ⊢
      split
      · rename_i hj
        rw [if_pos hj] at h
        split
        · rename_i e he
          rw [he] at h
          cases h
        · rename_i t ht
          rw [ht] at h
          exact ih (n+1) t h hlater
      · rename_i hj
        rw [if_neg hj] at h
        exact ih n s h hlater
    · obtain rfl := (List.mem_cons.mp hi).resolve_right hlater
      unfold flush at h ⊢
      rw [if_pos hd] at h ⊢
      split
      · rename_i e he
        rw [he] at h
        cases h
      · rename_i t ht
        rw [flush_other, put_ok ht, Function.update_self]
        intro j hj _ hji
        exact hlater (hkey hji ▸ hj)

theorem flush_count (is : List ι) (n m : ℕ) (s : κ → Option ν)
    (h : (flush refused key value dirty is n s).1 = .ok m) : m = n+(is.filter dirty).length := by
  induction is generalizing n s with
  | nil => exact (Except.ok.inj h).symm
  | cons i is ih =>
    unfold flush at h
    split at h
    · rename_i hi
      split at h
      · cases h
      · rename_i t ht
        rw [ih _ _ h, List.filter_cons_of_pos hi, List.length_cons]
        omega
    · rename_i hi
      rw [ih _ _ h, List.filter_cons_of_neg hi]

end StarkOne.WriteBack
