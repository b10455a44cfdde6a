import Mathlib.Data.List.Rotate

/-!
# A search around a list

The list is read from some element around to the one before it. What satisfies
a predicate forms a ring, and a search from an element of the ring finds the
one next to it: forward the ring turns by one, and backward it turns back.
-/

set_option autoImplicit false

namespace StarkOne.CircularSearch

section
variable {α : Type} {p : α → Bool} {l rest : List α} {i : ℕ} {a b : α}

theorem forward (hl : l.rotate i = a::rest) (ha : p a = true) (hb : rest.find? p = some b) :
    ∃ j < rest.length, rest[j]? = some b ∧
      (l.rotate (i+1+j)).filter p = ((a::rest).filter p).rotate 1 := by
  obtain ⟨hpb,mid,tail,hrest,hmid⟩ := List.find?_eq_some_iff_append.mp hb
  have hnone : mid.filter p = [] := by
    rw [List.filter_eq_nil_iff]
    intro x hx hpx
    simpa [hpx] using hmid x hx
  refine ⟨mid.length,?_,?_,?_⟩
  · simp [hrest]
  · simp [hrest]
  · have hturn : l.rotate (i+1+mid.length) = b::tail++a::mid := by
      rw [Nat.add_assoc, ← List.rotate_rotate, hl, hrest, Nat.add_comm, ← List.length_cons (a := a),
        ← List.cons_append, List.rotate_append_length_eq]
    rw [hturn, hrest]
    simp [hnone, ha, hpb]

theorem backward (hl : l.rotate i = a::rest) (ha : p a = true) (hb : rest.reverse.find? p = some b) :
    ∃ j < rest.length, rest.reverse[j]? = some b ∧
      ((l.rotate (i+(rest.length-j))).filter p).rotate 1 = (a::rest).filter p := by
  obtain ⟨hpb,late,early,hrest,hlate⟩ := List.find?_eq_some_iff_append.mp hb
  have hnone : late.reverse.filter p = [] := by
    rw [List.filter_eq_nil_iff]
    intro x hx hpx
    simpa [hpx] using hlate x (List.mem_reverse.mp hx)
  have hsplit : rest = early.reverse++b::late.reverse := by
    rw [← List.reverse_reverse rest, hrest]
    simp
  refine ⟨late.length,?_,?_,?_⟩
  · simp only [hsplit, List.length_append, List.length_cons, List.length_reverse]
    omega
  · simp [hrest]
  · have hlen : rest.length-late.length = (a::early.reverse).length := by
      simp only [hsplit, List.length_append, List.length_cons, List.length_reverse]
      omega
    have hturn : l.rotate (i+(rest.length-late.length)) = b::late.reverse++a::early.reverse := by
      rw [hlen, ← List.rotate_rotate, hl, hsplit, ← List.cons_append, List.rotate_append_length_eq]
    rw [hturn, hsplit]
    simp [hnone, ha, hpb]

theorem alone (ha : p a = true) (hnone : rest.find? p = none) : (a::rest).filter p = [a] := by
  rw [List.filter_cons_of_pos ha, List.filter_eq_nil_iff.mpr (List.find?_eq_none.mp hnone)]

end

end StarkOne.CircularSearch
