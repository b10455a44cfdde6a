import StarkOne.RingQueue

/-!
# A ring that overwrites

A full ring gives up its oldest element for a new one. What was taken from it and
what is still in it are then, in order, what was put in, up to those given up.
-/

set_option autoImplicit false

namespace StarkOne.OverwritingRing
open StarkOne.RingQueue

variable {α : Type*}

/-- Stores a new element, and says whether the oldest one had to go. -/
def push (r : RingBuffer α) (a : α) : RingBuffer α × Bool :=
  if h : r.count < r.capacity then (append r a h,false)
  else (append (advance r) a (by
    have hpos := Nat.zero_lt_of_lt r.head_lt
    have hle := r.count_le
    rw [advance_count, advance_capacity]
    omega),true)

def take (r : RingBuffer α) : Option (α × RingBuffer α) :=
  if r.count = 0 then none else some (oldest r,advance r)

theorem push_free {r : RingBuffer α} (h : r.count < r.capacity) (a : α) :
    (push r a).2 = false ∧ toList (push r a).1 = toList r++[a] := by
  unfold push
  rw [dif_pos h]
  exact ⟨rfl,toList_append r a h⟩

theorem push_full {r : RingBuffer α} (h : ¬r.count < r.capacity) (a : α) :
    (push r a).2 = true ∧ ∃ x, toList r = x::toList (advance r) ∧
      toList (push r a).1 = toList (advance r)++[a] := by
  have hpos := Nat.zero_lt_of_lt r.head_lt
  unfold push
  rw [dif_neg h]
  exact ⟨rfl,oldest r,toList_eq_cons r (by omega),toList_append _ a _⟩

theorem push_capacity (r : RingBuffer α) (a : α) : (push r a).1.capacity = r.capacity := by
  unfold push
  split
  · rfl
  · rfl

theorem take_some {r s : RingBuffer α} {a : α} (h : take r = some (a,s)) :
    toList r = a::toList s ∧ s.capacity = r.capacity := by
  unfold take at h
  split at h
  · cases h
  · rename_i hne
    cases h
    exact ⟨toList_eq_cons r (Nat.pos_of_ne_zero hne),rfl⟩

/-- What was put in, against what was taken out, what is in the ring, and how many were given up. -/
structure Recorded (pushed taken : List α) (r : RingBuffer α) (lost : ℕ) : Prop where
  kept : (taken++toList r).Sublist pushed
  latest : toList r <:+ pushed
  all : pushed.length = taken.length+r.count+lost

variable {pushed taken : List α} {r : RingBuffer α} {lost : ℕ}

theorem recorded_nil {r : RingBuffer α} (h : toList r = []) : Recorded [] [] r 0 := by
  have hcount : r.count = 0 := by rw [← length_toList, h, List.length_nil]
  refine ⟨?_,?_,?_⟩
  · rw [h, List.append_nil]
  · exact List.suffix_nil.mpr h
  · rw [hcount]
    rfl

theorem Recorded.push (h : Recorded pushed taken r lost) (a : α) :
    Recorded (pushed++[a]) taken (push r a).1 (lost+(push r a).2.toNat) := by
  by_cases hfree : r.count < r.capacity
  · obtain ⟨hno,hlist⟩ := push_free hfree a
    have hcount : (OverwritingRing.push r a).1.count = r.count+1 := by
      rw [← length_toList, hlist, List.length_append, length_toList, List.length_singleton]
    refine ⟨?_,?_,?_⟩
    · rw [hlist, ← List.append_assoc]
      exact h.kept.append (List.Sublist.refl _)
    · rw [hlist]
      obtain ⟨front,hfront⟩ := h.latest
      exact ⟨front,by rw [← hfront, List.append_assoc]⟩
    · have hall := h.all
      rw [hno, hcount, List.length_append, List.length_singleton, Bool.toNat_false]
      omega
  · obtain ⟨hyes,x,hsplit,hlist⟩ := push_full hfree a
    have hrest : toList (advance r) = (toList r).drop 1 := by
      rw [hsplit]
      rfl
    have hold : r.count = (toList (advance r)).length+1 := by
      rw [← length_toList, hsplit, List.length_cons]
    have hcount : (OverwritingRing.push r a).1.count = r.count := by
      rw [← length_toList, hlist, List.length_append, List.length_singleton, ← hold]
    refine ⟨?_,?_,?_⟩
    · rw [hlist, hrest, ← List.append_assoc]
      exact (((List.Sublist.refl taken).append (List.drop_sublist 1 _)).trans h.kept).append
        (List.Sublist.refl _)
    · obtain ⟨front,hfront⟩ := h.latest
      rw [hsplit] at hfront
      exact ⟨front++[x],by rw [hlist, ← hfront]; simp⟩
    · have hall := h.all
      rw [hyes, hcount, List.length_append, List.length_singleton, Bool.toNat_true]
      omega

theorem Recorded.take (h : Recorded pushed taken r lost) {a : α} {s : RingBuffer α}
    (ht : take r = some (a,s)) : Recorded pushed (taken++[a]) s lost := by
  obtain ⟨hlist,-⟩ := take_some ht
  have hcount : r.count = s.count+1 := by
    rw [← length_toList, hlist, List.length_cons, length_toList]
  refine ⟨?_,?_,?_⟩
  · rw [List.append_assoc, List.singleton_append, ← hlist]
    exact h.kept
  · exact (List.suffix_cons a _).trans (hlist ▸ h.latest)
  · have hall := h.all
    rw [List.length_append, List.length_singleton]
    omega

end StarkOne.OverwritingRing
