import Mathlib.Data.List.Basic
import Mathlib.Data.Nat.ModEq
import Mathlib.Logic.Function.Basic

/-!
# A ring buffer as a queue

The ring keeps `count` elements in a cyclic store, the oldest at `head`. Its
bounds are fields, so no operation can be applied to a ring out of bounds. The
queue it stands for is read off by `toList`, and each operation is described
by what it does to that queue.
-/

set_option autoImplicit false

namespace StarkOne.RingQueue

structure RingBuffer (α : Type*) where
  storage : ℕ → α
  capacity : ℕ
  head : ℕ
  count : ℕ
  head_lt : head < capacity
  count_le : count ≤ capacity

variable {α : Type*}

def empty (storage : ℕ → α) (capacity : ℕ) (h : 0 < capacity) : RingBuffer α :=
  ⟨storage,capacity,0,0,h,Nat.zero_le _⟩

def slot (r : RingBuffer α) (i : ℕ) : ℕ := (r.head+i) % r.capacity

def toList (r : RingBuffer α) : List α := (List.range r.count).map (fun i => r.storage (slot r i))

def oldest (r : RingBuffer α) : α := r.storage r.head

/-- Gives up the oldest element: the head moves on and the count goes down. -/
def advance (r : RingBuffer α) : RingBuffer α :=
  { r with
    head := (r.head+1) % r.capacity
    count := r.count-1
    head_lt := Nat.mod_lt _ (Nat.zero_lt_of_lt r.head_lt)
    count_le := (Nat.sub_le _ _).trans r.count_le }

def skip (r : RingBuffer α) (n : ℕ) : RingBuffer α :=
  { r with
    head := (r.head+n) % r.capacity
    count := r.count-n
    head_lt := Nat.mod_lt _ (Nat.zero_lt_of_lt r.head_lt)
    count_le := (Nat.sub_le _ _).trans r.count_le }

def append (r : RingBuffer α) (a : α) (h : r.count < r.capacity) : RingBuffer α :=
  { r with
    storage := Function.update r.storage (slot r r.count) a
    count := r.count+1
    count_le := h }

@[simp] theorem advance_capacity (r : RingBuffer α) : (advance r).capacity = r.capacity := rfl
@[simp] theorem advance_count (r : RingBuffer α) : (advance r).count = r.count-1 := rfl
@[simp] theorem append_capacity (r : RingBuffer α) (a : α) (h : r.count < r.capacity) :
    (append r a h).capacity = r.capacity := rfl
@[simp] theorem append_count (r : RingBuffer α) (a : α) (h : r.count < r.capacity) :
    (append r a h).count = r.count+1 := rfl

@[simp] theorem length_toList (r : RingBuffer α) : (toList r).length = r.count := by
  simp [toList]

@[simp] theorem toList_empty (storage : ℕ → α) (capacity : ℕ) (h : 0 < capacity) :
    toList (empty storage capacity h) = [] := rfl

theorem slot_injective (r : RingBuffer α) {i j : ℕ} (hi : i < r.capacity) (hj : j < r.capacity)
    (h : slot r i = slot r j) : i = j := by
  have hm : i ≡ j [MOD r.capacity] := Nat.ModEq.add_left_cancel' r.head h
  exact Nat.ModEq.eq_of_lt_of_lt hm hi hj

theorem slot_advance (r : RingBuffer α) (i : ℕ) : slot (advance r) i = slot r (i+1) := by
  simp only [slot, advance, Nat.mod_add_mod]
  congr 1
  omega

/-- A non-empty ring holds its oldest element in front of what remains once
that element is given up. -/
theorem toList_eq_cons (r : RingBuffer α) (h : 0 < r.count) :
    toList r = oldest r :: toList (advance r) := by
  obtain ⟨n,hn⟩ := Nat.exists_eq_succ_of_ne_zero (Nat.pos_iff_ne_zero.mp h)
  have h0 : slot r 0 = r.head := by simp [slot, Nat.mod_eq_of_lt r.head_lt]
  simp only [toList, hn, advance_count, Nat.succ_sub_one, List.range_succ_eq_map,
    List.map_cons, List.map_map, h0, oldest]
  congr 1
  apply List.map_congr_left
  intro i _
  exact congrArg r.storage (slot_advance r i).symm

theorem toList_advance (r : RingBuffer α) : toList (advance r) = (toList r).tail := by
  rcases Nat.eq_zero_or_pos r.count with h | h
  · simp [toList, h]
  · rw [toList_eq_cons r h, List.tail_cons]

theorem slot_skip (r : RingBuffer α) (n i : ℕ) : slot (skip r n) i = slot r (n+i) := by
  simp only [slot, skip, Nat.mod_add_mod]
  congr 1
  omega

theorem toList_skip (r : RingBuffer α) (n : ℕ) : toList (skip r n) = (toList r).drop n := by
  refine List.ext_getElem ?_ fun i hi hj => ?_
  · rw [List.length_drop, length_toList, length_toList]
    rfl
  · simp only [toList, List.getElem_map, List.getElem_range, List.getElem_drop, slot_skip]
    rfl

theorem getElem?_toList (r : RingBuffer α) {i : ℕ} (h : i < r.count) :
    (toList r)[i]? = some (r.storage (slot r i)) := by
  rw [toList, List.getElem?_map, List.getElem?_range h]
  rfl

theorem toList_append (r : RingBuffer α) (a : α) (h : r.count < r.capacity) :
    toList (append r a h) = toList r ++ [a] := by
  have hs : ∀ i, slot (append r a h) i = slot r i := fun _ => rfl
  simp only [toList, append_count, List.range_succ, List.map_append, List.map_cons,
    List.map_nil, hs]
  congr 1
  · apply List.map_congr_left
    intro i hi
    have hlt : i < r.count := List.mem_range.mp hi
    have hne : slot r i ≠ slot r r.count :=
      fun he => hlt.ne (slot_injective r (by omega) h he)
    exact Function.update_of_ne hne _ _
  · simp [append]

end StarkOne.RingQueue
