import Mathlib.Data.Nat.Notation
import Mathlib.Logic.Function.Basic

/-!
# Running checks

A check that takes in one element after another tells lists apart that differ
in a single element, when its step loses neither the state nor the element.
-/

set_option autoImplicit false

namespace StarkOne.RunningCheck

section
variable {α β : Type} {f : β → α → β}

/-- One step of the check can be undone, from the state and from the element. -/
structure Telling (f : β → α → β) : Prop where
  state : ∀ a, Function.Injective fun s => f s a
  element : ∀ s, Function.Injective (f s)

theorem Telling.foldl_injective (hf : Telling f) (l : List α) :
    Function.Injective fun s => l.foldl f s := by
  induction l with
  | nil => exact fun _ _ h => h
  | cons a l ih => exact fun _ _ h => hf.state a (ih h)

/-- The check finds every replacement of one element by another. -/
theorem Telling.foldl_set (hf : Telling f) (l : List α) :
    ∀ (i : ℕ) (b : α) (s : β), i < l.length → (l.set i b).foldl f s = l.foldl f s →
      l[i]? = some b := by
  induction l with
  | nil => exact fun _ _ _ hi => absurd hi (Nat.not_lt_zero _)
  | cons a l ih =>
    intro i b s hi h
    cases i with
    | zero => exact congrArg some (hf.element s (hf.foldl_injective l h)).symm
    | succ i => exact ih i b (f s a) (Nat.lt_of_succ_lt_succ hi) h

end

end StarkOne.RunningCheck
