import Mathlib.Data.List.Basic

/-!
# Logs of descriptors

A log, newest event first, of what is done on descriptors. A number is given
out again once it is closed, so every opening has an identity of its own. A
clean log uses a number only while it stands for the identity the call is made
for, and only in the period in which it was opened.
-/

set_option autoImplicit false

namespace StarkOne.Descriptors

inductive Event (ι δ : Type) where
  | opened (id : ι) (fd : δ)
  | used (id : ι) (fd : δ)
  | closed (id : ι) (fd : δ)
  | released (id : ι)
  | ended
  deriving DecidableEq

section
variable {ι δ : Type} [DecidableEq ι] [DecidableEq δ]

/-- The identity that an open number stands for. -/
def table : List (Event ι δ) → δ → Option ι
  | [], _ => none
  | .opened id fd::log, n => if n = fd then some id else table log n
  | .closed _ fd::log, n => if n = fd then none else table log n
  | .used _ _::log, n => table log n
  | .released _::log, n => table log n
  | .ended::log, n => table log n

def period : List (Event ι δ) → ℕ
  | [] => 0
  | .ended::log => period log+1
  | .opened _ _::log => period log
  | .closed _ _::log => period log
  | .used _ _::log => period log
  | .released _::log => period log

def since : List (Event ι δ) → ι → Option ℕ
  | [], _ => none
  | .opened id _::log, i => if i = id then some (period log) else since log i
  | .closed _ _::log, i => since log i
  | .used _ _::log, i => since log i
  | .released _::log, i => since log i
  | .ended::log, i => since log i

def closes : List (Event ι δ) → ι → ℕ
  | [], _ => 0
  | .closed id _::log, i => if i = id then closes log i+1 else closes log i
  | .opened _ _::log, i => closes log i
  | .used _ _::log, i => closes log i
  | .released _::log, i => closes log i
  | .ended::log, i => closes log i

def live : List (Event ι δ) → List ι
  | [] => []
  | .opened id _::log => id::live log
  | .released id::log => (live log).erase id
  | .closed _ _::log => live log
  | .used _ _::log => live log
  | .ended::log => live log

def Clean : List (Event ι δ) → Prop
  | [] => True
  | .opened id fd::log => since log id = none ∧ table log fd = none ∧ Clean log
  | .used id fd::log => table log fd = some id ∧ since log id = some (period log) ∧ Clean log
  | .closed id fd::log => table log fd = some id ∧ Clean log
  | .released _::log => Clean log
  | .ended::log => Clean log

/-- An identity is unknown, open under one number, or closed. -/
inductive Life (log : List (Event ι δ)) (i : ι) : Prop where
  | unknown (hs : since log i = none) (ht : ∀ n, table log n ≠ some i) (hc : closes log i = 0)
  | open (n : δ) (hs : since log i ≠ none) (ht : ∀ m, table log m = some i ↔ m = n)
      (hc : closes log i = 0)
  | closed (hs : since log i ≠ none) (ht : ∀ n, table log n ≠ some i) (hc : closes log i = 1)

theorem life (log : List (Event ι δ)) (h : Clean log) (i : ι) : Life log i := by
  induction log with
  | nil => exact .unknown rfl (fun n h => by cases h) rfl
  | cons e log ih =>
    cases e with
    | opened id fd =>
      obtain ⟨hnew,hfree,h⟩ := h
      by_cases hi : i = id
      · subst hi
        rcases ih h with ⟨-,ht,hc⟩ | ⟨n,hs,-,-⟩ | ⟨hs,-,-⟩
        · refine .open fd (by simp [since]) (fun m => ?_) hc
          by_cases hm : m = fd
          · simp [table, hm]
          · simp [table, hm, ht]
        · exact absurd hnew hs
        · exact absurd hnew hs
      · have htable : ∀ m, table (.opened id fd::log) m = some i ↔ table log m = some i := by
          intro m
          by_cases hm : m = fd
          · simp [table, hm, hfree, Ne.symm hi]
          · simp [table, hm]
        have hsince : since (.opened id fd::log) i = since log i := if_neg hi
        rcases ih h with ⟨hs,ht,hc⟩ | ⟨n,hs,ht,hc⟩ | ⟨hs,ht,hc⟩
        · exact .unknown (hsince.trans hs) (fun m hm => ht m ((htable m).mp hm)) hc
        · exact .open n (hsince ▸ hs) (fun m => (htable m).trans (ht m)) hc
        · exact .closed (hsince ▸ hs) (fun m hm => ht m ((htable m).mp hm)) hc
    | closed id fd =>
      obtain ⟨hfd,h⟩ := h
      by_cases hi : i = id
      · subst hi
        rcases ih h with ⟨-,ht,-⟩ | ⟨n,hs,ht,hc⟩ | ⟨-,ht,-⟩
        · exact absurd hfd (ht fd)
        · refine .closed hs (fun m hm => ?_) (by simp [closes, hc])
          by_cases hm' : m = fd
          · simp [table, hm'] at hm
          · rw [table, if_neg hm', ht] at hm
            exact hm' (hm.trans ((ht fd).mp hfd).symm)
        · exact absurd hfd (ht fd)
      · have htable : ∀ m, table (.closed id fd::log) m = some i ↔ table log m = some i := by
          intro m
          by_cases hm : m = fd
          · simp [table, hm, hfd, Ne.symm hi]
          · simp [table, hm]
        have hcloses : closes (.closed id fd::log) i = closes log i := if_neg hi
        rcases ih h with ⟨hs,ht,hc⟩ | ⟨n,hs,ht,hc⟩ | ⟨hs,ht,hc⟩
        · exact .unknown hs (fun m hm => ht m ((htable m).mp hm)) (hcloses.trans hc)
        · exact .open n hs (fun m => (htable m).trans (ht m)) (hcloses.trans hc)
        · exact .closed hs (fun m hm => ht m ((htable m).mp hm)) (hcloses.trans hc)
    | used id fd =>
      rcases ih h.2.2 with ⟨hs,ht,hc⟩ | ⟨n,hs,ht,hc⟩ | ⟨hs,ht,hc⟩
      · exact .unknown hs ht hc
      · exact .open n hs ht hc
      · exact .closed hs ht hc
    | released id =>
      rcases ih h with ⟨hs,ht,hc⟩ | ⟨n,hs,ht,hc⟩ | ⟨hs,ht,hc⟩
      · exact .unknown hs ht hc
      · exact .open n hs ht hc
      · exact .closed hs ht hc
    | ended =>
      rcases ih h with ⟨hs,ht,hc⟩ | ⟨n,hs,ht,hc⟩ | ⟨hs,ht,hc⟩
      · exact .unknown hs ht hc
      · exact .open n hs ht hc
      · exact .closed hs ht hc

/-- An identity opened in a clean log is closed once, unless it is still open. -/
theorem closed_once {log : List (Event ι δ)} (h : Clean log) {i : ι} (hs : since log i ≠ none) :
    (closes log i = 0 ∧ ∃ n, table log n = some i) ∨
      (closes log i = 1 ∧ ∀ n, table log n ≠ some i) := by
  rcases life log h i with ⟨hn,-,-⟩ | ⟨n,-,ht,hc⟩ | ⟨-,ht,hc⟩
  · exact absurd hn hs
  · exact .inl ⟨hc,n,(ht n).mpr rfl⟩
  · exact .inr ⟨hc,ht⟩

end

end StarkOne.Descriptors
