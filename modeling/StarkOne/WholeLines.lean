import Mathlib.Data.List.Basic

/-!
# Texts of whole lines

A whole line has one end, and it is its last element. A text of whole lines
shows them: the first line ends with the first end, and as many lines are
within the first elements as the last end among them says.
-/

set_option autoImplicit false

namespace StarkOne.WholeLines

section
variable {α : Type} {nl : α}

def Whole (nl : α) (line : List α) : Prop := ∃ body, line = body++[nl] ∧ nl ∉ body

theorem Whole.length_pos {line : List α} (h : Whole nl line) : 0 < line.length := by
  obtain ⟨body,rfl,-⟩ := h
  rw [List.length_append]
  exact Nat.succ_pos _

variable [DecidableEq α]

theorem Whole.idxOf {line : List α} (h : Whole nl line) (rest : List α) :
    (line++rest).idxOf nl+1 = line.length := by
  obtain ⟨body,rfl,hbody⟩ := h
  rw [List.append_assoc, List.idxOf_append_of_notMem hbody, List.length_append]
  simp

theorem Whole.count {line : List α} (h : Whole nl line) : line.count nl = 1 := by
  obtain ⟨body,rfl,hbody⟩ := h
  rw [List.count_append, List.count_eq_zero_of_not_mem hbody]
  simp

theorem count_lines {held : List (List α)} (h : ∀ line ∈ held, Whole nl line) :
    held.flatten.count nl = held.length := by
  induction held with
  | nil => rfl
  | cons line held ih =>
    rw [List.flatten_cons, List.count_append, (h line List.mem_cons_self).count,
      ih fun l hl => h l (List.mem_cons_of_mem _ hl), List.length_cons, Nat.add_comm]

def lastEnd (nl : α) : List α → ℕ → ℕ → ℕ
  | [], _, e => e
  | c::text, i, e => lastEnd nl text (i+1) (if c = nl then i+1 else e)

theorem lastEnd_free {body : List α} (h : nl ∉ body) (rest : List α) :
    ∀ i e, lastEnd nl (body++rest) i e = lastEnd nl rest (i+body.length) e := by
  induction body with
  | nil => exact fun _ _ => rfl
  | cons c body ih =>
    intro i e
    rw [List.mem_cons, not_or] at h
    rw [List.cons_append, lastEnd, if_neg (Ne.symm h.1), ih h.2, List.length_cons]
    congr 1
    omega

theorem lastEnd_whole {line : List α} (h : Whole nl line) (rest : List α) (i e : ℕ) :
    lastEnd nl (line++rest) i e = lastEnd nl rest (i+line.length) (i+line.length) := by
  obtain ⟨body,rfl,hbody⟩ := h
  rw [List.append_assoc, lastEnd_free hbody, List.length_append]
  show lastEnd nl rest _ (if nl = nl then _ else e) = _
  rw [if_pos rfl]
  rfl

/-- The last end within `n` elements is behind the lines that fit into them; the first line
is one when it fits. -/
theorem lastEnd_lines {held : List (List α)} (h : ∀ line ∈ held, Whole nl line) : ∀ n i,
    ∃ k, lastEnd nl (held.flatten.take n) i i = i+(held.take k).flatten.length ∧
      (held.take k).flatten.length ≤ n ∧ (∀ line, held.head? = some line → line.length ≤ n → 0 < k) := by
  induction held with
  | nil => exact fun n i => ⟨0,by simp [lastEnd],Nat.zero_le n,fun line hl => by cases hl⟩
  | cons line held ih =>
    intro n i
    have hline := h line List.mem_cons_self
    by_cases hn : line.length ≤ n
    · obtain ⟨k,hk,hkn,-⟩ := ih (fun l hl => h l (List.mem_cons_of_mem _ hl)) (n-line.length)
        (i+line.length)
      refine ⟨k+1,?_,?_,fun _ _ _ => Nat.succ_pos k⟩
      · rw [List.flatten_cons, List.take_append, List.take_of_length_le hn, lastEnd_whole hline, hk,
          List.take_succ_cons, List.flatten_cons, List.length_append]
        omega
      · rw [List.take_succ_cons, List.flatten_cons, List.length_append]
        omega
    · refine ⟨0,?_,Nat.zero_le n,fun l hl hle => absurd hle ?_⟩
      · obtain ⟨body,rfl,hbody⟩ := hline
        rw [List.length_append, List.length_singleton] at hn
        have htake : ((body++[nl])++held.flatten).take n = body.take n++[] := by
          rw [List.append_assoc, List.take_append_of_le_length (by omega), List.append_nil]
        rw [List.flatten_cons, htake, lastEnd_free fun hm => hbody (List.mem_of_mem_take hm)]
        rfl
      · rw [List.head?_cons] at hl
        cases hl
        exact hn

end

end StarkOne.WholeLines
