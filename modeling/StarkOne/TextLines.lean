import Mathlib.Data.List.TakeWhile

/-!
# Lines of a text

The last line may end with the text. Lines that start with a mark are comments.
-/

set_option autoImplicit false

namespace StarkOne.TextLines

def lines (text : List Char) : List (List Char) :=
  let pieces := text.splitOn '\n'
  if pieces.getLast? = some [] then pieces.dropLast else pieces

def written (ls : List (List Char)) : List Char := ls.flatMap (·++['\n'])

def comment (mark : Char) (line : List Char) : Bool := line.head? = some mark

def contents (mark : Char) (text : List Char) : List (List Char) :=
  (lines text).filter (!comment mark ·)

def uncommented (mark : Char) (text : List Char) : List Char := written (contents mark text)

theorem lines_nil : lines [] = [] := rfl

theorem splitOn_line {a : List Char} (ha : '\n' ∉ a) (b : List Char) :
    (a++ '\n'::b).splitOn '\n' = a::b.splitOn '\n' := by
  refine List.splitOnP_append_cons_of_forall_mem (fun c hc => ?_) '\n' rfl b
  rw [beq_eq_false_iff_ne]
  rintro rfl
  exact ha hc

theorem lines_cons {a : List Char} (ha : '\n' ∉ a) (b : List Char) :
    lines (a++ '\n'::b) = a::lines b := by
  obtain ⟨x,l,hl⟩ := List.exists_cons_of_ne_nil (List.splitOn_ne_nil '\n' b)
  unfold lines
  rw [splitOn_line ha, hl]
  dsimp only
  rw [List.getLast?_cons_cons, List.dropLast_cons_cons]
  split <;> rfl

theorem lines_last {a : List Char} (ha : '\n' ∉ a) (hne : a ≠ []) : lines a = [a] := by
  have hs : a.splitOn '\n' = [a] := by
    refine List.splitOnP_eq_singleton fun c hc => ?_
    rw [beq_eq_false_iff_ne]
    rintro rfl
    exact ha hc
  unfold lines
  rw [hs]
  simp [hne]

theorem first_line (text : List Char) : '\n' ∉ text.takeWhile (· ≠ '\n') := by
  intro h
  simpa using List.mem_takeWhile_imp h

theorem lines_step {text : List Char} (hne : text ≠ []) :
    lines text = text.takeWhile (· ≠ '\n')::lines ((text.dropWhile (· ≠ '\n')).drop 1) := by
  have hsplit : text.takeWhile (· ≠ '\n')++text.dropWhile (· ≠ '\n') = text :=
    List.takeWhile_append_dropWhile
  cases hd : text.dropWhile (· ≠ '\n') with
  | nil =>
    rw [hd, List.append_nil] at hsplit
    conv => lhs; rw [← hsplit]
    rw [lines_last (first_line text) (by rw [hsplit]; exact hne), List.drop_nil, lines_nil]
  | cons c rest =>
    have hc : c = '\n' := by
      have := List.head?_dropWhile_not (· ≠ '\n') text
      rw [hd] at this
      simpa using this
    subst c
    rw [hd] at hsplit
    conv => lhs; rw [← hsplit]
    rw [lines_cons (first_line text)]
    rfl

theorem lines_written (ls : List (List Char)) (h : ∀ l ∈ ls, '\n' ∉ l) :
    lines (written ls) = ls := by
  induction ls with
  | nil => rfl
  | cons l ls ih =>
    have htext : written (l::ls) = l++ '\n'::written ls := by simp [written]
    rw [htext, lines_cons (h l List.mem_cons_self),
      ih fun m hm => h m (List.mem_cons_of_mem _ hm)]

/-- A text written without comments has the lines it was written with. -/
theorem contents_written {mark : Char} (ls : List (List Char))
    (h : ∀ l ∈ ls, '\n' ∉ l ∧ comment mark l = false) : contents mark (written ls) = ls := by
  unfold contents
  rw [lines_written ls fun l hl => (h l hl).1, List.filter_eq_self]
  intro l hl
  rw [(h l hl).2]
  rfl

theorem contents_step (mark : Char) {text : List Char} (hne : text ≠ []) :
    contents mark text = if comment mark (text.takeWhile (· ≠ '\n')) = true
      then contents mark ((text.dropWhile (· ≠ '\n')).drop 1)
      else text.takeWhile (· ≠ '\n')::contents mark ((text.dropWhile (· ≠ '\n')).drop 1) := by
  unfold contents
  rw [lines_step hne, List.filter_cons]
  cases comment mark (text.takeWhile (· ≠ '\n')) <;> rfl

end StarkOne.TextLines
