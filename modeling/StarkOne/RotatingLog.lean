import Mathlib.Data.List.Basic

/-!
# Rotating logs

What is appended goes to the current file. Before that would pass a limit, the
current file becomes the newest of the older ones, and only so many of these
are kept.
-/

set_option autoImplicit false

namespace StarkOne.RotatingLog

variable {α : Type*}

structure Log (α : Type*) where
  current : List α
  older : List (List α)

namespace Log

def empty : Log α := ⟨[],[]⟩

def text (l : Log α) : List α := l.older.reverse.flatten++l.current

def rotate (keep : ℕ) (l : Log α) : Log α := ⟨[],(l.current::l.older).take keep⟩

def append (bytes : List α) (l : Log α) : Log α := ⟨l.current++bytes,l.older⟩

/-- A file that has something in it would pass the limit. -/
def Due (limit n : ℕ) (l : Log α) : Prop := l.current ≠ [] ∧ limit < l.current.length+n

def file (l : Log α) : ℕ → List α
  | 0 => l.current
  | k+1 => l.older.getD k []

end Log

def oldestFirst (file : ℕ → List α) : ℕ → List α
  | 0 => []
  | n+1 => file n++oldestFirst file n

theorem oldestFirst_succ (file : ℕ → List α) (n : ℕ) :
    oldestFirst file (n+1) = oldestFirst (fun k => file (k+1)) n++file 0 := by
  induction n with
  | zero => simp [oldestFirst]
  | succ n ih =>
    rw [oldestFirst, ih, ← List.append_assoc]
    rfl

theorem oldestFirst_getD (files : List (List α)) (n : ℕ) (h : files.length ≤ n) :
    oldestFirst (fun k => files.getD k []) n = files.reverse.flatten := by
  induction files generalizing n with
  | nil =>
    clear h
    induction n with
    | zero => rfl
    | succ n ih => simpa [oldestFirst] using ih
  | cons file files ih =>
    cases n with
    | zero => simp at h
    | succ n =>
      rw [oldestFirst_succ]
      have := ih n (by simpa using h)
      simpa using this

theorem oldestFirst_log (l : Log α) (n : ℕ) (h : l.older.length < n) :
    oldestFirst l.file n = l.text := by
  obtain ⟨n,rfl⟩ := Nat.exists_eq_add_of_lt h
  rw [oldestFirst_succ]
  exact congrArg (· ++ l.current) (oldestFirst_getD l.older _ (Nat.le_add_right _ _))

theorem oldestFirst_congr {f g : ℕ → List α} (n : ℕ) (h : ∀ k < n, f k = g k) :
    oldestFirst f n = oldestFirst g n := by
  induction n with
  | zero => rfl
  | succ n ih => rw [oldestFirst, oldestFirst, h n (by omega), ih fun k hk => h k (by omega)]

/-- The log after these appends, of which it may have lost the first. -/
structure Bounded (limit keep : ℕ) (appends : List (List α)) (l : Log α) : Prop where
  suffix : l.text <:+ appends.flatten
  count : l.older.length ≤ keep
  filled : ∀ file ∈ l.older, file ≠ []
  current : l.current.length ≤ limit ∨ l.current ∈ appends
  sizes : ∀ file ∈ l.older, file.length ≤ limit ∨ file ∈ appends

theorem bounded_empty (limit keep : ℕ) : Bounded limit keep [] (Log.empty : Log α) :=
  ⟨List.suffix_refl _,Nat.zero_le _,fun _ h => (by cases h),.inl (Nat.zero_le _),
    fun _ h => by cases h⟩

section
variable {limit keep : ℕ} {appends : List (List α)} {l : Log α}

theorem text_rotate_suffix (keep : ℕ) (l : Log α) : (l.rotate keep).text <:+ l.text := by
  have htake : ((l.current::l.older).take keep).reverse <:+ (l.current::l.older).reverse :=
    List.reverse_suffix.mpr (List.take_prefix _ _)
  obtain ⟨lost,hlost⟩ := htake
  have htext : (l.current::l.older).reverse.flatten = l.text := by
    rw [List.reverse_cons, List.flatten_append, List.flatten_singleton]
    rfl
  refine ⟨lost.flatten,?_⟩
  rw [← htext, ← hlost, List.flatten_append]
  simp [Log.text, Log.rotate]

/-- A rotation loses files only from the old end. -/
theorem Bounded.rotate (h : Bounded limit keep appends l) (hne : l.current ≠ []) :
    Bounded limit keep appends (l.rotate keep) := by
  refine ⟨(text_rotate_suffix keep l).trans h.suffix,?_,?_,.inl (Nat.zero_le _),?_⟩
  · exact List.length_take_le _ _
  · intro file hf
    rcases List.mem_cons.mp (List.mem_of_mem_take hf) with rfl | hf
    · exact hne
    · exact h.filled file hf
  · intro file hf
    rcases List.mem_cons.mp (List.mem_of_mem_take hf) with rfl | hf
    · exact h.current
    · exact h.sizes file hf

theorem Bounded.append (h : Bounded limit keep appends l) {bytes : List α}
    (hroom : ¬l.Due limit bytes.length) : Bounded limit keep (appends++[bytes]) (l.append bytes) := by
  have hgrow : ∀ file : List α, file.length ≤ limit ∨ file ∈ appends →
      file.length ≤ limit ∨ file ∈ appends++[bytes] :=
    fun file hf => hf.imp_right (List.mem_append_left _)
  refine ⟨?_,h.count,h.filled,?_,fun file hf => hgrow file (h.sizes file hf)⟩
  · obtain ⟨lost,hlost⟩ := h.suffix
    refine ⟨lost,?_⟩
    rw [List.flatten_append, List.flatten_singleton, ← hlost]
    simp [Log.text, Log.append]
  · by_cases hc : l.current = []
    · have : (l.append bytes).current = bytes := by simp [Log.append, hc]
      rw [this]
      exact .inr (List.mem_append_right _ List.mem_cons_self)
    · have hfits := Nat.not_lt.mp (not_and.mp hroom hc)
      refine .inl ?_
      rw [Log.append, List.length_append]
      exact hfits

end

end StarkOne.RotatingLog
