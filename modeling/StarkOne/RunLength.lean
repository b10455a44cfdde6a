import Mathlib.Algebra.BigOperators.Group.List.Basic
import Mathlib.Algebra.GroupWithZero.Nat

/-!
# Run lengths of alternating levels

A list of levels and the lengths of its runs. The levels of one run are equal,
the next run has the other level, and a run of low levels at the very end
cannot be told from silence.
-/

set_option autoImplicit false

namespace StarkOne.RunLength

/-- The levels that runs of these lengths spell, the first run at `level`. -/
def spell (level : Bool) : List ℕ → List Bool
  | [] => []
  | k::ks => List.replicate k level++spell (!level) ks

/-- The runs of the levels to come, behind `run` levels equal to `level`. The last
run is left out when it is low. -/
def runs (level : Bool) (run : ℕ) : List Bool → List ℕ
  | [] => if level then [run] else []
  | a::rest => if a = level then runs level (run+1) rest else run::runs a 1 rest

def halves (first : List Bool) : List Bool := first.flatMap fun a => [a,!a]

@[simp] theorem halves_nil : halves [] = [] := rfl

@[simp] theorem halves_cons (a : Bool) (rest : List Bool) :
    halves (a::rest) = a::(!a)::halves rest := rfl

theorem halves_length (first : List Bool) : (halves first).length = 2*first.length := by
  induction first with
  | nil => rfl
  | cons a rest ih => simp [ih]; omega

theorem spell_length (level : Bool) (ks : List ℕ) : (spell level ks).length = ks.sum := by
  induction ks generalizing level with
  | nil => rfl
  | cons k ks ih => simp [spell, ih]

theorem runs_same (level : Bool) (run : ℕ) (rest : List Bool) :
    runs level run (level::rest) = runs level (run+1) rest := by
  simp [runs]

theorem runs_turn (level : Bool) (run : ℕ) (rest : List Bool) :
    runs level run ((!level)::rest) = run::runs (!level) 1 rest := by
  simp [runs]

theorem runs_replicate (level : Bool) (run k : ℕ) (rest : List Bool) :
    runs level run (List.replicate k level++rest) = runs level (run+k) rest := by
  induction k generalizing run with
  | zero => rfl
  | succ k ih =>
    rw [List.replicate_succ, List.cons_append, runs_same, ih]
    congr 1
    omega

theorem runs_low (run low : ℕ) : runs true run (List.replicate low false) = [run] := by
  cases low with
  | zero => rfl
  | succ low =>
    have h := runs_replicate false 1 low []
    rw [List.append_nil] at h
    rw [List.replicate_succ]
    exact congrArg (run::·) h

/-- Reading the runs of spelled levels gives the lengths back, when the last run is high. -/
theorem runs_spell (ks : List ℕ) (hks : ∀ k ∈ ks, 1 ≤ k) (level : Bool) (run low : ℕ)
    (hlast : level = decide (ks.length % 2 = 0)) :
    runs level run (spell (!level) ks++List.replicate low false) = run::ks := by
  induction ks generalizing level run with
  | nil =>
    have hl : level = true := hlast
    rw [hl]
    exact runs_low run low
  | cons k ks ih =>
    obtain ⟨j,rfl⟩ : ∃ j, k = j+1 := ⟨k-1,by have := hks k (by simp); omega⟩
    have hodd : (!level) = decide (ks.length % 2 = 0) := by
      rw [hlast, List.length_cons]
      by_cases he : ks.length % 2 = 0
      · have : (ks.length+1) % 2 ≠ 0 := by omega
        simp [he, this]
      · have : (ks.length+1) % 2 = 0 := by omega
        simp [he, this]
    have hrest := ih (fun k hk => hks k (List.mem_cons_of_mem _ hk)) (!level) (1+j) hodd
    rw [spell, List.append_assoc, List.replicate_succ, List.cons_append, runs_turn, runs_replicate,
      hrest, Nat.add_comm]

/-- The runs spell the levels they were read from, or all but a last low half. -/
def Spells (level : Bool) (run : ℕ) (rest : List Bool) : Prop :=
  spell level (runs level run rest) = List.replicate run level++rest ∨
  spell level (runs level run rest)++[false] = List.replicate run level++rest

theorem spells_same {level : Bool} {run : ℕ} {rest : List Bool} (h : Spells level (run+1) rest) :
    Spells level run (level::rest) := by
  unfold Spells at h ⊢
  rw [runs_same]
  simpa [List.replicate_succ'] using h

theorem spells_turn {level : Bool} (run : ℕ) {rest : List Bool} (h : Spells (!level) 1 rest) :
    Spells level run ((!level)::rest) := by
  unfold Spells at h ⊢
  rw [runs_turn]
  apply h.imp
  · intro h
    simp [spell, h]
  · intro h
    simp [spell, h]

theorem spells_low (run : ℕ) : Spells true run [false] := by
  right
  simp [runs, spell]

theorem spells_high (run : ℕ) : Spells true run [] := by
  left
  simp [runs, spell]

theorem spells_halves (first : List Bool) (level : Bool) (run : ℕ)
    (hend : first ≠ [] ∨ level = true) : Spells level run (halves first) := by
  induction first generalizing level run with
  | nil =>
    rw [hend.resolve_left (by simp)]
    exact spells_high run
  | cons a rest ih =>
    have hturn : ∀ b n, Spells b n ((!b)::halves rest) := by
      intro b n
      by_cases hb : rest ≠ [] ∨ (!b) = true
      · exact spells_turn n (ih (!b) 1 hb)
      · simp only [not_or, Decidable.not_not, Bool.not_eq_true, Bool.not_eq_false'] at hb
        rw [hb.1, hb.2]
        exact spells_low n
    rw [halves_cons]
    by_cases ha : a = level
    · subst a
      exact spells_same (hturn level (run+1))
    · have hn : a = !level := by cases a <;> cases level <;> simp_all
      subst a
      exact spells_turn run (hturn (!level) 1)

theorem spells_append (l first : List Bool) (hne : first ≠ []) (level : Bool) (run : ℕ) :
    Spells level run (l++halves first) := by
  induction l generalizing level run with
  | nil => exact spells_halves first level run (.inl hne)
  | cons a l ih =>
    by_cases ha : a = level
    · subst a
      exact spells_same (ih level (run+1))
    · have hn : a = !level := by cases a <;> cases level <;> simp_all
      subst a
      exact spells_turn run (ih (!level) 1)

/-- A run crosses at most one boundary between bits. -/
theorem runs_bound (first : List Bool) (level : Bool) (run most : ℕ) (hpos : 1 ≤ run)
    (hrun : run+1 ≤ most) (htwo : 2 ≤ most) :
    ∀ k ∈ runs level run (halves first), 1 ≤ k ∧ k ≤ most := by
  induction first generalizing level run with
  | nil =>
    intro k hk
    cases level
    · simp [runs] at hk
    · simp only [runs, halves_nil, if_pos, List.mem_singleton] at hk
      omega
  | cons a rest ih =>
    intro k hk
    rw [halves_cons] at hk
    by_cases ha : a = level
    · subst a
      rw [runs_same, runs_turn, List.mem_cons] at hk
      rcases hk with rfl | hk
      · omega
      · exact ih (!level) 1 (by decide) htwo k hk
    · have hn : a = !level := by cases a <;> cases level <;> simp_all
      subst a
      rw [runs_turn, runs_turn, Bool.not_not, List.mem_cons, List.mem_cons] at hk
      rcases hk with rfl | rfl | hk
      · omega
      · omega
      · exact ih level 1 (by decide) htwo k hk

end StarkOne.RunLength
