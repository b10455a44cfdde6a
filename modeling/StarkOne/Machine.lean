import Mathlib.Data.List.Induction

/-!
# Partial machines and their runs

A machine is a partial step function on states and labels. The labels carry
every choice of the environment, so a list of labels is one interleaving. A
run follows such a list and meets a guard in the state before each step.
-/

set_option autoImplicit false

namespace StarkOne.Machine

variable {σ α : Type*}

def Run (step : σ → α → Option σ) (G : σ → α → Prop) : σ → List α → σ → Prop
  | s, [], t => s = t
  | s, a::as, t => G s a ∧ ∃ u, step s a = some u ∧ Run step G u as t

def Free : σ → α → Prop := fun _ _ => True

instance (s : σ) (a : α) : Decidable (Free s a) := isTrue trivial

def follow (step : σ → α → Option σ) : σ → List α → Option σ
  | s, [] => some s
  | s, a::as => (step s a).bind (fun u => follow step u as)

def guarded (step : σ → α → Option σ) (G : σ → α → Prop) [∀ s a, Decidable (G s a)] :
    σ → List α → Bool
  | _, [] => true
  | s, a::as => decide (G s a) && (step s a).any (fun u => guarded step G u as)

theorem run_append {step : σ → α → Option σ} {G : σ → α → Prop} {s u : σ}
    (as bs : List α) :
    Run step G s (as++bs) u ↔ ∃ t, Run step G s as t ∧ Run step G t bs u := by
  induction as generalizing s with
  | nil => simp [Run]
  | cons a as ih =>
    constructor
    · rintro ⟨hg,v,hv,hr⟩
      obtain ⟨t,ht,hb⟩ := ih.mp hr
      exact ⟨t,⟨hg,v,hv,ht⟩,hb⟩
    · rintro ⟨t,⟨hg,v,hv,ht⟩,hb⟩
      exact ⟨hg,v,hv,ih.mpr ⟨t,ht,hb⟩⟩

theorem run_weaken {step : σ → α → Option σ} {G H : σ → α → Prop}
    (hw : ∀ s a, G s a → H s a) {s t : σ} (as : List α) (h : Run step G s as t) :
    Run step H s as t := by
  induction as generalizing s with
  | nil => exact h
  | cons a as ih =>
    obtain ⟨hg,u,hu,hr⟩ := h
    exact ⟨hw s a hg,u,hu,ih hr⟩

theorem run_of_follow {step : σ → α → Option σ} {G : σ → α → Prop}
    [∀ s a, Decidable (G s a)] {s t : σ} (as : List α)
    (hg : guarded step G s as = true) (h : follow step s as = some t) : Run step G s as t := by
  induction as generalizing s with
  | nil => exact Option.some.inj h
  | cons a as ih =>
    obtain ⟨u,hu,hr⟩ := Option.bind_eq_some_iff.mp h
    have hc := Bool.and_eq_true_iff.mp hg
    rw [hu] at hc
    exact ⟨of_decide_eq_true hc.1,u,hu,ih hc.2 hr⟩

theorem run_free {step : σ → α → Option σ} {s t : σ} (as : List α) (h : follow step s as = some t) :
    Run step Free s as t := by
  induction as generalizing s with
  | nil => exact Option.some.inj h
  | cons a as ih =>
    obtain ⟨u,hu,hr⟩ := Option.bind_eq_some_iff.mp h
    exact ⟨trivial,u,hu,ih hr⟩

/-- A run that can be computed, with what is seen at its end. -/
theorem run_witness (step : σ → α → Option σ) {G : σ → α → Prop} [∀ s a, Decidable (G s a)]
    {p : σ → Prop} [DecidablePred p] {s : σ} (as : List α) (hg : guarded step G s as = true)
    (h : (follow step s as).any (fun t => decide (p t)) = true) :
    ∃ t, Run step G s as t ∧ p t := by
  cases ht : follow step s as with
  | none =>
    rw [ht] at h
    cases h
  | some t =>
    rw [ht] at h
    exact ⟨t,run_of_follow as hg ht,of_decide_eq_true h⟩

/-- What every guarded step preserves holds at the end of every guarded run. -/
theorem run_invariant {step : σ → α → Option σ} {G : σ → α → Prop} (Inv : σ → Prop)
    (hstep : ∀ s a t, Inv s → G s a → step s a = some t → Inv t)
    {s t : σ} (as : List α) (hs : Inv s) (h : Run step G s as t) : Inv t := by
  induction as generalizing s with
  | nil => exact h ▸ hs
  | cons a as ih =>
    obtain ⟨hg,u,hu,hr⟩ := h
    exact ih (hstep s a u hs hg hu) hr

theorem run_functional {step : σ → α → Option σ} {G H : σ → α → Prop} {s t u : σ} (as : List α)
    (ht : Run step G s as t) (hu : Run step H s as u) : t = u := by
  induction as generalizing s with
  | nil => exact ht.symm.trans hu
  | cons a as ih =>
    obtain ⟨-,v,hv,hr⟩ := ht
    obtain ⟨-,w,hw,hr'⟩ := hu
    obtain rfl := Option.some.inj (hv.symm.trans hw)
    exact ih hr hr'

theorem run_and {step : σ → α → Option σ} {G H : σ → α → Prop} {s t : σ} (as : List α)
    (hg : Run step G s as t) (hh : Run step H s as t) : Run step (fun s a => G s a ∧ H s a) s as t := by
  induction as generalizing s with
  | nil => exact hg
  | cons a as ih =>
    obtain ⟨ha,u,hu,hr⟩ := hg
    obtain ⟨hb,v,hv,hr'⟩ := hh
    obtain rfl := Option.some.inj (hu.symm.trans hv)
    exact ⟨⟨ha,hb⟩,u,hu,ih hr hr'⟩

/-- A guard is exact when it keeps an invariant that gives the property, and the
first step that breaks the guard breaks the property. -/
theorem run_guard_exact {step : σ → α → Option σ} {G : σ → α → Prop} (Inv P : σ → Prop)
    (hstep : ∀ s a t, Inv s → G s a → step s a = some t → Inv t) (hP : ∀ s, Inv s → P s)
    (hbad : ∀ s a t, Inv s → ¬G s a → step s a = some t → ¬P t)
    {s t : σ} (as : List α) (hs : Inv s) (h : Run step Free s as t) :
    (∀ bs cs u, as = bs++cs → Run step Free s bs u → P u) ↔ Run step G s as t := by
  constructor
  · intro hall
    induction as using List.reverseRecOn generalizing t with
    | nil => exact h
    | append_singleton as a ih =>
      obtain ⟨u,hu,-,v,hv,rfl⟩ := (run_append as [a]).mp h
      have hg := ih hu (fun bs cs w hw hr => hall bs (cs++[a]) w (by rw [hw, List.append_assoc]) hr)
      have hi := run_invariant Inv hstep as hs hg
      refine (run_append as [a]).mpr ⟨u,hg,by_contra fun hn => ?_,v,hv,rfl⟩
      exact hbad u a v hi hn hv (hall _ [] v (List.append_nil _).symm h)
  · intro hg bs cs u has hu
    subst has
    obtain ⟨w,hw,-⟩ := (run_append bs cs).mp hg
    obtain rfl := run_functional bs hw hu
    exact hP _ (run_invariant Inv hstep bs hs hw)

/-- In an endless run whose measure never grows and falls with every step of one kind,
that kind of step stops; if one always follows a state that is not quiet, the run
becomes quiet for good. -/
theorem endless_quiet {w : ℕ → σ} {a : ℕ → α} (m : σ → ℕ) (p : α → Bool) (quiet : σ → Prop)
    (hstep : ∀ i, m (w (i+1))+(if p (a i) then 1 else 0) ≤ m (w i))
    (hfair : ∀ i, ¬quiet (w i) → ∃ j, i ≤ j ∧ p (a j) = true) :
    ∃ n, ∀ i, n ≤ i → quiet (w i) := by
  have hanti : ∀ i k, m (w (i+k)) ≤ m (w i) := by
    intro i k
    induction k with
    | zero => exact Nat.le_refl _
    | succ k ih => exact Nat.le_trans (Nat.le_trans (Nat.le_add_right _ _) (hstep (i+k))) ih
  suffices h : ∀ b k, m (w k) = b → ∃ n, ∀ i, n ≤ i → quiet (w i) from h (m (w 0)) 0 rfl
  intro b
  induction b using Nat.strongRecOn with
  | _ b ih =>
    intro k hk
    by_cases hall : ∀ i, k ≤ i → quiet (w i)
    · exact ⟨k,hall⟩
    · obtain ⟨i,hi⟩ := not_forall.mp hall
      obtain ⟨hki,hq⟩ := Classical.not_imp.mp hi
      obtain ⟨j,hj,hp⟩ := hfair i hq
      have hle := hanti k (j-k)
      have hs := hstep j
      rw [hp, if_pos rfl] at hs
      rw [Nat.add_sub_cancel' (Nat.le_trans hki hj)] at hle
      exact ih (m (w (j+1))) (by omega) (j+1) rfl

end StarkOne.Machine
