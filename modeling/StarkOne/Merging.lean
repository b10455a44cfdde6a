import Mathlib.Data.List.GetD
import Mathlib.Order.Lattice

/-!
# A bounded set of regions that keeps its members apart

The regions are ordered by inclusion. A new one takes in every member it joins,
and what the result joins in turn; when the set is full, two members are taken
together first. Nothing is asked of the relation that says what joins.
-/

set_option autoImplicit false

namespace StarkOne.Merging

section
variable {α : Type} [SemilatticeSup α] (joins : α → α → Bool)

def absorb : ℕ → List α → α → List α × α
  | 0, l, a => (l,a)
  | rounds+1, l, a =>
    match l.find? (joins · a) with
    | none => (l,a)
    | some s => absorb rounds (l.eraseP (joins · a)) (s ⊔ a)

def add (cap : ℕ) (pick : List α → ℕ × ℕ) (l : List α) (a : α) : List α :=
  let (l,b) := absorb joins l.length l a
  if l.length < cap then l++[b]
  else
    let all := l++[b]
    let (i,j) := pick all
    let rest := (all.eraseIdx j).eraseIdx i
    let (l,b) := absorb joins rest.length rest (all.getD i b ⊔ all.getD j b)
    l++[b]

structure Tidy (cap : ℕ) (l : List α) : Prop where
  count : l.length ≤ cap
  apart : l.Pairwise (joins · · = false)

/-- The members contain the regions, and are made of them. -/
structure Spans (regions members : List α) : Prop where
  covers : ∀ s ∈ regions, ∃ t ∈ members, s ≤ t
  grown : ∀ t ∈ members, ∃ s ∈ regions, s ≤ t
  bound : ∀ hull, (∀ s ∈ regions, s ≤ hull) → ∀ t ∈ members, t ≤ hull

end

section
variable {α : Type}

theorem taken {p : α → Bool} {l : List α} {s : α} (h : l.find? p = some s) :
    ∃ before after, l = before++s::after ∧ l.eraseP p = before++after := by
  obtain ⟨hp,before,after,rfl,hb⟩ := List.find?_eq_some_iff_append.mp h
  refine ⟨before,after,rfl,?_⟩
  rw [List.eraseP_append_right _ fun b hm => by simpa using hb b hm, List.eraseP_cons_of_pos hp]

theorem snoc_apart {joins : α → α → Bool} {l : List α} {b : α} (hl : l.Pairwise (joins · · = false))
    (hb : ∀ s ∈ l, joins s b = false) : (l++[b]).Pairwise (joins · · = false) := by
  refine List.pairwise_append.mpr ⟨hl,List.pairwise_singleton _ _,fun s hs t ht => ?_⟩
  rw [List.mem_singleton.mp ht]
  exact hb s hs

theorem mem_or_eraseIdx {l : List α} {i : ℕ} (hi : i < l.length) {t : α} (ht : t ∈ l) :
    t = l[i] ∨ t ∈ l.eraseIdx i := by
  rw [List.eraseIdx_eq_take_drop_succ, List.mem_append]
  rw [← List.take_append_drop i l, List.drop_eq_getElem_cons hi, List.mem_append,
    List.mem_cons] at ht
  rcases ht with ht | rfl | ht
  · exact Or.inr (Or.inl ht)
  · exact Or.inl rfl
  · exact Or.inr (Or.inr ht)

end

section
variable {α : Type} [SemilatticeSup α] (joins : α → α → Bool)

theorem Spans.refl (l : List α) : Spans l l where
  covers := fun s hs => ⟨s,hs,le_refl s⟩
  grown := fun t ht => ⟨t,ht,le_refl t⟩
  bound := fun _ h => h

theorem Spans.trans {a b c : List α} (h₁ : Spans a b) (h₂ : Spans b c) : Spans a c where
  covers := by
    intro s hs
    obtain ⟨t,ht,hst⟩ := h₁.covers s hs
    obtain ⟨u,hu,htu⟩ := h₂.covers t ht
    exact ⟨u,hu,hst.trans htu⟩
  grown := by
    intro u hu
    obtain ⟨t,ht,htu⟩ := h₂.grown u hu
    obtain ⟨s,hs,hst⟩ := h₁.grown t ht
    exact ⟨s,hs,hst.trans htu⟩
  bound := fun hull h => h₂.bound hull (h₁.bound hull h)

theorem Spans.snoc {a b : List α} (h : Spans a b) (s : α) : Spans (a++[s]) (b++[s]) where
  covers := by
    intro x hx
    rcases List.mem_append.mp hx with hx | hx
    · obtain ⟨t,ht,hle⟩ := h.covers x hx
      exact ⟨t,List.mem_append_left _ ht,hle⟩
    · exact ⟨x,List.mem_append_right _ hx,le_refl x⟩
  grown := by
    intro x hx
    rcases List.mem_append.mp hx with hx | hx
    · obtain ⟨t,ht,hle⟩ := h.grown x hx
      exact ⟨t,List.mem_append_left _ ht,hle⟩
    · exact ⟨x,List.mem_append_right _ hx,le_refl x⟩
  bound := by
    intro hull hh x hx
    rcases List.mem_append.mp hx with hx | hx
    · exact h.bound hull (fun s' hs' => hh s' (List.mem_append_left _ hs')) x hx
    · exact hh x (List.mem_append_right _ hx)

theorem spans_merge {l rest : List α} {p q b : α} (hp : p ∈ l) (hq : q ∈ l)
    (hrest : ∀ s ∈ rest, s ∈ l) (hl : ∀ s ∈ l, s ∈ rest ∨ s ≤ p ⊔ q)
    (hb : b = p ⊔ q) : Spans l (rest++[b]) where
  covers := by
    intro s hs
    rcases hl s hs with h | h
    · exact ⟨s,List.mem_append_left _ h,le_refl s⟩
    · exact ⟨b,List.mem_append_right _ (List.mem_singleton_self b),h.trans hb.ge⟩
  grown := by
    intro t ht
    rcases List.mem_append.mp ht with ht | ht
    · exact ⟨t,hrest t ht,le_refl t⟩
    · rw [List.mem_singleton.mp ht, hb]
      exact ⟨p,hp,le_sup_left⟩
  bound := by
    intro hull hh t ht
    rcases List.mem_append.mp ht with ht | ht
    · exact hh t (hrest t ht)
    · rw [List.mem_singleton.mp ht, hb]
      exact sup_le (hh p hp) (hh q hq)

theorem absorb_spans (rounds : ℕ) (l : List α) (a : α) :
    Spans (l++[a]) ((absorb joins rounds l a).1++[(absorb joins rounds l a).2]) := by
  induction rounds generalizing l a with
  | zero => exact Spans.refl _
  | succ rounds ih =>
    rw [absorb]
    cases hf : l.find? (joins · a) with
    | none => exact Spans.refl _
    | some s =>
      obtain ⟨before,after,hl,he⟩ := taken hf
      refine (spans_merge ?_ ?_ ?_ ?_ rfl).trans (ih _ _)
      · rw [hl]
        simp
      · simp
      · intro t ht
        exact List.mem_append_left _ (List.mem_of_mem_eraseP ht)
      · intro t ht
        rw [he]
        rw [hl] at ht
        simp only [List.mem_append, List.mem_cons, List.not_mem_nil, or_false] at ht ⊢
        rcases ht with (ht | rfl | ht) | rfl
        · exact Or.inl (Or.inl ht)
        · exact Or.inr le_sup_left
        · exact Or.inl (Or.inr ht)
        · exact Or.inr le_sup_right

theorem absorb_sublist (rounds : ℕ) (l : List α) (a : α) :
    (absorb joins rounds l a).1.Sublist l := by
  induction rounds generalizing l a with
  | zero => exact List.Sublist.refl l
  | succ rounds ih =>
    rw [absorb]
    cases l.find? (joins · a) with
    | none => exact List.Sublist.refl l
    | some s => exact (ih _ _).trans List.eraseP_sublist

/-- With a round for every member, nothing that is left joins the result. -/
theorem absorb_apart (rounds : ℕ) (l : List α) (a : α) (hr : l.length ≤ rounds) :
    ∀ s ∈ (absorb joins rounds l a).1, joins s (absorb joins rounds l a).2 = false := by
  induction rounds generalizing l a with
  | zero =>
    rw [List.length_eq_zero_iff.mp (Nat.le_zero.mp hr)]
    exact List.forall_mem_nil _
  | succ rounds ih =>
    rw [absorb]
    cases hf : l.find? (joins · a) with
    | none =>
      intro s hs
      simpa using List.find?_eq_none.mp hf s hs
    | some s =>
      refine ih _ _ ?_
      obtain ⟨before,after,hl,he⟩ := taken hf
      rw [he, List.length_append]
      rw [hl, List.length_append, List.length_cons] at hr
      omega

variable {cap : ℕ} {pick : List α → ℕ × ℕ}

/-- What absorbing leaves of members that are apart is apart from the result. -/
theorem absorb_tidy (l : List α) (a : α) (hl : l.Pairwise (joins · · = false)) :
    ((absorb joins l.length l a).1++[(absorb joins l.length l a).2]).Pairwise
      (joins · · = false) :=
  snoc_apart (hl.sublist (absorb_sublist _ _ _ _)) (absorb_apart _ _ _ _ (Nat.le_refl _))

theorem add_tidy (hcap : 0 < cap) (hpick : ∀ all, all.length = cap+1 →
      (pick all).1 < (pick all).2 ∧ (pick all).2 < all.length)
    (l : List α) (a : α) (h : Tidy joins cap l) : Tidy joins cap (add joins cap pick l a) := by
  have hall := absorb_tidy joins l a h.apart
  have hcount := (absorb_sublist joins l.length l a).length_le
  have hle := h.count
  unfold add
  dsimp only
  generalize absorb joins l.length l a = r at *
  split
  · rename_i hlt
    refine ⟨?_,hall⟩
    rw [List.length_append, List.length_singleton]
    exact hlt
  · rename_i hfull
    obtain ⟨hij,hj⟩ := hpick (r.1++[r.2]) (by rw [List.length_append, List.length_singleton]; omega)
    rw [List.length_append, List.length_singleton] at hj
    generalize hp : pick (r.1++[r.2]) = ij at *
    refine ⟨?_,absorb_tidy _ _ _ (hall.sublist ?_)⟩
    · have hsub := (absorb_sublist joins (((r.1++[r.2]).eraseIdx ij.2).eraseIdx ij.1).length
        (((r.1++[r.2]).eraseIdx ij.2).eraseIdx ij.1)
        ((r.1++[r.2]).getD ij.1 r.2 ⊔ (r.1++[r.2]).getD ij.2 r.2)).length_le
      have h₁ : ((r.1++[r.2]).eraseIdx ij.2).length = r.1.length := by
        rw [List.length_eraseIdx_of_lt (by simpa using hj)]
        simp
      have h₂ : (((r.1++[r.2]).eraseIdx ij.2).eraseIdx ij.1).length = r.1.length-1 := by
        rw [List.length_eraseIdx_of_lt (by omega), h₁]
      rw [List.length_append, List.length_singleton]
      omega
    · exact (List.eraseIdx_sublist _ _).trans (List.eraseIdx_sublist _ _)

theorem spans_pair {l : List α} {i j : ℕ} (d : α) (hij : i < j) (hj : j < l.length) :
    Spans l (((l.eraseIdx j).eraseIdx i)++[l.getD i d ⊔ l.getD j d]) := by
  have hi : i < l.length := hij.trans hj
  have hi' : i < (l.eraseIdx j).length := by
    rw [List.length_eraseIdx_of_lt hj]
    omega
  rw [List.getD_eq_getElem _ _ hi, List.getD_eq_getElem _ _ hj]
  refine spans_merge (List.getElem_mem hi) (List.getElem_mem hj) (fun s hs => ?_)
    (fun s hs => ?_) rfl
  · exact List.mem_of_mem_eraseIdx (List.mem_of_mem_eraseIdx hs)
  · rcases mem_or_eraseIdx hj hs with rfl | hs
    · exact Or.inr le_sup_right
    · rcases mem_or_eraseIdx hi' hs with rfl | hs
      · rw [List.getElem_eraseIdx_of_lt hi' hij]
        exact Or.inr le_sup_left
      · exact Or.inl hs

theorem add_spans (hpick : ∀ all, all.length = cap+1 →
      (pick all).1 < (pick all).2 ∧ (pick all).2 < all.length)
    (l : List α) (a : α) (h : l.length ≤ cap) : Spans (l++[a]) (add joins cap pick l a) := by
  have hall := absorb_spans joins l.length l a
  have hcount := (absorb_sublist joins l.length l a).length_le
  unfold add
  dsimp only
  generalize absorb joins l.length l a = r at *
  split
  · exact hall
  · rename_i hfull
    obtain ⟨hij,hj⟩ := hpick (r.1++[r.2]) (by rw [List.length_append, List.length_singleton]; omega)
    exact hall.trans ((spans_pair r.2 hij hj).trans (absorb_spans _ _ _ _))

end

end StarkOne.Merging
