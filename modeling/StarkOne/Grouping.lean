import Mathlib.Data.List.Sort
import Mathlib.Data.Set.Function

/-!
# Groups with headers

A list in which equal keys are next to one another is written with a header
where the key changes, which puts one before every group. Equal keys are next
to one another when the keys are ordered, as a stable sort leaves them.
-/

set_option autoImplicit false

namespace StarkOne.Grouping

section
variable {α : Type} {r : α → α → Prop} [DecidableRel r]

theorem filter_insertionSort {p : α → Bool} (h : ∀ a b, p a = true → p b = true → r a b) (l : List α) :
    (l.insertionSort r).filter p = l.filter p := by
  have hpairwise : (l.filter p).Pairwise r :=
    List.pairwise_iff_forall_sublist.mpr fun {a b} hab =>
      h a b (List.mem_filter.mp (hab.subset (by simp))).2 (List.mem_filter.mp (hab.subset (by simp))).2
  have hsub := (List.sublist_insertionSort hpairwise List.filter_sublist).filter p
  simp only [List.filter_filter, Bool.and_self] at hsub
  exact (hsub.eq_of_length (((List.perm_insertionSort r l).filter p).length_eq).symm).symm

end

section
variable {α κ ρ : Type} [DecidableEq κ] (key : α → κ) (head : κ → ρ) (item : α → ρ)

def rowsFrom : Option κ → List α → List ρ
  | _, [] => []
  | k, a::l => (if k = some (key a) then [] else [head (key a)])++item a::rowsFrom (some (key a)) l

def headsFrom : Option κ → List α → List κ
  | _, [] => []
  | k, a::l => (if k = some (key a) then [] else [key a])++headsFrom (some (key a)) l

theorem rowsFrom_length (k : Option κ) (l : List α) :
    (rowsFrom key head item k l).length ≤ 2*l.length := by
  induction l generalizing k with
  | nil => simp [rowsFrom]
  | cons a l ih =>
    have hrest := ih (some (key a))
    unfold rowsFrom
    split <;> simp <;> omega

variable {key head item}

theorem rowsFrom_items {f : ρ → Option α} (hhead : ∀ c, f (head c) = none)
    (hitem : ∀ a, f (item a) = some a) (k : Option κ) (l : List α) :
    (rowsFrom key head item k l).filterMap f = l := by
  induction l generalizing k with
  | nil => rfl
  | cons a l ih =>
    unfold rowsFrom
    split <;> simp [hhead, hitem, ih]

theorem headsFrom_mem {k : Option κ} {l : List α} {c : κ} (h : c ∈ headsFrom key k l) :
    ∃ a ∈ l, key a = c := by
  induction l generalizing k with
  | nil => cases h
  | cons a l ih =>
    unfold headsFrom at h
    rcases List.mem_append.mp h with hhead | hrest
    · split at hhead
      · cases hhead
      · exact ⟨a,List.mem_cons_self,(List.mem_singleton.mp hhead).symm⟩
    · obtain ⟨b,hb,hc⟩ := ih hrest
      exact ⟨b,List.mem_cons_of_mem _ hb,hc⟩

theorem mem_headsFrom {k : Option κ} {l : List α} {a : α} (ha : a ∈ l) :
    k = some (key a) ∨ key a ∈ headsFrom key k l := by
  induction l generalizing k with
  | nil => cases ha
  | cons b l ih =>
    unfold headsFrom
    rcases List.mem_cons.mp ha with rfl | ha
    · by_cases hk : k = some (key a)
      · exact .inl hk
      · exact .inr (by simp [hk])
    · rcases ih ha (k := some (key b)) with hsame | hmem
      · rw [← Option.some.inj hsame]
        by_cases hk : k = some (key b)
        · exact .inl hk
        · exact .inr (by simp [hk])
      · exact .inr (List.mem_append_right _ hmem)

variable {g : κ → ℕ} {K : Set κ} {l : List α}

theorem headsFrom_gt (hinj : Set.InjOn g K) (hkeys : ∀ a ∈ l, key a ∈ K)
    (hl : l.Pairwise fun a b => g (key a) ≤ g (key b)) {d : κ} (hd : d ∈ K)
    (hfirst : ∀ a ∈ l, g d ≤ g (key a)) {c : κ} (hc : c ∈ headsFrom key (some d) l) : g d < g c := by
  induction l generalizing d with
  | nil => cases hc
  | cons a l ih =>
    obtain ⟨hnext,hl⟩ := List.pairwise_cons.mp hl
    have hrest := ih (fun b hb => hkeys b (List.mem_cons_of_mem _ hb)) hl
      (hkeys a List.mem_cons_self) hnext
    unfold headsFrom at hc
    by_cases hsame : some d = some (key a)
    · rw [if_pos hsame, List.nil_append] at hc
      rw [Option.some.inj hsame]
      exact hrest hc
    · rw [if_neg hsame, List.singleton_append] at hc
      have hlt : g d < g (key a) := by
        refine lt_of_le_of_ne (hfirst a List.mem_cons_self) fun he => hsame ?_
        rw [hinj hd (hkeys a List.mem_cons_self) he]
      rcases List.mem_cons.mp hc with rfl | hc
      · exact hlt
      · exact hlt.trans (hrest hc)

theorem headsFrom_pairwise (hinj : Set.InjOn g K) (hkeys : ∀ a ∈ l, key a ∈ K)
    (hl : l.Pairwise fun a b => g (key a) ≤ g (key b)) (k : Option κ) :
    (headsFrom key k l).Pairwise fun c d => g c < g d := by
  induction l generalizing k with
  | nil => exact List.Pairwise.nil
  | cons a l ih =>
    obtain ⟨hnext,hl⟩ := List.pairwise_cons.mp hl
    have hkeys' : ∀ b ∈ l, key b ∈ K := fun b hb => hkeys b (List.mem_cons_of_mem _ hb)
    have hrest := ih hkeys' hl (some (key a))
    unfold headsFrom
    split
    · exact hrest
    · exact List.pairwise_cons.mpr
        ⟨fun c => headsFrom_gt hinj hkeys' hl (hkeys a List.mem_cons_self) hnext,hrest⟩

theorem rowsFrom_groups (hinj : Set.InjOn g K) (hkeys : ∀ a ∈ l, key a ∈ K)
    (hl : l.Pairwise fun a b => g (key a) ≤ g (key b)) {k : Option κ}
    (hfirst : ∀ d ∈ k, d ∈ K ∧ ∀ a ∈ l, g d ≤ g (key a)) :
    rowsFrom key head item k l = (l.filter fun a => some (key a) = k).map item++
      (headsFrom key k l).flatMap fun c => head c::(l.filter fun a => key a = c).map item := by
  induction l generalizing k with
  | nil => rfl
  | cons a l ih =>
    obtain ⟨hnext,hl⟩ := List.pairwise_cons.mp hl
    have ha := hkeys a List.mem_cons_self
    have hkeys' : ∀ b ∈ l, key b ∈ K := fun b hb => hkeys b (List.mem_cons_of_mem _ hb)
    have hrest := ih hkeys' hl (k := some (key a)) fun d hd => by
      obtain rfl := Option.some.inj hd
      exact ⟨ha,hnext⟩
    -- the groups of the later headers are without `a`
    have hlater : (headsFrom key (some (key a)) l).flatMap
        (fun c => head c::(l.filter fun b => key b = c).map item) =
        (headsFrom key (some (key a)) l).flatMap
          fun c => head c::((a::l).filter fun b => key b = c).map item := by
      refine List.flatMap_congr fun c hc => ?_
      have hne : key a ≠ c := fun he =>
        absurd (headsFrom_gt hinj hkeys' hl ha hnext hc) (he ▸ lt_irrefl _)
      rw [List.filter_cons_of_neg (by simpa using hne)]
    unfold rowsFrom headsFrom
    rw [hrest, hlater]
    by_cases hsame : k = some (key a)
    · rw [if_pos hsame, if_pos hsame, hsame, List.filter_cons_of_pos (by simp)]
      rfl
    · have hnone : ((a::l).filter fun b => some (key b) = k) = [] := by
        refine List.filter_eq_nil_iff.mpr fun b hb he => hsame ?_
        have he : k = some (key b) := (of_decide_eq_true he).symm
        obtain ⟨hK,hle⟩ := hfirst (key b) he
        have hge : g (key a) ≤ g (key b) := by
          rcases List.mem_cons.mp hb with rfl | hb
          · exact le_refl _
          · exact hnext b hb
        rw [he, hinj hK ha ((hle a List.mem_cons_self).antisymm hge)]
      rw [if_neg hsame, if_neg hsame, hnone]
      simp

end

end StarkOne.Grouping
