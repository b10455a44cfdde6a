import StarkOne.CircularSearch
import StarkOne.MenuModel

/-!
# Moves around the menu

The items that can be selected form a ring that starts at the selection. A
move forward turns it by one and a move back turns it back, as long as twice
the number of items has a `size_t`.
-/

set_option autoImplicit false

namespace StarkOne.MenuRounds
open StarkOne.MenuModel

def items (m : UiMenuModel) : List ℕ := (List.range m.count).filter (isEnabled m)

/-- The items that can be selected, from the selection around. -/
def ring (m : UiMenuModel) : List ℕ := ((List.range m.count).rotate m.sel).filter (isEnabled m)

def behind (n s : ℕ) : List ℕ := (List.range (n-1)).map fun d => (s+1+d) % n

theorem range_rotate {n s : ℕ} (hs : s < n) : (List.range n).rotate s = s::behind n s := by
  apply List.ext_getElem
  · rw [List.length_rotate, List.length_range, List.length_cons, behind, List.length_map,
      List.length_range]
    omega
  · intro d hd hd'
    rw [List.getElem_rotate, List.getElem_range, List.length_range]
    cases d with
    | zero => rw [Nat.zero_add, Nat.mod_eq_of_lt hs, List.getElem_cons_zero]
    | succ d =>
      rw [List.getElem_cons_succ]
      simp only [behind, List.getElem_map, List.getElem_range]
      rw [show d+1+s = s+1+d by omega]

theorem behind_reverse {n s : ℕ} (hs : s < n) :
    (behind n s).reverse = (List.range (n-1)).map fun d => (s+n-1-d) % n := by
  apply List.ext_getElem
  · simp [behind]
  · intro d hd hd'
    rw [List.length_map, List.length_range] at hd'
    simp only [behind, List.getElem_reverse, List.getElem_map, List.getElem_range, List.length_map,
      List.length_range]
    rw [show s+1+(n-1-1-d) = s+n-1-d by omega]

section
variable {m : UiMenuModel}

theorem moveSteps_forward {delta : ℤ} (hdelta : 0 < delta) (hbound : m.count < 2^32) (n : ℕ) :
    ∀ i < m.count, moveSteps m delta n i =
      ((List.range n).map fun d => (i+1+d) % m.count).find? (isEnabled m) := by
  induction n with
  | zero => exact fun _ _ => rfl
  | succ n ih =>
    intro i hi
    have hsize : sizeT (i+1) = i+1 := Nat.mod_eq_of_lt (by omega)
    have hstep : stepped m delta i = (i+1) % m.count := by
      rw [stepped, if_pos hdelta, hsize]
    have hshift : ∀ d, ((i+1) % m.count+1+d) % m.count = (i+1+(d+1)) % m.count := by
      intro d
      rw [Nat.add_assoc, Nat.mod_add_mod, Nat.add_comm 1 d]
    rw [moveSteps, hstep, List.range_succ_eq_map, List.map_cons, List.find?_cons, Nat.add_zero,
      List.map_map]
    cases hen : isEnabled m ((i+1) % m.count) with
    | true => rfl
    | false =>
      rw [if_neg Bool.false_ne_true, ih _ (Nat.mod_lt _ (by omega))]
      simp only [hshift, Function.comp_def]

theorem moveSteps_backward {delta : ℤ} (hdelta : ¬0 < delta) (hbound : m.count ≤ 2^31) (n : ℕ) :
    n ≤ m.count-1 → ∀ i < m.count, moveSteps m delta n i =
      ((List.range n).map fun d => (i+m.count-1-d) % m.count).find? (isEnabled m) := by
  induction n with
  | zero => exact fun _ _ _ => rfl
  | succ n ih =>
    intro hn i hi
    have hsize : sizeT (i+m.count-1) = i+m.count-1 := Nat.mod_eq_of_lt (by omega)
    have hstep : stepped m delta i = (i+m.count-1) % m.count := by
      rw [stepped, if_neg hdelta, hsize]
    have hshift : ∀ d < n, ((i+m.count-1) % m.count+m.count-1-d) % m.count =
        (i+m.count-1-(d+1)) % m.count := by
      intro d hd
      by_cases hzero : i = 0
      · rw [hzero, Nat.zero_add, Nat.mod_eq_of_lt (by omega : m.count-1 < m.count),
          show m.count-1+m.count-1-d = m.count-1-(d+1)+m.count by omega, Nat.add_mod_right]
      · rw [show i+m.count-1 = i-1+m.count by omega, Nat.add_mod_right,
          Nat.mod_eq_of_lt (by omega : i-1 < m.count)]
        congr 1
        omega
    rw [moveSteps, hstep, List.range_succ_eq_map, List.map_cons, List.find?_cons, Nat.sub_zero,
      List.map_map]
    cases hen : isEnabled m ((i+m.count-1) % m.count) with
    | true => rfl
    | false =>
      rw [if_neg Bool.false_ne_true, ih (by omega) _ (Nat.mod_lt _ (by omega))]
      congr 1
      exact List.map_congr_left fun d hd => hshift d (List.mem_range.mp hd)

theorem ring_cons (h : Placed m) (hsome : m.hasSel = true) :
    ring m = (m.sel::behind m.count m.sel).filter (isEnabled m) ∧ (ring m).head? = some m.sel := by
  obtain ⟨hsel,hen⟩ := h.selected hsome
  have hring : ring m = (m.sel::behind m.count m.sel).filter (isEnabled m) := by
    rw [ring, range_rotate hsel]
  refine ⟨hring,?_⟩
  rw [hring, List.filter_cons_of_pos hen, List.head?_cons]

theorem ring_perm (m : UiMenuModel) : (ring m).Perm (items m) :=
  (List.rotate_perm _ _).filter _

theorem ring_moved (m : UiMenuModel) (sel top : ℕ) : ring { m with sel := sel, top := top } =
    ((List.range m.count).rotate sel).filter (isEnabled m) := rfl

theorem move_found {delta : ℤ} (h : Placed m) (hsome : m.hasSel = true) (hdelta : delta ≠ 0) {i : ℕ}
    (hfound : moveSteps m delta (m.count-1) m.sel = some i) :
    ring (uiMenuModelMove m delta).1 = ((List.range m.count).rotate i).filter (isEnabled m) ∧
      (uiMenuModelMove m delta).2 = true := by
  have hpos : 0 < m.count := Nat.lt_of_le_of_lt (Nat.zero_le _) (h.selected hsome).1
  obtain ⟨hlt,hen⟩ := moveSteps_spec hpos _ _ hfound
  obtain ⟨top,htop,-⟩ := h.moved hlt hen
  have hgo : (!m.hasSel || decide (delta = 0)) = false := by
    rw [hsome, decide_eq_false hdelta]
    rfl
  rw [uiMenuModelMove, hgo, if_neg Bool.false_ne_true, hfound]
  refine ⟨?_,rfl⟩
  dsimp only
  rw [htop, ring_moved]

theorem move_sel {delta : ℤ} (h : Placed m) (hsome : m.hasSel = true) (hdelta : delta ≠ 0) :
    (uiMenuModelMove m delta).1.sel = (moveSteps m delta (m.count-1) m.sel).getD m.sel := by
  have hpos : 0 < m.count := Nat.lt_of_le_of_lt (Nat.zero_le _) (h.selected hsome).1
  have hgo : (!m.hasSel || decide (delta = 0)) = false := by
    rw [hsome, decide_eq_false hdelta]
    rfl
  rw [uiMenuModelMove, hgo, if_neg Bool.false_ne_true]
  cases hfound : moveSteps m delta (m.count-1) m.sel with
  | none => rfl
  | some i =>
    obtain ⟨hlt,hen⟩ := moveSteps_spec hpos _ _ hfound
    obtain ⟨top,htop,-⟩ := h.moved hlt hen
    dsimp only
    rw [htop]
    rfl

theorem move_none {delta : ℤ} (hnone : moveSteps m delta (m.count-1) m.sel = none) :
    uiMenuModelMove m delta = (m,false) := by
  rw [uiMenuModelMove, hnone]
  exact ite_self _

/-- A move forward turns the ring by one. -/
theorem move_forward {delta : ℤ} (h : Placed m) (hsome : m.hasSel = true) (hdelta : 0 < delta) :
    ring (uiMenuModelMove m delta).1 = (ring m).rotate 1 := by
  obtain ⟨hsel,hen⟩ := h.selected hsome
  have hsteps : moveSteps m delta (m.count-1) m.sel = (behind m.count m.sel).find? (isEnabled m) :=
    moveSteps_forward hdelta h.bounded (m.count-1) m.sel hsel
  rw [(ring_cons h hsome).1]
  cases hfound : moveSteps m delta (m.count-1) m.sel with
  | none =>
    rw [move_none hfound, (ring_cons h hsome).1, CircularSearch.alone hen (hsteps.symm.trans hfound),
      List.rotate_singleton]
  | some i =>
    obtain ⟨j,hj,hi,hturn⟩ := CircularSearch.forward (range_rotate hsel) hen (hsteps.symm.trans hfound)
    rw [(move_found h hsome (by omega) hfound).1, ← hturn]
    rw [List.getElem?_eq_getElem hj, Option.some.injEq] at hi
    simp only [behind, List.getElem_map, List.getElem_range] at hi
    have hmod := List.rotate_mod (List.range m.count) (m.sel+1+j)
    rw [List.length_range, hi] at hmod
    rw [hmod]

theorem move_backward {delta : ℤ} (h : Placed m) (hsome : m.hasSel = true) (hdelta : delta < 0)
    (hbound : m.count ≤ 2^31) : (ring (uiMenuModelMove m delta).1).rotate 1 = ring m := by
  obtain ⟨hsel,hen⟩ := h.selected hsome
  have hsteps := moveSteps_backward (by omega : ¬0 < delta) hbound (m.count-1) (Nat.le_refl _) m.sel hsel
  rw [← behind_reverse hsel] at hsteps
  rw [(ring_cons h hsome).1]
  cases hfound : moveSteps m delta (m.count-1) m.sel with
  | none =>
    have hnone : (behind m.count m.sel).find? (isEnabled m) = none := by
      rw [hfound, eq_comm, List.find?_eq_none] at hsteps
      exact List.find?_eq_none.mpr fun x hx => hsteps x (List.mem_reverse.mpr hx)
    rw [move_none hfound, (ring_cons h hsome).1, CircularSearch.alone hen hnone, List.rotate_singleton]
  | some i =>
    obtain ⟨j,hj,hi,hturn⟩ := CircularSearch.backward (range_rotate hsel) hen (hsteps.symm.trans hfound)
    rw [(move_found h hsome (by omega) hfound).1, ← hturn]
    have hlen : (behind m.count m.sel).length = m.count-1 := by simp [behind]
    rw [behind_reverse hsel, List.getElem?_eq_getElem (by simp; omega), Option.some.injEq] at hi
    simp only [List.getElem_map, List.getElem_range] at hi
    have hmod := List.rotate_mod (List.range m.count) (m.sel+m.count-1-j)
    rw [List.length_range, hi] at hmod
    rw [hmod, hlen, show m.sel+(m.count-1-j) = m.sel+m.count-1-j by omega]

theorem move_restores {d e : ℤ} (h : Placed m) (hbound : m.count ≤ 2^31) (hd : 0 < d) (he : e < 0) :
    (uiMenuModelMove (uiMenuModelMove m d).1 e).1.sel = m.sel := by
  obtain ⟨⟨sel,top,hm⟩,hplaced⟩ := move_placed h d
  cases hsome : m.hasSel with
  | false =>
    have hstay : ∀ delta, uiMenuModelMove m delta = (m,false) := fun delta => by
      rw [uiMenuModelMove, hsome]
      rfl
    rw [hstay, hstay]
  | true =>
    have hsome' : (uiMenuModelMove m d).1.hasSel = true := by rw [hm]; exact hsome
    have hsome'' : (uiMenuModelMove (uiMenuModelMove m d).1 e).1.hasSel = true := by
      obtain ⟨⟨sel,top,hm'⟩,-⟩ := move_placed hplaced e
      rw [hm']
      exact hsome'
    have hbound' : (uiMenuModelMove m d).1.count ≤ 2^31 := by rw [hm]; exact hbound
    have hback := move_backward hplaced hsome' he hbound'
    rw [move_forward h hsome hd] at hback
    have hring := List.rotate_injective 1 hback
    have hhead := (ring_cons (move_placed hplaced e).2 hsome'').2
    rw [hring, (ring_cons h hsome).2, Option.some.injEq] at hhead
    exact hhead.symm

end

def moves (m : UiMenuModel) (ds : List ℤ) : UiMenuModel := run m (ds.map Op.move)

def selections (m : UiMenuModel) : List ℤ → List ℕ
  | [] => []
  | d::ds => (uiMenuModelMove m d).1.sel::selections (uiMenuModelMove m d).1 ds

theorem selections_length (ds : List ℤ) : ∀ m, (selections m ds).length = ds.length := by
  induction ds with
  | nil => exact fun _ => rfl
  | cons d ds ih => exact fun m => congrArg (·+1) (ih _)

theorem selections_getElem? (ds : List ℤ) : ∀ m j, j < ds.length →
    (selections m ds)[j]? = some (moves m (ds.take (j+1))).sel := by
  induction ds with
  | nil => exact fun m j hj => absurd hj (Nat.not_lt_zero j)
  | cons d ds ih =>
    intro m j hj
    cases j with
    | zero => rfl
    | succ j => exact ih _ j (Nat.lt_of_succ_lt_succ hj)

theorem moves_ring (ds : List ℤ) : ∀ {m}, Placed m → m.hasSel = true → (∀ d ∈ ds, 0 < d) →
    ring (moves m ds) = (ring m).rotate ds.length ∧ Placed (moves m ds) ∧
      (moves m ds).hasSel = true := by
  induction ds with
  | nil => exact fun {m} h hsome _ => ⟨(List.rotate_zero _).symm,h,hsome⟩
  | cons d ds ih =>
    intro m h hsome hds
    obtain ⟨⟨sel,top,hm⟩,hplaced⟩ := move_placed h d
    have hsome' : (uiMenuModelMove m d).1.hasSel = true := by rw [hm]; exact hsome
    obtain ⟨hring,hlast⟩ := ih hplaced hsome' fun e he => hds e (List.mem_cons_of_mem _ he)
    refine ⟨?_,hlast⟩
    rw [List.length_cons, Nat.add_comm, ← List.rotate_rotate,
      ← move_forward h hsome (hds d List.mem_cons_self)]
    exact hring

theorem moves_round {m : UiMenuModel} (h : Placed m) {ds : List ℤ} (hds : ∀ d ∈ ds, 0 < d)
    (hlen : ds.length = (items m).length) :
    (selections m ds).Perm (items m) ∧ (moves m ds).sel = m.sel := by
  cases hsome : m.hasSel with
  | false =>
    have hnone : items m = [] := by
      rw [items, List.filter_eq_nil_iff]
      intro i hi hen
      rw [← Bool.not_eq_true] at hsome
      exact hsome (h.selection.mpr ⟨i,List.mem_range.mp hi,hen⟩)
    rw [hnone] at hlen ⊢
    rw [List.length_eq_zero_iff.mp hlen]
    exact ⟨List.Perm.refl _,rfl⟩
  | true =>
    have hring : (ring m).length = ds.length := (ring_perm m).length_eq.trans hlen.symm
    have hall : selections m ds = (ring m).rotate 1 := by
      apply List.ext_getElem?
      intro j
      by_cases hj : j < ds.length
      · obtain ⟨hturn,hplaced,hsome'⟩ :=
          moves_ring (ds.take (j+1)) h hsome fun d hd => hds d (List.mem_of_mem_take hd)
        rw [List.length_take, Nat.min_eq_left hj, Nat.succ_eq_add_one, Nat.add_comm j 1,
          ← List.rotate_rotate, Nat.add_comm 1 j] at hturn
        rw [selections_getElem? ds m j hj, ← (ring_cons hplaced hsome').2, hturn,
          List.head?_rotate (by rw [List.length_rotate, hring]; exact hj)]
      · rw [List.getElem?_eq_none (by rw [selections_length]; omega),
          List.getElem?_eq_none (by rw [List.length_rotate]; omega)]
    obtain ⟨hturn,hplaced,hsome'⟩ := moves_ring ds h hsome hds
    rw [← hring, List.rotate_length] at hturn
    have hhead := (ring_cons hplaced hsome').2
    rw [hturn, (ring_cons h hsome).2, Option.some.injEq] at hhead
    refine ⟨?_,hhead.symm⟩
    rw [hall]
    exact (List.rotate_perm _ 1).trans (ring_perm m)

structure Lawful (m : UiMenuModel) : Prop where
  selection : m.hasSel = true ↔ ∃ i < m.count, isEnabled m i = true
  selected : m.hasSel = true → m.sel < m.count ∧ isEnabled m m.sel = true
  window : m.hasSel = true → m.top ≤ m.sel ∧ m.sel < m.top+m.visible
  rows : m.visible < m.count → m.top+m.visible ≤ m.count
  header : m.hasSel = true → 2 ≤ m.visible → m.sel = m.top → 0 < m.top →
    isEnabled m (m.top-1) = true
  restores : ∀ d e, 0 < d → e < 0 → (uiMenuModelMove m d).2 = true →
    (uiMenuModelMove (uiMenuModelMove m d).1 e).1.sel = m.sel
  round : ∀ ds : List ℤ, (∀ d ∈ ds, 0 < d) → ds.length = (items m).length →
    (selections m ds).Perm (items m) ∧ (moves m ds).sel = m.sel

theorem Placed.lawful {m : UiMenuModel} (h : Placed m) (hbound : m.count ≤ 2^31) : Lawful m where
  selection := h.selection
  selected := h.selected
  window := fun _ => ⟨h.first,h.last⟩
  rows := h.rows
  header := fun _ => h.header
  restores := fun _ _ hd he _ => move_restores h hbound hd he
  round := fun _ => moves_round h

/-! A list too long for the sum of two indices. -/

def lastTwo (count : ℕ) : Option (ℕ → Bool) := some fun i => i = count-2 || i = count-1

section
variable {count : ℕ} (hbig : 2^31 < count) (hcount : count < 2^32)
include hbig hcount

theorem lastTwo_init (visible : ℕ) : (uiMenuModelInit count visible (lastTwo count)).hasSel = true ∧
    (uiMenuModelInit count visible (lastTwo count)).sel = count-2 := by
  obtain ⟨hplaced,hcountm,-,hen,hfirst⟩ := init_placed hcount visible (lastTwo count)
  have hlast : ∀ i, isEnabled (uiMenuModelInit count visible (lastTwo count)) i =
      (decide (i = count-2) || decide (i = count-1)) := fun i => by
    rw [isEnabled, hen]
    rfl
  have hsome := hplaced.selection.mpr ⟨count-2,by omega,by rw [hlast, decide_eq_true rfl]; rfl⟩
  have hle := hfirst (count-2) (by omega) (by rw [hlast, decide_eq_true rfl]; rfl)
  have hsel := (hplaced.selected hsome).2
  rw [hlast, Bool.or_eq_true, decide_eq_true_eq, decide_eq_true_eq] at hsel
  exact ⟨hsome,by omega⟩

theorem stepped_ne {m : UiMenuModel} (hm : m.count = count) {i : ℕ} (hi : i < count) :
    stepped m (-1) i ≠ count-2 := by
  rw [stepped, if_neg (by omega), hm, sizeT]
  by_cases hwrap : i+count-1 < 2^32
  · rw [Nat.mod_eq_of_lt hwrap]
    by_cases hzero : i = 0
    · rw [hzero, Nat.zero_add, Nat.mod_eq_of_lt (by omega)]
      omega
    · rw [show i+count-1 = i-1+count by omega, Nat.add_mod_right, Nat.mod_eq_of_lt (by omega)]
      omega
  · have hsize : (i+count-1) % 2^32 = i+count-1-2^32 := by omega
    rw [hsize, Nat.mod_eq_of_lt (by omega)]
    omega

theorem moveSteps_ne {m : UiMenuModel} (hm : m.count = count) (n : ℕ) :
    ∀ i < count, moveSteps m (-1) n i ≠ some (count-2) := by
  induction n with
  | zero => exact fun i _ h => by cases h
  | succ n ih =>
    intro i hi h
    rw [moveSteps] at h
    split at h
    · exact stepped_ne hbig hcount hm hi (Option.some.inj h)
    · refine ih _ ?_ h
      rw [stepped, if_neg (by omega), hm]
      exact Nat.mod_lt _ (by omega)

/-- The last item but one is not found again from the last one. -/
theorem lastTwo_unlawful (visible : ℕ) : ¬Lawful (uiMenuModelInit count visible (lastTwo count)) := by
  obtain ⟨hplaced,hcountm,-,hen,-⟩ := init_placed hcount visible (lastTwo count)
  obtain ⟨hsome,hsel⟩ := lastTwo_init hbig hcount visible
  revert hplaced hcountm hen hsome hsel
  generalize uiMenuModelInit count visible (lastTwo count) = m
  intro hplaced hcountm hen hsome hsel hlawful
  have hlast : isEnabled m (count-1) = true := by
    rw [isEnabled, hen]
    simp [lastTwo]
  have hfound : moveSteps m 1 (m.count-1) m.sel = some (count-1) := by
    have hstep : stepped m 1 m.sel = count-1 := by
      rw [stepped, if_pos (by omega), hcountm, hsel, sizeT, Nat.mod_eq_of_lt (by omega),
        Nat.mod_eq_of_lt (by omega)]
      omega
    rw [hcountm, show count-1 = count-2+1 by omega, moveSteps, hstep, if_pos hlast]
    congr 1
    omega
  have hback := hlawful.restores 1 (-1) (by omega) (by omega)
      (move_found hplaced hsome (by omega) hfound).2
  have hforward := move_sel hplaced hsome (by omega : (1 : ℤ) ≠ 0)
  rw [hfound, Option.getD_some] at hforward
  obtain ⟨⟨sel,top,hm⟩,hplaced'⟩ := move_placed hplaced 1
  have hsome' : (uiMenuModelMove m 1).1.hasSel = true := by rw [hm]; exact hsome
  have hcount' : (uiMenuModelMove m 1).1.count = count := by rw [hm]; exact hcountm
  rw [move_sel hplaced' hsome' (by omega), hforward, hsel] at hback
  cases hagain : moveSteps (uiMenuModelMove m 1).1 (-1) ((uiMenuModelMove m 1).1.count-1) (count-1) with
  | none =>
    rw [hagain, Option.getD_none] at hback
    omega
  | some i =>
    rw [hagain, Option.getD_some] at hback
    exact moveSteps_ne hbig hcount hcount' _ _ (by omega) (hback ▸ hagain)

end

/-- The menu is lawful in every state of every run, whatever can be selected, just when the list is
no longer than half of what a `size_t` counts. -/
theorem menu_lawful {count : ℕ} (hcount : count < 2^32) (visible : ℕ) :
    (∀ enabled ops, let m := run (uiMenuModelInit count visible enabled) ops
      m.count = count ∧ m.visible = max 1 visible ∧ m.enabled = enabled ∧ Lawful m) ↔
      count ≤ 2^31 := by
  constructor
  · intro hall
    by_contra hbig
    exact lastTwo_unlawful (Nat.not_le.mp hbig) hcount visible (hall (lastTwo count) []).2.2.2
  · intro hbound enabled ops
    obtain ⟨hplaced,hsame,hvisible,hen,-⟩ := init_placed hcount visible enabled
    obtain ⟨⟨sel,top,hrun⟩,hplaced'⟩ := run_placed hplaced ops
    dsimp only
    refine ⟨?_,?_,?_,Placed.lawful hplaced' ?_⟩
    · rw [hrun]
      exact hsame
    · rw [hrun]
      exact hvisible
    · rw [hrun]
      exact hen
    · rw [hrun]
      exact hsame.trans_le hbound

/-- A list of twelve items with a header in front, in a window of four. -/
theorem menu_lawful_twelve :
    let m := run (uiMenuModelInit 12 4 (some fun i => decide (0 < i))) [.page 1,.move (-3)]
    m.count = 12 ∧ m.visible = max 1 4 ∧ m.enabled = some (fun i => decide (0 < i)) ∧ Lawful m :=
  (menu_lawful (by omega) 4).mpr (by omega) (some fun i => decide (0 < i)) [.page 1,.move (-3)]

/-- One item more than half of them, the last two of which can be selected. -/
theorem menu_unlawful : ¬Lawful (uiMenuModelInit (2^31+1) 4 (lastTwo (2^31+1))) :=
  lastTwo_unlawful (Nat.lt_succ_self _) (by decide) 4

end StarkOne.MenuRounds
