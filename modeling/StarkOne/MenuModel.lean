import Mathlib.Data.UInt
import Mathlib.Data.Int.Notation
import Mathlib.Data.List.Basic

/-!
# The list menu

A selection among the items that can be selected, moved by one or by a window,
and the window that follows it. Sums of `size_t` wrap at 32 bits.
-/

set_option autoImplicit false

namespace StarkOne.MenuModel

/-- Without `enabled` every item can be selected. -/
structure UiMenuModel where
  count : ℕ
  visible : ℕ
  sel : ℕ
  top : ℕ
  hasSel : Bool
  enabled : Option (ℕ → Bool)

def sizeT (n : ℕ) : ℕ := n % 2^32

def isEnabled (m : UiMenuModel) (i : ℕ) : Bool :=
  match m.enabled with
  | none => true
  | some enabled => enabled i

def follow (m : UiMenuModel) : UiMenuModel :=
  if m.count ≤ m.visible then { m with top := 0 }
  else
  let top :=
    if m.sel < m.top then m.sel
    else if sizeT (m.top+m.visible) ≤ m.sel then sizeT (m.sel+1)-m.visible
    else m.top
  let top := if m.count-m.visible < top then m.count-m.visible else top
  -- The row above is a header: it stays in view.
  if 2 ≤ m.visible ∧ m.sel = top ∧ 0 < top ∧ isEnabled m (top-1) = false then
    { m with top := top-1 }
  else { m with top := top }

def scanUp (m : UiMenuModel) : ℕ → ℕ → ℕ
  | 0, _ => m.count
  | n+1, i => if isEnabled m i then i else scanUp m n (i+1)

def scanDown (m : UiMenuModel) : ℕ → ℕ
  | 0 => if isEnabled m 0 then 0 else m.count
  | i+1 => if isEnabled m (i+1) then i+1 else scanDown m i

def scan (m : UiMenuModel) (start : ℕ) (step : ℤ) : ℕ :=
  if 0 < step then scanUp m (m.count-start) start
  else if start < m.count then scanDown m start else m.count

def uiMenuModelInit (count visible : ℕ) (enabled : Option (ℕ → Bool)) : UiMenuModel :=
  let m : UiMenuModel := ⟨count,if visible = 0 then 1 else visible,0,0,false,enabled⟩
  let first := scan m 0 1
  follow { m with hasSel := first < count, sel := if first < count then first else 0 }

def stepped (m : UiMenuModel) (delta : ℤ) (i : ℕ) : ℕ :=
  if 0 < delta then sizeT (i+1) % m.count else sizeT (i+m.count-1) % m.count

def moveSteps (m : UiMenuModel) (delta : ℤ) : ℕ → ℕ → Option ℕ
  | 0, _ => none
  | n+1, i =>
    if isEnabled m (stepped m delta i) then some (stepped m delta i)
    else moveSteps m delta n (stepped m delta i)

def uiMenuModelMove (m : UiMenuModel) (delta : ℤ) : UiMenuModel × Bool :=
  if !m.hasSel || delta = 0 then (m,false)
  else
  match moveSteps m delta (m.count-1) m.sel with
  | some i => (follow { m with sel := i },true)
  | none => (m,false)

def pageTarget (m : UiMenuModel) (dir : ℤ) : ℕ :=
  if 0 < dir then if m.count-1-m.sel < m.visible then m.count-1 else sizeT (m.sel+m.visible)
  else if m.sel < m.visible then 0 else m.sel-m.visible

def pagePick (m : UiMenuModel) (target : ℕ) (dir : ℤ) : ℕ :=
  let pick := scan m target (if 0 < dir then 1 else -1)
  if pick = m.count then scan m target (if 0 < dir then -1 else 1) else pick

def uiMenuModelPage (m : UiMenuModel) (dir : ℤ) : UiMenuModel × Bool :=
  if !m.hasSel || dir = 0 then (m,false)
  else
  let pick := pagePick m (pageTarget m dir) dir
  if pick = m.count ∨ pick = m.sel then (m,false)
  else (follow { m with sel := pick },true)

inductive Op where
  | move (delta : ℤ)
  | page (dir : ℤ)

def apply (m : UiMenuModel) : Op → UiMenuModel
  | .move delta => (uiMenuModelMove m delta).1
  | .page dir => (uiMenuModelPage m dir).1

def run (m : UiMenuModel) (ops : List Op) : UiMenuModel := ops.foldl apply m

/-- The window contains the selection, shows no empty rows, and no header hides above it. -/
structure Window (m : UiMenuModel) : Prop where
  rows : m.visible < m.count → m.top+m.visible ≤ m.count
  first : m.top ≤ m.sel
  last : m.sel < m.top+m.visible
  header : 2 ≤ m.visible → m.sel = m.top → 0 < m.top → isEnabled m (m.top-1) = true

theorem follow_spec {m : UiMenuModel} (hcount : m.count < 2^32) (hvisible : 0 < m.visible)
    (hrows : m.visible < m.count → m.top+m.visible ≤ m.count) (hsel : m.sel < m.count ∨ m.sel = 0) :
    ∃ top, follow m = { m with top := top } ∧ Window { m with top := top } := by
  by_cases hfits : m.count ≤ m.visible
  · refine ⟨0,if_pos hfits,fun h => absurd hfits (Nat.not_le.mpr h),Nat.zero_le _,?_,fun _ _ h => ?_⟩
    · show m.sel < 0+m.visible
      omega
    · exact absurd h (Nat.lt_irrefl 0)
  · have hroom := hrows (Nat.not_le.mp hfits)
    have hsum : sizeT (m.top+m.visible) = m.top+m.visible := Nat.mod_eq_of_lt (by omega)
    have hnext : sizeT (m.sel+1) = m.sel+1 := Nat.mod_eq_of_lt (by omega)
    -- Where the selection moved out of the window, the window moves just as far.
    have hmoved : ∃ top, (if m.sel < m.top then m.sel
        else if sizeT (m.top+m.visible) ≤ m.sel then sizeT (m.sel+1)-m.visible
        else m.top) = top ∧ top ≤ m.sel ∧ m.sel < top+m.visible ∧ top+m.visible ≤ m.count := by
      rw [hsum, hnext]
      refine ⟨_,rfl,?_⟩
      split
      · omega
      · split <;> omega
    obtain ⟨top,htop,hfirst,hlast,hrow⟩ := hmoved
    have hclamp : (if m.count-m.visible < top then m.count-m.visible else top) = top :=
      if_neg (by omega)
    by_cases hheader : 2 ≤ m.visible ∧ m.sel = top ∧ 0 < top ∧ isEnabled m (top-1) = false
    · refine ⟨top-1,?_,fun _ => ?_,?_,?_,fun _ h _ => ?_⟩
      · rw [follow, if_neg hfits]
        simp only [htop, hclamp, if_pos hheader]
      · show top-1+m.visible ≤ m.count
        omega
      · show top-1 ≤ m.sel
        omega
      · show m.sel < top-1+m.visible
        omega
      · have h : m.sel = top-1 := h
        omega
    · refine ⟨top,?_,fun _ => hrow,hfirst,hlast,fun hvis hsame hpos => ?_⟩
      · rw [follow, if_neg hfits]
        simp only [htop, hclamp, if_neg hheader]
      · exact (Bool.not_eq_false _).mp fun h => hheader ⟨hvis,hsame,hpos,h⟩

theorem scanUp_spec (m : UiMenuModel) (n : ℕ) : ∀ i, i+n ≤ m.count →
    (scanUp m n i < m.count ∧ isEnabled m (scanUp m n i) = true) ∨
      (scanUp m n i = m.count ∧ ∀ j, i ≤ j → j < i+n → isEnabled m j = false) := by
  induction n with
  | zero => exact fun i _ => .inr ⟨rfl,fun j hij hj => absurd hj (Nat.not_lt.mpr hij)⟩
  | succ n ih =>
    intro i hi
    rw [scanUp]
    cases hen : isEnabled m i with
    | true => exact .inl ⟨by rw [if_pos rfl]; omega,hen⟩
    | false =>
      rw [if_neg Bool.false_ne_true]
      refine (ih (i+1) (by omega)).imp_right fun h => ⟨h.1,fun j hij hj => ?_⟩
      by_cases hsame : j = i
      · rw [hsame, hen]
      · exact h.2 j (by omega) (by omega)

theorem scanUp_le {m : UiMenuModel} {j : ℕ} (hen : isEnabled m j = true) (n : ℕ) :
    ∀ i, i ≤ j → j < i+n → scanUp m n i ≤ j := by
  induction n with
  | zero => exact fun i hi hj => absurd hj (Nat.not_lt.mpr hi)
  | succ n ih =>
    intro i hi hj
    rw [scanUp]
    split
    · exact hi
    · rename_i hdis
      exact ih (i+1) (by rcases Nat.lt_or_eq_of_le hi with h | h; exact h; exact absurd (h ▸ hen) hdis)
        (by omega)

theorem scanDown_spec (m : UiMenuModel) (i : ℕ) (hi : i < m.count) :
    (scanDown m i < m.count ∧ isEnabled m (scanDown m i) = true) ∨ scanDown m i = m.count := by
  induction i with
  | zero =>
    rw [scanDown]
    cases hen : isEnabled m 0 with
    | true => exact .inl ⟨hi,hen⟩
    | false => exact .inr rfl
  | succ i ih =>
    rw [scanDown]
    cases hen : isEnabled m (i+1) with
    | true => exact .inl ⟨hi,hen⟩
    | false => exact ih (Nat.lt_of_succ_lt hi)

theorem scan_spec {m : UiMenuModel} {start : ℕ} (hstart : start < m.count) (step : ℤ) :
    (scan m start step < m.count ∧ isEnabled m (scan m start step) = true) ∨
      scan m start step = m.count := by
  unfold scan
  split
  · exact (scanUp_spec m _ start (by omega)).imp_right And.left
  · exact scanDown_spec m start hstart

theorem scan_first (m : UiMenuModel) :
    (scan m 0 1 < m.count ∧ isEnabled m (scan m 0 1) = true) ∨
      (scan m 0 1 = m.count ∧ ∀ j < m.count, isEnabled m j = false) := by
  have h := scanUp_spec m m.count 0 (by omega)
  rw [Nat.zero_add] at h
  exact h.imp_right fun h => ⟨h.1,fun j hj => h.2 j (Nat.zero_le _) hj⟩

theorem moveSteps_spec {m : UiMenuModel} (hpos : 0 < m.count) {delta : ℤ} {j : ℕ} (n : ℕ) :
    ∀ i, moveSteps m delta n i = some j → j < m.count ∧ isEnabled m j = true := by
  induction n with
  | zero => exact fun i h => by cases h
  | succ n ih =>
    intro i h
    rw [moveSteps] at h
    split at h
    · rename_i hen
      cases h
      refine ⟨?_,hen⟩
      unfold stepped
      split <;> exact Nat.mod_lt _ hpos
    · exact ih _ h

structure Placed (m : UiMenuModel) : Prop extends Window m where
  bounded : m.count < 2^32
  shown : 0 < m.visible
  selection : m.hasSel = true ↔ ∃ i < m.count, isEnabled m i = true
  selected : m.hasSel = true → m.sel < m.count ∧ isEnabled m m.sel = true

def Moved (m m' : UiMenuModel) : Prop := ∃ sel top, m' = { m with sel := sel, top := top }

theorem Moved.refl (m : UiMenuModel) : Moved m m := ⟨m.sel,m.top,rfl⟩

theorem Moved.trans {m m' m'' : UiMenuModel} (h : Moved m m') (h' : Moved m' m'') : Moved m m'' := by
  obtain ⟨sel,top,rfl⟩ := h
  obtain ⟨sel',top',rfl⟩ := h'
  exact ⟨sel',top',rfl⟩

theorem Placed.moved {m : UiMenuModel} (h : Placed m) {i : ℕ} (hi : i < m.count)
    (hen : isEnabled m i = true) : ∃ top, follow { m with sel := i } = { m with sel := i, top := top } ∧
      Placed { m with sel := i, top := top } := by
  obtain ⟨top,htop,hwindow⟩ := follow_spec (m := { m with sel := i }) h.bounded h.shown h.rows (.inl hi)
  exact ⟨top,htop,hwindow,h.bounded,h.shown,h.selection,fun _ => ⟨hi,hen⟩⟩

theorem init_placed {count : ℕ} (hcount : count < 2^32) (visible : ℕ) (enabled : Option (ℕ → Bool)) :
    let m := uiMenuModelInit count visible enabled
    Placed m ∧ m.count = count ∧ m.visible = max 1 visible ∧ m.enabled = enabled ∧
      ∀ j < count, isEnabled m j = true → m.sel ≤ j := by
  let m : UiMenuModel := ⟨count,if visible = 0 then 1 else visible,0,0,false,enabled⟩
  have hvisible : m.visible = max 1 visible := by
    show (if visible = 0 then 1 else visible) = _
    split <;> omega
  have hfirst := scan_first m
  let placed : UiMenuModel :=
    { m with hasSel := scan m 0 1 < count, sel := if scan m 0 1 < count then scan m 0 1 else 0 }
  have hsel : placed.sel < count ∨ placed.sel = 0 := by
    show (if scan m 0 1 < count then scan m 0 1 else 0) < count ∨ _ = 0
    by_cases h : scan m 0 1 < count
    · rw [if_pos h]
      exact .inl h
    · exact .inr (if_neg h)
  obtain ⟨top,htop,hwindow⟩ := follow_spec (m := placed) hcount (by rw [hvisible]; omega)
    (fun h => by show 0+m.visible ≤ count; exact (Nat.zero_add _).symm ▸ Nat.le_of_lt h) hsel
  have hinit : uiMenuModelInit count visible enabled = { placed with top := top } := htop
  rw [hinit]
  refine ⟨⟨hwindow,hcount,by rw [hvisible]; omega,?_,fun h => ?_⟩,rfl,hvisible,rfl,fun j hj hen => ?_⟩
  · show decide (scan m 0 1 < count) = true ↔ _
    rw [decide_eq_true_eq]
    rcases hfirst with h | h
    · exact ⟨fun _ => ⟨_,h⟩,fun _ => h.1⟩
    · refine ⟨fun hlt => absurd h.1 (Nat.ne_of_lt hlt),fun hsome => ?_⟩
      obtain ⟨i,hi,hen⟩ := hsome
      exact absurd ((h.2 i hi).symm.trans hen) Bool.false_ne_true
  · have hlt : scan m 0 1 < count := of_decide_eq_true h
    have hsame : placed.sel = scan m 0 1 := if_pos hlt
    rw [hsame]
    rcases hfirst with h | h
    · exact h
    · exact absurd h.1 (Nat.ne_of_lt hlt)
  · have hen : isEnabled m j = true := hen
    have hle : scan m 0 1 ≤ j := scanUp_le hen count 0 (Nat.zero_le j) (by omega)
    show (if scan m 0 1 < count then scan m 0 1 else 0) ≤ j
    rw [if_pos (by omega)]
    exact hle

theorem move_placed {m : UiMenuModel} (h : Placed m) (delta : ℤ) :
    Moved m (uiMenuModelMove m delta).1 ∧ Placed (uiMenuModelMove m delta).1 := by
  unfold uiMenuModelMove
  split
  · exact ⟨.refl m,h⟩
  · rename_i hgo
    rw [Bool.not_eq_true, Bool.or_eq_false_iff, Bool.not_eq_false'] at hgo
    have hpos : 0 < m.count := Nat.lt_of_le_of_lt (Nat.zero_le _) (h.selected hgo.1).1
    split
    · rename_i i hi
      obtain ⟨hlt,hen⟩ := moveSteps_spec hpos _ _ hi
      obtain ⟨top,htop,hplaced⟩ := h.moved hlt hen
      rw [htop]
      exact ⟨⟨i,top,rfl⟩,hplaced⟩
    · exact ⟨.refl m,h⟩

theorem pageTarget_lt {m : UiMenuModel} (hbound : m.count < 2^32) (hsel : m.sel < m.count) (dir : ℤ) :
    pageTarget m dir < m.count := by
  unfold pageTarget
  split
  · split
    · omega
    · have hsum : sizeT (m.sel+m.visible) = m.sel+m.visible := Nat.mod_eq_of_lt (by omega)
      rw [hsum]
      omega
  · split <;> omega

theorem pagePick_spec {m : UiMenuModel} {target : ℕ} (htarget : target < m.count) (dir : ℤ)
    (hsome : pagePick m target dir ≠ m.count) :
    pagePick m target dir < m.count ∧ isEnabled m (pagePick m target dir) = true := by
  unfold pagePick at hsome ⊢
  dsimp only at hsome ⊢
  by_cases hnone : scan m target (if 0 < dir then 1 else -1) = m.count
  · rw [if_pos hnone] at hsome ⊢
    exact (scan_spec htarget _).resolve_right hsome
  · rw [if_neg hnone] at hsome ⊢
    exact (scan_spec htarget _).resolve_right hsome

theorem page_placed {m : UiMenuModel} (h : Placed m) (dir : ℤ) :
    Moved m (uiMenuModelPage m dir).1 ∧ Placed (uiMenuModelPage m dir).1 := by
  unfold uiMenuModelPage
  split
  · exact ⟨.refl m,h⟩
  · rename_i hgo
    rw [Bool.not_eq_true, Bool.or_eq_false_iff, Bool.not_eq_false'] at hgo
    have htarget := pageTarget_lt h.bounded (h.selected hgo.1).1 dir
    dsimp only
    split
    · exact ⟨.refl m,h⟩
    · rename_i hne
      obtain ⟨hlt,hen⟩ := pagePick_spec htarget dir (not_or.mp hne).1
      obtain ⟨top,htop,hplaced⟩ := h.moved hlt hen
      rw [htop]
      exact ⟨⟨_,top,rfl⟩,hplaced⟩

theorem run_placed {m : UiMenuModel} (h : Placed m) (ops : List Op) :
    Moved m (run m ops) ∧ Placed (run m ops) := by
  induction ops generalizing m with
  | nil => exact ⟨.refl m,h⟩
  | cons op ops ih =>
    have hstep : Moved m (apply m op) ∧ Placed (apply m op) := by
      cases op with
      | move delta => exact move_placed h delta
      | page dir => exact page_placed h dir
    obtain ⟨hrest,hplaced⟩ := ih hstep.2
    exact ⟨hstep.1.trans hrest,hplaced⟩

end StarkOne.MenuModel
