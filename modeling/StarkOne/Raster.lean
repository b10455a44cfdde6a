import Mathlib.Data.Int.Basic
import Mathlib.Tactic.Linarith

/-!
# Painting through a window

A plane is painted by saying at each point which colour it gets, if any. A
window shows a part of the plane in a memory, row by row, and whatever is
painted through it changes only what it shows, and only where it is clear.
-/

set_option autoImplicit false

namespace StarkOne.Raster

abbrev Memory (β : Type) := ℤ → β

abbrev Paint (β : Type) := ℤ → ℤ → Option β

structure Window where
  x : ℤ
  y : ℤ
  w : ℤ
  h : ℤ
  deriving DecidableEq

variable {α β : Type}

def Window.Has (r : Window) (a b : ℤ) : Prop := r.x ≤ a ∧ a < r.x+r.w ∧ r.y ≤ b ∧ b < r.y+r.h

instance (r : Window) (a b : ℤ) : Decidable (r.Has a b) :=
  inferInstanceAs (Decidable (r.x ≤ a ∧ a < r.x+r.w ∧ r.y ≤ b ∧ b < r.y+r.h))

def Window.index (r : Window) (a b : ℤ) : ℤ := (b-r.y)*r.w+(a-r.x)

def Window.col (r : Window) (i : ℤ) : ℤ := r.x+i%r.w

def Window.row (r : Window) (i : ℤ) : ℤ := r.y+i/r.w

def mark (m : Memory β) (i : ℤ) : Option β → Memory β
  | some b => fun j => if j = i then b else m j
  | none => m

def forRange (step : ℤ → α → α) : ℤ → ℕ → α → α
  | _, 0, a => a
  | lo, n+1, a => forRange step (lo+1) n (step lo a)

/-- The second painted over the first. -/
def atop (p q : Paint β) : Paint β := fun a b => (q a b).or (p a b)

def within (r : Window) (p : Paint β) : Paint β := fun a b => if r.Has a b then p a b else none

/-- The memory after painting, with `clear` the part that may be painted. -/
def render (view clear : Window) (p : Paint β) (m : Memory β) : Memory β := fun i =>
  if view.Has (view.col i) (view.row i) ∧ clear.Has (view.col i) (view.row i) then
    (p (view.col i) (view.row i)).getD (m i)
  else m i

theorem mark_apply (m : Memory β) (i j : ℤ) (b : Option β) :
    mark m i b j = if j = i then b.getD (m j) else m j := by
  cases b with
  | some b => rfl
  | none => exact (ite_self _).symm

theorem split_index {w c : ℤ} (hc : 0 ≤ c) (hw : c < w) (r i : ℤ) :
    i = r*w+c ↔ i/w = r ∧ i%w = c := by
  have hpos : 0 < w := hc.trans_lt hw
  constructor
  · rintro rfl
    rw [Int.add_comm, Int.add_mul_ediv_right _ _ hpos.ne', Int.add_mul_emod_self_right,
      Int.ediv_eq_zero_of_lt hc hw, Int.emod_eq_of_lt hc hw]
    exact ⟨Int.zero_add r,rfl⟩
  · rintro ⟨rfl,rfl⟩
    exact (Int.ediv_mul_add_emod i w).symm

theorem forRange_row (p : Paint β) {w : ℤ} (row : ℤ) (n : ℕ) {lo : ℤ} (hlo : 0 ≤ lo)
    (hn : lo+n ≤ w) (m : Memory β) (i : ℤ) :
    forRange (fun c m => mark m (row*w+c) (p c row)) lo n m i =
      if i/w = row ∧ lo ≤ i%w ∧ i%w < lo+n then (p (i%w) row).getD (m i) else m i := by
  induction n generalizing lo m with
  | zero =>
    rw [if_neg (by omega)]
    rfl
  | succ n ih =>
    push_cast at hn
    rw [forRange, ih (by omega) (by omega), mark_apply]
    have hi := split_index hlo (by omega : lo < w) row i
    by_cases hat : i = row*w+lo
    · obtain ⟨hrow,hcol⟩ := hi.mp hat
      rw [if_neg (by omega), if_pos hat, if_pos (by push_cast; omega), hcol]
    · rw [if_neg hat]
      have hne : ¬(i/w = row ∧ i%w = lo) := fun h => hat (hi.mpr h)
      apply if_congr _ rfl rfl
      push_cast
      omega

theorem forRange_rows (p : Paint β) {w : ℤ} {lo : ℤ} {n : ℕ} (hlo : 0 ≤ lo) (hn : lo+n ≤ w)
    (k : ℕ) (top : ℤ) (m : Memory β) (i : ℤ) :
    forRange (fun row => forRange (fun c m => mark m (row*w+c) (p c row)) lo n) top k m i =
      if top ≤ i/w ∧ i/w < top+k ∧ lo ≤ i%w ∧ i%w < lo+n then (p (i%w) (i/w)).getD (m i)
      else m i := by
  induction k generalizing top m with
  | zero =>
    rw [if_neg (by omega)]
    rfl
  | succ k ih =>
    rw [forRange, ih, forRange_row p top n hlo hn]
    push_cast
    by_cases hat : i/w = top
    · rw [if_neg (by omega), hat]
      apply if_congr _ rfl rfl
      omega
    · rw [if_neg (fun h => hat h.1 : ¬(i/w = top ∧ lo ≤ i%w ∧ i%w < lo+n))]
      apply if_congr _ rfl rfl
      omega

theorem render_atop (view clear : Window) (p q : Paint β) (m : Memory β) :
    render view clear q (render view clear p m) = render view clear (atop p q) m := by
  ext i
  unfold render atop
  by_cases h : view.Has (view.col i) (view.row i) ∧ clear.Has (view.col i) (view.row i)
  · rw [if_pos h, if_pos h, if_pos h]
    cases q (view.col i) (view.row i) with
    | some b => rfl
    | none => rfl
  · rw [if_neg h, if_neg h, if_neg h]

theorem render_none (view clear : Window) (m : Memory β) :
    render view clear (fun _ _ => none) m = m := by
  ext i
  exact ite_self _

/-- To clear a smaller part is to paint only what lies in it. -/
theorem render_within {view clear clear' r : Window}
    (h : ∀ a b, clear'.Has a b ↔ clear.Has a b ∧ r.Has a b) (p : Paint β) (m : Memory β) :
    render view clear' p m = render view clear (within r p) m := by
  ext i
  unfold render within
  have h' := h (view.col i) (view.row i)
  by_cases hr : r.Has (view.col i) (view.row i)
  · rw [if_pos hr]
    apply if_congr _ rfl rfl
    tauto
  · rw [if_neg hr, if_neg (by tauto)]
    exact (ite_self _).symm

theorem has_index {r : Window} {a b : ℤ} (h : r.Has a b) :
    r.col (r.index a b) = a ∧ r.row (r.index a b) = b := by
  obtain ⟨h1,h2,-,-⟩ := h
  obtain ⟨hrow,hcol⟩ := (split_index (sub_nonneg.mpr h1) (by omega : a-r.x < r.w) (b-r.y) _).mp rfl
  unfold Window.col Window.row Window.index
  rw [hrow, hcol]
  omega

theorem render_shown {view clear : Window} {a b : ℤ} (hv : view.Has a b) (hc : clear.Has a b)
    (p : Paint β) (m : Memory β) :
    render view clear p m (view.index a b) = (p a b).getD (m (view.index a b)) := by
  obtain ⟨hcol,hrow⟩ := has_index hv
  unfold render
  rw [hcol, hrow]
  exact if_pos ⟨hv,hc⟩

/-- Nothing is written before or after the rows of the window. -/
theorem render_outside {view : Window} {i : ℤ} (h : i < 0 ∨ view.w*view.h ≤ i) (clear : Window)
    (p : Paint β) (m : Memory β) : render view clear p m i = m i := by
  apply if_neg
  rintro ⟨⟨hx,hxw,hy,hyh⟩,-⟩
  unfold Window.col Window.row at *
  have hw : 0 < view.w := by omega
  have hdiv := Int.ediv_mul_add_emod i view.w
  have hmod := Int.emod_lt_of_pos i hw
  have hlow : 0 ≤ i/view.w := by omega
  have hhigh : i/view.w+1 ≤ view.h := by omega
  have hprod := mul_le_mul_of_nonneg_left hhigh hw.le
  have hnonneg := mul_nonneg hw.le hlow
  have hmod0 := Int.emod_nonneg i hw.ne'
  rcases h with h | h
  · nlinarith
  · nlinarith

end StarkOne.Raster
