import StarkOne.Gfx
import StarkOne.Merging

/-!
# The damage set

A screen's damage as at most four rectangles. Boxes are half-open and ordered
by inclusion; their union is the bounding box, and their edges are sums of 16-bit
numbers, computed in the integers. A rectangle is stored with 16-bit sides, which
changes nothing as long as all damage fits one such rectangle.
-/

set_option autoImplicit false

namespace StarkOne.UiDamage
open StarkOne.Raster StarkOne.Gfx

structure Box where
  x0 : ℤ
  y0 : ℤ
  x1 : ℤ
  y1 : ℤ
  deriving DecidableEq

def uiDamageMax : ℕ := 4
def int16Max : ℤ := 32767

def toBox (r : GfxRect) : Box := ⟨r.x.toInt,r.y.toInt,r.x.toInt+r.w.toInt,r.y.toInt+r.h.toInt⟩

def toRect (b : Box) : GfxRect :=
  let w := b.x1-b.x0
  let h := b.y1-b.y0
  ⟨Int16.ofInt b.x0,Int16.ofInt b.y0,Int16.ofInt (if w > int16Max then int16Max else w),
    Int16.ofInt (if h > int16Max then int16Max else h)⟩

def boxUnion (a b : Box) : Box :=
  ⟨if a.x0 < b.x0 then a.x0 else b.x0,if a.y0 < b.y0 then a.y0 else b.y0,
    if a.x1 > b.x1 then a.x1 else b.x1,if a.y1 > b.y1 then a.y1 else b.y1⟩

def boxArea (b : Box) : ℤ := (b.x1-b.x0)*(b.y1-b.y0)

/-- Overlap, or a shared edge. -/
def joins (a b : Box) : Bool :=
  let xOverlap := a.x0 < b.x1 ∧ b.x0 < a.x1
  let yOverlap := a.y0 < b.y1 ∧ b.y0 < a.y1
  let xTouch := a.x0 ≤ b.x1 ∧ b.x0 ≤ a.x1
  let yTouch := a.y0 ≤ b.y1 ∧ b.y0 ≤ a.y1
  (xOverlap ∧ yTouch) ∨ (yOverlap ∧ xTouch)

/-- The scan restarts after every merge, so each merge is with the first that joins. -/
def absorb : ℕ → List GfxRect → Box → List GfxRect × Box
  | 0, d, b => (d,b)
  | rounds+1, d, b =>
    match d.find? (fun r => joins (toBox r) b) with
    | none => (d,b)
    | some r => absorb rounds (d.eraseP fun r => joins (toBox r) b) (boxUnion (toBox r) b)

def growth (a b : Box) : ℤ := boxArea (boxUnion a b)-boxArea a-boxArea b

def boxAt (all : List Box) (k : ℕ) : Box := all.getD k ⟨0,0,0,0⟩

/-- One comparison of the search: the least growth so far and its pair. -/
def cheaper (all : List Box) (best : ℤ × ℕ × ℕ) (p : ℕ × ℕ) : ℤ × ℕ × ℕ :=
  let g := growth (boxAt all p.1) (boxAt all p.2)
  if g < best.1 then (g,p) else best

def pairs (n : ℕ) : List (ℕ × ℕ) :=
  (List.range n).flatMap fun i => (List.range' (i+1) (n-(i+1))).map fun j => (i,j)

def cheapest (all : List Box) : ℕ × ℕ :=
  ((pairs all.length).foldl (cheaper all) (2^63-1,0,1)).2

def uiDamageAdd (d : List GfxRect) (a : GfxRect) : List GfxRect :=
  if a.w ≤ 0 ∨ a.h ≤ 0 then d
  else
    let (d,b) := absorb d.length d (toBox a)
    if d.length < uiDamageMax then d++[toRect b]
    else
      let all := d.map toBox++[b]
      let (i,j) := cheapest all
      let rest := ((all.eraseIdx j).eraseIdx i).map toRect
      let (d,b) := absorb rest.length rest (boxUnion (boxAt all i) (boxAt all j))
      d++[toRect b]

instance : PartialOrder Box where
  le a b := b.x0 ≤ a.x0 ∧ b.y0 ≤ a.y0 ∧ a.x1 ≤ b.x1 ∧ a.y1 ≤ b.y1
  le_refl a := ⟨le_refl _,le_refl _,le_refl _,le_refl _⟩
  le_trans := by
    intro a b c h₁ h₂
    exact ⟨h₂.1.trans h₁.1,h₂.2.1.trans h₁.2.1,h₁.2.2.1.trans h₂.2.2.1,h₁.2.2.2.trans h₂.2.2.2⟩
  le_antisymm := by
    rintro ⟨a₀,b₀,a₁,b₁⟩ ⟨c₀,d₀,c₁,d₁⟩ h₁ h₂
    obtain rfl : a₀ = c₀ := le_antisymm h₂.1 h₁.1
    obtain rfl : b₀ = d₀ := le_antisymm h₂.2.1 h₁.2.1
    obtain rfl : a₁ = c₁ := le_antisymm h₁.2.2.1 h₂.2.2.1
    obtain rfl : b₁ = d₁ := le_antisymm h₁.2.2.2 h₂.2.2.2
    rfl

theorem Box.le_def {a b : Box} :
    a ≤ b ↔ b.x0 ≤ a.x0 ∧ b.y0 ≤ a.y0 ∧ a.x1 ≤ b.x1 ∧ a.y1 ≤ b.y1 := Iff.rfl

instance : SemilatticeSup Box where
  sup := boxUnion
  le_sup_left a b := by
    refine ⟨?_,?_,?_,?_⟩ <;> simp only [boxUnion] <;> split <;> omega
  le_sup_right a b := by
    refine ⟨?_,?_,?_,?_⟩ <;> simp only [boxUnion] <;> split <;> omega
  sup_le a b c h₁ h₂ := by
    obtain ⟨h₃,h₄,h₅,h₆⟩ := h₁
    obtain ⟨h₇,h₈,h₉,h₁₀⟩ := h₂
    refine ⟨?_,?_,?_,?_⟩ <;> simp only [boxUnion] <;> split <;> assumption

structure Storable (b : Box) : Prop where
  left : -2^15 ≤ b.x0 ∧ b.x0 < 2^15
  top : -2^15 ≤ b.y0 ∧ b.y0 < 2^15
  wide : b.x0 < b.x1 ∧ b.x1-b.x0 ≤ int16Max
  high : b.y0 < b.y1 ∧ b.y1-b.y0 ≤ int16Max

theorem toBox_toRect {b : Box} (h : Storable b) : toBox (toRect b) = b := by
  obtain ⟨hl,ht,hw,hh⟩ := h
  have hmax : int16Max = 32767 := rfl
  obtain ⟨x0,y0,x1,y1⟩ := b
  dsimp only at *
  unfold toRect toBox
  dsimp only
  rw [if_neg (by omega), if_neg (by omega), Int16.toInt_ofInt_of_le hl.1 hl.2,
    Int16.toInt_ofInt_of_le ht.1 ht.2, Int16.toInt_ofInt_of_le (by omega) (by omega),
    Int16.toInt_ofInt_of_le (by omega) (by omega), show x0+(x1-x0) = x1 by omega,
    show y0+(y1-y0) = y1 by omega]

theorem positive {a : GfxRect} (h : ¬(a.w ≤ 0 ∨ a.h ≤ 0)) : 0 < a.w.toInt ∧ 0 < a.h.toInt := by
  rw [Int16.le_iff_toInt_le, Int16.le_iff_toInt_le, Int16.toInt_zero] at h
  omega

theorem toBox_storable {a : GfxRect} (h : ¬(a.w ≤ 0 ∨ a.h ≤ 0)) : Storable (toBox a) := by
  obtain ⟨hw,hh⟩ := positive h
  have hmax : int16Max = 32767 := rfl
  have h₁ := a.w.toInt_lt
  have h₂ := a.h.toInt_lt
  unfold toBox
  refine ⟨⟨a.x.le_toInt,a.x.toInt_lt⟩,⟨a.y.le_toInt,a.y.toInt_lt⟩,⟨?_,?_⟩,⟨?_,?_⟩⟩ <;>
    dsimp only <;> omega

/-- Room for all damage: a box whose sides fit 16 bits. -/
structure Roomy (hull : Box) : Prop where
  left : -2^15 ≤ hull.x0
  top : -2^15 ≤ hull.y0
  wide : hull.x1-hull.x0 ≤ int16Max
  high : hull.y1-hull.y0 ≤ int16Max

def Held (hull : Box) (l : List Box) : Prop := ∀ t ∈ l, Storable t ∧ t ≤ hull

theorem Held.spans {hull : Box} {l l' : List Box} (hr : Roomy hull) (h : Held hull l)
    (hs : Merging.Spans l l') : Held hull l' := by
  intro t ht
  obtain ⟨s,hsl,hst⟩ := hs.grown t ht
  have hle := hs.bound hull (fun s hs => (h s hs).2) t ht
  obtain ⟨⟨h₁,h₂⟩,⟨h₃,h₄⟩,⟨h₅,h₆⟩,⟨h₇,h₈⟩⟩ := (h s hsl).1
  obtain ⟨r₁,r₂,r₃,r₄⟩ := hr
  obtain ⟨a₁,a₂,a₃,a₄⟩ := hst
  have hle' := hle
  obtain ⟨b₁,b₂,b₃,b₄⟩ := hle'
  exact ⟨⟨⟨by omega,by omega⟩,⟨by omega,by omega⟩,⟨by omega,by omega⟩,⟨by omega,by omega⟩⟩,hle⟩

theorem Held.stored {hull : Box} {l : List Box} (h : Held hull l) :
    (l.map toRect).map toBox = l := by
  rw [List.map_map]
  conv => rhs; rw [← List.map_id l]
  exact List.map_congr_left fun t ht => toBox_toRect (h t ht).1

theorem absorb_boxes (rounds : ℕ) (d : List GfxRect) (b : Box) :
    ((absorb rounds d b).1.map toBox,(absorb rounds d b).2) =
      Merging.absorb joins rounds (d.map toBox) b := by
  induction rounds generalizing d b with
  | zero => rfl
  | succ rounds ih =>
    rw [absorb, Merging.absorb, List.find?_map, List.eraseP_map]
    cases hf : d.find? (fun r => joins (toBox r) b) with
    | none =>
      rw [show d.find? ((joins · b) ∘ toBox) = none from hf]
      rfl
    | some r =>
      rw [show d.find? ((joins · b) ∘ toBox) = some r from hf]
      exact ih _ _

theorem pairs_lt {n : ℕ} {p : ℕ × ℕ} (h : p ∈ pairs n) : p.1 < p.2 ∧ p.2 < n := by
  obtain ⟨i,hi,hp⟩ := List.mem_flatMap.mp h
  obtain ⟨j,hj,rfl⟩ := List.mem_map.mp hp
  have := List.mem_range.mp hi
  have := List.mem_range'_1.mp hj
  dsimp only
  omega

theorem cheapest_lt {all : List Box} (h : 2 ≤ all.length) :
    (cheapest all).1 < (cheapest all).2 ∧ (cheapest all).2 < all.length := by
  have hfold : ∀ (l : List (ℕ × ℕ)) (best : ℤ × ℕ × ℕ),
      (∀ p ∈ l, p.1 < p.2 ∧ p.2 < all.length) →
      (best.2.1 < best.2.2 ∧ best.2.2 < all.length) →
      (l.foldl (cheaper all) best).2.1 < (l.foldl (cheaper all) best).2.2 ∧
        (l.foldl (cheaper all) best).2.2 < all.length := by
    intro l
    induction l with
    | nil => exact fun _ _ hb => hb
    | cons p l ih =>
      intro best hl hb
      refine ih _ (fun q hq => hl q (List.mem_cons_of_mem _ hq)) ?_
      unfold cheaper
      dsimp only
      split
      · exact hl p List.mem_cons_self
      · exact hb
  exact hfold _ _ (fun p hp => pairs_lt hp) ⟨by decide,h⟩

theorem picks : ∀ all : List Box, all.length = uiDamageMax+1 →
    (cheapest all).1 < (cheapest all).2 ∧ (cheapest all).2 < all.length :=
  fun all h => cheapest_lt (by rw [h]; decide)

/-- Adding a rectangle adds its box. -/
theorem uiDamageAdd_boxes {hull : Box} {d : List GfxRect} {a : GfxRect} (hr : Roomy hull)
    (ha : ¬(a.w ≤ 0 ∨ a.h ≤ 0)) (hn : d.length ≤ uiDamageMax)
    (h : Held hull (d.map toBox++[toBox a])) :
    (uiDamageAdd d a).map toBox =
      Merging.add joins uiDamageMax cheapest (d.map toBox) (toBox a) := by
  have hone := absorb_boxes d.length d (toBox a)
  have hspan := Merging.absorb_spans joins d.length (d.map toBox) (toBox a)
  have hlen := (Merging.absorb_sublist joins d.length (d.map toBox) (toBox a)).length_le
  unfold uiDamageAdd Merging.add
  rw [if_neg ha, List.length_map]
  rw [← hone] at hspan hlen ⊢
  dsimp only at hspan hlen ⊢
  generalize absorb d.length d (toBox a) = r at hspan hlen ⊢
  have hheld := h.spans hr hspan
  have hlast := (hheld r.2 (by simp)).1
  simp only [List.length_map] at hlen ⊢
  by_cases hroom : r.1.length < uiDamageMax
  · rw [if_pos hroom, if_pos hroom, List.map_append, List.map_singleton, toBox_toRect hlast]
  rw [if_neg hroom, if_neg hroom]
  obtain ⟨hij,hj⟩ := picks (r.1.map toBox++[r.2])
    (by rw [List.length_append, List.length_map, List.length_singleton]; omega)
  generalize cheapest (r.1.map toBox++[r.2]) = ij at *
  generalize r.1.map toBox++[r.2] = all at *
  have hpair := Merging.spans_pair r.2 hij hj
  have hrest : ((((all.eraseIdx ij.2).eraseIdx ij.1)).map toRect).map toBox =
      (all.eraseIdx ij.2).eraseIdx ij.1 := by
    refine Held.stored fun t ht => hheld.spans hr hpair t (List.mem_append_left _ ht)
  have hat : ∀ k < all.length, boxAt all k = all.getD k r.2 := by
    intro k hk
    rw [boxAt, List.getD_eq_getElem _ _ hk, List.getD_eq_getElem _ _ hk]
  rw [hat _ (hij.trans hj), hat _ hj]
  have htwo := absorb_boxes ((all.eraseIdx ij.2).eraseIdx ij.1).length
    (((all.eraseIdx ij.2).eraseIdx ij.1).map toRect) (all.getD ij.1 r.2 ⊔ all.getD ij.2 r.2)
  have hspan₂ := hpair.trans (Merging.absorb_spans joins
    ((all.eraseIdx ij.2).eraseIdx ij.1).length _ _)
  rw [hrest] at htwo
  rw [← htwo] at hspan₂ ⊢
  dsimp only at hspan₂ ⊢
  have hlast₂ := (hheld.spans hr hspan₂ _ (List.mem_append_right _ (List.mem_singleton_self _))).1
  rw [List.map_append, List.map_singleton]
  exact congrArg (fun t => _++[t]) (toBox_toRect hlast₂)

structure Kept (seen : List Box) (d : List GfxRect) : Prop where
  tidy : Merging.Tidy joins uiDamageMax (d.map toBox)
  spans : Merging.Spans seen (d.map toBox)

def regions (adds : List GfxRect) : List Box :=
  (adds.filter fun a => ¬(a.w ≤ 0 ∨ a.h ≤ 0)).map toBox

theorem add_kept {hull : Box} {seen : List Box} {d : List GfxRect} {a : GfxRect}
    (hr : Roomy hull) (hseen : Held hull seen) (h : Kept seen d)
    (hin : ¬(a.w ≤ 0 ∨ a.h ≤ 0) → toBox a ≤ hull) :
    Held hull (seen++regions [a]) ∧ Kept (seen++regions [a]) (uiDamageAdd d a) := by
  by_cases ha : a.w ≤ 0 ∨ a.h ≤ 0
  · have hnone : regions [a] = [] := by
      rw [regions, List.filter_cons_of_neg (by rw [decide_eq_true_eq]; exact not_not.mpr ha)]
      rfl
    rw [hnone, List.append_nil, uiDamageAdd, if_pos ha]
    exact ⟨hseen,h⟩
  have hone : regions [a] = [toBox a] := by
    rw [regions, List.filter_cons_of_pos (by rw [decide_eq_true_eq]; exact ha)]
    rfl
  have hn : d.length ≤ uiDamageMax := by simpa using h.tidy.count
  have hall : Held hull (seen++[toBox a]) := by
    intro t ht
    rcases List.mem_append.mp ht with ht | ht
    · exact hseen t ht
    · rw [List.mem_singleton.mp ht]
      exact ⟨toBox_storable ha,hin ha⟩
  rw [hone]
  refine ⟨hall,?_⟩
  have hboxes := uiDamageAdd_boxes hr ha hn (hall.spans hr (h.spans.snoc (toBox a)))
  constructor
  · rw [hboxes]
    exact Merging.add_tidy joins (by decide) picks _ _ h.tidy
  · rw [hboxes]
    exact (h.spans.snoc (toBox a)).trans (Merging.add_spans joins picks _ _ h.tidy.count)

theorem adds_kept {hull : Box} (hr : Roomy hull) (adds : List GfxRect) (seen : List Box)
    (d : List GfxRect) (hseen : Held hull seen) (h : Kept seen d)
    (hin : ∀ a ∈ adds, ¬(a.w ≤ 0 ∨ a.h ≤ 0) → toBox a ≤ hull) :
    Held hull (seen++regions adds) ∧ Kept (seen++regions adds) (adds.foldl uiDamageAdd d) := by
  induction adds generalizing seen d with
  | nil =>
    rw [show regions [] = [] from rfl, List.append_nil]
    exact ⟨hseen,h⟩
  | cons a adds ih =>
    obtain ⟨hseen',h'⟩ := add_kept hr hseen h (hin a List.mem_cons_self)
    have hrest := ih _ _ hseen' h' fun b hb => hin b (List.mem_cons_of_mem _ hb)
    have hsplit : regions (a::adds) = regions [a]++regions adds := by
      rw [regions, regions, regions, ← List.map_append, ← List.filter_append]
      rfl
    rw [hsplit, ← List.append_assoc]
    exact hrest

/-- Two rectangles have a pixel in common, or two pixels side by side. -/
def Meets (p q : GfxRect) : Prop :=
  ∃ a b c e, p.window.Has a b ∧ q.window.Has c e ∧ (a-c).natAbs+(b-e).natAbs ≤ 1

theorem meets_joins {p q : GfxRect} (h : Meets p q) : joins (toBox p) (toBox q) = true := by
  obtain ⟨a,b,c,e,hp,hq,hd⟩ := h
  unfold Window.Has GfxRect.window at hp hq
  unfold joins toBox
  dsimp only at hp hq ⊢
  rw [decide_eq_true_eq]
  by_cases hb : b = e
  · exact Or.inr ⟨⟨by omega,by omega⟩,by omega,by omega⟩
  · exact Or.inl ⟨⟨by omega,by omega⟩,by omega,by omega⟩

/-- The set has room for four rectangles, no two of which overlap or lie edge to
edge, and it covers whatever was added, as long as one rectangle could. -/
theorem damage_covers (adds : List GfxRect) (hull : Box) (hw : hull.x1-hull.x0 ≤ int16Max)
    (hh : hull.y1-hull.y0 ≤ int16Max)
    (hin : ∀ a ∈ adds, ¬(a.w ≤ 0 ∨ a.h ≤ 0) → toBox a ≤ hull) :
    let d := adds.foldl uiDamageAdd []
    d.length ≤ uiDamageMax ∧ d.Pairwise (¬Meets · ·) ∧
    ∀ a ∈ adds, ∀ x y, a.window.Has x y → ∃ r ∈ d, r.window.Has x y := by
  intro d
  -- The edges are 16-bit numbers, so the hull may be cut at the least of them.
  let cut : Box := ⟨max hull.x0 (-2^15),max hull.y0 (-2^15),hull.x1,hull.y1⟩
  have hr : Roomy cut := by
    refine ⟨le_max_right _ _,le_max_right _ _,?_,?_⟩
    · have := le_max_left hull.x0 (-2^15)
      show hull.x1-max hull.x0 (-2^15) ≤ _
      omega
    · have := le_max_left hull.y0 (-2^15)
      show hull.y1-max hull.y0 (-2^15) ≤ _
      omega
  have hcut : ∀ a ∈ adds, ¬(a.w ≤ 0 ∨ a.h ≤ 0) → toBox a ≤ cut := by
    intro a ha hne
    obtain ⟨h₁,h₂,h₃,h₄⟩ := hin a ha hne
    exact ⟨max_le h₁ a.x.le_toInt,max_le h₂ a.y.le_toInt,h₃,h₄⟩
  have hempty : Kept [] [] := ⟨⟨Nat.zero_le _,List.Pairwise.nil⟩,Merging.Spans.refl []⟩
  obtain ⟨-,hkept⟩ := adds_kept hr adds [] [] (List.forall_mem_nil _) hempty hcut
  rw [List.nil_append] at hkept
  refine ⟨by simpa using hkept.tidy.count,?_,fun a ha x y hxy => ?_⟩
  · refine (List.pairwise_map.mp hkept.tidy.apart).imp fun hj hm => ?_
    rw [meets_joins hm] at hj
    cases hj
  · have hne : ¬(a.w ≤ 0 ∨ a.h ≤ 0) := by
      rw [Int16.le_iff_toInt_le, Int16.le_iff_toInt_le, Int16.toInt_zero]
      unfold Window.Has GfxRect.window at hxy
      dsimp only at hxy
      omega
    have hmem : toBox a ∈ regions adds :=
      List.mem_map.mpr ⟨a,List.mem_filter.mpr ⟨ha,decide_eq_true hne⟩,rfl⟩
    obtain ⟨t,ht,hle⟩ := hkept.spans.covers _ hmem
    obtain ⟨r,hrd,rfl⟩ := List.mem_map.mp ht
    refine ⟨r,hrd,?_⟩
    obtain ⟨h₁,h₂,h₃,h₄⟩ := hle
    unfold toBox at h₁ h₂ h₃ h₄
    unfold Window.Has GfxRect.window at hxy ⊢
    dsimp only at *
    omega

def squares : List GfxRect :=
  [⟨0,0,10,10⟩,⟨20,0,10,10⟩,⟨40,0,10,10⟩,⟨60,0,10,10⟩,⟨80,0,10,10⟩]

theorem damage_covers_squares : (squares.foldl uiDamageAdd []).length ≤ uiDamageMax ∧
    ∃ r ∈ squares.foldl uiDamageAdd [], r.window.Has 5 5 := by
  obtain ⟨hn,-,hc⟩ := damage_covers squares ⟨0,0,90,10⟩ (by decide) (by decide)
    (by simp only [Box.le_def]; decide)
  exact ⟨hn,hc _ List.mem_cons_self 5 5 (by decide)⟩

end StarkOne.UiDamage
