import Mathlib.Data.UInt
import StarkOne.Raster

/-!
# Drawing into a surface

A surface is a buffer of rows for a part of the logical screen. All primitives
go through one clipping, and whatever a surface shows, they paint the same on
the screen. The sums of 16-bit arguments stay far inside 32 bits, and are
computed in the integers.
-/

set_option autoImplicit false

namespace StarkOne.Gfx
open StarkOne.Raster

abbrev Pixels := Memory UInt16

structure GfxRect where
  x : Int16
  y : Int16
  w : Int16
  h : Int16
  deriving DecidableEq

/-- The memory of the pixels, if there is any; the buffer starts at 0 in it. -/
structure GfxSurface where
  pixels : Option Pixels
  w : Int16
  h : Int16
  originX : Int16
  originY : Int16
  clip : GfxRect

structure GfxSpan where
  x0 : ℤ
  y0 : ℤ
  x1 : ℤ
  y1 : ℤ

def gfxSurfaceInit (pixels : Option Pixels) (w h originX originY : Int16) : GfxSurface :=
  ⟨pixels,w,h,originX,originY,⟨originX,originY,w,h⟩⟩

def gfxClip (s : GfxSurface) (x y w h : ℤ) : Option GfxSpan :=
  if s.pixels.isNone ∨ w ≤ 0 ∨ h ≤ 0 ∨ s.w.toInt ≤ 0 ∨ s.h.toInt ≤ 0 then none
  else
    let x0 := max x (max s.clip.x.toInt s.originX.toInt)
    let y0 := max y (max s.clip.y.toInt s.originY.toInt)
    let x1 := min (x+w) (min (s.clip.x.toInt+s.clip.w.toInt) (s.originX.toInt+s.w.toInt))
    let y1 := min (y+h) (min (s.clip.y.toInt+s.clip.h.toInt) (s.originY.toInt+s.h.toInt))
    if x1 ≤ x0 ∨ y1 ≤ y0 then none
    else some ⟨x0-s.originX.toInt,y0-s.originY.toInt,x1-s.originX.toInt,y1-s.originY.toInt⟩

def rowAt (s : GfxSurface) (y : ℤ) : ℤ := y*s.w.toInt

def paintSpan (s : GfxSurface) (sp : GfxSpan) (pixel : ℤ → ℤ → Option UInt16) : GfxSurface :=
  { s with pixels := s.pixels.map fun px =>
      forRange (fun row => forRange (fun c px => mark px (rowAt s row+c) (pixel c row))
        sp.x0 (sp.x1-sp.x0).toNat) sp.y0 (sp.y1-sp.y0).toNat px }

def fill32 (s : GfxSurface) (x y w h : ℤ) (colour : UInt16) : GfxSurface :=
  match gfxClip s x y w h with
  | none => s
  | some sp => paintSpan s sp fun _ _ => some colour

def gfxFill (s : GfxSurface) (r : GfxRect) (colour : UInt16) : GfxSurface :=
  fill32 s r.x.toInt r.y.toInt r.w.toInt r.h.toInt colour

def gfxHline (s : GfxSurface) (x y w : Int16) (colour : UInt16) : GfxSurface :=
  fill32 s x.toInt y.toInt w.toInt 1 colour

def gfxVline (s : GfxSurface) (x y h : Int16) (colour : UInt16) : GfxSurface :=
  fill32 s x.toInt y.toInt 1 h.toInt colour

def gfxRect (s : GfxSurface) (r : GfxRect) (colour : UInt16) : GfxSurface :=
  let x := r.x.toInt
  let y := r.y.toInt
  let w := r.w.toInt
  let h := r.h.toInt
  if w ≤ 0 ∨ h ≤ 0 then s
  else
    let s := fill32 s x y w 1 colour
    let s := if 1 < h then fill32 s x (y+h-1) w 1 colour else s
    if 2 < h then
      let s := fill32 s x (y+1) 1 (h-2) colour
      if 1 < w then fill32 s (x+w-1) (y+1) 1 (h-2) colour else s
    else s

/-- Whether the bit for column `sx` of a row is set; the first one is the highest. -/
def bitOn (src : ℕ → UInt8) (sx : ℕ) : Bool := (src (sx/8)).toNat.testBit (7-sx%8)

def gfxBlit1bpp (s : GfxSurface) (x y : Int16) (bits : Option (ℕ → UInt8)) (w h : Int16)
    (fg bg : UInt16) (transparent : Bool) : GfxSurface :=
  match bits with
  | none => s
  | some bits => match gfxClip s x.toInt y.toInt w.toInt h.toInt with
    | none => s
    | some sp =>
      let stride := (w.toInt.toNat+7)/8
      let srcX0 := sp.x0+s.originX.toInt-x.toInt
      let srcY0 := sp.y0+s.originY.toInt-y.toInt
      paintSpan s sp fun bx row =>
        let src := fun i => bits ((srcY0+(row-sp.y0)).toNat*stride+i)
        if bitOn src (srcX0+(bx-sp.x0)).toNat then some fg
        else if !transparent then some bg else none

def GfxRect.window (r : GfxRect) : Window := ⟨r.x.toInt,r.y.toInt,r.w.toInt,r.h.toInt⟩

def GfxSurface.view (s : GfxSurface) : Window :=
  ⟨s.originX.toInt,s.originY.toInt,s.w.toInt,s.h.toInt⟩

/-- What painting comes to on a surface: it is seen through the surface's own window. -/
def draw (s : GfxSurface) (p : Paint UInt16) : GfxSurface :=
  { s with pixels := s.pixels.map (render s.view s.clip.window p) }

theorem draw_atop (s : GfxSurface) (p q : Paint UInt16) : draw (draw s p) q = draw s (atop p q) := by
  obtain ⟨pixels,w,h,ox,oy,clip⟩ := s
  cases pixels with
  | none => rfl
  | some px =>
    show GfxSurface.mk (some _) _ _ _ _ _ = GfxSurface.mk (some _) _ _ _ _ _
    rw [← render_atop]
    rfl

theorem draw_none (s : GfxSurface) : draw s (fun _ _ => none) = s := by
  obtain ⟨pixels,w,h,ox,oy,clip⟩ := s
  cases pixels with
  | none => rfl
  | some px =>
    show GfxSurface.mk (some _) _ _ _ _ _ = _
    rw [render_none]

theorem span_iff (x w cx cw o ow c : ℤ) :
    max x (max cx o)-o ≤ c ∧ c < min (x+w) (min (cx+cw) (o+ow))-o ↔
      (o ≤ o+c ∧ o+c < o+ow) ∧ (cx ≤ o+c ∧ o+c < cx+cw) ∧ x ≤ o+c ∧ o+c < x+w := by
  omega

theorem clip_spec (s : GfxSurface) (px : Pixels) (hs : s.pixels = some px) (r : Window) :
    match gfxClip s r.x r.y r.w r.h with
    | none => ∀ i, ¬((s.view.Has (s.view.col i) (s.view.row i) ∧
        s.clip.window.Has (s.view.col i) (s.view.row i)) ∧ r.Has (s.view.col i) (s.view.row i))
    | some sp => 0 ≤ sp.x0 ∧ sp.x0 < sp.x1 ∧ sp.x1 ≤ s.view.w ∧ sp.y0 < sp.y1 ∧
        ∀ i, sp.y0 ≤ i/s.view.w ∧ i/s.view.w < sp.y1 ∧ sp.x0 ≤ i%s.view.w ∧ i%s.view.w < sp.x1 ↔
          (s.view.Has (s.view.col i) (s.view.row i) ∧
            s.clip.window.Has (s.view.col i) (s.view.row i)) ∧ r.Has (s.view.col i) (s.view.row i) := by
  unfold gfxClip Window.Has Window.col Window.row GfxSurface.view GfxRect.window
  rw [hs]
  split
  · rename_i h
    split at h
    · rename_i hempty
      intro i hi
      simp only [Option.isNone_some, Bool.false_eq_true, false_or] at hempty
      dsimp only at hi
      omega
    · dsimp only at h
      split at h
      · intro i hi
        dsimp only at hi
        omega
      · cases h
  · rename_i sp h
    split at h
    · cases h
    · rename_i hsome
      simp only [Option.isNone_some, Bool.false_eq_true, false_or] at hsome
      dsimp only at h
      split at h
      · cases h
      · cases h
        dsimp only
        refine ⟨by omega,by omega,by omega,by omega,fun i => ?_⟩
        rw [← and_assoc, span_iff, span_iff]
        tauto

/-- Painting a span is painting the rectangle on the screen. -/
theorem paintSpan_draw (s : GfxSurface) (r : Window) (p : Paint UInt16)
    (pixel : GfxSpan → ℤ → ℤ → Option UInt16)
    (hp : ∀ sp c row, pixel sp c row = p (s.originX.toInt+c) (s.originY.toInt+row)) :
    (match gfxClip s r.x r.y r.w r.h with
      | none => s
      | some sp => paintSpan s sp (pixel sp)) = draw s (within r p) := by
  have hspec := clip_spec s
  obtain ⟨pixels,w,h,ox,oy,clip⟩ := s
  cases pixels with
  | none => rfl
  | some px =>
    have hclip := hspec px rfl r
    cases hsp : gfxClip ⟨some px,w,h,ox,oy,clip⟩ r.x r.y r.w r.h with
    | none =>
      rw [hsp] at hclip
      show GfxSurface.mk (some _) _ _ _ _ _ = GfxSurface.mk (some _) _ _ _ _ _
      congr 2
      funext i
      have hi := hclip i
      unfold render within
      split
      · rename_i hshown
        rw [if_neg fun hr => hi ⟨hshown,hr⟩]
        rfl
      · rfl
    | some sp =>
      rw [hsp] at hclip
      obtain ⟨h0,hx,hw,hy,hspan⟩ := hclip
      show GfxSurface.mk (some _) _ _ _ _ _ = GfxSurface.mk (some _) _ _ _ _ _
      congr 2
      funext i
      have hi := hspan i
      have hrows := forRange_rows (pixel sp) (w := w.toInt) (n := (sp.x1-sp.x0).toNat) h0
        (by dsimp only [GfxSurface.view] at hw; omega) (sp.y1-sp.y0).toNat sp.y0 px i
      refine hrows.trans ?_
      have hwidth : sp.x0+((sp.x1-sp.x0).toNat : ℤ) = sp.x1 := by omega
      have hheight : sp.y0+((sp.y1-sp.y0).toNat : ℤ) = sp.y1 := by omega
      rw [hwidth, hheight, hp]
      unfold render within
      by_cases hin : sp.y0 ≤ i/w.toInt ∧ i/w.toInt < sp.y1 ∧ sp.x0 ≤ i%w.toInt ∧ i%w.toInt < sp.x1
      · obtain ⟨hshown,hr⟩ := hi.mp hin
        rw [if_pos hin, if_pos hshown, if_pos hr]
        rfl
      · rw [if_neg hin]
        split
        · rename_i hshown
          rw [if_neg fun hr => hin (hi.mpr ⟨hshown,hr⟩)]
          rfl
        · rfl

def solid (r : Window) (colour : UInt16) : Paint UInt16 := within r fun _ _ => some colour

theorem fill32_draw (s : GfxSurface) (x y w h : ℤ) (colour : UInt16) :
    fill32 s x y w h colour = draw s (solid ⟨x,y,w,h⟩ colour) :=
  paintSpan_draw s ⟨x,y,w,h⟩ (fun _ _ => some colour) (fun _ _ _ => some colour) fun _ _ _ => rfl

def image (x y : Int16) (bits : ℕ → UInt8) (w : Int16) (fg bg : UInt16) (transparent : Bool) :
    Paint UInt16 := fun a b =>
  let src := fun i => bits ((b-y.toInt).toNat*((w.toInt.toNat+7)/8)+i)
  if bitOn src (a-x.toInt).toNat then some fg else if !transparent then some bg else none

theorem blit_draw (s : GfxSurface) (x y : Int16) (bits : ℕ → UInt8) (w h : Int16) (fg bg : UInt16)
    (transparent : Bool) :
    gfxBlit1bpp s x y (some bits) w h fg bg transparent =
      draw s (within ⟨x.toInt,y.toInt,w.toInt,h.toInt⟩ (image x y bits w fg bg transparent)) := by
  apply paintSpan_draw s ⟨x.toInt,y.toInt,w.toInt,h.toInt⟩
  intro sp c row
  have hx : sp.x0+s.originX.toInt-x.toInt+(c-sp.x0) = s.originX.toInt+c-x.toInt := by omega
  have hy : sp.y0+s.originY.toInt-y.toInt+(row-sp.y0) = s.originY.toInt+row-y.toInt := by omega
  unfold image
  rw [hx, hy]

/-- A step of drawing paints the same on the screen through every surface. -/
def Uniform (f : GfxSurface → GfxSurface) : Prop := ∃ p, ∀ s, f s = draw s p

theorem uniform_id : Uniform fun s => s := ⟨_,fun s => (draw_none s).symm⟩

theorem Uniform.then {f g : GfxSurface → GfxSurface} (hf : Uniform f) (hg : Uniform g) :
    Uniform fun s => g (f s) := by
  obtain ⟨p,hp⟩ := hf
  obtain ⟨q,hq⟩ := hg
  refine ⟨atop p q,fun s => ?_⟩
  show g (f s) = _
  rw [hq, hp, draw_atop]

theorem fill32_uniform (x y w h : ℤ) (colour : UInt16) : Uniform fun s => fill32 s x y w h colour :=
  ⟨_,fun s => fill32_draw s x y w h colour⟩

theorem blit_uniform (x y : Int16) (bits : Option (ℕ → UInt8)) (w h : Int16) (fg bg : UInt16)
    (transparent : Bool) : Uniform fun s => gfxBlit1bpp s x y bits w h fg bg transparent := by
  cases bits with
  | none => exact uniform_id
  | some bits => exact ⟨_,fun s => blit_draw s x y bits w h fg bg transparent⟩

theorem rect_uniform (r : GfxRect) (colour : UInt16) : Uniform fun s => gfxRect s r colour := by
  unfold gfxRect
  dsimp only
  by_cases hempty : r.w.toInt ≤ 0 ∨ r.h.toInt ≤ 0
  · simp only [if_pos hempty]
    exact uniform_id
  simp only [if_neg hempty]
  have htop := fill32_uniform r.x.toInt r.y.toInt r.w.toInt 1 colour
  have hends : Uniform fun s =>
      if 1 < r.h.toInt then
        fill32 (fill32 s r.x.toInt r.y.toInt r.w.toInt 1 colour) r.x.toInt
          (r.y.toInt+r.h.toInt-1) r.w.toInt 1 colour
      else fill32 s r.x.toInt r.y.toInt r.w.toInt 1 colour := by
    split
    · exact htop.then (fill32_uniform _ _ _ _ colour)
    · exact htop
  split
  · have hleft := hends.then (fill32_uniform r.x.toInt (r.y.toInt+1) 1 (r.h.toInt-2) colour)
    split
    · exact hleft.then (fill32_uniform _ _ _ _ colour)
    · exact hleft
  · exact hends

end StarkOne.Gfx
