import StarkOne.GfxText

/-!
# The screen in bands

The area to redraw is cut along a fixed grid of rows, and every piece is drawn
into a small surface of its own. Drawn one after the other, the bands show what
one surface for the whole screen would show.
-/

set_option autoImplicit false

namespace StarkOne.DisplayBands
open StarkOne.Raster StarkOne.Gfx StarkOne.GfxText

/-- The bands from `bandTop` on; no place to write them is no room. -/
def bandLoop (x0 x1 y0 y1 bandH : ℤ) : (room : ℕ) → (bandTop : ℤ) → List GfxRect
  | 0, _ => []
  | room+1, bandTop =>
    if bandTop < y1 then
      let top := max y0 bandTop
      let bottom := min y1 (bandTop+bandH)
      ⟨Int16.ofInt x0,Int16.ofInt top,Int16.ofInt (x1-x0),Int16.ofInt (bottom-top)⟩ ::
        bandLoop x0 x1 y0 y1 bandH room (bandTop+bandH)
    else []

def displayBands (area : GfxRect) (scrW scrH bandH : Int16) (maxOut : ℕ) : List GfxRect :=
  if maxOut = 0 ∨ scrW.toInt ≤ 0 ∨ scrH.toInt ≤ 0 ∨ bandH.toInt ≤ 0 ∨ area.w.toInt ≤ 0 ∨
      area.h.toInt ≤ 0 then []
  else
    let x0 := max area.x.toInt 0
    let y0 := max area.y.toInt 0
    let x1 := min (area.x.toInt+area.w.toInt) scrW.toInt
    let y1 := min (area.y.toInt+area.h.toInt) scrH.toInt
    if x1 ≤ x0 ∨ y1 ≤ y0 then []
    else bandLoop x0 x1 y0 y1 bandH.toInt maxOut (y0/bandH.toInt*bandH.toInt)

def bandsNeeded (area : GfxRect) (scrH bandH : Int16) : ℕ :=
  let y0 := max area.y.toInt 0
  let y1 := min (area.y.toInt+area.h.toInt) scrH.toInt
  ((y1-1)/bandH.toInt-y0/bandH.toInt+1).toNat

def screen (scrW scrH : Int16) : Window := ⟨0,0,scrW.toInt,scrH.toInt⟩

def bandSurface (band : GfxRect) (buf : Pixels) : GfxSurface :=
  gfxSurfaceInit (some buf) band.w band.h band.x band.y

def fullSurface (area : GfxRect) (scrW scrH : Int16) (buf : Pixels) : GfxSurface :=
  { gfxSurfaceInit (some buf) scrW scrH 0 0 with clip := area }

def colourAt (s : GfxSurface) (a b : ℤ) : Option UInt16 := s.pixels.map fun px => px (s.view.index a b)

theorem bandLoop_count {x0 x1 y0 y1 bandH : ℤ} (hx0 : 0 ≤ x0) (hx : x0 < x1) (hx1 : x1 < 2^15)
    (hy0 : 0 ≤ y0) (hy : y0 < y1) (hy1 : y1 < 2^15) (hb : 0 < bandH) (a b : ℤ) (room : ℕ)
    (bandTop : ℤ) (htop : y0 < bandTop+bandH) :
    (bandLoop x0 x1 y0 y1 bandH room bandTop).countP (fun r => r.window.Has a b) =
      if (x0 ≤ a ∧ a < x1) ∧ y0 ≤ b ∧ b < y1 ∧ bandTop ≤ b ∧ b < bandTop+room*bandH then 1 else 0 := by
  induction room generalizing bandTop with
  | zero =>
    rw [if_neg (by push_cast; omega)]
    rfl
  | succ room ih =>
    have hroom : ((room+1 : ℕ) : ℤ)*bandH = bandH+room*bandH := by
      rw [Nat.cast_succ, add_mul, one_mul, add_comm]
    have hpos : 0 ≤ (room : ℤ)*bandH := Int.mul_nonneg (Int.natCast_nonneg room) hb.le
    unfold bandLoop
    by_cases hlast : bandTop < y1
    · rw [if_pos hlast]
      dsimp only
      have hhead : (⟨Int16.ofInt x0,Int16.ofInt (max y0 bandTop),Int16.ofInt (x1-x0),
          Int16.ofInt (min y1 (bandTop+bandH)-max y0 bandTop)⟩ : GfxRect).window.Has a b ↔
          (x0 ≤ a ∧ a < x1) ∧ max y0 bandTop ≤ b ∧ b < min y1 (bandTop+bandH) := by
        unfold Window.Has GfxRect.window
        dsimp only
        rw [Int16.toInt_ofInt_of_le (by omega) (by omega),
          Int16.toInt_ofInt_of_le (by omega) (by omega),
          Int16.toInt_ofInt_of_le (by omega) (by omega),
          Int16.toInt_ofInt_of_le (by omega) (by omega)]
        omega
      rw [List.countP_cons, ih (bandTop+bandH) (by omega), hroom]
      simp only [decide_eq_true_eq, hhead]
      by_cases hin : (x0 ≤ a ∧ a < x1) ∧ y0 ≤ b ∧ b < y1 ∧ bandTop ≤ b ∧
          b < bandTop+(bandH+room*bandH)
      · rw [if_pos hin]
        by_cases hhere : b < bandTop+bandH
        · rw [if_neg (by omega), if_pos (by omega)]
        · rw [if_pos (by omega), if_neg (by omega)]
      · rw [if_neg hin, if_neg (by omega), if_neg (by omega)]
    · rw [if_neg hlast, if_neg (by omega)]
      rfl

/-- All bands of an area, and each point of the area on the screen in one of them. -/
theorem displayBands_count (area : GfxRect) (scrW scrH bandH : Int16) (maxOut : ℕ)
    (hb : 1 ≤ bandH.toInt) (hroom : bandsNeeded area scrH bandH ≤ maxOut) (a b : ℤ) :
    (displayBands area scrW scrH bandH maxOut).countP (fun r => r.window.Has a b) =
      if area.window.Has a b ∧ (screen scrW scrH).Has a b then 1 else 0 := by
  have hw := scrW.toInt_lt
  have hh := scrH.toInt_lt
  unfold displayBands
  unfold bandsNeeded at hroom
  dsimp only at hroom ⊢
  generalize hy0 : max area.y.toInt 0 = y0 at *
  generalize hy1 : min (area.y.toInt+area.h.toInt) scrH.toInt = y1 at *
  generalize hx0 : max area.x.toInt 0 = x0 at *
  generalize hx1 : min (area.x.toInt+area.w.toInt) scrW.toInt = x1 at *
  have hboth : area.window.Has a b ∧ (screen scrW scrH).Has a b ↔
      (x0 ≤ a ∧ a < x1) ∧ y0 ≤ b ∧ b < y1 := by
    unfold Window.Has GfxRect.window screen
    dsimp only
    omega
  rw [if_congr hboth rfl rfl]
  have hfirst := Int.ediv_mul_add_emod y0 bandH.toInt
  have hfirst0 := Int.emod_nonneg y0 (by omega : bandH.toInt ≠ 0)
  have hfirst1 := Int.emod_lt_of_pos y0 (by omega : 0 < bandH.toInt)
  have hlast := Int.ediv_mul_add_emod (y1-1) bandH.toInt
  have hlast1 := Int.emod_lt_of_pos (y1-1) (by omega : 0 < bandH.toInt)
  have hreach : (y1-1)/bandH.toInt*bandH.toInt+bandH.toInt ≤
      y0/bandH.toInt*bandH.toInt+maxOut*bandH.toInt := by
    have hneed : (y1-1)/bandH.toInt+1 ≤ y0/bandH.toInt+maxOut := by omega
    have := mul_le_mul_of_nonneg_right hneed (by omega : 0 ≤ bandH.toInt)
    rw [add_mul, add_mul, one_mul] at this
    exact this
  by_cases hargs : maxOut = 0 ∨ scrW.toInt ≤ 0 ∨ scrH.toInt ≤ 0 ∨ bandH.toInt ≤ 0 ∨
      area.w.toInt ≤ 0 ∨ area.h.toInt ≤ 0
  · rw [if_pos hargs]
    have hempty : y1 ≤ y0 ∨ x1 ≤ x0 := by
      rcases hargs with rfl | h
      · have hzero : ((0 : ℕ) : ℤ)*bandH.toInt = 0 := Int.zero_mul _
        rw [hzero] at hreach
        omega
      · omega
    rw [if_neg (by omega)]
    rfl
  rw [if_neg hargs]
  by_cases hempty : x1 ≤ x0 ∨ y1 ≤ y0
  · rw [if_pos hempty, if_neg (by omega)]
    rfl
  rw [if_neg hempty, bandLoop_count (by omega) (by omega) (by omega) (by omega) (by omega) (by omega)
    (by omega) a b maxOut _ (by omega)]
  apply if_congr _ rfl rfl
  omega

theorem colourAt_draw {s : GfxSurface} {buf : Pixels} (hs : s.pixels = some buf) {a b : ℤ}
    (hv : s.view.Has a b) (hc : s.clip.window.Has a b) (p : Paint UInt16) :
    colourAt (draw s p) a b = some ((p a b).getD (buf (s.view.index a b))) := by
  unfold colourAt draw
  rw [hs]
  exact congrArg some (render_shown hv hc p buf)

/-- Each point to redraw is in one band, and gets there what it gets on the whole screen: the
last colour the program paints it with, or none. -/
structure Matches (area : GfxRect) (scrW scrH : Int16) (bands : List GfxRect)
    (program : List GfxOp) (paint : Paint UInt16) : Prop where
  once : ∀ a b, area.window.Has a b → (screen scrW scrH).Has a b →
    bands.countP (fun r => r.window.Has a b) = 1
  full : ∀ buf a b, area.window.Has a b → (screen scrW scrH).Has a b →
    colourAt (runProgram program (fullSurface area scrW scrH buf)) a b =
      some ((paint a b).getD (buf ((screen scrW scrH).index a b)))
  banded : ∀ band ∈ bands, ∀ buf a b, band.window.Has a b →
    colourAt (runProgram program (bandSurface band buf)) a b =
      some ((paint a b).getD (buf (band.window.index a b)))
  inside : ∀ band ∈ bands, ∀ buf, ∃ px, (runProgram program (bandSurface band buf)).pixels = some px ∧
    ∀ i, i < 0 ∨ band.w.toInt*band.h.toInt ≤ i → px i = buf i

theorem bands_match_screen (area : GfxRect) (scrW scrH bandH : Int16) (maxOut : ℕ)
    (hb : 1 ≤ bandH.toInt) (hroom : bandsNeeded area scrH bandH ≤ maxOut) (program : List GfxOp) :
    ∃ paint, Matches area scrW scrH (displayBands area scrW scrH bandH maxOut) program paint := by
  obtain ⟨p,hp⟩ := program_uniform program
  refine ⟨p,?_,?_,?_,?_⟩
  · intro a b harea hscreen
    rw [displayBands_count area scrW scrH bandH maxOut hb hroom, if_pos ⟨harea,hscreen⟩]
  · intro buf a b harea hscreen
    rw [hp]
    exact colourAt_draw (s := fullSurface area scrW scrH buf) rfl hscreen harea p
  · intro band _ buf a b hband
    rw [hp]
    exact colourAt_draw (s := bandSurface band buf) rfl hband hband p
  · intro band _ buf
    rw [hp]
    exact ⟨_,rfl,fun i hi => render_outside hi _ p buf⟩

/-- A screen of 240 rows in bands of 40, with an outline across two of them. -/
theorem bands_match_screen_outline : ∃ paint, Matches ⟨0,0,320,240⟩ 320 240
    (displayBands ⟨0,0,320,240⟩ 320 240 40 6) [.fill ⟨0,0,320,240⟩ 0x1234,.rect ⟨30,35,20,10⟩ 0xFFFF]
    paint :=
  bands_match_screen ⟨0,0,320,240⟩ 320 240 40 6 (by decide) (by decide) _

end StarkOne.DisplayBands
