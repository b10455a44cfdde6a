import StarkOne.DisplayBands
import StarkOne.Machine
import StarkOne.Rotation
import StarkOne.StarkErr

/-!
# Rendering with two buffers

A band is drawn into one buffer while the bands before it are still on the wire.
The display's controller sends a pixel at a time, in any order with the steps of
the renderer, and the panel reads each with its bytes swapped. A call that returns
has the area painted as one drawing step would paint it, and left no transfer behind.
-/

set_option autoImplicit false

namespace StarkOne.DisplayRender
open StarkOne.Raster StarkOne.Gfx StarkOne.GfxText StarkOne.DisplayBands StarkOne.Rotation
open StarkOne.Machine

abbrev Panel := ℤ → ℤ → UInt16

/-- What a render callback does to the surface, step by step. -/
abbrev RenderFn := List (GfxSurface → GfxSurface)

def runFn (fn : RenderFn) (s : GfxSurface) : GfxSurface := fn.foldl (fun s f => f s) s

def displayW : Int16 := 320
def displayH : Int16 := 240
def displayNumBufs : ℕ := 2

def displayNumBands (bandH : Int16) : ℕ := ((displayH.toInt+bandH.toInt-1)/bandH.toInt).toNat

def bswap16 (v : UInt16) : UInt16 := v <<< 8 ||| v >>> 8

def toPanelOrder (n : ℕ) (px : Pixels) : Pixels :=
  forRange (fun i px => mark px i (some (bswap16 (px i)))) 0 n px

/-- A band is sent row by row, two bytes for each pixel, the first one the higher. -/
def panel : Device Panel Pixels GfxRect where
  size band := (band.w.toInt*band.h.toInt).toNat
  piece band buf k seen := fun a b =>
    if a = band.window.col k ∧ b = band.window.row k then bswap16 (buf k) else seen a b

/-- Where a call is: at the head of its loop, in the callback with what is left of it, before
the transfer, or at the loop that gets the buffers back. -/
inductive Place where
  | head
  | drawing (s : GfxSurface) (fn : RenderFn)
  | drawn
  | draining

/-- A call of `stark_display_render` in progress; `bands` are those from `i` on. -/
structure Call where
  line : Line Panel Pixels GfxRect
  fn : RenderFn
  bands : List GfxRect
  i : ℕ
  inFlight : ℕ
  err : StarkErr
  place : Place

def Returned (c : Call) : Prop := match c.place with
  | .draining => c.inFlight = 0
  | _ => False

instance (c : Call) : Decidable (Returned c) := by
  unfold Returned
  split <;> infer_instance

/-- The controller sends a pixel or ends a transfer; the renderer waits for one to end, goes on
from the head of its loop, draws, and hands the band over, which may fail. -/
inductive Act where
  | send
  | complete
  | wait (done : Bool)
  | go
  | draw
  | submit (err : StarkErr)
  deriving DecidableEq

def Waits (c : Call) : Prop := match c.place with
  | .head => c.bands ≠ [] ∧ c.inFlight = displayNumBufs
  | .draining => 0 < c.inFlight
  | _ => False

instance (c : Call) : Decidable (Waits c) := by
  unfold Waits
  split <;> infer_instance

def timedOut (c : Call) : Call := match c.place with
  | .draining => { c with
      inFlight := c.inFlight-1, err := if c.err = .ok then .timeout else c.err }
  | _ => { c with err := .timeout, place := .draining }

def go (c : Call) : Option Call := match c.place, c.bands with
  | .head, [] => some { c with place := .draining }
  | .head, band::_ =>
    if c.inFlight = displayNumBufs then none
    else some { c with
      place := .drawing (bandSurface band (c.line.slots (c.i % displayNumBufs))) c.fn }
  | _, _ => none

/-- One step of the callback; after the last one the pixels are put into the panel's order. -/
def drawStep (c : Call) : Option Call := match c.place, c.bands with
  | .drawing s (f::fn), _ => some { c with
      line := fill (c.i % displayNumBufs)
        ((f s).pixels.getD (c.line.slots (c.i % displayNumBufs))) c.line
      place := .drawing (f s) fn }
  | .drawing _ [], band::_ => some { c with
      line := fill (c.i % displayNumBufs) (toPanelOrder (band.w.toInt*band.h.toInt).toNat
        (c.line.slots (c.i % displayNumBufs))) c.line
      place := .drawn }
  | _, _ => none

def handOver (err : StarkErr) (c : Call) : Option Call := match c.place, c.bands with
  | .drawn, band::bands =>
    if err = .ok then
      some { c with
        line := submit band (c.i % displayNumBufs) c.line
        bands := bands, i := c.i+1, inFlight := c.inFlight+1, place := .head }
    else some { c with err := err, place := .draining }
  | _, _ => none

def step (c : Call) : Act → Option Call
  | .send => (move panel c.line).map fun line => { c with line := line }
  | .complete => (complete panel c.line).map fun line => { c with line := line }
  | .wait done =>
    if Waits c then
      if done then (take c.line).map fun line => { c with line := line, inFlight := c.inFlight-1 }
      else if c.line.tokens = 0 then some (timedOut c)
      else none
    else none
  | .go => go c
  | .draw => drawStep c
  | .submit err => handOver err c

def starkDisplayRender (ready : Bool) (bandH : Int16) (area : GfxRect) (fn : Option RenderFn)
    (line : Line Panel Pixels GfxRect) : Call :=
  match fn with
  | none => ⟨line,[],[],0,0,if ready then .invalidArg else .state,.draining⟩
  | some fn =>
    if ready then
      ⟨line,fn,displayBands area displayW displayH bandH (displayNumBands bandH),0,0,.ok,.head⟩
    else ⟨line,fn,[],0,0,.state,.draining⟩

/-- No transfer takes longer than the renderer waits for it. -/
def Timely (_ : Call) (a : Act) : Prop := a ≠ .wait false

instance (c : Call) (a : Act) : Decidable (Timely c a) := inferInstanceAs (Decidable (a ≠ _))

def pixelAt (fn : RenderFn) (a b : ℤ) (under : UInt16) : UInt16 :=
  (colourAt (runFn fn (gfxSurfaceInit (some fun _ => under) 1 1 (Int16.ofInt a) (Int16.ofInt b)))
    a b).getD under

/-- The colour the callback gives a point, unless it leaves it alone. -/
def look (fn : RenderFn) : Paint UInt16 := fun a b =>
  if pixelAt fn a b 0 = pixelAt fn a b 1 then some (pixelAt fn a b 0) else none

/-- The points of a region show what the callback gives them, the others what they did. -/
def Painted (on : ℤ → ℤ → Prop) (fn : RenderFn) (before after : Panel) : Prop :=
  ∀ a b, (on a b → ∀ c, look fn a b = some c → after a b = c) ∧ (¬on a b → after a b = before a b)

theorem bswap16_bits (v : UInt16) : (bswap16 v).toBitVec = v.toBitVec <<< 8 ||| v.toBitVec >>> 8 := by
  rfl
theorem bswap16_bswap16 (v : UInt16) : bswap16 (bswap16 v) = v := by
  apply UInt16.eq_of_toBitVec_eq
  rw [bswap16_bits, bswap16_bits]
  ext i hi
  simp only [BitVec.getElem_or, BitVec.getElem_shiftLeft, BitVec.getElem_ushiftRight,
    BitVec.getLsbD_or, BitVec.getLsbD_shiftLeft, BitVec.getLsbD_ushiftRight]
  rw [v.toBitVec.getLsbD_of_ge (8+(8+i)) (by omega), ← BitVec.getLsbD_eq_getElem]
  by_cases h : i < 8
  · simp only [h, decide_true, Bool.not_true, Bool.false_and, Bool.false_or]
    simp [show 8+i < 16 by omega, BitVec.getLsbD_eq_getElem hi]
  · have hi' : i-8 < 8 := by omega
    simp [h, hi', show ¬8+i < 16 by omega, show 8+(i-8) = i by omega, BitVec.getLsbD_eq_getElem hi]

theorem swapRange_apply (n : ℕ) (lo : ℤ) (px : Pixels) (i : ℤ) :
    forRange (fun i px => mark px i (some (bswap16 (px i)))) lo n px i =
      if lo ≤ i ∧ i < lo+n then bswap16 (px i) else px i := by
  induction n generalizing lo px with
  | zero =>
    rw [if_neg (by omega)]
    rfl
  | succ n ih =>
    rw [forRange, ih, mark_apply]
    push_cast
    by_cases hi : i = lo
    · subst hi
      rw [if_neg (by omega), if_pos rfl, if_pos (by omega)]
      rfl
    · rw [if_neg hi]
      apply if_congr _ rfl rfl
      omega

theorem toPanelOrder_apply {n : ℕ} {i : ℤ} (hi : 0 ≤ i) (hn : i < n) (px : Pixels) :
    toPanelOrder n px i = bswap16 (px i) := by
  unfold toPanelOrder
  rw [swapRange_apply, if_pos ⟨hi,by omega⟩]

theorem runFn_uniform {fn : RenderFn} (h : ∀ f ∈ fn, Uniform f) : Uniform (runFn fn) := by
  induction fn with
  | nil => exact uniform_id
  | cons f fn ih => exact (h f List.mem_cons_self).then (ih fun g hg => h g (List.mem_cons_of_mem _ hg))

theorem runFn_append (fn fn' : RenderFn) (s : GfxSurface) :
    runFn (fn++fn') s = runFn fn' (runFn fn s) := List.foldl_append

theorem look_eq {fn : RenderFn} {p : Paint UInt16} (hp : ∀ s, runFn fn s = draw s p) {a b : ℤ}
    (ha : -2^15 ≤ a ∧ a < 2^15) (hb : -2^15 ≤ b ∧ b < 2^15) : look fn a b = p a b := by
  have hat : ∀ under, pixelAt fn a b under = (p a b).getD under := by
    intro under
    unfold pixelAt
    have hin : (gfxSurfaceInit (some fun _ => under) 1 1 (Int16.ofInt a) (Int16.ofInt b)).view.Has
        a b := by
      unfold gfxSurfaceInit GfxSurface.view Window.Has
      dsimp only
      rw [Int16.toInt_ofInt_of_le ha.1 ha.2, Int16.toInt_ofInt_of_le hb.1 hb.2, Int16.toInt_one]
      omega
    rw [hp, colourAt_draw rfl hin hin]
    rfl
  unfold look
  rw [hat, hat]
  cases p a b with
  | some c => exact if_pos rfl
  | none => exact if_neg (by decide)

def Addressable (a b : ℤ) : Prop := (-2^15 ≤ a ∧ a < 2^15) ∧ -2^15 ≤ b ∧ b < 2^15

theorem addressable_screen {a b : ℤ} (h : (screen displayW displayH).Has a b) : Addressable a b := by
  have hw : displayW.toInt = 320 := by decide
  have hh : displayH.toInt = 240 := by decide
  obtain ⟨h1,h2,h3,h4⟩ := h
  dsimp only [screen] at h1 h2 h3 h4
  exact ⟨⟨by omega,by omega⟩,by omega,by omega⟩

theorem look_append {fn fn' : RenderFn} (h : ∀ f ∈ fn, Uniform f) (h' : ∀ f ∈ fn', Uniform f)
    {a b : ℤ} (hab : Addressable a b) : look (fn++fn') a b = (look fn' a b).or (look fn a b) := by
  obtain ⟨p,hp⟩ := runFn_uniform h
  obtain ⟨q,hq⟩ := runFn_uniform h'
  have hboth : ∀ s, runFn (fn++fn') s = draw s (atop p q) := by
    intro s
    rw [runFn_append, hp, hq, draw_atop]
  rw [look_eq hboth hab.1 hab.2, look_eq hp hab.1 hab.2, look_eq hq hab.1 hab.2]
  rfl

theorem look_nil {a b : ℤ} (hab : Addressable a b) : look [] a b = none := by
  have hnone : ∀ s, runFn [] s = draw s fun _ _ => none := fun s => (draw_none s).symm
  exact look_eq hnone hab.1 hab.2

theorem look_draw {f : GfxSurface → GfxSurface} {p : Paint UInt16} (h : ∀ s, f s = draw s p)
    {a b : ℤ} (hab : Addressable a b) : look [f] a b = p a b := by
  have hf : ∀ s, runFn [f] s = draw s p := h
  exact look_eq hf hab.1 hab.2

theorem sent_iff {r : Window} (hw : 0 < r.w) {k : ℤ} (h0 : 0 ≤ k)
    (hk : k < r.w*r.h) (a b : ℤ) : a = r.col k ∧ b = r.row k ↔ r.Has a b ∧ r.index a b = k := by
  constructor
  · rintro ⟨rfl,rfl⟩
    have hmod0 := Int.emod_nonneg k hw.ne'
    have hmod := Int.emod_lt_of_pos k hw
    have hdiv0 := Int.ediv_nonneg h0 hw.le
    have hdiv : k/r.w < r.h := Int.ediv_lt_of_lt_mul hw (by rwa [mul_comm])
    unfold Window.Has Window.index Window.col Window.row
    refine ⟨⟨by omega,by omega,by omega,by omega⟩,?_⟩
    have := Int.ediv_mul_add_emod k r.w
    rw [add_sub_cancel_left, add_sub_cancel_left]
    exact this
  · rintro ⟨hin,rfl⟩
    obtain ⟨hcol,hrow⟩ := has_index hin
    exact ⟨hcol.symm,hrow.symm⟩

theorem index_lt {r : Window} {a b : ℤ} (h : r.Has a b) :
    0 ≤ r.index a b ∧ r.index a b < r.w*r.h := by
  obtain ⟨h1,h2,h3,h4⟩ := h
  unfold Window.index
  have hlow := mul_nonneg (sub_nonneg.mpr h3) (by omega : 0 ≤ r.w)
  have hhigh := mul_le_mul_of_nonneg_right (by omega : b-r.y+1 ≤ r.h) (by omega : 0 ≤ r.w)
  rw [add_mul, one_mul, mul_comm r.h] at hhigh
  omega

theorem pieces_panel {band : GfxRect} (hband : 0 < band.w.toInt) (buf : Pixels) (n k : ℕ)
    (hk : ((k+n : ℕ) : ℤ) ≤ band.w.toInt*band.h.toInt) (seen : Panel) (a b : ℤ) :
    pieces panel band buf k n seen a b =
      if band.window.Has a b ∧ k ≤ band.window.index a b ∧ band.window.index a b < k+n then
        bswap16 (buf (band.window.index a b))
      else seen a b := by
  induction n generalizing k seen with
  | zero =>
    rw [if_neg (by push_cast; omega)]
    rfl
  | succ n ih =>
    rw [pieces, ih (k+1) (by omega)]
    have hsent := sent_iff (r := band.window) hband (Int.natCast_nonneg k)
      (by dsimp only [GfxRect.window]; omega) a b
    push_cast
    by_cases hat : a = band.window.col k ∧ b = band.window.row k
    · obtain ⟨hin,hidx⟩ := hsent.mp hat
      rw [if_neg (by omega), if_pos ⟨hin,by omega,by omega⟩, hidx]
      exact if_pos hat
    · have hne : ¬(band.window.Has a b ∧ band.window.index a b = k) := fun h => hat (hsent.mpr h)
      have hseen : panel.piece band buf k seen a b = seen a b := if_neg hat
      rw [hseen]
      apply if_congr _ rfl rfl
      constructor
      · rintro ⟨hin,h1,h2⟩
        exact ⟨hin,by omega,by omega⟩
      · rintro ⟨hin,h1,h2⟩
        have : band.window.index a b ≠ k := fun h => hne ⟨hin,h⟩
        exact ⟨hin,by omega,by omega⟩

theorem bandLoop_width {x0 x1 y0 y1 bandH : ℤ} (hx : x0 < x1) (h0 : 0 ≤ x0) (h1 : x1 < 2^15)
    (room : ℕ) (top : ℤ) : ∀ band ∈ bandLoop x0 x1 y0 y1 bandH room top, 0 < band.w.toInt := by
  induction room generalizing top with
  | zero => exact List.forall_mem_nil _
  | succ room ih =>
    unfold bandLoop
    split
    · intro band hband
      rcases List.mem_cons.mp hband with rfl | hband
      · dsimp only
        rw [Int16.toInt_ofInt_of_le (by omega) (by omega)]
        omega
      · exact ih _ band hband
    · exact List.forall_mem_nil _

theorem displayBands_width (area : GfxRect) (scrW scrH bandH : Int16) (room : ℕ) :
    ∀ band ∈ displayBands area scrW scrH bandH room, 0 < band.w.toInt := by
  have hw := scrW.toInt_lt
  unfold displayBands
  split
  · exact List.forall_mem_nil _
  · dsimp only
    split
    · exact List.forall_mem_nil _
    · exact bandLoop_width (by omega) (by omega) (by omega) room _

theorem bands_room (area : GfxRect) (bandH : Int16) (hb : 1 ≤ bandH.toInt) :
    bandsNeeded area displayH bandH ≤ displayNumBands bandH := by
  have hh : displayH.toInt = 240 := by decide
  unfold bandsNeeded displayNumBands
  dsimp only
  rw [hh, show 240+bandH.toInt-1 = 239+bandH.toInt*1 by omega,
    Int.add_mul_ediv_left _ _ (by omega : bandH.toInt ≠ 0)]
  have hfirst : 0 ≤ (max area.y.toInt 0)/bandH.toInt := Int.ediv_nonneg (by omega) (by omega)
  have hlast : (min (area.y.toInt+area.h.toInt) 240-1)/bandH.toInt ≤ 239/bandH.toInt :=
    Int.ediv_le_ediv (by omega) (by omega)
  omega

def Shown (area : GfxRect) (a b : ℤ) : Prop :=
  area.window.Has a b ∧ (screen displayW displayH).Has a b

def InBands (bands : List GfxRect) (a b : ℤ) : Prop := ∃ band ∈ bands, band.window.Has a b

theorem inBands_iff (area : GfxRect) (bandH : Int16) (hb : 1 ≤ bandH.toInt) (a b : ℤ) :
    InBands (displayBands area displayW displayH bandH (displayNumBands bandH)) a b ↔
      Shown area a b := by
  have hcount := displayBands_count area displayW displayH bandH (displayNumBands bandH) hb
    (bands_room area bandH hb) a b
  have hpos : InBands (displayBands area displayW displayH bandH (displayNumBands bandH)) a b ↔
      0 < (displayBands area displayW displayH bandH (displayNumBands bandH)).countP
        (fun r => r.window.Has a b) := by
    rw [List.countP_pos_iff]
    simp [InBands]
  rw [hpos, hcount]
  split
  · rename_i h
    exact ⟨fun _ => h,fun _ => Nat.zero_lt_one⟩
  · rename_i h
    exact ⟨fun h0 => absurd h0 (Nat.lt_irrefl 0),fun h1 => absurd h1 h⟩

def Call.slot (c : Call) : ℕ := c.i % displayNumBufs

structure Drawing (fn : RenderFn) (band : GfxRect) (s : GfxSurface) (left : RenderFn)
    (pixels : Pixels) : Prop where
  made : ∃ sofar buf, fn = sofar++left ∧ s = runFn sofar (bandSurface band buf)
  stored : s.pixels = some pixels

def Swapped (fn : RenderFn) (band : GfxRect) (pixels : Pixels) : Prop :=
  ∀ a b, band.window.Has a b → ∀ c, look fn a b = some c →
    bswap16 (pixels (band.window.index a b)) = c

def AtPlace (c : Call) : Prop := match c.place with
  | .head => c.inFlight ≤ displayNumBufs ∧ c.err = .ok
  | .drawing s left => c.inFlight < displayNumBufs ∧ c.err = .ok ∧
      ∃ band bands, c.bands = band::bands ∧ Drawing c.fn band s left (c.line.slots c.slot)
  | .drawn => c.inFlight < displayNumBufs ∧ c.err = .ok ∧
      ∃ band bands, c.bands = band::bands ∧ Swapped c.fn band (c.line.slots c.slot)
  | .draining => c.inFlight ≤ displayNumBufs ∧ (c.err = .ok → c.bands = [])

structure Going (all : List GfxRect) (fn : RenderFn) (before : Panel) (c : Call) : Prop where
  callback : c.fn = fn
  rotating : Rotating displayNumBufs c.i c.inFlight c.line
  shown : ∃ done, all = done++c.bands ∧ Painted (InBands done) fn before (landed panel c.line)
  place : AtPlace c

theorem painted_none (fn : RenderFn) (before : Panel) : Painted (InBands []) fn before before := by
  intro a b
  exact ⟨fun ⟨r,hr,_⟩ => absurd hr List.not_mem_nil,fun _ => rfl⟩

/-- One more band lands. -/
theorem Painted.land {done : List GfxRect} {fn : RenderFn} {before after : Panel} {band : GfxRect}
    {pixels : Pixels} (h : Painted (InBands done) fn before after) (hw : 0 < band.w.toInt)
    (hp : Swapped fn band pixels) :
    Painted (InBands (done++[band])) fn before
      (pieces panel band pixels 0 (panel.size band) after) := by
  intro a b
  have hland := pieces_panel hw pixels (panel.size band) 0
  by_cases hin : band.window.Has a b
  · obtain ⟨h0,hlt⟩ := index_lt hin
    have hsize : ((panel.size band : ℕ) : ℤ) = band.w.toInt*band.h.toInt :=
      Int.toNat_of_nonneg (by unfold GfxRect.window at h0 hlt; dsimp only at h0 hlt; omega)
    have hsent := hland (by rw [Nat.zero_add, hsize]) after a b
    rw [if_pos ⟨hin,by omega,by rw [hsize]; unfold GfxRect.window at hlt ⊢; dsimp only at hlt ⊢; omega⟩]
      at hsent
    rw [hsent]
    exact ⟨fun _ => hp a b hin,
      fun hn => absurd ⟨band,List.mem_append_right _ (List.mem_singleton_self _),hin⟩ hn⟩
  · have hkeep : pieces panel band pixels 0 (panel.size band) after a b = after a b := by
      by_cases hpos : 0 ≤ band.w.toInt*band.h.toInt
      · have hsize : ((panel.size band : ℕ) : ℤ) = band.w.toInt*band.h.toInt :=
          Int.toNat_of_nonneg hpos
        rw [hland (by rw [Nat.zero_add, hsize]), if_neg fun h => hin h.1]
      · have hsize : panel.size band = 0 := Int.toNat_of_nonpos (by omega)
        rw [hsize]
        rfl
    have hiff : InBands (done++[band]) a b ↔ InBands done a b := by
      unfold InBands
      simp only [List.mem_append, List.mem_singleton]
      constructor
      · rintro ⟨r,hr | rfl,hr'⟩
        · exact ⟨r,hr,hr'⟩
        · exact absurd hr' hin
      · rintro ⟨r,hr,hr'⟩
        exact ⟨r,.inl hr,hr'⟩
    rw [hkeep, hiff]
    exact h a b

def OnScreen (all : List GfxRect) : Prop :=
  ∀ band ∈ all, 0 < band.w.toInt ∧ ∀ a b, band.window.Has a b → (screen displayW displayH).Has a b

section
variable {all : List GfxRect} {fn : RenderFn} {before : Panel} {c c' : Call}

theorem Going.frame (h : Going all fn before c) {line : Line Panel Pixels GfxRect}
    (hr : Rotating displayNumBufs c.i c.inFlight line) (hl : landed panel line = landed panel c.line)
    (hs : line.slots = c.line.slots) : Going all fn before { c with line := line } := by
  obtain ⟨hfn,-,hshown,hplace⟩ := h
  refine ⟨hfn,hr,?_,?_⟩
  · dsimp only
    rw [hl]
    exact hshown
  · unfold AtPlace Call.slot at hplace ⊢
    dsimp only
    rw [hs]
    exact hplace

theorem move_slots {l l' : Line Panel Pixels GfxRect} (h : move panel l = some l') :
    l'.slots = l.slots := by
  unfold move at h
  split at h
  · cases h
  · split at h
    · cases h
      rfl
    · cases h

theorem complete_slots {l l' : Line Panel Pixels GfxRect} (h : complete panel l = some l') :
    l'.slots = l.slots := by
  unfold complete at h
  split at h
  · cases h
  · split at h
    · cases h
      rfl
    · cases h

theorem Going.wait (h : Going all fn before c) (hw : Waits c) {line : Line Panel Pixels GfxRect}
    (ht : take c.line = some line) :
    Going all fn before { c with line := line, inFlight := c.inFlight-1 } := by
  obtain ⟨hfn,hrot,hshown,hplace⟩ := h
  have hslots : line.slots = c.line.slots := by
    unfold take at ht
    split at ht
    · cases ht
      rfl
    · cases ht
  refine ⟨hfn,hrot.take ht,?_,?_⟩
  · dsimp only
    rw [landed_take panel ht]
    exact hshown
  · unfold AtPlace Waits at *
    dsimp only
    cases hp : c.place with
    | head =>
      rw [hp] at hplace
      exact ⟨by have := hplace.1; omega,hplace.2⟩
    | draining =>
      rw [hp] at hplace
      exact ⟨by have := hplace.1; omega,hplace.2⟩
    | drawing s left => rw [hp] at hw; exact hw.elim
    | drawn => rw [hp] at hw; exact hw.elim

theorem Going.go (h : Going all fn before c) (hs : go c = some c') : Going all fn before c' := by
  obtain ⟨hfn,hrot,hshown,hplace⟩ := h
  unfold DisplayRender.go at hs
  unfold AtPlace at hplace
  split at hs
  · rename_i hp hbands
    cases hs
    rw [hp] at hplace
    exact ⟨hfn,hrot,hshown,hplace.1,fun _ => hbands⟩
  · rename_i band bands hp hbands
    rw [hp] at hplace
    split at hs
    · cases hs
    · rename_i hne
      cases hs
      have hlt : c.inFlight < displayNumBufs := lt_of_le_of_ne hplace.1 hne
      exact ⟨hfn,hrot,hshown,hlt,hplace.2,band,bands,hbands,
        ⟨⟨[],c.line.slots (c.i % displayNumBufs),rfl,rfl⟩,rfl⟩⟩
  · cases hs

theorem Drawing.look (hu : ∀ f ∈ fn, Uniform f) {band : GfxRect} {s : GfxSurface} {px : Pixels}
    (h : Drawing fn band s [] px)
    (hscreen : ∀ a b, band.window.Has a b → (screen displayW displayH).Has a b) :
    ∀ a b, band.window.Has a b → ∀ c, look fn a b = some c → px (band.window.index a b) = c := by
  intro a b hin c hc
  obtain ⟨⟨sofar,buf,hfn,hs⟩,hpx⟩ := h
  rw [List.append_nil] at hfn
  subst hfn
  obtain ⟨p,hp⟩ := runFn_uniform hu
  have hw : displayW.toInt = 320 := by decide
  have hh : displayH.toInt = 240 := by decide
  obtain ⟨h1,h2,h3,h4⟩ := hscreen a b hin
  dsimp only [screen] at h1 h2 h3 h4
  rw [look_eq hp (by omega) (by omega)] at hc
  have hcolour := colourAt_draw (s := bandSurface band buf) rfl hin hin p
  rw [← hp, ← hs, hc] at hcolour
  unfold colourAt at hcolour
  rw [hpx] at hcolour
  have hview : s.view = band.window := by
    rw [hs, hp]
    rfl
  rw [hview] at hcolour
  exact Option.some.inj hcolour

theorem Going.draw (h : Going all fn before c) (hu : ∀ f ∈ fn, Uniform f) (hon : OnScreen all)
    (hs : drawStep c = some c') : Going all fn before c' := by
  obtain ⟨hfn,hrot,hshown,hplace⟩ := h
  unfold drawStep at hs
  unfold AtPlace at hplace
  split at hs
  · rename_i s f left hp
    rw [hp] at hplace
    obtain ⟨hlt,herr,band,bands,hbands,⟨sofar,buf,hsplit,hmade⟩,hstored⟩ := hplace
    cases hs
    have hf : f ∈ fn := by
      rw [← hfn, hsplit]
      exact List.mem_append_right _ List.mem_cons_self
    obtain ⟨p,hp⟩ := hu f hf
    refine ⟨hfn,hrot.fill _ _,?_,hlt,herr,band,bands,hbands,⟨sofar++[f],buf,?_,?_⟩,?_⟩
    · dsimp only
      rw [landed_fill panel (hrot.unused hlt)]
      exact hshown
    · rw [List.append_assoc]
      exact hsplit
    · rw [runFn_append, hmade]
      rfl
    · dsimp only [fill, Call.slot]
      rw [Function.update_self, hp, draw, hstored]
      rfl
  · rename_i s band bands hp hbands
    rw [hp] at hplace
    obtain ⟨hlt,herr,band',bands',hbands',hdrawing⟩ := hplace
    cases hs
    obtain ⟨rfl,rfl⟩ := List.cons.inj (hbands.symm.trans hbands')
    obtain ⟨done,hall,hdone⟩ := hshown
    have hmem : band ∈ all := by
      rw [hall, hbands]
      exact List.mem_append_right _ List.mem_cons_self
    refine ⟨hfn,hrot.fill _ _,⟨done,hall,?_⟩,hlt,herr,band,bands,hbands,?_⟩
    · dsimp only
      rw [landed_fill panel (hrot.unused hlt)]
      exact hdone
    · intro a b hin col hcol
      dsimp only [fill, Call.slot]
      obtain ⟨h0,hidx⟩ := index_lt hin
      rw [Function.update_self, toPanelOrder_apply h0 (by dsimp only [GfxRect.window] at h0 hidx ⊢; omega),
        bswap16_bswap16]
      rw [hfn] at hdrawing hcol
      exact hdrawing.look hu (hon band hmem).2 a b hin col hcol
  · cases hs

theorem Going.handOver (h : Going all fn before c) (hon : OnScreen all) {err : StarkErr}
    (hs : handOver err c = some c') : Going all fn before c' := by
  obtain ⟨hfn,hrot,hshown,hplace⟩ := h
  unfold DisplayRender.handOver at hs
  unfold AtPlace at hplace
  split at hs
  · rename_i band bands hp hbands
    rw [hp] at hplace
    obtain ⟨hlt,herr,band',bands',hbands',hswapped⟩ := hplace
    obtain ⟨rfl,rfl⟩ := List.cons.inj (hbands.symm.trans hbands')
    obtain ⟨done,hall,hdone⟩ := hshown
    split at hs
    · cases hs
      have hmem : band ∈ all := by
        rw [hall, hbands]
        exact List.mem_append_right _ List.mem_cons_self
      refine ⟨hfn,hrot.submit band,⟨done++[band],?_,?_⟩,hlt,herr⟩
      · dsimp only
        rw [List.append_assoc, hall, hbands]
        rfl
      · dsimp only
        rw [landed_submit]
        rw [hfn] at hswapped
        exact hdone.land (hon band hmem).1 hswapped
    · rename_i hne
      cases hs
      exact ⟨hfn,hrot,⟨done,hall,hdone⟩,hlt.le,fun hok => absurd hok hne⟩
  · cases hs

theorem step_going (hu : ∀ f ∈ fn, Uniform f) (hon : OnScreen all) (h : Going all fn before c)
    {a : Act} (ha : Timely c a) (hs : step c a = some c') : Going all fn before c' := by
  cases a with
  | send =>
    obtain ⟨line,hm,rfl⟩ := Option.map_eq_some_iff.mp hs
    exact h.frame (h.rotating.move panel hm) (landed_move panel hm) (move_slots hm)
  | complete =>
    obtain ⟨line,hm,rfl⟩ := Option.map_eq_some_iff.mp hs
    exact h.frame (h.rotating.complete panel hm) (landed_complete panel hm) (complete_slots hm)
  | wait done =>
    cases done with
    | false => exact absurd rfl ha
    | true =>
      rw [step] at hs
      split at hs
      · rename_i hw
        obtain ⟨line,ht,rfl⟩ := Option.map_eq_some_iff.mp hs
        exact h.wait hw ht
      · cases hs
  | go => exact h.go hs
  | draw => exact h.draw hu hon hs
  | submit err => exact h.handOver hon hs

theorem Going.ready (h : Going all fn before c) (hr : ¬Returned c) :
    ∃ a, Timely c a ∧ (step c a).isSome := by
  have hcount := h.rotating.count
  have hbufs : displayNumBufs = 2 := rfl
  have hwaiting : Waits c → 0 < c.inFlight → ∃ a, Timely c a ∧ (step c a).isSome := by
    intro hw hpos
    by_cases htoken : 0 < c.line.tokens
    · exact ⟨.wait true,by simp [Timely],by simp [step, hw, take, htoken]⟩
    · have hqueue : c.line.queue ≠ [] := by
        intro hnil
        rw [hnil, List.length_nil] at hcount
        omega
      rcases device_ready panel hqueue with hm | hm
      · exact ⟨.send,by simp [Timely],by simpa [step] using hm⟩
      · exact ⟨.complete,by simp [Timely],by simpa [step] using hm⟩
  have hplace := h.place
  unfold AtPlace at hplace
  cases hp : c.place with
  | head =>
    by_cases hw : Waits c
    · have hfull := hw
      unfold Waits at hfull
      rw [hp] at hfull
      exact hwaiting hw (by omega)
    · refine ⟨.go,by simp [Timely],?_⟩
      unfold Waits at hw
      rw [hp] at hw
      cases hb : c.bands with
      | nil => simp [step, DisplayRender.go, hp, hb]
      | cons band bands =>
        have hne : c.inFlight ≠ displayNumBufs := fun hn => hw ⟨by rw [hb]; simp,hn⟩
        simp [step, DisplayRender.go, hp, hb, hne]
  | drawing s left =>
    rw [hp] at hplace
    obtain ⟨-,-,band,bands,hb,-⟩ := hplace
    refine ⟨.draw,by simp [Timely],?_⟩
    cases left with
    | nil => simp [step, drawStep, hp, hb]
    | cons f left => simp [step, drawStep, hp]
  | drawn =>
    rw [hp] at hplace
    obtain ⟨-,-,band,bands,hb,-⟩ := hplace
    exact ⟨.submit .ok,by simp [Timely],by simp [step, DisplayRender.handOver, hp, hb]⟩
  | draining =>
    have hpos : 0 < c.inFlight := by
      refine Nat.pos_of_ne_zero fun h0 => hr ?_
      unfold Returned
      rw [hp]
      exact h0
    exact hwaiting (by unfold Waits; rw [hp]; exact hpos) hpos

end

def bandCost (fn : RenderFn) (band : GfxRect) : ℕ := panel.size band+fn.length+7

def cost (fn : RenderFn) (bands : List GfxRect) : ℕ := (bands.map (bandCost fn)).sum+1

def ahead (c : Call) : ℕ := pending panel c.line+match c.place, c.bands with
  | .head, bands => cost c.fn bands
  | .drawing _ left, band::bands => panel.size band+left.length+5+cost c.fn bands
  | .drawing _ left, [] => left.length
  | .drawn, band::bands => panel.size band+4+cost c.fn bands
  | _, _ => 0

theorem ahead_line {c : Call} {line : Line Panel Pixels GfxRect}
    (h : pending panel line < pending panel c.line) : ahead { c with line := line } < ahead c :=
  Nat.add_lt_add_right h _

theorem step_ahead {c c' : Call} {a : Act} (ha : Timely c a) (hs : step c a = some c') :
    ahead c' < ahead c := by
  cases a with
  | send =>
    obtain ⟨line,hm,rfl⟩ := Option.map_eq_some_iff.mp hs
    exact ahead_line (pending_move panel hm)
  | complete =>
    obtain ⟨line,hm,rfl⟩ := Option.map_eq_some_iff.mp hs
    exact ahead_line (pending_complete panel hm)
  | wait done =>
    cases done with
    | false => exact absurd rfl ha
    | true =>
      rw [step] at hs
      split at hs
      · obtain ⟨line,ht,rfl⟩ := Option.map_eq_some_iff.mp hs
        exact ahead_line (c := { c with inFlight := c.inFlight-1 }) (pending_take panel ht)
      · cases hs
  | go =>
    rw [step, go] at hs
    unfold ahead
    split at hs
    · rename_i hp hb
      cases hs
      rw [hp, hb]
      simp [cost]
    · rename_i band bands hp hb
      split at hs
      · cases hs
      · cases hs
        rw [hp, hb]
        simp only [cost, bandCost, List.map_cons, List.sum_cons]
        omega
    · cases hs
  | draw =>
    rw [step, drawStep] at hs
    unfold ahead
    split at hs
    · rename_i s f left hp
      cases hs
      rw [hp]
      apply Nat.add_lt_add_left
      cases c.bands with
      | nil => exact Nat.lt_succ_self _
      | cons band bands =>
        simp only [List.length_cons]
        omega
    · rename_i s band bands hp hb
      cases hs
      rw [hp, hb]
      apply Nat.add_lt_add_left
      dsimp only [List.length_nil]
      omega
    · cases hs
  | submit err =>
    rw [step, handOver] at hs
    unfold ahead
    split at hs
    · rename_i band bands hp hb
      split at hs
      · cases hs
        rw [hp, hb]
        simp only [pending_submit]
        omega
      · cases hs
        rw [hp, hb]
        dsimp only
        omega
    · cases hs

theorem run_ahead {c t : Call} (as : List Act) (h : Run step Timely c as t) :
    as.length+ahead t ≤ ahead c := by
  induction as generalizing c with
  | nil =>
    rw [show c = t from h]
    simp
  | cons a as ih =>
    obtain ⟨ha,u,hu,hr⟩ := h
    have hstep := step_ahead ha hu
    have hrest := ih hr
    rw [List.length_cons]
    omega

/-- While a call goes on, the buffer it draws into is on no transfer, and something can always
happen next, for a bounded number of steps. When it returns, no transfer is left; if it went
well the area shows what the callback paints and nothing else has changed, and otherwise
that holds of the first bands of the area. -/
structure Rendered (area : GfxRect) (bandH : Int16) (fn : RenderFn) (before : Panel) (n : ℕ)
    (t : Call) : Prop where
  apart : ∀ s left, t.place = .drawing s left → Unused t.slot t.line
  goes : ¬Returned t → ∃ a, Timely t a ∧ (step t a).isSome
  bounded : n ≤ cost fn (displayBands area displayW displayH bandH (displayNumBands bandH))
  still : Returned t → Still t.line
  good : Returned t → t.err = .ok → Painted (Shown area) fn before t.line.mem
  bad : Returned t → ∃ k, Painted (InBands ((displayBands area displayW displayH bandH
    (displayNumBands bandH)).take k)) fn before t.line.mem

theorem render_paints_area (bandH : Int16) (hb : 1 ≤ bandH.toInt) (area : GfxRect) (fn : RenderFn)
    (hfn : ∀ f ∈ fn, Uniform f) (line : Line Panel Pixels GfxRect) (hline : Still line)
    (as : List Act) (t : Call)
    (h : Run step Timely (starkDisplayRender true bandH area (some fn) line) as t) :
    Rendered area bandH fn line.mem as.length t := by
  let all := displayBands area displayW displayH bandH (displayNumBands bandH)
  have hon : OnScreen all := by
    intro band hband
    refine ⟨displayBands_width _ _ _ _ _ band hband,fun a b hin => ?_⟩
    exact ((inBands_iff area bandH hb a b).mp ⟨band,hband,hin⟩).2
  have hstart : Going all fn line.mem (starkDisplayRender true bandH area (some fn) line) := by
    refine ⟨rfl,rotating_still hline,⟨[],rfl,?_⟩,Nat.zero_le _,rfl⟩
    show Painted (InBands []) fn line.mem (landed panel line)
    rw [hline.landed panel]
    exact painted_none fn line.mem
  have hgoing : Going all fn line.mem t :=
    run_invariant (Going all fn line.mem) (fun _ _ _ hi ha hs => step_going hfn hon hi ha hs) as
      hstart h
  have hreturned : Returned t → Still t.line ∧ (t.err = .ok → t.bands = []) ∧
      landed panel t.line = t.line.mem := by
    intro hr
    obtain ⟨hplace,hzero⟩ : t.place = .draining ∧ t.inFlight = 0 := by
      unfold Returned at hr
      split at hr
      · exact ⟨by assumption,hr⟩
      · exact hr.elim
    have hrot := hgoing.rotating
    rw [hzero] at hrot
    have hat := hgoing.place
    unfold AtPlace at hat
    rw [hplace] at hat
    exact ⟨hrot.still,hat.2,hrot.still.landed panel⟩
  obtain ⟨done,hall,hdone⟩ := hgoing.shown
  refine ⟨?_,hgoing.ready,?_,fun hr => (hreturned hr).1,?_,?_⟩
  · intro s left hp
    have hat := hgoing.place
    unfold AtPlace at hat
    rw [hp] at hat
    exact hgoing.rotating.unused hat.1
  · have hrun := run_ahead as h
    have hzero : pending panel line = 0 := by
      unfold pending
      rw [hline.1, hline.2]
      rfl
    have hcost : ahead (starkDisplayRender true bandH area (some fn) line) = cost fn all := by
      show pending panel line+cost fn all = cost fn all
      rw [hzero, Nat.zero_add]
    show as.length ≤ cost fn all
    omega
  · intro hr herr
    obtain ⟨-,hbands,hlanded⟩ := hreturned hr
    rw [hbands herr, List.append_nil] at hall
    rw [hlanded, ← hall] at hdone
    intro a b
    rw [← inBands_iff area bandH hb a b]
    exact hdone a b
  · intro hr
    obtain ⟨-,-,hlanded⟩ := hreturned hr
    refine ⟨done.length,?_⟩
    have htake : all.take done.length = done := by rw [hall, List.take_left]
    rw [hlanded] at hdone
    rw [htake]
    exact hdone

def blankLine : Line Panel Pixels GfxRect := ⟨fun _ _ => 0,fun _ _ => 0,[],0⟩

def dots : RenderFn := [fun s => gfxFill s ⟨0,0,320,240⟩ 0x1234,fun s => gfxFill s ⟨1,0,1,1⟩ 0xFFFF]

theorem render_paints_area_dots : ∃ t, (Returned t ∧ t.err = .ok ∧ t.line.mem 1 0 = 0xFFFF) ∧
    Rendered ⟨0,0,2,1⟩ 40 dots blankLine.mem 10 t := by
  obtain ⟨t,hrun,ht⟩ := run_witness (p := fun t => Returned t ∧ t.err = .ok ∧ t.line.mem 1 0 = 0xFFFF)
    step (G := Timely) (s := starkDisplayRender true 40 ⟨0,0,2,1⟩ (some dots) blankLine)
    [.go,.draw,.draw,.draw,.submit .ok,.send,.send,.complete,.go,.wait true]
    (by decide +kernel) (by decide +kernel)
  refine ⟨t,ht,render_paints_area 40 (by decide) ⟨0,0,2,1⟩ dots ?_ blankLine ⟨rfl,rfl⟩ _ t hrun⟩
  simp only [dots, List.forall_mem_cons]
  exact ⟨fill32_uniform _ _ _ _ _,fill32_uniform _ _ _ _ _,List.forall_mem_nil _⟩

end StarkOne.DisplayRender
