import StarkOne.DisplayRender
import StarkOne.UiDamage

/-!
# Frames of the screen stack

What the panel should show is the scene: the status bar, the top screen, and the
one beneath it when the top one is an overlay. A screen is free to change what it
draws, as long as it invalidates the places where that shows. Then the panel
differs from the scene only where damage waits for the next tick, and where the
last rendering failed.
-/

set_option autoImplicit false

namespace StarkOne.UiFrames
open StarkOne.Raster StarkOne.Gfx StarkOne.GfxText StarkOne.DisplayBands StarkOne.DisplayRender
open StarkOne.Rotation StarkOne.UiDamage StarkOne.Machine

inductive StarkUiStorageIcon where
  | none
  | absent
  | mounted
  | error
  | ejected
  deriving DecidableEq, Repr

def gfxRgb565 (r g b : UInt16) : UInt16 := (r &&& 0xF8) <<< 8 ||| (g &&& 0xFC) <<< 3 ||| b >>> 3

def themeStatusBg : UInt16 := gfxRgb565 0 64 128
def themeStatusFg : UInt16 := gfxRgb565 255 255 255
def themeStatusDim : UInt16 := gfxRgb565 96 128 160
def themeError : UInt16 := gfxRgb565 255 64 64
def themeStatusbarH : Int16 := 16
def themeTitleX : Int16 := 4

/-- The cells of the font; its glyphs are a table of their own. -/
def gfxFontMono16 (bits : ℕ → UInt8) : GfxFont := ⟨8,16,0x20,0x17F,0x3F,bits⟩

def cardW : Int16 := 8
def cardH : Int16 := 10
def kCardFilled : List UInt8 := [0x3F,0x7F,0xFF,0xFF,0xFF,0xFF,0xFF,0xFF,0xFF,0xFF]
def kCardOutline : List UInt8 := [0x3F,0x41,0x81,0x81,0x81,0x81,0x81,0x81,0x81,0xFF]

def rectEmpty (r : GfxRect) : Prop := r.w ≤ 0 ∨ r.h ≤ 0

instance (r : GfxRect) : Decidable (rectEmpty r) := inferInstanceAs (Decidable (_ ∨ _))

def rectMake (x0 y0 x1 y1 : ℤ) : GfxRect :=
  if x1 ≤ x0 ∨ y1 ≤ y0 then ⟨0,0,0,0⟩
  else ⟨Int16.ofInt x0,Int16.ofInt y0,Int16.ofInt (min (x1-x0) UiDamage.int16Max),
    Int16.ofInt (min (y1-y0) UiDamage.int16Max)⟩

def rectIntersect (a b : GfxRect) : GfxRect :=
  rectMake (max a.x.toInt b.x.toInt) (max a.y.toInt b.y.toInt)
    (min (a.x.toInt+a.w.toInt) (b.x.toInt+b.w.toInt))
    (min (a.y.toInt+a.h.toInt) (b.y.toInt+b.h.toInt))

def coverBoth (d r : GfxRect) : GfxRect :=
  if rectEmpty d then r
  else rectMake (min d.x.toInt r.x.toInt) (min d.y.toInt r.y.toInt)
    (max (d.x.toInt+d.w.toInt) (r.x.toInt+r.w.toInt))
    (max (d.y.toInt+d.h.toInt) (r.y.toInt+r.h.toInt))

def screenRect : GfxRect := ⟨0,0,displayW,displayH⟩
def uiContentRect : GfxRect := ⟨0,themeStatusbarH,displayW,displayH-themeStatusbarH⟩
def uiStatusbarRect : GfxRect := ⟨0,0,displayW,themeStatusbarH⟩

def uiStatusbarStorageRect : GfxRect :=
  ⟨displayW-themeTitleX-cardW,(themeStatusbarH-cardH)/2,cardW,cardH⟩

def storageGlyph : StarkUiStorageIcon → Option (List UInt8 × UInt16)
  | .none => none
  | .absent => some (kCardOutline,themeStatusDim)
  | .mounted => some (kCardFilled,themeStatusFg)
  | .error => some (kCardFilled,themeError)
  | .ejected => some (kCardOutline,themeStatusFg)

def drawStorage (icon : StarkUiStorageIcon) (s : GfxSurface) : GfxSurface :=
  match storageGlyph icon with
  | none => s
  | some (bits,colour) =>
    gfxBlit1bpp s uiStatusbarStorageRect.x uiStatusbarStorageRect.y (some fun i => bits.getD i 0)
      cardW cardH colour themeStatusBg true

def uiStatusbarDraw (glyphs : ℕ → UInt8) (icon : StarkUiStorageIcon) (title : Option (List UInt8)) :
    RenderFn :=
  [fun s => gfxFill s uiStatusbarRect themeStatusBg,
    fun s => (gfxText s (some (gfxFontMono16 glyphs)) themeTitleX 0 title themeStatusFg themeStatusBg
      true).1,
    drawStorage icon]

/-- Drawing while the clip is narrowed to a rectangle; nothing if they have nothing in common. -/
def clipped (r : GfxRect) (fn : RenderFn) (s : GfxSurface) : GfxSurface :=
  if rectEmpty (rectIntersect s.clip r) then s
  else { runFn fn { s with clip := rectIntersect s.clip r } with clip := s.clip }

structure Screens (σ K : Type) where
  name : K → σ → Option (List UInt8)
  overlay : K → Bool
  onRender : K → σ → RenderFn
  uniform : ∀ k s, ∀ f ∈ onRender k s, Uniform f

inductive UiCall (K : Type) where
  | pushing (k : K)
  | popping
  deriving DecidableEq

/-- The stack with the top screen first; `lost` are the points whose last rendering failed. -/
structure Ui (σ K : Type) where
  state : σ
  stack : List K
  damage : K → List GfxRect
  statusDamage : GfxRect
  storage : StarkUiStorageIcon
  calls : List (UiCall K)
  panel : Panel
  lost : ℤ → ℤ → Bool

/-- How a rendering ends: after how many bands if it fails, and what stands in the buffers where
the callback draws nothing. -/
structure Outcome where
  err : StarkErr
  bands : ℕ
  left : Panel

/-- What runs on the UI task: the program changes its state and invalidates areas of screens, a
callback of a push or a pop returns, and so on. -/
inductive UiAct (σ K : Type) where
  | update (state : σ) (areas : List (K × GfxRect))
  | push (k : K)
  | entered
  | pop
  | left
  | setStorage (icon : StarkUiStorageIcon)
  | tick (outcome : GfxRect → Outcome)

def uiStackDepth : ℕ := 8

section
variable {σ K : Type} (sc : Screens σ K) (glyphs : ℕ → UInt8) (bandH : Int16)

def renderBand (u : Ui σ K) : RenderFn :=
  match u.stack with
  | [] => []
  | top::rest =>
    let beneath := if sc.overlay top then rest.head? else none
    uiStatusbarDraw glyphs u.storage (sc.name (beneath.getD top) u.state)++
      [clipped uiContentRect
        ((beneath.elim [] fun k => sc.onRender k u.state)++sc.onRender top u.state)]

def starkUiInvalidate [DecidableEq K] (k : K) (area : GfxRect) (u : Ui σ K) : Ui σ K :=
  { u with damage := Function.update u.damage k (uiDamageAdd (u.damage k) area) }

def redrawAll [DecidableEq K] (k : K) (u : Ui σ K) : Ui σ K :=
  { u with
    damage := Function.update u.damage k (uiDamageAdd [] uiContentRect)
    statusDamage := uiStatusbarRect }

def starkUiPush (k : K) (u : Ui σ K) : StarkErr × Ui σ K :=
  if u.stack.length = uiStackDepth then (.noMem,u)
  else if sc.overlay k && u.stack.isEmpty then (.state,u)
  else if sc.overlay k && u.stack.head?.any sc.overlay then (.busy,u)
  else (.ok,{ u with stack := k::u.stack, calls := .pushing k::u.calls })

def starkUiPop (u : Ui σ K) : StarkErr × Ui σ K :=
  match u.stack with
  | _::below::rest => (.ok,{ u with stack := below::rest, calls := .popping::u.calls })
  | _ => (.state,u)

def starkUiEntered [DecidableEq K] (u : Ui σ K) : Option (Ui σ K) := match u.calls with
  | .pushing k::calls => some (redrawAll k { u with calls := calls })
  | _ => none

def starkUiLeft [DecidableEq K] (u : Ui σ K) : Option (Ui σ K) := match u.calls, u.stack with
  | .popping::calls, top::_ => some (redrawAll top { u with calls := calls })
  | _, _ => none

def starkUiStatusSetStorage (icon : StarkUiStorageIcon) (u : Ui σ K) : Ui σ K :=
  if u.storage = icon then u
  else { u with
    storage := icon
    statusDamage := coverBoth u.statusDamage uiStatusbarStorageRect }

def bandsDrawn (area : GfxRect) (o : Outcome) : List GfxRect :=
  let all := displayBands area displayW displayH bandH (displayNumBands bandH)
  if o.err = .ok then all else all.take o.bands

def renderArea (fn : RenderFn) (area : GfxRect) (o : Outcome) (panel : Panel) : Panel := fun a b =>
  if (bandsDrawn bandH area o).any (fun r => decide (r.window.Has a b)) then
    (look fn a b).getD (o.left a b)
  else panel a b

def renderRect (fn : RenderFn) (outcome : GfxRect → Outcome) (p : Panel × (ℤ → ℤ → Bool))
    (r : GfxRect) : Panel × (ℤ → ℤ → Bool) :=
  let area := rectIntersect r screenRect
  if rectEmpty area then p
  else (renderArea bandH fn area (outcome area) p.1,
    if (outcome area).err = .ok then fun a b => p.2 a b && !decide (area.window.Has a b)
    else fun a b => p.2 a b || decide (area.window.Has a b))

def starkUiTick [DecidableEq K] (outcome : GfxRect → Outcome) (u : Ui σ K) : Ui σ K :=
  match u.stack with
  | [] => u
  | top::_ =>
    let frame := uiDamageAdd (u.damage top) u.statusDamage
    if frame = [] then u
    else
      let p := frame.foldl (renderRect bandH (renderBand sc glyphs u) outcome) (u.panel,u.lost)
      { u with
        damage := Function.update u.damage top []
        statusDamage := ⟨0,0,0,0⟩
        panel := p.1
        lost := p.2 }

/-- A tick dispatches the events first, so no callback runs when it renders. -/
def step [DecidableEq K] (u : Ui σ K) : UiAct σ K → Option (Ui σ K)
  | .update state areas =>
    some { areas.foldl (fun u r => starkUiInvalidate r.1 r.2 u) u with state := state }
  | .push k => some (starkUiPush sc k u).2
  | .entered => starkUiEntered u
  | .pop => some (starkUiPop u).2
  | .left => starkUiLeft u
  | .setStorage icon => some (starkUiStatusSetStorage icon u)
  | .tick outcome => if u.calls = [] then some (starkUiTick sc glyphs bandH outcome u) else none

def boot (state : σ) (panel : Panel) : Ui σ K :=
  ⟨state,[],fun _ => [],⟨0,0,0,0⟩,.none,[],panel,fun _ _ => false⟩

end

theorem rectIntersect_has (r q : GfxRect) (a b : ℤ) :
    (rectIntersect r q).window.Has a b ↔ r.window.Has a b ∧ q.window.Has a b := by
  have h1 := r.x.le_toInt
  have h2 := r.x.toInt_lt
  have h3 := r.y.le_toInt
  have h4 := r.y.toInt_lt
  have h5 := r.w.toInt_lt
  have h6 := r.h.toInt_lt
  have h7 := q.x.le_toInt
  have h8 := q.x.toInt_lt
  have h9 := q.y.le_toInt
  have h10 := q.y.toInt_lt
  have hmax : UiDamage.int16Max = 32767 := rfl
  unfold rectIntersect rectMake Window.Has
  split
  · unfold GfxRect.window
    dsimp only
    rw [Int16.toInt_zero]
    omega
  · unfold GfxRect.window
    dsimp only
    rw [Int16.toInt_ofInt_of_le (by omega) (by omega), Int16.toInt_ofInt_of_le (by omega) (by omega),
      Int16.toInt_ofInt_of_le (by omega) (by omega), Int16.toInt_ofInt_of_le (by omega) (by omega)]
    omega

theorem not_has_empty {r : GfxRect} (h : rectEmpty r) (a b : ℤ) : ¬r.window.Has a b := by
  unfold rectEmpty at h
  rw [Int16.le_iff_toInt_le, Int16.le_iff_toInt_le, Int16.toInt_zero] at h
  unfold Window.Has GfxRect.window
  dsimp only
  omega

theorem clipped_draw (r : GfxRect) {fn : RenderFn} {p : Paint UInt16}
    (hp : ∀ s, runFn fn s = draw s p) (s : GfxSurface) :
    clipped r fn s = draw s (within r.window p) := by
  have hpx : render s.view (rectIntersect s.clip r).window p =
      render s.view s.clip.window (within r.window p) :=
    funext fun px => render_within (rectIntersect_has s.clip r) p px
  unfold clipped
  split
  · rename_i hempty
    rw [show draw s (within r.window p) = { s with
        pixels := s.pixels.map (render s.view (rectIntersect s.clip r).window p) } by rw [hpx]; rfl]
    have hkeep : render s.view (rectIntersect s.clip r).window p = id := by
      funext px i
      exact if_neg fun h => not_has_empty hempty _ _ h.2
    rw [hkeep, Option.map_id]
    rfl
  · rw [hp]
    unfold draw
    rw [← hpx]
    rfl

theorem clipped_uniform (r : GfxRect) {fn : RenderFn} (h : ∀ f ∈ fn, Uniform f) :
    Uniform (clipped r fn) := by
  obtain ⟨p,hp⟩ := runFn_uniform h
  exact ⟨_,clipped_draw r hp⟩

theorem drawStorage_uniform (icon : StarkUiStorageIcon) : Uniform (drawStorage icon) := by
  unfold drawStorage
  split
  · exact uniform_id
  · exact blit_uniform _ _ _ _ _ _ _ _

theorem drawStorage_look (icon : StarkUiStorageIcon) {a b : ℤ} (hab : Addressable a b)
    (h : ¬uiStatusbarStorageRect.window.Has a b) : look [drawStorage icon] a b = none := by
  unfold drawStorage
  split
  · exact look_draw (fun s => (draw_none s).symm) hab
  · rw [look_draw (fun s => blit_draw s _ _ _ _ _ _ _ _) hab]
    exact if_neg h

theorem statusbar_uniform (glyphs : ℕ → UInt8) (icon : StarkUiStorageIcon)
    (title : Option (List UInt8)) : ∀ f ∈ uiStatusbarDraw glyphs icon title, Uniform f := by
  unfold uiStatusbarDraw
  simp only [List.forall_mem_cons]
  exact ⟨fill32_uniform _ _ _ _ _,text_uniform _ _ _ _ _ _ _,drawStorage_uniform icon,
    List.forall_mem_nil _⟩

theorem statusbar_look (glyphs : ℕ → UInt8) (icon icon' : StarkUiStorageIcon)
    (title : Option (List UInt8)) {a b : ℤ} (hab : Addressable a b)
    (h : ¬uiStatusbarStorageRect.window.Has a b) :
    look (uiStatusbarDraw glyphs icon title) a b = look (uiStatusbarDraw glyphs icon' title) a b := by
  have hsplit : ∀ i, uiStatusbarDraw glyphs i title =
      [fun s => gfxFill s uiStatusbarRect themeStatusBg,
        fun s => (gfxText s (some (gfxFontMono16 glyphs)) themeTitleX 0 title themeStatusFg
          themeStatusBg true).1]++[drawStorage i] := fun _ => rfl
  have hbar : ∀ i, look (uiStatusbarDraw glyphs i title) a b =
      look [fun s => gfxFill s uiStatusbarRect themeStatusBg,
        fun s => (gfxText s (some (gfxFontMono16 glyphs)) themeTitleX 0 title themeStatusFg
          themeStatusBg true).1] a b := by
    intro i
    rw [hsplit, look_append ?_ ?_ hab, drawStorage_look i hab h]
    · rfl
    · simp only [List.forall_mem_cons]
      exact ⟨fill32_uniform _ _ _ _ _,text_uniform _ _ _ _ _ _ _,List.forall_mem_nil _⟩
    · simp only [List.forall_mem_cons]
      exact ⟨drawStorage_uniform i,List.forall_mem_nil _⟩
  rw [hbar, hbar]

structure Tidied (hull : Box) (d : List GfxRect) : Prop where
  tidy : Merging.Tidy joins uiDamageMax (d.map toBox)
  held : Held hull (d.map toBox)

def Covers (d : List GfxRect) (a b : ℤ) : Prop := ∃ r ∈ d, r.window.Has a b

def Fits (hull : Box) (r : GfxRect) : Prop := ¬rectEmpty r → toBox r ≤ hull

theorem tidied_nil (hull : Box) : Tidied hull [] :=
  ⟨⟨Nat.zero_le _,List.Pairwise.nil⟩,List.forall_mem_nil _⟩

theorem covers_box {r q : GfxRect} (h : toBox r ≤ toBox q) {a b : ℤ} (hin : r.window.Has a b) :
    q.window.Has a b := by
  obtain ⟨h1,h2,h3,h4⟩ := h
  unfold toBox at h1 h2 h3 h4
  unfold Window.Has GfxRect.window at hin ⊢
  dsimp only at *
  omega

/-- The set goes on covering what it did, and covers what is added. -/
theorem Tidied.add {hull : Box} (hr : Roomy hull) {d : List GfxRect} (h : Tidied hull d)
    {r : GfxRect} (hin : Fits hull r) : Tidied hull (uiDamageAdd d r) ∧
    ∀ a b, Covers d a b ∨ r.window.Has a b → Covers (uiDamageAdd d r) a b := by
  obtain ⟨hheld,hkept⟩ := add_kept hr h.held ⟨h.tidy,Merging.Spans.refl _⟩ hin
  refine ⟨⟨hkept.tidy,hheld.spans hr hkept.spans⟩,?_⟩
  have hcover : ∀ q, toBox q ∈ d.map toBox++regions [r] → ∀ a b, q.window.Has a b →
      Covers (uiDamageAdd d r) a b := by
    intro q hq a b hqab
    obtain ⟨t,ht,hle⟩ := hkept.spans.covers _ hq
    obtain ⟨r',hr',rfl⟩ := List.mem_map.mp ht
    exact ⟨r',hr',covers_box hle hqab⟩
  rintro a b (⟨q,hq,hqab⟩ | hrab)
  · exact hcover q (List.mem_append_left _ (List.mem_map_of_mem hq)) a b hqab
  · refine hcover r (List.mem_append_right _ ?_) a b hrab
    refine List.mem_map.mpr ⟨r,List.mem_filter.mpr ⟨List.mem_singleton_self r,?_⟩,rfl⟩
    exact decide_eq_true fun hempty => not_has_empty hempty a b hrab

theorem redraw_covers {a b : ℤ} (h : (screen displayW displayH).Has a b) :
    uiContentRect.window.Has a b ∨ uiStatusbarRect.window.Has a b := by
  have hw : displayW.toInt = 320 := by decide
  have hh : displayH.toInt = 240 := by decide
  have hbar : themeStatusbarH.toInt = 16 := by decide
  have hcontent : (displayH-themeStatusbarH).toInt = 224 := by decide
  unfold Window.Has screen at h
  unfold Window.Has GfxRect.window uiContentRect uiStatusbarRect
  dsimp only at *
  rw [Int16.toInt_zero]
  omega

def screenBox : Box := ⟨0,0,320,240⟩

theorem content_fits {hull : Box} (h : screenBox ≤ hull) : Fits hull uiContentRect :=
  fun _ => le_trans (by rw [Box.le_def]; decide) h

def InBar (r : GfxRect) : Prop := Fits (toBox uiStatusbarRect) r

theorem InBar.fits {hull : Box} (h : screenBox ≤ hull) {r : GfxRect} (hr : InBar r) :
    Fits hull r :=
  fun hne => (hr hne).trans (le_trans (by rw [Box.le_def]; decide) h)

theorem InBar.covers {r : GfxRect} (hr : InBar r) {a b : ℤ} (h : r.window.Has a b) :
    uiStatusbarRect.window.Has a b :=
  covers_box (hr fun hempty => not_has_empty hempty a b h) h

theorem storage_inBar : InBar uiStatusbarStorageRect :=
  fun _ => by rw [Box.le_def]; decide

theorem coverBoth_covers {d r : GfxRect} (hdbar : InBar d) (hr : ¬rectEmpty r) (hrbar : InBar r) :
    InBar (coverBoth d r) ∧
      ∀ a b, d.window.Has a b ∨ r.window.Has a b → (coverBoth d r).window.Has a b := by
  by_cases hd : rectEmpty d
  · unfold coverBoth
    rw [if_pos hd]
    exact ⟨hrbar,fun a b hab => hab.resolve_left (not_has_empty hd a b)⟩
  have hbar : toBox uiStatusbarRect = ⟨0,0,320,16⟩ := by decide
  have hmax : UiDamage.int16Max = 32767 := rfl
  obtain ⟨h1,h2,h3,h4⟩ := hdbar hd
  obtain ⟨h5,h6,h7,h8⟩ := hrbar hr
  obtain ⟨hdw,hdh⟩ := positive hd
  obtain ⟨hrw,hrh⟩ := positive hr
  rw [hbar] at h1 h2 h3 h4 h5 h6 h7 h8
  unfold toBox at h1 h2 h3 h4 h5 h6 h7 h8
  dsimp only at h1 h2 h3 h4 h5 h6 h7 h8
  have hu : toBox (coverBoth d r) = ⟨min d.x.toInt r.x.toInt,min d.y.toInt r.y.toInt,
      max (d.x.toInt+d.w.toInt) (r.x.toInt+r.w.toInt),
      max (d.y.toInt+d.h.toInt) (r.y.toInt+r.h.toInt)⟩ := by
    unfold coverBoth rectMake
    rw [if_neg hd, if_neg (by omega)]
    unfold toBox
    dsimp only
    rw [Int16.toInt_ofInt_of_le (by omega) (by omega), Int16.toInt_ofInt_of_le (by omega) (by omega),
      Int16.toInt_ofInt_of_le (by omega) (by omega), Int16.toInt_ofInt_of_le (by omega) (by omega),
      Box.mk.injEq]
    omega
  refine ⟨fun _ => ?_,fun a b hab => ?_⟩
  · rw [hu, hbar, Box.le_def]
    dsimp only
    omega
  · have hle : toBox d ≤ toBox (coverBoth d r) ∧ toBox r ≤ toBox (coverBoth d r) := by
      rw [hu, Box.le_def, Box.le_def]
      unfold toBox
      dsimp only
      omega
    rcases hab with h | h
    · exact covers_box hle.1 h
    · exact covers_box hle.2 h

theorem bandsDrawn_any (area : GfxRect) (bandH : Int16) (o : Outcome) (a b : ℤ) :
    (bandsDrawn bandH area o).any (fun r => decide (r.window.Has a b)) = true ↔
      InBands (bandsDrawn bandH area o) a b := by
  simp [InBands]

/-- A rendering of the two buffers that returns is one step here. -/
theorem renderArea_of_returned {area : GfxRect} {bandH : Int16} (hb : 1 ≤ bandH.toInt)
    {fn : RenderFn} {before : Panel} {n : ℕ} {t : Call} (h : Rendered area bandH fn before n t)
    (hr : Returned t) : ∃ o : Outcome, o.err = t.err ∧
      renderArea bandH fn area o before = t.line.mem := by
  have hpaint : ∀ (o : Outcome), o.left = t.line.mem →
      Painted (InBands (bandsDrawn bandH area o)) fn before t.line.mem →
      renderArea bandH fn area o before = t.line.mem := by
    intro o ho hp
    funext a b
    unfold renderArea
    rw [ho]
    split
    · rename_i hin
      rw [bandsDrawn_any] at hin
      cases hlook : look fn a b with
      | none => rfl
      | some c => exact ((hp a b).1 hin c hlook).symm
    · rename_i hout
      rw [bandsDrawn_any] at hout
      exact ((hp a b).2 hout).symm
  by_cases herr : t.err = .ok
  · refine ⟨⟨t.err,0,t.line.mem⟩,rfl,hpaint _ rfl ?_⟩
    unfold bandsDrawn
    rw [if_pos herr]
    intro a b
    rw [inBands_iff area bandH hb a b]
    exact h.good hr herr a b
  · obtain ⟨k,hk⟩ := h.bad hr
    refine ⟨⟨t.err,k,t.line.mem⟩,rfl,hpaint _ rfl ?_⟩
    unfold bandsDrawn
    rw [if_neg herr]
    exact hk

theorem renderBand_uniform {σ K : Type} (sc : Screens σ K) (glyphs : ℕ → UInt8) (u : Ui σ K) : ∀ f ∈ renderBand sc glyphs u, Uniform f := by
  unfold renderBand
  split
  · exact List.forall_mem_nil _
  · rename_i top rest hs
    dsimp only
    intro f hf
    rcases List.mem_append.mp hf with hf | hf
    · exact statusbar_uniform glyphs u.storage _ f hf
    · rw [List.mem_singleton.mp hf]
      apply clipped_uniform
      intro g hg
      rcases List.mem_append.mp hg with hg | hg
      · split at hg
        · cases hh : rest.head? with
          | none =>
            rw [hh] at hg
            cases hg
          | some k =>
            rw [hh] at hg
            exact sc.uniform k u.state g hg
        · cases hg
      · exact sc.uniform top u.state g hg

theorem renderBand_glyph {σ K : Type} (sc : Screens σ K) (glyphs : ℕ → UInt8) (u : Ui σ K)
    (icon : StarkUiStorageIcon) {a b : ℤ} (hab : Addressable a b)
    (h : ¬uiStatusbarStorageRect.window.Has a b) :
    look (renderBand sc glyphs { u with storage := icon }) a b = look (renderBand sc glyphs u) a b := by
  have hall := renderBand_uniform sc glyphs u
  have hall' := renderBand_uniform sc glyphs { u with storage := icon }
  unfold renderBand at hall hall' ⊢
  dsimp only at hall hall' ⊢
  split
  · rfl
  · rename_i top rest hs
    rw [hs] at hall hall'
    dsimp only at hall hall' ⊢
    rw [look_append (fun f hf => hall' f (List.mem_append_left _ hf))
        (fun f hf => hall' f (List.mem_append_right _ hf)) hab,
      look_append (fun f hf => hall f (List.mem_append_left _ hf))
        (fun f hf => hall f (List.mem_append_right _ hf)) hab,
      statusbar_look glyphs icon u.storage _ hab h]

section
variable {σ K : Type} (sc : Screens σ K) (glyphs : ℕ → UInt8)

def Redraws (u : Ui σ K) : Prop :=
  .popping ∈ u.calls ∨ ∃ k, .pushing k ∈ u.calls ∧ u.stack.head? = some k

/-- The panel shows what the scene has at a point. -/
def Right (u : Ui σ K) (a b : ℤ) : Prop :=
  ∀ c, look (renderBand sc glyphs u) a b = some c → u.panel a b = c

def Fresh (u : Ui σ K) : Prop :=
  ∀ top, u.stack.head? = some top → ∀ a b, (screen displayW displayH).Has a b →
    Covers (u.damage top) a b ∨ u.statusDamage.window.Has a b ∨ u.lost a b = true ∨
      Right sc glyphs u a b

/-- Areas fit the hull, and what a change of state shows at a point of the scene is invalidated,
unless the whole screen is about to be redrawn. -/
def Honest (hull : Box) (u : Ui σ K) : UiAct σ K → Prop
  | .update state areas => (∀ r ∈ areas, Fits hull r.2) ∧
      (Redraws u ∨ ∀ top, u.stack.head? = some top → ∀ a b, (screen displayW displayH).Has a b →
        look (renderBand sc glyphs { u with state := state }) a b = look (renderBand sc glyphs u) a b ∨
          ∃ r ∈ areas, r.1 = top ∧ r.2.window.Has a b)
  | _ => True

structure Sound (hull : Box) (u : Ui σ K) : Prop where
  damage : ∀ k, Tidied hull (u.damage k)
  status : InBar u.statusDamage
  fresh : Redraws u ∨ Fresh sc glyphs u

variable {sc glyphs} {hull : Box} {u : Ui σ K}

theorem boot_sound (state : σ) (before : Panel) : Sound sc glyphs hull (boot (K := K) state before) :=
  ⟨fun _ => tidied_nil hull,fun hne => absurd (show rectEmpty ⟨0,0,0,0⟩ by decide) hne,
    .inr fun _ ht => by cases ht⟩

theorem setStorage_sound (h : Sound sc glyphs hull u) (icon : StarkUiStorageIcon) :
    Sound sc glyphs hull (starkUiStatusSetStorage icon u) := by
  unfold starkUiStatusSetStorage
  split
  · exact h
  · obtain ⟨hbar,hcover⟩ := coverBoth_covers h.status (by decide) storage_inBar
    refine ⟨h.damage,hbar,h.fresh.imp id fun hfresh top ht a b hab => ?_⟩
    by_cases hglyph : uiStatusbarStorageRect.window.Has a b
    · exact .inr (.inl (hcover a b (.inr hglyph)))
    · rcases hfresh top ht a b hab with hc | hs | hl | hright
      · exact .inl hc
      · exact .inr (.inl (hcover a b (.inl hs)))
      · exact .inr (.inr (.inl hl))
      · refine .inr (.inr (.inr fun c hc => hright c ?_))
        rw [← hc]
        exact (renderBand_glyph sc glyphs u icon (addressable_screen hab) hglyph).symm

end

section
variable {σ K : Type} [DecidableEq K] {sc : Screens σ K} {glyphs : ℕ → UInt8} {bandH : Int16}
variable {hull : Box} {u v : Ui σ K}

theorem invalidate_all (hr : Roomy hull) (areas : List (K × GfxRect))
    (hd : ∀ k, Tidied hull (u.damage k)) (hf : ∀ r ∈ areas, Fits hull r.2) :
    ∃ damage, areas.foldl (fun u r => starkUiInvalidate r.1 r.2 u) u = { u with damage := damage } ∧
      (∀ k, Tidied hull (damage k)) ∧
      ∀ k a b, Covers (u.damage k) a b ∨ (∃ r ∈ areas, r.1 = k ∧ r.2.window.Has a b) →
        Covers (damage k) a b := by
  induction areas generalizing u with
  | nil =>
    refine ⟨u.damage,rfl,hd,?_⟩
    rintro k a b (h | ⟨r,hr,-⟩)
    · exact h
    · cases hr
  | cons r areas ih =>
    obtain ⟨htidied,hcovers⟩ := (hd r.1).add hr (hf r List.mem_cons_self)
    have hdamage : ∀ k, Tidied hull ((starkUiInvalidate r.1 r.2 u).damage k) := by
      intro k
      by_cases hk : k = r.1
      · subst hk
        dsimp only [starkUiInvalidate]
        rw [Function.update_self]
        exact htidied
      · dsimp only [starkUiInvalidate]
        rw [Function.update_of_ne hk]
        exact hd k
    obtain ⟨damage,hfold,htidy,hcover⟩ := ih hdamage fun q hq => hf q (List.mem_cons_of_mem _ hq)
    refine ⟨damage,hfold,htidy,?_⟩
    have hfirst : ∀ k a b, Covers (u.damage k) a b ∨ (r.1 = k ∧ r.2.window.Has a b) →
        Covers ((starkUiInvalidate r.1 r.2 u).damage k) a b := by
      intro k a b hk
      by_cases hkr : k = r.1
      · subst hkr
        dsimp only [starkUiInvalidate]
        rw [Function.update_self]
        exact hcovers a b (hk.imp_right And.right)
      · dsimp only [starkUiInvalidate]
        rw [Function.update_of_ne hkr]
        exact hk.resolve_right fun h => hkr h.1.symm
    rintro k a b (h | ⟨q,hq,hqk⟩)
    · exact hcover k a b (.inl (hfirst k a b (.inl h)))
    · rcases List.mem_cons.mp hq with rfl | hq
      · exact hcover k a b (.inl (hfirst k a b (.inr hqk)))
      · exact hcover k a b (.inr ⟨q,hq,hqk⟩)

theorem redrawAll_sound (hr : Roomy hull) (hscreen : screenBox ≤ hull) {k : K}
    (hd : ∀ k, Tidied hull (u.damage k)) (hstatus : InBar u.statusDamage)
    (h : u.stack.head? = some k ∨ Redraws u ∨ Fresh sc glyphs u) :
    Sound sc glyphs hull (redrawAll k u) := by
  obtain ⟨htidied,hcovers⟩ := (tidied_nil hull).add hr (content_fits hscreen)
  have hdamage : ∀ j, Tidied hull ((redrawAll k u).damage j) := by
    intro j
    dsimp only [redrawAll]
    by_cases hj : j = k
    · subst hj
      rw [Function.update_self]
      exact htidied
    · rw [Function.update_of_ne hj]
      exact hd j
  refine ⟨hdamage,fun _ => le_refl _,?_⟩
  have htop : u.stack.head? = some k → Fresh sc glyphs (redrawAll k u) := by
    intro hk top ht a b hab
    obtain rfl : k = top := Option.some.inj (hk.symm.trans ht)
    dsimp only [redrawAll]
    rw [Function.update_self]
    rcases redraw_covers hab with hc | hc
    · exact .inl (hcovers a b (.inr hc))
    · exact .inr (.inl hc)
  rcases h with hk | hredraws | hfresh
  · exact .inr (htop hk)
  · exact .inl hredraws
  · by_cases hk : u.stack.head? = some k
    · exact .inr (htop hk)
    · refine .inr fun top ht a b hab => ?_
      have hne : top ≠ k := fun h => hk (h ▸ ht)
      dsimp only [redrawAll]
      rw [Function.update_of_ne hne]
      rcases hfresh top ht a b hab with hc | hs | hl | hright
      · exact .inl hc
      · exact .inr (.inl (hstatus.covers hs))
      · exact .inr (.inr (.inl hl))
      · exact .inr (.inr (.inr hright))

/-- Of the area of a rectangle, a rendering draws every point or none for sure. -/
theorem renderRect_point (hb : 1 ≤ bandH.toInt) (fn : RenderFn) (outcome : GfxRect → Outcome)
    (p : Panel × (ℤ → ℤ → Bool)) (r : GfxRect) {a b : ℤ} (hab : (screen displayW displayH).Has a b)
    (h : r.window.Has a b ∨ p.2 a b = true ∨ ∀ c, look fn a b = some c → p.1 a b = c) :
    let q := renderRect bandH fn outcome p r
    q.2 a b = true ∨ ∀ c, look fn a b = some c → q.1 a b = c := by
  have hshown : (rectIntersect r screenRect).window.Has a b ↔ r.window.Has a b := by
    rw [rectIntersect_has]
    exact and_iff_left hab
  dsimp only
  unfold renderRect
  dsimp only
  by_cases hin : r.window.Has a b
  · have hne : ¬rectEmpty (rectIntersect r screenRect) :=
      fun hempty => not_has_empty hempty a b (hshown.mpr hin)
    rw [if_neg hne]
    by_cases herr : (outcome (rectIntersect r screenRect)).err = .ok
    · refine .inr fun c hc => ?_
      have hany : (bandsDrawn bandH (rectIntersect r screenRect)
          (outcome (rectIntersect r screenRect))).any (fun q => decide (q.window.Has a b)) = true := by
        rw [bandsDrawn_any, bandsDrawn, if_pos herr]
        exact (inBands_iff _ bandH hb a b).mpr ⟨hshown.mpr hin,hab⟩
      dsimp only [renderArea]
      rw [if_pos hany, hc]
      rfl
    · dsimp only
      rw [if_neg herr]
      simp [hshown.mpr hin]
  · split
    · exact h.resolve_left hin
    · have hout : ¬(bandsDrawn bandH (rectIntersect r screenRect)
          (outcome (rectIntersect r screenRect))).any (fun q => decide (q.window.Has a b)) = true := by
        rw [bandsDrawn_any]
        rintro ⟨band,hband,hbin⟩
        have hall : InBands (displayBands (rectIntersect r screenRect) displayW displayH bandH
            (displayNumBands bandH)) a b := by
          refine ⟨band,?_,hbin⟩
          unfold bandsDrawn at hband
          split at hband
          · exact hband
          · exact List.mem_of_mem_take hband
        exact hin (hshown.mp ((inBands_iff _ bandH hb a b).mp hall).1)
      rcases h.resolve_left hin with hlost | hright
      · refine .inl ?_
        dsimp only
        split
        · simp [hlost, hshown, hin]
        · simp [hlost]
      · refine .inr fun c hc => ?_
        dsimp only [renderArea]
        rw [if_neg hout]
        exact hright c hc

theorem renderRects_point (hb : 1 ≤ bandH.toInt) (fn : RenderFn) (outcome : GfxRect → Outcome)
    (rs : List GfxRect) (p : Panel × (ℤ → ℤ → Bool)) {a b : ℤ}
    (hab : (screen displayW displayH).Has a b)
    (h : Covers rs a b ∨ p.2 a b = true ∨ ∀ c, look fn a b = some c → p.1 a b = c) :
    let q := rs.foldl (renderRect bandH fn outcome) p
    q.2 a b = true ∨ ∀ c, look fn a b = some c → q.1 a b = c := by
  induction rs generalizing p with
  | nil =>
    rcases h with ⟨r,hr,-⟩ | h
    · cases hr
    · exact h
  | cons r rs ih =>
    apply ih
    by_cases hcover : Covers rs a b
    · exact .inl hcover
    · refine .inr (renderRect_point hb fn outcome p r hab ?_)
      rcases h with ⟨q,hq,hqab⟩ | h
      · rcases List.mem_cons.mp hq with rfl | hq
        · exact .inl hqab
        · exact absurd ⟨q,hq,hqab⟩ hcover
      · exact .inr h

theorem tick_top {top : K} {rest : List K} (hs : u.stack = top::rest) (outcome : GfxRect → Outcome) :
    starkUiTick sc glyphs bandH outcome u =
      if uiDamageAdd (u.damage top) u.statusDamage = [] then u
      else { u with
        damage := Function.update u.damage top []
        statusDamage := ⟨0,0,0,0⟩
        panel := ((uiDamageAdd (u.damage top) u.statusDamage).foldl
          (renderRect bandH (renderBand sc glyphs u) outcome) (u.panel,u.lost)).1
        lost := ((uiDamageAdd (u.damage top) u.statusDamage).foldl
          (renderRect bandH (renderBand sc glyphs u) outcome) (u.panel,u.lost)).2 } := by
  unfold starkUiTick
  rw [hs]

/-- A tick leaves nothing to redraw, and the panel right where no rendering failed. -/
theorem tick_fresh (hr : Roomy hull) (hscreen : screenBox ≤ hull) (hb : 1 ≤ bandH.toInt)
    (h : Sound sc glyphs hull u) (hcalls : u.calls = []) (outcome : GfxRect → Outcome) :
    Sound sc glyphs hull (starkUiTick sc glyphs bandH outcome u) ∧
      ∀ top, u.stack.head? = some top → ∀ a b, (screen displayW displayH).Has a b →
        (starkUiTick sc glyphs bandH outcome u).lost a b = true ∨
          Right sc glyphs (starkUiTick sc glyphs bandH outcome u) a b := by
  have hfresh : Fresh sc glyphs u := by
    refine h.fresh.resolve_left ?_
    rintro (hp | ⟨k,hp,-⟩)
    · rw [hcalls] at hp
      cases hp
    · rw [hcalls] at hp
      cases hp
  cases hstack : u.stack with
  | nil =>
    have hkeep : starkUiTick sc glyphs bandH outcome u = u := by
      unfold starkUiTick
      rw [hstack]
    rw [hkeep]
    exact ⟨h,fun top ht => by cases ht⟩
  | cons top rest =>
    have hhead : u.stack.head? = some top := by
      rw [hstack]
      rfl
    obtain ⟨-,hcovers⟩ := (h.damage top).add hr (h.status.fits hscreen)
    have hpoint : ∀ a b, (screen displayW displayH).Has a b →
        Covers (uiDamageAdd (u.damage top) u.statusDamage) a b ∨ u.lost a b = true ∨
          Right sc glyphs u a b := by
      intro a b hab
      rcases hfresh top hhead a b hab with hc | hc | hl
      · exact .inl (hcovers a b (.inl hc))
      · exact .inl (hcovers a b (.inr hc))
      · exact .inr hl
    rw [tick_top hstack]
    split
    · rename_i hnone
      rw [hnone] at hpoint
      refine ⟨h,fun _ _ a b hab => (hpoint a b hab).resolve_left ?_⟩
      rintro ⟨r,hr',-⟩
      cases hr'
    · have hright := fun a b hab => renderRects_point hb (renderBand sc glyphs u) outcome
        (uiDamageAdd (u.damage top) u.statusDamage) (u.panel,u.lost) hab (hpoint a b hab)
      dsimp only at hright
      generalize (uiDamageAdd (u.damage top) u.statusDamage).foldl
        (renderRect bandH (renderBand sc glyphs u) outcome) (u.panel,u.lost) = q at hright ⊢
      refine ⟨⟨fun k => ?_,?_,?_⟩,fun _ _ => hright⟩
      · dsimp only
        by_cases hk : k = top
        · subst hk
          rw [Function.update_self]
          exact tidied_nil hull
        · rw [Function.update_of_ne hk]
          exact h.damage k
      · exact fun hne => absurd (show rectEmpty ⟨0,0,0,0⟩ by decide) hne
      · refine .inr fun _ _ a b hab => ?_
        rcases hright a b hab with hl | hq
        · exact .inr (.inr (.inl hl))
        · exact .inr (.inr (.inr hq))

theorem step_sound (hr : Roomy hull) (hscreen : screenBox ≤ hull) (hb : 1 ≤ bandH.toInt)
    {a : UiAct σ K} (h : Sound sc glyphs hull u) (ha : Honest sc glyphs hull u a)
    (hs : step sc glyphs bandH u a = some v) : Sound sc glyphs hull v := by
  cases a with
  | update state areas =>
    obtain ⟨hfits,hhonest⟩ := ha
    obtain ⟨damage,hfold,htidied,hcovers⟩ := invalidate_all hr areas h.damage hfits
    rw [step, hfold] at hs
    cases hs
    refine ⟨htidied,h.status,?_⟩
    rcases hhonest with hredraws | hhonest
    · exact .inl hredraws
    · refine h.fresh.imp id fun hfresh top ht a b hab => ?_
      rcases hhonest top ht a b hab with hsame | ⟨r,hr',hrtop,hrab⟩
      · rcases hfresh top ht a b hab with hc | hst | hl | hright
        · exact .inl (hcovers top a b (.inl hc))
        · exact .inr (.inl hst)
        · exact .inr (.inr (.inl hl))
        · exact .inr (.inr (.inr fun c hc => hright c (hsame.symm.trans hc)))
      · exact .inl (hcovers top a b (.inr ⟨r,hr',hrtop,hrab⟩))
  | push k =>
    rw [step, starkUiPush] at hs
    split at hs
    · cases hs
      exact h
    split at hs
    · cases hs
      exact h
    split at hs
    · cases hs
      exact h
    · cases hs
      exact ⟨h.damage,h.status,.inl (.inr ⟨k,List.mem_cons_self,rfl⟩)⟩
  | entered =>
    rw [step, starkUiEntered] at hs
    split at hs
    · rename_i k calls hcalls
      cases hs
      refine redrawAll_sound hr hscreen h.damage h.status ?_
      rcases h.fresh with (hp | ⟨j,hj,hjtop⟩) | hfresh
      · rw [hcalls] at hp
        rcases List.mem_cons.mp hp with hp | hp
        · cases hp
        · exact .inr (.inl (.inl hp))
      · rw [hcalls] at hj
        rcases List.mem_cons.mp hj with hj | hj
        · cases hj
          exact .inl hjtop
        · exact .inr (.inl (.inr ⟨j,hj,hjtop⟩))
      · exact .inr (.inr hfresh)
    · cases hs
  | pop =>
    rw [step, starkUiPop] at hs
    split at hs
    · cases hs
      exact ⟨h.damage,h.status,.inl (.inl List.mem_cons_self)⟩
    · cases hs
      exact h
  | left =>
    rw [step, starkUiLeft] at hs
    split at hs
    · rename_i calls top rest hcalls hstack
      cases hs
      refine redrawAll_sound hr hscreen h.damage h.status (.inl ?_)
      rw [hstack]
      rfl
    · cases hs
  | setStorage icon =>
    cases hs
    exact setStorage_sound h icon
  | tick outcome =>
    rw [step] at hs
    split at hs
    · rename_i hcalls
      cases hs
      exact (tick_fresh hr hscreen hb h hcalls outcome).1
    · cases hs

def Succeeds : UiAct σ K → Prop
  | .tick outcome => ∀ area, (outcome area).err = .ok
  | _ => True

theorem renderRects_lost (fn : RenderFn) (outcome : GfxRect → Outcome)
    (ho : ∀ area, (outcome area).err = .ok) (rs : List GfxRect) (p : Panel × (ℤ → ℤ → Bool))
    (hp : ∀ a b, p.2 a b = false) (a b : ℤ) :
    (rs.foldl (renderRect bandH fn outcome) p).2 a b = false := by
  induction rs generalizing p with
  | nil => exact hp a b
  | cons r rs ih =>
    apply ih
    intro x y
    unfold renderRect
    dsimp only
    split
    · exact hp x y
    · dsimp only
      rw [if_pos (ho _), hp x y]
      rfl

theorem invalidates_lost (areas : List (K × GfxRect)) (u : Ui σ K) :
    (areas.foldl (fun u r => starkUiInvalidate r.1 r.2 u) u).lost = u.lost := by
  induction areas generalizing u with
  | nil => rfl
  | cons r areas ih => exact ih _

theorem step_lost {a : UiAct σ K} (ha : Succeeds a) (h : ∀ x y, u.lost x y = false)
    (hs : step sc glyphs bandH u a = some v) : ∀ x y, v.lost x y = false := by
  cases a with
  | update state areas =>
    cases hs
    rw [← invalidates_lost areas u] at h
    exact h
  | push k =>
    cases hs
    unfold starkUiPush
    split_ifs
    all_goals exact h
  | entered =>
    rw [step, starkUiEntered] at hs
    split at hs
    · cases hs
      exact h
    · cases hs
  | pop =>
    cases hs
    unfold starkUiPop
    split
    · exact h
    · exact h
  | left =>
    rw [step, starkUiLeft] at hs
    split at hs
    · cases hs
      exact h
    · cases hs
  | setStorage icon =>
    cases hs
    unfold starkUiStatusSetStorage
    split
    · exact h
    · exact h
  | tick outcome =>
    rw [step] at hs
    split at hs
    · cases hs
      cases hstack : u.stack with
      | nil =>
        unfold starkUiTick
        rw [hstack]
        exact h
      | cons top rest =>
        rw [tick_top hstack]
        split
        · exact h
        · exact renderRects_lost _ outcome ha _ _ h
    · cases hs

theorem run_lost {t : Ui σ K} (as : List (UiAct σ K)) (h : ∀ x y, u.lost x y = false)
    (hs : ∀ a ∈ as, Succeeds a) (hrun : Run (step sc glyphs bandH) (Honest sc glyphs hull) u as t) :
    ∀ x y, t.lost x y = false := by
  induction as generalizing u with
  | nil => exact hrun ▸ h
  | cons a as ih =>
    obtain ⟨-,w,hw,hrest⟩ := hrun
    exact ih (step_lost (hs a List.mem_cons_self) h hw) (fun b hb => hs b (List.mem_cons_of_mem _ hb))
      hrest

theorem tick_shows (hr : Roomy hull) (hscreen : screenBox ≤ hull) (hb : 1 ≤ bandH.toInt)
    (h : Sound sc glyphs hull u) {outcome : GfxRect → Outcome}
    (hs : step sc glyphs bandH u (.tick outcome) = some v) {a b : ℤ}
    (hab : (screen displayW displayH).Has a b) (hlost : v.lost a b = false) :
    ∀ c, look (renderBand sc glyphs v) a b = some c → v.panel a b = c := by
  rw [step] at hs
  split at hs
  · rename_i hcalls
    cases hs
    obtain ⟨-,hright⟩ := tick_fresh hr hscreen hb h hcalls outcome
    cases hstack : u.stack with
    | nil =>
      have hkeep : starkUiTick sc glyphs bandH outcome u = u := by
        unfold starkUiTick
        rw [hstack]
      intro c hc
      rw [hkeep, renderBand, hstack, look_nil (addressable_screen hab)] at hc
      cases hc
    | cons top rest =>
      have hhead : u.stack.head? = some top := by
        rw [hstack]
        rfl
      refine (hright top hhead a b hab).resolve_left fun ht => ?_
      rw [hlost] at ht
      cases ht
  · cases hs

/-- At every moment the panel shows the scene outside the damage that waits, wherever the last
rendering did not fail; after a tick nothing waits. While no rendering has failed, no point is lost. -/
theorem frames_show_scene (hull : Box) (hr : Roomy hull) (hscreen : screenBox ≤ hull)
    (bandH : Int16) (hb : 1 ≤ bandH.toInt) (sc : Screens σ K) (glyphs : ℕ → UInt8) (state : σ)
    (before : Panel) (as : List (UiAct σ K)) (t : Ui σ K)
    (h : Run (step sc glyphs bandH) (Honest sc glyphs hull) (boot state before) as t) :
    (Redraws t ∨ Fresh sc glyphs t) ∧
    (∀ outcome v, step sc glyphs bandH t (.tick outcome) = some v →
      ∀ a b, (screen displayW displayH).Has a b → v.lost a b = false → Right sc glyphs v a b) ∧
    ((∀ a ∈ as, Succeeds a) → ∀ a b, t.lost a b = false) := by
  have hsound : Sound sc glyphs hull t :=
    run_invariant (Sound sc glyphs hull)
      (fun _ _ _ hi ha hs => step_sound hr hscreen hb hi ha hs) as (boot_sound state before) h
  refine ⟨hsound.fresh,fun outcome v hv a b hab hlost => ?_,fun hs => run_lost _ (fun _ _ => rfl) hs h⟩
  exact tick_shows hr hscreen hb hsound hv hab hlost

end

def flag : Screens Bool Unit where
  name _ _ := none
  overlay _ := false
  onRender _ on := [fun s => gfxFill s uiContentRect (if on then 0xFFFF else 0)]
  uniform _ _ f hf := by
    rw [List.mem_singleton.mp hf]
    exact fill32_uniform _ _ _ _ _

def good : UiAct Bool Unit := .tick fun _ => ⟨.ok,0,fun _ _ => 0⟩

def waved : List (UiAct Bool Unit) :=
  [.push (),.entered,good,.update true [((),uiContentRect),((),uiStatusbarRect)]]

theorem waved_honest : ∃ t, Run (step flag (fun _ => 0) 40) (Honest flag (fun _ => 0) screenBox)
    (boot false fun _ _ => 0) waved t ∧ t.state = true ∧ t.calls = [] := by
  refine ⟨_,⟨trivial,_,rfl,trivial,_,rfl,trivial,_,rfl,⟨?_,.inr ?_⟩,_,rfl,rfl⟩,rfl,rfl⟩
  · simp only [List.forall_mem_cons]
    exact ⟨content_fits (le_refl _),InBar.fits (le_refl _) fun _ => le_refl _,
      List.forall_mem_nil _⟩
  · intro top _ a b hab
    refine .inr ?_
    rcases redraw_covers hab with hc | hc
    · exact ⟨_,List.mem_cons_self,rfl,hc⟩
    · exact ⟨_,List.mem_cons_of_mem _ List.mem_cons_self,rfl,hc⟩

theorem frames_show_scene_flag : ∃ t v : Ui Bool Unit, t.state = true ∧ Fresh flag (fun _ => 0) t ∧
    step flag (fun _ => 0) 40 t good = some v ∧
    ∀ a b, (screen displayW displayH).Has a b → Right flag (fun _ => 0) v a b := by
  have hroomy : Roomy screenBox := ⟨by decide,by decide,by decide,by decide⟩
  obtain ⟨t,ht,hstate,hcalls⟩ := waved_honest
  obtain ⟨hfresh,hshows,-⟩ := frames_show_scene screenBox hroomy (le_refl _) 40 (by decide) flag
    (fun _ => 0) false (fun _ _ => 0) _ _ ht
  have hredraws : ¬Redraws t := by
    unfold Redraws
    rw [hcalls]
    simp
  obtain ⟨v,hv⟩ : ∃ v, step flag (fun _ => 0) 40 t good = some v := ⟨_,if_pos hcalls⟩
  have hrun : Run (step flag (fun _ => 0) 40) (Honest flag (fun _ => 0) screenBox)
      (boot false fun _ _ => 0) (waved++[good]) v :=
    (run_append _ _).mpr ⟨t,ht,trivial,v,hv,rfl⟩
  obtain ⟨-,-,hlost⟩ := frames_show_scene screenBox hroomy (le_refl _) 40 (by decide) flag
    (fun _ => 0) false (fun _ _ => 0) _ _ hrun
  refine ⟨t,v,hstate,hfresh.resolve_left hredraws,hv,fun a b hab => hshows _ v hv a b hab (hlost ?_ a b)⟩
  simp only [waved, List.forall_mem_append, List.forall_mem_cons]
  exact ⟨⟨trivial,trivial,fun _ => rfl,trivial,List.forall_mem_nil _⟩,fun _ => rfl,
    List.forall_mem_nil _⟩

end StarkOne.UiFrames
