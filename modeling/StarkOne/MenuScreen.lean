import StarkOne.MenuModel
import StarkOne.UiFrames
import StarkOne.UiStack

/-!
# The list menu on the screen

A menu repaints only the two rows that a move of the selection concerns, the row
whose value was adjusted, or the whole list when the window scrolls. That is all
that changes: each row draws inside its own band of the list, and the scroll bar
covers what a row leaves of its columns.
-/

set_option autoImplicit false

namespace StarkOne.MenuScreen
open StarkOne.Raster StarkOne.Gfx StarkOne.GfxText StarkOne.DisplayBands StarkOne.DisplayRender
open StarkOne.UiDamage StarkOne.UiFrames StarkOne.MenuModel StarkOne.Machine
open StarkOne.UiStack (StarkKey StarkKeyAction)

structure UiMenuItem where
  label : Option (List UInt8)
  disabled : Bool
  header : Bool
  icon : Option (ℕ → UInt8)

structure UiMenu (σ : Type) where
  items : List UiMenuItem
  model : UiMenuModel
  state : σ

structure MenuCalls (σ : Type) where
  value : Option (ℕ → σ → Option (List UInt8))
  adjust : Option (ℕ → ℤ → σ → Bool × σ)
  activates : Bool

def themeBg : UInt16 := gfxRgb565 0 0 0
def themeFg : UInt16 := gfxRgb565 255 255 255
def themeAccent : UInt16 := gfxRgb565 0 128 255
def themeSelBg : UInt16 := themeFg
def themeSelFg : UInt16 := themeBg
def themeDisabled : UInt16 := gfxRgb565 96 96 96
def themeScrollBar : UInt16 := gfxRgb565 64 64 64
def themeScrollThumb : UInt16 := gfxRgb565 200 200 200
def themeRowH : Int16 := 24
def themeTextX : Int16 := 8
def themeRowTextY : Int16 := 4
def themeScrollbarW : Int16 := 4
def themeIconGap : Int16 := 6
def uiMenuIconSize : Int16 := 16

def itemEnabled (items : List UiMenuItem) (i : ℕ) : Bool :=
  items[i]?.any fun it => !it.disabled && !it.header

def visibleRows : ℕ := ((displayH.toInt-themeStatusbarH.toInt)/themeRowH.toInt).toNat

def listRect : GfxRect := ⟨0,themeStatusbarH,displayW,displayH-themeStatusbarH⟩

inductive Buzz where
  | click
  | reject
  deriving DecidableEq

structure Reaction (σ : Type) where
  menu : UiMenu σ
  used : Bool
  areas : List GfxRect
  buzz : Option Buzz
  activated : Option ℕ

section
variable {σ : Type} (calls : MenuCalls σ) (glyphs : ℕ → UInt8) (m : UiMenu σ)

def hasIcons : Bool := m.items.any fun it => it.icon.isSome

def overflows : Bool := visibleRows < m.items.length

def rowTop (i : ℕ) : ℤ := themeStatusbarH.toInt+((i : ℤ)-m.model.top)*themeRowH.toInt

def rowRect (i : ℕ) : GfxRect :=
  ⟨0,Int16.ofInt (rowTop m i),
    Int16.ofInt (displayW.toInt-if overflows m then themeScrollbarW.toInt else 0),themeRowH⟩

def selected (i : ℕ) : Bool := m.model.hasSel && m.model.sel = i

def itemBg (i : ℕ) : UInt16 := if selected m i then themeSelBg else themeBg

def itemFg (i : ℕ) (it : UiMenuItem) : UInt16 :=
  if selected m i then themeSelFg
  else if it.header then themeAccent
  else if it.disabled then themeDisabled
  else themeFg

def textAt (x : Int16) (i : ℕ) (text : Option (List UInt8)) (fg bg : UInt16) : GfxOp :=
  .text (some (gfxFontMono16 glyphs)) x (Int16.ofInt ((rowRect m i).y.toInt+themeRowTextY.toInt)) text
    fg bg true

/-- A row: its bar if it is selected, the icon, the label, and the value at the right. -/
def itemOps (i : ℕ) (it : UiMenuItem) : List GfxOp :=
  let r := rowRect m i
  let bg := itemBg m i
  let fg := itemFg m i it
  let iconed := hasIcons m && !it.header
  (if selected m i then [.fill r bg] else [])++
    (if iconed && it.icon.isSome then
      [.blit themeTextX (Int16.ofInt (r.y.toInt+(themeRowH.toInt-uiMenuIconSize.toInt)/2)) it.icon
        uiMenuIconSize uiMenuIconSize fg bg true] else [])++
    [textAt glyphs m (if iconed then themeTextX+uiMenuIconSize+themeIconGap else themeTextX) i it.label
      fg bg]++
    match calls.value.bind fun value => value i m.state with
    | some value =>
      [textAt glyphs m (Int16.ofInt (r.x.toInt+r.w.toInt-themeTextX.toInt-
        (gfxTextWidth (some (gfxFontMono16 glyphs)) (some value)).toInt)) i (some value) fg bg]
    | none => []

def drawScrollbar : List GfxOp :=
  let list := listRect
  let track : GfxRect := ⟨list.w-themeScrollbarW,list.y,themeScrollbarW,list.h⟩
  let thumbH := list.h.toInt*visibleRows/m.items.length
  let thumbY := list.h.toInt*m.model.top/m.items.length
  [.fill track themeScrollBar,
    .fill ⟨track.x,Int16.ofInt (list.y.toInt+thumbY),themeScrollbarW,
      Int16.ofInt (if thumbH < 4 then 4 else thumbH)⟩ themeScrollThumb]

def shownItems : List ℕ :=
  List.range' m.model.top (min m.items.length (m.model.top+visibleRows)-m.model.top)

def menuOps : List GfxOp :=
  .fill listRect themeBg::
    if m.items = [] then
      [.text (some (gfxFontMono16 glyphs)) themeTextX (themeStatusbarH+themeRowTextY)
        (some [0x28,0x65,0x6D,0x70,0x74,0x79,0x29]) themeDisabled themeBg true]
    else
      ((shownItems m).flatMap fun i => m.items[i]?.elim [] (itemOps calls glyphs m i))++
        if overflows m then drawScrollbar m else []

def drawOps (ops : List GfxOp) : RenderFn := ops.map fun op s => op.run s

def menuRender : RenderFn := drawOps (menuOps calls glyphs m)

/-- The two rows involved, or everything if the window scrolled. -/
def selectionChanged (oldSel oldTop : ℕ) : Reaction σ :=
  ⟨m,true,if m.model.top ≠ oldTop then [listRect] else [rowRect m oldSel,rowRect m m.model.sel],
    some .click,none⟩

def ignored : Reaction σ := ⟨m,true,[],none,none⟩

def refused : Reaction σ := ⟨m,true,[],some .reject,none⟩

def vertical (delta : ℤ) : Reaction σ :=
  let (model,moved) := uiMenuModelMove m.model delta
  if moved then selectionChanged { m with model := model } m.model.sel m.model.top
  else ignored { m with model := model }

def horizontal (dir : ℤ) : Reaction σ :=
  match calls.adjust with
  | some adjust =>
    if m.model.hasSel then
      let (changed,state) := adjust m.model.sel dir m.state
      if changed then
        ⟨{ m with state := state },true,[rowRect m m.model.sel],some .click,none⟩
      else refused { m with state := state }
    else refused m
  | none =>
    let (model,moved) := uiMenuModelPage m.model dir
    if moved then selectionChanged { m with model := model } m.model.sel m.model.top
    else refused { m with model := model }

def menuEvent (key : StarkKey) (action : StarkKeyAction) : Reaction σ :=
  let pressOrRepeat := action = .press ∨ action = .repeated
  match key with
  | .up => if pressOrRepeat then vertical m (-1) else ignored m
  | .down => if pressOrRepeat then vertical m 1 else ignored m
  | .left => if pressOrRepeat then horizontal calls m (-1) else ignored m
  | .right => if pressOrRepeat then horizontal calls m 1 else ignored m
  | .ok =>
    if action ≠ .short then ignored m
    else if !m.model.hasSel then refused m
    else { ignored m with activated := if calls.activates then some m.model.sel else none }
  | .back => { ignored m with used := false }

def withItems (items : List UiMenuItem) : UiMenu σ :=
  { m with items := items, model := { m.model with enabled := some (itemEnabled items) } }

def uiMenuInit (items : List UiMenuItem) (state : σ) : UiMenu σ :=
  ⟨items,uiMenuModelInit items.length visibleRows (some (itemEnabled items)),state⟩

/-- The selection stays where it is if it can, and else goes to the next item that it can. -/
def uiMenuRefresh : UiMenu σ :=
  let (model,has) :=
    if m.model.hasSel && !itemEnabled m.items m.model.sel then uiMenuModelMove m.model 1
    else (m.model,m.model.hasSel)
  if has then { m with model := model } else uiMenuInit m.items m.state

end

def Between (lo hi : ℤ) (op : GfxOp) : Prop :=
  ∀ a b, Addressable a b → ¬(lo ≤ b ∧ b < hi) → look [fun s => op.run s] a b = none

theorem drawOps_uniform (ops : List GfxOp) : ∀ f ∈ drawOps ops, Uniform f := by
  intro f hf
  obtain ⟨op,-,rfl⟩ := List.mem_map.mp hf
  exact run_uniform op

theorem look_ops_append (ops ops' : List GfxOp) {a b : ℤ} (hab : Addressable a b) :
    look (drawOps (ops++ops')) a b = (look (drawOps ops') a b).or (look (drawOps ops) a b) := by
  rw [drawOps, List.map_append]
  exact look_append (drawOps_uniform ops) (drawOps_uniform ops') hab

theorem look_ops_cons (op : GfxOp) (ops : List GfxOp) {a b : ℤ} (hab : Addressable a b) :
    look (drawOps (op::ops)) a b = (look (drawOps ops) a b).or (look [fun s => op.run s] a b) :=
  look_ops_append [op] ops hab

theorem look_ops_between {lo hi : ℤ} {ops : List GfxOp} (h : ∀ op ∈ ops, Between lo hi op) {a b : ℤ}
    (hab : Addressable a b) (hout : ¬(lo ≤ b ∧ b < hi)) : look (drawOps ops) a b = none := by
  induction ops with
  | nil => exact look_nil hab
  | cons op ops ih =>
    rw [look_ops_cons op ops hab, ih fun o ho => h o (List.mem_cons_of_mem _ ho),
      h op List.mem_cons_self a b hab hout]
    rfl

theorem look_fill (r : GfxRect) (colour : UInt16) {a b : ℤ} (hab : Addressable a b) :
    look [fun s => (GfxOp.fill r colour).run s] a b = if r.window.Has a b then some colour else none :=
  look_draw (fun s => fill32_draw s _ _ _ _ colour) hab

theorem fill_between {r : GfxRect} {lo hi : ℤ} (hlo : lo ≤ r.y.toInt)
    (hhi : r.y.toInt+r.h.toInt ≤ hi) (colour : UInt16) : Between lo hi (.fill r colour) := by
  intro a b hab hout
  rw [look_fill r colour hab]
  apply if_neg
  unfold Window.Has GfxRect.window
  dsimp only
  omega

theorem blit_between {x y w h : Int16} {lo hi : ℤ} (hlo : lo ≤ y.toInt)
    (hhi : y.toInt+h.toInt ≤ hi) (bits : Option (ℕ → UInt8)) (fg bg : UInt16) (transparent : Bool) :
    Between lo hi (.blit x y bits w h fg bg transparent) := by
  intro a b hab hout
  cases bits with
  | none => exact look_draw (fun s => (draw_none s).symm) hab
  | some bits =>
    refine (look_draw (fun s => blit_draw s x y bits w h fg bg transparent) hab).trans (if_neg ?_)
    unfold Window.Has
    dsimp only
    omega

theorem drawRun_rows (f : GfxFont) (y : Int16) (str : List UInt8) (fin : Option ℕ) (fg bg : UInt16)
    (transparent : Bool) (p : ℕ) (pen : ℤ) :
    ∃ q : Paint UInt16, (∀ s, drawRun f y str fin fg bg transparent s p pen = draw s q) ∧
      ∀ a b, ¬(y.toInt ≤ b ∧ b < y.toInt+f.h.toUInt16.toInt16.toInt) → q a b = none := by
  induction hn : str.length-p using Nat.strongRecOn generalizing p pen with | ind n ih =>
  subst hn
  by_cases h : byte str p ≠ 0 ∧ fin.all (p < ·) ∧ pen ≤ GfxText.int16Max
  · obtain ⟨q,hq,hrows⟩ := ih _ (nextCp_shrinks h.1) (nextCp str p).2 (pen+f.w.toNat) rfl
    let cell : Window := ⟨(Int16.ofInt pen).toInt,y.toInt,f.w.toUInt16.toInt16.toInt,
      f.h.toUInt16.toInt16.toInt⟩
    refine ⟨atop (within cell (image (Int16.ofInt pen) y (glyphBits f (nextCp str p).1)
      f.w.toUInt16.toInt16 fg bg transparent)) q,fun s => ?_,?_⟩
    · rw [drawRun, dif_pos h]
      dsimp only
      rw [hq, blit_draw, draw_atop]
    · intro a b hout
      unfold atop
      rw [hrows a b hout]
      exact if_neg fun hin => hout ⟨hin.2.2.1,hin.2.2.2⟩
  · refine ⟨fun _ _ => none,fun s => ?_,fun _ _ _ => rfl⟩
    rw [drawRun, dif_neg h, draw_none]

theorem text_between {y : Int16} {lo hi : ℤ} (hlo : lo ≤ y.toInt) (hhi : y.toInt+16 ≤ hi)
    (glyphs : ℕ → UInt8) (x : Int16) (text : Option (List UInt8)) (fg bg : UInt16)
    (transparent : Bool) :
    Between lo hi (.text (some (gfxFontMono16 glyphs)) x y text fg bg transparent) := by
  intro a b hab hout
  cases text with
  | none => exact look_draw (fun s => (draw_none s).symm) hab
  | some str =>
    have hh : (gfxFontMono16 glyphs).h.toUInt16.toInt16.toInt = 16 := by
      show (16 : UInt8).toUInt16.toInt16.toInt = 16
      decide
    obtain ⟨q,hq,hrows⟩ := drawRun_rows (gfxFontMono16 glyphs) y str none fg bg transparent 0 x.toInt
    refine (look_draw hq hab).trans (hrows a b ?_)
    omega

section
variable {σ : Type} {calls : MenuCalls σ} {glyphs : ℕ → UInt8} {m : UiMenu σ}

def InView (m : UiMenu σ) (i : ℕ) : Prop := m.model.top ≤ i ∧ i < m.model.top+visibleRows

theorem rowTop_bounds {i : ℕ} (h : InView m i) : 16 ≤ rowTop m i ∧ rowTop m i ≤ 208 := by
  have hrows : visibleRows = 9 := by decide
  have hbar : themeStatusbarH.toInt = 16 := by decide
  have hrow : themeRowH.toInt = 24 := by decide
  obtain ⟨hlo,hhi⟩ := h
  unfold rowTop
  rw [hbar, hrow]
  omega

theorem rowRect_y {i : ℕ} (h : InView m i) : (rowRect m i).y.toInt = rowTop m i := by
  obtain ⟨hlo,hhi⟩ := rowTop_bounds h
  exact Int16.toInt_ofInt_of_le (by omega) (by omega)

theorem rowRect_h (m : UiMenu σ) (i : ℕ) : (rowRect m i).h.toInt = 24 := by
  show themeRowH.toInt = 24
  decide

theorem textAt_between {i : ℕ} (h : InView m i) (x : Int16) (text : Option (List UInt8))
    (fg bg : UInt16) : Between (rowTop m i) (rowTop m i+24) (textAt glyphs m x i text fg bg) := by
  obtain ⟨hlo,hhi⟩ := rowTop_bounds h
  have hy : (Int16.ofInt ((rowRect m i).y.toInt+themeRowTextY.toInt)).toInt = rowTop m i+4 := by
    rw [rowRect_y h, show themeRowTextY.toInt = 4 by decide]
    exact Int16.toInt_ofInt_of_le (by omega) (by omega)
  apply text_between
  · omega
  · omega

theorem itemOps_between {i : ℕ} (h : InView m i) (it : UiMenuItem) :
    ∀ op ∈ itemOps calls glyphs m i it, Between (rowTop m i) (rowTop m i+24) op := by
  obtain ⟨hlo,hhi⟩ := rowTop_bounds h
  have hrect := rowRect_y h
  have hheight := rowRect_h m i
  intro op hop
  unfold itemOps at hop
  simp only [List.mem_append] at hop
  rcases hop with ((hop | hop) | hop) | hop
  · split at hop
    · rw [List.mem_singleton.mp hop]
      exact fill_between (by omega) (by omega) _
    · cases hop
  · split at hop
    · rw [List.mem_singleton.mp hop]
      have hy : (Int16.ofInt ((rowRect m i).y.toInt+(themeRowH.toInt-uiMenuIconSize.toInt)/2)).toInt =
          rowTop m i+4 := by
        rw [hrect, show (themeRowH.toInt-uiMenuIconSize.toInt)/2 = 4 by decide]
        exact Int16.toInt_ofInt_of_le (by omega) (by omega)
      have hicon : uiMenuIconSize.toInt = 16 := by decide
      exact blit_between (by omega) (by omega) _ _ _ _
    · cases hop
  · rw [List.mem_singleton.mp hop]
    exact textAt_between h _ _ _ _
  · split at hop
    · rw [List.mem_singleton.mp hop]
      exact textAt_between h _ _ _ _
    · cases hop

theorem scrollbar_look (m : UiMenu σ) {a b : ℤ} (hab : Addressable a b)
    (ha : 316 ≤ a ∧ a < 320) (hb : 16 ≤ b ∧ b < 240) : (look (drawOps (drawScrollbar m)) a b).isSome := by
  unfold drawScrollbar
  dsimp only
  rw [look_ops_cons _ _ hab]
  have htrack : look [fun s => (GfxOp.fill ⟨listRect.w-themeScrollbarW,listRect.y,themeScrollbarW,
      listRect.h⟩ themeScrollBar).run s] a b = some themeScrollBar := by
    rw [look_fill _ _ hab]
    apply if_pos
    have hx : (listRect.w-themeScrollbarW).toInt = 316 := by decide
    have hy : listRect.y.toInt = 16 := by decide
    have hw : themeScrollbarW.toInt = 4 := by decide
    have hh : listRect.h.toInt = 224 := by decide
    unfold Window.Has GfxRect.window
    dsimp only
    omega
  rw [htrack]
  generalize look _ a b = above
  cases above with
  | none => rfl
  | some c => rfl

theorem look_shown_congr (items items' : ℕ → List GfxOp) (is : List ℕ) {a b : ℤ} (hab : Addressable a b)
    (h : ∀ i ∈ is, look (drawOps (items i)) a b = look (drawOps (items' i)) a b) :
    look (drawOps (is.flatMap items)) a b = look (drawOps (is.flatMap items')) a b := by
  induction is with
  | nil => rfl
  | cons i is ih =>
    rw [List.flatMap_cons, List.flatMap_cons, look_ops_append _ _ hab, look_ops_append _ _ hab,
      h i List.mem_cons_self, ih fun j hj => h j (List.mem_cons_of_mem _ hj)]

structure Differ (calls : MenuCalls σ) (rows : List ℕ) (m m' : UiMenu σ) : Prop where
  items : m'.items = m.items
  top : m'.model.top = m.model.top
  view : ∀ i ∈ rows, InView m i
  same : ∀ i, i ∉ rows → selected m' i = selected m i ∧
    (calls.value.bind fun value => value i m'.state) = calls.value.bind fun value => value i m.state

theorem Differ.rowRect {rows : List ℕ} {m m' : UiMenu σ} (h : Differ calls rows m m') (i : ℕ) :
    rowRect m' i = rowRect m i := by
  unfold MenuScreen.rowRect rowTop overflows
  rw [h.items, h.top]

theorem Differ.itemOps {rows : List ℕ} {m m' : UiMenu σ} (h : Differ calls rows m m') {i : ℕ}
    (hi : i ∉ rows) (it : UiMenuItem) : itemOps calls glyphs m' i it = itemOps calls glyphs m i it := by
  obtain ⟨hsel,hvalue⟩ := h.same i hi
  unfold MenuScreen.itemOps itemBg itemFg hasIcons textAt
  rw [hsel, hvalue, h.rowRect, h.items]

theorem rowRect_has (m : UiMenu σ) {i : ℕ} (hi : InView m i) {a b : ℤ}
    (hab : (screen displayW displayH).Has a b) :
    (MenuScreen.rowRect m i).window.Has a b ↔
      (rowTop m i ≤ b ∧ b < rowTop m i+24) ∧ (overflows m = true → a < 316) := by
  have hy := rowRect_y hi
  have hh := rowRect_h m i
  have hx : (MenuScreen.rowRect m i).x.toInt = 0 := Int16.toInt_zero
  have hw : (MenuScreen.rowRect m i).w.toInt = if overflows m then 316 else 320 := by
    unfold MenuScreen.rowRect
    dsimp only
    split
    · decide
    · decide
  have hright : displayW.toInt = 320 := by decide
  obtain ⟨ha,ha',-,-⟩ := hab
  unfold screen at ha ha'
  unfold Window.Has GfxRect.window
  dsimp only at *
  split at hw
  · rename_i hover
    rw [hover]
    simp only [true_implies]
    omega
  · rename_i hover
    rw [Bool.not_eq_true] at hover
    rw [hover]
    simp only [Bool.false_eq_true, false_implies, and_true]
    omega

theorem Differ.look {rows : List ℕ} {m m' : UiMenu σ} (h : Differ calls rows m m') {a b : ℤ}
    (hab : (screen displayW displayH).Has a b)
    (hout : ∀ i ∈ rows, ¬(MenuScreen.rowRect m i).window.Has a b) :
    look (menuRender calls glyphs m') a b = look (menuRender calls glyphs m) a b := by
  have haddr := addressable_screen hab
  have hshown : shownItems m' = shownItems m := by
    unfold shownItems
    rw [h.items, h.top]
  have hbar : drawScrollbar m' = drawScrollbar m := by
    unfold drawScrollbar
    rw [h.items, h.top]
  have hover : overflows m' = overflows m := by
    unfold overflows
    rw [h.items]
  unfold menuRender menuOps
  rw [look_ops_cons _ _ haddr, look_ops_cons _ _ haddr, h.items, hshown, hbar, hover]
  split
  · rfl
  rw [look_ops_append _ _ haddr, look_ops_append _ _ haddr]
  by_cases hcovered : overflows m = true ∧ 316 ≤ a ∧ 16 ≤ b ∧ b < 240
  · obtain ⟨hyes,ha,hb⟩ := hcovered
    have hright : displayW.toInt = 320 := by decide
    obtain ⟨-,ha',-,-⟩ := hab
    unfold screen at ha'
    dsimp only at ha'
    obtain ⟨c,hc⟩ := Option.isSome_iff_exists.mp (scrollbar_look m haddr ⟨ha,by omega⟩ hb)
    simp only [hyes, hc, if_true, Option.some_or]
  · rw [look_shown_congr _ _ _ haddr]
    intro i hi
    cases m.items[i]? with
    | none => rw [Option.elim_none, Option.elim_none]
    | some it =>
      rw [Option.elim_some, Option.elim_some]
      by_cases hrow : i ∈ rows
      · have hview := h.view i hrow
        have hview' : InView m' i := by
          unfold InView
          rw [h.top]
          exact hview
        have htop : rowTop m' i = rowTop m i := by
          unfold rowTop
          rw [h.top]
        obtain ⟨hlo,hhi⟩ := rowTop_bounds hview
        have hrows : ¬(rowTop m i ≤ b ∧ b < rowTop m i+24) := by
          intro hin
          refine hout i hrow ((rowRect_has m hview hab).mpr ⟨hin,fun hyes => ?_⟩)
          by_contra ha
          exact hcovered ⟨hyes,by omega⟩
        rw [look_ops_between (itemOps_between hview it) haddr hrows,
          look_ops_between (itemOps_between hview' it) haddr (by rw [htop]; exact hrows)]
      · rw [h.itemOps hrow]

end

end StarkOne.MenuScreen
