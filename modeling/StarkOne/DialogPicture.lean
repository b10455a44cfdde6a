import StarkOne.MenuScreen
import StarkOne.TextWrap
import StarkOne.Utf8Copy

/-!
# The picture of a dialog

A dialog is laid out for its title and message and then drawn over whatever the
screen beneath shows. Nothing of a text leaves the rectangle it was given, so
the key hint is always the key hint, whatever the message says.
-/

set_option autoImplicit false

namespace StarkOne.DialogPicture
open StarkOne.Raster StarkOne.Gfx StarkOne.GfxText StarkOne.TextWrap StarkOne.DisplayRender
open StarkOne.UiDamage StarkOne.UiFrames StarkOne.MenuScreen StarkOne.Utf8Copy

def uiDialogW : Int16 := 280
def uiDialogBorder : ℕ := 2
def uiDialogPad : ℕ := 6
def uiDialogMaxLines : Int16 := 4
def uiDialogTitleMax : ℕ := 32
def uiDialogMsgMax : ℕ := 160

def gfxFontMono10 (bits : ℕ → UInt8) : GfxFont := ⟨6,10,0x20,0x17F,0x3F,bits⟩

structure UiDialogLayout where
  box : GfxRect
  title : GfxRect
  body : GfxRect
  hint : GfxRect
  lines : Int16
  titleBytes : ℕ

def skipConts (s : List UInt8) (p : ℕ) : ℕ :=
  if h : byte s p &&& 0xC0 = 0x80 then skipConts s (p+1) else p
termination_by s.length-p
decreasing_by
  have hne : byte s p ≠ 0 := fun h0 => absurd (h0 ▸ h) (by decide)
  have := byte_lt hne
  omega

def fittingFrom (s : List UInt8) : ℕ → ℕ → ℕ
  | 0, p => p
  | cols+1, p => if byte s p = 0 then p else fittingFrom s cols (skipConts s (p+1))

def fittingPrefix (f : GfxFont) (s : List UInt8) (maxW : Int16) : ℕ :=
  fittingFrom s (maxW.toInt.tdiv f.w.toNat).toNat 0

def inset : ℤ := uiDialogBorder+uiDialogPad

def dialogWidth (content : GfxRect) : Int16 :=
  if content.w < uiDialogW then content.w else uiDialogW

def innerWidth (content : GfxRect) : Int16 := Int16.ofInt ((dialogWidth content).toInt-2*inset)

def placeDialog (titleH rowH hintH : UInt8) (content : GfxRect) (lines : Int16) (titleBytes : ℕ) :
    UiDialogLayout :=
  let w := dialogWidth content
  let innerW := innerWidth content
  let bodyH := Int16.ofInt (lines.toInt*rowH.toNat)
  let gap : ℤ := if 0 < lines then uiDialogPad else 0
  let h := Int16.ofInt (2*inset+titleH.toNat+uiDialogPad+bodyH.toInt+gap+hintH.toNat)
  let x := Int16.ofInt (content.x.toInt+(content.w.toInt-w.toInt).tdiv 2)
  let y := Int16.ofInt (content.y.toInt+(content.h.toInt-h.toInt).tdiv 2)
  let left := Int16.ofInt (x.toInt+inset)
  let titleY := Int16.ofInt (y.toInt+inset)
  let bodyY := Int16.ofInt (titleY.toInt+titleH.toNat+uiDialogPad)
  { box := ⟨x,y,w,h⟩
    title := ⟨left,titleY,innerW,titleH.toUInt16.toInt16⟩
    body := ⟨left,bodyY,innerW,bodyH⟩
    hint := ⟨left,Int16.ofInt (bodyY.toInt+bodyH.toInt+gap),innerW,hintH.toUInt16.toInt16⟩
    lines := lines
    titleBytes := titleBytes }

def dialogLines (bodyFont : GfxFont) (message : List UInt8) (content : GfxRect) : Int16 :=
  let lines := gfxTextLines (some bodyFont) (some message) (innerWidth content)
  if uiDialogMaxLines < lines then uiDialogMaxLines else lines

def uiDialogLayout (titleFont bodyFont hintFont : GfxFont) (title message : Option (List UInt8))
    (content : GfxRect) : UiDialogLayout :=
  placeDialog titleFont.h bodyFont.h hintFont.h content (dialogLines bodyFont (message.getD []) content)
    (fittingPrefix titleFont (title.getD []) (innerWidth content))

/-- What the dialog draws: the texts are NUL-terminated in their buffers. -/
structure DialogView where
  alert : Bool
  title : List UInt8
  message : List UInt8
  lay : UiDialogLayout

def cString (buffer : List UInt8) : List UInt8 := buffer.takeWhile (· ≠ 0)

section
variable (glyphs16 glyphs10 : ℕ → UInt8)

/-- A dialog opens over the one that was shown last. -/
def openView (last : DialogView) (alert : Bool) (title : List UInt8) (message : Option (List UInt8)) :
    DialogView :=
  let title := (uiUtf8Copy last.title uiDialogTitleMax (some title)).1
  let message := (uiUtf8Copy last.message uiDialogMsgMax message).1
  { alert := alert
    title := title
    message := message
    lay := uiDialogLayout (gfxFontMono16 glyphs16) (gfxFontMono16 glyphs16) (gfxFontMono10 glyphs10)
      (some (cString title)) (some (cString message)) uiContentRect }

def hintText (alert : Bool) : List UInt8 :=
  (if alert then "OK: close" else "OK: confirm  BACK: cancel").toList.map fun c => UInt8.ofNat c.toNat

def borderOps (box : GfxRect) : List GfxOp :=
  (List.range uiDialogBorder).map fun i =>
    .rect ⟨Int16.ofInt (box.x.toInt+i),Int16.ofInt (box.y.toInt+i),Int16.ofInt (box.w.toInt-2*i),
      Int16.ofInt (box.h.toInt-2*i)⟩ themeAccent

def shownTitle (v : DialogView) (stack : List UInt8) : List UInt8 :=
  cString (uiUtf8Copy stack
    (if v.lay.titleBytes+1 < uiDialogTitleMax then v.lay.titleBytes+1 else uiDialogTitleMax)
    (some (cString v.title))).1

def titleOp (v : DialogView) (stack : List UInt8) : GfxOp :=
  .text (some (gfxFontMono16 glyphs16)) v.lay.title.x v.lay.title.y (some (shownTitle v stack)) themeFg
    themeBg true

def bodyOp (v : DialogView) : GfxOp :=
  .textBox (some (gfxFontMono16 glyphs16)) v.lay.body 0 (some (cString v.message)) themeFg themeBg true

def hintOp (v : DialogView) : GfxOp :=
  .text (some (gfxFontMono10 glyphs10)) v.lay.hint.x v.lay.hint.y (some (hintText v.alert))
    themeDisabled themeBg true

def dialogOps (v : DialogView) (stack : List UInt8) : List GfxOp :=
  .fill v.lay.box themeBg::borderOps v.lay.box++titleOp glyphs16 v stack::
    (if 0 < v.lay.lines then [bodyOp glyphs16 v] else [])++[hintOp glyphs10 v]

def dialogRender (v : DialogView) (stack : List UInt8) : RenderFn :=
  drawOps (dialogOps glyphs16 glyphs10 v stack)

end

def Inside (r : Window) (op : GfxOp) : Prop :=
  ∀ a b, Addressable a b → ¬r.Has a b → look [fun s => op.run s] a b = none

theorem nextCp_conts (str : List UInt8) (p i : ℕ) (hlo : p < i) (hhi : i < (nextCp str p).2) :
    byte str i &&& 0xC0 = 0x80 := by
  have hseq : ∀ (extra : ℕ) (cp : UInt8) (n : ℕ),
      (continued str extra (p+1) cp.toUInt32 = none → n = p+1) →
      (∀ c, continued str extra (p+1) cp.toUInt32 = some c → n = p+1 ∨ n = p+extra+1) →
      i < n → byte str i &&& 0xC0 = 0x80 := by
    intro extra cp n hnone hsome hi
    cases hc : continued str extra (p+1) cp.toUInt32 with
    | none =>
      have := hnone hc
      omega
    | some c =>
      rcases hsome c hc with hn | hn
      · omega
      · have hbyte := continued_bytes extra hc (i-(p+1)) (by omega)
        rwa [show p+1+(i-(p+1)) = i by omega] at hbyte
  have hends : ∀ (q : Prop) [Decidable q] (cp : UInt32) (m n : ℕ),
      (if q then (badCp,m) else (cp,n)).2 = m ∨ (if q then (badCp,m) else (cp,n)).2 = n := by
    intro q _ cp m n
    split
    · exact .inl rfl
    · exact .inr rfl
  unfold nextCp at hhi
  dsimp only at hhi
  split at hhi
  · exact absurd hhi (by dsimp only; omega)
  split at hhi
  · exact hseq 1 (byte str p &&& 0x1F) _ (fun hc => by rw [hc])
      (fun c hc => by rw [hc]; exact hends _ _ _ _) hhi
  split at hhi
  · exact hseq 2 (byte str p &&& 0x0F) _ (fun hc => by rw [hc])
      (fun c hc => by rw [hc]; exact hends _ _ _ _) hhi
  split at hhi
  · exact hseq 3 (byte str p &&& 0x07) _ (fun hc => by rw [hc])
      (fun c hc => by rw [hc]; exact hends _ _ _ _) hhi
  · exact absurd hhi (by dsimp only; omega)

theorem nextCp_le {str : List UInt8} {p n : ℕ} (hp : p < n) (hend : byte str n = 0) :
    (nextCp str p).2 ≤ n := by
  by_contra hover
  have hcont := nextCp_conts str p n hp (by omega)
  rw [hend] at hcont
  exact absurd hcont (by decide)

theorem byte_toInt (b : UInt8) : b.toUInt16.toInt16.toInt = b.toNat := by
  have hb := b.toNat_lt
  have h : b.toUInt16.toBitVec.toInt = b.toNat := by
    rw [BitVec.toInt_eq_toNat_of_lt]
    · simp
    · simp
      omega
  exact h

theorem drawRun_inside (f : GfxFont) (y : Int16) (str : List UInt8) (fg bg : UInt16)
    (transparent : Bool) {n : ℕ} (hend : byte str n = 0) (p : ℕ) (pen : ℤ) (hp : p ≤ n)
    (hlo : -2^15 ≤ pen) (hhi : pen+f.w.toNat*(n-p : ℕ) < 2^15) :
    ∃ q : Paint UInt16, (∀ s, drawRun f y str none fg bg transparent s p pen = draw s q) ∧
      ∀ a b, ¬(Window.mk pen y.toInt (f.w.toNat*(n-p : ℕ)) f.h.toNat).Has a b → q a b = none := by
  induction hn : n-p using Nat.strongRecOn generalizing p pen with | ind k ih =>
  subst hn
  by_cases h : byte str p ≠ 0 ∧ (none : Option ℕ).all (p < ·) ∧ pen ≤ GfxText.int16Max
  · have hlt : p < n := lt_of_le_of_ne hp fun hsame => h.1 (hsame ▸ hend)
    have hnext := nextCp_le hlt hend
    have hmore := nextCp_lt str p
    obtain ⟨d,hd⟩ : ∃ d, n-p = (n-(nextCp str p).2)+1+d := ⟨n-p-((n-(nextCp str p).2)+1),by omega⟩
    have hwide : (f.w.toNat : ℤ)*(n-p : ℕ) =
        f.w.toNat*(n-(nextCp str p).2 : ℕ)+f.w.toNat+f.w.toNat*d := by
      rw [hd, Int.natCast_add, Int.natCast_add, Int.mul_add, Int.mul_add, Int.natCast_one, Int.mul_one]
    have hmoved := Int.mul_nonneg (Int.natCast_nonneg f.w.toNat) (Int.natCast_nonneg d)
    have hrest := Int.mul_nonneg (Int.natCast_nonneg f.w.toNat)
      (Int.natCast_nonneg (n-(nextCp str p).2))
    obtain ⟨q,hq,hin⟩ := ih _ (by omega) (nextCp str p).2 (pen+f.w.toNat) hnext (by omega) (by omega) rfl
    have hpen : (Int16.ofInt pen).toInt = pen := Int16.toInt_ofInt_of_le (by omega) (by omega)
    refine ⟨atop (within ⟨(Int16.ofInt pen).toInt,y.toInt,f.w.toUInt16.toInt16.toInt,
      f.h.toUInt16.toInt16.toInt⟩ (image (Int16.ofInt pen) y (glyphBits f (nextCp str p).1)
      f.w.toUInt16.toInt16 fg bg transparent)) q,fun s => ?_,?_⟩
    · rw [drawRun, dif_pos h]
      dsimp only
      rw [hq, blit_draw, draw_atop]
    · intro a b hout
      unfold Window.Has at hout hin
      dsimp only at hout hin
      unfold atop
      rw [hin a b (by omega)]
      refine if_neg ?_
      rw [byte_toInt, byte_toInt, hpen]
      unfold Window.Has
      dsimp only
      omega
  · refine ⟨fun _ _ => none,fun s => ?_,fun _ _ _ => rfl⟩
    rw [drawRun, dif_neg h, draw_none]

theorem byte_end (str : List UInt8) : byte str str.length = 0 :=
  List.getD_eq_default _ _ (Nat.le_refl _)

theorem text_inside (f : GfxFont) {x y : Int16} {str : List UInt8} {r : Window}
    (hx : r.x = x.toInt) (hy : r.y = y.toInt) (hw : f.w.toNat*str.length ≤ r.w) (hh : f.h.toNat ≤ r.h)
    (hfits : r.x+r.w < 2^15) (fg bg : UInt16) (transparent : Bool) :
    Inside r (.text (some f) x y (some str) fg bg transparent) := by
  intro a b hab hout
  have hlow := x.le_toInt
  obtain ⟨q,hq,hin⟩ := drawRun_inside f y str fg bg transparent (byte_end str) 0 x.toInt (Nat.zero_le _)
    hlow (by rw [Nat.sub_zero]; omega)
  refine (look_draw hq hab).trans (hin a b ?_)
  rw [Nat.sub_zero]
  unfold Window.Has at hout ⊢
  dsimp only
  omega

theorem textBox_inside (f : GfxFont) (box : GfxRect) (lineGap : Int16) (str : List UInt8)
    (fg bg : UInt16) (transparent : Bool) :
    Inside box.window (.textBox (some f) box lineGap (some str) fg bg transparent) := by
  intro a b hab hout
  by_cases hempty : box.w.toInt ≤ 0 ∨ box.h.toInt ≤ 0
  · refine look_draw (p := fun _ _ => none) (fun s => ?_) hab
    show (gfxTextBox s _ _ _ _ _ _ _).1 = _
    unfold gfxTextBox
    dsimp only
    rw [if_pos hempty, draw_none]
  · obtain ⟨q,n,hq⟩ := boxLines_uniform f box (f.h.toNat+lineGap.toInt) str fg bg transparent 0
      box.y.toInt 0
    refine (look_draw (p := within box.window q) (fun s => ?_) hab).trans (if_neg hout)
    show (gfxTextBox s _ _ _ _ _ _ _).1 = _
    unfold gfxTextBox
    dsimp only
    rw [if_neg hempty, hq]
    exact draw_narrowed s box q

def hollow (r : GfxRect) : Window := ⟨r.x.toInt+1,r.y.toInt+1,r.w.toInt-2,r.h.toInt-2⟩

theorem look_rect {r : GfxRect} (hw : 1 < r.w.toInt) (hh : 2 < r.h.toInt) (colour : UInt16) {a b : ℤ}
    (hab : Addressable a b) : look [fun s => (GfxOp.rect r colour).run s] a b =
      if r.window.Has a b ∧ ¬(hollow r).Has a b then some colour else none := by
  have hdraw : ∀ s, (GfxOp.rect r colour).run s = draw s
      (atop (solid ⟨r.x.toInt,r.y.toInt,r.w.toInt,1⟩ colour)
        (atop (solid ⟨r.x.toInt,r.y.toInt+r.h.toInt-1,r.w.toInt,1⟩ colour)
          (atop (solid ⟨r.x.toInt,r.y.toInt+1,1,r.h.toInt-2⟩ colour)
            (solid ⟨r.x.toInt+r.w.toInt-1,r.y.toInt+1,1,r.h.toInt-2⟩ colour)))) := by
    intro s
    show gfxRect s r colour = _
    unfold gfxRect
    dsimp only
    rw [if_neg (by omega), if_pos hh, if_pos hw, if_pos (by omega), fill32_draw, fill32_draw, fill32_draw,
      fill32_draw, draw_atop, draw_atop, draw_atop]
  rw [look_draw hdraw hab]
  unfold atop solid within
  dsimp only
  have hwindow : ∀ x y w h : ℤ, (Window.mk x y w h).Has a b ↔
      x ≤ a ∧ a < x+w ∧ y ≤ b ∧ b < y+h := fun _ _ _ _ => Iff.rfl
  unfold hollow GfxRect.window
  simp only [hwindow]
  split_ifs
  all_goals first | rfl | omega

section
variable (glyphs16 glyphs10 : ℕ → UInt8)

theorem dialogLines_spec (message : List UInt8) : ∃ ls n,
    Wrapped (gfxFontMono16 glyphs16) message 264 0 ls ∧
      (∀ l ∈ ls, l.Sound message (columns (gfxFontMono16 glyphs16) 264)) ∧ n = min ls.length 4 ∧
      dialogLines (gfxFontMono16 glyphs16) message uiContentRect = Int16.ofNat n := by
  have hfont : (gfxFontMono16 glyphs16).w ≠ 0 := by
    show (8 : UInt8) ≠ 0
    decide
  obtain ⟨ls,hwrapped,hsound⟩ : ∃ ls, Wrapped (gfxFontMono16 glyphs16) message 264 0 ls ∧
      ∀ l ∈ ls, l.Sound message (columns (gfxFontMono16 glyphs16) 264) :=
    wrapped_exists hfont (.nil 0)
  have hmax : GfxText.int16Max.toNat = 32767 := rfl
  have hcount := linesFrom_eq hwrapped GfxText.int16Max.toNat
  have hlines : (Int16.ofNat (min ls.length 32767)).toInt = (min ls.length 32767 : ℕ) :=
    Int16.toInt_ofNat_of_lt (by omega)
  refine ⟨ls,_,hwrapped,hsound,rfl,?_⟩
  have hwidth : innerWidth uiContentRect = 264 := by decide
  unfold dialogLines gfxTextLines
  rw [hwidth]
  dsimp only
  rw [hcount, hmax]
  have hfour : uiDialogMaxLines.toInt = 4 := by decide
  by_cases hmany : 4 < ls.length
  · rw [if_pos (Int16.lt_iff_toInt_lt.mpr (by omega)), Nat.min_eq_right (by omega)]
    rfl
  · rw [if_neg (fun h => by have := Int16.lt_iff_toInt_lt.mp h; omega), Nat.min_eq_left (by omega),
      Nat.min_eq_left (by omega)]

def dialogH (n : ℕ) : ℤ := 48+16*n+if 0 < n then 6 else 0

def dialogTop (n : ℕ) : ℤ := 16+(224-dialogH n)/2

structure Placed (n : ℕ) (lay : UiDialogLayout) : Prop where
  box : lay.box.window = ⟨20,dialogTop n,280,dialogH n⟩
  title : lay.title.window = ⟨28,dialogTop n+8,264,16⟩
  body : lay.body.window = ⟨28,dialogTop n+30,264,16*n⟩
  hint : lay.hint.window = ⟨28,dialogTop n+30+16*n+(if 0 < n then 6 else 0),264,10⟩
  lines : lay.lines = Int16.ofNat n

theorem placeDialog_windows : ∀ n < 5,
    let lay := placeDialog 16 16 10 uiContentRect (Int16.ofNat n) 0
    lay.box.window = ⟨20,dialogTop n,280,dialogH n⟩ ∧ lay.title.window = ⟨28,dialogTop n+8,264,16⟩ ∧
      lay.body.window = ⟨28,dialogTop n+30,264,16*n⟩ ∧
      lay.hint.window = ⟨28,dialogTop n+30+16*n+(if 0 < n then 6 else 0),264,10⟩ := by
  decide +kernel

theorem layout_placed (title message : List UInt8) : ∃ ls n,
    Wrapped (gfxFontMono16 glyphs16) message 264 0 ls ∧
      (∀ l ∈ ls, l.Sound message (columns (gfxFontMono16 glyphs16) 264)) ∧ n = min ls.length 4 ∧
      Placed n (uiDialogLayout (gfxFontMono16 glyphs16) (gfxFontMono16 glyphs16)
        (gfxFontMono10 glyphs10) (some title) (some message) uiContentRect) := by
  obtain ⟨ls,n,hwrapped,hsound,hn,hlines⟩ := dialogLines_spec glyphs16 message
  obtain ⟨hbox,htitle,hbody,hhint⟩ := placeDialog_windows n (by omega)
  refine ⟨ls,n,hwrapped,hsound,hn,?_⟩
  unfold uiDialogLayout
  dsimp only [Option.getD_some]
  rw [hlines]
  exact ⟨hbox,htitle,hbody,hhint,rfl⟩

end

theorem fitting_le (cap : ℕ) (src : List UInt8) :
    fitting cap src ≤ cap-1 ∧ fitting cap src ≤ src.length := by
  have hdrop := (dropConts_spec src (cap-1)).1
  unfold fitting
  dsimp only
  split_ifs
  all_goals omega

theorem takeWhile_le {l : List UInt8} {n : ℕ} (h : l[n]? = some 0 ∨ l.length ≤ n) :
    (cString l).length ≤ n := by
  unfold cString
  induction l generalizing n with
  | nil => exact Nat.zero_le n
  | cons x l ih =>
    cases n with
    | zero =>
      rcases h with h | h
      · obtain rfl := Option.some.inj h
        simp
      · simp at h
    | succ n =>
      rw [List.takeWhile_cons]
      split
      · exact Nat.succ_le_succ (ih (h.imp_right Nat.le_of_succ_le_succ))
      · exact Nat.zero_le _

theorem copy_length (dst : List UInt8) (cap : ℕ) (src : Option (List UInt8)) :
    (cString (uiUtf8Copy dst cap src).1).length ≤ cap-1 := by
  obtain ⟨hcap,hlen⟩ := fitting_le cap (src.getD [])
  refine le_trans (takeWhile_le (n := fitting cap (src.getD [])) ?_) hcap
  unfold uiUtf8Copy
  dsimp only
  by_cases hroom : fitting cap (src.getD []) < dst.length
  · left
    rw [List.getElem?_set_self]
    rw [List.length_append, List.length_take, List.length_drop]
    omega
  · right
    rw [List.length_set, List.length_append, List.length_take, List.length_drop]
    omega

theorem cString_free (buffer : List UInt8) : ∀ b ∈ cString buffer, b ≠ 0 := by
  intro b hb
  simpa using List.all_eq_true.mp List.all_takeWhile b hb

theorem copy_whole {dst src : List UInt8} {cap : ℕ} (hsrc : ∀ b ∈ src, b ≠ 0)
    (hcap : src.length < cap) (hdst : src.length < dst.length) :
    cString (uiUtf8Copy dst cap (some src)).1 = src := by
  have hfit : fitting cap src = src.length := by
    unfold fitting
    dsimp only
    rw [if_neg (by omega)]
  obtain ⟨x,rest,hrest⟩ : ∃ x rest, dst.drop src.length = x::rest :=
    List.exists_cons_of_length_pos (by rw [List.length_drop]; omega)
  unfold uiUtf8Copy cString
  dsimp only [Option.getD_some]
  rw [hfit, List.take_length, hrest, List.set_append_right _ _ (le_refl _), Nat.sub_self,
    List.set_cons_zero, List.takeWhile_append_of_pos (by simpa using hsrc), List.takeWhile_cons_of_neg
      (by simp), List.append_nil]

theorem byte_ne {s : List UInt8} (hs : ∀ b ∈ s, b ≠ 0) {p : ℕ} (hp : p < s.length) : byte s p ≠ 0 := by
  unfold byte
  rw [List.getD_eq_getElem _ _ hp]
  exact hs _ (List.getElem_mem hp)

theorem skipConts_le {s : List UInt8} {p : ℕ} (hp : p ≤ s.length) :
    p ≤ skipConts s p ∧ skipConts s p ≤ s.length := by
  induction hn : s.length-p using Nat.strongRecOn generalizing p with | ind n ih =>
  subst hn
  rw [skipConts]
  split
  · rename_i hcont
    have hne : byte s p ≠ 0 := fun h0 => absurd (h0 ▸ hcont) (by decide)
    have hlt := byte_lt hne
    obtain ⟨hlo,hhi⟩ := ih _ (by omega) (p := p+1) hlt rfl
    exact ⟨by omega,hhi⟩
  · exact ⟨le_refl p,hp⟩

theorem fittingFrom_whole {s : List UInt8} (hs : ∀ b ∈ s, b ≠ 0) (cols p : ℕ) (hp : p ≤ s.length)
    (hcols : s.length ≤ p+cols) : fittingFrom s cols p = s.length := by
  induction cols generalizing p with
  | zero => exact Nat.le_antisymm hp hcols
  | succ cols ih =>
    rw [fittingFrom]
    by_cases hend : p = s.length
    · subst hend
      rw [if_pos (byte_end s)]
    · have hlt : p < s.length := lt_of_le_of_ne hp hend
      obtain ⟨hlo,hhi⟩ := skipConts_le (s := s) (p := p+1) hlt
      rw [if_neg (byte_ne hs hlt)]
      exact ih _ hhi (by omega)

section
variable (glyphs16 glyphs10 : ℕ → UInt8)

theorem shownTitle_whole (last : DialogView) (alert : Bool) (title : List UInt8)
    (message : Option (List UInt8)) {stack : List UInt8} (hstack : stack.length = uiDialogTitleMax) :
    shownTitle (openView glyphs16 glyphs10 last alert title message) stack =
      cString (openView glyphs16 glyphs10 last alert title message).title := by
  have hlen : (cString (uiUtf8Copy last.title uiDialogTitleMax (some title)).1).length ≤ 31 :=
    copy_length _ _ _
  have hbytes : (openView glyphs16 glyphs10 last alert title message).lay.titleBytes =
      (cString (uiUtf8Copy last.title uiDialogTitleMax (some title)).1).length := by
    have hcols : ((innerWidth uiContentRect).toInt.tdiv (gfxFontMono16 glyphs16).w.toNat).toNat =
        33 := by
      show ((innerWidth uiContentRect).toInt.tdiv (8 : UInt8).toNat).toNat = 33
      decide
    unfold openView uiDialogLayout placeDialog fittingPrefix
    dsimp only [Option.getD_some]
    rw [hcols]
    exact fittingFrom_whole (cString_free _) 33 0 (Nat.zero_le _) (by omega)
  have hmax : uiDialogTitleMax = 32 := rfl
  unfold shownTitle
  rw [hbytes]
  show cString (uiUtf8Copy stack _ (some (cString (uiUtf8Copy last.title uiDialogTitleMax
    (some title)).1))).1 = _
  refine copy_whole (cString_free _) ?_ (by omega)
  split
  · omega
  · omega

def innerBox (box : GfxRect) : Window :=
  ⟨box.x.toInt+uiDialogBorder,box.y.toInt+uiDialogBorder,box.w.toInt-2*uiDialogBorder,
    box.h.toInt-2*uiDialogBorder⟩

def dialogPicture (v : DialogView) (stack : List UInt8) : Paint UInt16 := fun a b =>
  let text := fun op : GfxOp => (look [fun s => op.run s] a b).getD themeBg
  if ¬v.lay.box.window.Has a b then none
  else if ¬(innerBox v.lay.box).Has a b then some themeAccent
  else if v.lay.title.window.Has a b then some (text (titleOp glyphs16 v stack))
  else if v.lay.body.window.Has a b then some (text (bodyOp glyphs16 v))
  else if v.lay.hint.window.Has a b then some (text (hintOp glyphs10 v))
  else some themeBg

theorem window_eq {r : GfxRect} {x y w h : ℤ} (hr : r.window = ⟨x,y,w,h⟩) :
    r.x.toInt = x ∧ r.y.toInt = y ∧ r.w.toInt = w ∧ r.h.toInt = h := by
  unfold GfxRect.window at hr
  injection hr with h1 h2 h3 h4
  exact ⟨h1,h2,h3,h4⟩

theorem dialogH_bounds {n : ℕ} (hn : n ≤ 4) : 48 ≤ dialogH n ∧ dialogH n ≤ 118 ∧
    69 ≤ dialogTop n ∧ dialogTop n ≤ 104 := by
  unfold dialogTop dialogH
  split <;> omega

theorem look_border {box : GfxRect} {n : ℕ} (hn : n ≤ 4)
    (hbox : box.window = ⟨20,dialogTop n,280,dialogH n⟩) {a b : ℤ} (hab : Addressable a b) :
    look (drawOps (borderOps box)) a b =
      if box.window.Has a b ∧ ¬(innerBox box).Has a b then some themeAccent else none := by
  obtain ⟨hx,hy,hw,hh⟩ := window_eq hbox
  obtain ⟨hlo,hhi,htop,htop'⟩ := dialogH_bounds hn
  have hrect : ∀ i : ℕ, i < 2 → look [fun s => (GfxOp.rect ⟨Int16.ofInt (box.x.toInt+i),
      Int16.ofInt (box.y.toInt+i),Int16.ofInt (box.w.toInt-2*i),Int16.ofInt (box.h.toInt-2*i)⟩
      themeAccent).run s] a b =
      if (Window.mk (20+i) (dialogTop n+i) (280-2*i) (dialogH n-2*i)).Has a b ∧
        ¬(Window.mk (21+i) (dialogTop n+1+i) (278-2*i) (dialogH n-2-2*i)).Has a b then some themeAccent
      else none := by
    intro i hi
    have hxi : (Int16.ofInt (20+i)).toInt = 20+i := Int16.toInt_ofInt_of_le (by omega) (by omega)
    have hyi : (Int16.ofInt (dialogTop n+i)).toInt = dialogTop n+i :=
      Int16.toInt_ofInt_of_le (by omega) (by omega)
    have hwi : (Int16.ofInt (280-2*i)).toInt = 280-2*i := Int16.toInt_ofInt_of_le (by omega) (by omega)
    have hhi : (Int16.ofInt (dialogH n-2*i)).toInt = dialogH n-2*i :=
      Int16.toInt_ofInt_of_le (by omega) (by omega)
    rw [hx, hy, hw, hh, look_rect (by dsimp only; omega) (by dsimp only; omega) _ hab]
    unfold hollow GfxRect.window Window.Has
    dsimp only
    rw [hxi, hyi, hwi, hhi]
    refine if_congr (and_congr Iff.rfl (not_congr ?_)) rfl rfl
    omega
  have hops : borderOps box = [.rect ⟨Int16.ofInt (box.x.toInt+(0 : ℕ)),
      Int16.ofInt (box.y.toInt+(0 : ℕ)),Int16.ofInt (box.w.toInt-2*(0 : ℕ)),
      Int16.ofInt (box.h.toInt-2*(0 : ℕ))⟩ themeAccent,.rect ⟨Int16.ofInt (box.x.toInt+(1 : ℕ)),
      Int16.ofInt (box.y.toInt+(1 : ℕ)),Int16.ofInt (box.w.toInt-2*(1 : ℕ)),
      Int16.ofInt (box.h.toInt-2*(1 : ℕ))⟩ themeAccent] := rfl
  have hnone : look (drawOps []) a b = none := look_nil hab
  rw [hops, look_ops_cons _ _ hab, look_ops_cons _ _ hab, hrect 0 (by omega), hrect 1 (by omega), hnone,
    hbox]
  unfold innerBox uiDialogBorder Window.Has
  dsimp only
  rw [hx, hy, hw, hh]
  push_cast
  split_ifs
  all_goals first | rfl | omega

theorem title_inside {v : DialogView} {n : ℕ} (hn : n ≤ 4) (h : Placed n v.lay) (stack : List UInt8) :
    Inside v.lay.title.window (titleOp glyphs16 v stack) := by
  obtain ⟨hlo,hhi,htop,htop'⟩ := dialogH_bounds hn
  have hlen : (shownTitle v stack).length ≤ 31 := by
    refine le_trans (copy_length _ _ _) ?_
    have hmax : uiDialogTitleMax = 32 := rfl
    split <;> omega
  have hwide : (gfxFontMono16 glyphs16).w.toNat = 8 := rfl
  have hhigh : (gfxFontMono16 glyphs16).h.toNat = 16 := rfl
  have hwindow := h.title
  obtain ⟨hx,hy,hw,hh⟩ := window_eq hwindow
  refine text_inside _ rfl rfl ?_ ?_ ?_ _ _ _
  · rw [hwide, hwindow]
    dsimp only
    omega
  · rw [hhigh, hwindow]
    dsimp only
    omega
  · rw [hwindow]
    dsimp only
    omega

theorem hintText_length (alert : Bool) : (hintText alert).length ≤ 25 := by
  cases alert <;> decide

theorem hint_inside {v : DialogView} {n : ℕ} (h : Placed n v.lay) :
    Inside v.lay.hint.window (hintOp glyphs10 v) := by
  have hlen := hintText_length v.alert
  have hwide : (gfxFontMono10 glyphs10).w.toNat = 6 := rfl
  have hhigh : (gfxFontMono10 glyphs10).h.toNat = 10 := rfl
  have hwindow := h.hint
  refine text_inside _ rfl rfl ?_ ?_ ?_ _ _ _
  · rw [hwide, hwindow]
    dsimp only
    omega
  · rw [hhigh, hwindow]
    dsimp only
    omega
  · rw [hwindow]
    dsimp only
    omega

theorem body_inside (v : DialogView) : Inside v.lay.body.window (bodyOp glyphs16 v) :=
  textBox_inside _ _ _ _ _ _ _

theorem look_body {v : DialogView} {n : ℕ} (hn : n ≤ 4) (h : Placed n v.lay) {a b : ℤ}
    (hab : Addressable a b) : look (drawOps (if 0 < v.lay.lines then [bodyOp glyphs16 v] else [])) a b =
      look [fun s => (bodyOp glyphs16 v).run s] a b := by
  split
  · rfl
  · rename_i hno
    have hzero : n = 0 := by
      by_contra hne
      apply hno
      rw [h.lines, Int16.lt_iff_toInt_lt, Int16.toInt_ofNat_of_lt (by omega), Int16.toInt_zero]
      omega
    have hempty : ¬v.lay.body.window.Has a b := by
      rw [h.body]
      unfold Window.Has
      dsimp only
      omega
    rw [body_inside glyphs16 v a b hab hempty]
    exact look_nil hab

structure Apart (lay : UiDialogLayout) (a b : ℤ) : Prop where
  title : lay.title.window.Has a b →
    (innerBox lay.box).Has a b ∧ ¬lay.body.window.Has a b ∧ ¬lay.hint.window.Has a b
  body : lay.body.window.Has a b →
    (innerBox lay.box).Has a b ∧ ¬lay.title.window.Has a b ∧ ¬lay.hint.window.Has a b
  hint : lay.hint.window.Has a b →
    (innerBox lay.box).Has a b ∧ ¬lay.title.window.Has a b ∧ ¬lay.body.window.Has a b
  inner : (innerBox lay.box).Has a b → lay.box.window.Has a b

theorem placed_apart {lay : UiDialogLayout} {n : ℕ} (h : Placed n lay) (a b : ℤ) : Apart lay a b := by
  obtain ⟨gap,hgap,hlow⟩ : ∃ gap : ℤ, (if 0 < n then 6 else 0) = gap ∧ 0 ≤ gap := by
    split
    · exact ⟨6,rfl,by decide⟩
    · exact ⟨0,rfl,le_refl 0⟩
  have hheight : dialogH n = 48+16*n+gap := by rw [← hgap]; rfl
  obtain ⟨hx,hy,hw,hh⟩ := window_eq h.box
  have hinner : innerBox lay.box = ⟨22,dialogTop n+2,276,dialogH n-4⟩ := by
    unfold innerBox uiDialogBorder
    rw [hx, hy, hw, hh]
    rfl
  have hhint := h.hint
  rw [hgap] at hhint
  constructor
  all_goals
    rw [hinner]
    try rw [h.title]
    try rw [h.body]
    try rw [hhint]
    try rw [h.box]
    unfold Window.Has
    dsimp only
    omega

theorem look_dialog {v : DialogView} {n : ℕ} (hn : n ≤ 4) (h : Placed n v.lay) (stack : List UInt8)
    {a b : ℤ} (hab : Addressable a b) :
    look (dialogRender glyphs16 glyphs10 v stack) a b = dialogPicture glyphs16 glyphs10 v stack a b := by
  have htitle := title_inside glyphs16 hn h stack a b hab
  have hbody := body_inside glyphs16 v a b hab
  have hhint := hint_inside glyphs10 h a b hab
  obtain ⟨atitle,abody,ahint,ainner⟩ := placed_apart h a b
  have hops : dialogOps glyphs16 glyphs10 v stack = [.fill v.lay.box themeBg]++(borderOps v.lay.box++
      ([titleOp glyphs16 v stack]++((if 0 < v.lay.lines then [bodyOp glyphs16 v] else [])++
        [hintOp glyphs10 v]))) := by
    unfold dialogOps
    simp only [List.cons_append, List.nil_append, List.append_assoc]
  unfold dialogRender
  rw [hops, look_ops_append _ _ hab, look_ops_append _ _ hab, look_ops_append _ _ hab,
    look_ops_append _ _ hab, look_body glyphs16 hn h hab, look_border hn h.box hab]
  have hfill : look (drawOps [.fill v.lay.box themeBg]) a b =
      if v.lay.box.window.Has a b then some themeBg else none := look_fill _ _ hab
  rw [hfill]
  unfold dialogPicture
  dsimp only
  change ¬v.lay.title.window.Has a b → look (drawOps [titleOp glyphs16 v stack]) a b = none at htitle
  change ¬v.lay.hint.window.Has a b → look (drawOps [hintOp glyphs10 v]) a b = none at hhint
  show _ = if _ then _ else if _ then _ else if _ then some ((look (drawOps [titleOp glyphs16 v stack])
    a b).getD themeBg) else if _ then _ else if _ then some ((look (drawOps [hintOp glyphs10 v]) a b).getD
    themeBg) else _
  by_cases hinner : (innerBox v.lay.box).Has a b
  · have hbox := ainner hinner
    rw [if_neg (fun hno => hno.2 hinner), if_pos hbox, if_neg (not_not.mpr hbox),
      if_neg (not_not.mpr hinner)]
    by_cases hat : v.lay.title.window.Has a b
    · obtain ⟨-,hnb,hnh⟩ := atitle hat
      rw [hbody hnb, hhint hnh, if_pos hat]
      cases look (drawOps [titleOp glyphs16 v stack]) a b <;> rfl
    rw [htitle hat, if_neg hat]
    by_cases hab : v.lay.body.window.Has a b
    · rw [hhint (abody hab).2.2, if_pos hab]
      cases look [fun s => (bodyOp glyphs16 v).run s] a b <;> rfl
    rw [hbody hab, if_neg hab]
    by_cases hah : v.lay.hint.window.Has a b
    · rw [if_pos hah]
      cases look (drawOps [hintOp glyphs10 v]) a b <;> rfl
    · rw [hhint hah, if_neg hah]
      rfl
  · rw [htitle fun hat => hinner (atitle hat).1, hbody fun hat => hinner (abody hat).1,
      hhint fun hat => hinner (ahint hat).1]
    by_cases hbox : v.lay.box.window.Has a b
    · rw [if_pos ⟨hbox,hinner⟩, if_neg (not_not.mpr hbox), if_pos hinner]
      rfl
    · rw [if_neg fun hno => hbox hno.1, if_neg hbox, if_pos hbox]
      rfl

theorem look_textBox {f : GfxFont} {box : GfxRect} {str : List UInt8} {ls : List Line}
    (h : Wrapped f str box.w 0 ls) (lineGap : Int16) (fg bg : UInt16) (transparent : Bool) {a b : ℤ}
    (hab : Addressable a b) (hin : box.window.Has a b) :
    look [fun s => (GfxOp.textBox (some f) box lineGap (some str) fg bg transparent).run s] a b =
      look [fun s => drawRows f box.x.toInt (rowStep f lineGap) fg bg transparent s box.y.toInt
        (ls.take (rowsFit f.h.toNat (rowStep f lineGap) box.h.toInt))] a b := by
  have huniform : Uniform fun s => drawRows f box.x.toInt (rowStep f lineGap) fg bg transparent s
      box.y.toInt (ls.take (rowsFit f.h.toNat (rowStep f lineGap) box.h.toInt)) :=
    drawRows_uniform _ _ _ _
  obtain ⟨q,hq⟩ := huniform
  dsimp only at hq
  have hbox : ∀ s, (GfxOp.textBox (some f) box lineGap (some str) fg bg transparent).run s =
      draw s (within box.window q) := by
    intro s
    show (gfxTextBox s _ _ _ _ _ _ _).1 = _
    rw [textBox_rows h, hq, draw_narrowed]
  rw [look_draw hbox hab, look_draw hq hab]
  exact if_pos hin

theorem body_rows {v : DialogView} {n : ℕ} (hn : n ≤ 4) (h : Placed n v.lay) {ls : List Line}
    (hwrapped : Wrapped (gfxFontMono16 glyphs16) (cString v.message) 264 0 ls) {a b : ℤ}
    (hab : Addressable a b) (hin : v.lay.body.window.Has a b) :
    look [fun s => (bodyOp glyphs16 v).run s] a b = look [fun s => drawRows (gfxFontMono16 glyphs16) 28
      16 themeFg themeBg true s (dialogTop n+30) (ls.take n)] a b := by
  obtain ⟨hx,hy,hw,hh⟩ := window_eq h.body
  have hwidth : v.lay.body.w = 264 := Int16.toInt_inj.mp hw
  have hstep : rowStep (gfxFontMono16 glyphs16) 0 = 16 := rfl
  have hrows : rowsFit (gfxFontMono16 glyphs16).h.toNat 16 (16*n) = n := by
    show rowsFit 16 16 _ = n
    unfold rowsFit
    split <;> omega
  have hbody : Wrapped (gfxFontMono16 glyphs16) (cString v.message) v.lay.body.w 0 ls :=
    hwidth ▸ hwrapped
  have hlook := look_textBox hbody 0 themeFg themeBg true hab hin
  rw [hx, hy, hh, hstep, hrows] at hlook
  exact hlook

/-- A dialog has the same picture whatever the screen beneath shows: border, title, message and hint
have places of their own in a box in the content area, the title is never cut, and the message shows
its lines down to the fourth. -/
theorem dialog_picture (last : DialogView) (alert : Bool) (title : List UInt8)
    (message : Option (List UInt8)) (stack : List UInt8) (hstack : stack.length = uiDialogTitleMax) :
    let v := openView glyphs16 glyphs10 last alert title message
    (∀ a b, Addressable a b →
      look (dialogRender glyphs16 glyphs10 v stack) a b = dialogPicture glyphs16 glyphs10 v stack a b) ∧
    (∀ a b, Apart v.lay a b ∧ (v.lay.box.window.Has a b → uiContentRect.window.Has a b)) ∧
    shownTitle v stack = cString v.title ∧
    ∃ ls n, Wrapped (gfxFontMono16 glyphs16) (cString v.message) 264 0 ls ∧
      (∀ l ∈ ls, l.Sound (cString v.message) (columns (gfxFontMono16 glyphs16) 264)) ∧
      n = min ls.length 4 ∧ v.lay.body.window = ⟨28,dialogTop n+30,264,16*n⟩ ∧
      ∀ a b, Addressable a b → v.lay.body.window.Has a b →
        look [fun s => (bodyOp glyphs16 v).run s] a b = look [fun s => drawRows
          (gfxFontMono16 glyphs16) 28 16 themeFg themeBg true s (dialogTop n+30) (ls.take n)] a b := by
  intro v
  obtain ⟨ls,n,hwrapped,hsound,hn,hplaced⟩ := layout_placed glyphs16 glyphs10 (cString v.title)
    (cString v.message)
  change Placed n v.lay at hplaced
  have hfour : n ≤ 4 := hn ▸ Nat.min_le_right _ _
  refine ⟨fun a b hab => look_dialog glyphs16 glyphs10 hfour hplaced stack hab,
    fun a b => ⟨placed_apart hplaced a b,fun hin => ?_⟩,
    shownTitle_whole glyphs16 glyphs10 last alert title message hstack,ls,n,hwrapped,hsound,hn,
    hplaced.body,fun a b hab hin => body_rows glyphs16 hfour hplaced hwrapped hab hin⟩
  obtain ⟨hlo,hhi,htop,-⟩ := dialogH_bounds hfour
  have hcontent : uiContentRect.window = ⟨0,16,320,224⟩ := by decide
  have hdef : dialogTop n = 16+(224-dialogH n)/2 := rfl
  rw [hplaced.box] at hin
  rw [hcontent]
  unfold Window.Has at hin ⊢
  dsimp only at hin ⊢
  omega

end

def never : DialogView :=
  ⟨false,List.replicate 32 0,List.replicate 160 0,⟨⟨0,0,0,0⟩,⟨0,0,0,0⟩,⟨0,0,0,0⟩,⟨0,0,0,0⟩,0,0⟩⟩

def fiveLines : List UInt8 := [0x31,0x0A,0x32,0x0A,0x33,0x0A,0x34,0x0A,0x35]

def counting : DialogView := openView (fun _ => 0) (fun _ => 0) never true [0x48,0x69] (some fiveLines)

/-- Of five lines the first four are shown. -/
theorem dialog_picture_five : shownTitle counting (List.replicate 32 0xFF) = cString counting.title ∧
    ∃ ls, Wrapped (gfxFontMono16 fun _ => 0) fiveLines 264 0 ls ∧ ls.length = 5 ∧
      counting.lay.body.window = ⟨28,dialogTop 4+30,264,64⟩ ∧
      ∀ a b, Addressable a b → counting.lay.body.window.Has a b →
        look [fun s => (bodyOp (fun _ => 0) counting).run s] a b = look [fun s => drawRows
          (gfxFontMono16 fun _ => 0) 28 16 themeFg themeBg true s (dialogTop 4+30) (ls.take 4)] a b := by
  obtain ⟨-,-,htitle,ls,n,hwrapped,-,hn,hbody,hrows⟩ := dialog_picture (fun _ => 0) (fun _ => 0) never
    true [0x48,0x69] (some fiveLines) (List.replicate 32 0xFF) rfl
  have hmessage : cString counting.message = fiveLines := by decide +kernel
  have hlines : linesFrom (gfxFontMono16 fun _ => 0) fiveLines 264 9 0 = 5 := by decide +kernel
  change Wrapped _ (cString counting.message) _ _ _ at hwrapped
  rw [hmessage] at hwrapped
  have hlen : ls.length = 5 := by
    have hcount := linesFrom_eq hwrapped 9
    omega
  obtain rfl : n = 4 := by
    rw [hn, hlen]
    rfl
  exact ⟨htitle,ls,hwrapped,hlen,hbody,hrows⟩

end StarkOne.DialogPicture
