import Mathlib.Data.List.GetD
import StarkOne.Gfx

/-!
# Text in cells

A string is its bytes; after the last of them comes the NUL it ends with, and
positions count from its start. Each code point takes a cell of the font, and
so does each byte that is no part of one.
-/

set_option autoImplicit false

namespace StarkOne.GfxText
open StarkOne.Raster StarkOne.Gfx

structure GfxFont where
  w : UInt8
  h : UInt8
  first : UInt32
  last : UInt32
  fallback : UInt32
  bits : ℕ → UInt8

def byte (str : List UInt8) (p : ℕ) : UInt8 := str.getD p 0

def badCp : UInt32 := 0xFFFFFFFF

def int16Max : ℤ := 32767

/-- The continuation bytes of a sequence, or none if one of them is missing. -/
def continued (str : List UInt8) : ℕ → ℕ → UInt32 → Option UInt32
  | 0, _, cp => some cp
  | extra+1, p, cp =>
    if byte str p &&& 0xC0 ≠ 0x80 then none
    else continued str extra (p+1) (cp <<< 6 ||| (byte str p &&& 0x3F).toUInt32)

def nextCp (str : List UInt8) (p : ℕ) : UInt32 × ℕ :=
  let lead := byte str p
  let sequence := fun (extra : ℕ) (cp : UInt8) (min : UInt32) =>
    match continued str extra (p+1) cp.toUInt32 with
    | none => (badCp,p+1)
    | some cp =>
      if cp < min ∨ 0x10FFFF < cp ∨ (0xD800 ≤ cp ∧ cp ≤ 0xDFFF) then (badCp,p+1)
      else (cp,p+extra+1)
  if lead < 0x80 then (lead.toUInt32,p+1)
  else if lead &&& 0xE0 = 0xC0 then sequence 1 (lead &&& 0x1F) 0x80
  else if lead &&& 0xF0 = 0xE0 then sequence 2 (lead &&& 0x0F) 0x800
  else if lead &&& 0xF8 = 0xF0 then sequence 3 (lead &&& 0x07) 0x10000
  else (badCp,p+1)

theorem nextCp_lt (str : List UInt8) (p : ℕ) : p < (nextCp str p).2 := by
  have hseq : ∀ (extra : ℕ) (cp : UInt8) (min : UInt32),
      p < (match continued str extra (p+1) cp.toUInt32 with
        | none => (badCp,p+1)
        | some cp =>
          if cp < min ∨ 0x10FFFF < cp ∨ (0xD800 ≤ cp ∧ cp ≤ 0xDFFF) then (badCp,p+1)
          else (cp,p+extra+1)).2 := by
    intro extra cp min
    split
    · exact Nat.lt_succ_self p
    · split
      · exact Nat.lt_succ_self p
      · dsimp only
        omega
  unfold nextCp
  dsimp only
  split
  · exact Nat.lt_succ_self p
  split
  · exact hseq _ _ _
  split
  · exact hseq _ _ _
  split
  · exact hseq _ _ _
  · exact Nat.lt_succ_self p

theorem continued_bytes {str : List UInt8} (extra : ℕ) : ∀ {p : ℕ} {cp c : UInt32},
    continued str extra p cp = some c →
    ∀ i < extra, byte str (p+i) &&& 0xC0 = 0x80 := by
  induction extra with
  | zero => exact fun _ i hi => absurd hi (Nat.not_lt_zero i)
  | succ extra ih =>
    intro p cp c h i hi
    rw [continued] at h
    split at h
    · cases h
    · rename_i hbyte
      cases i with
      | zero => exact not_not.mp hbyte
      | succ i =>
        rw [Nat.add_comm i 1, ← Nat.add_assoc]
        exact ih h i (Nat.lt_of_succ_lt_succ hi)

/-- What the decoder reads at `p`: one byte, or a sequence that ends in a continuation byte. -/
theorem nextCp_cases (str : List UInt8) (p : ℕ) :
    (byte str p < 0x80 ∧ nextCp str p = ((byte str p).toUInt32,p+1)) ∨ nextCp str p = (badCp,p+1) ∨
      (0x80 ≤ (nextCp str p).1 ∧ byte str ((nextCp str p).2-1) &&& 0xC0 = 0x80) := by
  have hseq : ∀ (extra : ℕ) (cp : UInt8) (min : UInt32), 0x80 ≤ min → 0 < extra →
      ∀ u, u = (match continued str extra (p+1) cp.toUInt32 with
        | none => (badCp,p+1)
        | some cp =>
          if cp < min ∨ 0x10FFFF < cp ∨ (0xD800 ≤ cp ∧ cp ≤ 0xDFFF) then (badCp,p+1)
          else (cp,p+extra+1)) →
      u = (badCp,p+1) ∨ (0x80 ≤ u.1 ∧ byte str (u.2-1) &&& 0xC0 = 0x80) := by
    intro extra cp min hmin hextra u hu
    split at hu
    · exact .inl hu
    · rename_i c hc
      split at hu
      · exact .inl hu
      · rename_i hok
        rw [not_or] at hok
        subst hu
        refine .inr ⟨UInt32.le_trans hmin (UInt32.not_lt.mp hok.1),?_⟩
        have hbyte := continued_bytes extra hc (extra-1) (by omega)
        rwa [show p+1+(extra-1) = p+extra+1-1 by omega] at hbyte
  unfold nextCp
  dsimp only
  by_cases h1 : byte str p < 0x80
  · rw [if_pos h1]
    exact .inl ⟨h1,rfl⟩
  rw [if_neg h1]
  refine .inr ?_
  split
  · exact hseq 1 _ 0x80 (by decide) (by decide) _ rfl
  split
  · exact hseq 2 _ 0x800 (by decide) (by decide) _ rfl
  split
  · exact hseq 3 _ 0x10000 (by decide) (by decide) _ rfl
  · exact .inl rfl

theorem byte_lt {str : List UInt8} {p : ℕ} (h : byte str p ≠ 0) : p < str.length := by
  by_contra hp
  exact h (List.getD_eq_default _ _ (not_lt.mp hp))

theorem nextCp_shrinks {str : List UInt8} {p : ℕ} (h : byte str p ≠ 0) :
    str.length-(nextCp str p).2 < str.length-p := by
  have := nextCp_lt str p
  have := byte_lt h
  omega

def glyphBits (f : GfxFont) (cp : UInt32) : ℕ → UInt8 :=
  let cp := if cp < f.first ∨ f.last < cp then f.fallback else cp
  let glyphBytes := f.h.toNat*((f.w.toNat+7)/8)
  fun i => f.bits ((cp-f.first).toNat*glyphBytes+i)

def widthFrom (f : GfxFont) (str : List UInt8) (p : ℕ) (width : ℤ) : ℤ :=
  if _ : byte str p ≠ 0 then
    if int16Max ≤ width+f.w.toNat then int16Max
    else widthFrom f str (nextCp str p).2 (width+f.w.toNat)
  else width
termination_by str.length-p
decreasing_by exact nextCp_shrinks ‹_›

def gfxTextWidth (f : Option GfxFont) (utf8 : Option (List UInt8)) : Int16 :=
  match f, utf8 with
  | some f, some str => Int16.ofInt (widthFrom f str 0 0)
  | _, _ => 0

/-- The code points from `p` on, up to `fin` if there is one, drawn from pen `pen` on. -/
def drawRun (f : GfxFont) (y : Int16) (str : List UInt8) (fin : Option ℕ) (fg bg : UInt16)
    (transparent : Bool) (s : GfxSurface) (p : ℕ) (pen : ℤ) : GfxSurface :=
  if _ : byte str p ≠ 0 ∧ fin.all (p < ·) ∧ pen ≤ int16Max then
    let bits := glyphBits f (nextCp str p).1
    drawRun f y str fin fg bg transparent
      (gfxBlit1bpp s (Int16.ofInt pen) y (some bits) f.w.toUInt16.toInt16 f.h.toUInt16.toInt16 fg bg
        transparent)
      (nextCp str p).2 (pen+f.w.toNat)
  else s
termination_by str.length-p
decreasing_by
  rename_i h
  exact nextCp_shrinks h.1

def gfxText (s : GfxSurface) (f : Option GfxFont) (x y : Int16) (utf8 : Option (List UInt8))
    (fg bg : UInt16) (transparent : Bool) : GfxSurface × Int16 :=
  match f, utf8 with
  | some font, some str =>
    (drawRun font y str none fg bg transparent s 0 x.toInt,gfxTextWidth f utf8)
  | _, _ => (s,0)

def skipSpaces (str : List UInt8) (p : ℕ) : ℕ :=
  if h : byte str p = 0x20 then skipSpaces str (p+1) else p
termination_by str.length-p
decreasing_by
  have := byte_lt (p := p) (h ▸ (by decide) : byte str p ≠ 0)
  omega

def lineFrom (str : List UInt8) (cols : ℤ) (p : ℕ) (n : ℤ) (lastSpace : Option ℕ) : ℕ × ℕ :=
  if h : byte str p = 0 then (p,p)
  else if byte str p = 0x0A then (p,p+1)
  else
    let cp := (nextCp str p).1
    if n = cols then
      if cp = 0x20 then (p,skipSpaces str p)
      else match lastSpace with
        | some space => (space,skipSpaces str space)
        | none => (p,p)
    else lineFrom str cols (nextCp str p).2 (n+1) (if cp = 0x20 then some p else lastSpace)
termination_by str.length-p
decreasing_by exact nextCp_shrinks h

def trimmed (str : List UInt8) (start : ℕ) : ℕ → ℕ
  | 0 => 0
  | fin+1 => if start < fin+1 ∧ byte str fin = 0x20 then trimmed str start fin else fin+1

def gfxTextLine (f : Option GfxFont) (utf8 : Option (List UInt8)) (p : ℕ) (maxW : Int16) : ℕ × ℕ :=
  match f, utf8 with
  | some f, some str =>
    if byte str p = 0 ∨ f.w = 0 then (0,p)
    else
      let cols := max 1 (maxW.toInt.tdiv f.w.toNat)
      let (fin,next) := lineFrom str cols p 0 none
      (trimmed str p fin-p,next)
  | _, _ => (0,p)

def boxClip (saved box : GfxRect) : GfxRect :=
  let x0 := max saved.x.toInt box.x.toInt
  let y0 := max saved.y.toInt box.y.toInt
  let x1 := min (saved.x.toInt+saved.w.toInt) (box.x.toInt+box.w.toInt)
  let y1 := min (saved.y.toInt+saved.h.toInt) (box.y.toInt+box.h.toInt)
  if x0 < x1 ∧ y0 < y1 then ⟨Int16.ofInt x0,Int16.ofInt y0,Int16.ofInt (x1-x0),Int16.ofInt (y1-y0)⟩
  else ⟨0,0,0,0⟩

def boxLines (f : GfxFont) (box : GfxRect) (pitch : ℤ) (str : List UInt8) (fg bg : UInt16)
    (transparent : Bool) (s : GfxSurface) (p : ℕ) (y drawn : ℤ) : GfxSurface × ℤ :=
  if byte str p ≠ 0 ∧ y+f.h.toNat ≤ box.y.toInt+box.h.toInt ∧ drawn < int16Max then
    let (len,next) := gfxTextLine (some f) (some str) p box.w
    boxLines f box pitch str fg bg transparent
      (drawRun f (Int16.ofInt y) str (some (p+len)) fg bg transparent s p box.x.toInt)
      next (y+if 0 < pitch then pitch else 1) (drawn+1)
  else (s,drawn)
termination_by (box.y.toInt+box.h.toInt-f.h.toNat-y+1).toNat
decreasing_by
  split <;> omega

def gfxTextBox (s : GfxSurface) (f : Option GfxFont) (box : GfxRect) (lineGap : Int16)
    (utf8 : Option (List UInt8)) (fg bg : UInt16) (transparent : Bool) : GfxSurface × Int16 :=
  match f, utf8 with
  | some f, some str =>
    if box.w.toInt ≤ 0 ∨ box.h.toInt ≤ 0 then (s,0)
    else
      let (s',drawn) := boxLines f box (f.h.toNat+lineGap.toInt) str fg bg transparent
        { s with clip := boxClip s.clip box } 0 box.y.toInt 0
      ({ s' with clip := s.clip },Int16.ofInt drawn)
  | _, _ => (s,0)

theorem drawRun_uniform (f : GfxFont) (y : Int16) (str : List UInt8) (fin : Option ℕ)
    (fg bg : UInt16) (transparent : Bool) (p : ℕ) (pen : ℤ) :
    Uniform fun s => drawRun f y str fin fg bg transparent s p pen := by
  induction hn : str.length-p using Nat.strongRecOn generalizing p pen with | ind n ih =>
  subst hn
  by_cases h : byte str p ≠ 0 ∧ fin.all (p < ·) ∧ pen ≤ int16Max
  · obtain ⟨q,hq⟩ := (blit_uniform (Int16.ofInt pen) y (some (glyphBits f (nextCp str p).1))
      f.w.toUInt16.toInt16 f.h.toUInt16.toInt16 fg bg transparent).then
        (ih _ (nextCp_shrinks h.1) (nextCp str p).2 (pen+f.w.toNat) rfl)
    refine ⟨q,fun s => ?_⟩
    dsimp only
    rw [drawRun, dif_pos h]
    exact hq s
  · obtain ⟨q,hq⟩ := uniform_id
    refine ⟨q,fun s => ?_⟩
    dsimp only
    rw [drawRun, dif_neg h]
    exact hq s

theorem boxLines_uniform (f : GfxFont) (box : GfxRect) (pitch : ℤ) (str : List UInt8)
    (fg bg : UInt16) (transparent : Bool) (p : ℕ) (y drawn : ℤ) :
    ∃ q n, ∀ s, boxLines f box pitch str fg bg transparent s p y drawn = (draw s q,n) := by
  induction hn : (box.y.toInt+box.h.toInt-f.h.toNat-y+1).toNat using Nat.strongRecOn
    generalizing p y drawn with | ind n ih =>
  subst hn
  by_cases h : byte str p ≠ 0 ∧ y+f.h.toNat ≤ box.y.toInt+box.h.toInt ∧ drawn < int16Max
  · have hline := drawRun_uniform f (Int16.ofInt y) str
      (some (p+(gfxTextLine (some f) (some str) p box.w).1)) fg bg transparent p box.x.toInt
    obtain ⟨q,hq⟩ := hline
    have hstep : 1 ≤ if 0 < pitch then pitch else 1 := by
      split <;> omega
    obtain ⟨q',n,hq'⟩ := ih _ (by omega) (gfxTextLine (some f) (some str) p box.w).2
      (y+if 0 < pitch then pitch else 1) (drawn+1) rfl
    refine ⟨atop q q',n,fun s => ?_⟩
    have hfirst := hq s
    dsimp only at hfirst
    rw [boxLines, if_pos h]
    dsimp only
    rw [hq', hfirst, draw_atop]
  · refine ⟨fun _ _ => none,drawn,fun s => ?_⟩
    rw [boxLines, if_neg h, draw_none]

theorem boxClip_has (saved box : GfxRect) (a b : ℤ) :
    (boxClip saved box).window.Has a b ↔ saved.window.Has a b ∧ box.window.Has a b := by
  have h1 := saved.x.le_toInt
  have h2 := saved.x.toInt_lt
  have h3 := saved.y.le_toInt
  have h4 := saved.y.toInt_lt
  have h5 := saved.w.toInt_lt
  have h6 := saved.h.toInt_lt
  have h7 := box.x.le_toInt
  have h8 := box.x.toInt_lt
  have h9 := box.y.le_toInt
  have h10 := box.y.toInt_lt
  unfold boxClip Window.Has
  dsimp only
  split
  · unfold GfxRect.window
    dsimp only
    rw [Int16.toInt_ofInt_of_le (by omega) (by omega), Int16.toInt_ofInt_of_le (by omega) (by omega),
      Int16.toInt_ofInt_of_le (by omega) (by omega), Int16.toInt_ofInt_of_le (by omega) (by omega)]
    omega
  · unfold GfxRect.window
    dsimp only
    rw [Int16.toInt_zero]
    omega

theorem text_uniform (f : Option GfxFont) (x y : Int16) (utf8 : Option (List UInt8)) (fg bg : UInt16)
    (transparent : Bool) : Uniform fun s => (gfxText s f x y utf8 fg bg transparent).1 := by
  cases f with
  | none => exact uniform_id
  | some f => cases utf8 with
    | none => exact uniform_id
    | some str => exact drawRun_uniform f y str none fg bg transparent 0 x.toInt

theorem draw_narrowed (s : GfxSurface) (box : GfxRect) (q : Paint UInt16) :
    { draw { s with clip := boxClip s.clip box } q with clip := s.clip } =
      draw s (within box.window q) := by
  have hpx : render s.view (boxClip s.clip box).window q =
      render s.view s.clip.window (within box.window q) :=
    funext (render_within (boxClip_has s.clip box) q)
  unfold draw
  rw [← hpx]
  rfl

theorem textBox_uniform (f : Option GfxFont) (box : GfxRect) (lineGap : Int16)
    (utf8 : Option (List UInt8)) (fg bg : UInt16) (transparent : Bool) :
    Uniform fun s => (gfxTextBox s f box lineGap utf8 fg bg transparent).1 := by
  cases f with
  | none => exact uniform_id
  | some f => cases utf8 with
    | none => exact uniform_id
    | some str =>
      by_cases hempty : box.w.toInt ≤ 0 ∨ box.h.toInt ≤ 0
      · obtain ⟨q,hq⟩ := uniform_id
        refine ⟨q,fun s => ?_⟩
        dsimp only
        unfold gfxTextBox
        dsimp only
        rw [if_pos hempty]
        exact hq s
      · obtain ⟨q,n,hq⟩ := boxLines_uniform f box (f.h.toNat+lineGap.toInt) str fg bg transparent 0
          box.y.toInt 0
        refine ⟨within box.window q,fun s => ?_⟩
        dsimp only
        unfold gfxTextBox
        dsimp only
        rw [if_neg hempty, hq]
        exact draw_narrowed s box q

inductive GfxOp where
  | fill (r : GfxRect) (colour : UInt16)
  | rect (r : GfxRect) (colour : UInt16)
  | hline (x y w : Int16) (colour : UInt16)
  | vline (x y h : Int16) (colour : UInt16)
  | blit (x y : Int16) (bits : Option (ℕ → UInt8)) (w h : Int16) (fg bg : UInt16)
      (transparent : Bool)
  | text (f : Option GfxFont) (x y : Int16) (utf8 : Option (List UInt8)) (fg bg : UInt16)
      (transparent : Bool)
  | textBox (f : Option GfxFont) (box : GfxRect) (lineGap : Int16) (utf8 : Option (List UInt8))
      (fg bg : UInt16) (transparent : Bool)

def GfxOp.run (s : GfxSurface) : GfxOp → GfxSurface
  | .fill r colour => gfxFill s r colour
  | .rect r colour => gfxRect s r colour
  | .hline x y w colour => gfxHline s x y w colour
  | .vline x y h colour => gfxVline s x y h colour
  | .blit x y bits w h fg bg transparent => gfxBlit1bpp s x y bits w h fg bg transparent
  | .text f x y utf8 fg bg transparent => (gfxText s f x y utf8 fg bg transparent).1
  | .textBox f box lineGap utf8 fg bg transparent =>
    (gfxTextBox s f box lineGap utf8 fg bg transparent).1

def runProgram (program : List GfxOp) (s : GfxSurface) : GfxSurface := program.foldl GfxOp.run s

theorem run_uniform (op : GfxOp) : Uniform fun s => op.run s := by
  cases op with
  | fill r colour => exact fill32_uniform _ _ _ _ colour
  | rect r colour => exact rect_uniform r colour
  | hline x y w colour => exact fill32_uniform _ _ _ _ colour
  | vline x y h colour => exact fill32_uniform _ _ _ _ colour
  | blit x y bits w h fg bg transparent => exact blit_uniform x y bits w h fg bg transparent
  | text f x y utf8 fg bg transparent => exact text_uniform f x y utf8 fg bg transparent
  | textBox f box lineGap utf8 fg bg transparent =>
    exact textBox_uniform f box lineGap utf8 fg bg transparent

theorem program_uniform (program : List GfxOp) : Uniform (runProgram program) := by
  induction program with
  | nil => exact uniform_id
  | cons op program ih => exact (run_uniform op).then ih

end StarkOne.GfxText
