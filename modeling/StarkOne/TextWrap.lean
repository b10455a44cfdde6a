import StarkOne.GfxText

/-!
# Lines of text

A line ends at a newline, at the last space that fits or in the middle of a
word too wide for it, and always between two code points. Counting the lines
and drawing them in a box go by the same rule.
-/

set_option autoImplicit false

namespace StarkOne.TextWrap
open StarkOne.Raster StarkOne.Gfx StarkOne.GfxText

def linesFrom (f : GfxFont) (str : List UInt8) (maxW : Int16) : ℕ → ℕ → ℕ
  | 0, _ => 0
  | n+1, p =>
    if byte str p = 0 then 0
    else linesFrom f str maxW n (gfxTextLine (some f) (some str) p maxW).2+1

def gfxTextLines (f : Option GfxFont) (utf8 : Option (List UInt8)) (maxW : Int16) : Int16 :=
  match f, utf8 with
  | some f, some str => Int16.ofNat (linesFrom f str maxW int16Max.toNat 0)
  | _, _ => 0

inductive Cells (str : List UInt8) : ℕ → ℕ → List UInt32 → Prop where
  | nil (p : ℕ) : Cells str p p []
  | cons {p q : ℕ} {cps : List UInt32} (hbyte : byte str p ≠ 0)
      (hrest : Cells str (nextCp str p).2 q cps) : Cells str p q ((nextCp str p).1::cps)

section
variable {str : List UInt8} {p q r : ℕ} {cps cps' : List UInt32}

theorem Cells.append (h : Cells str p q cps) (h' : Cells str q r cps') :
    Cells str p r (cps++cps') := by
  induction h with
  | nil => exact h'
  | cons hbyte _ ih => exact .cons hbyte (ih h')

theorem Cells.snoc (h : Cells str p q cps) (hbyte : byte str q ≠ 0) :
    Cells str p (nextCp str q).2 (cps++[(nextCp str q).1]) :=
  h.append (.cons hbyte (.nil _))

theorem Cells.le (h : Cells str p q cps) : p ≤ q := by
  induction h with
  | nil => exact Nat.le_refl _
  | cons _ _ ih => exact Nat.le_trans (Nat.le_of_lt (nextCp_lt str _)) ih

theorem Cells.lt (h : Cells str p q cps) (hne : cps ≠ []) : p < q := by
  cases h with
  | nil => exact absurd rfl hne
  | cons _ hrest => exact Nat.lt_of_lt_of_le (nextCp_lt str _) hrest.le

theorem Cells.last (h : Cells str p q cps) (hlt : p < q) : ∃ r, Cells str p r cps.dropLast ∧
    byte str r ≠ 0 ∧ (nextCp str r).2 = q := by
  induction h with
  | nil => exact absurd hlt (Nat.lt_irrefl _)
  | @cons p q cps hbyte hrest ih =>
    cases cps with
    | nil =>
      cases hrest
      exact ⟨p,.nil p,hbyte,rfl⟩
    | cons cp cps =>
      obtain ⟨r,hr,hlast⟩ := ih (hrest.lt (List.cons_ne_nil _ _))
      exact ⟨r,.cons hbyte hr,hlast⟩

theorem nextCp_space (h : (nextCp str p).1 = 0x20) : byte str p = 0x20 := by
  rcases nextCp_cases str p with ⟨hlow,hcp⟩ | hcp | ⟨hcp,-⟩
  · rw [hcp] at h
    have h8 : ((byte str p).toUInt32).toUInt8 = (0x20 : UInt32).toUInt8 := congrArg _ h
    simpa using h8
  · rw [hcp] at h
    exact absurd h (show ¬badCp = 0x20 by decide)
  · rw [h] at hcp
    exact absurd hcp (by decide)

theorem nextCp_ascii (h : byte str p < 0x80) : (nextCp str p).2 = p+1 := by
  rw [nextCp]
  dsimp only
  rw [if_pos h]

theorem Cells.pop (h : Cells str p (q+1) cps) (hlt : p < q+1) (hspace : byte str q = 0x20) :
    Cells str p q cps.dropLast := by
  obtain ⟨r,hr,-,hnext⟩ := h.last hlt
  have hrq : r = q := by
    rcases nextCp_cases str r with ⟨-,hcp⟩ | hcp | ⟨-,hcont⟩
    · rw [hcp] at hnext
      exact Nat.succ.inj hnext
    · rw [hcp] at hnext
      exact Nat.succ.inj hnext
    · rw [hnext, Nat.add_sub_cancel, hspace] at hcont
      exact absurd hcont (by decide)
  exact hrq ▸ hr

theorem trimmed_spec {start fin : ℕ} (h : Cells str start fin cps) :
    ∃ cps', Cells str start (trimmed str start fin) cps' ∧ cps'.length ≤ cps.length ∧
      trimmed str start fin ≤ fin ∧
      ∀ q, trimmed str start fin ≤ q → q < fin → byte str q = 0x20 := by
  induction fin generalizing cps with
  | zero => exact ⟨cps,h,Nat.le_refl _,Nat.le_refl _,fun q _ hq => absurd hq (Nat.not_lt_zero q)⟩
  | succ fin ih =>
    rw [trimmed]
    by_cases hspace : start < fin+1 ∧ byte str fin = 0x20
    · rw [if_pos hspace]
      obtain ⟨cps',hcells,hlen,hle,hspaces⟩ := ih (h.pop hspace.1 hspace.2)
      rw [List.length_dropLast] at hlen
      refine ⟨cps',hcells,by omega,by omega,fun q hq hlt => ?_⟩
      by_cases hlast : q = fin
      · rw [hlast]
        exact hspace.2
      · exact hspaces q hq (by omega)
    · rw [if_neg hspace]
      exact ⟨cps,h,Nat.le_refl _,Nat.le_refl _,fun q hq hlt => absurd hlt (Nat.not_lt.mpr hq)⟩

theorem skipSpaces_spec (str : List UInt8) (p : ℕ) : (∃ cps, Cells str p (skipSpaces str p) cps) ∧
    (∀ q, p ≤ q → q < skipSpaces str p → byte str q = 0x20) ∧
    (byte str p = 0x20 → p < skipSpaces str p) := by
  induction hn : str.length-p using Nat.strongRecOn generalizing p with | ind n ih =>
  subst hn
  rw [skipSpaces]
  by_cases hspace : byte str p = 0x20
  · rw [dif_pos hspace]
    have hbyte : byte str p ≠ 0 := by
      rw [hspace]
      decide
    have hshrinks := nextCp_shrinks hbyte
    have hnext : (nextCp str p).2 = p+1 := nextCp_ascii (by rw [hspace]; decide)
    rw [hnext] at hshrinks
    obtain ⟨⟨cps,hcells⟩,hspaces,-⟩ := ih _ hshrinks (p+1) rfl
    refine ⟨⟨_,.cons hbyte (by rw [hnext]; exact hcells)⟩,fun q hq hlt => ?_,fun _ => ?_⟩
    · by_cases hfirst : q = p
      · rw [hfirst, hspace]
      · exact hspaces q (by omega) hlt
    · exact hcells.le
  · rw [dif_neg hspace]
    exact ⟨⟨[],.nil p⟩,fun q hq hlt => absurd hlt (Nat.not_lt.mpr hq),fun h => absurd h hspace⟩

structure LineEnd (str : List UInt8) (start : ℕ) (cols : ℤ) (fin next : ℕ) : Prop where
  line : ∃ cps, Cells str start fin cps ∧ (cps.length : ℤ) ≤ cols
  after : ∃ cps, Cells str start next cps
  later : start < next
  dropped : ∀ q, fin ≤ q → q < next → byte str q = 0x20 ∨ (byte str q = 0x0A ∧ q+1 = next)

/-- From any point within the line, the search ends it well. -/
theorem lineFrom_spec {start : ℕ} {cols : ℤ} {lastSpace : Option ℕ} (hcols : 1 ≤ cols)
    (hstart : byte str start ≠ 0) (h : Cells str start p cps) (hlen : (cps.length : ℤ) ≤ cols)
    (hspace : ∀ sp, lastSpace = some sp → byte str sp = 0x20 ∧
      ∃ before, Cells str start sp before ∧ (before.length : ℤ) ≤ cols) :
    LineEnd str start cols (lineFrom str cols p cps.length lastSpace).1
      (lineFrom str cols p cps.length lastSpace).2 := by
  induction hn : str.length-p using Nat.strongRecOn generalizing p cps lastSpace with | ind n ih =>
  subst hn
  rw [lineFrom.eq_def]
  by_cases hend : byte str p = 0
  · rw [dif_pos hend]
    have hne : start ≠ p := fun hsame => hstart (hsame ▸ hend)
    exact ⟨⟨cps,h,hlen⟩,⟨cps,h⟩,Nat.lt_of_le_of_ne h.le hne,
      fun q hq hlt => absurd hlt (Nat.not_lt.mpr hq)⟩
  rw [dif_neg hend]
  by_cases hnewline : byte str p = 0x0A
  · rw [if_pos hnewline]
    have hnext : (nextCp str p).2 = p+1 := nextCp_ascii (by rw [hnewline]; decide)
    refine ⟨⟨cps,h,hlen⟩,⟨_,hnext ▸ h.snoc hend⟩,Nat.lt_succ_of_le h.le,fun q hq hlt => ?_⟩
    have hsame : q = p := Nat.le_antisymm (Nat.le_of_lt_succ hlt) hq
    rw [hsame]
    exact .inr ⟨hnewline,rfl⟩
  rw [if_neg hnewline]
  dsimp only
  by_cases hfull : (cps.length : ℤ) = cols
  · rw [if_pos hfull]
    by_cases hcp : (nextCp str p).1 = 0x20
    · rw [if_pos hcp]
      obtain ⟨⟨skipped,hskip⟩,hspaces,hlt⟩ := skipSpaces_spec str p
      exact ⟨⟨cps,h,hlen⟩,⟨_,h.append hskip⟩,Nat.lt_of_le_of_lt h.le (hlt (nextCp_space hcp)),
        fun q hq hq' => .inl (hspaces q hq hq')⟩
    · rw [if_neg hcp]
      cases lastSpace with
      | some sp =>
        obtain ⟨hsp,before,hbefore,hshort⟩ := hspace sp rfl
        obtain ⟨⟨skipped,hskip⟩,hspaces,hlt⟩ := skipSpaces_spec str sp
        exact ⟨⟨before,hbefore,hshort⟩,⟨_,hbefore.append hskip⟩,
          Nat.lt_of_le_of_lt hbefore.le (hlt hsp),fun q hq hq' => .inl (hspaces q hq hq')⟩
      | none =>
        have hne : cps ≠ [] := by
          rintro rfl
          simp at hfull
          omega
        exact ⟨⟨cps,h,hlen⟩,⟨cps,h⟩,h.lt hne,fun q hq hlt => absurd hlt (Nat.not_lt.mpr hq)⟩
  · rw [if_neg hfull]
    have hmore : ((cps++[(nextCp str p).1]).length : ℤ) = cps.length+1 := by simp
    have hspace' : ∀ sp, (if (nextCp str p).1 = 0x20 then some p else lastSpace) = some sp →
        byte str sp = 0x20 ∧ ∃ before, Cells str start sp before ∧ (before.length : ℤ) ≤ cols := by
      intro sp hsp
      by_cases hcp : (nextCp str p).1 = 0x20
      · rw [if_pos hcp] at hsp
        cases hsp
        exact ⟨nextCp_space hcp,cps,h,hlen⟩
      · rw [if_neg hcp] at hsp
        exact hspace sp hsp
    have hrest := ih _ (nextCp_shrinks hend) (h.snoc hend) (by omega) hspace' rfl
    rwa [hmore] at hrest

end

def columns (f : GfxFont) (maxW : Int16) : ℤ := max 1 (maxW.toInt.tdiv f.w.toNat)

structure Line where
  start : ℕ
  len : ℕ
  next : ℕ
  cells : List UInt32

/-- The line is between two code points of the text, fits, and loses spaces and its newline only. -/
structure Line.Sound (l : Line) (str : List UInt8) (cols : ℤ) : Prop where
  start : ∃ cps, Cells str 0 l.start cps
  cells : Cells str l.start (l.start+l.len) l.cells
  width : (l.cells.length : ℤ) ≤ cols
  dropped : ∀ q, l.start+l.len ≤ q → q < l.next →
    byte str q = 0x20 ∨ (byte str q = 0x0A ∧ q+1 = l.next)

inductive Wrapped (f : GfxFont) (str : List UInt8) (maxW : Int16) : ℕ → List Line → Prop where
  | nil (p : ℕ) (hend : byte str p = 0) : Wrapped f str maxW p []
  | cons {l : Line} {ls : List Line} (hbyte : byte str l.start ≠ 0)
      (hline : gfxTextLine (some f) (some str) l.start maxW = (l.len,l.next))
      (hcells : Cells str l.start (l.start+l.len) l.cells)
      (hrest : Wrapped f str maxW l.next ls) : Wrapped f str maxW l.start (l::ls)

section
variable {f : GfxFont} {str : List UInt8} {maxW : Int16} {p : ℕ} {ls : List Line}

theorem textLine_spec (hw : f.w ≠ 0) (hbyte : byte str p ≠ 0) {before : List UInt32}
    (h : Cells str 0 p before) : ∃ l : Line, l.start = p ∧
      gfxTextLine (some f) (some str) p maxW = (l.len,l.next) ∧ l.Sound str (columns f maxW) ∧
      p < l.next ∧ ∃ after, Cells str 0 l.next after := by
  have hend : LineEnd str p (columns f maxW) (lineFrom str (columns f maxW) p 0 none).1
      (lineFrom str (columns f maxW) p 0 none).2 :=
    lineFrom_spec (le_max_left 1 _) hbyte (.nil p) (le_trans (by simp) (le_max_left 1 _))
      (fun sp hsp => by cases hsp)
  obtain ⟨fin,next,hpair⟩ : ∃ fin next, lineFrom str (columns f maxW) p 0 none = (fin,next) :=
    ⟨_,_,rfl⟩
  rw [hpair] at hend
  obtain ⟨⟨cps,hcps,hlen⟩,⟨after,hafter⟩,hlater,hdropped⟩ := hend
  obtain ⟨cells,hcells,hshort,hle,hspaces⟩ := trimmed_spec hcps
  have hgo : ¬(byte str p = 0 ∨ f.w = 0) := not_or.mpr ⟨hbyte,hw⟩
  have hsum : p+(trimmed str p fin-p) = trimmed str p fin := Nat.add_sub_cancel' hcells.le
  refine ⟨⟨p,trimmed str p fin-p,next,cells⟩,rfl,?_,⟨⟨before,h⟩,?_,?_,fun q hq hlt => ?_⟩,hlater,
    _,h.append hafter⟩
  · rw [columns] at hpair
    rw [gfxTextLine]
    dsimp only
    rw [if_neg hgo, hpair]
  · dsimp only
    rw [hsum]
    exact hcells
  · show (cells.length : ℤ) ≤ columns f maxW
    omega
  · dsimp only at hq hlt
    rw [hsum] at hq
    by_cases hlast : q < fin
    · exact .inl (hspaces q hq hlast)
    · exact hdropped q (Nat.not_lt.mp hlast) hlt

/-- Asking for the next line comes to the end of the text. -/
theorem wrapped_exists (hw : f.w ≠ 0) {before : List UInt32} (h : Cells str 0 p before) :
    ∃ ls, Wrapped f str maxW p ls ∧ ∀ l ∈ ls, l.Sound str (columns f maxW) := by
  induction hn : str.length-p using Nat.strongRecOn generalizing p before with | ind n ih =>
  subst hn
  by_cases hbyte : byte str p = 0
  · exact ⟨[],.nil p hbyte,fun l hl => by cases hl⟩
  · obtain ⟨l,rfl,hline,hsound,hlater,after,hafter⟩ := textLine_spec hw hbyte h
    have hlt := byte_lt hbyte
    obtain ⟨ls,hwrapped,hall⟩ := ih _ (by omega) hafter rfl
    refine ⟨l::ls,.cons hbyte hline hsound.cells hwrapped,fun m hm => ?_⟩
    rcases List.mem_cons.mp hm with rfl | hm
    · exact hsound
    · exact hall m hm

theorem linesFrom_eq (h : Wrapped f str maxW p ls) (n : ℕ) :
    linesFrom f str maxW n p = min ls.length n := by
  induction h generalizing n with
  | nil p hend =>
    cases n with
    | zero => rfl
    | succ n => rw [linesFrom, if_pos hend, List.length_nil, Nat.zero_min]
  | cons hbyte hline _ _ ih =>
    cases n with
    | zero => rfl
    | succ n => rw [linesFrom, if_neg hbyte, hline, ih, List.length_cons, Nat.succ_min_succ]

end

section
variable {f : GfxFont} {str : List UInt8} {p q : ℕ} {cps : List UInt32}

def drawCells (f : GfxFont) (y : Int16) (fg bg : UInt16) (transparent : Bool) :
    GfxSurface → ℤ → List UInt32 → GfxSurface
  | s, _, [] => s
  | s, pen, cp::cps =>
    drawCells f y fg bg transparent
      (if pen ≤ int16Max then
        gfxBlit1bpp s (Int16.ofInt pen) y (some (glyphBits f cp)) f.w.toUInt16.toInt16
          f.h.toUInt16.toInt16 fg bg transparent
      else s) (pen+f.w.toNat) cps

def drawRows (f : GfxFont) (x : ℤ) (step : ℤ) (fg bg : UInt16) (transparent : Bool) :
    GfxSurface → ℤ → List Line → GfxSurface
  | s, _, [] => s
  | s, y, l::ls =>
    drawRows f x step fg bg transparent
      (drawCells f (Int16.ofInt y) fg bg transparent s x l.cells) (y+step) ls

theorem drawCells_beyond {y : Int16} {fg bg : UInt16} {transparent : Bool} (s : GfxSurface) :
    ∀ {pen : ℤ}, int16Max < pen → drawCells f y fg bg transparent s pen cps = s := by
  induction cps with
  | nil => exact fun _ => rfl
  | cons cp cps ih =>
    intro pen hpen
    rw [drawCells, if_neg (not_le.mpr hpen)]
    exact ih (by omega)

theorem drawRun_cells {y : Int16} {fg bg : UInt16} {transparent : Bool} (h : Cells str p q cps) :
    ∀ (s : GfxSurface) (pen : ℤ), drawRun f y str (some q) fg bg transparent s p pen =
      drawCells f y fg bg transparent s pen cps := by
  induction h with
  | nil p =>
    intro s pen
    rw [drawRun, dif_neg (by simp)]
    rfl
  | @cons p q cps hbyte hrest ih =>
    intro s pen
    have hlt : p < q := Nat.lt_of_lt_of_le (nextCp_lt str p) hrest.le
    rw [drawRun, drawCells]
    by_cases hpen : pen ≤ int16Max
    · rw [dif_pos ⟨hbyte,decide_eq_true hlt,hpen⟩, if_pos hpen]
      exact ih _ _
    · rw [dif_neg fun h => hpen h.2.2, if_neg hpen,
        drawCells_beyond s (by have := not_le.mp hpen; omega)]

end

def rowStep (f : GfxFont) (lineGap : Int16) : ℤ :=
  if 0 < f.h.toNat+lineGap.toInt then f.h.toNat+lineGap.toInt else 1

theorem rowStep_pos (f : GfxFont) (lineGap : Int16) : 0 < rowStep f lineGap := by
  unfold rowStep
  split <;> omega

def rowsFit (h step height : ℤ) : ℕ := if h ≤ height then ((height-h)/step).toNat+1 else 0

theorem rowsFit_iff {h step : ℤ} (hstep : 0 < step) (height : ℤ) (i : ℕ) :
    i < rowsFit h step height ↔ i*step+h ≤ height := by
  unfold rowsFit
  have hdiv : (i : ℤ) ≤ (height-h)/step ↔ i*step ≤ height-h := Int.le_ediv_iff_mul_le hstep
  by_cases hfit : h ≤ height
  · have hpos : 0 ≤ (height-h)/step := Int.ediv_nonneg (by omega) (Int.le_of_lt hstep)
    rw [if_pos hfit]
    omega
  · have hpos : 0 ≤ i*step := Int.mul_nonneg (Int.natCast_nonneg i) (Int.le_of_lt hstep)
    rw [if_neg hfit]
    omega

theorem rowsFit_succ {h step height : ℤ} (hstep : 0 < step) (hfit : h ≤ height) :
    rowsFit h step height = rowsFit h step (height-step)+1 := by
  have hdiv : (height-h)/step = (height-step-h)/step+1 := by
    rw [show height-h = height-step-h+1*step by omega, Int.add_mul_ediv_right _ _ (by omega)]
  unfold rowsFit
  rw [if_pos hfit, hdiv]
  by_cases hnext : h ≤ height-step
  · have hpos : 0 ≤ (height-step-h)/step := Int.ediv_nonneg (by omega) (Int.le_of_lt hstep)
    rw [if_pos hnext]
    omega
  · have hneg : (height-step-h)/step < 0 := Int.ediv_neg_of_neg_of_pos (by omega) hstep
    rw [if_neg hnext]
    omega

section
variable {f : GfxFont} {str : List UInt8} {fg bg : UInt16} {transparent : Bool} {ls : List Line}

/-- The loop of a box draws the lines for which there are rows, as far as it counts. -/
theorem boxLines_rows {box : GfxRect} {pitch : ℤ} {p : ℕ} (h : Wrapped f str box.w p ls) :
    ∀ (s : GfxSurface) (y drawn : ℤ),
      (boxLines f box pitch str fg bg transparent s p y drawn).1 =
        drawRows f box.x.toInt (if 0 < pitch then pitch else 1) fg bg transparent s y
          (ls.take (min (rowsFit f.h.toNat (if 0 < pitch then pitch else 1)
            (box.y.toInt+box.h.toInt-y)) (int16Max-drawn).toNat)) := by
  have hstep : 0 < if 0 < pitch then pitch else 1 := by
    split <;> omega
  induction h with
  | nil p hend =>
    intro s y drawn
    rw [boxLines, if_neg fun h => h.1 hend, List.take_nil]
    rfl
  | @cons l ls hbyte hline hcells _ ih =>
    intro s y drawn
    rw [boxLines]
    by_cases hgo : y+f.h.toNat ≤ box.y.toInt+box.h.toInt ∧ drawn < int16Max
    · have hcount : (int16Max-drawn).toNat = (int16Max-(drawn+1)).toNat+1 := by omega
      have hfit : (f.h.toNat : ℤ) ≤ box.y.toInt+box.h.toInt-y := by omega
      rw [if_pos ⟨hbyte,hgo⟩, hline]
      dsimp only
      rw [ih, drawRun_cells hcells, rowsFit_succ hstep hfit, hcount, ← Int.sub_sub,
        Nat.add_min_add_right, List.take_succ_cons, drawRows]
    · rw [if_neg fun h => hgo h.2]
      have hnone : min (rowsFit f.h.toNat (if 0 < pitch then pitch else 1)
          (box.y.toInt+box.h.toInt-y)) (int16Max-drawn).toNat = 0 := by
        unfold rowsFit
        rcases not_and_or.mp hgo with hfit | hfull
        · rw [if_neg (by omega), Nat.zero_min]
        · rw [show (int16Max-drawn).toNat = 0 by omega, Nat.min_zero]
      rw [hnone]
      rfl

theorem drawCells_uniform (y : Int16) (cps : List UInt32) (pen : ℤ) :
    Uniform fun s => drawCells f y fg bg transparent s pen cps := by
  induction cps generalizing pen with
  | nil => exact uniform_id
  | cons cp cps ih =>
    by_cases hpen : pen ≤ int16Max
    · obtain ⟨q,hq⟩ := (blit_uniform (Int16.ofInt pen) y (some (glyphBits f cp))
        f.w.toUInt16.toInt16 f.h.toUInt16.toInt16 fg bg transparent).then (ih (pen+f.w.toNat))
      refine ⟨q,fun s => ?_⟩
      dsimp only
      rw [drawCells, if_pos hpen]
      exact hq s
    · obtain ⟨q,hq⟩ := ih (pen+f.w.toNat)
      refine ⟨q,fun s => ?_⟩
      dsimp only
      rw [drawCells, if_neg hpen]
      exact hq s

theorem drawRows_uniform (x step : ℤ) (ls : List Line) (y : ℤ) :
    Uniform fun s => drawRows f x step fg bg transparent s y ls := by
  induction ls generalizing y with
  | nil => exact uniform_id
  | cons l ls ih => exact (drawCells_uniform (Int16.ofInt y) l.cells x).then (ih (y+step))

theorem drawRows_flat (hflat : f.h = 0) (x step : ℤ) (ls : List Line) :
    ∀ s y, drawRows f x step fg bg transparent s y ls = s := by
  have hblit : ∀ (s : GfxSurface) x y bits w,
      gfxBlit1bpp s x y (some bits) w f.h.toUInt16.toInt16 fg bg transparent = s := by
    intro s x y bits w
    have hclip : gfxClip s x.toInt y.toInt w.toInt f.h.toUInt16.toInt16.toInt = none := by
      rw [gfxClip, if_pos]
      exact .inr (.inr (.inl (by rw [hflat]; decide)))
    rw [gfxBlit1bpp]
    dsimp only
    rw [hclip]
  have hcells : ∀ (y : Int16) (cps : List UInt32) (s : GfxSurface) (pen : ℤ),
      drawCells f y fg bg transparent s pen cps = s := by
    intro y cps
    induction cps with
    | nil => exact fun _ _ => rfl
    | cons cp cps ih =>
      intro s pen
      rw [drawCells, hblit, ite_self]
      exact ih _ _
  induction ls with
  | nil => exact fun _ _ => rfl
  | cons l ls ih =>
    intro s y
    rw [drawRows, hcells]
    exact ih _ _

/-- A box draws the lines of the text, each in its row, as many as have one. -/
theorem textBox_rows {box : GfxRect} (h : Wrapped f str box.w 0 ls) (s : GfxSurface)
    (lineGap : Int16) :
    (gfxTextBox s (some f) box lineGap (some str) fg bg transparent).1 =
      { drawRows f box.x.toInt (rowStep f lineGap) fg bg transparent
          { s with clip := boxClip s.clip box } box.y.toInt
          (ls.take (rowsFit f.h.toNat (rowStep f lineGap) box.h.toInt)) with clip := s.clip } := by
  rw [gfxTextBox]
  dsimp only
  by_cases hempty : box.w.toInt ≤ 0 ∨ box.h.toInt ≤ 0
  · rw [if_pos hempty]
    have huniform : Uniform fun s => drawRows f box.x.toInt (rowStep f lineGap) fg bg transparent s
        box.y.toInt (ls.take (rowsFit f.h.toNat (rowStep f lineGap) box.h.toInt)) :=
      drawRows_uniform _ _ _ _
    obtain ⟨q,hq⟩ := huniform
    have hnothing : within box.window q = fun _ _ => none := by
      funext a b
      have hout : ¬box.window.Has a b := by
        unfold Window.Has GfxRect.window
        dsimp only
        omega
      rw [within, if_neg hout]
    dsimp only at hq
    rw [hq, draw_narrowed, hnothing, draw_none]
  · rw [if_neg hempty]
    have hrows : (boxLines f box (f.h.toNat+lineGap.toInt) str fg bg transparent
        { s with clip := boxClip s.clip box } 0 box.y.toInt 0).1 =
        drawRows f box.x.toInt (rowStep f lineGap) fg bg transparent
          { s with clip := boxClip s.clip box } box.y.toInt
          (ls.take (min (rowsFit f.h.toNat (rowStep f lineGap)
            (box.y.toInt+box.h.toInt-box.y.toInt)) (int16Max-0).toNat)) := boxLines_rows h _ _ _
    rw [show box.y.toInt+box.h.toInt-box.y.toInt = box.h.toInt by omega] at hrows
    dsimp only
    rw [hrows]
    by_cases hflat : f.h = 0
    · rw [drawRows_flat hflat, drawRows_flat hflat]
    · -- A row has a height, so that the count never ends before the box does.
      have hpos : 0 < f.h.toNat := Nat.pos_of_ne_zero fun h => hflat (UInt8.toNat_inj.mp h)
      have hmax := box.h.toInt_lt
      have hstep := rowStep_pos f lineGap
      have hrowsLe : rowsFit f.h.toNat (rowStep f lineGap) box.h.toInt ≤ (int16Max-0).toNat := by
        by_contra hmany
        have hfits := (rowsFit_iff hstep box.h.toInt 32767).mp (Nat.not_le.mp hmany)
        push_cast at hfits
        omega
      rw [Nat.min_eq_left hrowsLe]

end

/-- A text comes apart into lines that fit, between code points and with nothing lost but the spaces
and newlines between them; these are counted, and drawn in a box as far as there are rows. -/
theorem text_wraps {f : GfxFont} (hw : f.w ≠ 0) (str : List UInt8) (maxW : Int16) :
    ∃ ls, Wrapped f str maxW 0 ls ∧ (∀ l ∈ ls, l.Sound str (columns f maxW)) ∧
      (gfxTextLines (some f) (some str) maxW).toInt = min (ls.length : ℤ) int16Max ∧
      ∀ (s : GfxSurface) (box : GfxRect) (lineGap : Int16) (fg bg : UInt16) (transparent : Bool),
        box.w = maxW → ∃ n, (∀ i : ℕ, i < n ↔ box.y.toInt+i*rowStep f lineGap+f.h.toNat ≤
            box.y.toInt+box.h.toInt) ∧
          (gfxTextBox s (some f) box lineGap (some str) fg bg transparent).1 =
            { drawRows f box.x.toInt (rowStep f lineGap) fg bg transparent
                { s with clip := boxClip s.clip box } box.y.toInt (ls.take n) with clip := s.clip } := by
  obtain ⟨ls,hwrapped,hsound⟩ : ∃ ls, Wrapped f str maxW 0 ls ∧
    ∀ l ∈ ls, l.Sound str (columns f maxW) := wrapped_exists hw (.nil 0)
  refine ⟨ls,hwrapped,hsound,?_,?_⟩
  · have hcount := linesFrom_eq hwrapped int16Max.toNat
    have hmax : int16Max.toNat = 32767 := rfl
    rw [gfxTextLines, hcount, Int16.toInt_ofNat_of_lt (by omega)]
    omega
  · rintro s box lineGap fg bg transparent rfl
    refine ⟨rowsFit f.h.toNat (rowStep f lineGap) box.h.toInt,fun i => ?_,
      textBox_rows hwrapped s lineGap⟩
    rw [rowsFit_iff (rowStep_pos f lineGap)]
    omega

def cellFont : GfxFont := ⟨8,16,0x20,0x17F,0x3F,fun _ => 0⟩

/-- Two words that go on two lines. -/
theorem text_wraps_words : ∃ ls, Wrapped cellFont [0x61,0x62,0x20,0x63,0x64] 24 0 ls ∧
    (∀ l ∈ ls, l.Sound [0x61,0x62,0x20,0x63,0x64] (columns cellFont 24)) ∧
    (gfxTextLines (some cellFont) (some [0x61,0x62,0x20,0x63,0x64]) 24).toInt =
      min (ls.length : ℤ) int16Max := by
  obtain ⟨ls,hwrapped,hsound,hcount,-⟩ :=
    text_wraps (show cellFont.w ≠ 0 by decide) [0x61,0x62,0x20,0x63,0x64] 24
  exact ⟨ls,hwrapped,hsound,hcount⟩

end StarkOne.TextWrap
