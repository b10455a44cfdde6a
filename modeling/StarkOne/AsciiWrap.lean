import StarkOne.TextWrap

/-!
# Where ASCII text is broken

Which lines an ASCII text has depends on where its spaces and newlines are, and
not on the letters between them. So texts of one shape have as many lines.
-/

set_option autoImplicit false

namespace StarkOne.AsciiWrap
open StarkOne.Gfx StarkOne.GfxText StarkOne.TextWrap

def kind (b : UInt8) : UInt8 := if b = 0 ∨ b = 0x0A ∨ b = 0x20 then b else 0x41

theorem kind_low (b : UInt8) : kind b < 0x80 := by
  unfold kind
  split_ifs with h
  · rcases h with rfl | rfl | rfl <;> decide
  · decide

theorem kind_eq {b c : UInt8} (hc : c = 0 ∨ c = 0x0A ∨ c = 0x20) : kind b = c ↔ b = c := by
  unfold kind
  by_cases hb : b = 0 ∨ b = 0x0A ∨ b = 0x20
  · rw [if_pos hb]
  · rw [if_neg hb]
    refine iff_of_false (fun h => ?_) (fun h => hb (h ▸ hc))
    rcases hc with rfl | rfl | rfl <;> cases h

theorem toUInt32_space {b : UInt8} : b.toUInt32 = 0x20 ↔ b = 0x20 := by
  constructor
  · intro h
    have h8 : b.toUInt32.toUInt8 = (0x20 : UInt32).toUInt8 := congrArg _ h
    simpa using h8
  · rintro rfl
    rfl

def Ascii (str : List UInt8) : Prop := ∀ b ∈ str, b < 0x80

instance (str : List UInt8) : Decidable (Ascii str) := inferInstanceAs (Decidable (∀ _ ∈ _, _))

theorem ascii_append {a b : List UInt8} (ha : Ascii a) (hb : Ascii b) : Ascii (a++b) :=
  List.forall_mem_append.mpr ⟨ha,hb⟩

theorem ascii_kinds (str : List UInt8) : Ascii (str.map kind) := by
  intro b hb
  obtain ⟨c,-,rfl⟩ := List.mem_map.mp hb
  exact kind_low c

section
variable {str : List UInt8}

theorem byte_kinds (str : List UInt8) (p : ℕ) : byte (str.map kind) p = kind (byte str p) :=
  List.getD_map str 0 kind

theorem byte_ascii (h : Ascii str) (p : ℕ) : byte str p < 0x80 := by
  by_cases hp : p < str.length
  · unfold byte
    rw [List.getD_eq_getElem _ _ hp]
    exact h _ (List.getElem_mem hp)
  · unfold byte
    rw [List.getD_eq_default _ _ (Nat.le_of_not_lt hp)]
    decide

theorem nextCp_low (h : Ascii str) (p : ℕ) : nextCp str p = ((byte str p).toUInt32,p+1) := by
  unfold nextCp
  dsimp only
  rw [if_pos (byte_ascii h p)]

theorem byte_same (str : List UInt8) {c : UInt8} (hc : c = 0 ∨ c = 0x0A ∨ c = 0x20) (p : ℕ) :
    byte (str.map kind) p = c ↔ byte str p = c := by
  rw [byte_kinds]
  exact kind_eq hc

theorem skipSpaces_kinds (p : ℕ) :
    skipSpaces (str.map kind) p = skipSpaces str p := by
  induction hn : str.length-p using Nat.strongRecOn generalizing p with | ind n ih =>
  subst hn
  rw [skipSpaces, skipSpaces.eq_def str]
  have hspace := byte_same str (c := 0x20) (.inr (.inr rfl)) p
  by_cases hs : byte str p = 0x20
  · rw [dif_pos hs, dif_pos (hspace.mpr hs)]
    have hlt := byte_lt (show byte str p ≠ 0 by rw [hs]; decide)
    exact ih _ (by omega) (p+1) rfl
  · rw [dif_neg hs, dif_neg (hspace.not.mpr hs)]

theorem lineFrom_kinds (h : Ascii str) (cols : ℤ) (p : ℕ) (n : ℤ) (lastSpace : Option ℕ) :
    lineFrom (str.map kind) cols p n lastSpace = lineFrom str cols p n lastSpace := by
  induction hm : str.length-p using Nat.strongRecOn generalizing p n lastSpace with | ind m ih =>
  subst hm
  rw [lineFrom.eq_def, lineFrom.eq_def str, nextCp_low h, nextCp_low (ascii_kinds str)]
  dsimp only
  have hend := byte_same str (c := 0) (.inl rfl) p
  have hnewline := byte_same str (c := 0x0A) (.inr (.inl rfl)) p
  have hspace : (byte (str.map kind) p).toUInt32 = 0x20 ↔ (byte str p).toUInt32 = 0x20 := by
    rw [toUInt32_space, toUInt32_space]
    exact byte_same str (.inr (.inr rfl)) p
  by_cases hz : byte str p = 0
  · rw [dif_pos hz, dif_pos (hend.mpr hz)]
  rw [dif_neg hz, dif_neg (hend.not.mpr hz)]
  have hlt := byte_lt hz
  simp only [hnewline, hspace, skipSpaces_kinds, ih _ (show str.length-(p+1) < str.length-p by omega)
    (p+1) _ _ rfl]

theorem linesFrom_kinds (f : GfxFont) (h : Ascii str) (maxW : Int16) (n p : ℕ) :
    linesFrom f (str.map kind) maxW n p = linesFrom f str maxW n p := by
  induction n generalizing p with
  | zero => rfl
  | succ n ih =>
    have hend := byte_same str (c := 0) (.inl rfl) p
    rw [linesFrom, linesFrom]
    by_cases hz : byte str p = 0
    · rw [if_pos hz, if_pos (hend.mpr hz)]
    rw [if_neg hz, if_neg (hend.not.mpr hz), ih]
    congr 2
    unfold gfxTextLine
    dsimp only
    rw [lineFrom_kinds h]
    simp only [hend]
    split_ifs <;> rfl

end

theorem linesFrom_width {f g : GfxFont} (h : f.w = g.w) (str : List UInt8) (maxW : Int16) (n p : ℕ) :
    linesFrom f str maxW n p = linesFrom g str maxW n p := by
  induction n generalizing p with
  | zero => rfl
  | succ n ih =>
    rw [linesFrom, linesFrom, ih]
    unfold gfxTextLine
    dsimp only
    rw [h]

end StarkOne.AsciiWrap
