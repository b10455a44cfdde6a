import Mathlib.Algebra.Group.Nat.Defs
import Mathlib.Data.List.Basic
import Mathlib.Data.List.Induction

/-!
# Numbered names

A name of a pattern is a number of fixed width between two fixed parts. Names
that differ in the case of their letters are one name to a directory that
ignores case, but not to a reader of names.
-/

set_option autoImplicit false

namespace StarkOne.NumberedNames

def lower (name : List Char) : List Char := name.map Char.toLower

structure Pattern where
  head : List Char
  tail : List Char
  width : ℕ
  low : lower head = head ∧ lower tail = tail

def digit (c : Char) : Bool := '0' ≤ c && c ≤ '9'

def value (digits : List Char) : ℕ := Nat.ofDigitChars 10 digits 0

def spelled (width n : ℕ) : List Char :=
  List.replicate (width-(Nat.toDigits 10 n).length) '0'++Nat.toDigits 10 n

namespace Pattern

def name (p : Pattern) (n : ℕ) : List Char := p.head++spelled p.width n++p.tail

def number (p : Pattern) (name : List Char) : Option ℕ :=
  if name.length ≠ p.head.length+p.width+p.tail.length || name.take p.head.length ≠ p.head ||
      name.drop (p.head.length+p.width) ≠ p.tail then none
  else
    let digits := (name.drop p.head.length).take p.width
    if digits.all digit then some (value digits) else none

end Pattern

section digits

theorem digit_cases {c : Char} (h : digit c = true) : ∃ d < 10, c = Nat.digitChar d := by
  have hc : '0' ≤ c ∧ c ≤ '9' := by simpa [digit] using h
  have hlow : 48 ≤ c.toNat := hc.1
  have hhigh : c.toNat ≤ 57 := hc.2
  refine ⟨c.toNat-48,by omega,?_⟩
  have hall : ∀ k : Fin 10, Nat.digitChar k = Char.ofNat (48+k) := by decide
  have := hall ⟨c.toNat-48,by omega⟩
  dsimp only at this
  rw [this, show 48+(c.toNat-48) = c.toNat by omega, Char.ofNat_toNat]

theorem digitChar_digit : ∀ d : Fin 10, digit (Nat.digitChar d) = true ∧
    (Nat.digitChar d).toLower = Nat.digitChar d := by
  decide

theorem toDigits_digit (n : ℕ) : ∀ c ∈ Nat.toDigits 10 n, digit c = true := by
  induction n using Nat.strongRecOn with
  | ind n ih =>
    intro c hc
    rw [Nat.toDigits_eq_if (by decide)] at hc
    split at hc
    · rename_i hn
      rw [List.mem_singleton.mp hc]
      exact (digitChar_digit ⟨n,hn⟩).1
    · rcases List.mem_append.mp hc with hc | hc
      · exact ih (n/10) (Nat.div_lt_self (by omega) (by decide)) c hc
      · rw [List.mem_singleton.mp hc]
        exact (digitChar_digit ⟨n % 10,Nat.mod_lt n (by decide)⟩).1

theorem spelled_digit (width n : ℕ) : ∀ c ∈ spelled width n, digit c = true := by
  intro c hc
  rcases List.mem_append.mp hc with hc | hc
  · rw [List.eq_of_mem_replicate hc]
    decide
  · exact toDigits_digit n c hc

theorem spelled_length {width n : ℕ} (hw : 0 < width) (h : n < 10^width) :
    (spelled width n).length = width := by
  have hlen : (Nat.toDigits 10 n).length ≤ width :=
    (Nat.length_toDigits_le_iff (by decide) hw).mpr h
  rw [spelled, List.length_append, List.length_replicate]
  omega

theorem value_spelled (width n : ℕ) : value (spelled width n) = n := by
  rw [value, spelled, Nat.ofDigitChars_append, Nat.ofDigitChars_replicate_zero, Nat.mul_zero,
    Nat.ofDigitChars_ten_toDigits]

theorem value_snoc (digits : List Char) (d : ℕ) (hd : d < 10) :
    value (digits++[Nat.digitChar d]) = 10*value digits+d := by
  rw [value, value, Nat.ofDigitChars_append, Nat.ofDigitChars_cons_digitChar_of_lt_ten hd,
    Nat.ofDigitChars_nil]

theorem value_injective (width : ℕ) : ∀ a b : List Char, a.length = width → b.length = width →
    (∀ c ∈ a, digit c = true) → (∀ c ∈ b, digit c = true) → value a = value b → a = b := by
  induction width with
  | zero =>
    intro a b ha hb _ _ _
    rw [List.length_eq_zero_iff.mp ha, List.length_eq_zero_iff.mp hb]
  | succ width ih =>
    intro a b ha hb hda hdb h
    obtain ⟨a,x,rfl⟩ := (List.eq_nil_or_concat' a).resolve_left (by rintro rfl; cases ha)
    obtain ⟨b,y,rfl⟩ := (List.eq_nil_or_concat' b).resolve_left (by rintro rfl; cases hb)
    obtain ⟨dx,hx,rfl⟩ := digit_cases (hda x (by simp))
    obtain ⟨dy,hy,rfl⟩ := digit_cases (hdb y (by simp))
    rw [value_snoc _ _ hx, value_snoc _ _ hy] at h
    obtain rfl : dx = dy := by omega
    rw [ih a b (by simpa using ha) (by simpa using hb) (fun c hc => hda c (by simp [hc]))
      (fun c hc => hdb c (by simp [hc])) (by omega)]

theorem value_lt (width : ℕ) : ∀ a : List Char, a.length = width → (∀ c ∈ a, digit c = true) →
    value a < 10^width := by
  induction width with
  | zero =>
    intro a ha _
    rw [List.length_eq_zero_iff.mp ha]
    decide
  | succ width ih =>
    intro a ha hd
    obtain ⟨a,x,rfl⟩ := (List.eq_nil_or_concat' a).resolve_left (by rintro rfl; cases ha)
    obtain ⟨dx,hx,rfl⟩ := digit_cases (hd x (by simp))
    have := ih a (by simpa using ha) fun c hc => hd c (by simp [hc])
    rw [value_snoc _ _ hx, Nat.pow_succ]
    omega

theorem toDigits_head (n : ℕ) (h : 1 < (Nat.toDigits 10 n).length) :
    (Nat.toDigits 10 n).head? ≠ some '0' := by
  induction n using Nat.strongRecOn with
  | ind n ih =>
    rw [Nat.toDigits_eq_if (by decide)] at h ⊢
    split at h
    · simp at h
    rename_i hn
    rw [if_neg hn, List.head?_append_of_ne_nil _ Nat.toDigits_ne_nil]
    by_cases hsmall : n/10 < 10
    · have hpos : 0 < n/10 := Nat.div_pos (by omega) (by decide)
      have hall : ∀ d : Fin 10, 0 < d.val → Nat.digitChar d ≠ '0' := by decide
      rw [Nat.toDigits_of_lt_base hsmall]
      simpa using hall ⟨n/10,hsmall⟩ hpos
    · refine ih (n/10) (Nat.div_lt_self (by omega) (by decide)) ?_
      rw [Nat.toDigits_eq_if (by decide), if_neg hsmall, List.length_append]
      have := List.length_pos_of_ne_nil (Nat.toDigits_ne_nil (b := 10) (n := n/10/10))
      rw [List.length_singleton]
      omega

theorem toDigits_value (s : List Char) (hne : s ≠ []) (hd : ∀ c ∈ s, digit c = true)
    (hz : 1 < s.length → s.head? ≠ some '0') : Nat.toDigits 10 (value s) = s := by
  induction s using List.reverseRecOn with
  | nil => exact absurd rfl hne
  | append_singleton a x ih =>
    obtain ⟨d,hlt,rfl⟩ := digit_cases (hd x (by simp))
    rw [value_snoc _ _ hlt]
    by_cases ha : a = []
    · subst a
      rw [show value [] = 0 from rfl, Nat.mul_zero, Nat.zero_add, Nat.toDigits_of_lt_base hlt]
      rfl
    have hlen := List.length_pos_of_ne_nil ha
    have hhead : a.head? ≠ some '0' := by
      have := hz (by rw [List.length_append, List.length_singleton]; omega)
      rwa [List.head?_append_of_ne_nil _ ha] at this
    have hrest := ih ha (fun c hc => hd c (by simp [hc])) fun _ => hhead
    have hpos : 0 < value a := by
      by_contra h0
      rw [show value a = 0 by omega] at hrest
      rw [← hrest] at hhead
      exact hhead rfl
    have hten : ¬10*value a+d < 10 := by omega
    rw [Nat.toDigits_eq_if (by decide), if_neg hten, show (10*value a+d)/10 = value a by omega,
      show (10*value a+d)%10 = d by omega, hrest]

end digits

namespace Pattern
variable {p : Pattern}

theorem number_name {n : ℕ} (hw : 0 < p.width) (h : n < 10^p.width) :
    p.number (p.name n) = some n := by
  have hlen := spelled_length hw h
  have hdrop : (p.name n).drop p.head.length = spelled p.width n++p.tail := by
    rw [name, List.append_assoc, List.drop_left]
  have htail : (p.name n).drop (p.head.length+p.width) = p.tail := by
    rw [← List.drop_drop, hdrop, List.drop_left' hlen]
  have htake : (p.name n).take p.head.length = p.head := by
    rw [name, List.append_assoc, List.take_left]
  have hwhole : (p.name n).length = p.head.length+p.width+p.tail.length := by
    rw [name, List.length_append, List.length_append, hlen]
  unfold number
  rw [hwhole, htake, htail, hdrop, List.take_left' hlen]
  dsimp only
  rw [if_neg (by simp), if_pos (List.all_eq_true.mpr (spelled_digit _ _)), value_spelled]

/-- A name has a number of the pattern exactly when it is how the pattern spells the number. -/
theorem number_iff (hw : 0 < p.width) {name : List Char} {n : ℕ} :
    p.number name = some n ↔ n < 10^p.width ∧ name = p.name n := by
  constructor
  · intro h
    unfold number at h
    split at h
    · cases h
    rename_i hshape
    simp only [Bool.or_eq_true, decide_eq_true_eq, not_or, Decidable.not_not] at hshape
    obtain ⟨⟨hlen,htake⟩,htail⟩ := hshape
    dsimp only at h
    split at h
    · rename_i hall
      obtain rfl := Option.some.inj h
      have hdigits : ((name.drop p.head.length).take p.width).length = p.width := by
        rw [List.length_take, List.length_drop]
        omega
      have hlt := value_lt p.width _ hdigits (List.all_eq_true.mp hall)
      refine ⟨hlt,?_⟩
      have hspelled := value_injective p.width _ _ (spelled_length hw hlt) hdigits
        (spelled_digit _ _) (List.all_eq_true.mp hall) (value_spelled _ _)
      rw [Pattern.name, hspelled, List.append_assoc]
      have hrest : (name.drop p.head.length).take p.width++p.tail = name.drop p.head.length := by
        rw [← htail, ← List.drop_drop, List.take_append_drop]
      calc name = name.take p.head.length++name.drop p.head.length :=
            (List.take_append_drop _ _).symm
        _ = _ := by rw [htake, hrest]
    · cases h
  · rintro ⟨hn,rfl⟩
    exact number_name hw hn

theorem lower_name (n : ℕ) : lower (p.name n) = p.name n := by
  have hdigits : lower (spelled p.width n) = spelled p.width n := by
    conv_rhs => rw [← List.map_id (spelled p.width n)]
    apply List.map_congr_left
    intro c hc
    obtain ⟨d,hd,rfl⟩ := digit_cases (spelled_digit _ _ c hc)
    exact (digitChar_digit ⟨d,hd⟩).2
  unfold name
  rw [lower, List.map_append, List.map_append]
  exact congrArg₂ (·++·) (congrArg₂ (·++·) p.low.1 hdigits) p.low.2

/-- Ignoring case, a file has the name of a number exactly when that is the number it shows. -/
theorem lower_eq_iff (hw : 0 < p.width) {n : ℕ} (hn : n < 10^p.width) (q : List Char) :
    lower q = lower (p.name n) ↔ p.number (lower q) = some n := by
  rw [lower_name, number_iff hw]
  exact ⟨fun h => ⟨hn,h⟩,fun h => h.2⟩

end Pattern

section highest

def scan (number : List Char → Option ℕ) (highest : ℕ) (name : List Char) : ℕ :=
  match number name with
  | some n => if highest < n then n else highest
  | none => highest

variable {number : List Char → Option ℕ}

theorem scan_le (highest : ℕ) (name : List Char) : highest ≤ scan number highest name := by
  unfold scan
  split
  · split
    · exact Nat.le_of_lt ‹_›
    · exact Nat.le_refl highest
  · exact Nat.le_refl highest

theorem scan_number {highest n : ℕ} {name : List Char} (h : number name = some n) :
    n ≤ scan number highest name := by
  unfold scan
  rw [h]
  dsimp only
  split
  · exact Nat.le_refl n
  · exact Nat.not_lt.mp ‹_›

variable (number)

theorem foldl_scan_le (names : List (List Char)) : ∀ highest,
    highest ≤ names.foldl (scan number) highest := by
  induction names with
  | nil => exact Nat.le_refl
  | cons name names ih => exact fun highest => Nat.le_trans (scan_le highest name) (ih _)

theorem le_foldl_scan (names : List (List Char)) : ∀ highest, ∀ q ∈ names, ∀ n,
    number q = some n → n ≤ names.foldl (scan number) highest := by
  induction names with
  | nil => exact fun _ q hq => by cases hq
  | cons name names ih =>
    intro highest q hq n hn
    rcases List.mem_cons.mp hq with rfl | hq
    · exact Nat.le_trans (scan_number hn) (foldl_scan_le number names _)
    · exact ih _ q hq n hn

theorem foldl_scan_cases (names : List (List Char)) : ∀ highest,
    names.foldl (scan number) highest = highest ∨
    ∃ q ∈ names, number q = some (names.foldl (scan number) highest) := by
  induction names with
  | nil => exact fun _ => Or.inl rfl
  | cons name names ih =>
    intro highest
    rw [List.foldl_cons]
    rcases ih (scan number highest name) with h | ⟨q,hq,h⟩
    · rw [h]
      unfold scan
      cases hn : number name with
      | none => exact Or.inl rfl
      | some n =>
        dsimp only
        split
        · exact Or.inr ⟨name,List.mem_cons_self,hn⟩
        · exact Or.inl rfl
    · exact Or.inr ⟨q,List.mem_cons_of_mem _ hq,h⟩

end highest

end StarkOne.NumberedNames
