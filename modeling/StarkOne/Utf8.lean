import Mathlib.Data.List.GetD
import Mathlib.Data.UInt
import Mathlib.Order.Bounds.Defs

/-!
# UTF-8

A string of bytes is valid when it is made of encoded code points. In a valid
string a code point ends exactly where the next byte is no continuation byte,
so that the last end before a position is found by going back over these.
-/

set_option autoImplicit false

namespace StarkOne.Utf8

def encode (cs : List Char) : List UInt8 := cs.flatMap String.utf8EncodeChar

def Valid (bytes : List UInt8) : Prop := ∃ cs, encode cs = bytes

def isCont (b : UInt8) : Bool := b &&& 0xC0 = 0x80

def Whole (bytes : List UInt8) (k : ℕ) : Prop :=
  k ≤ bytes.length ∧ Valid (bytes.take k) ∧ Valid (bytes.drop k)

def backOff (bytes : List UInt8) : ℕ → ℕ
  | 0 => 0
  | k+1 => if isCont (bytes.getD (k+1) 0) then backOff bytes k else k+1

theorem valid_nil : Valid [] := ⟨[],rfl⟩

theorem Valid.append {xs ys : List UInt8} (hx : Valid xs) (hy : Valid ys) : Valid (xs++ys) := by
  obtain ⟨cs,rfl⟩ := hx
  obtain ⟨ds,rfl⟩ := hy
  exact ⟨cs++ds,List.flatMap_append⟩

theorem valid_char (c : Char) : Valid (String.utf8EncodeChar c) :=
  ⟨[c],List.append_nil _⟩

theorem valid_ascii {bytes : List UInt8} (h : ∀ b ∈ bytes, b < 0x80) : Valid bytes := by
  induction bytes with
  | nil => exact valid_nil
  | cons b bytes ih =>
    have hb := h b List.mem_cons_self
    have hchar : String.utf8EncodeChar (Char.ofNat b.toNat) = [b] := by
      have : ∀ n < 128, String.utf8EncodeChar (Char.ofNat n) = [UInt8.ofNat n] := by decide
      rw [this b.toNat (UInt8.lt_iff_toNat_lt.mp hb), UInt8.ofNat_toNat]
    have hone := valid_char (Char.ofNat b.toNat)
    rw [hchar] at hone
    exact hone.append (ih fun b' hb' => h b' (List.mem_cons_of_mem _ hb'))

theorem valid_all {bytes : List UInt8} (h : bytes.all (· < 0x80) = true) : Valid bytes :=
  valid_ascii fun b hb => of_decide_eq_true (List.all_eq_true.mp h b hb)

inductive Encoded : List UInt8 → Prop where
  | ascii (b : UInt8) (hb : b < 0x80) : Encoded [b]
  | sequence (lead : UInt8) (rest : List UInt8) (hlead : 0xC0 ≤ lead) (hne : rest ≠ [])
      (hrest : ∀ b ∈ rest, isCont b = true) : Encoded (lead::rest)

theorem encoded_char (c : Char) : Encoded (String.utf8EncodeChar c) := by
  have hcont : ∀ n, isCont (UInt8.ofNat (n%64+128)) = true := by
    have : ∀ k < 64, isCont (UInt8.ofNat (k+128)) = true := by decide
    exact fun n => this _ (Nat.mod_lt _ (by decide))
  have hlead : ∀ n m, 192 ≤ m → n+m < 256 → 0xC0 ≤ UInt8.ofNat (n+m) := by
    intro n m hm hlt
    rw [UInt8.le_iff_toNat_le, UInt8.toNat_ofNat', Nat.mod_eq_of_lt hlt]
    exact hm.trans (Nat.le_add_left _ _)
  unfold String.utf8EncodeChar
  dsimp only
  split
  · rename_i h
    refine .ascii _ ?_
    rw [UInt8.lt_iff_toNat_lt, UInt8.toNat_ofNat']
    exact Nat.lt_of_le_of_lt (Nat.mod_le _ _) (Nat.lt_succ_of_le h)
  split
  · refine .sequence _ _ (hlead _ _ (by decide) (by omega)) (List.cons_ne_nil _ _) fun b hb => ?_
    rw [List.mem_singleton.mp hb]
    exact hcont _
  split
  · refine .sequence _ _ (hlead _ _ (by decide) (by omega)) (List.cons_ne_nil _ _) fun b hb => ?_
    simp only [List.mem_cons, List.not_mem_nil, or_false] at hb
    rcases hb with rfl | rfl <;> exact hcont _
  · refine .sequence _ _ (hlead _ _ (by decide) (by omega)) (List.cons_ne_nil _ _) fun b hb => ?_
    simp only [List.mem_cons, List.not_mem_nil, or_false] at hb
    rcases hb with rfl | rfl | rfl <;> exact hcont _

theorem Valid.induct {P : ∀ bytes, Valid bytes → Prop} (nil : P [] valid_nil)
    (cons : ∀ char rest, Encoded char → ∀ (hchar : Valid char) (hrest : Valid rest), P rest hrest →
      P (char++rest) (hchar.append hrest)) {bytes : List UInt8} (h : Valid bytes) : P bytes h := by
  obtain ⟨cs,rfl⟩ := h
  induction cs with
  | nil => exact nil
  | cons c cs ih => exact cons _ _ (encoded_char c) (valid_char c) ⟨cs,rfl⟩ ih

theorem isCont_ascii {b : UInt8} (h : b < 0x80) : isCont b = false := by
  have : ∀ n < 128, isCont (UInt8.ofNat n) = false := by decide
  have hb := this b.toNat (UInt8.lt_iff_toNat_lt.mp h)
  rwa [UInt8.ofNat_toNat] at hb

theorem isCont_high {b : UInt8} (h : isCont b = true) : 0x80 ≤ b := by
  by_contra hlow
  rw [isCont_ascii (UInt8.not_le.mp hlow)] at h
  cases h

theorem isCont_lead {b : UInt8} (h : 0xC0 ≤ b) : isCont b = false := by
  have : ∀ n < 64, isCont (UInt8.ofNat (192+n)) = false := by decide
  have hlow : 192 ≤ b.toNat := UInt8.le_iff_toNat_le.mp h
  have hb := this (b.toNat-192) (by have := b.toNat_lt; omega)
  rwa [Nat.add_sub_cancel' hlow, UInt8.ofNat_toNat] at hb

section
variable {char : List UInt8} {k : ℕ}

theorem Encoded.length_pos (h : Encoded char) : 0 < char.length := by
  cases h <;> exact Nat.succ_pos _

theorem Encoded.first (h : Encoded char) : isCont (char.getD 0 0) = false := by
  cases h with
  | ascii b hb => exact isCont_ascii hb
  | sequence lead rest hlead => exact isCont_lead hlead

theorem Encoded.inner (h : Encoded char) (hk : k+1 < char.length) :
    isCont (char.getD (k+1) 0) = true := by
  cases h with
  | ascii b hb => exact absurd hk (by simp)
  | sequence lead rest hlead hne hrest =>
    have hlt : k < rest.length := Nat.lt_of_succ_lt_succ hk
    rw [List.getD_cons_succ, List.getD_eq_getElem _ _ hlt]
    exact hrest _ (List.getElem_mem hlt)

theorem Encoded.lead (h : Encoded char) (hlen : 1 < char.length) : 0xC0 ≤ char.getD 0 0 := by
  cases h with
  | ascii b hb => exact absurd hlen (by simp)
  | sequence lead rest hlead => exact hlead

end

section
variable {bytes : List UInt8} {k : ℕ}

theorem Valid.first (h : Valid bytes) : isCont (bytes.getD 0 0) = false := by
  induction h using Valid.induct with
  | nil => rfl
  | cons char rest hc _ _ _ =>
    rw [List.getD_append _ _ _ _ hc.length_pos]
    exact hc.first

theorem whole_iff (h : Valid bytes) (hk : k ≤ bytes.length) :
    Whole bytes k ↔ isCont (bytes.getD k 0) = false := by
  constructor
  · rintro ⟨-,-,hdrop⟩
    have hfirst := hdrop.first
    rwa [List.getD_eq_getElem?_getD, List.getElem?_drop, Nat.add_zero,
      ← List.getD_eq_getElem?_getD] at hfirst
  · intro hcont
    induction h using Valid.induct generalizing k with
    | nil =>
      obtain rfl : k = 0 := Nat.le_zero.mp hk
      exact ⟨hk,valid_nil,valid_nil⟩
    | cons char rest hc hchar hrest ih =>
      rcases Nat.lt_or_ge k char.length with hlt | hge
      · cases k with
        | zero => exact ⟨hk,valid_nil,hchar.append hrest⟩
        | succ k =>
          rw [List.getD_append _ _ _ _ hlt, hc.inner hlt] at hcont
          cases hcont
      · obtain ⟨j,rfl⟩ := Nat.exists_eq_add_of_le hge
        rw [List.length_append] at hk
        rw [List.getD_append_right _ _ _ _ hge, Nat.add_sub_cancel_left] at hcont
        obtain ⟨-,htake,hdrop⟩ := ih (by omega) hcont
        refine ⟨by rw [List.length_append]; exact hk,?_,?_⟩
        · rw [List.take_length_add_append]
          exact hchar.append htake
        · rw [List.drop_length_add_append]
          exact hdrop

/-- Before a continuation byte is another, or the byte that the code point starts with. -/
theorem Valid.before (h : Valid bytes) (hcont : isCont (bytes.getD (k+1) 0) = true) :
    isCont (bytes.getD k 0) = true ∨ 0xC0 ≤ bytes.getD k 0 := by
  induction h using Valid.induct generalizing k with
  | nil =>
    rw [List.getD_nil] at hcont
    exact absurd hcont (by decide)
  | cons char rest hc hchar hrest ih =>
    rcases Nat.lt_or_ge (k+1) char.length with hlt | hge
    · rw [List.getD_append _ _ _ _ (by omega)]
      cases k with
      | zero => exact .inr (hc.lead hlt)
      | succ k => exact .inl (hc.inner (by omega))
    · rw [List.getD_append_right _ _ _ _ hge] at hcont
      rcases Nat.eq_or_lt_of_le hge with heq | hgt
      · rw [← heq, Nat.sub_self, hrest.first] at hcont
        cases hcont
      · rw [List.getD_append_right _ _ _ _ (by omega)]
        refine ih ?_
        rwa [show k-char.length+1 = k+1-char.length by omega]

theorem whole_zero (h : Valid bytes) : Whole bytes 0 := ⟨Nat.zero_le _,valid_nil,h⟩

theorem backOff_le (bytes : List UInt8) (k : ℕ) : backOff bytes k ≤ k := by
  induction k with
  | zero => exact Nat.le_refl _
  | succ k ih =>
    unfold backOff
    split
    · exact Nat.le_succ_of_le ih
    · exact Nat.le_refl _

theorem backOff_congr {xs ys : List UInt8} {k : ℕ} (h : ∀ i ≤ k, xs.getD i 0 = ys.getD i 0) :
    backOff xs k = backOff ys k := by
  induction k with
  | zero => rfl
  | succ k ih =>
    unfold backOff
    rw [h (k+1) (Nat.le_refl _), ih fun i hi => h i (Nat.le_succ_of_le hi)]

/-- Going back ends at the last end of a code point. -/
theorem backOff_greatest (h : Valid bytes) (hk : k ≤ bytes.length) :
    IsGreatest {m | Whole bytes m ∧ m ≤ k} (backOff bytes k) := by
  induction k with
  | zero => exact ⟨⟨whole_zero h,Nat.le_refl _⟩,fun m hm => hm.2⟩
  | succ k ih =>
    unfold backOff
    by_cases hcont : isCont (bytes.getD (k+1) 0) = true
    · rw [if_pos hcont]
      obtain ⟨⟨hwhole,hle⟩,hmax⟩ := ih (by omega)
      refine ⟨⟨hwhole,Nat.le_succ_of_le hle⟩,fun m hm => hmax ⟨hm.1,?_⟩⟩
      have hne : m ≠ k+1 := by
        rintro rfl
        rw [(whole_iff h hk).mp hm.1] at hcont
        cases hcont
      have := hm.2
      omega
    · rw [if_neg hcont]
      exact ⟨⟨(whole_iff h hk).mpr (by simpa using hcont),Nat.le_refl _⟩,fun m hm => hm.2⟩

end

end StarkOne.Utf8
