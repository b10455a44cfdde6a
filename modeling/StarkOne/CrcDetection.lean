import Mathlib.Data.List.GetD
import StarkOne.ModuleFormat
import StarkOne.ShiftRegister

/-!
# What the checksum of a descriptor detects

Flipping a bit of an accepted block adds a power of the variable to the
difference of the computed and the stored checksum, whichever bit it is. The
powers of the 256 bits are different, and all of odd parity.
-/

set_option autoImplicit false

namespace StarkOne.CrcDetection
open StarkOne.ModuleFormat StarkOne.ShiftRegister

/-- The polynomial but for its highest term. -/
def poly : BitVec 16 := 0x1021

def low (c : UInt32) : BitVec 16 := c.toBitVec.setWidth 16

def wide (b : UInt8) : BitVec 16 := b.toBitVec.setWidth 16

def byteStep (c : BitVec 16) (b : UInt8) : BitVec 16 := (shift poly)^[8] (c ^^^ wide b <<< 8)

def register (c : BitVec 16) (bytes : List UInt8) : BitVec 16 := bytes.foldl byteStep c

def stored (raw : List UInt8) : BitVec 16 :=
  wide (raw.getD crcOffset 0) ^^^ wide (raw.getD (crcOffset+1) 0) <<< 8

def syndrome (raw : List UInt8) : BitVec 16 := register 0xFFFF (raw.take crcOffset) ^^^ stored raw

def flipBit (raw : List UInt8) (p : ℕ) : List UInt8 :=
  raw.modify (p/8) (· ^^^ (1 : UInt8) <<< UInt8.ofNat (p%8))

/-- The power that a bit stands for: the stored checksum is the low end, its bytes swapped. -/
def power (p : ℕ) : ℕ :=
  if p/8 < crcOffset then 8*(crcOffset-p/8)+8+p%8 else 8*(p/8-crcOffset)+p%8

theorem wide_xor (a b : UInt8) : wide (a ^^^ b) = wide a ^^^ wide b := BitVec.setWidth_xor

theorem low_msb (c : UInt32) : (low c).msb = true ↔ c &&& 0x8000 ≠ 0 := by
  have hand : (c &&& 0x8000).toBitVec = if c.toBitVec.getLsbD 15 then BitVec.twoPow 32 15 else 0 :=
    BitVec.and_twoPow c.toBitVec 15
  have hmsb : (low c).msb = c.toBitVec.getLsbD 15 := by
    rw [BitVec.msb_eq_getLsbD_last, low, BitVec.getLsbD_setWidth]
    rfl
  rw [hmsb, Ne, ← UInt32.toBitVec_inj, hand]
  cases c.toBitVec.getLsbD 15 <;> decide

theorem crcBits_low (n : ℕ) (c : UInt32) : low (crcBits n c) = (shift poly)^[n] (low c) := by
  induction n generalizing c with
  | zero => rfl
  | succ n ih =>
    have hup : low (c <<< 1) = low c <<< 1 := BitVec.setWidth_shiftLeft_of_le (by decide)
    have hstep : low (if c &&& 0x8000 ≠ 0 then c <<< 1 ^^^ 0x1021 else c <<< 1) =
        shift poly (low c) := by
      unfold shift
      by_cases hbit : c &&& 0x8000 ≠ 0
      · rw [if_pos hbit, if_pos ((low_msb c).mpr hbit), ← hup]
        exact BitVec.setWidth_xor
      · rw [if_neg hbit, if_neg fun h => hbit ((low_msb c).mp h), hup]
    rw [crcBits, ih, hstep, Function.iterate_succ_apply]

theorem fold_register (bytes : List UInt8) (crc : UInt32) :
    low (bytes.foldl
      (fun crc b => crcBits 8 (crc ^^^ (b.toUInt32 <<< (8 : UInt32))) &&& 0xFFFF) crc) =
      register (low crc) bytes := by
  induction bytes generalizing crc with
  | nil => rfl
  | cons b bytes ih =>
    have hmask (c : UInt32) : low (c &&& 0xFFFF) = low c := by
      unfold low
      rw [UInt32.toBitVec_and, BitVec.setWidth_and]
      exact BitVec.and_allOnes
    have hbyte : low (b.toUInt32 <<< (8 : UInt32)) = wide b <<< 8 := by
      show (b.toBitVec.setWidth 32 <<< 8).setWidth 16 = _
      rw [BitVec.setWidth_shiftLeft_of_le (by decide), BitVec.setWidth_setWidth_of_le _ (by decide)]
      rfl
    have hxor (c d : UInt32) : low (c ^^^ d) = low c ^^^ low d := BitVec.setWidth_xor
    rw [List.foldl_cons, ih, hmask, crcBits_low, hxor, hbyte]
    rfl

theorem fold_lt (bytes : List UInt8) {crc : UInt32} (h : crc.toNat < 65536) :
    (bytes.foldl
      (fun crc b => crcBits 8 (crc ^^^ (b.toUInt32 <<< (8 : UInt32))) &&& 0xFFFF) crc).toNat <
      65536 := by
  induction bytes generalizing crc with
  | nil => exact h
  | cons b bytes ih =>
    refine ih ?_
    rw [UInt32.toNat_and]
    exact Nat.lt_of_le_of_lt Nat.and_le_right (by decide)

theorem crc16_toNat (bytes : List UInt8) : (crc16 bytes).toNat = (register 0xFFFF bytes).toNat := by
  have hlow : register 0xFFFF bytes = low (crc16 bytes) := (fold_register bytes 0xFFFF).symm
  rw [hlow, low, BitVec.toNat_setWidth]
  exact (Nat.mod_eq_of_lt (fold_lt bytes (by decide))).symm

theorem stored_toNat (raw : List UInt8) : (stored raw).toNat =
    (raw.getD crcOffset 0).toNat ||| (raw.getD (crcOffset+1) 0).toNat <<< 8 := by
  have hor (lo hi : UInt8) : wide lo ^^^ wide hi <<< 8 = wide lo ||| wide hi <<< 8 := by
    apply BitVec.eq_of_getLsbD_eq
    intro i hi
    rcases Nat.lt_or_ge i 8 with hlt | hge
    · simp [hlt]
    · have : (wide lo).getLsbD i = false := by simp [wide, BitVec.getLsbD_of_ge _ _ hge]
      simp [this]
  have hwide (b : UInt8) : (wide b).toNat = b.toNat := by
    rw [wide, BitVec.toNat_setWidth]
    exact Nat.mod_eq_of_lt (Nat.lt_trans b.toNat_lt (by decide))
  rw [stored, hor, BitVec.toNat_or, BitVec.toNat_shiftLeft, hwide, hwide, Nat.mod_eq_of_lt]
  rw [Nat.shiftLeft_eq]
  have := (raw.getD (crcOffset+1) 0).toNat_lt
  omega

theorem parse_syndrome {raw : List UInt8} {d : ModuleDesc} (h : moduleDescParse raw = .ok d) :
    syndrome raw = 0 := by
  have hcrc : (crc16 (raw.take crcOffset)).toNat =
      (raw.getD crcOffset 0).toNat ||| (raw.getD (crcOffset+1) 0).toNat <<< 8 := by
    by_contra hne
    unfold moduleDescParse at h
    dsimp only at h
    rw [if_pos hne] at h
    split_ifs at h
  rw [crc16_toNat, ← stored_toNat] at hcrc
  rw [syndrome, BitVec.eq_of_toNat_eq hcrc]
  exact BitVec.xor_self

theorem register_xor (bytes : List UInt8) (c e : BitVec 16) :
    register (c ^^^ e) bytes = register c bytes ^^^ (shift poly)^[8*bytes.length] e := by
  induction bytes generalizing c e with
  | nil => rfl
  | cons b bytes ih =>
    have hstep : byteStep (c ^^^ e) b = byteStep c b ^^^ (shift poly)^[8] e := by
      unfold byteStep
      rw [← iterate_xor]
      congr 1
      ac_rfl
    show register (byteStep (c ^^^ e) b) bytes = _
    rw [hstep, ih, ← Function.iterate_add_apply, List.length_cons, Nat.mul_succ]
    rfl

theorem register_modify (bytes : List UInt8) (c : BitVec 16) {i : ℕ} (hi : i < bytes.length)
    (e : UInt8) : register c (bytes.modify i (· ^^^ e)) =
      register c bytes ^^^ (shift poly)^[8*(bytes.length-i)] (wide e <<< 8) := by
  induction bytes generalizing c i with
  | nil => cases hi
  | cons b bytes ih =>
    cases i with
    | zero =>
      have hstep : byteStep c (b ^^^ e) = byteStep c b ^^^ (shift poly)^[8] (wide e <<< 8) := by
        unfold byteStep
        rw [wide_xor, BitVec.shiftLeft_xor_distrib, ← BitVec.xor_assoc, iterate_xor]
      show register (byteStep c (b ^^^ e)) bytes = _
      rw [hstep, register_xor, ← Function.iterate_add_apply, Nat.sub_zero, List.length_cons,
        Nat.mul_succ]
      rfl
    | succ i =>
      rw [List.modify_succ_cons, List.length_cons, Nat.add_sub_add_right]
      exact ih (byteStep c b) (Nat.lt_of_succ_lt_succ hi)

theorem bit_power {j : ℕ} (hj : j < 8) : wide ((1 : UInt8) <<< UInt8.ofNat j) = (shift poly)^[j] 1 ∧
    wide ((1 : UInt8) <<< UInt8.ofNat j) <<< 8 = (shift poly)^[8+j] 1 := by
  revert j
  decide

theorem getD_modify (raw : List UInt8) (f : UInt8 → UInt8) (i : ℕ) {k : ℕ} (hk : k < raw.length) :
    (raw.modify i f).getD k 0 = if i = k then f (raw.getD k 0) else raw.getD k 0 := by
  rw [List.getD_eq_getElem _ _ (by rwa [List.length_modify]), List.getD_eq_getElem _ _ hk,
    List.getElem_modify]

theorem syndrome_flip {raw : List UInt8} (hlen : raw.length = moduleDescSize) {p : ℕ}
    (hp : p < 8*moduleDescSize) :
    syndrome (flipBit raw p) = syndrome raw ^^^ (shift poly)^[power p] 1 := by
  have hsize : moduleDescSize = 32 := rfl
  have hoffset : crcOffset = 30 := rfl
  obtain ⟨hbit,hup⟩ := bit_power (Nat.mod_lt p (show 0 < 8 by decide))
  unfold syndrome flipBit power stored
  rw [List.take_modify, getD_modify _ _ _ (by omega), getD_modify _ _ _ (by omega)]
  by_cases hdata : p/8 < crcOffset
  · rw [if_pos hdata, register_modify _ _ (by rw [List.length_take]; omega), hup,
      ← Function.iterate_add_apply, List.length_take, Nat.min_eq_left (by omega), ← Nat.add_assoc,
      if_neg (by omega), if_neg (by omega)]
    ac_rfl
  · rw [if_neg hdata, List.modify_eq_self (by rw [List.length_take]; omega)]
    by_cases hlow : p/8 = crcOffset
    · rw [if_pos hlow, if_neg (by omega), wide_xor, hbit, hlow, Nat.sub_self,
        Nat.mul_zero, Nat.zero_add]
      ac_rfl
    · have hhigh : p/8 = crcOffset+1 := by omega
      rw [if_neg hlow, if_pos hhigh, wide_xor, BitVec.shiftLeft_xor_distrib, hup, hhigh,
        Nat.add_sub_cancel_left]
      ac_rfl

def added (ps : List ℕ) : BitVec 16 := ps.foldr (fun p s => (shift poly)^[power p] 1 ^^^ s) 0

theorem syndrome_flips (ps : List ℕ) (hps : ∀ p ∈ ps, p < 8*moduleDescSize) {raw : List UInt8}
    (hlen : raw.length = moduleDescSize) :
    syndrome (ps.foldl flipBit raw) = syndrome raw ^^^ added ps := by
  induction ps generalizing raw with
  | nil => exact BitVec.xor_zero.symm
  | cons p ps ih =>
    have hone := syndrome_flip hlen (hps p List.mem_cons_self)
    have hrest := ih (fun q hq => hps q (List.mem_cons_of_mem _ hq))
      (show (flipBit raw p).length = moduleDescSize by rwa [flipBit, List.length_modify])
    rw [List.foldl_cons, hrest, hone, BitVec.xor_assoc]
    rfl

/-- The powers are of odd parity, as the polynomial has an even number of terms. -/
theorem added_parity (ps : List ℕ) : parity (added ps) = decide (ps.length%2 = 1) := by
  induction ps with
  | nil => rfl
  | cons p ps ih =>
    have hpower : parity ((shift poly)^[power p] 1) = true := by
      rw [parity_iterate (by decide)]
      decide
    show parity ((shift poly)^[power p] 1 ^^^ added ps) = _
    rw [parity_xor, hpower, ih, Bool.true_xor, List.length_cons]
    by_cases hodd : ps.length%2 = 1 <;> simp [hodd] <;> omega

theorem power_lt {p : ℕ} (hp : p < 8*moduleDescSize) : power p < 256 := by
  have hsize : moduleDescSize = 32 := rfl
  have hoffset : crcOffset = 30 := rfl
  unfold power
  split <;> omega

theorem power_injective {p q : ℕ} (hp : p < 8*moduleDescSize) (hq : q < 8*moduleDescSize)
    (h : power p = power q) : p = q := by
  have hsize : moduleDescSize = 32 := rfl
  have hoffset : crcOffset = 30 := rfl
  unfold power at h
  split at h <;> split at h <;> omega

/-- The order of the polynomial is larger than the number of bits. -/
theorem powers_differ {a b : ℕ} (ha : a < 256) (hb : b < 256)
    (h : (shift poly)^[a] 1 = (shift poly)^[b] 1) : a = b :=
  powers_ne (by decide) (by decide +kernel) ha hb h

theorem added_two {p q : ℕ} (hp : p < 8*moduleDescSize) (hq : q < 8*moduleDescSize) (hpq : p ≠ q) :
    added [p,q] ≠ 0 := by
  intro h
  have hsame : (shift poly)^[power p] 1 = (shift poly)^[power q] 1 ^^^ 0 :=
    BitVec.xor_eq_zero_iff.mp h
  exact hpq (power_injective hp hq
    (powers_differ (power_lt hp) (power_lt hq) (hsame.trans BitVec.xor_zero)))

/-- No accepted block is accepted with two bits flipped, or with any odd number of them. -/
theorem flips_detected {raw : List UInt8} (hlen : raw.length = moduleDescSize) {d : ModuleDesc}
    (h : moduleDescParse raw = .ok d) {ps : List ℕ} (hps : ∀ p ∈ ps, p < 8*moduleDescSize)
    (hnodup : ps.Nodup) (hcount : ps.length%2 = 1 ∨ ps.length = 2) (d' : ModuleDesc) :
    moduleDescParse (ps.foldl flipBit raw) ≠ .ok d' := by
  intro h'
  have hadded : added ps = 0 := by
    have hsyndrome := syndrome_flips ps hps hlen
    rw [parse_syndrome h, parse_syndrome h'] at hsyndrome
    exact (hsyndrome.trans BitVec.zero_xor).symm
  rcases hcount with hodd | htwo
  · have hparity := added_parity ps
    rw [hadded, decide_eq_true hodd] at hparity
    exact absurd hparity (by decide)
  · obtain ⟨p,q,rfl⟩ := List.length_eq_two.mp htwo
    have hpq : p ≠ q := by simpa using hnodup
    exact added_two (hps p (by simp)) (hps q (by simp)) hpq hadded

def reader : List UInt8 :=
  [0x53,0x4D,1,0,1,0,2,0,4,0,0,0,0x4E,0x46,0x43]++List.replicate 15 0++[0x08,0xC8]

/-- A bit of its name and one of its stored checksum. -/
theorem flips_detected_reader : (∃ d, moduleDescParse reader = .ok d) ∧
    ∀ d', moduleDescParse ([96,255].foldl flipBit reader) ≠ .ok d' := by
  have hok : moduleDescParse reader = .ok ⟨1,2,4,"NFC".toList⟩ := by decide +kernel
  exact ⟨⟨_,hok⟩,flips_detected rfl hok (by decide) (by decide) (.inr rfl)⟩

end StarkOne.CrcDetection
