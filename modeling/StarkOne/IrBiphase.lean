import Mathlib.Data.List.Induction
import Mathlib.Tactic.Ring
import StarkOne.IrPulses

/-!
# Bi-phase frames

A decoder rounds every duration to a number of units. Durations that round to
the runs of an encoded frame are read as that frame, and an RC6 frame is read
from no others that end on a mark.
-/

set_option autoImplicit false

namespace StarkOne.IrBiphase
open StarkOne.IrCodec StarkOne.RunLength StarkOne.IrEncode StarkOne.IrPulses

def Rounds (unit most d k : ℕ) : Prop :=
  (d+unit/2)/unit = k ∧ 1 ≤ k ∧ k ≤ most ∧ irMatch d (k*unit) = true

theorem expand_some (unit most cap : ℕ) (level : Bool) (acc r : List Bool) (l : List ℕ)
    (hacc : acc.length ≤ cap) :
    irBiphaseExpand unit most cap level acc l = some r ↔
      ∃ ks, List.Forall₂ (Rounds unit most) l ks ∧ acc.length+ks.sum ≤ cap ∧
        r = acc++spell level ks := by
  induction l generalizing level acc with
  | nil =>
    simp only [irBiphaseExpand, Option.some.injEq, List.forall₂_nil_left_iff, exists_eq_left,
      List.sum_nil, Nat.add_zero, spell, List.append_nil]
    exact ⟨fun h => ⟨hacc,h.symm⟩,fun h => h.2.symm⟩
  | cons d l ih =>
    have hlen : ∀ k, (acc++List.replicate k level).length = acc.length+k := by simp
    unfold irBiphaseExpand
    dsimp only
    split
    · rename_i hbad
      simp only [reduceCtorEq, false_iff]
      rintro ⟨ks,hks,hsum,-⟩
      cases hks with
      | cons hk hks =>
        obtain ⟨rfl,h1,h2,h3⟩ := hk
        rw [List.sum_cons] at hsum
        simp only [h3, Bool.not_true, Bool.or_false, Bool.or_eq_true, decide_eq_true_eq] at hbad
        omega
    · rename_i hgood
      simp only [Bool.or_eq_true, decide_eq_true_eq, Bool.not_eq_true', not_or, Nat.not_lt,
        Bool.not_eq_false] at hgood
      obtain ⟨⟨⟨h1,h2⟩,h3⟩,h4⟩ := hgood
      rw [ih (!level) _ (by rw [hlen]; exact h4), hlen]
      constructor
      · rintro ⟨ks,hks,hsum,rfl⟩
        refine ⟨_::ks,.cons ⟨rfl,h1,h2,h3⟩ hks,?_,?_⟩
        · rw [List.sum_cons]
          omega
        · rw [spell, List.append_assoc]
      · rintro ⟨ks,hks,hsum,rfl⟩
        cases hks with
        | cons hk hks =>
          obtain ⟨rfl,-⟩ := hk
          rw [List.sum_cons] at hsum
          refine ⟨_,hks,by omega,?_⟩
          rw [spell, List.append_assoc]

def value (bits : List Bool) : ℕ := bits.foldl (fun w b => w <<< 1 ||| b.toNat) 0

theorem shift_or_bit (w : ℕ) (b : Bool) : w <<< 1 ||| b.toNat = 2*w+b.toNat := by
  have h := Nat.two_pow_add_eq_or_of_lt (i := 1) (b := b.toNat) (by cases b <;> decide) w
  rw [Nat.shiftLeft_eq, Nat.mul_comm, ← h, Nat.pow_one]

theorem value_snoc (bits : List Bool) (b : Bool) :
    value (bits++[b]) = 2*value bits+b.toNat := by
  rw [value, List.foldl_append, List.foldl_cons, List.foldl_nil, shift_or_bit]
  rfl

theorem bits_halves (bit : Bool → Bool → Bool) (first : Bool → Bool)
    (hbit : ∀ a, bit (first a) (!first a) = a) (bits : List Bool) (w : ℕ) :
    irBiphaseBits bit w (halves (bits.map first)) =
      some (bits.foldl (fun w b => w <<< 1 ||| b.toNat) w) := by
  induction bits generalizing w with
  | nil => rfl
  | cons b bits ih =>
    rw [List.map_cons, halves_cons, irBiphaseBits, if_neg (by simp), hbit, ih]
    rfl

theorem bits_some (bit : Bool → Bool → Bool) (n : ℕ) (h : List Bool) (hlen : h.length = 2*n)
    (w r : ℕ) (hr : irBiphaseBits bit w h = some r) : ∃ first, first.length = n ∧ h = halves first := by
  induction n generalizing h w with
  | zero =>
    rw [List.length_eq_zero_iff.mp hlen]
    exact ⟨[],rfl,rfl⟩
  | succ n ih =>
    match h, hlen with
    | a::b::h, hlen =>
      rw [irBiphaseBits] at hr
      split at hr
      · cases hr
      · rename_i hab
        obtain ⟨first,hf,rfl⟩ := ih h (by simp only [List.length_cons] at hlen; omega) _ hr
        refine ⟨a::first,congrArg (·+1) hf,?_⟩
        rw [halves_cons, Bool.eq_not_of_ne (Ne.symm hab)]

theorem bitsDown_length (word n : ℕ) : (bitsDown word n).length = n := by
  induction n with
  | zero => rfl
  | succ n ih => rw [bitsDown, List.length_cons, ih]

theorem foldl_bitsDown (word n w : ℕ) :
    (bitsDown word n).foldl (fun w b => w <<< 1 ||| b.toNat) w = w*2^n+word % 2^n := by
  induction n generalizing w with
  | zero => simp [bitsDown, Nat.mod_one]
  | succ n ih =>
    rw [bitsDown, List.foldl_cons, ih, shift_or_bit, mod_succ, Nat.add_mul, Nat.pow_succ]
    ring

theorem value_bitsDown (word n : ℕ) : value (bitsDown word n) = word % 2^n := by
  rw [value, foldl_bitsDown, Nat.zero_mul, Nat.zero_add]

theorem bitsDown_append (word n m : ℕ) :
    bitsDown word (n+m) = bitsDown (word >>> m) n++bitsDown word m := by
  induction n with
  | zero => rw [Nat.zero_add, bitsDown, List.nil_append]
  | succ n ih =>
    rw [Nat.add_right_comm, bitsDown, ih, bitsDown, Nat.testBit_shiftRight, Nat.add_comm m n]
    rfl

theorem bitsDown_value (bits : List Bool) : bitsDown (value bits) bits.length = bits := by
  induction bits using List.reverseRecOn with
  | nil => rfl
  | append_singleton bits b ih =>
    have hhigh : value (bits++[b]) >>> 1 = value bits := by
      rw [value_snoc, Nat.shiftRight_eq_div_pow]
      cases b <;> simp only [Bool.toNat_true, Bool.toNat_false] <;> omega
    have hlow : bitsDown (value (bits++[b])) 1 = [b] := by
      rw [bitsDown, bitsDown, value_snoc, Nat.testBit_zero]
      cases b <;> simp
    rw [List.length_append, List.length_singleton, bitsDown_append, hhigh, ih, hlow]

/-- The last check and the reading of an RC6 frame, once the half-bit levels are known. -/
def rc6OfLevels (h : List Bool) : Option IrFrame :=
  if h.length ≠ rc6Halves || h.take 8 ≠ rc6Start then none
  else
    let half := fun i => h.getD i false
    if half 8 ≠ half 9 || half 10 ≠ half 11 || half 8 = half 10 then none
    else
      (irBiphaseBits (fun a _ => a) 0 (h.drop 12)).map fun data =>
        ⟨.rc6,data >>> 8,data &&& 0xFF,false,(half 8).toNat⟩

def padded (n : ℕ) (seen : List Bool) : List Bool :=
  if seen.length = n-1 then seen++[false] else seen

theorem rc6Parse_eq (t : List ℕ) (unit : ℕ) :
    rc6Parse t unit = (irBiphaseExpand unit 3 rc6Halves true [] (t.drop 2)).bind
      fun seen => rc6OfLevels (padded rc6Halves seen) := by
  unfold rc6Parse rc6OfLevels padded
  cases irBiphaseExpand unit 3 rc6Halves true [] (t.drop 2) with
  | none => rfl
  | some seen =>
    simp only [Option.bind_eq_bind, Option.bind_some, rc6Start]
    split_ifs <;> first | rfl | (cases irBiphaseBits _ 0 _ <;> rfl)

structure Rc6Frame (f : IrFrame) : Prop where
  protocol : f.protocol = .rc6
  once : f.repeated = false
  address : f.address ≤ 0xFF
  command : f.command ≤ 0xFF
  toggle : f.toggle ≤ 1

theorem rc6_word (f : IrFrame) (hc : f.command ≤ 0xFF) :
    f.address <<< 8 ||| f.command = f.address*256+f.command := by
  rw [Nat.shiftLeft_eq, or_add _ _ 8 (by omega) (by omega)]

theorem irRc6Levels_length (f : IrFrame) : (irRc6Levels f).length = rc6Halves := by
  simp [irRc6Levels, rc6Start, rc6Trailer, halves_length, bitsDown_length, rc6Halves]

theorem rc6OfLevels_levels (f : IrFrame) (hf : Rc6Frame f) : rc6OfLevels (irRc6Levels f) = some f := by
  have hbits := bits_halves (fun a _ => a) id (fun a => rfl)
    (bitsDown (f.address <<< 8 ||| f.command) 16) 0
  rw [List.map_id, foldl_bitsDown, rc6_word f hf.command] at hbits
  have hw : (f.address*256+f.command) % 2^16 = f.address*256+f.command := by
    have := hf.address
    have := hf.command
    omega
  rw [hw, Nat.zero_mul, Nat.zero_add] at hbits
  obtain ⟨p,a,c,r,g⟩ := f
  obtain ⟨rfl,rfl,ha,hc,ht⟩ := hf
  dsimp only at ha hc ht hbits hw
  unfold rc6OfLevels
  rw [irRc6Levels_length]
  have hg : g = 0 ∨ g = 1 := by omega
  rw [show (irRc6Levels ⟨.rc6,a,c,false,g⟩).drop 12 = halves (bitsDown (a <<< 8 ||| c) 16) from rfl,
    rc6_word ⟨.rc6,a,c,false,g⟩ hc, hbits]
  rcases hg with rfl | rfl <;>
    simp [irRc6Levels, rc6Start, rc6Trailer, Nat.shiftRight_eq_div_pow, byte_mask] <;> omega

theorem value_lt (bits : List Bool) : value bits < 2^bits.length := by
  have h := value_bitsDown (value bits) bits.length
  rw [bitsDown_value] at h
  rw [h]
  exact Nat.mod_lt _ (Nat.two_pow_pos _)

theorem levels_rc6OfLevels (h : List Bool) (f : IrFrame) (hf : rc6OfLevels h = some f) :
    Rc6Frame f ∧ h = irRc6Levels f := by
  unfold rc6OfLevels at hf
  split at hf
  · cases hf
  rename_i hstart
  simp only [Bool.or_eq_true, decide_eq_true_eq, not_or, Decidable.not_not] at hstart
  obtain ⟨hlen,htake⟩ := hstart
  have hsplit : h = rc6Start++h.drop 8 := by rw [← htake, List.take_append_drop]
  obtain ⟨a,b,c,d,rest,hrest⟩ : ∃ a b c d rest, h.drop 8 = a::b::c::d::rest := by
    have hl : (h.drop 8).length = 36 := by simp [hlen, rc6Halves]
    match h.drop 8, hl with
    | a::b::c::d::rest, _ => exact ⟨a,b,c,d,rest,rfl⟩
  rw [hrest] at hsplit
  subst hsplit
  dsimp only at hf
  split at hf
  · cases hf
  rename_i htrailer
  obtain ⟨data,hdata,rfl⟩ := Option.map_eq_some_iff.mp hf
  have hl : rest.length = 2*16 := by simpa [rc6Start, rc6Halves] using hlen
  obtain ⟨first,hfirst,rfl⟩ := bits_some _ 16 rest hl _ _ hdata
  have hvalue : some data = some (value first) := by
    rw [← hdata, ← List.map_id first]
    exact (bits_halves (fun a _ => a) id (fun a => rfl) first 0).trans (by rw [List.map_id]; rfl)
  obtain rfl := Option.some.inj hvalue
  have hlt := value_lt first
  have hdown := bitsDown_value first
  rw [hfirst] at hlt hdown
  simp only [rc6Start, List.cons_append, List.nil_append, List.getD_cons_succ, List.getD_cons_zero,
    Bool.or_eq_true, decide_eq_true_eq, not_or, Decidable.not_not] at htrailer
  obtain ⟨⟨rfl,rfl⟩,hca⟩ := htrailer
  obtain rfl := Bool.eq_not_of_ne (Ne.symm hca)
  have hshift : value first >>> 8 = value first/256 := Nat.shiftRight_eq_div_pow _ 8
  have hmask := byte_mask (value first)
  have hframe : Rc6Frame ⟨.rc6,value first >>> 8,value first &&& 0xFF,false,a.toNat⟩ := by
    refine ⟨rfl,rfl,?_,?_,?_⟩
    · dsimp only
      omega
    · dsimp only
      omega
    · exact Bool.toNat_le a
  refine ⟨hframe,?_⟩
  unfold irRc6Levels
  rw [rc6_word _ hframe.command]
  dsimp only
  rw [show value first >>> 8*256+(value first &&& 0xFF) = value first by omega, hdown]
  cases a <;> rfl

theorem rc6Parse_some (t : List ℕ) (unit : ℕ) (f : IrFrame) :
    rc6Parse t unit = some f ↔ Rc6Frame f ∧ ∃ ks, List.Forall₂ (Rounds unit 3) (t.drop 2) ks ∧
      ks.sum ≤ rc6Halves ∧ padded rc6Halves (spell true ks) = irRc6Levels f := by
  rw [rc6Parse_eq, Option.bind_eq_some_iff]
  constructor
  · rintro ⟨seen,hseen,hf⟩
    obtain ⟨ks,hks,hsum,rfl⟩ := (expand_some _ _ _ _ _ _ _ (Nat.zero_le _)).mp hseen
    obtain ⟨hframe,hlevels⟩ := levels_rc6OfLevels _ f hf
    rw [List.length_nil, Nat.zero_add] at hsum
    exact ⟨hframe,ks,hks,hsum,hlevels⟩
  · rintro ⟨hframe,ks,hks,hsum,hlevels⟩
    refine ⟨spell true ks,(expand_some _ _ _ _ _ _ _ (Nat.zero_le _)).mpr ⟨ks,hks,?_,rfl⟩,?_⟩
    · rwa [List.length_nil, Nat.zero_add]
    · rw [hlevels]
      exact rc6OfLevels_levels f hframe

def runsOf (levels : List Bool) : List ℕ := runs true 1 levels.tail

theorem padded_spell (n : ℕ) (levels : List Bool) (hlen : levels.length = n) (hpos : 0 < n)
    (h : spell true (runsOf levels) = levels ∨ spell true (runsOf levels)++[false] = levels) :
    (runsOf levels).sum ≤ n ∧ padded n (spell true (runsOf levels)) = levels := by
  have hs := spell_length true (runsOf levels)
  unfold padded
  rcases h with h | h
  · rw [h, hlen] at hs
    refine ⟨by omega,?_⟩
    rw [h, if_neg (by omega)]
  · have hl : (spell true (runsOf levels)).length+1 = n := by
      rw [← hlen, ← h, List.length_append, List.length_singleton, h]
    refine ⟨by omega,?_⟩
    rw [if_pos (by omega), h]

theorem rc6_spells (f : IrFrame) : spell true (runsOf (irRc6Levels f)) = irRc6Levels f ∨
    spell true (runsOf (irRc6Levels f))++[false] = irRc6Levels f := by
  have hne : bitsDown (f.address <<< 8 ||| f.command) 16 ≠ [] := by
    intro h
    have := bitsDown_length (f.address <<< 8 ||| f.command) 16
    rw [h] at this
    cases this
  exact spells_append (rc6Start.tail++rc6Trailer (f.toggle ≠ 0)) _ hne true 1

theorem rc6_runs_bound (f : IrFrame) : ∀ k ∈ runsOf (irRc6Levels f), 1 ≤ k ∧ k ≤ 3 := by
  intro k hk
  have hrest : ∀ level, ∀ k ∈ runs level 2 (halves (bitsDown (f.address <<< 8 ||| f.command) 16)),
      1 ≤ k ∧ k ≤ 3 :=
    fun level => runs_bound _ level 2 3 (by decide) (by decide) (by decide)
  by_cases ht : f.toggle = 0 <;>
    simp only [runsOf, irRc6Levels, rc6Start, rc6Trailer, ht, ne_eq, not_true_eq_false,
      not_false_eq_true, decide_false, decide_true, Bool.not_false, Bool.not_true,
      List.cons_append, List.nil_append, List.tail_cons, runs, reduceCtorEq, if_false, if_true,
      List.mem_cons] at hk <;>
    grind

/-- Durations that round to the runs of an RC6 frame are read as this frame. -/
theorem rc6Parse_of_runs (t : List ℕ) (unit : ℕ) (f : IrFrame) (hf : Rc6Frame f)
    (hr : List.Forall₂ (Rounds unit 3) (t.drop 2) (runsOf (irRc6Levels f))) :
    rc6Parse t unit = some f := by
  have h := padded_spell rc6Halves _ (irRc6Levels_length f) (by decide) (rc6_spells f)
  exact (rc6Parse_some t unit f).mpr ⟨hf,_,hr,h.1,h.2⟩

theorem runs_of_padded (n : ℕ) (ks : List ℕ) (hks : ∀ k ∈ ks, 1 ≤ k) (hodd : ks.length % 2 = 1) :
    runsOf (padded n (spell true ks)) = ks := by
  match ks, hodd with
  | k::ks, hodd =>
    obtain ⟨j,rfl⟩ : ∃ j, k = j+1 := ⟨k-1,by have := hks k (by simp); omega⟩
    have heven : true = decide (ks.length % 2 = 0) := by
      rw [List.length_cons] at hodd
      simp only [Bool.true_eq, decide_eq_true_eq]
      omega
    have hrun : ∀ low, runsOf (spell true ((j+1)::ks)++List.replicate low false) = (j+1)::ks := by
      intro low
      rw [runsOf, spell, List.replicate_succ, List.cons_append, List.cons_append, List.tail_cons,
        List.append_assoc, runs_replicate, Nat.add_comm 1 j]
      exact runs_spell ks (fun k hk => hks k (List.mem_cons_of_mem _ hk)) true (j+1) low heven
    unfold padded
    split
    · exact hrun 1
    · have h := hrun 0
      rwa [List.replicate_zero, List.append_nil] at h

/-- A capture that ends on a mark and is read as an RC6 frame rounds to its runs. -/
theorem runs_of_rc6Parse (t : List ℕ) (unit : ℕ) (f : IrFrame) (hodd : (t.drop 2).length % 2 = 1)
    (h : rc6Parse t unit = some f) :
    Rc6Frame f ∧ List.Forall₂ (Rounds unit 3) (t.drop 2) (runsOf (irRc6Levels f)) := by
  obtain ⟨hf,ks,hks,-,hlevels⟩ := (rc6Parse_some t unit f).mp h
  have hpos : ∀ k ∈ ks, 1 ≤ k :=
    ((List.forall₂_and_left ks (t.drop 2)).mp (hks.flip.imp fun k d hd => ⟨hd.2.1,hd⟩)).1
  rw [← hlevels, runs_of_padded _ ks hpos (hks.length_eq ▸ hodd)]
  exact ⟨hf,hks⟩

end StarkOne.IrBiphase
