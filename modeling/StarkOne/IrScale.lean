import Mathlib.Data.Real.Basic
import Mathlib.Tactic.Linarith
import Mathlib.Tactic.NormNum
import StarkOne.IrJitter

/-!
# Decoding at another clock

The clocks of the sender and of the receiver differ by one factor, and every
duration is rounded to a microsecond. All durations of a frame scale together,
which keeps the protocols apart where their tolerances overlap.
-/

set_option autoImplicit false

namespace StarkOne.IrScale
open StarkOne.IrCodec StarkOne.RunLength StarkOne.IrEncode StarkOne.IrPulses StarkOne.IrBiphase
open StarkOne.IrJitter

/-- A duration of `n` microseconds is measured as the whole number nearest to `s*n`. -/
def Scales (s : ℝ) (r : ℕ → ℕ) : Prop := ∀ n, |(r n:ℝ)-s*n| ≤ 1/2

theorem scales_near {s : ℝ} {r : ℕ → ℕ} (hlow : 0.76 ≤ s) (hhigh : s ≤ 1.24) (hr : Scales s r)
    (n : ℕ) : Near (r n) n := by
  obtain ⟨h1,h2⟩ := abs_le.mp (hr n)
  have hn : (0:ℝ) ≤ n := Nat.cast_nonneg n
  have hl := mul_le_mul_of_nonneg_right hlow hn
  have hh := mul_le_mul_of_nonneg_right hhigh hn
  constructor
  · have : (38*n:ℝ) ≤ 50*r n+25 := by linarith
    exact_mod_cast this
  · have : (50*r n:ℝ) ≤ 62*n+25 := by linarith
    exact_mod_cast this

theorem scales_common {s : ℝ} {r : ℕ → ℕ} (hr : Scales s r) (a b : ℕ) :
    2*r a*b ≤ 2*r b*a+a+b := by
  obtain ⟨-,ha⟩ := abs_le.mp (hr a)
  obtain ⟨hb,-⟩ := abs_le.mp (hr b)
  have hab := mul_le_mul_of_nonneg_right ha (show (0:ℝ) ≤ b from Nat.cast_nonneg b)
  have hba := mul_le_mul_of_nonneg_right hb (show (0:ℝ) ≤ a from Nat.cast_nonneg a)
  have : (2*r a*b:ℝ) ≤ 2*r b*a+a+b := by linarith
  exact_mod_cast this

structure Common (r : ℕ → ℕ) : Prop where
  near : ∀ n, Near (r n) n
  common : ∀ a b, 2*r a*b ≤ 2*r b*a+a+b

variable {r : ℕ → ℕ}

theorem near_map (hr : Common r) (n : List ℕ) : List.Forall₂ Near (n.map r) n :=
  List.forall₂_map_left_iff.mpr (List.forall₂_same.mpr fun u _ => hr.near u)

theorem scaled_sirc_not_nec (hr : Common r) (f : IrFrame) (hp : Sony f.protocol) (n : List ℕ)
    (h : irSircEncode f = .ok n) : irNecDecode (n.map r) = none := by
  obtain ⟨-,u,rest,rfl,-⟩ := sirc_start f hp n h
  have hlead := hr.near sircStartMark
  unfold Near sircStartMark at hlead
  apply nec_far
  rw [List.map_cons, List.getD_cons_zero]
  unfold sircStartMark
  omega

theorem scaled_sirc_not_rc6 (hr : Common r) (f : IrFrame) (hp : Sony f.protocol) (n : List ℕ)
    (h : irSircEncode f = .ok n) : irRc6Decode (n.map r) = none := by
  obtain ⟨-,u,rest,rfl,hu⟩ := sirc_start f hp n h
  have hlead := hr.near 2400
  have h12 := hr.common 2400 600
  have h21 := hr.common 600 2400
  have hone := hr.near 1200
  have hnought := hr.near 600
  have h13 := hr.common 600 1200
  have hpulse : r 600 ≤ r u+1 := by
    rcases hu with rfl | rfl
    · unfold sircOneMark
      omega
    · unfold sircZeroMark
      omega
  unfold Near at hlead hone hnought
  have h0 : ((sircStartMark::sircSpace::u::rest).map r).getD 0 0 = r 2400 := rfl
  have h1 : ((sircStartMark::sircSpace::u::rest).map r).getD 1 0 = r 600 := rfl
  have h2 : ((sircStartMark::sircSpace::u::rest).map r).getD 2 0 = r u := rfl
  have hnominal : rc6Nominal ((sircStartMark::sircSpace::u::rest).map r) = none := by
    rw [Option.eq_none_iff_forall_ne_some]
    intro g hg
    unfold rc6Nominal at hg
    split at hg
    · rename_i hclose
      obtain ⟨-,hspace⟩ := Bool.and_eq_true_iff.mp hclose
      have hspace := (match_iff _ _).mp hspace
      have hfirst := (match_iff _ _).mp (rc6_first hg)
      rw [h1] at hspace
      rw [h2] at hfirst
      unfold rc6LeadSpace at hspace
      unfold rc6Unit at hfirst
      omega
    · cases hg
  have hestimated : rc6Estimated ((sircStartMark::sircSpace::u::rest).map r) = none := by
    rw [Option.eq_none_iff_forall_ne_some]
    intro g hg
    obtain ⟨unit,hunit,-,hd,-,-⟩ := rc6Estimated_some hg
    rw [h0, h1] at hunit hd
    omega
  rw [irRc6Decode_eq, hnominal, hestimated]
  exact ite_self none

/-- No earlier decoder takes an RC5 frame: two of its runs never have the ratio of an RC6
leader, and where the first is close to a Sony leader the second is too long. -/
theorem scaled_rc5_alone (hr : Common r) (f : IrFrame) (n : List ℕ) (h : irRc5Encode f = .ok n) :
    irNecDecode (n.map r) = none ∧ irRc6Decode (n.map r) = none ∧ irSircDecode (n.map r) = none := by
  obtain ⟨a,b,c,rest,rfl,hbound⟩ := rc5_start f n h
  have hone := hr.near 889
  have htwo := hr.near 1778
  have h12 := hr.common 889 1778
  have h21 := hr.common 1778 889
  unfold Near at hone htwo
  have hrun : ∀ k, 1 ≤ k ∧ k ≤ 2 → r (k*rc5Unit) = r 889 ∨ r (k*rc5Unit) = r 1778 := by
    intro k hk
    rcases (by omega : k = 1 ∨ k = 2) with rfl | rfl
    · exact .inl rfl
    · exact .inr rfl
  have ha := hrun a (hbound a (by simp))
  have hb := hrun b (hbound b (by simp))
  have hc := hrun c (hbound c (by simp))
  rw [List.map_cons, List.map_cons, List.map_cons, List.map_cons, List.map_cons, List.map_cons]
  generalize r (a*rc5Unit) = d0 at ha
  generalize r (b*rc5Unit) = d1 at hb
  generalize r (c*rc5Unit) = d2 at hc
  generalize (rest.map (·*rc5Unit)).map r = rest
  have h0 : (d0::d1::d2::rest).getD 0 0 = d0 := rfl
  have h1 : (d0::d1::d2::rest).getD 1 0 = d1 := rfl
  have h2 : (d0::d1::d2::rest).getD 2 0 = d2 := rfl
  refine ⟨nec_far (by rw [h0]; omega),?_,?_⟩
  · have hnominal : rc6Nominal (d0::d1::d2::rest) = none := by
      rw [Option.eq_none_iff_forall_ne_some]
      intro g hg
      unfold rc6Nominal at hg
      split at hg
      · rename_i hclose
        obtain ⟨hmark,-⟩ := Bool.and_eq_true_iff.mp hclose
        have hmark := (match_iff _ _).mp hmark
        have hfirst := (match_iff _ _).mp (rc6_first hg)
        rw [h0] at hmark
        rw [h2] at hfirst
        unfold rc6LeadMark at hmark
        unfold rc6Unit at hfirst
        omega
      · cases hg
    have hestimated : rc6Estimated (d0::d1::d2::rest) = none := by
      rw [Option.eq_none_iff_forall_ne_some]
      intro g hg
      obtain ⟨unit,hunit,-,-,hd,-⟩ := rc6Estimated_some hg
      rw [h0, h1] at hunit hd
      omega
    rw [irRc6Decode_eq, hnominal, hestimated]
    exact ite_self none
  · rw [Option.eq_none_iff_forall_ne_some]
    intro g hg
    obtain ⟨hmark,hspace⟩ := sirc_first hg
    have hmark := (match_iff _ _).mp hmark
    have hspace := (match_iff _ _).mp hspace
    rw [h0] at hmark
    rw [h1] at hspace
    unfold sircStartMark at hmark
    unfold sircSpace at hspace
    omega

/-- Bits shifted by one half are bits only when they all are the same. -/
theorem halves_shifted (rest bits : List Bool) (a c : Bool)
    (h : a::halves rest++[c] = halves bits) : c = !a := by
  induction rest generalizing a bits with
  | nil =>
    match bits with
    | [] => cases h
    | b::bits =>
      rw [halves_nil, halves_cons] at h
      simp only [List.cons_append, List.nil_append, List.cons.injEq] at h
      rw [h.1, h.2.1]
  | cons x rest ih =>
    match bits with
    | [] => cases h
    | b::bits =>
      rw [halves_cons, halves_cons] at h
      simp only [List.cons_append, List.cons.injEq] at h
      obtain ⟨rfl,rfl,h⟩ := h
      rw [Bool.not_not] at h
      exact ih bits a h

theorem padded_append (n : ℕ) (l seen : List Bool) :
    ∃ pad, padded n (l++seen) = l++(seen++pad) := by
  unfold padded
  split
  · exact ⟨[false],List.append_assoc _ _ _⟩
  · exact ⟨[],by rw [List.append_nil]⟩

/-- A frame whose runs of three are read as runs of two is no frame. -/
theorem rc6_shrunk (f g : IrFrame) (hthree : 3 ∈ runsOf (irRc6Levels f)) :
    padded rc6Halves (spell true ((runsOf (irRc6Levels f)).map (min · 2))) ≠ irRc6Levels g := by
  intro h
  have hlen := congrArg List.length h
  rw [irRc6Levels_length] at hlen
  unfold irRc6Levels at h hthree hlen
  have hbits : bitsDown (f.address <<< 8 ||| f.command) 16 =
      (f.address <<< 8 ||| f.command).testBit 15::bitsDown (f.address <<< 8 ||| f.command) 15 := rfl
  have hrest := bitsDown_length (f.address <<< 8 ||| f.command) 15
  rw [hbits] at h hthree hlen
  generalize (f.address <<< 8 ||| f.command).testBit 15 = b at h hthree hlen
  generalize bitsDown (f.address <<< 8 ||| f.command) 15 = rest at h hthree hlen hrest
  have hshort : ∀ level, ∀ k ∈ runs level 1 (halves rest), 1 ≤ k ∧ k ≤ 2 := fun level =>
    runs_bound rest level 1 2 (by decide) (by decide) (by decide)
  generalize hx : decide (g.toggle ≠ 0) = x at h
  by_cases ht : f.toggle = 0
  · -- the trailer ends on a mark, which a first one makes longer
    rw [decide_eq_false (not_not.mpr ht)] at h hthree hlen
    cases b with
    | false =>
      have hruns : runsOf (rc6Start++rc6Trailer false++halves (false::rest)) =
          1::2::1::1::1::1::1::2::2::1::runs true 1 (halves rest) := rfl
      rw [hruns] at hthree
      simp only [List.mem_cons, Nat.reduceEqDiff, false_or] at hthree
      have := hshort true 3 hthree
      omega
    | true =>
      have hruns : runsOf (rc6Start++rc6Trailer false++halves (true::rest)) =
          1::2::1::1::1::1::1::2::3::runs false 1 (halves rest) := rfl
      have hsame : (runs false 1 (halves rest)).map (min · 2) = runs false 1 (halves rest) := by
        rw [List.map_congr_left fun k hk => Nat.min_eq_left (hshort false k hk).2, List.map_id']
      have hspell : spell true ((runsOf (rc6Start++rc6Trailer false++halves (true::rest))).map
          (min · 2)) = [true,false,false,true,false,true,false,true,false,false,true,true]++
            spell false (runs false 1 (halves rest)) := by
        rw [hruns, List.map_cons, List.map_cons, List.map_cons, List.map_cons, List.map_cons,
          List.map_cons, List.map_cons, List.map_cons, List.map_cons, hsame]
        rfl
      rw [hspell] at h hlen
      have hseen : spell false (runs false 1 (halves rest)) = false::halves rest ∨
          (spell false (runs false 1 (halves rest))).length = 30 := by
        rcases spells_halves rest false 1 (.inl (List.ne_nil_of_length_eq_add_one hrest)) with hs | hs
        · exact .inl hs
        · have := congrArg List.length hs
          rw [List.length_append, List.length_append, halves_length, hrest] at this
          simp only [List.length_replicate, List.length_singleton] at this
          exact .inr (by omega)
      generalize spell false (runs false 1 (halves rest)) = seen at h hlen hseen
      unfold padded at h hlen
      simp only [List.length_append, List.length_cons, List.length_nil, rc6Halves] at h hlen
      rcases hseen with rfl | hseen
      · rw [if_pos (by rw [List.length_cons, halves_length, hrest])] at h
        cases halves_shifted rest _ false false (congrArg (List.drop 12) h)
      · rw [if_neg (by rw [hseen]; decide)] at hlen
        simp only [List.length_append, List.length_cons, List.length_nil, hseen] at hlen
        omega
  · -- the trailer starts on the mark that the mode ends on
    rw [decide_eq_true ht] at h
    obtain ⟨j,tail,hnext⟩ : ∃ j tail, runs false 2 (halves (b::rest)) = (j+2)::tail := by
      cases b
      · exact ⟨1,_,rfl⟩
      · exact ⟨0,_,rfl⟩
    have hruns : runsOf (rc6Start++rc6Trailer true++halves (b::rest)) =
        1::2::1::1::1::1::3::(j+2)::tail := by
      rw [← hnext]
      rfl
    have hspell : spell true ((runsOf (rc6Start++rc6Trailer true++halves (b::rest))).map (min · 2)) =
        [true,false,false,true,false,true,false,true,true,false]++
          (false::spell true (tail.map (min · 2))) := by
      rw [hruns, List.map_cons, List.map_cons, List.map_cons, List.map_cons, List.map_cons,
        List.map_cons, List.map_cons, List.map_cons, Nat.min_eq_right (by omega : 2 ≤ j+2)]
      rfl
    rw [hspell] at h
    obtain ⟨pad,hpad⟩ := padded_append rc6Halves
      [true,false,false,true,false,true,false,true,true,false]
      (false::spell true (tail.map (min · 2)))
    rw [hpad] at h
    simp only [rc6Start, rc6Trailer, List.cons_append, List.nil_append, List.cons.injEq] at h
    obtain ⟨-,-,-,-,-,-,-,-,h8,h9,-⟩ := h
    rw [← h8] at h9
    cases h9

/-- At the nominal unit only a run of three can be misread, and then all of them are. -/
theorem runs_rc6 (hr : Common r) (k j : ℕ) (h1 : 1 ≤ k) (h3 : k ≤ 3)
    (h : Rounds rc6Unit 3 (r (k*rc6Unit)) j) :
    j = if (r 1332+222)/444 = 2 then min k 2 else k := by
  obtain ⟨hj,-,hmost,-⟩ := h
  have hone := hr.near 444
  have htwo := hr.near 888
  have hthree := hr.near 1332
  unfold Near at hone htwo hthree
  unfold rc6Unit at hj
  rcases (by omega : k = 1 ∨ k = 2 ∨ k = 3) with rfl | rfl | rfl
  · rw [show 1*444 = 444 from rfl] at hj
    split <;> omega
  · rw [show 2*444 = 888 from rfl] at hj
    split <;> omega
  · rw [show 3*444 = 1332 from rfl] at hj
    split <;> omega

theorem rc6_read_nominal (hr : Common r) (f : IrFrame) (hf : Rc6Frame f) (g : IrFrame)
    (h : rc6Parse ((rc6LeadMark::rc6LeadSpace::(runsOf (irRc6Levels f)).map (·*rc6Unit)).map r)
      rc6Unit = some g) : g = f := by
  obtain ⟨hg,ks,hks,-,hlevels⟩ := (rc6Parse_some _ _ _).mp h
  rw [List.map_cons, List.map_cons, List.drop_succ_cons, List.drop_succ_cons, List.drop_zero,
    List.map_map] at hks
  have hread := ((List.forall₂_and_left _ _).mpr
    ⟨rc6_runs_bound f,List.forall₂_map_left_iff.mp hks⟩).imp
      fun k j hkj => (runs_rc6 hr k j hkj.1.1 hkj.1.2 hkj.2).symm
  have hmap := List.forall₂_map_left_iff.mpr hread
  rw [List.forall₂_eq_eq_eq] at hmap
  have hsame : ks = runsOf (irRc6Levels f) → g = f := by
    intro hsame
    have hpad := padded_spell rc6Halves _ (irRc6Levels_length f) (by decide) (rc6_spells f)
    rw [hsame, hpad.2] at hlevels
    have hgf := rc6OfLevels_levels g hg
    rw [← hlevels, rc6OfLevels_levels f hf] at hgf
    exact (Option.some.inj hgf).symm
  by_cases htwo : (r 1332+222)/444 = 2
  · simp only [htwo, if_true] at hmap
    by_cases hthree : 3 ∈ runsOf (irRc6Levels f)
    · exact absurd (hmap ▸ hlevels) (rc6_shrunk f g hthree)
    · have hid : ∀ k ∈ runsOf (irRc6Levels f), min k 2 = k := by
        intro k hk
        have := (rc6_runs_bound f k hk).2
        have : k ≠ 3 := fun h => hthree (h ▸ hk)
        omega
      rw [List.map_congr_left hid, List.map_id'] at hmap
      exact hsame hmap.symm
  · simp only [htwo, if_false, List.map_id'] at hmap
    exact hsame hmap.symm

/-- At the unit estimated from the leader every run is read as it was sent. -/
theorem rc6_read_estimated (hr : Common r) (f : IrFrame) (hf : Rc6Frame f) :
    rc6Estimated ((rc6LeadMark::rc6LeadSpace::(runsOf (irRc6Levels f)).map (·*rc6Unit)).map r) =
      some f := by
  have hlead := hr.near 2666
  have hspace := hr.near 889
  have hone := hr.near 444
  have htwo := hr.near 888
  have hthree := hr.near 1332
  have hms := hr.common 2666 889
  have hsm := hr.common 889 2666
  have h1m := hr.common 444 2666
  have hm1 := hr.common 2666 444
  have h2m := hr.common 888 2666
  have hm2 := hr.common 2666 888
  have h3m := hr.common 1332 2666
  have hm3 := hr.common 2666 1332
  unfold Near at hlead hspace hone htwo hthree
  have hunit : irMatch ((r 2666+r 889)/8) rc6Unit = true := by
    rw [match_iff]
    unfold rc6Unit
    omega
  have hgap : gap (r 2666/6) (r 889/2)*10 ≤ (r 2666+r 889)/8 := by
    unfold gap
    split <;> omega
  have hround : ∀ d k, 1 ≤ k → k ≤ 3 → d = r (k*rc6Unit) →
      Rounds ((r 2666+r 889)/8) 3 d k := by
    rintro _ k h1 h3 rfl
    have hclose : k*((r 2666+r 889)/8) ≤ r (k*rc6Unit)+(r 2666+r 889)/8/2 ∧
        r (k*rc6Unit)+(r 2666+r 889)/8/2 < (k+1)*((r 2666+r 889)/8) ∧
        irMatch (r (k*rc6Unit)) (k*((r 2666+r 889)/8)) = true := by
      rw [match_iff]
      unfold rc6Unit
      rcases (by omega : k = 1 ∨ k = 2 ∨ k = 3) with rfl | rfl | rfl
      · rw [show 1*444 = 444 from rfl]
        omega
      · rw [show 2*444 = 888 from rfl]
        omega
      · rw [show 3*444 = 1332 from rfl]
        omega
    exact ⟨Nat.div_eq_of_lt_le hclose.1 hclose.2.1,h1,h3,hclose.2.2⟩
  have hparse := rc6Parse_of_runs
    ((rc6LeadMark::rc6LeadSpace::(runsOf (irRc6Levels f)).map (·*rc6Unit)).map r) _ f hf
    (rounds_each (R := fun d u => d = r u) hround _ _ (rc6_runs_bound f)
      (List.forall₂_map_left_iff.mpr (List.forall₂_same.mpr fun u _ => rfl)))
  exact rc6Estimated_of rfl rfl hgap hunit hparse

theorem rc6_scaled (hr : Common r) (f : IrFrame) (hs : Sent f) (hp : f.protocol = .rc6) (n : List ℕ)
    (h : irRc6Encode f = .ok n) : irNecDecode (n.map r) = none ∧ irRc6Decode (n.map r) = some f := by
  obtain ⟨ha,hc,ht,rfl⟩ := rc6_encoded f n h
  have hf : Rc6Frame f := ⟨hp,hs.once,ha,hc,ht⟩
  have hestimated := rc6_read_estimated hr f hf
  constructor
  · have hlead := hr.near 2666
    unfold Near at hlead
    apply nec_far
    rw [List.map_cons, List.getD_cons_zero]
    unfold rc6LeadMark
    omega
  · have hlen : ¬ ((rc6LeadMark::rc6LeadSpace::(runsOf (irRc6Levels f)).map (·*rc6Unit)).map r).length
        < 3 := by
      have hstart : ∃ k ks, runsOf (irRc6Levels f) = k::ks := by
        unfold runsOf irRc6Levels rc6Start
        exact ⟨_,_,rfl⟩
      obtain ⟨k,ks,hks⟩ := hstart
      rw [hks]
      simp
    rw [irRc6Decode_eq, if_neg hlen, hestimated]
    cases hnominal : rc6Nominal
        ((rc6LeadMark::rc6LeadSpace::(runsOf (irRc6Levels f)).map (·*rc6Unit)).map r) with
    | none => rfl
    | some g =>
      unfold rc6Nominal at hnominal
      split at hnominal
      · rw [rc6_read_nominal hr f hf g hnominal]
        rfl
      · cases hnominal

theorem sent_decoded (hr : Common r) (f : IrFrame) (hs : Sent f) (n : List ℕ)
    (hn : irEncode f = .ok n) : irDecode (n.map r) = f := by
  have hsony : Sony f.protocol → irSircEncode f = .ok n → irDecode (n.map r) = f := by
    intro hp h
    exact decode_sirc (scaled_sirc_not_nec hr f hp n h) (scaled_sirc_not_rc6 hr f hp n h)
      (sirc_decoded f hs hp n _ h (near_map hr n))
  cases hp : f.protocol <;> simp only [irEncode, hp] at hn
  case unknown => cases hn
  case nec | necx => exact decode_nec (nec_decoded f hs (by simp [hp]) n _ hn (near_map hr n))
  case rc5 =>
    obtain ⟨hnec,hrc6,hsirc⟩ := scaled_rc5_alone hr f n hn
    exact decode_rc5 hnec hrc6 hsirc (rc5_decoded f hs hp n _ hn (near_map hr n))
  case rc6 =>
    obtain ⟨hnec,hrc6⟩ := rc6_scaled hr f hs hp n hn
    exact decode_rc6 hnec hrc6
  case sirc12 | sirc15 | sirc20 => exact hsony (by simp [Sony, hp]) hn

/-- The frame as its durations carry it: only RC5 and RC6 have a toggle. -/
def carried (f : IrFrame) : IrFrame :=
  { f with toggle := if f.protocol = .rc5 ∨ f.protocol = .rc6 then f.toggle else 0 }

theorem irEncode_carried (f : IrFrame) : irEncode (carried f) = irEncode f := by
  obtain ⟨p,a,c,rep,g⟩ := f
  cases p <;> rfl

/-- A frame is read back from its durations at any clock between 0.76 and 1.24 of the sender's. -/
theorem ir_decode_scaled (f : IrFrame) (n : List ℕ) (s : ℝ) (r : ℕ → ℕ) (hlow : 0.76 ≤ s)
    (hhigh : s ≤ 1.24) (hr : Scales s r) (hn : irEncode f = .ok n) (honce : f.repeated = false)
    (ha : f.address < 2^16)
    (hx : f.protocol = .necx → (f.address &&& 0xFF) ^^^ f.address >>> 8 ≠ 0xFF) :
    irDecode (n.map r) = carried f := by
  have hs : Sent (carried f) := ⟨honce,ha,hx,fun h5 h6 => if_neg (not_or.mpr ⟨h5,h6⟩)⟩
  rw [← irEncode_carried] at hn
  exact sent_decoded ⟨scales_near hlow hhigh hr,scales_common hr⟩ _ hs n hn

theorem scales_fifths : Scales (6/5) fun n => (6*n+2)/5 := by
  intro n
  have h := Nat.div_add_mod (6*n+2) 5
  have hlt := Nat.mod_lt (6*n+2) (by decide : 0 < 5)
  dsimp only
  generalize (6*n+2)/5 = q at h ⊢
  have hlow : (6*n:ℝ) ≤ 5*q+2 := by exact_mod_cast (by omega : 6*n ≤ 5*q+2)
  have hhigh : (5*q:ℝ) ≤ 6*n+2 := by exact_mod_cast (by omega : 5*q ≤ 6*n+2)
  rw [abs_le]
  constructor <;> linarith

theorem ir_decode_scaled_rc6 : irDecode
    ([2666,889,444,888,444,444,444,444,1332,1332,444,444,444,444,444,444,444,444,888,888,888,888,444,
      444,888,888,444,444,444,444,444,444,888].map fun n => (6*n+2)/5) =
      carried ⟨.rc6,5,33,false,1⟩ :=
  ir_decode_scaled ⟨.rc6,5,33,false,1⟩ _ (6/5) _ (by norm_num) (by norm_num) scales_fifths
    (by decide +kernel) rfl (by decide) (fun h => by cases h)

/-- A toggle is accepted in a NEC frame but not sent, whatever the clock. -/
theorem nec_toggle_lost : ∃ f n s r, (0.76:ℝ) ≤ s ∧ s ≤ 1.24 ∧ Scales s r ∧ irEncode f = .ok n ∧
    f.repeated = false ∧ f.address < 2^16 ∧ f.protocol ≠ .necx ∧
    ¬ SameFrame (irDecode (n.map r)) f := by
  refine ⟨⟨.nec,0,0,false,1⟩,_,1,id,by norm_num,by norm_num,?_,rfl,rfl,by decide,by decide,?_⟩
  · intro n
    norm_num
  · rw [List.map_id]
    decide +kernel

end StarkOne.IrScale
