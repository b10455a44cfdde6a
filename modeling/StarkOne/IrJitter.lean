import Mathlib.Algebra.Order.BigOperators.Group.List
import StarkOne.IrBiphase

/-!
# Decoding with jitter

Up to 15 percent the decoder of the frame's protocol reads the frame back, and
no decoder tried before it answers, but for one pair: a Sony frame whose
durations also round to the runs of an RC6 frame is taken for that one.
-/

set_option autoImplicit false

namespace StarkOne.IrJitter
open StarkOne.IrCodec StarkOne.RunLength StarkOne.IrEncode StarkOne.IrPulses StarkOne.IrBiphase

theorem rc6_first {t : List ℕ} {unit : ℕ} {f : IrFrame} (h : rc6Parse t unit = some f) :
    irMatch (t.getD 2 0) unit = true := by
  obtain ⟨-,ks,hks,-,hlevels⟩ := (rc6Parse_some t unit f).mp h
  have hstart : ∃ rest, padded rc6Halves (spell true ks) = true::false::rest := by
    rw [hlevels]
    exact ⟨_,rfl⟩
  obtain ⟨rest,hrest⟩ := hstart
  cases hdrop : t.drop 2 with
  | nil =>
    rw [hdrop] at hks
    cases hks
    cases hrest
  | cons d tail =>
    rw [hdrop] at hks
    have hget : t.getD 2 0 = d := by
      have := congrArg (fun l => l.getD 0 0) hdrop
      simpa [List.getD_eq_getElem?_getD] using this
    obtain ⟨k,ks,⟨-,h1,-,hm⟩,-,rfl⟩ := List.forall₂_cons_left_iff.mp hks
    have hk : k = 1 := by
      by_contra hne
      obtain ⟨j,rfl⟩ : ∃ j, k = j+2 := ⟨k-2,by omega⟩
      rw [spell, List.replicate_succ, List.replicate_succ] at hrest
      unfold padded at hrest
      split at hrest <;> cases hrest
    rw [hget]
    rwa [hk, Nat.one_mul] at hm

def gap (a b : ℕ) : ℕ := if a > b then a-b else b-a

theorem gap_covers (a b : ℕ) : a ≤ b+gap a b ∧ b ≤ a+gap a b := by
  unfold gap
  split <;> omega

def rc6Estimated (t : List ℕ) : Option IrFrame :=
  let fromMark := t.getD 0 0/6
  let fromSpace := t.getD 1 0/2
  let unit := (t.getD 0 0+t.getD 1 0)/8
  if gap fromMark fromSpace*10 > unit || !irMatch unit rc6Unit then none else rc6Parse t unit

def rc6Nominal (t : List ℕ) : Option IrFrame :=
  if irMatch (t.getD 0 0) rc6LeadMark && irMatch (t.getD 1 0) rc6LeadSpace then
    rc6Parse t rc6Unit
  else none

theorem irRc6Decode_eq (t : List ℕ) :
    irRc6Decode t = if t.length < 3 then none else (rc6Nominal t).or (rc6Estimated t) := by
  unfold irRc6Decode
  split
  · rfl
  · show (rc6Nominal t <|> rc6Estimated t) = _
    cases rc6Nominal t <;> rfl

theorem rc6Estimated_some {t : List ℕ} {f : IrFrame} (h : rc6Estimated t = some f) :
    ∃ unit, unit = (t.getD 0 0+t.getD 1 0)/8 ∧ irMatch unit rc6Unit = true ∧
      t.getD 0 0/6*10 ≤ unit+t.getD 1 0/2*10 ∧ t.getD 1 0/2*10 ≤ unit+t.getD 0 0/6*10 ∧
      rc6Parse t unit = some f := by
  unfold rc6Estimated at h
  dsimp only at h
  split at h
  · cases h
  rename_i hu
  simp only [Bool.or_eq_true, decide_eq_true_eq, Bool.not_eq_true', not_or, Bool.not_eq_false,
    Nat.not_lt] at hu
  have hgap := gap_covers (t.getD 0 0/6) (t.getD 1 0/2)
  exact ⟨_,rfl,hu.2,by omega,by omega,h⟩

theorem rc6Estimated_of {t : List ℕ} {mark space : ℕ} {f : IrFrame} (h0 : t.getD 0 0 = mark)
    (h1 : t.getD 1 0 = space) (hgap : gap (mark/6) (space/2)*10 ≤ (mark+space)/8)
    (hunit : irMatch ((mark+space)/8) rc6Unit = true) (h : rc6Parse t ((mark+space)/8) = some f) :
    rc6Estimated t = some f := by
  unfold rc6Estimated
  dsimp only
  rw [h0, h1, hunit, if_neg]
  · exact h
  · simpa using hgap

theorem rc6_far {t : List ℕ} (h : 693 < t.getD 2 0) : irRc6Decode t = none := by
  have hparse : ∀ unit, irMatch unit rc6Unit = true → rc6Parse t unit = none := by
    intro unit hu
    rw [Option.eq_none_iff_forall_ne_some]
    intro f hf
    have hm := (match_iff _ _).mp (rc6_first hf)
    have := (match_iff _ _).mp hu
    unfold rc6Unit at this
    omega
  have hnominal : rc6Nominal t = none := by
    unfold rc6Nominal
    rw [hparse rc6Unit (by decide), ite_self]
  have hestimated : rc6Estimated t = none := by
    rw [Option.eq_none_iff_forall_ne_some]
    intro f hf
    obtain ⟨unit,-,hu,-,-,hf⟩ := rc6Estimated_some hf
    rw [hparse unit hu] at hf
    cases hf
  rw [irRc6Decode_eq, hnominal, hestimated]
  exact ite_self none

/-- The estimate from a Sony leader is too short for the pulses of a Sony frame. -/
theorem rc6_of_sony {t : List ℕ} (h0 : 2040 ≤ t.getD 0 0) (h0' : t.getD 0 0 ≤ 2760)
    (h1 : t.getD 1 0 ≤ 690) (h2 : 510 ≤ t.getD 2 0) : rc6Estimated t = none := by
  rw [Option.eq_none_iff_forall_ne_some]
  intro f hf
  obtain ⟨unit,hunit,-,hd,-,hf⟩ := rc6Estimated_some hf
  have hm := (match_iff _ _).mp (rc6_first hf)
  omega

theorem emit_high (rest : List Bool) (unit : ℕ) (out : List ℕ) :
    irBiphaseEmit (true::rest) unit out = ((runs true 1 rest).map (·*unit)).foldl irPush out := by
  rw [List.foldl_map]
  rfl

theorem emit_low (rest : List Bool) (unit : ℕ) (out : List ℕ) :
    irBiphaseEmit (false::true::rest) unit out = irBiphaseEmit (true::rest) unit out := rfl

theorem emit_runs (ks out : List ℕ) (unit most : ℕ) (hks : ∀ k ∈ ks, 1 ≤ k ∧ k ≤ most)
    (hunit : 1 ≤ unit) (hmost : most*unit ≤ 65535) (hsum : out.length+ks.sum ≤ irMaxDurations) :
    (ks.map (·*unit)).foldl irPush out = out++ks.map (·*unit) := by
  have hlen : ks.length ≤ ks.sum := List.length_le_sum_of_one_le ks fun k hk => (hks k hk).1
  apply push_fits
  · rw [List.length_map]
    omega
  · intro u hu
    obtain ⟨k,hk,rfl⟩ := List.mem_map.mp hu
    obtain ⟨h1,h2⟩ := hks k hk
    exact ⟨Nat.mul_pos h1 hunit,(Nat.mul_le_mul_right unit h2).trans hmost⟩

theorem rounds_each {R : ℕ → ℕ → Prop} {unit nominal most : ℕ}
    (hunit : ∀ d k, 1 ≤ k → k ≤ most → R d (k*nominal) → Rounds unit most d k)
    (ks d : List ℕ) (hks : ∀ k ∈ ks, 1 ≤ k ∧ k ≤ most)
    (hd : List.Forall₂ R d (ks.map (·*nominal))) : List.Forall₂ (Rounds unit most) d ks := by
  induction ks generalizing d with
  | nil =>
    cases hd
    exact .nil
  | cons k ks ih =>
    obtain ⟨d,rest,hk,hrest,rfl⟩ := List.forall₂_cons_right_iff.mp hd
    obtain ⟨h1,h2⟩ := hks k List.mem_cons_self
    exact .cons (hunit d k h1 h2 hk) (ih rest (fun k hk => hks k (List.mem_cons_of_mem _ hk)) hrest)

theorem rc6_rounds (d k : ℕ) (h1 : 1 ≤ k) (h3 : k ≤ 3) (h : Within15 d (k*rc6Unit)) :
    Rounds rc6Unit 3 d k := by
  have hm := near_match d _ (by unfold rc6Unit; omega) (near_of_within h)
  refine ⟨?_,h1,h3,hm⟩
  unfold Within15 rc6Unit at h
  unfold rc6Unit
  omega

theorem rc5_rounds (d k : ℕ) (h1 : 1 ≤ k) (h2 : k ≤ 2) (h : Near d (k*rc5Unit)) :
    Rounds rc5Unit 2 d k := by
  have hm := near_match d _ (by unfold rc5Unit; omega) h
  refine ⟨?_,h1,h2,hm⟩
  unfold Near rc5Unit at h
  unfold rc5Unit
  omega

theorem rc6_encoded (f : IrFrame) (n : List ℕ) (h : irRc6Encode f = .ok n) :
    f.address ≤ 0xFF ∧ f.command ≤ 0xFF ∧ f.toggle ≤ 1 ∧
      n = rc6LeadMark::rc6LeadSpace::(runsOf (irRc6Levels f)).map (·*rc6Unit) := by
  unfold irRc6Encode at h
  split at h
  · cases h
  rename_i hfit
  simp only [Bool.or_eq_true, decide_eq_true_eq, not_or, Nat.not_lt] at hfit
  have hlead : irPush (irPush [] rc6LeadMark) rc6LeadSpace = [rc6LeadMark,rc6LeadSpace] := rfl
  have hsum := (padded_spell rc6Halves _ (irRc6Levels_length f) (by decide) (rc6_spells f)).1
  have hpush := emit_runs (runsOf (irRc6Levels f)) [rc6LeadMark,rc6LeadSpace] rc6Unit 3
    (rc6_runs_bound f) (by decide) (by decide) (by
      have : rc6Halves = 44 := rfl
      have : irMaxDurations = 256 := rfl
      simp only [List.length_cons, List.length_nil]
      omega)
  cases h
  refine ⟨hfit.1.1,hfit.1.2,hfit.2,?_⟩
  rw [hlead]
  exact (emit_high _ _ _).trans hpush

theorem rc6_decoded (f : IrFrame) (hs : Sent f) (hp : f.protocol = .rc6) (n d : List ℕ)
    (h : irRc6Encode f = .ok n) (hd : List.Forall₂ Within15 d n) : irRc6Decode d = some f := by
  obtain ⟨ha,hc,ht,rfl⟩ := rc6_encoded f n h
  obtain ⟨d0,_,hd0,htail,rfl⟩ := List.forall₂_cons_right_iff.mp hd
  obtain ⟨d1,rest,hd1,hrest,rfl⟩ := List.forall₂_cons_right_iff.mp htail
  have hrounds := rounds_each rc6_rounds _ rest (rc6_runs_bound f) hrest
  have hparse := rc6Parse_of_runs (d0::d1::rest) rc6Unit f ⟨hp,hs.once,ha,hc,ht⟩ hrounds
  have hlen : ¬ (d0::d1::rest).length < 3 := by
    have hpos : runsOf (irRc6Levels f) ≠ [] := by
      unfold runsOf irRc6Levels rc6Start
      simp [runs]
    have := List.length_pos_of_ne_nil hpos
    rw [List.length_cons, List.length_cons, hrounds.length_eq]
    omega
  have h0 := near_match d0 _ (by decide) (near_of_within hd0)
  have h1 := near_match d1 _ (by decide) (near_of_within hd1)
  have hnominal : rc6Nominal (d0::d1::rest) = some f := by
    unfold rc6Nominal
    rw [List.getD_cons_zero, List.getD_cons_succ, List.getD_cons_zero, h0, h1]
    exact hparse
  rw [irRc6Decode_eq, if_neg hlen, hnominal]
  rfl

theorem command_bits : ∀ c < 128, (c &&& 0x40 ≠ 0 ↔ 64 ≤ c) ∧ c &&& 0x3F = c % 64 := by
  decide +kernel

theorem rc5_word (f : IrFrame) (ha : f.address ≤ 0x1F) (hc : f.command ≤ 0x7F) (ht : f.toggle ≤ 1) :
    irRc5Word f = 8192+(if 64 ≤ f.command then 0 else 4096)+f.toggle*2048+f.address*64+
      f.command % 64 := by
  obtain ⟨hbit,hlow⟩ := command_bits f.command (by omega)
  have hs : (if f.command &&& 0x40 ≠ 0 then 0 else 1 <<< 12) = if 64 ≤ f.command then 0 else 4096 := by
    simp only [hbit]
    rfl
  have hlt : (if 64 ≤ f.command then 0 else 4096) < 2^13 := by
    split <;> decide
  have hmod : (if 64 ≤ f.command then 0 else 4096) % 2^12 = 0 := by
    split <;> rfl
  unfold irRc5Word
  rw [hs, hlow, Nat.shiftLeft_eq, Nat.shiftLeft_eq, Nat.shiftLeft_eq]
  generalize (if 64 ≤ f.command then 0 else 4096) = s at hlt hmod
  rw [or_add (1*2^13) s 13 (by omega) hlt, or_add (1*2^13+s) _ 12 (by omega) (by omega),
    or_add (1*2^13+s+f.toggle*2^11) _ 11 (by omega) (by omega),
    or_add (1*2^13+s+f.toggle*2^11+f.address*2^6) _ 6 (by omega) (by omega)]

theorem irRc5Frame_word (f : IrFrame) (hs : Sent f) (hp : f.protocol = .rc5)
    (ha : f.address ≤ 0x1F) (hc : f.command ≤ 0x7F) (ht : f.toggle ≤ 1) :
    irRc5Frame (irRc5Word f) = f := by
  have hw := rc5_word f ha hc ht
  have hr := hs.once
  obtain ⟨p,a,c,r,g⟩ := f
  dsimp only at *
  subst hp hr
  have h1F : ∀ n, n &&& 0x1F = n % 32 := fun n => Nat.and_two_pow_sub_one_eq_mod n 5
  have h3F : ∀ n, n &&& 0x3F = n % 64 := fun n => Nat.and_two_pow_sub_one_eq_mod n 6
  have hone : ∀ n, n &&& 1 = n % 2 := fun n => Nat.and_two_pow_sub_one_eq_mod n 1
  unfold irRc5Frame
  simp only [Nat.shiftRight_eq_div_pow, h1F, h3F, hone, IrFrame.mk.injEq, true_and]
  generalize irRc5Word ⟨.rc5,a,c,false,g⟩ = w at hw
  by_cases hbig : 64 ≤ c
  · rw [if_pos hbig] at hw
    rw [if_neg (by omega), Nat.or_comm, or_add _ _ 6 (by decide) (by omega)]
    omega
  · rw [if_neg hbig] at hw
    rw [if_pos (by omega), Nat.or_zero]
    omega

def rc5Levels (f : IrFrame) : List Bool := halves ((bitsDown (irRc5Word f) rc5Bits).map (! ·))

theorem rc5_levels (f : IrFrame) (ha : f.address ≤ 0x1F) (hc : f.command ≤ 0x7F)
    (ht : f.toggle ≤ 1) :
    rc5Levels f = false::true::halves ((bitsDown (irRc5Word f) 13).map (! ·)) := by
  have hw := rc5_word f ha hc ht
  have htop : (irRc5Word f).testBit 13 = true := by
    rw [Nat.testBit_eq_decide_div_mod_eq, decide_eq_true_eq, hw]
    split <;> omega
  unfold rc5Levels rc5Bits
  rw [bitsDown, htop]
  rfl

theorem rc5_encoded (f : IrFrame) (n : List ℕ) (h : irRc5Encode f = .ok n) :
    f.address ≤ 0x1F ∧ f.command ≤ 0x7F ∧ f.toggle ≤ 1 ∧
      n = (runsOf (rc5Levels f).tail).map (·*rc5Unit) ∧
      (∀ k ∈ runsOf (rc5Levels f).tail, 1 ≤ k ∧ k ≤ 2) ∧
      (runsOf (rc5Levels f).tail).sum ≤ 27 ∧
      padded 27 (spell true (runsOf (rc5Levels f).tail)) = (rc5Levels f).tail := by
  unfold irRc5Encode at h
  split at h
  · cases h
  rename_i hfit
  simp only [Bool.or_eq_true, decide_eq_true_eq, not_or, Nat.not_lt] at hfit
  obtain ⟨⟨ha,hc⟩,ht⟩ := hfit
  have hlevels := rc5_levels f ha hc ht
  have htail : runsOf (rc5Levels f).tail =
      runs true 1 (halves ((bitsDown (irRc5Word f) 13).map (! ·))) := by
    rw [hlevels]
    rfl
  have hbound : ∀ k ∈ runsOf (rc5Levels f).tail, 1 ≤ k ∧ k ≤ 2 := by
    rw [htail]
    exact runs_bound _ true 1 2 (by decide) (by decide) (by decide)
  have hlen : (rc5Levels f).tail.length = 27 := by
    rw [List.length_tail, rc5Levels, halves_length, List.length_map, bitsDown_length]
    rfl
  have hspells : spell true (runsOf (rc5Levels f).tail) = (rc5Levels f).tail ∨
      spell true (runsOf (rc5Levels f).tail)++[false] = (rc5Levels f).tail := by
    rw [hlevels]
    exact spells_halves _ true 1 (.inr rfl)
  obtain ⟨hsum,hpad⟩ := padded_spell 27 _ hlen (by decide) hspells
  have hpush := emit_runs (runsOf (rc5Levels f).tail) [] rc5Unit 2 hbound (by decide) (by decide)
    (by
      have : irMaxDurations = 256 := rfl
      rw [List.length_nil]
      omega)
  cases h
  refine ⟨ha,hc,ht,?_,hbound,hsum,hpad⟩
  rw [List.nil_append, htail, ← emit_high, ← emit_low, ← hlevels] at hpush
  rw [htail]
  exact hpush

theorem rc5_decoded (f : IrFrame) (hs : Sent f) (hp : f.protocol = .rc5) (n d : List ℕ)
    (h : irRc5Encode f = .ok n) (hd : List.Forall₂ Near d n) : irRc5Decode d = some f := by
  obtain ⟨ha,hc,ht,rfl,hbound,hsum,hpad⟩ := rc5_encoded f n h
  have hrounds := rounds_each rc5_rounds _ d hbound hd
  have hne : d.length ≠ 0 := by
    intro h0
    rw [hrounds.length_eq] at h0
    rw [List.length_eq_zero_iff.mp h0] at hpad
    have := congrArg List.length hpad
    rw [rc5_levels f ha hc ht] at this
    simp [padded, spell, halves_length, bitsDown_length] at this
  have hexpand : irBiphaseExpand rc5Unit 2 (2*rc5Bits) true [] d =
      some (spell true (runsOf (rc5Levels f).tail)) :=
    (expand_some _ _ _ _ _ _ _ (Nat.zero_le _)).mpr
      ⟨_,hrounds,by rw [List.length_nil]; unfold rc5Bits; omega,rfl⟩
  have hhalves : (if (false::spell true (runsOf (rc5Levels f).tail)).length = 2*rc5Bits-1 then
      (false::spell true (runsOf (rc5Levels f).tail))++[false]
      else false::spell true (runsOf (rc5Levels f).tail)) = rc5Levels f := by
    have hfull : rc5Levels f = false::(rc5Levels f).tail := by
      rw [rc5_levels f ha hc ht]
      rfl
    generalize spell true (runsOf (rc5Levels f).tail) = seen at hpad ⊢
    rw [hfull, ← hpad]
    unfold padded
    by_cases hl : seen.length = 27-1
    · rw [if_pos (by rw [List.length_cons, hl]; rfl), if_pos hl]
      rfl
    · rw [if_neg (by rw [List.length_cons]; unfold rc5Bits; omega), if_neg hl]
  have hlen : (rc5Levels f).length = 2*rc5Bits := by
    rw [rc5Levels, halves_length, List.length_map, bitsDown_length]
  have hbits := bits_halves (fun _ b => b) (! ·) (fun a => Bool.not_not a)
    (bitsDown (irRc5Word f) rc5Bits) 0
  have hw := rc5_word f ha hc ht
  have hlt : irRc5Word f % 2^rc5Bits = irRc5Word f := by
    apply Nat.mod_eq_of_lt
    rw [hw]
    unfold rc5Bits
    split <;> omega
  rw [foldl_bitsDown, Nat.zero_mul, Nat.zero_add, hlt] at hbits
  unfold irRc5Decode
  rw [if_neg hne, hexpand]
  simp only [Option.bind_eq_bind, Option.bind_some]
  rw [hhalves, if_neg (not_not.mpr hlen)]
  show (irBiphaseBits _ 0 (rc5Levels f)).map irRc5Frame = _
  rw [rc5Levels, hbits]
  exact congrArg some (irRc5Frame_word f hs hp ha hc ht)

/-- The durations also round to those of an RC6 frame, with a leader close to its leader. -/
def ReadsAsRc6 (d : List ℕ) : Prop :=
  ∃ g n, g.protocol = .rc6 ∧ irEncode g = .ok n ∧
    List.Forall₂ (fun d u => irMatch d u = true) (d.take 2) (n.take 2) ∧
    List.Forall₂ (fun d u => (d+rc6Unit/2)/rc6Unit*rc6Unit = u ∧ irMatch d u = true)
      (d.drop 2) (n.drop 2)

theorem rc6_encodes (g : IrFrame) (hg : Rc6Frame g) : irEncode g =
    .ok (rc6LeadMark::rc6LeadSpace::(runsOf (irRc6Levels g)).map (·*rc6Unit)) := by
  have hok : ∃ n, irRc6Encode g = .ok n := by
    have ha := hg.address
    have hc := hg.command
    have ht := hg.toggle
    refine ⟨_,if_neg ?_⟩
    simp only [Bool.or_eq_true, decide_eq_true_eq]
    omega
  obtain ⟨n,hn⟩ := hok
  obtain ⟨-,-,-,rfl⟩ := rc6_encoded g n hn
  unfold irEncode
  rw [hg.protocol]
  exact hn

theorem readsAsRc6_of_nominal (d : List ℕ) (g : IrFrame) (hlen : 2 ≤ d.length)
    (hodd : (d.drop 2).length % 2 = 1) (h : rc6Nominal d = some g) : ReadsAsRc6 d := by
  unfold rc6Nominal at h
  split at h
  · rename_i hlead
    obtain ⟨h0,h1⟩ := Bool.and_eq_true_iff.mp hlead
    obtain ⟨hg,hr⟩ := runs_of_rc6Parse d rc6Unit g hodd h
    refine ⟨g,_,hg.protocol,rc6_encodes g hg,?_,?_⟩
    · match d, hlen with
      | d0::d1::rest, _ => exact .cons h0 (.cons h1 .nil)
    · apply List.forall₂_map_right_iff.mpr
      exact hr.imp fun x k hk => ⟨congrArg (·*rc6Unit) hk.1,hk.2.2.2⟩
  · cases h

theorem nominal_of_readsAsRc6 (d : List ℕ) (h : ReadsAsRc6 d) : ∃ g, rc6Nominal d = some g := by
  obtain ⟨g,n,hp,hn,hlead,hrest⟩ := h
  have henc : irRc6Encode g = .ok n := by
    unfold irEncode at hn
    rwa [hp] at hn
  obtain ⟨ha,hc,ht,rfl⟩ := rc6_encoded g n henc
  have hrounds : List.Forall₂ (Rounds rc6Unit 3) (d.drop 2) (runsOf (irRc6Levels g)) := by
    have hboth := (List.forall₂_and_left _ _).mpr
      ⟨rc6_runs_bound g,(List.forall₂_map_right_iff.mp hrest).flip⟩
    apply hboth.flip.imp
    intro x k hk
    exact ⟨Nat.eq_of_mul_eq_mul_right (by decide) hk.2.1,hk.1.1,hk.1.2,hk.2.2⟩
  have hparse := rc6Parse_of_runs d rc6Unit { g with repeated := false } ⟨hp,rfl,ha,hc,ht⟩ hrounds
  match d, hlead with
  | [d0], hlead => cases hlead with | cons _ h => cases h
  | d0::d1::rest, hlead =>
    cases hlead with
    | cons h0 h =>
      cases h with
      | cons h1 _ =>
        refine ⟨{ g with repeated := false },?_⟩
        unfold rc6Nominal
        rw [List.getD_cons_zero, List.getD_cons_succ, List.getD_cons_zero, h0, h1]
        exact hparse

theorem decode_nec {d : List ℕ} {f : IrFrame} (h : irNecDecode d = some f) : irDecode d = f := by
  unfold irDecode
  rw [h]
  rfl

theorem decode_rc6 {d : List ℕ} {f : IrFrame} (hn : irNecDecode d = none)
    (h : irRc6Decode d = some f) : irDecode d = f := by
  unfold irDecode
  rw [hn, h]
  rfl

theorem decode_sirc {d : List ℕ} {f : IrFrame} (hn : irNecDecode d = none)
    (h6 : irRc6Decode d = none) (h : irSircDecode d = some f) : irDecode d = f := by
  unfold irDecode
  rw [hn, h6, h]
  rfl

theorem decode_rc5 {d : List ℕ} {f : IrFrame} (hn : irNecDecode d = none)
    (h6 : irRc6Decode d = none) (hs : irSircDecode d = none) (h : irRc5Decode d = some f) :
    irDecode d = f := by
  unfold irDecode
  rw [hn, h6, hs, h]
  rfl

theorem rc6Decode_protocol {d : List ℕ} {f : IrFrame} (h : irRc6Decode d = some f) :
    f.protocol = .rc6 := by
  rw [irRc6Decode_eq] at h
  split at h
  · cases h
  · rcases Option.or_eq_some_iff.mp h with h | ⟨-,h⟩
    · unfold rc6Nominal at h
      split at h
      · exact ((rc6Parse_some _ _ _).mp h).1.protocol
      · cases h
    · obtain ⟨unit,-,-,-,-,h⟩ := rc6Estimated_some h
      exact ((rc6Parse_some _ _ _).mp h).1.protocol

theorem rc5_start (f : IrFrame) (n : List ℕ) (h : irRc5Encode f = .ok n) :
    ∃ a b c rest, n = (a::b::c::rest).map (·*rc5Unit) ∧ ∀ k ∈ a::b::c::rest, 1 ≤ k ∧ k ≤ 2 := by
  obtain ⟨ha,hc,ht,rfl,hbound,hsum,hpad⟩ := rc5_encoded f n h
  have hlen : (padded 27 (spell true (runsOf (rc5Levels f).tail))).length = 27 := by
    rw [hpad, List.length_tail, rc5Levels, halves_length, List.length_map, bitsDown_length]
    rfl
  have hspell := spell_length true (runsOf (rc5Levels f).tail)
  have hmost := List.sum_le_card_nsmul _ 2 fun k hk => (hbound k hk).2
  rw [nsmul_eq_mul, Nat.cast_id] at hmost
  have hthree : 3 ≤ (runsOf (rc5Levels f).tail).length := by
    unfold padded at hlen
    split at hlen
    · omega
    · omega
  generalize runsOf (rc5Levels f).tail = ks at hbound hthree
  match ks, hthree with
  | a::b::c::rest, _ => exact ⟨a,b,c,rest,rfl,hbound⟩

theorem rc5_alone (f : IrFrame) (n d : List ℕ) (h : irRc5Encode f = .ok n)
    (hd : List.Forall₂ Within15 d n) :
    irNecDecode d = none ∧ irRc6Decode d = none ∧ irSircDecode d = none := by
  obtain ⟨a,b,c,rest,rfl,hbound⟩ := rc5_start f n h
  obtain ⟨d0,_,hd0,htail,rfl⟩ := List.forall₂_cons_right_iff.mp hd
  obtain ⟨d1,_,hd1,htail',rfl⟩ := List.forall₂_cons_right_iff.mp htail
  obtain ⟨d2,_,hd2,-,rfl⟩ := List.forall₂_cons_right_iff.mp htail'
  have hlong : ∀ k, 1 ≤ k ∧ k ≤ 2 → ∀ x, Within15 x (k*rc5Unit) → 756 ≤ x ∧ x ≤ 2045 := by
    intro k hk x hx
    unfold Within15 rc5Unit at hx
    omega
  have h0 := hlong a (hbound a (by simp)) d0 hd0
  have h1 := hlong b (hbound b (by simp)) d1 hd1
  have h2 := hlong c (hbound c (by simp)) d2 hd2
  refine ⟨nec_far ?_,rc6_far ?_,sirc_far ?_⟩
  · rw [List.getD_cons_zero]
    omega
  · rw [List.getD_cons_succ, List.getD_cons_succ, List.getD_cons_zero]
    omega
  · rw [List.getD_cons_succ, List.getD_cons_zero]
    omega

theorem sirc_start (f : IrFrame) (hp : Sony f.protocol) (n : List ℕ)
    (h : irSircEncode f = .ok n) : n.length = 1+2*sircBits f.protocol ∧ ∃ u rest,
      n = sircStartMark::sircSpace::u::rest ∧ (u = sircOneMark ∨ u = sircZeroMark) := by
  obtain ⟨-,-,rfl⟩ := sirc_encoded f n h
  constructor
  · rw [List.length_cons, pulses_length, Nat.add_comm]
  obtain ⟨m,hm⟩ : ∃ m, sircBits f.protocol = m+1 := by
    rcases hp with hp | hp | hp <;> rw [hp] <;> exact ⟨_,rfl⟩
  rw [hm, pulses]
  refine ⟨_,_,rfl,?_⟩
  split
  · exact .inl rfl
  · exact .inr rfl

theorem sirc_leader (f : IrFrame) (hp : Sony f.protocol) (n d : List ℕ)
    (h : irSircEncode f = .ok n) (hd : List.Forall₂ Within15 d n) :
    2040 ≤ d.getD 0 0 ∧ d.getD 0 0 ≤ 2760 ∧ d.getD 1 0 ≤ 690 ∧ 510 ≤ d.getD 2 0 ∧
      2 ≤ d.length ∧ (d.drop 2).length % 2 = 1 := by
  obtain ⟨hlen,u,rest,rfl,hu⟩ := sirc_start f hp n h
  rw [← hd.length_eq] at hlen
  obtain ⟨d0,_,hd0,htail,rfl⟩ := List.forall₂_cons_right_iff.mp hd
  obtain ⟨d1,_,hd1,htail',rfl⟩ := List.forall₂_cons_right_iff.mp htail
  obtain ⟨d2,rest,hd2,hrest,rfl⟩ := List.forall₂_cons_right_iff.mp htail'
  rw [List.getD_cons_zero, List.getD_cons_succ, List.getD_cons_zero, List.getD_cons_succ,
    List.getD_cons_succ, List.getD_cons_zero]
  have hmark : 510 ≤ d2 := by
    unfold Within15 at hd2
    unfold sircOneMark sircZeroMark at hu
    omega
  unfold Within15 sircStartMark at hd0
  unfold Within15 sircSpace at hd1
  simp only [List.length_cons, List.drop_succ_cons, List.drop_zero] at hlen ⊢
  exact ⟨by omega,by omega,by omega,hmark,by omega,by omega⟩

theorem sirc_not_nec (f : IrFrame) (hp : Sony f.protocol) (n d : List ℕ)
    (h : irSircEncode f = .ok n) (hd : List.Forall₂ Within15 d n) : irNecDecode d = none := by
  obtain ⟨-,h0,-⟩ := sirc_leader f hp n d h hd
  exact nec_far (by omega)

/-- The RC6 decoder takes a Sony frame exactly when it also rounds to an RC6 frame. -/
theorem sirc_rc6 (f : IrFrame) (hp : Sony f.protocol) (n d : List ℕ) (h : irSircEncode f = .ok n)
    (hd : List.Forall₂ Within15 d n) : irRc6Decode d = none ↔ ¬ ReadsAsRc6 d := by
  obtain ⟨h0,h0',h1,h2,hlen,hodd⟩ := sirc_leader f hp n d h hd
  have hestimated := rc6_of_sony h0 h0' h1 h2
  have hthree : ¬ d.length < 3 := by
    rw [List.length_drop] at hodd
    omega
  have hor : irRc6Decode d = rc6Nominal d := by
    rw [irRc6Decode_eq, if_neg hthree, hestimated, Option.or_none]
  rw [hor]
  constructor
  · intro hnone hreads
    obtain ⟨g,hg⟩ := nominal_of_readsAsRc6 d hreads
    rw [hnone] at hg
    cases hg
  · intro hreads
    rw [Option.eq_none_iff_forall_ne_some]
    intro g hg
    exact hreads (readsAsRc6_of_nominal d g hlen hodd hg)

theorem rc6_not_nec (f : IrFrame) (n d : List ℕ) (h : irRc6Encode f = .ok n)
    (hd : List.Forall₂ Within15 d n) : irNecDecode d = none := by
  obtain ⟨-,-,-,rfl⟩ := rc6_encoded f n h
  obtain ⟨d0,rest,hd0,-,rfl⟩ := List.forall₂_cons_right_iff.mp hd
  apply nec_far
  unfold Within15 rc6LeadMark at hd0
  rw [List.getD_cons_zero]
  omega

def SameFrame (g f : IrFrame) : Prop :=
  g.protocol = f.protocol ∧ g.address = f.address ∧ g.command = f.command ∧ g.toggle = f.toggle

theorem sony_decoded (f : IrFrame) (hs : Sent f) (hp : Sony f.protocol) (n d : List ℕ)
    (h : irSircEncode f = .ok n) (hd : List.Forall₂ Within15 d n) :
    SameFrame (irDecode d) f ↔ ¬ ReadsAsRc6 d := by
  have hnec := sirc_not_nec f hp n d h hd
  have hrc6 := sirc_rc6 f hp n d h hd
  constructor
  · rintro ⟨hsame,-⟩
    rw [← hrc6, Option.eq_none_iff_forall_ne_some]
    intro g hg
    rw [decode_rc6 hnec hg, rc6Decode_protocol hg] at hsame
    rw [← hsame] at hp
    rcases hp with hp | hp | hp <;> cases hp
  · intro hreads
    rw [decode_sirc hnec (hrc6.mpr hreads)
        (sirc_decoded f hs hp n d h (hd.imp fun _ _ => near_of_within))]
    exact ⟨rfl,rfl,rfl,rfl⟩

/-- The frame is read back from its jittered durations, unless it is a Sony frame whose
durations also round to an RC6 frame. -/
theorem ir_decode_jittered (f : IrFrame) (n d : List ℕ) (hs : Sent f) (hn : irEncode f = .ok n)
    (hd : List.Forall₂ Within15 d n) :
    SameFrame (irDecode d) f ↔ (Sony f.protocol → ¬ ReadsAsRc6 d) := by
  have hother : ¬ Sony f.protocol → irDecode d = f →
      (SameFrame (irDecode d) f ↔ (Sony f.protocol → ¬ ReadsAsRc6 d)) := by
    intro hp h
    rw [h]
    exact iff_of_true ⟨rfl,rfl,rfl,rfl⟩ fun h => absurd h hp
  have hsony : Sony f.protocol → irSircEncode f = .ok n →
      (SameFrame (irDecode d) f ↔ (Sony f.protocol → ¬ ReadsAsRc6 d)) := by
    intro hp h
    rw [sony_decoded f hs hp n d h hd]
    exact ⟨fun h _ => h,fun h => h hp⟩
  cases hp : f.protocol <;> simp only [irEncode, hp] at hn
  case unknown => cases hn
  case nec | necx =>
    rw [← hp]
    exact hother (by rw [hp]; rintro (h | h | h) <;> cases h)
      (decode_nec (nec_decoded f hs (by simp [hp]) n d hn (hd.imp fun _ _ => near_of_within)))
  case rc5 =>
    obtain ⟨hnec,hrc6,hsirc⟩ := rc5_alone f n d hn hd
    rw [← hp]
    exact hother (by rw [hp]; rintro (h | h | h) <;> cases h)
      (decode_rc5 hnec hrc6 hsirc (rc5_decoded f hs hp n d hn
        (hd.imp fun _ _ => near_of_within)))
  case rc6 =>
    rw [← hp]
    exact hother (by rw [hp]; rintro (h | h | h) <;> cases h)
      (decode_rc6 (rc6_not_nec f n d hn hd) (rc6_decoded f hs hp n d hn hd))
  case sirc12 | sirc15 | sirc20 =>
    rw [← hp]
    exact hsony (by simp [Sony, hp]) hn

instance (d n : ℕ) : Decidable (Within15 d n) := inferInstanceAs (Decidable (_ ∧ _))

instance (g f : IrFrame) : Decidable (SameFrame g f) := inferInstanceAs (Decidable (_ ∧ _))

theorem ir_decode_jittered_rc5 : SameFrame
    (irDecode [1000,800,950,760,2000,900,860,1700,2000,1600,910,770,1020,880,1700,1800,1900,2040,890])
    ⟨.rc5,5,53,false,1⟩ :=
  (ir_decode_jittered ⟨.rc5,5,53,false,1⟩
    [889,889,889,889,1778,889,889,1778,1778,1778,889,889,889,889,1778,1778,1778,1778,889] _
    ⟨rfl,by decide,fun h => (by cases h),fun h => absurd rfl h⟩ (by decide +kernel)
    (by decide +kernel)).mpr (by rintro (h | h | h) <;> cases h)

/-- A Sony frame of 15 bits, no duration more than 14 percent off, is taken for RC6. -/
theorem sony_read_as_rc6 : ∃ d, irEncode ⟨.sirc15,0,0,false,0⟩ = .ok (2400::List.replicate 30 600) ∧
    List.Forall₂ Within15 d (2400::List.replicate 30 600) ∧ irDecode d = ⟨.rc6,5,85,false,0⟩ ∧
    ¬ SameFrame (irDecode d) ⟨.sirc15,0,0,false,0⟩ :=
  ⟨[2400,680,540,680,540,540,540,540,540,680,680,540,540,540,540,540,540,540,540,540,680,680,680,680,
    680,680,680,680,680,680,680],by decide +kernel⟩

end StarkOne.IrJitter
