import StarkOne.IrEncode

/-!
# Pulse frames with jitter

Every duration of a sent frame is measured with an error of its own. The bits
of a pulse frame survive an error of 24 percent and a rounding, and so do the
fields of a NEC and of a Sony frame.
-/

set_option autoImplicit false

namespace StarkOne.IrPulses
open StarkOne.IrCodec StarkOne.IrEncode

def Within15 (d n : ℕ) : Prop := 85*n ≤ 100*d ∧ 100*d ≤ 115*n

def Near (d n : ℕ) : Prop := 38*n ≤ 50*d+25 ∧ 50*d ≤ 62*n+25

theorem near_of_within {d n : ℕ} (h : Within15 d n) : Near d n := by
  unfold Within15 at h
  unfold Near
  omega

theorem match_iff (d n : ℕ) : irMatch d n = true ↔
    n-max (n*25/100) 60 ≤ d ∧ d ≤ n+max (n*25/100) 60 := by
  simp only [irMatch, Bool.and_eq_true, decide_eq_true_eq]
  rfl

theorem near_match (d n : ℕ) (hn : 20 ≤ n) (h : Near d n) : irMatch d n = true := by
  unfold Near at h
  rw [match_iff]
  omega

theorem far_match (d n : ℕ) (h : n+max (n*25/100) 60 < d ∨ d < n-max (n*25/100) 60) :
    irMatch d n = false := by
  rw [← Bool.not_eq_true, match_iff]
  omega

theorem push_fits (us t : List ℕ) (hlen : t.length+us.length ≤ irMaxDurations)
    (hus : ∀ u ∈ us, 1 ≤ u ∧ u ≤ 65535) : us.foldl irPush t = t++us := by
  induction us generalizing t with
  | nil => exact (List.append_nil t).symm
  | cons u us ih =>
    obtain ⟨h1,h2⟩ := hus u List.mem_cons_self
    rw [List.length_cons] at hlen
    have hpush : irPush t u = t++[u] := by
      unfold irPush
      rw [if_neg]
      simp only [Bool.or_eq_true, decide_eq_true_eq]
      omega
    rw [List.foldl_cons, hpush, ih (t++[u]) (by simp; omega)
      (fun v hv => hus v (List.mem_cons_of_mem _ hv)), List.append_assoc]
    rfl

theorem mod_succ (word n : ℕ) :
    word % 2^(n+1) = word % 2^n+2^n*(word.testBit n).toNat := by
  rw [Nat.mod_pow_succ, Nat.toNat_testBit]

theorem or_add (x y k : ℕ) (hx : x % 2^k = 0) (hy : y < 2^k) : x ||| y = x+y := by
  have h := Nat.two_pow_add_eq_or_of_lt hy (x/2^k)
  rw [Nat.mul_div_cancel' (Nat.dvd_of_mod_eq_zero hx)] at h
  exact h.symm

theorem byte_mask (n : ℕ) : n &&& 0xFF = n % 256 := Nat.and_two_pow_sub_one_eq_mod n 8

def pulses (fixed one nought word i : ℕ) : ℕ → List ℕ
  | 0 => []
  | n+1 =>
    fixed::(if word.testBit i then one else nought)::pulses fixed one nought word (i+1) n

theorem pulses_length (fixed one nought word i n : ℕ) :
    (pulses fixed one nought word i n).length = 2*n := by
  induction n generalizing i with
  | zero => rfl
  | succ n ih => simp [pulses, ih]; omega

theorem mem_pulses (fixed one nought word i n u : ℕ) (h : u ∈ pulses fixed one nought word i n) :
    u = fixed ∨ u = one ∨ u = nought := by
  induction n generalizing i with
  | zero => cases h
  | succ n ih =>
    rw [pulses, List.mem_cons, List.mem_cons] at h
    rcases h with h | h | h
    · exact .inl h
    · split at h
      · exact .inr (.inl h)
      · exact .inr (.inr h)
    · exact ih (i+1) h

theorem pushBits_fold (fixed one nought word i n : ℕ) (t : List ℕ) :
    pushBits fixed one nought word i n t = (pulses fixed one nought word i n).foldl irPush t := by
  induction n generalizing i t with
  | zero => rfl
  | succ n ih => rw [pushBits, pulses, ih, List.foldl_cons, List.foldl_cons]

theorem irPulses_jittered (fixed one nought word : ℕ) (hf : 20 ≤ fixed) (hz : 20 ≤ nought)
    (hone : 20 ≤ one) (hfar : ∀ d, Near d nought → irMatch d one = false) (n : ℕ) (i : ℕ)
    (d : List ℕ) (hd : List.Forall₂ Near d (pulses fixed one nought word i n)) :
    irPulses fixed one nought i (word % 2^i) d = some (word % 2^(i+n)) := by
  induction n generalizing i d with
  | zero =>
    cases hd
    rfl
  | succ n ih =>
    cases hd with
    | cons ha hrest =>
      cases hrest with
      | cons hb hrest =>
        have hnext := ih (i+1) _ hrest
        have hi : i+1+n = i+(n+1) := by omega
        rw [irPulses, near_match _ _ hf ha]
        by_cases hbit : word.testBit i = true
        · rw [if_pos hbit] at hb
          have hword : word % 2^i ||| 1 <<< i = word % 2^(i+1) := by
            have hlt : word % 2^i < 2^i := Nat.mod_lt _ (Nat.two_pow_pos i)
            rw [mod_succ, hbit, Nat.or_comm, Nat.shiftLeft_eq, Nat.one_mul,
              or_add _ _ i (Nat.mod_self _) hlt]
            simp [Nat.add_comm]
          rw [near_match _ _ hone hb, hword, hnext, hi]
          rfl
        · rw [if_neg hbit] at hb
          have hword : word % 2^i = word % 2^(i+1) := by
            rw [mod_succ, Bool.eq_false_of_not_eq_true hbit, Bool.toNat_false, Nat.mul_zero,
              Nat.add_zero]
          rw [hfar _ hb, near_match _ _ hz hb, hword, hnext, hi]
          rfl

theorem nec_far {d : List ℕ} (h : d.getD 0 0 < 6750) : irNecDecode d = none := by
  have hlead : irMatch (d.getD 0 0) necLeadMark = false := by
    apply far_match
    right
    unfold necLeadMark
    omega
  unfold irNecDecode
  dsimp only
  rw [hlead]
  simp

theorem notByte_eq : ∀ x < 256, notByte x = 255-x := by decide +kernel

theorem byte_xor : ∀ x < 256, x ^^^ (255-x) = 255 := by decide +kernel

/-- A frame as it is sent: each field within its type, no repeat code, the toggle only
where the protocol has one, and a 16-bit address that is not one of plain NEC. -/
structure Sent (f : IrFrame) : Prop where
  once : f.repeated = false
  address : f.address < 2^16
  extended : f.protocol = .necx → (f.address &&& 0xFF) ^^^ f.address >>> 8 ≠ 0xFF
  toggle : f.protocol ≠ .rc5 → f.protocol ≠ .rc6 → f.toggle = 0

def necAddress (f : IrFrame) : ℕ :=
  if f.protocol = .nec then f.address+(255-f.address)*256 else f.address

theorem nec_word (f : IrFrame) (ha : f.address < 2^16) (hc : f.command ≤ 0xFF)
    (hn : f.protocol = .nec → f.address ≤ 0xFF) : necAddress f < 65536 ∧
      irNecWord f = necAddress f+f.command*65536+(255-f.command)*16777216 := by
  have haddr : (if f.protocol = .nec then f.address ||| notByte f.address <<< 8 else f.address) =
      necAddress f := by
    unfold necAddress
    split
    · rename_i hp
      have := hn hp
      rw [notByte_eq _ (by omega), Nat.shiftLeft_eq, Nat.or_comm, or_add _ _ 8 (by omega) (by omega)]
      omega
    · rfl
  have hlt : necAddress f < 65536 := by
    unfold necAddress
    split
    · rename_i hp
      have := hn hp
      omega
    · exact ha
  refine ⟨hlt,?_⟩
  unfold irNecWord
  dsimp only
  rw [haddr, notByte_eq _ (by omega), Nat.shiftLeft_eq, Nat.shiftLeft_eq, Nat.or_comm (necAddress f),
    or_add _ _ 16 (by omega) hlt, Nat.or_comm, or_add _ _ 24 (by omega) (by omega)]
  omega

theorem irNecFrame_word (f : IrFrame) (hs : Sent f) (hp : f.protocol = .nec ∨ f.protocol = .necx)
    (hc : f.command ≤ 0xFF) (hn : f.protocol = .nec → f.address ≤ 0xFF) :
    irNecFrame (irNecWord f % 2^32) = some f := by
  obtain ⟨hlt,hw⟩ := nec_word f hs.address hc hn
  have hcx := byte_xor f.command (by omega)
  have hax := byte_xor (f.address % 256) (by omega)
  have ht := hs.toggle (by rcases hp with hp | hp <;> rw [hp] <;> decide)
    (by rcases hp with hp | hp <;> rw [hp] <;> decide)
  have hr := hs.once
  have hx := hs.extended
  have ha := hs.address
  obtain ⟨p,a,c,r,g⟩ := f
  dsimp only at *
  subst hr ht
  unfold irNecFrame
  simp only [byte_mask, Nat.shiftRight_eq_div_pow] at hx ⊢
  rw [Nat.mod_eq_of_lt (show irNecWord ⟨p,a,c,false,0⟩ < 2^32 by omega)]
  have hncw : irNecWord ⟨p,a,c,false,0⟩/2^24 % 256 = 255-c := by
    rw [hw, show necAddress ⟨p,a,c,false,0⟩+c*65536+(255-c)*16777216 =
      necAddress ⟨p,a,c,false,0⟩+c*65536+2^24*(255-c) by omega,
      Nat.add_mul_div_left _ _ (by decide), Nat.div_eq_of_lt (by omega)]
    omega
  have hcw : irNecWord ⟨p,a,c,false,0⟩/2^16 % 256 = c := by omega
  rw [hcw, hncw, hcx, if_neg (by simp)]
  rcases hp with rfl | rfl
  · have hle := hn rfl
    have hm : necAddress ⟨.nec,a,c,false,0⟩ = a+(255-a)*256 := rfl
    have hlo : irNecWord ⟨.nec,a,c,false,0⟩ % 256 = a := by omega
    have hhi : irNecWord ⟨.nec,a,c,false,0⟩/2^8 % 256 = 255-a := by omega
    rw [Nat.mod_eq_of_lt (show a < 256 by omega)] at hax
    rw [hlo, hhi, hax, if_pos rfl]
  · have hm : necAddress ⟨.necx,a,c,false,0⟩ = a := rfl
    have hlo : irNecWord ⟨.necx,a,c,false,0⟩ % 256 = a % 256 := by omega
    have hhi : irNecWord ⟨.necx,a,c,false,0⟩/2^8 % 256 = a/2^8 := by omega
    rw [hlo, hhi, if_neg (hx rfl), Nat.shiftLeft_eq, Nat.or_comm,
      or_add _ _ 8 (by omega) (by omega)]
    congr
    omega

theorem nec_encoded (f : IrFrame) (hs : Sent f) (n : List ℕ) (h : irNecEncode f = .ok n) :
    f.command ≤ 0xFF ∧ (f.protocol = .nec → f.address ≤ 0xFF) ∧
      n = necLeadMark::necLeadSpace::
        (pulses necBitMark necOneSpace necZeroSpace (irNecWord f) 0 32++[necBitMark]) := by
  unfold irNecEncode at h
  rw [if_neg (by simp [hs.once])] at h
  split at h
  · cases h
  rename_i hfit
  simp only [Bool.or_eq_true, Bool.and_eq_true, decide_eq_true_eq, not_or, Nat.not_lt, not_and]
    at hfit
  refine ⟨hfit.1,hfit.2,?_⟩
  dsimp only at h
  have hpush : ∀ us, irPush (irPush [] necLeadMark) necLeadSpace = us →
      us = [necLeadMark,necLeadSpace] := fun us hus => hus ▸ rfl
  have hbits : pushBits necBitMark necOneSpace necZeroSpace (irNecWord f) 0 32
      [necLeadMark,necLeadSpace] = [necLeadMark,necLeadSpace]++
        pulses necBitMark necOneSpace necZeroSpace (irNecWord f) 0 32 := by
    rw [pushBits_fold]
    apply push_fits
    · rw [pulses_length]
      decide
    · intro u hu
      rcases mem_pulses _ _ _ _ _ _ _ hu with rfl | rfl | rfl <;> decide
  have hlast := push_fits [necBitMark] ([necLeadMark,necLeadSpace]++
    pulses necBitMark necOneSpace necZeroSpace (irNecWord f) 0 32)
    (by rw [List.length_append, pulses_length]; decide) (by decide)
  rw [hpush _ rfl, hbits] at h
  cases h
  exact hlast

theorem nec_decoded (f : IrFrame) (hs : Sent f) (hp : f.protocol = .nec ∨ f.protocol = .necx)
    (n d : List ℕ) (h : irNecEncode f = .ok n) (hd : List.Forall₂ Near d n) :
    irNecDecode d = some f := by
  obtain ⟨hc,hn,rfl⟩ := nec_encoded f hs n h
  obtain ⟨d0,_,hd0,htail,rfl⟩ := List.forall₂_cons_right_iff.mp hd
  obtain ⟨d1,rest,hd1,hrest,rfl⟩ := List.forall₂_cons_right_iff.mp htail
  have htake := List.forall₂_take_append _ _ _ hrest
  have hdrop := List.forall₂_drop_append _ _ _ hrest
  rw [pulses_length] at htake hdrop
  obtain ⟨last,_,hlast,hnil,hl⟩ := List.forall₂_cons_right_iff.mp hdrop
  cases hnil
  have hlen : rest.length = 65 := by
    rw [hrest.length_eq, List.length_append, pulses_length]
    rfl
  have hget : rest.getD 64 0 = last := by
    have := congrArg (fun l => l.getD 0 0) hl
    simpa [List.getD_eq_getElem?_getD] using this
  have hword := irPulses_jittered necBitMark necOneSpace necZeroSpace (irNecWord f) (by decide)
    (by decide) (by decide) (fun d hd => far_match d _ (by
      unfold Near necZeroSpace at hd
      unfold necOneSpace
      omega)) 32 0 _ htake
  rw [Nat.pow_zero, Nat.mod_one] at hword
  unfold irNecDecode
  dsimp only
  rw [if_neg (by simp [hlen, necRepeatLen]), if_neg]
  · show (irPulses _ _ _ 0 0 (rest.take 64)).bind irNecFrame = some f
    rw [hword]
    exact irNecFrame_word f hs hp hc hn
  · have h0 := near_match d0 _ (by decide) hd0
    have h1 := near_match d1 _ (by decide) hd1
    have h2 := near_match last _ (by decide) hlast
    simp only [List.getD_cons_zero, List.getD_cons_succ, necFullLen, List.length_cons, hlen]
    rw [hget, h0, h1, h2]
    decide

def Sony (p : IrProtocol) : Prop := p = .sirc12 ∨ p = .sirc15 ∨ p = .sirc20

theorem sircOf_bits {p : IrProtocol} (hp : Sony p) : sircOf (1+2*sircBits p) = some p := by
  rcases hp with rfl | rfl | rfl <;> rfl

theorem sirc_encoded (f : IrFrame) (n : List ℕ) (h : irSircEncode f = .ok n) :
    f.command ≤ 0x7F ∧ f.address < 2^(sircBits f.protocol-7) ∧
      n = sircStartMark::
        pulses sircSpace sircOneMark sircZeroMark (f.command ||| f.address <<< 7) 0
          (sircBits f.protocol) := by
  unfold irSircEncode at h
  dsimp only at h
  split at h
  · cases h
  rename_i hfit
  simp only [Bool.or_eq_true, decide_eq_true_eq, not_or, Nat.not_lt] at hfit
  have hpow := Nat.two_pow_pos (sircBits f.protocol-7)
  rw [Nat.shiftLeft_eq, Nat.one_mul] at hfit
  have hbits : sircBits f.protocol ≤ 20 := by
    unfold sircBits
    split <;> decide
  have hpush : irPush [] sircStartMark = [sircStartMark] := rfl
  have hword := push_fits (pulses sircSpace sircOneMark sircZeroMark (f.command ||| f.address <<< 7) 0
    (sircBits f.protocol)) [sircStartMark]
    (by rw [pulses_length, List.length_singleton]; unfold irMaxDurations; omega)
    (by
      intro u hu
      rcases mem_pulses _ _ _ _ _ _ _ hu with rfl | rfl | rfl <;> decide)
  rw [hpush, pushBits_fold, hword] at h
  cases h
  exact ⟨hfit.1,by omega,rfl⟩

theorem sirc_decoded (f : IrFrame) (hs : Sent f) (hp : Sony f.protocol) (n d : List ℕ)
    (h : irSircEncode f = .ok n) (hd : List.Forall₂ Near d n) : irSircDecode d = some f := by
  obtain ⟨hc,ha,rfl⟩ := sirc_encoded f n h
  have hlen : d.length = 1+2*sircBits f.protocol := by
    rw [hd.length_eq, List.length_cons, pulses_length, Nat.add_comm]
  obtain ⟨d0,rest,hd0,hrest,rfl⟩ := List.forall₂_cons_right_iff.mp hd
  have hbits := irPulses_jittered sircSpace sircOneMark sircZeroMark
    (f.command ||| f.address <<< 7) (by decide) (by decide) (by decide)
    (fun d hd => far_match d _ (by
      unfold Near sircZeroMark at hd
      unfold sircOneMark
      omega)) (sircBits f.protocol) 0 rest hrest
  rw [Nat.pow_zero, Nat.mod_one, Nat.zero_add, Nat.shiftLeft_eq, Nat.or_comm,
    or_add _ _ 7 (by omega) (by omega)] at hbits
  have hword : (f.address*2^7+f.command) % 2^sircBits f.protocol = f.address*2^7+f.command := by
    apply Nat.mod_eq_of_lt
    rcases hp with hp | hp | hp <;> rw [hp] at ha ⊢ <;> simp only [sircBits] at ha ⊢ <;> omega
  rw [hword] at hbits
  have ht := hs.toggle (by rcases hp with hp | hp | hp <;> rw [hp] <;> decide)
    (by rcases hp with hp | hp | hp <;> rw [hp] <;> decide)
  have hr := hs.once
  have hlead := near_match d0 _ (by decide) hd0
  unfold irSircDecode
  rw [hlen, sircOf_bits hp]
  simp only [Option.bind_eq_bind, Option.bind_some, List.getD_cons_zero, List.tail_cons, hlead, hbits,
    Bool.not_true, Bool.false_eq_true, if_false, Nat.shiftRight_eq_div_pow]
  obtain ⟨p,a,c,r,g⟩ := f
  dsimp only at *
  subst hr ht
  have hmask : (a*2^7+c) &&& 0x7F = c := by
    rw [show 0x7F = 2^7-1 from rfl, Nat.and_two_pow_sub_one_eq_mod]
    omega
  rw [hmask, show (a*2^7+c)/2^7 = a by omega]

theorem sirc_first {t : List ℕ} {f : IrFrame} (h : irSircDecode t = some f) :
    irMatch (t.getD 0 0) sircStartMark = true ∧ irMatch (t.getD 1 0) sircSpace = true := by
  unfold irSircDecode at h
  cases hp : sircOf t.length with
  | none =>
    rw [hp] at h
    cases h
  | some p =>
    rw [hp] at h
    simp only [Option.bind_eq_bind, Option.bind_some] at h
    split at h
    · cases h
    rename_i hlead
    refine ⟨by simpa using hlead,?_⟩
    match t with
    | [] => cases hp
    | [_] => cases hp
    | [_,_] => cases hp
    | _::a::b::rest =>
      rw [List.getD_cons_succ, List.getD_cons_zero]
      by_contra hspace
      rw [List.tail_cons, irPulses, if_pos (by simpa using hspace)] at h
      cases h

theorem sirc_far {t : List ℕ} (h : 750 < t.getD 1 0) : irSircDecode t = none := by
  rw [Option.eq_none_iff_forall_ne_some]
  intro f hf
  have hm := (match_iff _ _).mp (sirc_first hf).2
  unfold sircSpace at hm
  omega

end StarkOne.IrPulses
