import Mathlib.Data.List.TakeWhile
import Mathlib.Data.Nat.Digits.Defs
import StarkOne.IrBiphase
import StarkOne.IrRaw

/-!
# Texts of signals

Words of a line are free of spaces, comment marks and line ends. A formatted
signal is a list of lines of words, which the parser takes apart again.
-/

set_option autoImplicit false

namespace StarkOne.IrText
open StarkOne.IrCodec StarkOne.IrRaw
open StarkOne.StoragePath (CStr)

def plain (c : Char) : Bool := !isSpace c && c ≠ '#' && c ≠ '\n'

def Word (w : CStr) : Prop := w ≠ [] ∧ ∀ c ∈ w, plain c = true

def isWord (w : CStr) : Bool := !w.isEmpty && w.all plain

theorem word_of {w : CStr} (h : isWord w = true) : Word w := by
  simp only [isWord, Bool.and_eq_true, Bool.not_eq_true', List.isEmpty_eq_false_iff,
    List.all_eq_true] at h
  exact h

section digits

theorem toDigits_mem {b : ℕ} (hb : 1 < b) (n : ℕ) :
    ∀ c ∈ Nat.toDigits b n, ∃ d < b, c = Nat.digitChar d := by
  induction n using Nat.strongRecOn with
  | ind n ih =>
    intro c hc
    rw [Nat.toDigits_eq_if hb] at hc
    split at hc
    · rename_i hn
      exact ⟨n,hn,List.mem_singleton.mp hc⟩
    · rename_i hn
      rcases List.mem_append.mp hc with hc | hc
      · exact ih (n/b) (Nat.div_lt_self (by omega) hb) c hc
      · exact ⟨n % b,Nat.mod_lt n (by omega),List.mem_singleton.mp hc⟩

theorem digitChar_plain : ∀ d : Fin 16, plain (Nat.digitChar d) = true ∧
    plain (Nat.digitChar d).toUpper = true := by
  decide

theorem digitOf_digitChar : ∀ d : Fin 10, digitOf 10 (Nat.digitChar d) = some d.val ∧
    Nat.digitChar d ≠ 'x' ∧ Nat.digitChar d ≠ 'X' := by
  decide

theorem decimal_word (n : ℕ) : Word (decimal n) := by
  refine ⟨Nat.toDigits_ne_nil,fun c hc => ?_⟩
  obtain ⟨d,hd,rfl⟩ := toDigits_mem (by decide) n c hc
  exact (digitChar_plain ⟨d,by omega⟩).1

theorem decimal_length {n : ℕ} (h : n < 10^5) : (decimal n).length ≤ 5 :=
  (Nat.length_toDigits_le_iff (by decide) (by decide)).mpr h

theorem hexadecimal_plain (width n : ℕ) : ∀ c ∈ hexadecimal width n, plain c = true := by
  intro c hc
  rcases List.mem_append.mp hc with hc | hc
  · rw [List.eq_of_mem_replicate hc]
    decide
  · obtain ⟨c',hc',rfl⟩ := List.mem_map.mp hc
    obtain ⟨d,hd,rfl⟩ := toDigits_mem (by decide) n c' hc'
    exact (digitChar_plain ⟨d,hd⟩).2

theorem hexadecimal_length {n : ℕ} (h : n < 65536) : (hexadecimal 4 n).length = 4 := by
  have hlen : (Nat.toDigits 16 n).length ≤ 4 :=
    (Nat.length_toDigits_le_iff (by decide) (by decide)).mpr h
  simp only [hexadecimal, padded, List.length_append, List.length_replicate, List.length_map]
  omega

theorem numberFrom_append (base limit : ℕ) (c : Char) (l : CStr) : ∀ v,
    numberFrom base limit v (l++[c]) = (numberFrom base limit v l).bind fun w =>
      (digitOf base c).bind fun digit =>
        if limit < w*base+digit then none else some (w*base+digit) := by
  induction l with
  | nil => exact fun v => rfl
  | cons a l ih =>
    intro v
    show (digitOf base a).bind _ = ((digitOf base a).bind _).bind _
    cases digitOf base a with
    | none => rfl
    | some digit =>
      dsimp only [Option.bind_some]
      split
      · rfl
      · exact ih _

theorem numberFrom_decimal {limit : ℕ} (n : ℕ) (h : n ≤ limit) :
    numberFrom 10 limit 0 (decimal n) = some n := by
  unfold decimal
  induction n using Nat.strongRecOn with
  | ind n ih =>
    rw [Nat.toDigits_eq_if (by decide)]
    split
    · rename_i hn
      have hd := (digitOf_digitChar ⟨n,hn⟩).1
      show (digitOf 10 (Nat.digitChar n)).bind _ = _
      rw [hd]
      show (if limit < 0*10+n then none else some (0*10+n)) = _
      rw [Nat.zero_mul, Nat.zero_add, if_neg (Nat.not_lt.mpr h)]
    · rename_i hn
      have hd := (digitOf_digitChar ⟨n % 10,Nat.mod_lt n (by decide)⟩).1
      rw [numberFrom_append, ih (n/10) (by omega) (by omega)]
      dsimp only [Option.bind_some]
      rw [hd]
      dsimp only [Option.bind_some]
      rw [Nat.div_add_mod', if_neg (Nat.not_lt.mpr h)]

theorem number_decimal {limit n : ℕ} (h : n ≤ limit) : number limit (decimal n) = some n := by
  have hfrom := numberFrom_decimal n h
  unfold number
  split
  · rename_i x c rest heq
    have hx : x ∈ decimal n := by
      rw [heq]
      simp
    obtain ⟨d,hd,hxd⟩ := toDigits_mem (by decide) n x hx
    have hdigit := (digitOf_digitChar ⟨d,hd⟩).2
    rw [if_neg, ← heq]
    · exact hfrom
    · rw [hxd]
      simp [hdigit.1, hdigit.2]
  · exact hfrom

end digits

section words

def lineOf (key : CStr) (words : List CStr) : CStr := key++words.flatMap (' '::·)

theorem Word.space {w : CStr} (h : Word w) : ∀ c ∈ w, isSpace c = false := by
  intro c hc
  have := h.2 c hc
  simp only [plain, Bool.and_eq_true, Bool.not_eq_true'] at this
  exact this.1.1

theorem tokens_lineOf (words : List CStr) : ∀ key, Word key → (∀ w ∈ words, Word w) →
    tokens (lineOf key words) = key::words := by
  induction words with
  | nil =>
    intro key hk _
    rw [lineOf, List.flatMap_nil, List.append_nil, tokens, List.splitOnP_eq_singleton hk.space]
    simp [hk.1]
  | cons w words ih =>
    intro key hk hw
    have hrest := ih w (hw w List.mem_cons_self) fun v hv => hw v (List.mem_cons_of_mem _ hv)
    have hline : lineOf key (w::words) = key++ ' '::lineOf w words := by
      simp [lineOf]
    rw [tokens, hline, List.splitOnP_append_cons_of_forall_mem hk.space ' ' rfl,
      List.filter_cons_of_pos (by simpa using hk.1)]
    exact congrArg (key::·) hrest

theorem lineOf_mem {key : CStr} {words : List CStr} (hk : Word key) (hw : ∀ w ∈ words, Word w) :
    ∀ c ∈ lineOf key words, c ≠ '#' ∧ c ≠ '\n' := by
  have hplain : ∀ c, plain c = true → c ≠ '#' ∧ c ≠ '\n' := by
    intro c hc
    simp only [plain, Bool.and_eq_true, decide_eq_true_eq] at hc
    exact ⟨hc.1.2,hc.2⟩
  intro c hc
  rcases List.mem_append.mp hc with hc | hc
  · exact hplain c (hk.2 c hc)
  · obtain ⟨w,hwm,hc⟩ := List.mem_flatMap.mp hc
    rcases List.mem_cons.mp hc with rfl | hc
    · decide
    · exact hplain c ((hw w hwm).2 c hc)

theorem words_lineOf {key : CStr} {words : List CStr} (hk : Word key) (hw : ∀ w ∈ words, Word w) :
    tokens ((lineOf key words).takeWhile (· ≠ '#')) = key::words := by
  rw [List.takeWhile_eq_self_iff.mpr fun c hc => by simpa using (lineOf_mem hk hw c hc).1]
  exact tokens_lineOf words key hk hw

def textOf (lines : List CStr) : CStr := lines.flatMap (·++['\n'])

theorem splitOn_textOf (lines : List CStr) (h : ∀ l ∈ lines, '\n' ∉ l) :
    (textOf lines).splitOn '\n' = lines++[[]] := by
  induction lines with
  | nil => rfl
  | cons l lines ih =>
    have hl : ∀ c ∈ l, (c == '\n') = false := by
      intro c hc
      rw [beq_eq_false_iff_ne]
      rintro rfl
      exact h l List.mem_cons_self hc
    have htext : textOf (l::lines) = l++ '\n'::textOf lines := by
      simp [textOf]
    rw [htext, List.splitOn, List.splitOnP_append_cons_of_forall_mem hl '\n' rfl]
    exact congrArg (l::·) (ih fun m hm => h m (List.mem_cons_of_mem _ hm))

end words

section accepted

def Durations (us : List ℕ) : Prop :=
  us.length ≤ irMaxDurations ∧ ∀ d ∈ us, 1 ≤ d ∧ d ≤ uint16Max

structure InRange (s : IrSignal) : Prop where
  some : s.timings ≠ []
  durations : Durations s.timings
  low : carrierMin ≤ s.carrierHz
  high : s.carrierHz ≤ carrierMax
  frame : s.frame = irDecode s.timings

theorem numberFrom_le {base limit : ℕ} (tok : CStr) : ∀ v n, v ≤ limit →
    numberFrom base limit v tok = some n → n ≤ limit := by
  induction tok with
  | nil =>
    intro v n hv h
    exact Option.some.inj h ▸ hv
  | cons c rest ih =>
    intro v n hv h
    obtain ⟨digit,-,h⟩ := Option.bind_eq_some_iff.mp h
    split at h
    · cases h
    · rename_i hle
      exact ih _ n (Nat.not_lt.mp hle) h

theorem number_le {limit n : ℕ} {tok : CStr} (h : number limit tok = some n) : n ≤ limit := by
  unfold number at h
  split at h
  · split at h
    · exact numberFrom_le _ 0 n (Nat.zero_le _) h
    · exact numberFrom_le _ 0 n (Nat.zero_le _) h
  · exact numberFrom_le _ 0 n (Nat.zero_le _) h

theorem takeTimings_ok (toks : List CStr) : ∀ us us', Durations us →
    takeTimings us toks = (.ok,us') → Durations us' := by
  induction toks with
  | nil =>
    intro us us' hus h
    cases h
    exact hus
  | cons tok toks ih =>
    intro us us' hus h
    rw [takeTimings] at h
    split at h
    · cases h
    rename_i hlen
    split at h
    · cases h
    · cases h
    · rename_i d hne hd
      refine ih _ us' ⟨?_,?_⟩ h
      · rw [List.length_append, List.length_singleton]
        have := hus.1
        omega
      · intro e he
        rcases List.mem_append.mp he with he | he
        · exact hus.2 e he
        · rw [List.mem_singleton.mp he]
          have hpos : d ≠ 0 := fun h0 => hne h0
          exact ⟨Nat.one_le_iff_ne_zero.mpr hpos,number_le hd⟩

structure Sound (s : Parsing) : Prop where
  durations : Durations s.out.timings
  some : s.haveTimings = true → s.out.timings ≠ []
  carrier : s.haveCarrier = true → carrierMin ≤ s.out.carrierHz ∧ s.out.carrierHz ≤ carrierMax

theorem parseLine_sound {s t : Parsing} {line : CStr} (hs : Sound s)
    (h : parseLine s line = (.ok,t)) : Sound t := by
  unfold parseLine at h
  split at h
  · cases h
    exact hs
  split at h
  · split at h
    · cases h
      exact ⟨hs.durations,hs.some,hs.carrier⟩
    · cases h
  split at h
  · rename_i values _ _ _
    generalize hus : takeTimings [] values = r at h
    obtain ⟨err,us⟩ := r
    dsimp only at h
    split at h
    · rename_i hne
      cases h
      exact absurd rfl hne
    · rename_i herr
      cases h
      obtain rfl := not_not.mp herr
      have hok := takeTimings_ok values [] us ⟨Nat.zero_le _,fun d hd => by cases hd⟩ hus
      refine ⟨hok,fun hne => ?_,hs.carrier⟩
      rintro rfl
      cases hne
  split at h
  · split at h
    · cases h
    · rename_i hz hhz
      split at h
      · cases h
      · rename_i hlow
        cases h
        obtain ⟨tok,-,htok⟩ := Option.bind_eq_some_iff.mp hhz
        exact ⟨hs.durations,hs.some,fun _ => ⟨Nat.not_lt.mp hlow,number_le htok⟩⟩
  · cases h
    exact hs

theorem parseLines_sound (lines : List CStr) : ∀ s t, Sound s →
    parseLines s lines = (.ok,t) → Sound t := by
  induction lines with
  | nil =>
    intro s t hs h
    cases h
    exact hs
  | cons line lines ih =>
    intro s t hs h
    rw [parseLines] at h
    split at h
    · cases h
    generalize hu : parseLine s line = r at h
    obtain ⟨err,u⟩ := r
    dsimp only at h
    split at h
    · rename_i hne
      cases h
      exact absurd rfl hne
    · rename_i herr
      obtain rfl := not_not.mp herr
      exact ih u t (parseLine_sound hs hu) h

theorem defaultCarrier_range (p : IrProtocol) :
    carrierMin ≤ defaultCarrier p ∧ defaultCarrier p ≤ carrierMax := by
  cases p <;> decide

theorem irRawParse_inRange {text : CStr} {s : IrSignal} (h : irRawParse text = (.ok,s)) :
    InRange s := by
  unfold irRawParse at h
  generalize hp : parseLines ⟨false,false,false,zeroSignal⟩ (text.splitOn '\n') = r at h
  obtain ⟨err,p⟩ := r
  dsimp only at h
  split at h
  · rename_i hne
    cases h
    exact absurd rfl hne
  rename_i herr
  obtain rfl := not_not.mp herr
  have hs := parseLines_sound _ ⟨false,false,false,zeroSignal⟩ p
    ⟨⟨Nat.zero_le _,fun d hd => by cases hd⟩,fun h => (by cases h),fun h => by cases h⟩ hp
  split at h
  · cases h
  rename_i hflags
  simp only [Bool.or_eq_true, Bool.not_eq_true', not_or, Bool.not_eq_false] at hflags
  cases h
  have hcarrier : carrierMin ≤ (if p.haveCarrier then p.out.carrierHz
        else defaultCarrier (irDecode p.out.timings).protocol) ∧
      (if p.haveCarrier then p.out.carrierHz
        else defaultCarrier (irDecode p.out.timings).protocol) ≤ carrierMax := by
    split
    · rename_i hc
      exact hs.carrier hc
    · exact defaultCarrier_range _
  exact ⟨hs.some hflags.2,hs.durations,hcarrier.1,hcarrier.2,rfl⟩

end accepted

section decoded
open StarkOne.IrBiphase

def Fits (f : IrFrame) : Prop := f.address < 2^16 ∧ f.command < 2^16

theorem irPulses_lt (fixed one nought : ℕ) : ∀ i word l w, word < 2^i →
    irPulses fixed one nought i word l = some w → w < 2^(i+l.length/2)
  | i, word, a::b::rest, w, hword, h => by
    have hlen : i+(a::b::rest).length/2 = i+1+rest.length/2 := by
      simp only [List.length_cons]
      omega
    have hone : 1 <<< i < 2^(i+1) := by
      rw [Nat.one_shiftLeft]
      exact Nat.pow_lt_pow_succ (by decide)
    have hnought : word < 2^(i+1) := hword.trans (Nat.pow_lt_pow_succ (by decide))
    rw [hlen]
    rw [irPulses] at h
    split at h
    · cases h
    split at h
    · exact irPulses_lt fixed one nought (i+1) _ rest w (Nat.or_lt_two_pow hnought hone) h
    split at h
    · exact irPulses_lt fixed one nought (i+1) word rest w hnought h
    · cases h
  | i, word, [], w, hword, h => by
    cases h
    exact hword
  | i, word, [a], w, hword, h => by
    cases h
    exact hword.trans_le (Nat.pow_le_pow_right (by decide) (Nat.le_add_right _ _))

theorem mask_fits (w m : ℕ) (hm : m < 2^16) : w &&& m < 2^16 := Nat.and_lt_two_pow w hm

theorem irNec_fits {t : List ℕ} {f : IrFrame} (h : irNecDecode t = some f) : Fits f := by
  unfold irNecDecode at h
  dsimp only at h
  split at h
  · cases h
    exact ⟨by decide,by decide⟩
  split at h
  · cases h
  · obtain ⟨word,-,hf⟩ := Option.bind_eq_some_iff.mp h
    unfold irNecFrame at hf
    dsimp only at hf
    split at hf
    · cases hf
    split at hf
    · cases hf
      exact ⟨mask_fits _ _ (by decide),mask_fits _ _ (by decide)⟩
    · cases hf
      refine ⟨Nat.or_lt_two_pow (mask_fits _ _ (by decide)) ?_,mask_fits _ _ (by decide)⟩
      have hn : word >>> 8 &&& 0xFF < 2^8 := Nat.and_lt_two_pow _ (by decide)
      rw [Nat.shiftLeft_eq]
      omega

theorem irRc6_fits {t : List ℕ} {f : IrFrame} (h : irRc6Decode t = some f) : Fits f := by
  have hparse : ∀ unit, rc6Parse t unit = some f → Fits f := by
    intro unit hu
    have hf := ((rc6Parse_some t unit f).mp hu).1
    have ha := hf.address
    have hc := hf.command
    exact ⟨by omega,by omega⟩
  unfold irRc6Decode at h
  split at h
  · cases h
  dsimp only at h
  rcases (Option.orElse_eq_some _ _ _).mp h with h | ⟨-,h⟩
  · split at h
    · exact hparse _ h
    · cases h
  · generalize (if t.getD 0 0/6 > t.getD 1 0/2 then _ else _) = diff at h
    split at h
    · cases h
    · exact hparse _ h

theorem sircOf_length {n : ℕ} {p : IrProtocol} (h : sircOf n = some p) : n ≤ 41 := by
  unfold sircOf at h
  split_ifs at h <;> omega

theorem irSirc_fits {t : List ℕ} {f : IrFrame} (h : irSircDecode t = some f) : Fits f := by
  obtain ⟨p,hp,h⟩ := Option.bind_eq_some_iff.mp h
  split at h
  · cases h
  obtain ⟨word,hw,h⟩ := Option.bind_eq_some_iff.mp h
  cases h
  have hlt := irPulses_lt _ _ _ 0 0 _ word (by decide) hw
  have hlen : 0+t.tail.length/2 ≤ 20 := by
    have := sircOf_length hp
    rw [List.length_tail]
    omega
  have hword : word < 2^20 := hlt.trans_le (Nat.pow_le_pow_right (by decide) hlen)
  refine ⟨?_,mask_fits _ _ (by decide)⟩
  show word >>> 7 < 2^16
  rw [Nat.shiftRight_eq_div_pow]
  omega

theorem irRc5_fits {t : List ℕ} {f : IrFrame} (h : irRc5Decode t = some f) : Fits f := by
  unfold irRc5Decode at h
  split at h
  · cases h
  obtain ⟨seen,-,h⟩ := Option.bind_eq_some_iff.mp h
  dsimp only at h
  generalize (if (false::seen).length = 2*rc5Bits-1 then _ else _) = halves at h
  split at h
  · cases h
  obtain ⟨word,-,rfl⟩ := Option.map_eq_some_iff.mp h
  refine ⟨mask_fits _ _ (by decide),Nat.or_lt_two_pow (mask_fits _ _ (by decide)) ?_⟩
  split <;> decide

theorem irDecode_fits (t : List ℕ) : Fits (irDecode t) := by
  unfold irDecode
  cases h : irNecDecode t <|> irRc6Decode t <|> irSircDecode t <|> irRc5Decode t with
  | none => exact ⟨by decide,by decide⟩
  | some f =>
    rcases (Option.orElse_eq_some _ _ _).mp h with h | ⟨-,h⟩
    · exact irNec_fits h
    rcases (Option.orElse_eq_some _ _ _).mp h with h | ⟨-,h⟩
    · exact irRc6_fits h
    rcases (Option.orElse_eq_some _ _ _).mp h with h | ⟨-,h⟩
    · exact irSirc_fits h
    · exact irRc5_fits h

end decoded

section formatted

theorem irRawTimings_some (len : ℕ) (us : List ℕ) : ∀ out,
    out.length+(us.flatMap (' '::decimal ·)).length < len →
    irRawTimings len out us = some (out++us.flatMap (' '::decimal ·)) := by
  induction us with
  | nil =>
    intro out _
    rw [irRawTimings, List.flatMap_nil, List.append_nil]
  | cons d us ih =>
    intro out h
    rw [List.flatMap_cons, List.length_append] at h
    rw [irRawTimings, if_neg (by omega), ih, List.flatMap_cons, List.append_assoc]
    rw [List.length_append]
    omega

def notes (f : IrFrame) : List (CStr × List CStr) :=
  ("protocol".toList,[irProtocolName f.protocol])::
  ("address".toList,["0x".toList++hexadecimal 4 f.address])::
  ("command".toList,["0x".toList++hexadecimal 4 f.command])::
  ((if f.toggle ≠ 0 then [("toggle".toList,["1".toList])] else [])++
  (if f.repeated then [("repeat".toList,["1".toList])] else []))

def header : CStr × List CStr := ("stark-ir".toList,["1".toList])

def carrier (hz : ℕ) : CStr × List CStr := ("carrier".toList,[decimal hz])

def timings (us : List ℕ) : CStr × List CStr := ("timings".toList,us.map decimal)

def fileLines (s : IrSignal) : List (CStr × List CStr) :=
  header::(notes s.frame++[carrier s.carrierHz,timings s.timings])

def fileText (s : IrSignal) : CStr := textOf ((fileLines s).map fun l => lineOf l.1 l.2)

theorem fileText_eq (s : IrSignal) :
    fileText s = irRawHead s++s.timings.flatMap (' '::decimal ·)++['\n'] := by
  have htop : "stark-ir 1\nprotocol ".toList =
      "stark-ir".toList++ ' '::("1".toList++ '\n'::("protocol".toList++[' '])) := by simp
  have haddress : "\naddress 0x".toList = '\n'::("address".toList++ ' '::"0x".toList) := by simp
  have hcommand : "\ncommand 0x".toList = '\n'::("command".toList++ ' '::"0x".toList) := by simp
  have htoggle : "toggle 1\n".toList = "toggle".toList++ ' '::("1".toList++['\n']) := by simp
  have hrepeat : "repeat 1\n".toList = "repeat".toList++ ' '::("1".toList++['\n']) := by simp
  have hcarrier : "carrier ".toList = "carrier".toList++[' '] := by simp
  have htimings : "\ntimings".toList = '\n'::"timings".toList := by simp
  have hend : "\n".toList = ['\n'] := by simp
  unfold fileText fileLines notes irRawHead header carrier timings
  simp only [htop, haddress, hcommand, htoggle, hrepeat, hcarrier, htimings, hend]
  split_ifs <;> simp only [textOf, lineOf, List.map_cons, List.map_nil,
    List.flatMap_cons, List.flatMap_nil, List.flatMap_map,
    List.append_assoc, List.cons_append, List.nil_append, List.append_nil]

theorem timings_length (us : List ℕ) (h : ∀ d ∈ us, 1 ≤ d ∧ d ≤ uint16Max) :
    (us.flatMap (' '::decimal ·)).length ≤ 6*us.length := by
  induction us with
  | nil => exact Nat.le_refl 0
  | cons d us ih =>
    have hd : (decimal d).length ≤ 5 := by
      apply decimal_length
      exact (h d List.mem_cons_self).2.trans_lt (by decide)
    have hus := ih fun e he => h e (List.mem_cons_of_mem _ he)
    rw [List.flatMap_cons, List.length_append, List.length_cons, List.length_cons]
    omega

theorem name_length (p : IrProtocol) : (irProtocolName p).length ≤ 6 := by
  cases p <;> decide

theorem mark_length (p : Prop) [Decidable p] (mark : CStr) (h : mark.length = 9) :
    (if p then mark else []).length ≤ 9 := by
  split
  · exact h.le
  · exact Nat.zero_le 9

theorem head_length {s : IrSignal} (h : InRange s) : (irRawHead s).length ≤ 96 := by
  have hfits := irDecode_fits s.timings
  rw [← h.frame] at hfits
  have hn := name_length s.frame.protocol
  have hz := decimal_length (h.high.trans_lt (by decide))
  obtain ⟨toggle,again,htoggle,hagain,hsum⟩ : ∃ toggle again, toggle ≤ 9 ∧ again ≤ 9 ∧
      (irRawHead s).length = 20+(irProtocolName s.frame.protocol).length+11+4+11+4+1+
        toggle+again+8+(decimal s.carrierHz).length+8 := by
    have htop : "stark-ir 1\nprotocol ".toList.length = 20 := by simp
    have haddress : "\naddress 0x".toList.length = 11 := by simp
    have hcommand : "\ncommand 0x".toList.length = 11 := by simp
    have hend : "\n".toList.length = 1 := by simp
    have hcarrier : "carrier ".toList.length = 8 := by simp
    have htimings : "\ntimings".toList.length = 8 := by simp
    refine ⟨_,_,mark_length (s.frame.toggle ≠ 0) "toggle 1\n".toList (by simp),
      mark_length (s.frame.repeated = true) "repeat 1\n".toList (by simp),?_⟩
    unfold irRawHead
    simp only [List.length_append, hexadecimal_length hfits.1, hexadecimal_length hfits.2, htop,
      haddress, hcommand, hend, hcarrier, htimings]
  omega

theorem fileText_length {s : IrSignal} (h : InRange s) : (fileText s).length ≤ 1633 := by
  have hhead := head_length h
  have htimings := timings_length s.timings h.durations.2
  have hn := h.durations.1
  rw [irMaxDurations] at hn
  rw [fileText_eq, List.length_append, List.length_append, List.length_singleton]
  omega

theorem irRawFormat_eq {s : IrSignal} (h : InRange s) : irRawFormat s irRawTextMax = fileText s := by
  have hlen := fileText_length h
  have heq := fileText_eq s
  rw [heq, List.length_append, List.length_append, List.length_singleton] at hlen
  rw [irRawFormat, if_neg, if_neg, irRawTimings_some]
  · dsimp only
    rw [if_neg, heq]
    rw [List.length_append, irRawTextMax]
    omega
  · rw [irRawTextMax]
    omega
  · rw [irRawTextMax]
    omega
  · have hn := Nat.not_lt.mpr h.durations.1
    simpa [irRawTextMax] using hn

end formatted

section reading

theorem takeTimings_decimal (us : List ℕ) : ∀ read, Durations (read++us) →
    takeTimings read (us.map decimal) = (.ok,read++us) := by
  induction us with
  | nil =>
    intro read _
    rw [List.map_nil, takeTimings, List.append_nil]
  | cons d us ih =>
    intro read h
    have hlen := h.1
    have hd := h.2 d (List.mem_append_right _ List.mem_cons_self)
    rw [List.length_append, List.length_cons] at hlen
    rw [List.append_cons] at h
    rw [List.map_cons, takeTimings, if_neg (by omega), number_decimal hd.2]
    obtain ⟨k,rfl⟩ := Nat.exists_eq_add_of_le' hd.1
    exact (ih (read++[k+1]) h).trans (by rw [← List.append_cons])

theorem parseLines_cons {s t : Parsing} {line : CStr} (rest : List CStr)
    (hlen : line.length ≤ lineMaxChars) (h : parseLine s line = (.ok,t)) :
    parseLines s (line::rest) = parseLines t rest := by
  rw [parseLines, if_neg (Nat.not_lt.mpr hlen), h]
  rfl

structure Written (l : CStr × List CStr) : Prop where
  key : Word l.1
  words : ∀ w ∈ l.2, Word w

structure Note (l : CStr × List CStr) : Prop extends Written l where
  other : l.1 ≠ "timings".toList ∧ l.1 ≠ "carrier".toList

theorem parseLine_note {s : Parsing} {l : CStr × List CStr} (hs : s.header = true)
    (h : Note l) : parseLine s (lineOf l.1 l.2) = (.ok,s) := by
  rw [parseLine, words_lineOf h.key h.words]
  dsimp only
  rw [hs, if_neg (by decide), if_neg h.other.1, if_neg h.other.2]

theorem parseLines_notes {s : Parsing} (hs : s.header = true) (rest : List CStr)
    (ls : List (CStr × List CStr))
    (h : ∀ l ∈ ls, Note l ∧ (lineOf l.1 l.2).length ≤ lineMaxChars) :
    parseLines s (ls.map (fun l => lineOf l.1 l.2)++rest) = parseLines s rest := by
  induction ls with
  | nil => rfl
  | cons l ls ih =>
    obtain ⟨hl,hlen⟩ := h l List.mem_cons_self
    rw [List.map_cons, List.cons_append, parseLines_cons _ hlen (parseLine_note hs hl)]
    exact ih fun m hm => h m (List.mem_cons_of_mem _ hm)

theorem hexadecimal_word (n : ℕ) : Word ("0x".toList++hexadecimal 4 n) := by
  constructor
  · simp
  · intro c hc
    rcases List.mem_append.mp hc with hc | hc
    · have hx : Word "0x".toList := word_of (by decide)
      exact hx.2 c hc
    · exact hexadecimal_plain 4 n c hc

theorem name_word (p : IrProtocol) : Word (irProtocolName p) := by
  apply word_of
  cases p <;> decide

theorem notes_note (f : IrFrame) : ∀ l ∈ notes f, Note l := by
  have hsingle : ∀ key w : CStr, Word key → Word w →
      key ≠ "timings".toList ∧ key ≠ "carrier".toList → Note (key,[w]) := by
    intro key w hk hw hne
    exact ⟨⟨hk,fun v hv => List.mem_singleton.mp hv ▸ hw⟩,hne⟩
  intro l hl
  rcases List.mem_cons.mp hl with rfl | hl
  · exact hsingle _ _ (word_of (by decide)) (name_word _) (by decide)
  rcases List.mem_cons.mp hl with rfl | hl
  · exact hsingle _ _ (word_of (by decide)) (hexadecimal_word _) (by decide)
  rcases List.mem_cons.mp hl with rfl | hl
  · exact hsingle _ _ (word_of (by decide)) (hexadecimal_word _) (by decide)
  rcases List.mem_append.mp hl with hl | hl
  · split at hl
    · rw [List.mem_singleton.mp hl]
      exact hsingle _ _ (word_of (by decide)) (word_of (by decide)) (by decide)
    · cases hl
  · split at hl
    · rw [List.mem_singleton.mp hl]
      exact hsingle _ _ (word_of (by decide)) (word_of (by decide)) (by decide)
    · cases hl

theorem length_textOf {l : CStr} {lines : List CStr} (h : l ∈ lines) :
    l.length < (textOf lines).length := by
  induction lines with
  | nil => cases h
  | cons m lines ih =>
    rw [textOf, List.flatMap_cons, List.length_append, List.length_append, List.length_singleton]
    rcases List.mem_cons.mp h with rfl | h
    · omega
    · have := ih h
      rw [textOf] at this
      omega

theorem header_written : Written header where
  key := word_of (by decide)
  words w hw := List.mem_singleton.mp hw ▸ word_of (by decide)

theorem carrier_written (hz : ℕ) : Written (carrier hz) := by
  exact ⟨word_of (w := "carrier".toList) (by decide),
    fun w hw => List.mem_singleton.mp hw ▸ decimal_word hz⟩

theorem timings_written (us : List ℕ) : Written (timings us) := by
  constructor
  · exact word_of (w := "timings".toList) (by decide)
  · intro w hw
    obtain ⟨d,-,rfl⟩ := List.mem_map.mp hw
    exact decimal_word d

theorem fileLines_written (s : IrSignal) : ∀ l ∈ fileLines s, Written l := by
  intro l hl
  rcases List.mem_cons.mp hl with rfl | hl
  · exact header_written
  rcases List.mem_append.mp hl with hl | hl
  · exact (notes_note _ l hl).toWritten
  rcases List.mem_cons.mp hl with rfl | hl
  · exact carrier_written _
  · exact List.mem_singleton.mp hl ▸ timings_written _

theorem parseLine_header : parseLine ⟨false,false,false,zeroSignal⟩ (lineOf header.1 header.2) =
    (.ok,⟨true,false,false,zeroSignal⟩) := by
  have hone : ["1".toList].head?.bind (number 0xFFFF) = some 1 :=
    number_decimal (n := 1) (by decide)
  rw [parseLine, words_lineOf header_written.key header_written.words]
  dsimp only [header]
  rw [if_pos (by decide), if_pos]
  rw [hone, decide_eq_true rfl, decide_eq_true rfl]
  rfl

theorem parseLine_carrier {hz : ℕ} (hlow : carrierMin ≤ hz) (hhigh : hz ≤ carrierMax) (s : IrSignal) :
    parseLine ⟨true,false,false,s⟩ (lineOf (carrier hz).1 (carrier hz).2) =
      (.ok,⟨true,false,true,{ s with carrierHz := hz }⟩) := by
  rw [parseLine, words_lineOf (carrier_written hz).key (carrier_written hz).words]
  dsimp only [carrier, List.head?, Option.bind_some]
  rw [if_neg (by decide), if_neg (by decide), if_pos rfl, number_decimal hhigh]
  dsimp only
  rw [if_neg (Nat.not_lt.mpr hlow)]

theorem parseLine_timings {us : List ℕ} (hsome : us ≠ []) (hus : Durations us) (carried : Bool)
    (s : IrSignal) : parseLine ⟨true,false,carried,s⟩ (lineOf (timings us).1 (timings us).2) =
      (.ok,⟨true,true,carried,{ s with timings := us }⟩) := by
  rw [parseLine, words_lineOf (timings_written us).key (timings_written us).words]
  dsimp only [timings]
  rw [if_neg (by decide), if_pos rfl, takeTimings_decimal us [] hus]
  simp [hsome]

theorem splitOn_fileText (s : IrSignal) :
    (fileText s).splitOn '\n' = (fileLines s).map (fun l => lineOf l.1 l.2)++[[]] := by
  apply splitOn_textOf
  intro line hline hend
  obtain ⟨l,hl,rfl⟩ := List.mem_map.mp hline
  have hl := fileLines_written s l hl
  exact (lineOf_mem hl.key hl.words _ hend).2 rfl

theorem parseLines_file {s : IrSignal} (h : InRange s) :
    parseLines ⟨false,false,false,zeroSignal⟩
      ((fileLines s).map (fun l => lineOf l.1 l.2)++[[]]) =
      (.ok,⟨true,true,true,⟨s.timings,s.carrierHz,noFrame⟩⟩) := by
  have hlen : ∀ l ∈ fileLines s, (lineOf l.1 l.2).length ≤ lineMaxChars := by
    intro l hl
    have hlt : (lineOf l.1 l.2).length < (fileText s).length :=
      length_textOf (List.mem_map_of_mem hl)
    exact (hlt.trans_le (fileText_length h)).le.trans (by decide)
  rw [fileLines] at hlen ⊢
  have hnotes : ∀ l ∈ notes s.frame, Note l ∧ (lineOf l.1 l.2).length ≤ lineMaxChars := by
    intro l hl
    exact ⟨notes_note _ l hl,hlen l (List.mem_cons_of_mem _ (List.mem_append_left _ hl))⟩
  rw [List.map_cons, List.map_append, List.cons_append, List.append_assoc,
    parseLines_cons _ (hlen _ (by simp)) parseLine_header, parseLines_notes rfl _ _ hnotes]
  rw [List.map_cons, List.map_cons, List.map_nil, List.cons_append, List.cons_append,
    List.nil_append, parseLines_cons _ (hlen _ (by simp)) (parseLine_carrier h.low h.high _),
    parseLines_cons _ (hlen _ (by simp)) (parseLine_timings h.some h.durations _ _)]
  rfl

theorem irRawParse_fileText {s : IrSignal} (h : InRange s) : irRawParse (fileText s) = (.ok,s) := by
  rw [irRawParse, splitOn_fileText, parseLines_file h]
  dsimp only
  rw [if_neg (by decide), if_neg (by decide), if_pos rfl, ← h.frame]

theorem fileText_some (s : IrSignal) : fileText s ≠ [] := by
  rw [fileText_eq]
  simp

/-- A signal inside the limits is read back from its text as it was. -/
theorem format_parse {s : IrSignal} (h : InRange s) :
    irRawFormat s irRawTextMax ≠ [] ∧ irRawParse (irRawFormat s irRawTextMax) = (.ok,s) := by
  rw [irRawFormat_eq h]
  exact ⟨fileText_some s,irRawParse_fileText h⟩

/-- What is read from any text is inside the limits, and both ways of the format agree. -/
theorem ir_text :
    (∀ text s, irRawParse text = (.ok,s) → InRange s ∧ irRawFormat s irRawTextMax ≠ [] ∧
      irRawParse (irRawFormat s irRawTextMax) = (.ok,s)) ∧
    ∀ s, InRange s → irRawFormat s irRawTextMax ≠ [] ∧
      irRawParse (irRawFormat s irRawTextMax) = (.ok,s) := by
  constructor
  · intro text s h
    exact ⟨irRawParse_inRange h,format_parse (irRawParse_inRange h)⟩
  · intro s h
    exact format_parse h

/-- The signal of two durations, read from a text without a carrier. -/
theorem ir_text_short :
    irRawParse "stark-ir 1\ntimings 9000 4500\n".toList = (.ok,⟨[9000,4500],38000,noFrame⟩) ∧
    irRawParse (irRawFormat ⟨[9000,4500],38000,noFrame⟩ irRawTextMax) =
      (.ok,⟨[9000,4500],38000,noFrame⟩) := by
  have hread : irRawParse "stark-ir 1\ntimings 9000 4500\n".toList =
      (.ok,⟨[9000,4500],38000,noFrame⟩) := by decide +kernel
  exact ⟨hread,(ir_text.1 _ _ hread).2.2⟩

end reading

end StarkOne.IrText
