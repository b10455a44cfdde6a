import StarkOne.IrRaw
import StarkOne.NfcDumping
import StarkOne.NumberedNames
import StarkOne.TextLines

/-!
# The text of a dump

A dump is written line by line into buffers of the caller's size, and read back
by a parser that knows one spelling of every line.
-/

set_option autoImplicit false

namespace StarkOne.NfcDumpText
open StarkOne.NfcReader StarkOne.NfcDumping StarkOne.TextLines
open StarkOne.IrRaw (decimal hexadecimal)
open StarkOne.NumberedNames (digit value)

def fields : ℕ := 6
def nfcDumpLineMax : ℕ := 32
def nfcUidMax : ℕ := 10

def kHex : List Char := "0123456789ABCDEF".toList

def hexChar (n : ℕ) : Char := kHex.getD n '0'

def hexBytes (b : List UInt8) : List Char :=
  b.flatMap fun x : UInt8 => [hexChar (x >>> 4).toNat,hexChar (x &&& 0x0F).toNat]

def nfcTechName : NfcTech → List Char
  | .unknown => "UNKNOWN".toList
  | .ntag213 => "NTAG213".toList
  | .ntag215 => "NTAG215".toList
  | .ntag216 => "NTAG216".toList
  | .ultralight => "ULTRALIGHT".toList
  | .type2 => "TYPE2".toList
  | .classicMini => "CLASSIC_MINI".toList
  | .classic1k => "CLASSIC_1K".toList
  | .classic4k => "CLASSIC_4K".toList
  | .isoDep => "ISO_DEP".toList

def pageBytes (mem : ℕ → UInt8) (page : ℕ) : List UInt8 :=
  (List.range 4).map fun k => mem (page*4+k)

def pageLine (page : ℕ) (bytes : List UInt8) : List Char :=
  "page ".toList++decimal page++ ' '::hexBytes bytes

def bareLine (d : NfcDump) : ℕ → List Char
  | 0 => "stark-nfc 1".toList
  | 1 => "uid ".toList++hexBytes d.tag.uid
  | 2 => "atqa ".toList++hexadecimal 4 d.tag.atqa
  | 3 => "sak ".toList++hexadecimal 2 d.tag.sak.toNat
  | 4 => "tech ".toList++nfcTechName d.tag.tech
  | 5 => "pages ".toList++decimal d.nPages
  | page+6 => pageLine page (pageBytes d.mem page)

def lineAt (d : NfcDump) (i : ℕ) : List Char := bareLine d i++['\n']

def formatLines (d : NfcDump) (cap : ℕ) : ℕ → ℕ → List Char → List Char × ℕ
  | 0, cursor, out => (out,cursor)
  | left+1, cursor, out =>
    let line := lineAt d cursor
    if out.length+line.length+1 > cap then (out,cursor)
    else formatLines d cap left (cursor+1) (out++line)

def nfcDumpFormat (d : NfcDump) (cursor cap : ℕ) : List Char × ℕ :=
  if cap < nfcDumpLineMax ∨ d.tag.uid.length > nfcUidMax ∨ d.nPages > nfcT2MaxPages then ([],cursor)
  else formatLines d cap (fields+d.nPages-cursor) cursor []

def nextLine : ℕ → List Char → Option (List Char × List Char)
  | 0, _ => none
  | rounds+1, text =>
    if text = [] then none
    else
      let line := text.takeWhile (· ≠ '\n')
      let rest := (text.dropWhile (· ≠ '\n')).drop 1
      if line.head? = some '#' then nextLine rounds rest else some (line,rest)

def hexDigit (c : Char) : Option ℕ := kHex.idxOf? c

def hexPairs : List Char → Option (List UInt8)
  | [] => some []
  | [_] => none
  | a::b::rest => do
    let hi ← hexDigit a
    let lo ← hexDigit b
    let bytes ← hexPairs rest
    some (UInt8.ofNat (hi <<< 4 ||| lo)::bytes)

def parseHex (s : List Char) (n : ℕ) : Option (List UInt8) :=
  if s.length ≠ 2*n then none else hexPairs s

/-- A decimal of 1 to 4 digits without a leading zero. -/
def parseDec (s : List Char) (max : ℕ) : Option ℕ :=
  if s.length = 0 ∨ s.length > 4 ∨ (s.length > 1 ∧ s.head? = some '0') then none
  else if s.all digit && value s ≤ max then some (value s) else none

def field (key s : List Char) : Option (List Char) :=
  if s.length ≤ key.length+1 ∨ s.take key.length ≠ key ∨ s[key.length]? ≠ some ' ' then none
  else some (s.drop (key.length+1))

def techs : List NfcTech :=
  [.unknown,.ntag213,.ntag215,.ntag216,.ultralight,.type2,.classicMini,.classic1k,.classic4k,.isoDep]

def parseTech (v : List Char) : Option NfcTech := techs.find? (nfcTechName · = v)

def parseHeader (line : List Char) : Option Unit :=
  if line = "stark-nfc 1".toList then some () else none

def parseUid (line : List Char) : Option (List UInt8) := do
  let v ← field "uid".toList line
  if v.length ≠ 8 ∧ v.length ≠ 14 ∧ v.length ≠ 20 then none else parseHex v (v.length/2)

def parseAtqa (line : List Char) : Option ℕ := do
  let v ← field "atqa".toList line
  let two ← parseHex v 2
  some ((two.getD 0 0).toNat <<< 8 ||| (two.getD 1 0).toNat)

def parseSak (line : List Char) : Option UInt8 := do
  let v ← field "sak".toList line
  let one ← parseHex v 1
  some (one.getD 0 0)

def parseTechLine (line : List Char) : Option NfcTech := do
  let v ← field "tech".toList line
  parseTech v

def parsePages (line : List Char) : Option ℕ := do
  let v ← field "pages".toList line
  parseDec v nfcT2MaxPages

def parsePage (want : ℕ) (mem : ℕ → UInt8) (line : List Char) : Option (ℕ → UInt8) := do
  let v ← field "page".toList line
  let digits := v.takeWhile (· ≠ ' ')
  if v.length = digits.length then none
  else
    let index ← parseDec digits (nfcT2MaxPages-1)
    if index ≠ want then none
    else
      let bytes ← parseHex (v.drop (digits.length+1)) 4
      some (memcpy mem (index*4) bytes 4)

def checked {α : Type} (check : List Char → Option α) (text : List Char) :
    Except Fault (α × List Char) :=
  match nextLine text.length text with
  | none => .error .invalidArg
  | some (line,rest) =>
    match check line with
    | none => .error .invalidArg
    | some a => .ok (a,rest)

def parsePageLines : ℕ → ℕ → (ℕ → UInt8) → List Char → Except Fault ((ℕ → UInt8) × List Char)
  | 0, _, mem, text => .ok (mem,text)
  | left+1, i, mem, text => do
    let (mem,text) ← checked (parsePage i mem) text
    parsePageLines left (i+1) mem text

/-- Only what is returned with success: a refused text leaves no dump. -/
def nfcDumpParse (text : List Char) : Except Fault NfcDump := do
  let (_,text) ← checked parseHeader text
  let (uid,text) ← checked parseUid text
  let (atqa,text) ← checked parseAtqa text
  let (sak,text) ← checked parseSak text
  let (tech,text) ← checked parseTechLine text
  let (num,text) ← checked parsePages text
  let (mem,text) ← parsePageLines num 0 (fun _ => 0) text
  if (nextLine text.length text).isSome then .error .invalidArg
  else pure ⟨⟨uid,atqa,sak,tech,num⟩,num,mem⟩

section hex

theorem hexDigit_some {c : Char} {n : ℕ} : hexDigit c = some n ↔ n < 16 ∧ c = hexChar n := by
  constructor
  · intro h
    unfold hexDigit List.idxOf? at h
    obtain ⟨hn,hc,-⟩ := List.findIdx?_eq_some_iff_getElem.mp h
    refine ⟨hn,?_⟩
    rw [hexChar, List.getD_eq_getElem _ _ hn]
    exact (eq_of_beq hc).symm
  · rintro ⟨hn,rfl⟩
    have hall : ∀ k : Fin 16, hexDigit (hexChar k) = some k.val := by decide
    exact hall ⟨n,hn⟩

theorem nibbles (b : UInt8) : (b >>> 4).toNat < 16 ∧ (b &&& 0x0F).toNat < 16 ∧
    UInt8.ofNat ((b >>> 4).toNat <<< 4 ||| (b &&& 0x0F).toNat) = b := by
  have hlow : (b &&& 0x0F).toNat = b.toNat%16 := Nat.and_two_pow_sub_one_eq_mod b.toNat 4
  have hhigh : (b >>> 4).toNat = b.toNat/16 := by
    rw [UInt8.toNat_shiftRight]
    exact Nat.shiftRight_eq_div_pow b.toNat 4
  have hb := b.toNat_lt
  refine ⟨by omega,by omega,UInt8.toNat_inj.mp ?_⟩
  rw [hlow, hhigh, ← Nat.shiftLeft_add_eq_or_of_lt (by omega), Nat.shiftLeft_eq, UInt8.toNat_ofNat']
  omega

theorem nibbles_of {hi lo : ℕ} (hh : hi < 16) (hl : lo < 16) :
    (UInt8.ofNat (hi <<< 4 ||| lo) >>> 4).toNat = hi ∧
    (UInt8.ofNat (hi <<< 4 ||| lo) &&& 0x0F).toNat = lo := by
  have hb : (UInt8.ofNat (hi <<< 4 ||| lo)).toNat = 16*hi+lo := by
    rw [← Nat.shiftLeft_add_eq_or_of_lt (by omega), Nat.shiftLeft_eq, UInt8.toNat_ofNat']
    omega
  have hlow : (UInt8.ofNat (hi <<< 4 ||| lo) &&& 0x0F).toNat = (16*hi+lo)%16 := by
    rw [← hb]
    exact Nat.and_two_pow_sub_one_eq_mod _ 4
  have hhigh : (UInt8.ofNat (hi <<< 4 ||| lo) >>> 4).toNat = (16*hi+lo)/16 := by
    rw [UInt8.toNat_shiftRight, ← hb]
    exact Nat.shiftRight_eq_div_pow _ 4
  omega

theorem hexBytes_length (b : List UInt8) : (hexBytes b).length = 2*b.length := by
  induction b with
  | nil => rfl
  | cons x b ih =>
    rw [hexBytes, List.flatMap_cons, List.length_append, ← hexBytes, ih, List.length_cons]
    simp only [List.length_cons, List.length_nil]
    omega

theorem hexPairs_some (s : List Char) (b : List UInt8) : hexPairs s = some b ↔ s = hexBytes b := by
  constructor
  · intro h
    induction s using hexPairs.induct generalizing b with
    | case1 =>
      cases h
      rfl
    | case2 c => cases h
    | case3 x y rest ih =>
      obtain ⟨hi,hx,h⟩ := Option.bind_eq_some_iff.mp h
      obtain ⟨lo,hy,h⟩ := Option.bind_eq_some_iff.mp h
      obtain ⟨bytes,hr,h⟩ := Option.bind_eq_some_iff.mp h
      cases h
      obtain ⟨hlt,rfl⟩ := hexDigit_some.mp hx
      obtain ⟨hlt',rfl⟩ := hexDigit_some.mp hy
      obtain ⟨hhi,hlo⟩ := nibbles_of hlt hlt'
      rw [ih bytes hr, hexBytes, hexBytes, List.flatMap_cons, hhi, hlo]
      rfl
  · rintro rfl
    induction b with
    | nil => rfl
    | cons x b ih =>
      obtain ⟨hhi,hlo,hx⟩ := nibbles x
      have h₁ := hexDigit_some.mpr ⟨hhi,rfl⟩
      have h₂ := hexDigit_some.mpr ⟨hlo,rfl⟩
      show (hexDigit _).bind _ = _
      rw [h₁, Option.bind_some]
      show (hexDigit _).bind _ = _
      rw [h₂, Option.bind_some]
      show (hexPairs (hexBytes b)).bind _ = _
      rw [ih, Option.bind_some, hx]

theorem parseHex_some (s : List Char) (n : ℕ) (b : List UInt8) :
    parseHex s n = some b ↔ b.length = n ∧ s = hexBytes b := by
  unfold parseHex
  constructor
  · intro h
    split at h
    · cases h
    · rename_i hlen
      have hs := (hexPairs_some s b).mp h
      have := hexBytes_length b
      rw [← hs] at this
      exact ⟨by omega,hs⟩
  · rintro ⟨rfl,rfl⟩
    rw [if_neg (by rw [hexBytes_length]; simp)]
    exact (hexPairs_some _ _).mpr rfl

theorem hexChar_upper : ∀ d : Fin 16, (Nat.digitChar d).toUpper = hexChar d := by decide

theorem hexadecimal_succ (width n : ℕ) (hw : 0 < width) :
    hexadecimal (width+1) n = hexadecimal width (n/16)++[hexChar (n%16)] := by
  have hmod : n%16 < 16 := Nat.mod_lt n (by decide)
  have hchar := hexChar_upper ⟨n%16,hmod⟩
  dsimp only at hchar
  unfold hexadecimal IrRaw.padded
  rw [List.length_map, List.length_map, Nat.toDigits_eq_if (by decide : 1 < 16)]
  by_cases hn : n < 16
  · rw [if_pos hn, Nat.div_eq_of_lt hn, Nat.mod_eq_of_lt hn] at *
    obtain ⟨w,rfl⟩ := Nat.exists_eq_add_of_le' hw
    rw [List.length_singleton, Nat.add_sub_cancel, List.map_singleton, hchar,
      List.replicate_succ']
    rfl
  · rw [if_neg hn, List.length_append, List.length_singleton, Nat.add_sub_add_right,
      List.map_append, List.map_singleton, hchar, List.append_assoc]

theorem hexadecimal_one {n : ℕ} (h : n < 16) : hexadecimal 1 n = [hexChar n] := by
  unfold hexadecimal IrRaw.padded
  rw [Nat.toDigits_of_lt_base h]
  exact congrArg (fun c => [c]) (hexChar_upper ⟨n,h⟩)

theorem hexadecimal_two (b : UInt8) : hexadecimal 2 b.toNat = hexBytes [b] := by
  have hlow : (b &&& 0x0F).toNat = b.toNat%16 := Nat.and_two_pow_sub_one_eq_mod b.toNat 4
  have hhigh : (b >>> 4).toNat = b.toNat/16 := by
    rw [UInt8.toNat_shiftRight]
    exact Nat.shiftRight_eq_div_pow b.toNat 4
  have hb := b.toNat_lt
  rw [hexadecimal_succ 1 _ (by decide), hexadecimal_one (by omega), hexBytes, List.flatMap_cons,
    hlow, hhigh]
  rfl

theorem hexadecimal_four (a b : UInt8) :
    hexadecimal 4 (a.toNat <<< 8 ||| b.toNat) = hexBytes [a,b] := by
  have hb := b.toNat_lt
  have hn : a.toNat <<< 8 ||| b.toNat = 256*a.toNat+b.toNat := by
    rw [← Nat.shiftLeft_add_eq_or_of_lt hb, Nat.shiftLeft_eq]
    omega
  rw [hn, hexadecimal_succ 3 _ (by decide), hexadecimal_succ 2 _ (by decide),
    show (256*a.toNat+b.toNat)/16/16 = a.toNat by omega, hexadecimal_two,
    show (256*a.toNat+b.toNat)/16%16 = b.toNat/16 by omega,
    show (256*a.toNat+b.toNat)%16 = b.toNat%16 by omega]
  have htwo := hexadecimal_two b
  rw [hexadecimal_succ 1 _ (by decide), hexadecimal_one (by omega)] at htwo
  rw [show hexBytes [a,b] = hexBytes [a]++hexBytes [b] from rfl, ← htwo, List.append_assoc]

theorem sixteen_bits {n : ℕ} (h : n < 2^16) :
    (UInt8.ofNat (n/256)).toNat <<< 8 ||| (UInt8.ofNat n).toNat = n := by
  have hb := (UInt8.ofNat n).toNat_lt
  rw [← Nat.shiftLeft_add_eq_or_of_lt hb, Nat.shiftLeft_eq, UInt8.toNat_ofNat',
    UInt8.toNat_ofNat']
  omega

end hex

section decimals

theorem parseDec_some (s : List Char) (max n : ℕ) (hmax : max < 10^4) :
    parseDec s max = some n ↔ n ≤ max ∧ s = decimal n := by
  unfold parseDec
  constructor
  · intro h
    split at h
    · cases h
    rename_i hform
    split at h
    swap
    · cases h
    rename_i hval
    cases h
    simp only [Bool.and_eq_true, List.all_eq_true, decide_eq_true_eq] at hval
    refine ⟨hval.2,(NumberedNames.toDigits_value s ?_ hval.1 ?_).symm⟩
    · rintro rfl
      exact hform (Or.inl rfl)
    · exact fun hlen hz => hform (Or.inr (Or.inr ⟨hlen,hz⟩))
  · rintro ⟨hle,rfl⟩
    have hlen : (decimal n).length ≤ 4 :=
      (Nat.length_toDigits_le_iff (by decide) (by decide)).mpr (by omega)
    have hpos : 0 < (decimal n).length := List.length_pos_of_ne_nil Nat.toDigits_ne_nil
    have hval : value (decimal n) = n := Nat.ofDigitChars_ten_toDigits
    have hall : (decimal n).all digit = true :=
      List.all_eq_true.mpr fun c hc => NumberedNames.toDigits_digit n c hc
    rw [if_neg, hall, hval, Bool.true_and, if_pos (decide_eq_true hle)]
    rintro (h0 | h4 | ⟨h1,hz⟩)
    · omega
    · omega
    · exact NumberedNames.toDigits_head n h1 hz

end decimals

section checks

theorem field_some (key s v : List Char) :
    field key s = some v ↔ v ≠ [] ∧ s = key++ ' '::v := by
  unfold field
  constructor
  · intro h
    split at h
    · cases h
    rename_i hform
    push Not at hform
    obtain ⟨hlen,hkey,hsp⟩ := hform
    obtain rfl := Option.some.inj h
    refine ⟨fun hnil => ?_,?_⟩
    · have := List.drop_eq_nil_iff.mp hnil
      omega
    · have hcons := List.drop_eq_getElem_cons (show key.length < s.length by omega)
      have hchar : s[key.length] = ' ' := by
        rw [List.getElem?_eq_getElem (by omega)] at hsp
        exact Option.some.inj hsp
      rw [hchar] at hcons
      rw [← hcons]
      conv => lhs; rw [← List.take_append_drop key.length s, hkey]
  · rintro ⟨hne,rfl⟩
    have hpos := List.length_pos_of_ne_nil hne
    rw [if_neg]
    · rw [← List.drop_drop, List.drop_left]
      rfl
    · rw [List.take_left, List.getElem?_append_right (Nat.le_refl _), Nat.sub_self,
        List.length_append, List.length_cons]
      rintro (h | h | h)
      · omega
      · exact h rfl
      · exact h rfl

theorem field_bind_some {α : Type} (key line : List Char) (f : List Char → Option α) (a : α) :
    (field key line).bind f = some a ↔ ∃ v, v ≠ [] ∧ line = key++ ' '::v ∧ f v = some a := by
  rw [Option.bind_eq_some_iff]
  constructor
  · rintro ⟨v,hv,h⟩
    obtain ⟨hne,hline⟩ := (field_some _ _ _).mp hv
    exact ⟨v,hne,hline,h⟩
  · rintro ⟨v,hne,hline,h⟩
    exact ⟨v,(field_some _ _ _).mpr ⟨hne,hline⟩,h⟩

theorem header_some (line : List Char) :
    parseHeader line = some () ↔ line = "stark-nfc 1".toList := by
  unfold parseHeader
  split <;> simp_all

theorem hexBytes_ne_nil {b : List UInt8} (h : 0 < b.length) : hexBytes b ≠ [] := by
  intro hnil
  have := hexBytes_length b
  rw [hnil, List.length_nil] at this
  omega

theorem uid_some (line : List Char) (uid : List UInt8) :
    parseUid line = some uid ↔ (uid.length = 4 ∨ uid.length = 7 ∨ uid.length = 10) ∧
      line = "uid ".toList++hexBytes uid := by
  refine (field_bind_some "uid".toList line _ uid).trans ⟨?_,?_⟩
  · rintro ⟨v,-,rfl,h⟩
    split at h
    · cases h
    obtain ⟨hlen,rfl⟩ := (parseHex_some _ _ _).mp h
    have := hexBytes_length uid
    exact ⟨by omega,rfl⟩
  · rintro ⟨hlen,rfl⟩
    have hl := hexBytes_length uid
    refine ⟨hexBytes uid,hexBytes_ne_nil (by omega),rfl,?_⟩
    rw [if_neg (by omega)]
    exact (parseHex_some _ _ _).mpr ⟨by omega,rfl⟩

theorem atqa_some (line : List Char) (atqa : ℕ) :
    parseAtqa line = some atqa ↔ atqa < 2^16 ∧ line = "atqa ".toList++hexadecimal 4 atqa := by
  refine (field_bind_some "atqa".toList line _ atqa).trans ⟨?_,?_⟩
  · rintro ⟨v,-,rfl,h⟩
    obtain ⟨two,ht,hr⟩ := Option.bind_eq_some_iff.mp h
    obtain ⟨hlen,rfl⟩ := (parseHex_some _ _ _).mp ht
    obtain ⟨a,b,rfl⟩ := List.length_eq_two.mp hlen
    obtain rfl : a.toNat <<< 8 ||| b.toNat = atqa := Option.some.inj hr
    refine ⟨?_,?_⟩
    · exact Nat.or_lt_two_pow (Nat.shiftLeft_lt a.toNat_lt) (lt_trans b.toNat_lt (by decide))
    · rw [hexadecimal_four]
      rfl
  · rintro ⟨hlt,rfl⟩
    have hn := sixteen_bits hlt
    have hx := hexadecimal_four (UInt8.ofNat (atqa/256)) (UInt8.ofNat atqa)
    rw [hn] at hx
    rw [hx]
    refine ⟨hexBytes [_,_],hexBytes_ne_nil (Nat.succ_pos 1),rfl,
      Option.bind_eq_some_iff.mpr ⟨[UInt8.ofNat (atqa/256),UInt8.ofNat atqa],?_,?_⟩⟩
    · exact (parseHex_some _ _ _).mpr ⟨rfl,rfl⟩
    · exact congrArg some hn

theorem sak_some (line : List Char) (sak : UInt8) :
    parseSak line = some sak ↔ line = "sak ".toList++hexadecimal 2 sak.toNat := by
  rw [hexadecimal_two]
  refine (field_bind_some "sak".toList line _ sak).trans ⟨?_,?_⟩
  · rintro ⟨v,-,rfl,h⟩
    obtain ⟨one,ho,hr⟩ := Option.bind_eq_some_iff.mp h
    obtain ⟨hlen,rfl⟩ := (parseHex_some _ _ _).mp ho
    obtain ⟨a,rfl⟩ := List.length_eq_one_iff.mp hlen
    obtain rfl : a = sak := Option.some.inj hr
    rfl
  · rintro rfl
    refine ⟨hexBytes [sak],hexBytes_ne_nil (Nat.succ_pos 0),rfl,
      Option.bind_eq_some_iff.mpr ⟨[sak],?_,?_⟩⟩
    · exact (parseHex_some _ _ _).mpr ⟨rfl,rfl⟩
    · rfl

theorem parseTech_name (tech : NfcTech) : parseTech (nfcTechName tech) = some tech := by
  cases tech <;> decide

theorem nfcTechName_ne_nil (tech : NfcTech) : nfcTechName tech ≠ [] := by
  cases tech <;> decide

theorem tech_some (line : List Char) (tech : NfcTech) :
    parseTechLine line = some tech ↔ line = "tech ".toList++nfcTechName tech := by
  refine (field_bind_some "tech".toList line _ tech).trans ⟨?_,?_⟩
  · rintro ⟨v,-,rfl,h⟩
    have hname := List.find?_some h
    obtain rfl : nfcTechName tech = v := of_decide_eq_true hname
    rfl
  · rintro rfl
    exact ⟨_,nfcTechName_ne_nil tech,rfl,parseTech_name tech⟩

theorem pages_some (line : List Char) (n : ℕ) :
    parsePages line = some n ↔ n ≤ nfcT2MaxPages ∧ line = "pages ".toList++decimal n := by
  refine (field_bind_some "pages".toList line _ n).trans ⟨?_,?_⟩
  · rintro ⟨v,-,rfl,h⟩
    obtain ⟨hle,rfl⟩ := (parseDec_some _ _ _ (by decide)).mp h
    exact ⟨hle,rfl⟩
  · rintro ⟨hle,rfl⟩
    exact ⟨_,Nat.toDigits_ne_nil,rfl,(parseDec_some _ _ _ (by decide)).mpr ⟨hle,rfl⟩⟩

theorem decimal_spaceless (n : ℕ) : ∀ c ∈ decimal n, c ≠ ' ' := by
  intro c hc
  have hd := NumberedNames.toDigits_digit n c hc
  rintro rfl
  exact absurd hd (by decide)

theorem spaced (v : List Char) (h : v.length ≠ (v.takeWhile (· ≠ ' ')).length) :
    v = v.takeWhile (· ≠ ' ')++ ' '::v.drop ((v.takeWhile (· ≠ ' ')).length+1) := by
  have hsplit : v.takeWhile (· ≠ ' ')++v.dropWhile (· ≠ ' ') = v :=
    List.takeWhile_append_dropWhile
  have hhead := List.head?_dropWhile_not (· ≠ ' ') v
  generalize v.takeWhile (· ≠ ' ') = t at h hsplit ⊢
  cases hd : v.dropWhile (· ≠ ' ') with
  | nil =>
    rw [hd, List.append_nil] at hsplit
    exact absurd (congrArg List.length hsplit).symm h
  | cons c rest =>
    rw [hd] at hhead hsplit
    have hc : c = ' ' := by simpa using hhead
    rw [← hsplit, hc, ← List.drop_drop, List.drop_left]
    rfl

theorem takeWhile_decimal (n : ℕ) (rest : List Char) :
    (decimal n++ ' '::rest).takeWhile (· ≠ ' ') = decimal n := by
  rw [List.takeWhile_append_of_pos fun c hc => by simpa using decimal_spaceless n c hc]
  simp

theorem pageLine_fields (page : ℕ) (bytes : List UInt8) :
    pageLine page bytes = "page".toList++ ' '::(decimal page++ ' '::hexBytes bytes) :=
  List.append_assoc "page ".toList (decimal page) _

theorem page_some (want : ℕ) (mem mem' : ℕ → UInt8) (line : List Char) :
    parsePage want mem line = some mem' ↔ want < nfcT2MaxPages ∧ ∃ bytes, bytes.length = 4 ∧
      line = pageLine want bytes ∧ mem' = memcpy mem (want*4) bytes 4 := by
  have hmax : nfcT2MaxPages = 231 := rfl
  refine (field_bind_some "page".toList line _ mem').trans ⟨?_,?_⟩
  · rintro ⟨v,-,rfl,h⟩
    dsimp only at h
    split at h
    · cases h
    rename_i hsp
    obtain ⟨index,hi,hr⟩ := Option.bind_eq_some_iff.mp h
    split at hr
    · cases hr
    rename_i hw
    obtain rfl := not_not.mp hw
    obtain ⟨bytes,hb,hm⟩ := Option.bind_eq_some_iff.mp hr
    obtain ⟨hle,hdig⟩ := (parseDec_some _ _ _ (by decide)).mp hi
    obtain ⟨hlen,hhex⟩ := (parseHex_some _ _ _).mp hb
    refine ⟨by omega,bytes,hlen,?_,(Option.some.inj hm).symm⟩
    have hv : v = decimal index++ ' '::hexBytes bytes := by
      rw [← hdig, ← hhex]
      exact spaced v hsp
    rw [hv, pageLine_fields]
  · rintro ⟨hlt,bytes,hlen,rfl,rfl⟩
    refine ⟨decimal want++ ' '::hexBytes bytes,by simp,pageLine_fields want bytes,?_⟩
    rw [takeWhile_decimal, if_neg (by simp), (parseDec_some _ _ want (by decide)).mpr
      ⟨by omega,rfl⟩]
    show (if want ≠ want then none else _) = _
    rw [if_neg (by simp), ← List.drop_drop, List.drop_left]
    show (parseHex (hexBytes bytes) 4).bind _ = _
    rw [(parseHex_some _ _ _).mpr ⟨hlen,rfl⟩]
    rfl

end checks

section reading

theorem nextLine_step (rounds : ℕ) (text : List Char) (h : text.length ≤ rounds) :
    (contents '#' text = [] ∧ nextLine rounds text = none) ∨
    ∃ line rest, nextLine rounds text = some (line,rest) ∧
      contents '#' text = line::contents '#' rest := by
  induction rounds generalizing text with
  | zero =>
    obtain rfl := List.length_eq_zero_iff.mp (Nat.le_zero.mp h)
    exact Or.inl ⟨rfl,rfl⟩
  | succ rounds ih =>
    by_cases hne : text = []
    · subst text
      exact Or.inl ⟨rfl,by rw [nextLine, if_pos rfl]⟩
    have hpos := List.length_pos_of_ne_nil hne
    have hshort : ((text.dropWhile (· ≠ '\n')).drop 1).length ≤ rounds := by
      have := (List.dropWhile_sublist (fun c => decide (c ≠ '\n')) (l := text)).length_le
      rw [List.length_drop]
      omega
    rw [nextLine, if_neg hne, contents_step '#' hne]
    dsimp only
    by_cases hc : (text.takeWhile (· ≠ '\n')).head? = some '#'
    · rw [if_pos hc, comment, if_pos (decide_eq_true hc)]
      exact ih _ hshort
    · rw [if_neg hc, comment, if_neg (by simpa using hc)]
      exact Or.inr ⟨_,_,rfl,rfl⟩

section
variable {α : Type} {check : List Char → Option α} {text rest : List Char} {a : α}

theorem checked_ok (h : checked check text = .ok (a,rest)) :
    ∃ line, contents '#' text = line::contents '#' rest ∧ check line = some a := by
  unfold checked at h
  rcases nextLine_step text.length text (Nat.le_refl _) with ⟨-,hn⟩ | ⟨line,rest',hn,hc⟩
  · rw [hn] at h
    cases h
  rw [hn] at h
  dsimp only at h
  cases hk : check line with
  | none =>
    rw [hk] at h
    cases h
  | some b =>
    rw [hk] at h
    cases h
    exact ⟨line,hc,hk⟩

theorem checked_of {line : List Char} {ls : List (List Char)} (hc : contents '#' text = line::ls)
    (hk : check line = some a) :
    ∃ rest, checked check text = .ok (a,rest) ∧ contents '#' rest = ls := by
  unfold checked
  rcases nextLine_step text.length text (Nat.le_refl _) with ⟨hnil,-⟩ | ⟨line',rest,hn,hc'⟩
  · rw [hnil] at hc
    cases hc
  rw [hc] at hc'
  obtain ⟨rfl,hls⟩ := List.cons.inj hc'
  rw [hn]
  dsimp only
  rw [hk]
  exact ⟨rest,rfl,hls.symm⟩

end

theorem bind_ok {α β : Type} {x : Except Fault α} {f : α → Except Fault β} {b : β}
    (h : (x >>= f) = .ok b) : ∃ a, x = .ok a ∧ f a = .ok b := by
  cases x with
  | error e => cases h
  | ok a => exact ⟨a,rfl,h⟩

theorem pageBytes_memcpy {mem : ℕ → UInt8} {page : ℕ} {bytes : List UInt8} (h : bytes.length = 4) :
    pageBytes (memcpy mem (page*4) bytes 4) page = bytes := by
  refine List.ext_getElem (by simp [pageBytes, h]) fun k h₁ h₂ => ?_
  simp only [pageBytes, List.getElem_map, List.getElem_range, memcpy]
  rw [if_pos (by omega), Nat.add_sub_cancel_left, List.getD_eq_getElem _ _ h₂]

theorem pageBytes_congr {a b : ℕ → UInt8} {page : ℕ}
    (h : ∀ j, 4*page ≤ j → j < 4*(page+1) → a j = b j) : pageBytes a page = pageBytes b page := by
  unfold pageBytes
  refine List.map_congr_left fun k hk => h _ ?_ ?_
  · omega
  · have := List.mem_range.mp hk
    omega

theorem parsePageLines_ok (left i : ℕ) (mem mem' : ℕ → UInt8) (text rest : List Char)
    (h : parsePageLines left i mem text = .ok (mem',rest)) :
    contents '#' text = (List.range left).map (fun k => pageLine (i+k) (pageBytes mem' (i+k)))++
      contents '#' rest ∧ ∀ j, j < 4*i ∨ 4*(i+left) ≤ j → mem' j = mem j := by
  induction left generalizing i mem text with
  | zero =>
    cases h
    exact ⟨rfl,fun _ _ => rfl⟩
  | succ left ih =>
    obtain ⟨⟨mem₁,text₁⟩,hc,hr⟩ := bind_ok h
    obtain ⟨line,hline,hp⟩ := checked_ok hc
    obtain ⟨-,bytes,hlen,rfl,rfl⟩ := (page_some _ _ _ _).mp hp
    obtain ⟨hrest,hframe⟩ := ih (i+1) _ text₁ hr
    have hpage : pageBytes mem' i = bytes := by
      rw [pageBytes_congr fun j _ hj => hframe j (Or.inl hj), pageBytes_memcpy hlen]
    refine ⟨?_,fun j hj => ?_⟩
    · rw [hline, hrest, List.range_succ_eq_map, List.map_cons, List.map_map, List.cons_append]
      show _ = pageLine i (pageBytes mem' i)::_
      rw [hpage]
      congr 2
      refine List.map_congr_left fun k _ => ?_
      show _ = pageLine (i+(k+1)) _
      rw [show i+(k+1) = i+1+k by omega]
    · rw [hframe j (by omega)]
      unfold memcpy
      rw [if_neg (by omega)]

theorem parsePageLines_of (m : ℕ → UInt8) (left i : ℕ) (mem : ℕ → UInt8) (text : List Char)
    (ls : List (List Char)) (hmax : i+left ≤ nfcT2MaxPages)
    (hc : contents '#' text =
      (List.range left).map (fun k => pageLine (i+k) (pageBytes m (i+k)))++ls) :
    ∃ mem' rest, parsePageLines left i mem text = .ok (mem',rest) ∧ contents '#' rest = ls ∧
      ∀ j, mem' j = if 4*i ≤ j ∧ j < 4*(i+left) then m j else mem j := by
  induction left generalizing i mem text with
  | zero => exact ⟨mem,text,rfl,hc,fun j => by rw [if_neg (by omega)]⟩
  | succ left ih =>
    rw [List.range_succ_eq_map, List.map_cons, List.map_map, List.cons_append, Nat.add_zero] at hc
    obtain ⟨text₁,hline,hls⟩ := checked_of hc
      ((page_some i mem _ _).mpr ⟨by omega,pageBytes m i,by simp [pageBytes],rfl,rfl⟩)
    obtain ⟨mem',rest,hr,hrest,hmem⟩ := ih (i+1) (memcpy mem (i*4) (pageBytes m i) 4) text₁
      (by omega) (by
        rw [hls]
        congr 1
        refine List.map_congr_left fun k _ => ?_
        show pageLine (i+(k+1)) _ = _
        rw [show i+(k+1) = i+1+k by omega])
    refine ⟨mem',rest,?_,hrest,fun j => ?_⟩
    · rw [parsePageLines, hline]
      exact hr
    · rw [hmem j]
      by_cases hnew : 4*(i+1) ≤ j ∧ j < 4*(i+1+left)
      · rw [if_pos hnew, if_pos (by omega)]
      rw [if_neg hnew]
      unfold memcpy
      by_cases hpage : i*4 ≤ j ∧ j < i*4+4
      · have hk : j-i*4 < 4 := by omega
        rw [if_pos hpage, if_pos (by omega), List.getD_eq_getElem _ _ (by simp [pageBytes, hk])]
        simp only [pageBytes, List.getElem_map, List.getElem_range]
        rw [Nat.add_sub_cancel' hpage.1]
      · rw [if_neg hpage, if_neg (by omega)]

end reading

structure WellFormed (d : NfcDump) : Prop where
  uid : d.tag.uid.length = 4 ∨ d.tag.uid.length = 7 ∨ d.tag.uid.length = 10
  atqa : d.tag.atqa < 2^16
  count : d.nPages ≤ nfcT2MaxPages
  pages : d.tag.pages = d.nPages
  blank : ∀ j, 4*d.nPages ≤ j → d.mem j = 0

def dumpLines (d : NfcDump) : List (List Char) := (List.range (fields+d.nPages)).map (bareLine d)

def dumpText (d : NfcDump) : List Char := (List.range (fields+d.nPages)).flatMap (lineAt d)

theorem dumpText_written (d : NfcDump) : dumpText d = written (dumpLines d) := by
  rw [dumpText, written, dumpLines, List.flatMap_map]
  rfl

theorem dumpLines_eq (d : NfcDump) : dumpLines d = bareLine d 0::bareLine d 1::bareLine d 2::
    bareLine d 3::bareLine d 4::bareLine d 5::
      (List.range d.nPages).map (fun k => pageLine (0+k) (pageBytes d.mem (0+k))) := by
  rw [dumpLines, List.range_add, List.map_append, List.map_map]
  show _ = [0,1,2,3,4,5].map (bareLine d)++_
  congr 1
  refine List.map_congr_left fun k _ => ?_
  show bareLine d (fields+k) = _
  rw [Nat.add_comm, Nat.zero_add]
  rfl

section parsing

theorem parse_ok {text : List Char} {d : NfcDump} (h : nfcDumpParse text = .ok d) :
    WellFormed d ∧ contents '#' text = dumpLines d := by
  obtain ⟨⟨u,t₁⟩,h₁,h⟩ := bind_ok h
  obtain ⟨⟨uid,t₂⟩,h₂,h⟩ := bind_ok h
  obtain ⟨⟨atqa,t₃⟩,h₃,h⟩ := bind_ok h
  obtain ⟨⟨sak,t₄⟩,h₄,h⟩ := bind_ok h
  obtain ⟨⟨tech,t₅⟩,h₅,h⟩ := bind_ok h
  obtain ⟨⟨num,t₆⟩,h₆,h⟩ := bind_ok h
  obtain ⟨⟨mem,t₇⟩,h₇,h⟩ := bind_ok h
  dsimp only at h
  split at h
  · cases h
  rename_i hend
  obtain rfl := Except.ok.inj h
  obtain ⟨l₁,hc₁,hl₁⟩ := checked_ok h₁
  obtain ⟨l₂,hc₂,hl₂⟩ := checked_ok h₂
  obtain ⟨l₃,hc₃,hl₃⟩ := checked_ok h₃
  obtain ⟨l₄,hc₄,hl₄⟩ := checked_ok h₄
  obtain ⟨l₅,hc₅,hl₅⟩ := checked_ok h₅
  obtain ⟨l₆,hc₆,hl₆⟩ := checked_ok h₆
  obtain rfl := (header_some _).mp hl₁
  obtain ⟨huid,rfl⟩ := (uid_some _ _).mp hl₂
  obtain ⟨hatqa,rfl⟩ := (atqa_some _ _).mp hl₃
  obtain rfl := (sak_some _ _).mp hl₄
  obtain rfl := (tech_some _ _).mp hl₅
  obtain ⟨hnum,rfl⟩ := (pages_some _ _).mp hl₆
  obtain ⟨hpages,hblank⟩ := parsePageLines_ok _ _ _ _ _ _ h₇
  have hrest : contents '#' t₇ = [] := by
    rcases nextLine_step t₇.length t₇ (Nat.le_refl _) with ⟨hnil,-⟩ | ⟨line,rest,hn,-⟩
    · exact hnil
    · rw [hn] at hend
      exact absurd rfl hend
  refine ⟨⟨huid,hatqa,hnum,rfl,fun j hj => hblank j (Or.inr ?_)⟩,?_⟩
  · rw [Nat.zero_add]
    exact hj
  · rw [hc₁, hc₂, hc₃, hc₄, hc₅, hc₆, hpages, hrest, List.append_nil, dumpLines_eq]
    rfl

theorem parse_of {text : List Char} {d : NfcDump} (hd : WellFormed d)
    (h : contents '#' text = dumpLines d) : nfcDumpParse text = .ok d := by
  rw [dumpLines_eq] at h
  obtain ⟨t₁,h₁,hc₁⟩ := checked_of h ((header_some _).mpr rfl)
  obtain ⟨t₂,h₂,hc₂⟩ := checked_of hc₁ ((uid_some _ _).mpr ⟨hd.uid,rfl⟩)
  obtain ⟨t₃,h₃,hc₃⟩ := checked_of hc₂ ((atqa_some _ _).mpr ⟨hd.atqa,rfl⟩)
  obtain ⟨t₄,h₄,hc₄⟩ := checked_of hc₃ ((sak_some _ _).mpr rfl)
  obtain ⟨t₅,h₅,hc₅⟩ := checked_of hc₄ ((tech_some _ _).mpr rfl)
  obtain ⟨t₆,h₆,hc₆⟩ := checked_of hc₅ ((pages_some _ _).mpr ⟨hd.count,rfl⟩)
  rw [← List.append_nil (List.map _ _)] at hc₆
  obtain ⟨mem,t₇,h₇,hc₇,hmem⟩ := parsePageLines_of d.mem d.nPages 0 (fun _ => 0) t₆ []
    (by have := hd.count; omega) hc₆
  have hend : nextLine t₇.length t₇ = none := by
    rcases nextLine_step t₇.length t₇ (Nat.le_refl _) with ⟨-,hn⟩ | ⟨line,rest,-,hc⟩
    · exact hn
    · rw [hc₇] at hc
      cases hc
  have hsame : mem = d.mem := by
    funext j
    rw [hmem j]
    split
    · rfl
    · exact (hd.blank j (by omega)).symm
  have hpages := hd.pages
  obtain ⟨⟨uid,atqa,sak,tech,pages⟩,n,m⟩ := d
  dsimp only at hpages hsame h₁ h₂ h₃ h₄ h₅ h₆ h₇
  subst hpages hsame
  unfold nfcDumpParse
  rw [h₁]
  show (checked parseUid t₁ >>= _) = _
  rw [h₂]
  show (checked parseAtqa t₂ >>= _) = _
  rw [h₃]
  show (checked parseSak t₃ >>= _) = _
  rw [h₄]
  show (checked parseTechLine t₄ >>= _) = _
  rw [h₅]
  show (checked parsePages t₅ >>= _) = _
  rw [h₆]
  show (parsePageLines pages 0 (fun _ => 0) t₆ >>= _) = _
  rw [h₇]
  show (if (nextLine t₇.length t₇).isSome then _ else _) = _
  rw [hend]
  rfl

theorem hexChar_lineless (n : ℕ) : hexChar n ≠ '\n' := by
  by_cases h : n < 16
  · have hall : ∀ k : Fin 16, hexChar k ≠ '\n' := by decide
    exact hall ⟨n,h⟩
  · rw [hexChar, List.getD_eq_default _ _ (not_lt.mp h)]
    decide

theorem hexBytes_lineless (b : List UInt8) : '\n' ∉ hexBytes b := by
  intro h
  obtain ⟨x,-,hx⟩ := List.mem_flatMap.mp h
  rcases List.mem_cons.mp hx with hc | hx
  · exact hexChar_lineless _ hc.symm
  · exact hexChar_lineless _ (List.mem_singleton.mp hx).symm

theorem decimal_lineless (n : ℕ) : '\n' ∉ decimal n :=
  fun h => absurd (NumberedNames.toDigits_digit n _ h) (by decide)

theorem atqa_line {n : ℕ} (h : n < 2^16) :
    hexadecimal 4 n = hexBytes [UInt8.ofNat (n/256),UInt8.ofNat n] := by
  rw [← hexadecimal_four, sixteen_bits h]

theorem keyed_plain (key : List Char) {rest : List Char}
    (hk : key ≠ [] ∧ '\n' ∉ key ∧ comment '#' key = false) (hr : '\n' ∉ rest) :
    '\n' ∉ key++rest ∧ comment '#' (key++rest) = false := by
  obtain ⟨hne,hl,hc⟩ := hk
  refine ⟨?_,?_⟩
  · rw [List.mem_append]
    exact not_or.mpr ⟨hl,hr⟩
  · rw [comment, List.head?_append_of_ne_nil _ hne]
    exact hc

theorem bareLine_plain {d : NfcDump} (hd : d.tag.atqa < 2^16) (i : ℕ) :
    '\n' ∉ bareLine d i ∧ comment '#' (bareLine d i) = false := by
  rcases i with _ | _ | _ | _ | _ | _ | page
  · exact keyed_plain "stark-nfc 1".toList (by decide) List.not_mem_nil
  · exact keyed_plain "uid ".toList (by decide) (hexBytes_lineless _)
  · refine keyed_plain "atqa ".toList (by decide) ?_
    rw [atqa_line hd]
    exact hexBytes_lineless _
  · refine keyed_plain "sak ".toList (by decide) ?_
    rw [hexadecimal_two]
    exact hexBytes_lineless _
  · refine keyed_plain "tech ".toList (by decide) ?_
    cases d.tag.tech <;> decide
  · exact keyed_plain "pages ".toList (by decide) (decimal_lineless _)
  · have hpage := keyed_plain "page ".toList (by decide) (decimal_lineless page)
    have hrest : '\n' ∉ ' '::hexBytes (pageBytes d.mem page) :=
      List.not_mem_cons_of_ne_of_not_mem (by decide) (hexBytes_lineless _)
    exact keyed_plain ("page ".toList++decimal page) ⟨List.cons_ne_nil _ _,hpage⟩ hrest

theorem contents_dumpText {d : NfcDump} (hd : WellFormed d) :
    contents '#' (dumpText d) = dumpLines d := by
  rw [dumpText_written]
  refine contents_written _ fun l hl => ?_
  obtain ⟨i,-,rfl⟩ := List.mem_map.mp hl
  exact bareLine_plain hd.atqa i

end parsing

section formatting
variable {d : NfcDump}

theorem lineAt_fits (hd : WellFormed d) {i : ℕ} (hi : i < fields+d.nPages) :
    0 < (lineAt d i).length ∧ (lineAt d i).length+1 ≤ nfcDumpLineMax := by
  have hn := hd.count
  have hmax : nfcT2MaxPages = 231 := rfl
  have hdec : ∀ n < 10^4, (decimal n).length ≤ 4 := fun n h =>
    (Nat.length_toDigits_le_iff (by decide) (by decide)).mpr h
  unfold lineAt nfcDumpLineMax
  rw [List.length_append, List.length_singleton]
  refine ⟨Nat.succ_pos _,?_⟩
  unfold fields at hi
  rcases i with _ | _ | _ | _ | _ | _ | page
  · show "stark-nfc 1".toList.length+1+1 ≤ 32
    decide
  · have huid := hd.uid
    have hl := hexBytes_length d.tag.uid
    show ("uid ".toList++hexBytes d.tag.uid).length+1+1 ≤ 32
    rw [List.length_append, hl, show "uid ".toList.length = 4 from rfl]
    omega
  · show ("atqa ".toList++hexadecimal 4 d.tag.atqa).length+1+1 ≤ 32
    rw [atqa_line hd.atqa, List.length_append, hexBytes_length]
    show 5+2*2+1+1 ≤ 32
    decide
  · show ("sak ".toList++hexadecimal 2 d.tag.sak.toNat).length+1+1 ≤ 32
    rw [hexadecimal_two, List.length_append, hexBytes_length]
    show 4+2*1+1+1 ≤ 32
    decide
  · show ("tech ".toList++nfcTechName d.tag.tech).length+1+1 ≤ 32
    cases d.tag.tech <;> decide
  · have hl := hdec d.nPages (by omega)
    show ("pages ".toList++decimal d.nPages).length+1+1 ≤ 32
    rw [List.length_append, show "pages ".toList.length = 6 from rfl]
    omega
  · have hl := hdec page (by omega)
    have hb : (pageBytes d.mem page).length = 4 := by simp [pageBytes]
    show ("page ".toList++decimal page++ ' '::hexBytes (pageBytes d.mem page)).length+1+1 ≤ 32
    rw [List.length_append, List.length_append, List.length_cons, hexBytes_length, hb,
      show "page ".toList.length = 5 from rfl]
    omega

/-- The loop writes a run of lines from the cursor on, at least one into an empty buffer. -/
theorem formatLines_run (hd : WellFormed d) (cap left cursor : ℕ) (out : List Char)
    (hcap : nfcDumpLineMax ≤ cap) (hleft : cursor+left = fields+d.nPages) :
    ∃ m ≤ left, formatLines d cap left cursor out =
        (out++(List.range m).flatMap (fun k => lineAt d (cursor+k)),cursor+m) ∧
      (out = [] → 0 < left → 0 < m) := by
  induction left generalizing cursor out with
  | zero => exact ⟨0,Nat.le_refl _,by simp [formatLines],fun _ h => h⟩
  | succ left ih =>
    obtain ⟨hpos,hfit⟩ := lineAt_fits hd (show cursor < fields+d.nPages by omega)
    rw [formatLines]
    by_cases hroom : out.length+(lineAt d cursor).length+1 > cap
    · rw [if_pos hroom]
      refine ⟨0,Nat.zero_le _,by simp,fun hout => ?_⟩
      subst hout
      rw [List.length_nil] at hroom
      omega
    rw [if_neg hroom]
    obtain ⟨m,hm,hrun,-⟩ := ih (cursor+1) (out++lineAt d cursor) (by omega)
    refine ⟨m+1,Nat.succ_le_succ hm,?_,fun _ _ => Nat.succ_pos m⟩
    rw [hrun, List.range_succ_eq_map, List.flatMap_cons, List.flatMap_map, List.append_assoc]
    refine Prod.ext ?_ (by dsimp only; omega)
    dsimp only
    rw [Nat.add_zero]
    congr 3
    funext k
    rw [Nat.succ_eq_add_one, Nat.add_right_comm, Nat.add_assoc]

/-- The cursor before the k-th call of a caller with these buffers. -/
def cursorAt (d : NfcDump) (caps : ℕ → ℕ) : ℕ → ℕ
  | 0 => 0
  | k+1 => (nfcDumpFormat d (cursorAt d caps k) (caps k)).2

def chunk (d : NfcDump) (caps : ℕ → ℕ) (k : ℕ) : List Char :=
  (nfcDumpFormat d (cursorAt d caps k) (caps k)).1

theorem format_run (hd : WellFormed d) (cursor cap : ℕ) (hcap : nfcDumpLineMax ≤ cap)
    (hcur : cursor ≤ fields+d.nPages) :
    ∃ m ≤ fields+d.nPages-cursor, nfcDumpFormat d cursor cap =
        ((List.range m).flatMap (fun k => lineAt d (cursor+k)),cursor+m) ∧
      (cursor < fields+d.nPages → 0 < m) := by
  have huid := hd.uid
  have hn := hd.count
  obtain ⟨m,hm,hrun,hpos⟩ := formatLines_run hd cap (fields+d.nPages-cursor) cursor [] hcap
    (by omega)
  refine ⟨m,hm,?_,fun h => hpos rfl (by omega)⟩
  unfold nfcDumpFormat nfcUidMax
  rw [if_neg (by omega), hrun]
  rfl

section
variable {caps : ℕ → ℕ}

theorem cursor_moves (hd : WellFormed d) (hcaps : ∀ k, nfcDumpLineMax ≤ caps k) (k : ℕ) :
    min k (fields+d.nPages) ≤ cursorAt d caps k ∧ cursorAt d caps k ≤ fields+d.nPages := by
  induction k with
  | zero => exact ⟨Nat.min_le_left _ _,Nat.zero_le _⟩
  | succ k ih =>
    obtain ⟨m,hm,hrun,hpos⟩ := format_run hd _ (caps k) (hcaps k) ih.2
    rw [cursorAt, hrun]
    dsimp only
    by_cases h : cursorAt d caps k < fields+d.nPages
    · have := hpos h
      omega
    · omega

theorem chunks_so_far (hd : WellFormed d) (hcaps : ∀ k, nfcDumpLineMax ≤ caps k) (k : ℕ) :
    (List.range k).flatMap (chunk d caps) =
      (List.range (cursorAt d caps k)).flatMap (lineAt d) := by
  induction k with
  | zero => rfl
  | succ k ih =>
    obtain ⟨m,-,hrun,-⟩ := format_run hd _ (caps k) (hcaps k) (cursor_moves hd hcaps k).2
    have hchunk : chunk d caps k =
        (List.range m).flatMap (fun j => lineAt d (cursorAt d caps k+j)) := by rw [chunk, hrun]
    have hcur : cursorAt d caps (k+1) = cursorAt d caps k+m := by rw [cursorAt, hrun]
    rw [List.range_succ, List.flatMap_append, ih, List.flatMap_singleton, hchunk, hcur,
      List.range_add, List.flatMap_append, List.flatMap_map]

theorem chunks_end (hd : WellFormed d) (hcaps : ∀ k, nfcDumpLineMax ≤ caps k) :
    ∃ n, (∀ k < n, chunk d caps k ≠ []) ∧ chunk d caps n = [] ∧
      (List.range n).flatMap (chunk d caps) = dumpText d := by
  have hex : ∃ n, cursorAt d caps n = fields+d.nPages := by
    have := cursor_moves hd hcaps (fields+d.nPages)
    exact ⟨fields+d.nPages,by omega⟩
  have hfound := Nat.find_spec hex
  refine ⟨Nat.find hex,fun k hk => ?_,?_,?_⟩
  · have hne := Nat.find_min hex hk
    have hmove := (cursor_moves hd hcaps k).2
    obtain ⟨m,hm,hrun,hpos⟩ := format_run hd _ (caps k) (hcaps k) hmove
    have hm0 := hpos (lt_of_le_of_ne hmove hne)
    obtain ⟨m,rfl⟩ := Nat.exists_eq_succ_of_ne_zero hm0.ne'
    have hline := (lineAt_fits hd (lt_of_le_of_ne hmove hne)).1
    rw [chunk, hrun, List.range_succ_eq_map, List.flatMap_cons]
    exact List.append_ne_nil_of_left_ne_nil (List.ne_nil_of_length_pos hline) _
  · obtain ⟨m,hm,hrun,-⟩ := format_run hd _ (caps (Nat.find hex)) (hcaps _) (le_of_eq hfound)
    rw [hfound, Nat.sub_self] at hm
    rw [chunk, hrun, Nat.le_zero.mp hm]
    rfl
  · rw [chunks_so_far hd hcaps, hfound]
    rfl

end

end formatting

/-- The text of a dump does not depend on the buffers it was written through and
reads back as the dump, and every text that is read is that text but for comments
and a missing last line end. -/
theorem dump_text_round_trip :
    (∀ d, WellFormed d → (∀ caps : ℕ → ℕ, (∀ k, nfcDumpLineMax ≤ caps k) →
        ∃ n, (∀ k < n, chunk d caps k ≠ []) ∧ chunk d caps n = [] ∧
          (List.range n).flatMap (chunk d caps) = dumpText d) ∧
      nfcDumpParse (dumpText d) = .ok d) ∧
    ∀ text d, nfcDumpParse text = .ok d →
      WellFormed d ∧ uncommented '#' text = dumpText d := by
  refine ⟨fun d hd => ⟨fun caps hcaps => chunks_end hd hcaps,?_⟩,fun text d h => ?_⟩
  · exact parse_of hd (contents_dumpText hd)
  · obtain ⟨hd,hc⟩ := parse_ok h
    exact ⟨hd,by rw [uncommented, hc, dumpText_written]⟩

def torn : NfcDump :=
  ⟨⟨[0x04,0xA1,0xB2,0xC3,0xD4,0xE5,0xF6],0x0044,0x00,.ntag213,2⟩,2,
    fun j => [0x04,0xA1,0xB2,0x9F,0xC3,0xD4,0xE5,0xF6].getD j 0⟩

theorem torn_round_trip : nfcDumpParse (dumpText torn) = .ok torn ∧
    ∃ n, (List.range n).flatMap (chunk torn fun _ => 64) =
      ("stark-nfc 1\nuid 04A1B2C3D4E5F6\natqa 0044\nsak 00\ntech NTAG213\npages 2\n"++
        "page 0 04A1B29F\npage 1 C3D4E5F6\n").toList := by
  have hblank : ∀ j, 4*torn.nPages ≤ j → torn.mem j = 0 :=
    fun j hj => List.getD_eq_default _ _ hj
  have hd : WellFormed torn := ⟨.inr (.inl rfl),by decide,by decide,rfl,hblank⟩
  obtain ⟨hchunks,hparse⟩ := dump_text_round_trip.1 torn hd
  obtain ⟨n,-,-,hn⟩ := hchunks (fun _ => 64) fun _ => by decide
  exact ⟨hparse,n,hn.trans (by decide +kernel)⟩

end StarkOne.NfcDumpText
