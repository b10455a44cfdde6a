import StarkOne.Ndef
import StarkOne.StarkErr

/-!
# URI and Text records

A URI is kept as the code of a prefix and the rest. Prefixes of the table are
prefixes of one another, and of those that match the longest is taken.
-/

set_option autoImplicit false

namespace StarkOne.NdefRecords
open StarkOne.Ndef StarkOne.NfcType2

def ascii (s : String) : List UInt8 := s.toList.map fun c => UInt8.ofNat c.toNat

def kPrefix : List (List UInt8) :=
  ["","http://www.","https://www.","http://","https://","tel:","mailto:",
    "ftp://anonymous:anonymous@","ftp://ftp.","ftps://","sftp://","smb://","nfs://","ftp://",
    "dav://","news:","telnet://","imap:","rtsp://","urn:","pop:","sip:","sips:","tftp:",
    "btspp://","btl2cap://","btgoep://","tcpobex://","irdaobex://","file://","urn:epc:id:",
    "urn:epc:tag:","urn:epc:pat:","urn:epc:raw:","urn:epc:","urn:nfc:"].map ascii

def kTypeUri : List UInt8 := ascii "U"
def kTypeText : List UInt8 := ascii "T"

def textUtf16 : UInt8 := 0x80
def textReserved : UInt8 := 0x40
def textLang : UInt8 := 0x3F

def isType (r : NdefRecord) (type : List UInt8) : Bool :=
  r.tnf = .wellKnown && r.type.length = 1 && r.type.head? = type.head?

/-- The bytes after those already in the output, with room for a NUL. -/
def copyStr (cap : ℕ) (out src : List UInt8) : Except Fault (List UInt8) :=
  if src.contains 0 then .error .invalidArg
  else if cap-out.length ≤ src.length then .error .noSpace
  else .ok (out++src)

def ndefUriGet (r : NdefRecord) (cap : ℕ) : Except Fault (List UInt8) :=
  if !isType r kTypeUri || cap = 0 then .error .invalidArg
  else match r.payload with
    | [] => .error .invalidArg
    | code::rest => match kPrefix[code.toNat]? with
      | none => .error .invalidArg
      | some p => (copyStr cap [] p).bind fun out => copyStr cap out rest

def better (uri : List UInt8) (acc : ℕ × ℕ) (e : List UInt8 × ℕ) : ℕ × ℕ :=
  if acc.2 < e.1.length && e.1.isPrefixOf uri then (e.2,e.1.length) else acc

def choose (uri : List UInt8) : ℕ × ℕ := (kPrefix.zipIdx.drop 1).foldl (better uri) (0,0)

def ndefUriMake (uri : List UInt8) (cap : ℕ) : Except Fault NdefRecord :=
  if uri = [] then .error .invalidArg
  else
    let (code,best) := choose uri
    let rest := uri.length-best
    if cap < rest+1 ∨ nfcNdefMax < rest+1 then .error .noSpace
    else .ok
      { tnf := .wellKnown
        type := kTypeUri
        id := []
        payload := UInt8.ofNat code::uri.drop best
        typeLen := by decide
        idLen := by decide }

def ndefTextGet (r : NdefRecord) (lcap tcap : ℕ) : Except Fault (List UInt8 × List UInt8) :=
  if !isType r kTypeText || lcap = 0 || tcap = 0 then .error .invalidArg
  else match r.payload with
    | [] => .error .invalidArg
    | status::body =>
      if status &&& textUtf16 ≠ 0 then .error .notSupported
      else
        let langLen := (status &&& textLang).toNat
        if status &&& textReserved ≠ 0 ∨ langLen = 0 ∨ body.length < langLen then
          .error .invalidArg
        else (copyStr lcap [] (body.take langLen)).bind fun lang =>
          (copyStr tcap [] (body.drop langLen)).bind fun text => .ok (lang,text)

def ndefTextMake (lang text : List UInt8) (cap : ℕ) : Except Fault NdefRecord :=
  if lang.length = 0 ∨ textLang.toNat < lang.length then .error .invalidArg
  else
    let n := 1+lang.length+text.length
    if cap < n ∨ nfcNdefMax < n then .error .noSpace
    else .ok
      { tnf := .wellKnown
        type := kTypeText
        id := []
        payload := UInt8.ofNat lang.length::(lang++text)
        typeLen := by decide
        idLen := by decide }

theorem copyStr_ok {cap : ℕ} {out src : List UInt8} (h0 : 0 ∉ src)
    (hroom : out.length+src.length < cap) : copyStr cap out src = .ok (out++src) := by
  unfold copyStr
  rw [if_neg (by simpa using h0), if_neg (by omega)]

def Chosen (table : List (List UInt8)) (uri : List UInt8) (acc : ℕ × ℕ) : Prop :=
  ∃ p, table[acc.1]? = some p ∧ p.length = acc.2 ∧ p <+: uri

section
variable {table : List (List UInt8)} {uri : List UInt8}

theorem better_chosen {acc : ℕ × ℕ} (h : Chosen table uri acc) {e : List UInt8 × ℕ}
    (he : table[e.2]? = some e.1) : Chosen table uri (better uri acc e) ∧
      acc.2 ≤ (better uri acc e).2 ∧ (e.1 <+: uri → e.1.length ≤ (better uri acc e).2) := by
  unfold better
  by_cases hc : (acc.2 < e.1.length && e.1.isPrefixOf uri) = true
  · rw [if_pos hc]
    obtain ⟨hlen,hpre⟩ := Bool.and_eq_true_iff.mp hc
    exact ⟨⟨e.1,he,rfl,List.isPrefixOf_iff_prefix.mp hpre⟩,(of_decide_eq_true hlen).le,
      fun _ => Nat.le_refl _⟩
  · rw [if_neg hc]
    refine ⟨h,Nat.le_refl _,fun hpre => ?_⟩
    by_contra hlt
    exact hc (Bool.and_eq_true_iff.mpr ⟨decide_eq_true (Nat.not_le.mp hlt),
      List.isPrefixOf_iff_prefix.mpr hpre⟩)

theorem foldl_chosen (es : List (List UInt8 × ℕ)) (hes : ∀ e ∈ es, table[e.2]? = some e.1)
    {acc : ℕ × ℕ} (h : Chosen table uri acc) : Chosen table uri (es.foldl (better uri) acc) ∧
      acc.2 ≤ (es.foldl (better uri) acc).2 ∧
      ∀ e ∈ es, e.1 <+: uri → e.1.length ≤ (es.foldl (better uri) acc).2 := by
  induction es generalizing acc with
  | nil => exact ⟨h,Nat.le_refl _,fun e he => by cases he⟩
  | cons e es ih =>
    obtain ⟨hone,hle,hbest⟩ := better_chosen h (hes e List.mem_cons_self)
    obtain ⟨hall,hmore,hrest⟩ := ih (fun e he => hes e (List.mem_cons_of_mem _ he)) hone
    rw [List.foldl_cons]
    refine ⟨hall,hle.trans hmore,fun e' he' hpre => ?_⟩
    rcases List.mem_cons.mp he' with rfl | he'
    · exact (hbest hpre).trans hmore
    · exact hrest e' he' hpre

end

theorem choose_longest (uri : List UInt8) : Chosen kPrefix uri (choose uri) ∧
    ∀ p ∈ kPrefix, p <+: uri → p.length ≤ (choose uri).2 := by
  have hes : ∀ e ∈ kPrefix.zipIdx.drop 1, kPrefix[e.2]? = some e.1 := by
    intro e he
    exact List.mk_mem_zipIdx_iff_getElem?.mp (List.mem_of_mem_drop he)
  have hstart : Chosen kPrefix uri (0,0) := ⟨[],rfl,rfl,List.nil_prefix⟩
  obtain ⟨hchosen,-,hbest⟩ := foldl_chosen _ hes hstart
  refine ⟨hchosen,fun p hp hpre => ?_⟩
  obtain ⟨i,hi⟩ := List.mem_iff_getElem?.mp hp
  cases i with
  | zero =>
    obtain rfl : [] = p := Option.some.inj hi
    exact Nat.zero_le _
  | succ i =>
    refine hbest (p,i+1) ?_ hpre
    rw [List.mem_iff_getElem?]
    refine ⟨i,?_⟩
    rw [List.getElem?_drop, List.getElem?_zipIdx, Nat.add_comm 1 i, hi, Option.map_some,
      Nat.zero_add]

theorem prefixes_few : kPrefix.length = 36 := by
  decide

/-- A URI record that is made reads as the URI, and no prefix that matches makes it shorter. -/
theorem uri_made {uri : List UInt8} (h0 : 0 ∉ uri) {cap : ℕ} {r : NdefRecord}
    (h : ndefUriMake uri cap = .ok r) :
    (∀ n, uri.length < n → ndefUriGet r n = .ok uri) ∧
    ∀ p ∈ kPrefix, p <+: uri → r.payload.length ≤ 1+(uri.length-p.length) := by
  unfold ndefUriMake at h
  split at h
  · cases h
  obtain ⟨hchosen,hbest⟩ := choose_longest uri
  generalize choose uri = c at h hchosen hbest
  obtain ⟨code,best⟩ := c
  dsimp only at h hbest
  split at h
  · cases h
  cases h
  obtain ⟨p,hp,rfl,hpre⟩ := hchosen
  dsimp only at hp hbest
  have hcode : code < 36 := by
    rw [← prefixes_few]
    exact (List.getElem?_eq_some_iff.mp hp).1
  have hwhole := List.prefix_iff_eq_append.mp hpre
  have hlen := hpre.length_le
  constructor
  · intro n hn
    have hp0 : 0 ∉ p := fun h => h0 (hpre.subset h)
    have hrest0 : 0 ∉ uri.drop p.length := fun h => h0 (List.mem_of_mem_drop h)
    unfold ndefUriGet
    have htype : (!isType ⟨.wellKnown,kTypeUri,[],UInt8.ofNat code::uri.drop p.length,by decide,
        by decide⟩ kTypeUri || n = 0) = false := by
      have hn0 : decide (n = 0) = false := decide_eq_false (by omega)
      rw [hn0]
      rfl
    rw [htype, if_neg Bool.false_ne_true]
    dsimp only
    rw [UInt8.toNat_ofNat', Nat.mod_eq_of_lt (by omega), hp]
    dsimp only
    rw [copyStr_ok hp0 (by rw [List.length_nil]; omega)]
    show copyStr n ([]++p) (uri.drop p.length) = _
    rw [List.nil_append, copyStr_ok hrest0 (by rw [List.length_drop]; omega), hwhole]
  · intro q hq hqpre
    have := hbest q hq hqpre
    rw [List.length_cons, List.length_drop]
    omega

theorem text_made {lang text : List UInt8} (hlang : 0 ∉ lang) (htext : 0 ∉ text) {cap : ℕ}
    {r : NdefRecord} (h : ndefTextMake lang text cap = .ok r) {m n : ℕ} (hm : lang.length < m)
    (hn : text.length < n) : ndefTextGet r m n = .ok (lang,text) := by
  unfold ndefTextMake at h
  split at h
  · cases h
  rename_i hlen
  dsimp only at h
  split at h
  · cases h
  cases h
  have hmax : textLang.toNat = 63 := rfl
  have hbits : ∀ k < 64, UInt8.ofNat k &&& textUtf16 = 0 ∧ UInt8.ofNat k &&& textReserved = 0 ∧
      (UInt8.ofNat k &&& textLang).toNat = k := by decide
  obtain ⟨hutf,hres,hlow⟩ := hbits lang.length (by omega)
  unfold ndefTextGet
  have htype : (!isType ⟨.wellKnown,kTypeText,[],UInt8.ofNat lang.length::(lang++text),
      by decide,by decide⟩ kTypeText || m = 0 || n = 0) = false := by
    have hm0 : decide (m = 0) = false := decide_eq_false (by omega)
    have hn0 : decide (n = 0) = false := decide_eq_false (by omega)
    rw [hm0, hn0]
    rfl
  rw [htype, if_neg Bool.false_ne_true]
  dsimp only
  rw [hutf, hres, hlow, if_neg (not_not_intro rfl), if_neg fun hc => ?_]
  swap
  · rw [List.length_append] at hc
    rcases hc with hc | hc | hc
    · exact hc rfl
    · omega
    · omega
  rw [List.take_left, List.drop_left, copyStr_ok hlang (by rw [List.length_nil]; omega)]
  show ((copyStr n [] text).bind fun text => .ok ([]++lang,text)) = _
  rw [copyStr_ok htext (by rw [List.length_nil]; omega)]
  rfl

/-- What is made of a URI, or of a text with its language, is read as it was. -/
theorem records_read_back :
    (∀ uri cap r, 0 ∉ uri → ndefUriMake uri cap = .ok r →
      (∀ n, uri.length < n → ndefUriGet r n = .ok uri) ∧
      ∀ p ∈ kPrefix, p <+: uri → r.payload.length ≤ 1+(uri.length-p.length)) ∧
    ∀ lang text cap r, 0 ∉ lang → 0 ∉ text → ndefTextMake lang text cap = .ok r →
      ∀ m n, lang.length < m → text.length < n → ndefTextGet r m n = .ok (lang,text) :=
  ⟨fun _ _ _ h0 h => uri_made h0 h,
    fun _ _ _ _ hlang htext h _ _ hm hn => text_made hlang htext h hm hn⟩

/-- A URI that is nothing but a prefix, and a short text. -/
theorem records_read_back_bare :
    (∃ r, ndefUriMake (ascii "urn:epc:id:") 64 = .ok r ∧ r.payload = [0x1E] ∧
      ndefUriGet r 12 = .ok (ascii "urn:epc:id:")) ∧
    ∃ r, ndefTextMake (ascii "en") (ascii "hi") 64 = .ok r ∧
      ndefTextGet r 3 3 = .ok (ascii "en",ascii "hi") := by
  have hchoose : choose (ascii "urn:epc:id:") = (30,11) := by decide +kernel
  have huri : ndefUriMake (ascii "urn:epc:id:") 64 =
      .ok ⟨.wellKnown,kTypeUri,[],[0x1E],by decide,by decide⟩ := by
    unfold ndefUriMake
    rw [if_neg (by decide), hchoose]
    rfl
  have htext : ndefTextMake (ascii "en") (ascii "hi") 64 =
      .ok ⟨.wellKnown,kTypeText,[],2::(ascii "en"++ascii "hi"),by decide,by decide⟩ := rfl
  exact ⟨⟨_,huri,rfl,(records_read_back.1 _ _ _ (by decide) huri).1 12 (by decide)⟩,
    ⟨_,htext,records_read_back.2 _ _ _ _ (by decide) (by decide) htext 3 3 (by decide)
      (by decide)⟩⟩

end StarkOne.NdefRecords
