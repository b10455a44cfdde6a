import StarkOne.AsciiWrap
import StarkOne.IrText
import StarkOne.NfcView

/-!
# What a write is confirmed with

The dialog before a write names the tag by its UID, describes the record and
counts its bytes. The text is whole, it is shown whole, and it tells any two
writes apart.
-/

set_option autoImplicit false

namespace StarkOne.NfcOffer
open StarkOne.NfcReader StarkOne.NfcView StarkOne.Ndef StarkOne.NdefRecords StarkOne.NdefDescribe
open StarkOne.Gfx StarkOne.TextWrap StarkOne.UiFrames StarkOne.Utf8Copy StarkOne.DialogPicture
  StarkOne.AsciiWrap
open StarkOne.NfcDumpText (hexBytes hexPairs hexPairs_some)
open StarkOne.IrRaw (decimal)

structure Payload where
  label : List UInt8
  /-- `none` for a URI record. -/
  lang : Option (List UInt8)
  text : List UInt8

def kPayloads : List Payload :=
  [⟨ascii "https://example.com/stark",none,ascii "https://example.com/stark"⟩,
    ⟨ascii "https://example.org/lab",none,ascii "https://example.org/lab"⟩,
    ⟨ascii "Text: STARK ONE lab",some (ascii "en"),ascii "STARK ONE lab"⟩]

def payloadSize : ℕ := 64
def msgSize : ℕ := 96
def whatSize : ℕ := 48
def confirmSize : ℕ := 128

def makeRecord (p : Payload) : Except Fault NdefRecord :=
  match p.lang with
  | none => ndefUriMake p.text payloadSize
  | some lang => ndefTextMake lang p.text payloadSize

structure Ask where
  title : List UInt8
  message : List UInt8
  deriving DecidableEq

def fullMessage (uid what : List UInt8) (len capacity : ℕ) : List UInt8 :=
  uidText uid++ascii ": "++what++ascii " ("++bytesOf (decimal len)++ascii " B of "++
    bytesOf (decimal capacity)++ascii "). Own tags only."

def confirmMessage (uid what : List UInt8) (len capacity : ℕ) : List UInt8 :=
  (fullMessage uid what len capacity).take (confirmSize-1)

/-- The statics of the write: the message in `s_msg`, and `s_tag`. -/
structure Offer where
  msg : List UInt8
  tag : NfcTag
  deriving DecidableEq

/-- The message of a payload is put together before the tag's room for it is known. The line
is written to an array on the stack. -/
def nfcwriteActivate (index : ℕ) (taken : Option StarkNfcRead) (stack : List UInt8) (o : Offer) :
    Offer × Option Ask :=
  match nfcviewWritable taken, kPayloads[index]? with
  | .ok r, some p =>
    match makeRecord p with
    | .error _ => ({ o with msg := [] },none)
    | .ok rec =>
      let msg := (ndefEncode [rec] msgSize).getD []
      if msg.length = 0 ∨ r.ndefCapacity < msg.length then ({ o with msg := msg },none)
      else (⟨msg,r.tag⟩,some ⟨ascii "Write NFC tag?",confirmMessage r.tag.uid
        (cString (ndefDescribe (some rec) stack whatSize)) msg.length r.ndefCapacity⟩)
  | _, _ => (o,none)

def Says (shown : Ask) (uid msg : List UInt8) : Prop :=
  ∃ p ∈ kPayloads, ∃ rec capacity, makeRecord p = .ok rec ∧ ndefEncode [rec] msgSize = some msg ∧
    msg.length ≤ capacity ∧ capacity < 2^16 ∧
    shown = ⟨ascii "Write NFC tag?",fullMessage uid (description rec) msg.length capacity⟩

theorem payload_facts : ∀ p ∈ kPayloads, ∀ rec ∈ (makeRecord p).toOption,
    ((description rec).length ≤ 33 ∧ ∀ b ∈ description rec, b < 0x80 ∧ b ≠ 0x28) ∧
      ∀ msg ∈ ndefEncode [rec] msgSize, 10 ≤ msg.length ∧ msg.length < 100 := by
  decide +kernel

theorem payload_told : ∀ p ∈ kPayloads, ∀ q ∈ kPayloads,
    (makeRecord p).toOption.map description = (makeRecord q).toOption.map description →
      (makeRecord p).toOption.bind (fun rec => ndefEncode [rec] msgSize) =
        (makeRecord q).toOption.bind (fun rec => ndefEncode [rec] msgSize) := by
  decide +kernel

def Letter (b : UInt8) : Prop := b < 0x80 ∧ kind b = 0x41 ∧ b ≠ 0x3A

theorem uid_letters (uid : List UInt8) : ∀ b ∈ uidText uid, Letter b := by
  intro b hb
  obtain ⟨c,hc,rfl⟩ := List.mem_map.mp hb
  obtain ⟨x,-,hx⟩ := List.mem_flatMap.mp hc
  have hall : ∀ n < 16, Letter (UInt8.ofNat (NfcDumpText.hexChar n).toNat) := by
    unfold Letter
    decide
  obtain ⟨hhi,hlo,-⟩ := NfcDumpText.nibbles x
  rcases List.mem_cons.mp hx with rfl | hx
  · exact hall _ hhi
  · exact List.mem_singleton.mp hx ▸ hall _ hlo

theorem decimal_letters (n : ℕ) : ∀ b ∈ bytesOf (decimal n), Letter b := by
  intro b hb
  obtain ⟨c,hc,rfl⟩ := List.mem_map.mp hb
  have hall : ∀ d < 10, Letter (UInt8.ofNat (Nat.digitChar d).toNat) := by
    unfold Letter
    decide
  obtain ⟨d,hd,rfl⟩ := IrText.toDigits_mem (by decide) n c hc
  exact hall d hd

theorem letters_kinds {str : List UInt8} (h : ∀ b ∈ str, Letter b) :
    str.map kind = List.replicate str.length 0x41 :=
  List.map_eq_replicate_iff.mpr fun b hb => (h b hb).2.1

theorem letters_ascii {str : List UInt8} (h : ∀ b ∈ str, Letter b) : Ascii str :=
  fun b hb => (h b hb).1

theorem uidText_length (uid : List UInt8) : (uidText uid).length = 2*uid.length := by
  unfold uidText bytesOf
  rw [List.length_map, NfcDumpText.hexBytes_length]

/-- The lengths of the numbers are all that the shape of a message depends on. -/
def shape (uid : ℕ) (what : List UInt8) (len capacity : ℕ) : List UInt8 :=
  List.replicate uid 0x41++(ascii ": ").map kind++what.map kind++(ascii " (").map kind++
    List.replicate len 0x41++(ascii " B of ").map kind++List.replicate capacity 0x41++
    (ascii "). Own tags only.").map kind

theorem fullMessage_kinds (uid what : List UInt8) (len capacity : ℕ) :
    (fullMessage uid what len capacity).map kind =
      shape (2*uid.length) what (decimal len).length (decimal capacity).length := by
  unfold fullMessage shape
  simp only [List.map_append]
  rw [letters_kinds (uid_letters uid), letters_kinds (decimal_letters len),
    letters_kinds (decimal_letters capacity), uidText_length]
  unfold bytesOf
  rw [List.length_map, List.length_map]

theorem fullMessage_ascii (uid : List UInt8) {what : List UInt8} (h : Ascii what) (len capacity : ℕ) :
    Ascii (fullMessage uid what len capacity) := by
  have htext : ∀ s : String, (ascii s).all (· < 0x80) = true → Ascii (ascii s) := by
    intro s hs b hb
    simpa using List.all_eq_true.mp hs b hb
  refine ascii_append (ascii_append (ascii_append (ascii_append (ascii_append (ascii_append
    (ascii_append (letters_ascii (uid_letters uid)) (htext _ ?_)) h) (htext _ ?_))
    (letters_ascii (decimal_letters len))) (htext _ ?_)) (letters_ascii (decimal_letters capacity)))
    (htext _ ?_)
  all_goals decide

theorem fullMessage_length (uid what : List UInt8) (len capacity : ℕ) :
    (fullMessage uid what len capacity).length =
      2*uid.length+what.length+(decimal len).length+(decimal capacity).length+27 := by
  unfold fullMessage
  simp only [List.length_append]
  rw [uidText_length]
  unfold bytesOf
  rw [List.length_map, List.length_map, show (ascii ": ").length = 2 from rfl,
    show (ascii " (").length = 2 from rfl, show (ascii " B of ").length = 6 from rfl,
    show (ascii "). Own tags only.").length = 17 from rfl]
  omega

def uidLengths : List ℕ := [4,7,10]

theorem shape_lines : ∀ p ∈ kPayloads, ∀ rec ∈ (makeRecord p).toOption, ∀ n ∈ uidLengths,
    ∀ capacity < 6, linesFrom (gfxFontMono16 fun _ => 0) (shape (2*n) (description rec) 2 capacity)
      264 5 0 ≤ 4 := by
  decide +kernel

theorem decimal_length_two {n : ℕ} (hlo : 10 ≤ n) (hhi : n < 100) : (decimal n).length = 2 := by
  have hle : (decimal n).length ≤ 2 := (Nat.length_toDigits_le_iff (by decide) (by decide)).mpr hhi
  have hge : ¬(decimal n).length ≤ 1 := fun h =>
    absurd ((Nat.length_toDigits_le_iff (by decide) (by decide)).mp h) (by omega)
  omega

structure Sized (rec : NdefRecord) (msg : List UInt8) : Prop where
  what : (description rec).length ≤ 33
  ascii : Ascii (description rec)
  open_ : 0x28 ∉ description rec
  low : 10 ≤ msg.length
  high : msg.length < 100

theorem payload_sized {p : Payload} (hp : p ∈ kPayloads) {rec : NdefRecord} {msg : List UInt8}
    (hrec : makeRecord p = .ok rec) (hmsg : ndefEncode [rec] msgSize = some msg) : Sized rec msg := by
  obtain ⟨⟨hshort,hbytes⟩,hlen⟩ := payload_facts p hp rec (by rw [hrec]; rfl)
  obtain ⟨hlow,hhigh⟩ := hlen msg hmsg
  exact ⟨hshort,fun b hb => (hbytes b hb).1,fun hopen => (hbytes _ hopen).2 rfl,hlow,hhigh⟩

theorem nul_free {str : List UInt8} (h : ∀ b ∈ str, Letter b) : 0 ∉ str :=
  fun h0 => absurd (h 0 h0).2.1 (by decide)

theorem fullMessage_no_nul (uid : List UInt8) (rec : NdefRecord) (len capacity : ℕ) :
    ∀ b ∈ fullMessage uid (description rec) len capacity, b ≠ 0 := by
  have htext : ∀ s : String, (ascii s).all (· ≠ 0) = true → 0 ∉ ascii s := by
    intro s hs h0
    simpa using List.all_eq_true.mp hs 0 h0
  intro b hb h0
  subst h0
  unfold fullMessage at hb
  simp only [List.mem_append] at hb
  rcases hb with ((((((hb | hb) | hb) | hb) | hb) | hb) | hb) | hb
  · exact nul_free (uid_letters uid) hb
  · exact htext _ (by decide) hb
  · exact description_no_nul rec hb
  · exact htext _ (by decide) hb
  · exact nul_free (decimal_letters len) hb
  · exact htext _ (by decide) hb
  · exact nul_free (decimal_letters capacity) hb
  · exact htext _ (by decide) hb

section
variable {shown : Ask} {uid msg : List UInt8}

theorem shown_whole {title text : List UInt8} (htitle : ∀ b ∈ title, b ≠ 0) (htext : ∀ b ∈ text, b ≠ 0)
    (ht : title.length < uiDialogTitleMax) (hm : text.length < uiDialogMsgMax)
    (glyphs16 glyphs10 : ℕ → UInt8)
    (hlines : linesFrom (gfxFontMono16 glyphs16) text 264 5 0 ≤ 4) (last : DialogView) (alert : Bool)
    (hlast : last.title.length = uiDialogTitleMax) (hlast' : last.message.length = uiDialogMsgMax) :
    let v := openView glyphs16 glyphs10 last alert title (some text)
    cString v.title = title ∧ cString v.message = text ∧
      ∃ ls, Wrapped (gfxFontMono16 glyphs16) text 264 0 ls ∧ Placed ls.length v.lay := by
  intro v
  have hcopied : cString v.title = title := copy_whole htitle ht (by omega)
  have hcopied' : cString v.message = text := copy_whole htext hm (by omega)
  obtain ⟨ls,n,hwrapped,-,hn,hplaced⟩ := layout_placed glyphs16 glyphs10 (cString v.title)
    (cString v.message)
  rw [hcopied'] at hwrapped
  rw [linesFrom_eq hwrapped] at hlines
  refine ⟨hcopied,hcopied',ls,hwrapped,?_⟩
  rw [show ls.length = n by omega]
  exact hplaced

theorem says_whole (h : Says shown uid msg) (huid : uid.length ∈ uidLengths)
    (glyphs16 glyphs10 : ℕ → UInt8) (last : DialogView) (hlast : last.title.length = uiDialogTitleMax)
    (hlast' : last.message.length = uiDialogMsgMax) :
    let v := openView glyphs16 glyphs10 last false shown.title (some shown.message)
    cString v.title = shown.title ∧ cString v.message = shown.message ∧
      ∃ ls, Wrapped (gfxFontMono16 glyphs16) shown.message 264 0 ls ∧ Placed ls.length v.lay := by
  obtain ⟨p,hp,rec,capacity,hrec,hencoded,-,hcap,rfl⟩ := h
  obtain ⟨hwhat,hascii,-,hlow,hhigh⟩ := payload_sized hp hrec hencoded
  have hdecimal : (decimal capacity).length ≤ 5 := IrText.decimal_length (by omega)
  have hfull := fullMessage_ascii uid hascii msg.length capacity
  have hlen := fullMessage_length uid (description rec) msg.length capacity
  have hkinds := fullMessage_kinds uid (description rec) msg.length capacity
  rw [decimal_length_two hlow hhigh] at hlen hkinds
  have hten : ∀ n ∈ uidLengths, n ≤ 10 := by decide
  have hten := hten _ huid
  have hlines := shape_lines p hp rec (by rw [hrec]; rfl) uid.length huid (decimal capacity).length
    (by omega)
  rw [← hkinds, linesFrom_kinds _ hfull,
    linesFrom_width (f := gfxFontMono16 fun _ => 0) (g := gfxFontMono16 glyphs16) rfl] at hlines
  have hmax : uiDialogMsgMax = 160 := rfl
  have htitle : (∀ b ∈ ascii "Write NFC tag?", b ≠ 0) ∧
      (ascii "Write NFC tag?").length < uiDialogTitleMax := by decide +kernel
  exact shown_whole htitle.1 (fullMessage_no_nul uid rec msg.length capacity) htitle.2 (by omega)
    glyphs16 glyphs10 hlines last false hlast hlast'

theorem cut_eq {c : UInt8} {u v s t : List UInt8} (hu : c ∉ u) (hv : c ∉ v)
    (h : u++c::s = v++c::t) : u = v ∧ s = t := by
  induction u generalizing v with
  | nil =>
    cases v with
    | nil => exact ⟨rfl,(List.cons.inj h).2⟩
    | cons x v => exact absurd ((List.cons.inj h).1 ▸ List.mem_cons_self) hv
  | cons x u ih =>
    cases v with
    | nil => exact absurd ((List.cons.inj h).1 ▸ List.mem_cons_self) hu
    | cons y v =>
      obtain ⟨rfl,hrest⟩ := List.cons.inj h
      obtain ⟨rfl,hst⟩ := ih (fun hc => hu (List.mem_cons_of_mem _ hc))
        (fun hc => hv (List.mem_cons_of_mem _ hc)) hrest
      exact ⟨rfl,hst⟩

theorem bytesOf_back {s : List Char} (h : ∀ c ∈ s, c.toNat < 256) :
    (bytesOf s).map (fun b => Char.ofNat b.toNat) = s := by
  unfold bytesOf
  rw [List.map_map]
  refine (List.map_congr_left fun c hc => ?_).trans (List.map_id s)
  show Char.ofNat (UInt8.ofNat c.toNat).toNat = c
  rw [UInt8.toNat_ofNat', Nat.mod_eq_of_lt (h c hc), Char.ofNat_toNat]

theorem hexBytes_low (uid : List UInt8) : ∀ c ∈ hexBytes uid, c.toNat < 256 := by
  intro c hc
  obtain ⟨x,-,hx⟩ := List.mem_flatMap.mp hc
  have hall : ∀ n < 16, (NfcDumpText.hexChar n).toNat < 256 := by decide
  obtain ⟨hhi,hlo,-⟩ := NfcDumpText.nibbles x
  rcases List.mem_cons.mp hx with rfl | hx
  · exact hall _ hhi
  · exact List.mem_singleton.mp hx ▸ hall _ hlo

theorem uidText_inj {a b : List UInt8} (h : uidText a = uidText b) : a = b := by
  have hchars := congrArg (List.map fun x : UInt8 => Char.ofNat x.toNat) h
  unfold uidText at hchars
  rw [bytesOf_back (hexBytes_low a), bytesOf_back (hexBytes_low b)] at hchars
  exact Option.some.inj (((hexPairs_some _ a).mpr rfl).symm.trans ((hexPairs_some _ b).mpr hchars))

theorem fullMessage_parts (uid what : List UInt8) (len capacity : ℕ) : ∃ rest,
    fullMessage uid what len capacity = uidText uid++0x3A::((0x20::what++[0x20])++0x28::rest) := by
  refine ⟨bytesOf (decimal len)++(ascii " B of "++(bytesOf (decimal capacity)++
    ascii "). Own tags only.")),?_⟩
  unfold fullMessage
  rw [show ascii ": " = [0x3A,0x20] from rfl, show ascii " (" = [0x20,0x28] from rfl]
  simp only [List.append_assoc, List.cons_append, List.nil_append]

theorem says_once {uid' msg' : List UInt8} (h : Says shown uid msg) (h' : Says shown uid' msg') :
    uid = uid' ∧ msg = msg' := by
  obtain ⟨p,hp,rec,capacity,hrec,hencoded,-,-,rfl⟩ := h
  obtain ⟨q,hq,rec',capacity',hrec',hencoded',-,-,hask⟩ := h'
  have hopen := (payload_sized hp hrec hencoded).open_
  have hopen' := (payload_sized hq hrec' hencoded').open_
  have htext := (Ask.mk.inj hask).2
  obtain ⟨rest,hparts⟩ := fullMessage_parts uid (description rec) msg.length capacity
  obtain ⟨rest',hparts'⟩ := fullMessage_parts uid' (description rec') msg'.length capacity'
  rw [hparts, hparts'] at htext
  have hcolon : ∀ id, 0x3A ∉ uidText id := fun id hc => (uid_letters id _ hc).2.2 rfl
  obtain ⟨huid,hwhat⟩ := cut_eq (hcolon uid) (hcolon uid') htext
  have hbracket : ∀ {what : List UInt8}, 0x28 ∉ what → 0x28 ∉ 0x20::what++[0x20] := by
    intro what hwhat
    simpa using hwhat
  obtain ⟨hsame,-⟩ := cut_eq (hbracket hopen) (hbracket hopen') hwhat
  have hsame : description rec = description rec' :=
    List.append_cancel_right (List.cons.inj hsame).2
  have htold := payload_told p hp q hq (by rw [hrec, hrec']; exact congrArg some hsame)
  rw [hrec, hrec'] at htold
  refine ⟨uidText_inj huid,Option.some.inj ?_⟩
  rw [← hencoded, ← hencoded']
  exact htold

end

theorem cString_cut {line tail : List UInt8} (h : 0 ∉ line) : cString (line++0::tail) = line := by
  unfold cString
  have hne : ∀ b ∈ line, decide (b ≠ 0) = true := by
    intro b hb
    refine decide_eq_true fun h0 => h ?_
    rwa [← h0]
  rw [List.takeWhile_append_of_pos hne, List.takeWhile_cons_of_neg (by decide), List.append_nil]

theorem described_whole {rec : NdefRecord} {stack : List UInt8} {n : ℕ} (hn : n ≤ stack.length)
    (hfits : (description rec).length < n) :
    cString (ndefDescribe (some rec) stack n) = description rec := by
  have hended := describe_ended (show 1 ≤ n by omega) hn rec
  unfold ndefDescribe
  rw [if_neg (by omega)]
  dsimp only
  rw [finish_fits hended hfits, hended.out, List.take_of_length_le (by omega)]
  exact cString_cut (description_no_nul rec)

theorem writable_taken {taken : Option StarkNfcRead} {r : StarkNfcRead}
    (h : nfcviewWritable taken = .ok r) : taken = some r := by
  cases taken with
  | none => cases h
  | some t =>
    unfold nfcviewWritable at h
    dsimp only at h
    split_ifs at h
    cases h
    rfl

section
variable {index : ℕ} {taken : Option StarkNfcRead} {stack : List UInt8} {o o' : Offer} {shown : Ask}

/-- A dialog is opened for the tag in view, and says what will be written. -/
theorem offered (h : nfcwriteActivate index taken stack o = (o',some shown))
    (hstack : whatSize ≤ stack.length)
    (htag : ∀ r, taken = some r → r.tag.uid.length ∈ uidLengths ∧ r.ndefCapacity < 2^16) :
    (∃ r, nfcviewWritable taken = .ok r ∧ o'.tag = r.tag) ∧ Says shown o'.tag.uid o'.msg := by
  unfold nfcwriteActivate at h
  split at h
  swap
  · cases h
  rename_i r p hr hp
  have hp := List.mem_of_getElem? hp
  split at h
  · cases h
  rename_i rec hrec
  have hempty : ndefEncode [rec] msgSize ≠ none := by
    intro hnone
    rw [hnone] at h
    cases h
  obtain ⟨msg,hmsg⟩ := Option.ne_none_iff_exists'.mp hempty
  rw [hmsg] at h
  dsimp only [Option.getD_some] at h
  split at h
  · cases h
  rename_i hfits
  cases h
  obtain ⟨huid,hcapacity⟩ := htag r (writable_taken hr)
  have hsized := payload_sized hp hrec hmsg
  have hlen := hsized.what
  have hten : ∀ n ∈ uidLengths, n ≤ 10 := by decide
  have hten := hten _ huid
  have hdecimal : (decimal r.ndefCapacity).length ≤ 5 := IrText.decimal_length (by omega)
  have hfull := fullMessage_length r.tag.uid (description rec) msg.length r.ndefCapacity
  rw [decimal_length_two hsized.low hsized.high] at hfull
  have hroom : msg.length ≤ r.ndefCapacity := Nat.le_of_not_lt fun h => hfits (.inr h)
  have hconfirm : (fullMessage r.tag.uid (description rec) msg.length r.ndefCapacity).length ≤
      confirmSize-1 := by
    show _ ≤ 127
    omega
  refine ⟨⟨r,hr,rfl⟩,p,hp,rec,r.ndefCapacity,hrec,hmsg,hroom,hcapacity,?_⟩
  unfold confirmMessage
  rw [described_whole hstack (show _ < 48 by omega), List.take_of_length_le hconfirm]

end

end StarkOne.NfcOffer
