import StarkOne.NdefRecords
import StarkOne.Utf8

/-!
# A record in one line

The description of a record is put together piece by piece from the bytes of a
tag. What does not fit is cut off at the end of a code point, and three dots
follow. The cut is made in the buffer, when all pieces have been offered.
-/

set_option autoImplicit false

namespace StarkOne.NdefDescribe
open StarkOne.Ndef StarkOne.NdefRecords StarkOne.Utf8

structure Line where
  out : List UInt8
  cap : ℕ
  pos : ℕ
  full : Bool
  deriving DecidableEq, Repr

def shown (c : UInt8) : UInt8 := if c < 0x20 || c = 0x7F then 0x3F else c

def lineLoop (l : Line) : List UInt8 → Line
  | [] => l
  | c::src => if l.full then l
      else if l.cap ≤ l.pos+1 then {l with full := true}
      else lineLoop {l with out := l.out.set l.pos (shown c), pos := l.pos+1} src

def lineBytes (l : Line) (src : List UInt8) : Line :=
  let l := lineLoop l src
  {l with out := l.out.set l.pos 0}

def lineStr (l : Line) (s : List UInt8) : Line := lineBytes l s

def sizeText (n : ℕ) : List UInt8 := ascii " "++ascii (toString n)++ascii " B"

def lineSize (l : Line) (n : ℕ) : Line := lineStr l (sizeText n)

/-- Ends a line that did not fit with dots, back at the end of a code point. -/
def lineFinish (l : Line) : Line :=
  if !l.full || l.cap < 4 then l
  else
    let last := backOff l.out (l.cap-4)
    {l with out := l.out.take last++(ascii "..."++[0])++l.out.drop (last+4)}

def describeText (l : Line) (payload : List UInt8) : Line :=
  let status := payload.headD 0
  let langLen := (status &&& textLang).toNat
  if status &&& textUtf16 ≠ 0 then lineStr l (ascii "Text (UTF-16)")
  else if payload.length = 0 ∨ status &&& textReserved ≠ 0 ∨ langLen = 0 ∨
      payload.length-1 < langLen then lineStr l (ascii "Text (invalid)")
  else lineBytes (lineStr (lineBytes (lineStr l (ascii "Text ")) (payload.tail.take langLen))
    (ascii ": ")) (payload.tail.drop langLen)

def describeUri (l : Line) (payload : List UInt8) : Line :=
  let l := lineStr l (ascii "URI ")
  match payload with
  | [] => lineStr l (ascii "(invalid)")
  | code::rest => match kPrefix[code.toNat]? with
    | none => lineStr l (ascii "(invalid)")
    | some p => lineBytes (lineStr l p) rest

def describeTyped (l : Line) (name : String) (r : NdefRecord) : Line :=
  lineSize (lineBytes (lineStr l (ascii name)) r.type) r.payload.length

def describeRecord (l : Line) (r : NdefRecord) : Line :=
  match r.tnf with
  | .empty => lineStr l (ascii "Empty")
  | .wellKnown =>
    if isType r kTypeUri then describeUri l r.payload
    else if isType r kTypeText then describeText l r.payload
    else describeTyped l "Well-known " r
  | .mime => describeTyped l "MIME " r
  | .uri => lineBytes (lineStr l (ascii "URI ")) r.type
  | .external => describeTyped l "External " r
  | .unknown | .unchanged => lineSize (lineStr l (ascii "Unknown")) r.payload.length

def ndefDescribe (r : Option NdefRecord) (out : List UInt8) (cap : ℕ) : List UInt8 :=
  if cap = 0 then out
  else
    let l : Line := { out := out.set 0 0, cap, pos := 0, full := false }
    match r with
    | none => l.out
    | some r => (lineFinish (describeRecord l r)).out

inductive Piece where
  | text (s : List UInt8)
  | field (src : List UInt8)
  | size (n : ℕ)
  deriving DecidableEq, Repr

def Piece.bytes : Piece → List UInt8
  | .text s => s
  | .field src => src
  | .size n => sizeText n

def uriPieces : List UInt8 → List Piece
  | [] => [.text (ascii "URI "),.text (ascii "(invalid)")]
  | code::rest => match kPrefix[code.toNat]? with
    | none => [.text (ascii "URI "),.text (ascii "(invalid)")]
    | some p => [.text (ascii "URI "),.text p,.field rest]

def textPieces (payload : List UInt8) : List Piece :=
  let status := payload.headD 0
  let langLen := (status &&& textLang).toNat
  if status &&& textUtf16 ≠ 0 then [.text (ascii "Text (UTF-16)")]
  else if payload.length = 0 ∨ status &&& textReserved ≠ 0 ∨ langLen = 0 ∨
      payload.length-1 < langLen then [.text (ascii "Text (invalid)")]
  else [.text (ascii "Text "),.field (payload.tail.take langLen),.text (ascii ": "),
    .field (payload.tail.drop langLen)]

def typedPieces (name : String) (r : NdefRecord) : List Piece :=
  [.text (ascii name),.field r.type,.size r.payload.length]

def pieces (r : NdefRecord) : List Piece :=
  match r.tnf with
  | .empty => [.text (ascii "Empty")]
  | .wellKnown =>
    if isType r kTypeUri then uriPieces r.payload
    else if isType r kTypeText then textPieces r.payload
    else typedPieces "Well-known " r
  | .mime => typedPieces "MIME " r
  | .uri => [.text (ascii "URI "),.field r.type]
  | .external => typedPieces "External " r
  | .unknown | .unchanged => [.text (ascii "Unknown"),.size r.payload.length]

def displayed (r : NdefRecord) : List (List UInt8) :=
  (pieces r).filterMap fun
    | .field src => some src
    | _ => none

def description (r : NdefRecord) : List UInt8 := ((pieces r).flatMap Piece.bytes).map shown

def writePieces (l : Line) (ps : List Piece) : Line := ps.foldl (fun l p => lineBytes l p.bytes) l

theorem describeUri_pieces (l : Line) (payload : List UInt8) :
    describeUri l payload = writePieces l (uriPieces payload) := by
  cases payload with
  | nil => rfl
  | cons code rest =>
    simp only [describeUri, uriPieces]
    cases kPrefix[code.toNat]? <;> rfl

theorem describeText_pieces (l : Line) (payload : List UInt8) :
    describeText l payload = writePieces l (textPieces payload) := by
  simp only [describeText, textPieces]
  split
  · rfl
  split <;> rfl

theorem describeRecord_pieces (l : Line) (r : NdefRecord) :
    describeRecord l r = writePieces l (pieces r) := by
  simp only [describeRecord, pieces]
  cases r.tnf with
  | wellKnown =>
    dsimp only
    by_cases huri : isType r kTypeUri = true
    · simp only [huri, if_true]
      exact describeUri_pieces l r.payload
    by_cases htext : isType r kTypeText = true
    · simp only [huri, htext, if_true]
      exact describeText_pieces l r.payload
    · simp only [huri, htext]
      rfl
  | _ => rfl

structure Filled (dst : List UInt8) (cap : ℕ) (w : List UInt8) (l : Line) : Prop where
  room : l.cap = cap
  pos : l.pos = min w.length (cap-1)
  text : l.out.take l.pos = w.take (cap-1)
  full : l.full = true ↔ cap ≤ w.length
  length : l.out.length = dst.length
  rest : l.out.drop cap = dst.drop cap

section
variable {dst : List UInt8} {cap : ℕ} {w : List UInt8} {l : Line}

theorem Filled.more (h : Filled dst cap w l) (hlong : cap ≤ w.length) (v : List UInt8) :
    Filled dst cap (w++v) l where
  room := h.room
  pos := by
    rw [h.pos, List.length_append]
    omega
  text := by rw [h.text, List.take_append_of_le_length (by omega)]
  full := by
    rw [h.full, List.length_append]
    omega
  length := h.length
  rest := h.rest

theorem Filled.stop (h : Filled dst cap w l) (hcap : 1 ≤ cap) (hlen : w.length+1 = cap) (b : UInt8) :
    Filled dst cap (w++[b]) {l with full := true} where
  room := h.room
  pos := by
    show l.pos = _
    rw [h.pos, List.length_append]
    omega
  text := by
    show l.out.take l.pos = _
    rw [h.text, List.take_append_of_le_length (by omega)]
  full := by
    rw [List.length_append]
    exact iff_of_true rfl hlen.ge
  length := h.length
  rest := h.rest

theorem Filled.put (h : Filled dst cap w l) (hdst : cap ≤ dst.length) (hlen : w.length+1 < cap)
    (b : UInt8) : Filled dst cap (w++[b]) {l with out := l.out.set l.pos b, pos := l.pos+1} := by
  have hpos : l.pos = w.length := h.pos.trans (by omega)
  have hout : l.pos < l.out.length := by
    rw [h.length]
    omega
  have htext : l.out.take l.pos = w := by rw [h.text, List.take_of_length_le (by omega)]
  refine ⟨h.room,?_,?_,?_,?_,?_⟩
  · show l.pos+1 = _
    simp only [List.length_append, List.length_singleton]
    omega
  · show (l.out.set l.pos b).take (l.pos+1) = _
    rw [List.take_add_one, List.take_set_of_le (Nat.le_refl _), htext,
      List.getElem?_set_self hout, List.take_of_length_le (by simp; omega)]
    rfl
  · show l.full = true ↔ _
    rw [h.full, List.length_append, List.length_singleton]
    omega
  · show (l.out.set l.pos b).length = _
    rw [List.length_set, h.length]
  · show (l.out.set l.pos b).drop cap = _
    rw [List.drop_set_of_lt (by omega), h.rest]

theorem lineLoop_filled (hcap : 1 ≤ cap) (hdst : cap ≤ dst.length) (src : List UInt8)
    (h : Filled dst cap w l) : Filled dst cap (w++src.map shown) (lineLoop l src) := by
  induction src generalizing w l with
  | nil => simpa [lineLoop] using h
  | cons c src ih =>
    unfold lineLoop
    by_cases hfull : l.full = true
    · rw [if_pos hfull]
      exact h.more (h.full.mp hfull) _
    have hlen : w.length < cap := by
      rw [h.full] at hfull
      exact Nat.not_le.mp hfull
    have hroom := h.room
    have hpos := h.pos
    rw [if_neg hfull, List.map_cons, List.append_cons]
    by_cases hend : l.cap ≤ l.pos+1
    · rw [if_pos hend]
      refine (h.stop hcap (by omega) (shown c)).more ?_ _
      rw [List.length_append, List.length_singleton]
      omega
    · rw [if_neg hend]
      exact ih (h.put hdst (by omega) (shown c))

structure Ended (dst : List UInt8) (cap : ℕ) (w : List UInt8) (l : Line) : Prop
    extends Filled dst cap w l where
  nul : l.out[l.pos]? = some 0

theorem lineBytes_ended (hcap : 1 ≤ cap) (hdst : cap ≤ dst.length) (h : Filled dst cap w l)
    (src : List UInt8) : Ended dst cap (w++src.map shown) (lineBytes l src) := by
  have hloop := lineLoop_filled hcap hdst src h
  have hpos : (lineLoop l src).pos < cap := by
    have := hloop.pos
    omega
  refine ⟨⟨hloop.room,hloop.pos,?_,hloop.full,?_,?_⟩,?_⟩
  · show ((lineLoop l src).out.set _ 0).take (lineLoop l src).pos = _
    rw [List.take_set_of_le (Nat.le_refl _), hloop.text]
  · show ((lineLoop l src).out.set _ 0).length = _
    rw [List.length_set, hloop.length]
  · show ((lineLoop l src).out.set _ 0).drop cap = _
    rw [List.drop_set_of_lt hpos, hloop.rest]
  · show ((lineLoop l src).out.set _ 0)[(lineLoop l src).pos]? = _
    rw [List.getElem?_set_self (by rw [hloop.length]; omega)]

theorem writePieces_ended (hcap : 1 ≤ cap) (hdst : cap ≤ dst.length) (ps : List Piece)
    (h : Ended dst cap w l) :
    Ended dst cap (w++(ps.flatMap Piece.bytes).map shown) (writePieces l ps) := by
  induction ps generalizing w l with
  | nil => simpa [writePieces] using h
  | cons p ps ih =>
    rw [List.flatMap_cons, List.map_append, ← List.append_assoc]
    exact ih (lineBytes_ended hcap hdst h.toFilled p.bytes)

theorem describe_ended (hcap : 1 ≤ cap) (hdst : cap ≤ dst.length) (r : NdefRecord) :
    Ended dst cap (description r) (describeRecord ⟨dst.set 0 0,cap,0,false⟩ r) := by
  rw [describeRecord_pieces]
  refine writePieces_ended (w := []) hcap hdst (pieces r) ⟨⟨rfl,?_,?_,?_,?_,?_⟩,?_⟩
  · rw [List.length_nil, Nat.zero_min]
  · rw [List.take_zero, List.take_nil]
  · rw [List.length_nil]
    exact iff_of_false Bool.false_ne_true (by omega)
  · rw [List.length_set]
  · rw [List.drop_set_of_lt (by omega)]
  · rw [List.getElem?_set_self (by omega)]

theorem Ended.out (h : Ended dst cap w l) :
    l.out = w.take (cap-1)++0::l.out.drop (l.pos+1) := by
  obtain ⟨hlt,hnul⟩ := List.getElem?_eq_some_iff.mp h.nul
  rw [← h.text, ← hnul, ← List.drop_eq_getElem_cons hlt, List.take_append_drop]

end

theorem shown_high {b : UInt8} (h : 0x80 ≤ b) : shown b = b := by
  unfold shown
  grind

theorem shown_low {b : UInt8} (h : b < 0x80) : shown b < 0x80 := by
  unfold shown
  grind

theorem shown_ne_zero (b : UInt8) : shown b ≠ 0 := by
  unfold shown
  grind

theorem valid_shown {bytes : List UInt8} (h : Valid bytes) : Valid (bytes.map shown) := by
  induction h using Valid.induct with
  | nil => exact valid_nil
  | cons char rest hc hchar hrest ih =>
    rw [List.map_append]
    refine Valid.append ?_ ih
    cases hc with
    | ascii b hb => exact valid_ascii (by simpa using shown_low hb)
    | sequence lead rest hlead hne hconts =>
      have hsame : (lead::rest).map shown = lead::rest := by
        rw [List.map_congr_left (g := id), List.map_id]
        intro b hb
        rcases List.mem_cons.mp hb with rfl | hb
        · exact shown_high (UInt8.le_trans (by decide) hlead)
        · exact shown_high (isCont_high (hconts b hb))
      rwa [hsame]

theorem digits_ascii (n : ℕ) : ∀ b ∈ ascii (toString n), b < 0x80 := by
  intro b hb
  simp only [ascii, Nat.toString_eq_ofList_toDigits, String.toList_ofList] at hb
  obtain ⟨c,hc,rfl⟩ := List.mem_map.mp hb
  have hdigit := Nat.isDigit_of_mem_toDigits (by decide) (by decide) hc
  simp only [Char.isDigit, Bool.and_eq_true, decide_eq_true_eq] at hdigit
  have hle : c.toNat ≤ 57 := UInt32.le_iff_toNat_le.mp hdigit.2
  rw [UInt8.lt_iff_toNat_lt, UInt8.toNat_ofNat']
  exact Nat.lt_of_le_of_lt (Nat.mod_le _ _) (Nat.lt_of_le_of_lt hle (by decide))

theorem size_valid (n : ℕ) : Valid (sizeText n) :=
  ((valid_all (by decide)).append (valid_ascii (digits_ascii n))).append (valid_all (by decide))

theorem prefix_ascii : ∀ p ∈ kPrefix, p.all (· < 0x80) = true := by decide +kernel

def texts : List (List UInt8) :=
  ["URI ","(invalid)","Text (UTF-16)","Text (invalid)","Text ",": ","Well-known ","MIME ","External ",
    "Empty","Unknown"].map ascii

theorem texts_ascii : ∀ s ∈ texts, s.all (· < 0x80) = true := by decide +kernel

theorem uri_texts {payload s : List UInt8} (h : .text s ∈ uriPieces payload) :
    s ∈ texts ∨ s ∈ kPrefix := by
  have hinvalid : Piece.text s ∈ [.text (ascii "URI "),.text (ascii "(invalid)")] → s ∈ texts := by
    simp [texts]
    tauto
  cases payload with
  | nil => exact .inl (hinvalid h)
  | cons code rest =>
    simp only [uriPieces] at h
    cases hp : kPrefix[code.toNat]? with
    | none =>
      rw [hp] at h
      exact .inl (hinvalid h)
    | some p =>
      simp only [hp, List.mem_cons, Piece.text.injEq, List.not_mem_nil, or_false, reduceCtorEq] at h
      rcases h with rfl | rfl
      · exact .inl (by simp [texts])
      · exact .inr (List.mem_of_getElem? hp)

theorem text_texts {payload s : List UInt8} (h : .text s ∈ textPieces payload) : s ∈ texts := by
  simp only [textPieces] at h
  split at h
  · simp at h
    simp [texts, h]
  split at h
  · simp at h
    simp [texts, h]
  · simp at h
    rcases h with rfl | rfl <;> simp [texts]

theorem typed_texts {name : String} (hname : ascii name ∈ texts) {r : NdefRecord} {s : List UInt8}
    (h : .text s ∈ typedPieces name r) : s ∈ texts := by
  simp [typedPieces] at h
  rwa [h]

theorem text_pieces {r : NdefRecord} {s : List UInt8} (h : .text s ∈ pieces r) :
    s ∈ texts ∨ s ∈ kPrefix := by
  unfold pieces at h
  cases htnf : r.tnf with
  | wellKnown =>
    simp only [htnf] at h
    split at h
    · exact uri_texts h
    split at h
    · exact .inl (text_texts h)
    · exact .inl (typed_texts (by simp [texts]) h)
  | mime | external =>
    simp only [htnf] at h
    exact .inl (typed_texts (by simp [texts]) h)
  | empty | uri | unknown | unchanged =>
    simp [htnf] at h
    simp [texts, h]

theorem description_valid {r : NdefRecord} (h : ∀ src ∈ displayed r, Valid src) :
    Valid (description r) := by
  refine valid_shown ?_
  have hpieces : ∀ p ∈ pieces r, Valid p.bytes := by
    intro p hp
    cases p with
    | text s => exact valid_all ((text_pieces hp).elim (texts_ascii s) (prefix_ascii s))
    | field src => exact h src (List.mem_filterMap.mpr ⟨_,hp,rfl⟩)
    | size n => exact size_valid n
  generalize pieces r = ps at hpieces
  induction ps with
  | nil => exact valid_nil
  | cons p ps ih =>
    rw [List.flatMap_cons]
    exact (hpieces p List.mem_cons_self).append (ih fun q hq => hpieces q (List.mem_cons_of_mem _ hq))

theorem description_no_nul (r : NdefRecord) : 0 ∉ description r := by
  intro h
  obtain ⟨b,-,hb⟩ := List.mem_map.mp h
  exact shown_ne_zero b hb

section
variable {dst w : List UInt8} {cap : ℕ} {l : Line}

theorem finish_fits (h : Ended dst cap w l) (hlen : w.length < cap) : lineFinish l = l := by
  have hfull : l.full = false := by
    rw [← Bool.not_eq_true, h.full]
    omega
  unfold lineFinish
  rw [hfull]
  rfl

theorem finish_back (h : Ended dst cap w l) (hcap : 4 ≤ cap) (hlen : cap ≤ w.length) :
    backOff l.out (cap-4) = backOff w (cap-4) := by
  refine backOff_congr fun i hi => ?_
  have hi : i < cap-1 := by omega
  have htext := congrArg (fun bytes => bytes[i]?) h.text
  simp only [h.pos, List.getElem?_take] at htext
  rw [if_pos (by omega), if_pos hi] at htext
  rw [List.getD_eq_getElem?_getD, htext, ← List.getD_eq_getElem?_getD]

theorem finish_cut (h : Ended dst cap w l) (hcap : 4 ≤ cap) (hlen : cap ≤ w.length) :
    (lineFinish l).out = (w.take (backOff w (cap-4))++ascii "...")++
      0::l.out.drop (backOff w (cap-4)+4) := by
  have hback := backOff_le w (cap-4)
  have htake : l.out.take (backOff w (cap-4)) = w.take (backOff w (cap-4)) := by
    have htext := congrArg (List.take (backOff w (cap-4))) h.text
    rwa [List.take_take, List.take_take, Nat.min_eq_left (by rw [h.pos]; omega),
      Nat.min_eq_left (by omega)] at htext
  unfold lineFinish
  rw [if_neg (by simp [h.full.mpr hlen, h.room, hcap])]
  dsimp only
  rw [h.room, finish_back h hcap hlen, htake]
  simp only [List.append_assoc, List.singleton_append]

end

/-- A record is described in full where that fits, and else up to the last end of a code point
that leaves room for the dots. -/
theorem describe_full_or_cut (r : NdefRecord) {cap : ℕ} (hcap : 4 ≤ cap) {dst : List UInt8}
    (hdst : cap ≤ dst.length) : ∃ line tail,
      ndefDescribe (some r) dst cap = line++0::tail ∧ 0 ∉ line ∧ line.length < cap ∧
      (ndefDescribe (some r) dst cap).length = dst.length ∧
      (ndefDescribe (some r) dst cap).drop cap = dst.drop cap ∧
      ((description r).length < cap → line = description r) ∧
      (cap ≤ (description r).length → ∃ k ≤ cap-4,
        line = (description r).take k++ascii "..." ∧
        (Valid (description r) → IsGreatest {m | Whole (description r) m ∧ m ≤ cap-4} k)) ∧
      ((∀ src ∈ displayed r, Valid src) → Valid line) := by
  have hended := describe_ended (by omega) hdst r
  have hout : ndefDescribe (some r) dst cap =
      (lineFinish (describeRecord ⟨dst.set 0 0,cap,0,false⟩ r)).out := by
    unfold ndefDescribe
    rw [if_neg (by omega)]
  generalize describeRecord ⟨dst.set 0 0,cap,0,false⟩ r = l at hended hout
  rw [hout]
  rcases Nat.lt_or_ge (description r).length cap with hlt | hge
  · rw [finish_fits hended hlt]
    have hline := hended.out
    rw [List.take_of_length_le (by omega)] at hline
    exact ⟨description r,_,hline,description_no_nul r,hlt,hended.length,hended.rest,fun _ => rfl,
      fun hc => absurd hc (by omega),description_valid⟩
  · have hback := backOff_le (description r) (cap-4)
    have hlen : ((description r).take (backOff (description r) (cap-4))++ascii "...").length =
        backOff (description r) (cap-4)+3 := by
      rw [List.length_append, List.length_take, Nat.min_eq_left (by omega)]
      rfl
    have hgreatest (h : Valid (description r)) := backOff_greatest h (k := cap-4) (by omega)
    rw [finish_cut hended hcap hge]
    refine ⟨_,_,rfl,?_,by omega,?_,?_,fun hc => absurd hc (by omega),
      fun _ => ⟨_,hback,rfl,hgreatest⟩,fun h => ?_⟩
    · rw [List.mem_append, not_or]
      exact ⟨fun h => description_no_nul r (List.mem_of_mem_take h),by decide⟩
    · rw [List.length_append, List.length_cons, List.length_drop, hlen, hended.length]
      omega
    · obtain ⟨m,hm⟩ := Nat.exists_eq_add_of_le (show backOff (description r) (cap-4)+4 ≤ cap by omega)
      rw [List.drop_append, List.drop_eq_nil_of_le (by omega), List.nil_append, hlen,
        show cap-(backOff (description r) (cap-4)+3) = m+1 by omega, List.drop_succ_cons,
        List.drop_drop, ← hm, hended.rest]
    · exact (hgreatest (description_valid h)).1.1.2.1.append (valid_all (by decide))

/-- The cut would go through a code point, which is left out. -/
theorem describe_full_or_cut_uri :
    (ndefDescribe (some ⟨.uri,encode "Şbcdef".toList,[],[],by decide,by decide⟩)
      (List.replicate 9 0xFF) 9).take 8 = ascii "URI ..."++[0] ∧
    ∃ line tail, ndefDescribe (some ⟨.uri,encode "Şbcdef".toList,[],[],by decide,by decide⟩)
      (List.replicate 9 0xFF) 9 = line++0::tail ∧ line.length < 9 ∧ Valid line := by
  obtain ⟨line,tail,hout,-,hlen,-,-,-,-,hvalid⟩ := @describe_full_or_cut
    ⟨.uri,encode "Şbcdef".toList,[],[],by decide,by decide⟩ 9 (by decide)
    (List.replicate 9 0xFF) (by decide)
  refine ⟨by decide +kernel,line,tail,hout,hlen,hvalid fun src hsrc => ?_⟩
  rw [List.mem_singleton.mp hsrc]
  exact ⟨_,rfl⟩

end StarkOne.NdefDescribe
