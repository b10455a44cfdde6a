import StarkOne.Ndef

/-!
# The NDEF parser and encoder against each other

A parsed message is tiled by its records, and the two directions agree on
every record that either of them accepts.
-/

set_option autoImplicit false

namespace StarkOne.NdefCodec
open StarkOne.BufferReader StarkOne.NfcType2 StarkOne.Ndef

/-- From `pos` on, each record is a header, its type, its ID and its payload, and the
next one follows at once. -/
def Tiles (stop : ℕ) : ℕ → List NdefView → Prop
  | pos, [] => pos = stop
  | pos, v::vs => (v.type = pos+3 ∨ v.type = pos+4 ∨ v.type = pos+6 ∨ v.type = pos+7) ∧
      v.id = v.type+v.typeLen.toNat ∧ v.payload = v.id+v.idLen.toNat ∧
      Tiles stop (v.payload+v.payloadLen) vs

/-- What the parser has checked of a record at `pos`. -/
structure Parsed (buf : List UInt8) (pos count : ℕ) (v : NdefView) (stop : ℕ) : Prop where
  room : count ≠ ndefMaxRecords
  tnf : v.tnf ≠ .unchanged
  size : v.payloadLen ≤ nfcNdefMax
  lengths : lengthsOk v.tnf v.typeLen.toNat v.idLen.toNat v.payloadLen = true
  header : v.type = pos+3 ∨ v.type = pos+4 ∨ v.type = pos+6 ∨ v.type = pos+7
  canonical : pos+2+(if v.payloadLen ≤ 255 then 1 else 4)+(if 0 < v.idLen.toNat then 1 else 0) ≤
    v.type
  id : v.id = v.type+v.typeLen.toNat
  payload : v.payload = v.id+v.idLen.toNat
  ends : stop = v.payload+v.payloadLen
  inside : v.payload+v.payloadLen ≤ buf.length

section
variable {buf : List UInt8}

theorem headerTnf_safe (hdr : UInt8) (first : Bool) : Safe (headerTnf hdr first) := by
  unfold headerTnf
  split
  · exact safe_stop _
  · split
    · exact safe_stop _
    · split
      · exact safe_stop _
      · exact safe_ok _

theorem headerTnf_ok {hdr : UInt8} {first : Bool} {tnf : NdefTnf}
    (h : headerTnf hdr first = .ok tnf) : tnf ≠ .unchanged := by
  unfold headerTnf at h
  split at h
  · cases h
  split at h
  · cases h
  split at h
  · cases h
  rename_i hc
  cases h
  exact fun ht => hc (.inr ht)

theorem bigEndian_safe (n : ℕ) : ∀ pos acc, pos+n ≤ buf.length → Safe (bigEndian buf n pos acc) := by
  induction n with
  | zero => exact fun _ _ _ => safe_ok _
  | succ n ih =>
    intro pos acc h
    exact (byteAt_safe (by omega)).bind fun b _ => ih _ _ (by omega)

theorem bigEndian_one {pos n : ℕ} (h : bigEndian buf 1 pos 0 = .ok n) : n ≤ 255 := by
  obtain ⟨b,-,hn⟩ := bind_ok.mp h
  cases hn
  have := b.toNat_lt
  omega

theorem idField_safe (hdr : UInt8) {pos : ℕ} (h : pos ≤ buf.length) :
    Safe (idField buf hdr pos) := by
  unfold idField
  split
  · split
    · exact safe_stop _
    · exact (byteAt_safe (by omega)).bind fun _ _ => safe_ok _
  · exact safe_ok _

theorem idField_ok {hdr : UInt8} {pos : ℕ} (hp : pos ≤ buf.length) {r : UInt8 × ℕ}
    (h : idField buf hdr pos = .ok r) :
    r.2 ≤ buf.length ∧ ((r.1 = 0 ∧ r.2 = pos) ∨ r.2 = pos+1) := by
  unfold idField at h
  split at h
  · split at h
    · cases h
    · obtain ⟨b,hb,hr⟩ := bind_ok.mp h
      cases hr
      exact ⟨byteAt_lt hb,.inr rfl⟩
  · cases h
    exact ⟨hp,.inl ⟨rfl,rfl⟩⟩

theorem parseRecord_safe {pos : ℕ} (count : ℕ) (h : pos ≤ buf.length) :
    Safe (parseRecord buf pos count) := by
  unfold parseRecord
  apply (left_safe h).bind
  intro avail havail
  obtain ⟨-,rfl⟩ := left_ok.mp havail
  split
  · exact safe_stop _
  rename_i h2
  apply (byteAt_safe (by omega)).bind
  intro hdr _
  apply (headerTnf_safe _ _).bind
  intro tnf _
  apply (byteAt_safe (by omega)).bind
  intro typeLen _
  apply (left_safe (by omega)).bind
  intro avail havail
  obtain ⟨-,rfl⟩ := left_ok.mp havail
  split
  · exact safe_stop _
  rename_i hlen
  apply (bigEndian_safe _ _ _ (by omega)).bind
  intro payloadLen _
  split
  · exact safe_stop _
  apply (idField_safe _ (by omega)).bind
  rintro ⟨idLen,body⟩ hid
  have hbody := (idField_ok (by omega) hid).1
  apply (left_safe hbody).bind
  intro avail _
  dsimp only
  split
  · exact safe_stop _
  · split
    · exact safe_stop _
    · exact safe_ok _

theorem parseRecord_ok {pos count stop : ℕ} {v : NdefView} {last : Bool}
    (h : parseRecord buf pos count = .ok (v,last,stop)) : Parsed buf pos count v stop := by
  unfold parseRecord at h
  obtain ⟨avail,havail,h⟩ := bind_ok.mp h
  obtain ⟨hp,rfl⟩ := left_ok.mp havail
  split at h
  · cases h
  rename_i h2
  obtain ⟨hdr,-,h⟩ := bind_ok.mp h
  obtain ⟨tnf,htnf,h⟩ := bind_ok.mp h
  obtain ⟨typeLen,-,h⟩ := bind_ok.mp h
  obtain ⟨avail,havail,h⟩ := bind_ok.mp h
  obtain ⟨-,rfl⟩ := left_ok.mp havail
  split at h
  · cases h
  rename_i hlen
  obtain ⟨payloadLen,hpay,h⟩ := bind_ok.mp h
  split at h
  · cases h
  rename_i hmax
  obtain ⟨⟨idLen,body⟩,hid,h⟩ := bind_ok.mp h
  obtain ⟨hbody,hwhere⟩ := idField_ok (by omega) hid
  obtain ⟨avail,havail,h⟩ := bind_ok.mp h
  obtain ⟨-,rfl⟩ := left_ok.mp havail
  dsimp only at h hbody hwhere
  split at h
  · cases h
  rename_i hc
  split at h
  · cases h
  rename_i hroom
  simp only [Bool.or_eq_true, Bool.not_eq_true', decide_eq_true_eq, not_or, Bool.not_eq_false,
    Nat.not_lt] at hc
  cases h
  have hsize : lengthBytes hdr = 4 ∨ (lengthBytes hdr = 1 ∧ payloadLen ≤ 255) := by
    unfold lengthBytes at hpay ⊢
    split
    · rename_i hs
      rw [if_pos hs] at hpay
      exact .inr ⟨rfl,bigEndian_one hpay⟩
    · exact .inl rfl
  have hzero : idLen = 0 → ¬0 < idLen.toNat := by
    rintro rfl
    decide
  constructor
  · exact hroom
  · exact headerTnf_ok htnf
  · exact Nat.not_lt.mp hmax
  · exact hc.1
  · dsimp only
    omega
  · dsimp only
    rcases hwhere with ⟨h0,rfl⟩ | rfl
    · rw [if_neg (hzero h0)]
      split <;> omega
    · split <;> split <;> omega
  · rfl
  · rfl
  · rfl
  · dsimp only
    omega

theorem slice_length {off len : ℕ} (h : off+len ≤ buf.length) : (slice buf off len).length = len := by
  rw [slice, List.length_take, List.length_drop]
  omega

theorem Parsed.encodable {pos count stop : ℕ} {v : NdefView} (h : Parsed buf pos count v stop) :
    encodable (v.record buf) = true ∧ pos+need (v.record buf) ≤ stop := by
  obtain ⟨-,htnf,hsize,hlen,-,hcan,hid,hpay,hend,hin⟩ := h
  have ht : (v.record buf).type.length = v.typeLen.toNat := slice_length (by omega)
  have hi : (v.record buf).id.length = v.idLen.toNat := slice_length (by omega)
  have hp : (v.record buf).payload.length = v.payloadLen := slice_length (by omega)
  constructor
  · unfold Ndef.encodable
    rw [ht, hi, hp]
    have hne : (v.record buf).tnf ≠ .unchanged := htnf
    simp only [hne, ne_eq, not_false_eq_true, decide_true, Bool.true_and, Bool.and_eq_true,
      decide_eq_true_eq]
    exact ⟨hsize,hlen⟩
  · unfold need isShort
    rw [ht, hi, hp]
    simp only [decide_eq_true_eq, gt_iff_lt]
    omega

theorem parseFrom_safe (rounds : ℕ) : ∀ pos count, rounds+count = ndefMaxRecords+1 →
    count ≤ ndefMaxRecords → pos ≤ buf.length → Safe (parseFrom buf rounds pos count) := by
  induction rounds with
  | zero =>
    intro pos count hr hc
    omega
  | succ rounds ih =>
    intro pos count hr hc hp
    apply (parseRecord_safe count hp).bind
    rintro ⟨v,last,stop⟩ h
    have hv := parseRecord_ok h
    dsimp only
    split
    · split
      · exact safe_ok _
      · exact safe_stop _
    · have hroom := hv.room
      have hin := hv.inside
      exact (ih _ _ (by omega) (by omega) (by rw [hv.ends]; exact hin)).bind fun _ _ => safe_ok _

structure Message (buf : List UInt8) (pos count : ℕ) (views : List NdefView) : Prop where
  tiles : Tiles buf.length pos views
  nonempty : views ≠ []
  few : count+views.length ≤ ndefMaxRecords
  encodable : ∀ v ∈ views, Ndef.encodable (v.record buf) = true
  needs : pos+(views.map fun v => need (v.record buf)).sum ≤ buf.length

theorem parseFrom_ok (rounds : ℕ) : ∀ pos count views, count ≤ ndefMaxRecords →
    parseFrom buf rounds pos count = .ok views → Message buf pos count views := by
  induction rounds with
  | zero =>
    intro pos count views _ h
    cases h
  | succ rounds ih =>
    intro pos count views hc h
    obtain ⟨⟨v,last,stop⟩,hv,h⟩ := bind_ok.mp h
    have hp := parseRecord_ok hv
    obtain ⟨henc,hneed⟩ := hp.encodable
    have hroom := hp.room
    dsimp only at h
    split at h
    · split at h
      · rename_i hend
        cases h
        refine ⟨⟨hp.header,hp.id,hp.payload,hp.ends.symm.trans hend⟩,by simp,?_,?_,?_⟩
        · rw [List.length_singleton]
          omega
        · intro w hw
          rw [List.mem_singleton.mp hw]
          exact henc
        · simp only [List.map_cons, List.map_nil, List.sum_cons, List.sum_nil]
          omega
      · cases h
    · obtain ⟨views,hviews,h⟩ := bind_ok.mp h
      cases h
      have hrest := ih _ _ _ (by omega) hviews
      refine ⟨⟨hp.header,hp.id,hp.payload,hp.ends ▸ hrest.tiles⟩,by simp,?_,?_,?_⟩
      · have := hrest.few
        rw [List.length_cons]
        omega
      · intro w hw
        rcases List.mem_cons.mp hw with rfl | hw
        · exact henc
        · exact hrest.encodable w hw
      · have := hrest.needs
        rw [List.map_cons, List.sum_cons]
        omega

end

theorem encodeRecord_length (first last : Bool) (r : NdefRecord) :
    (encodeRecord first last r).length = need r := by
  unfold encodeRecord need lengthField
  cases isShort r <;> by_cases hid : r.id.length > 0 <;> simp [hid] <;> omega

theorem encodeFrom_some (recs : List NdefRecord) : ∀ first room,
    (∀ r ∈ recs, encodable r = true) → (recs.map need).sum ≤ room →
    ∃ out, encodeFrom first room recs = some out := by
  induction recs with
  | nil => exact fun _ _ _ _ => ⟨[],rfl⟩
  | cons r recs ih =>
    intro first room henc hroom
    rw [List.map_cons, List.sum_cons] at hroom
    obtain ⟨out,hout⟩ := ih false (room-need r) (fun r hr => henc r (List.mem_cons_of_mem _ hr))
      (by omega)
    refine ⟨encodeRecord first recs.isEmpty r ++ out,?_⟩
    rw [encodeFrom, if_neg, hout]
    · rfl
    · simp only [henc r List.mem_cons_self, Bool.not_true, Bool.false_or, decide_eq_true_eq]
      omega

theorem headerByte_tnf {tnf : NdefTnf} (ht : tnf ≠ .unchanged) (first last short ided : Bool) :
    headerTnf (headerByte tnf first last short ided) first = .ok tnf := by
  cases tnf <;> first | exact absurd rfl ht | (revert first last short ided; decide)

theorem headerByte_flags (tnf : NdefTnf) (first last short ided : Bool) :
    decide (headerByte tnf first last short ided &&& hdrMe ≠ 0) = last ∧
    lengthBytes (headerByte tnf first last short ided) = (if short then 1 else 4) ∧
    (headerByte tnf first last short ided &&& hdrIl ≠ 0 ↔ ided = true) := by
  cases tnf <;> revert first last short ided <;> decide

section
variable {buf rest : List UInt8} {r : NdefRecord}

theorem toNat_small {n : ℕ} (h : n < 256) : (UInt8.ofNat n).toNat = n := by
  rw [UInt8.toNat_ofNat']
  exact Nat.mod_eq_of_lt h

theorem lengthField_read {pos : ℕ} (hn : r.payload.length ≤ nfcNdefMax)
    (h : buf.drop pos = lengthField r ++ rest) :
    bigEndian buf (if isShort r then 1 else 4) pos 0 = .ok r.payload.length ∧
      buf.drop (pos+if isShort r then 1 else 4) = rest := by
  unfold lengthField at h
  cases hs : isShort r with
  | true =>
    rw [hs] at h
    obtain ⟨hb,hd⟩ := byteAt_drop Fault h
    have hsmall : r.payload.length ≤ 255 := by simpa [isShort] using hs
    refine ⟨?_,hd⟩
    show (byteAt buf pos).bind _ = _
    rw [hb]
    show Except.ok _ = _
    rw [toNat_small (by omega), Nat.zero_mul, Nat.zero_add]
  | false =>
    rw [hs] at h
    obtain ⟨hb0,hd0⟩ := byteAt_drop Fault h
    obtain ⟨hb1,hd1⟩ := byteAt_drop Fault hd0
    obtain ⟨hb2,hd2⟩ := byteAt_drop Fault hd1
    obtain ⟨hb3,hd3⟩ := byteAt_drop Fault hd2
    refine ⟨?_,hd3⟩
    have hmax : r.payload.length ≤ 872 := hn
    simp only [Bool.false_eq_true, if_false, bigEndian, hb0, hb1, hb2, hb3, Except.bind,
      UInt8.toNat_ofNat', Nat.shiftRight_eq_div_pow]
    congr 1
    omega

theorem idField_read {pos : ℕ} {hdr : UInt8}
    (hil : hdr &&& hdrIl ≠ 0 ↔ decide (r.id.length > 0) = true)
    (h : buf.drop pos = (if r.id.length > 0 then [UInt8.ofNat r.id.length] else []) ++ rest) :
    ∃ body, idField buf hdr pos = .ok (UInt8.ofNat r.id.length,body) ∧ buf.drop body = rest ∧
      body = pos+if r.id.length > 0 then 1 else 0 := by
  unfold idField
  by_cases hid : r.id.length > 0
  · rw [if_pos hid] at h
    rw [if_pos (hil.mpr (decide_eq_true hid)), if_pos hid]
    obtain ⟨hb,hd⟩ := byteAt_drop Fault h
    rw [if_neg (Nat.ne_of_lt (byteAt_lt hb)), hb]
    exact ⟨_,rfl,hd,rfl⟩
  · rw [if_neg hid] at h
    rw [if_neg fun hn => hid (of_decide_eq_true (hil.mp hn)), if_neg hid]
    have hzero : r.id.length = 0 := by omega
    rw [hzero]
    exact ⟨pos,rfl,h,rfl⟩

theorem record_ext {a b : NdefRecord} (h1 : a.tnf = b.tnf) (h2 : a.type = b.type)
    (h3 : a.id = b.id) (h4 : a.payload = b.payload) : a = b := by
  obtain ⟨_,_,_,_,_,_⟩ := a
  obtain ⟨_,_,_,_,_,_⟩ := b
  cases h1
  cases h2
  cases h3
  cases h4
  rfl

/-- An encoded record reads back, wherever it stands. -/
theorem parseRecord_encode {pos count : ℕ} {last : Bool} (henc : encodable r = true)
    (hc : count < ndefMaxRecords) (hp : pos ≤ buf.length)
    (h : buf.drop pos = encodeRecord (count = 0) last r ++ rest) :
    ∃ v, parseRecord buf pos count = .ok (v,last,pos+need r) ∧ v.record buf = r ∧
      buf.drop (pos+need r) = rest := by
  have hlen : buf.length-pos = need r+rest.length := by
    rw [← List.length_drop, h, List.length_append, encodeRecord_length]
  unfold Ndef.encodable at henc
  simp only [Bool.and_eq_true, decide_eq_true_eq] at henc
  obtain ⟨⟨htnf,hmax⟩,hlengths⟩ := henc
  have hneed : need r = 2+(if isShort r then 1 else 4)+(if r.id.length > 0 then 1 else 0)+
    r.type.length+r.id.length+r.payload.length := rfl
  obtain ⟨hme,hlb,hil⟩ := headerByte_flags r.tnf (decide (count = 0)) last (isShort r)
    (decide (r.id.length > 0))
  have htn := headerByte_tnf htnf (decide (count = 0)) last (isShort r) (decide (r.id.length > 0))
  simp only [encodeRecord, List.cons_append, List.append_assoc] at h
  obtain ⟨hb0,h1⟩ := byteAt_drop Fault h
  obtain ⟨hb1,h2⟩ := byteAt_drop Fault h1
  generalize headerByte r.tnf (decide (count = 0)) last (isShort r) (decide (r.id.length > 0)) = hdr
    at hme hlb hil htn hb0
  obtain ⟨hbe,h3⟩ := lengthField_read hmax h2
  obtain ⟨body,hidf,h4,hbody⟩ := idField_read hil h3
  have hfit : body+(r.type.length+(r.id.length+(r.payload.length+rest.length))) = buf.length := by
    have := congrArg List.length h4
    simp only [List.length_append, List.length_drop] at this
    omega
  have htl := toNat_small r.typeLen
  have hidl := toNat_small r.idLen
  refine ⟨⟨r.tnf,body,UInt8.ofNat r.type.length,body+r.type.length,UInt8.ofNat r.id.length,
    body+r.type.length+r.id.length,r.payload.length⟩,?_,?_,?_⟩
  · unfold parseRecord
    refine bind_ok.mpr ⟨_,left_ok.mpr ⟨hp,rfl⟩,?_⟩
    rw [if_neg (by omega)]
    refine bind_ok.mpr ⟨_,hb0,bind_ok.mpr ⟨_,htn,bind_ok.mpr ⟨_,hb1,?_⟩⟩⟩
    rw [hlb]
    refine bind_ok.mpr ⟨_,left_ok.mpr ⟨by omega,rfl⟩,?_⟩
    rw [if_neg (by omega)]
    refine bind_ok.mpr ⟨_,hbe,?_⟩
    rw [if_neg (Nat.not_lt.mpr hmax)]
    refine bind_ok.mpr ⟨_,hidf,bind_ok.mpr ⟨_,left_ok.mpr ⟨by omega,rfl⟩,?_⟩⟩
    dsimp only
    rw [htl, hidl, if_neg, if_neg (Nat.ne_of_lt hc), hme]
    · congr 3
      omega
    · simp only [hlengths, Bool.not_true, Bool.false_or, decide_eq_true_eq]
      omega
  · have hslice : ∀ {a b c : List UInt8} {p : ℕ}, buf.drop p = a ++ (b ++ c) →
        slice buf (p+a.length) b.length = b := by
      intro a b c p hd
      rw [slice, ← List.drop_drop, hd, List.drop_left, List.take_left]
    apply record_ext
    · rfl
    · show slice buf body (UInt8.ofNat r.type.length).toNat = _
      rw [htl]
      exact hslice (a := []) h4
    · show slice buf (body+r.type.length) (UInt8.ofNat r.id.length).toNat = _
      rw [hidl]
      exact hslice h4
    · show slice buf (body+r.type.length+r.id.length) r.payload.length = _
      have hd : buf.drop body = (r.type ++ r.id) ++ (r.payload ++ rest) := by
        rw [h4, List.append_assoc]
      have := hslice hd
      rwa [List.length_append, ← Nat.add_assoc] at this
  · have hstop : pos+need r = body+(r.type ++ (r.id ++ r.payload)).length := by
      simp only [List.length_append]
      omega
    have hd : buf.drop body = (r.type ++ (r.id ++ r.payload)) ++ rest := by
      simpa only [List.append_assoc] using h4
    rw [hstop, ← List.drop_drop, hd, List.drop_left]

theorem encodeFrom_parse (recs : List NdefRecord) : ∀ room out pos count rounds,
    recs ≠ [] → count+recs.length ≤ ndefMaxRecords → recs.length ≤ rounds → pos ≤ buf.length →
    encodeFrom (count = 0) room recs = some out → buf.drop pos = out →
    ∃ views, parseFrom buf rounds pos count = .ok views ∧
      views.map (NdefView.record · buf) = recs := by
  induction recs with
  | nil => exact fun _ _ _ _ _ h => absurd rfl h
  | cons r recs ih =>
    intro room out pos count rounds _ hcount hrounds hp henc hdrop
    rw [encodeFrom] at henc
    split at henc
    · cases henc
    rename_i hc
    simp only [Bool.or_eq_true, Bool.not_eq_true', decide_eq_true_eq, not_or,
      Bool.not_eq_false] at hc
    obtain ⟨out',hout,rfl⟩ := Option.map_eq_some_iff.mp henc
    rw [List.length_cons] at hcount hrounds
    obtain ⟨rounds,rfl⟩ : ∃ k, rounds = k+1 := ⟨rounds-1,by omega⟩
    obtain ⟨v,hv,hrec,hd⟩ := parseRecord_encode hc.1 (by omega) hp hdrop
    cases recs with
    | nil =>
      cases hout
      have hend : pos+need r = buf.length := by
        have := congrArg List.length hdrop
        rw [List.length_drop, List.length_append, encodeRecord_length] at this
        simp only [List.length_nil] at this
        omega
      refine ⟨[v],bind_ok.mpr ⟨_,hv,?_⟩,by rw [List.map_singleton, hrec]⟩
      dsimp only [List.isEmpty_nil]
      rw [if_pos rfl, if_pos hend]
    | cons r' recs =>
      have hstop : pos+need r ≤ buf.length := by
        have := congrArg List.length hdrop
        rw [List.length_drop, List.length_append, encodeRecord_length] at this
        omega
      obtain ⟨views,hviews,hrecs⟩ := ih _ _ (pos+need r) (count+1) rounds (by simp) (by omega)
        (by omega) hstop hout hd
      refine ⟨v::views,bind_ok.mpr ⟨_,hv,?_⟩,by rw [List.map_cons, hrec, hrecs]⟩
      dsimp only [List.isEmpty_cons]
      rw [if_neg (by decide)]
      exact bind_ok.mpr ⟨_,hviews,rfl⟩

end

theorem encodeFrom_length (recs : List NdefRecord) : ∀ first room out,
    encodeFrom first room recs = some out → out.length ≤ room := by
  induction recs with
  | nil =>
    intro first room out h
    cases h
    exact Nat.zero_le _
  | cons r recs ih =>
    intro first room out h
    rw [encodeFrom] at h
    split at h
    · cases h
    rename_i hc
    simp only [Bool.or_eq_true, decide_eq_true_eq, not_or] at hc
    obtain ⟨out',hout,rfl⟩ := Option.map_eq_some_iff.mp h
    have := ih _ _ _ hout
    rw [List.length_append, encodeRecord_length]
    omega

theorem encode_parse {recs : List NdefRecord} {cap : ℕ} {out : List UInt8}
    (h : ndefEncode recs cap = some out) : out.length ≤ cap ∧
      ∃ views, ndefParse out = .ok views ∧ views.map (NdefView.record · out) = recs := by
  unfold ndefEncode at h
  split at h
  · cases h
  rename_i hc
  simp only [Bool.or_eq_true, List.isEmpty_iff, decide_eq_true_eq, not_or] at hc
  refine ⟨encodeFrom_length recs _ _ _ h,?_⟩
  exact encodeFrom_parse recs _ out 0 0 _ hc.1 (by omega) (by omega) (Nat.zero_le _) h rfl

theorem parse_message {buf : List UInt8} {views : List NdefView} (h : ndefParse buf = .ok views) :
    Message buf 0 0 views := parseFrom_ok _ 0 0 views (Nat.zero_le _) h

theorem Message.encodes {buf : List UInt8} {views : List NdefView} (h : Message buf 0 0 views)
    {cap : ℕ} (hcap : buf.length ≤ cap) :
    ∃ out, ndefEncode (views.map (NdefView.record · buf)) cap = some out := by
  have hneeds := h.needs
  have hfew := h.few
  obtain ⟨out,hout⟩ := encodeFrom_some (views.map (NdefView.record · buf)) true cap
    (fun r hr => by
      obtain ⟨v,hv,rfl⟩ := List.mem_map.mp hr
      exact h.encodable v hv)
    (by
      rw [List.map_map]
      show (views.map fun v => need (v.record buf)).sum ≤ cap
      omega)
  refine ⟨out,?_⟩
  unfold ndefEncode
  rw [if_neg, hout]
  simp only [Bool.or_eq_true, List.isEmpty_iff, List.map_eq_nil_iff, List.length_map,
    decide_eq_true_eq, not_or]
  exact ⟨h.nonempty,by omega⟩

/-- The parser ends without reading outside the buffer, its records tile the buffer, what
is encoded parses to the same records, and what parses can be encoded again in the same
room, to a message of the same records. -/
theorem ndef_codec :
    (∀ buf : List UInt8, Safe (ndefParse buf)) ∧
    (∀ (buf : List UInt8) (views : List NdefView), ndefParse buf = .ok views →
      Tiles buf.length 0 views) ∧
    (∀ (recs : List NdefRecord) (cap : ℕ) (out : List UInt8), ndefEncode recs cap = some out →
      out.length ≤ cap ∧ ∃ views, ndefParse out = .ok views ∧
        views.map (NdefView.record · out) = recs) ∧
    ∀ (buf : List UInt8) (views : List NdefView), ndefParse buf = .ok views →
      ∀ cap, buf.length ≤ cap → ∃ out,
        ndefEncode (views.map (NdefView.record · buf)) cap = some out ∧
        ∃ views', ndefParse out = .ok views' ∧
          views'.map (NdefView.record · out) = views.map (NdefView.record · buf) := by
  refine ⟨fun buf => parseFrom_safe _ 0 0 rfl (Nat.zero_le _) (Nat.zero_le _),
    fun buf views h => (parse_message h).tiles,fun recs cap out h => encode_parse h,?_⟩
  intro buf views h cap hcap
  obtain ⟨out,hout⟩ := (parse_message h).encodes hcap
  exact ⟨out,hout,(encode_parse hout).2⟩

def pairOfRecords : List NdefRecord :=
  [⟨.wellKnown,[0x55],[0x30],[0x04,0x61,0x2E,0x62],by decide,by decide⟩,
    ⟨.external,[0x78,0x3A,0x79],[0x31],[],by decide,by decide⟩]

theorem ndef_codec_pair : ∃ out views, ndefEncode pairOfRecords 20 = some out ∧
    ndefParse out = .ok views ∧ views.map (NdefView.record · out) = pairOfRecords ∧
    Tiles out.length 0 views ∧
    (ndefEncode (views.map (NdefView.record · out)) out.length).isSome = true := by
  obtain ⟨-,htiles,hback,hagain⟩ := ndef_codec
  obtain ⟨out,hout⟩ := Option.isSome_iff_exists.mp
    (show (ndefEncode pairOfRecords 20).isSome = true by decide +kernel)
  obtain ⟨-,views,hparse,hsame⟩ := hback _ _ _ hout
  obtain ⟨out',hout',-⟩ := hagain out views hparse out.length (Nat.le_refl _)
  exact ⟨out,views,hout,hparse,hsame,htiles out views hparse,Option.isSome_of_eq_some hout'⟩

end StarkOne.NdefCodec
