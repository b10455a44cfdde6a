import StarkOne.Type2Tag

/-!
# Writing and reading back a message

Against the faithful tag the writer leaves the image of the TLV in the data
area and the rest of the memory as it was. The reader's walk starts at that
image whatever the tag held before, so what it fetches is the message.
-/

set_option autoImplicit false

namespace StarkOne.NfcRoundTrip
open StarkOne.Link StarkOne.Pn532 StarkOne.NfcType2 StarkOne.NfcReader StarkOne.NfcWriter StarkOne.Type2Tag

def written (memory : ℕ → UInt8) (msg : List UInt8) (first count : ℕ) : ℕ → UInt8 :=
  fun a => if 4*(dataPage+first) ≤ a ∧ a < 4*(dataPage+first+count) then tlvByte msg (a-16)
    else memory a

def Holds (memory : ℕ → UInt8) (msg : List UInt8) (n : ℕ) : Prop :=
  ∀ j < n, memory (16+j) = tlvByte msg j

def container (t : Tag) : NfcT2Cc := ccOf (bytesAt t.memory 12 16)

theorem written_holds (memory : ℕ → UInt8) (msg : List UInt8) (count : ℕ) :
    Holds (written memory msg 0 count) msg (4*count) := by
  intro j hj
  unfold written dataPage
  rw [if_pos (by omega)]
  congr 1
  omega

theorem written_container (memory : ℕ → UInt8) (msg : List UInt8) (count : ℕ) (s s' : Bool) :
    container ⟨written memory msg 0 count,s'⟩ = container ⟨memory,s⟩ := by
  unfold container ccOf
  dsimp only
  refine nfcT2Cc_congr _ _ (fun k hk => ?_)
  rw [bytesAt_getD _ _ _ _ (by omega), bytesAt_getD _ _ _ _ (by omega)]
  unfold written dataPage
  rw [if_neg (by omega)]

theorem written_succ (memory : ℕ → UInt8) (msg : List UInt8) (page todo : ℕ) :
    written (memcpy memory (4*(dataPage+page)) (nfcT2TlvPage msg page) 4) msg (page+1) todo =
      written memory msg page (todo+1) := by
  funext a
  unfold written memcpy dataPage
  by_cases h₁ : 4*(4+(page+1)) ≤ a ∧ a < 4*(4+(page+1)+todo)
  · rw [if_pos h₁, if_pos (by omega)]
  rw [if_neg h₁]
  by_cases h₂ : 4*(4+page) ≤ a ∧ a < 4*(4+page)+4
  · rw [if_pos h₂, if_pos (by omega), nfcT2TlvPage_getD _ _ _ (by omega)]
    congr 1
    omega
  · rw [if_neg h₂, if_neg (by omega)]

theorem slice_bytesAt (memory : ℕ → UInt8) (start k : ℕ) (hk : k < 4) :
    ((bytesAt memory start 16).drop (4*k)).take 4 =
      (List.range 4).map (fun j => memory (start+(4*k+j))) := by
  apply List.ext_getElem
  · simp [bytesAt]
    omega
  · intro j h₁ h₂
    simp [bytesAt]

section
variable {i : Identity}

theorem serve_writePages (msg : List UInt8) (todo page pages : ℕ) (t : Tag)
    (hp : dataPage+page+todo ≤ 256) (hs : t.selected = true) :
    serve (present i) t (writePages msg todo page pages) =
      some ((.ok (),pages+todo),{ t with memory := written t.memory msg page todo }) := by
  induction todo generalizing page pages t with
  | zero =>
    have hw : written t.memory msg page 0 = t.memory := by
      funext a
      unfold written
      rw [if_neg (by omega)]
    rw [hw]
    rfl
  | succ todo ih =>
    rw [writePages, serve_bind, serve_write msg page (by omega) hs, Option.bind_some]
    dsimp only
    have hrest := ih (page+1) (pages+1)
      ⟨memcpy t.memory (4*(dataPage+page)) (nfcT2TlvPage msg page) 4,t.selected⟩ (by omega) hs
    rw [hrest, written_succ, Nat.add_assoc pages, Nat.add_comm 1]

theorem serve_readBack (msg : List UInt8) (count rounds page : ℕ) (t : Tag)
    (hm : Holds t.memory msg (4*count)) (hc : dataPage+count ≤ 256) (hr : count ≤ page+rounds)
    (hs : t.selected = true) :
    serve (present i) t (readBack msg count rounds page).run = some (.ok (),t) := by
  induction rounds generalizing page with
  | zero =>
    rw [readBack, if_neg (by omega)]
    rfl
  | succ rounds ih =>
    rw [readBack]
    by_cases hp : page < count
    swap
    · rw [if_neg hp]
      rfl
    have hsame : sameBytes msg (bytesAt t.memory (4*(dataPage+page)) 16) count page = true := by
      rw [sameBytes, List.all_eq_true]
      intro k hk
      have hk4 := List.mem_range.mp hk
      by_cases hge : page+k ≥ count
      · simp [hge]
      have heq : ((bytesAt t.memory (4*(dataPage+page)) 16).drop (4*k)).take 4 =
          nfcT2TlvPage msg (page+k) := by
        rw [slice_bytesAt _ _ _ hk4, nfcT2TlvPage]
        apply List.map_congr_left
        intro j hj
        have hj4 := List.mem_range.mp hj
        rw [show 4*(dataPage+page)+(4*k+j) = 16+((page+k)*4+j) by unfold dataPage; omega]
        exact hm _ (by omega)
      rw [heq]
      simp
    rw [if_pos hp, serve_try _ _ _ _ _ _ (serve_read4 (dataPage+page) (by omega) hs), if_pos hsame]
    exact ih (page+4) (by omega)

theorem serve_grantedPages (expect : NfcTag) (len : ℕ) (t : Tag) (hu : expect.uid = i.uid) :
    serve (present i) t (grantedPages expect len).run =
      some (roomFor (container t) len,{ t with selected := true }) := by
  unfold grantedPages
  rw [serve_try _ _ _ _ _ _ (serve_reselect expect hu),
    serve_try _ _ _ _ _ _ (serve_read4 3 (by omega) rfl)]
  rfl

theorem serve_write_all (expect : NfcTag) (msg : List UInt8) (t : Tag) (hu : expect.uid = i.uid)
    (hv : (container t).valid = true) (hw : (container t).writable = true)
    (hl : msg.length ≤ nfcNdefMax) :
    let count := nfcT2TlvSize msg.length/4
    serve (present i) t (nfcWriterWrite expect msg) =
      if nfcT2TlvSize msg.length ≤ (container t).dataBytes then
        some ((.ok (),count),⟨written t.memory msg 0 count,false⟩)
      else some ((.error .noSpace,0),⟨t.memory,false⟩) := by
  intro count
  unfold nfcNdefMax at hl
  have hsize := nfcT2TlvSize_pos msg.length (by omega)
  have hh := tlvHdr_le msg.length
  have hmod := nfcT2TlvSize_mod msg.length
  unfold nfcWriterWrite writeAll
  rw [serve_bind, serve_bind, serve_grantedPages expect _ t hu, Option.bind_some]
  unfold roomFor
  simp only [hv, hw, Bool.not_true, Bool.or_self, Bool.false_eq_true, if_false]
  by_cases hfit : nfcT2TlvSize msg.length ≤ (container t).dataBytes
  · have hroom : 4*count = nfcT2TlvSize msg.length := by omega
    rw [if_neg (by omega), if_pos hfit]
    dsimp only
    rw [serve_bind, serve_writePages msg count 0 0 _ (by unfold dataPage; omega) rfl,
      Option.bind_some]
    dsimp only
    rw [serve_bind, serve_readBack msg count count 0 _ (written_holds _ _ _)
      (by unfold dataPage; omega) (by omega) rfl, Option.bind_some]
    dsimp only
    rw [serve_pure, Option.bind_some, serve_bind, serve_release, Option.bind_some, Nat.zero_add]
    rfl
  · rw [if_pos (by omega), if_neg hfit]
    dsimp only
    rw [serve_pure, Option.bind_some, serve_bind, serve_release]
    rfl

theorem serve_fill (want total rounds : ℕ) (a : Area) (t : Tag) (hs : t.selected = true)
    (hunits : total%4 = 0) (htotal : total ≤ nfcNdefMax) (hwant : want ≤ total)
    (havail : a.avail ≤ total) (hpage : a.avail%4 = 0) (hr : want ≤ a.avail+rounds)
    (ha : ∀ j < a.avail, a.bytes j = t.memory (16+j)) :
    ∃ b, serve (present i) t (fill want total rounds a) = some ((.ok,b),t) ∧ want ≤ b.avail ∧
      b.avail ≤ total ∧ b.avail%4 = 0 ∧ ∀ j < b.avail, b.bytes j = t.memory (16+j) := by
  unfold nfcNdefMax at htotal
  induction rounds generalizing a with
  | zero =>
    rw [fill, if_neg (by omega)]
    exact ⟨a,rfl,by omega,havail,hpage,ha⟩
  | succ rounds ih =>
    rw [fill]
    by_cases hlt : a.avail < want
    swap
    · rw [if_neg hlt]
      exact ⟨a,rfl,by omega,havail,hpage,ha⟩
    rw [if_pos hlt, serve_bind, serve_read4 (dataPage+a.avail/4) (by unfold dataPage; omega) hs,
      Option.bind_some]
    refine ih _ (by dsimp only; omega) (by dsimp only; omega) (by dsimp only; omega) ?_
    intro j hj
    dsimp only [memcpy] at hj ⊢
    by_cases hnew : a.avail ≤ j
    · rw [if_pos ⟨hnew,by omega⟩, bytesAt_getD _ _ _ _ (by omega)]
      congr 1
      unfold dataPage
      omega
    · rw [if_neg (by omega)]
      exact ha j (by omega)

theorem serve_readVersion (t : Tag) (hs : t.selected = true) :
    ∃ version, serve (present i) t (readVersion (described i)) = some ((version,.ok),t) := by
  unfold readVersion
  rw [if_pos (show (described i).sak = 0x00 from rfl), serve_bind]
  cases hv : i.version with
  | some v =>
    have hlen := i.version_length v (by simp [hv])
    have ht : tagAnswer i t [t2Version] = (0x00::v,t) := by simp [tagAnswer, hv]
    rw [serve_exchange [t2Version] v 8 hs (by simp) (by omega) ht (by omega)]
    exact ⟨some v,by simp [hlen]⟩
  | none =>
    have hp : present i t ⟨cmdDataExch,[0x01,t2Version],9⟩ =
        (fit [i.nak] ⟨cmdDataExch,[0x01,t2Version],9⟩,{ t with selected := false }) := by
      unfold present
      rw [if_neg (by decide : cmdDataExch ≠ cmdListPassive),
        if_neg (by decide : cmdDataExch ≠ cmdRelease), if_pos rfl, if_pos hs]
      simp [tagAnswer, hv]
    have hx := serve_checked _ _ _ _ exchangeStatus hp (by simp)
    have hnak : exchangeStatus [i.nak] = .error .io := by
      simp [exchangeStatus, i.nak_refuses.1, i.nak_refuses.2]
    rw [hnak] at hx
    have hex : serve (present i) t (nfcReaderExchange [t2Version] 8).run =
        some (.error .io,{ t with selected := false }) := hx
    rw [hex, Option.bind_some]
    dsimp only
    rw [if_pos (show Fault.io.code = .io from rfl), serve_bind, serve_reselect (described i) rfl]
    exact ⟨none,by rw [← hs]; rfl⟩

theorem nfcTechIsType2_sak_zero (atqa : ℕ) (version : Option (List UInt8)) :
    nfcTechIsType2 (nfcIdent atqa 0x00 version) = true := by
  unfold nfcIdent
  rw [if_pos rfl]
  unfold type2Ident
  cases version with
  | none =>
    dsimp only
    split <;> rfl
  | some v =>
    dsimp only
    split_ifs <;> rfl

theorem head_bytes (memory dst : ℕ → UInt8) (total : ℕ) : ∀ j < min total 12,
    memcpy dst 0 ((bytesAt memory (4*3) 16).drop 4) (min total 12) j = memory (16+j) := by
  intro j hj
  have hb := bytesAt_getD memory (4*3) 16 (4+j) (by omega)
  unfold memcpy
  rw [if_pos (by omega), List.getD, List.getElem?_drop, Nat.sub_zero]
  rw [List.getD] at hb
  rw [hb]
  congr 1
  omega

def Shows (out : StarkNfcRead) (msg : List UInt8) : Prop :=
  out.ndefPresent = true ∧ out.ndefLen = msg.length ∧ ∀ j < msg.length, out.ndef j = msg.getD j 0

theorem serve_readType2 (msg : List UInt8) (out : StarkNfcRead) (t : Tag) (hs : t.selected = true)
    (hv : (container t).valid = true) (hmax : (container t).dataBytes ≤ nfcNdefMax)
    (hl : msg.length ≤ nfcNdefMax) (hfit : nfcT2TlvSize msg.length ≤ (container t).dataBytes)
    (hm : Holds t.memory msg (nfcT2TlvSize msg.length)) :
    ∃ out', serve (present i) t (readType2 out) = some ((.ok,out'),t) ∧ Shows out' msg := by
  have hsize := nfcT2TlvSize_pos msg.length (by unfold nfcNdefMax at hl; omega)
  have hh := tlvHdr_le msg.length
  have hmod := nfcT2TlvSize_mod msg.length
  obtain ⟨units,hu,-,hdata⟩ := nfcT2Cc_dataBytes _ hv
  rw [show nfcT2Cc _ = container t from rfl] at hdata
  have hbuf : ccOf (bytesAt t.memory (4*3) 16) = container t := rfl
  generalize hcc : container t = cc at *
  have hcopy := head_bytes t.memory out.ndef cc.dataBytes
  have htlv := nfcT2Tlv_image msg
    (memcpy out.ndef 0 ((bytesAt t.memory (4*3) 16).drop 4) (min cc.dataBytes 12))
    (min cc.dataBytes 12) cc.dataBytes (by unfold nfcNdefMax at hl; omega)
    (fun j hj => by rw [hcopy j (by omega), hm j (by omega)]) (by omega) (by omega) (by omega)
  obtain ⟨b,hb,hwant,-,-,hbytes⟩ := serve_fill (i := i) (tlvHdr msg.length+msg.length) cc.dataBytes
    (tlvHdr msg.length+msg.length)
    ⟨memcpy out.ndef 0 ((bytesAt t.memory (4*3) 16).drop 4) (min cc.dataBytes 12),
      min cc.dataBytes 12⟩ t hs (by omega) hmax (by omega) (by dsimp only; omega)
    (by dsimp only; omega) (by dsimp only; omega) hcopy
  unfold readType2
  rw [serve_bind, serve_read4 3 (by omega) hs, Option.bind_some]
  dsimp only
  rw [hbuf, hv, if_neg (by simp), if_neg (by omega), findNdef]
  dsimp only
  rw [htlv]
  dsimp only
  rw [serve_bind, hb, Option.bind_some]
  dsimp only
  rw [if_neg (by simp)]
  refine ⟨_,rfl,rfl,rfl,fun j hj => ?_⟩
  dsimp only [memmove]
  rw [if_pos hj, hbytes _ (by omega), hm _ (by omega), tlvByte_value _ _ hj]

/-- The reader against a tag that holds the image of a message. -/
theorem serve_read (msg : List UInt8) (t : Tag) (hs : t.selected = true)
    (hv : (container t).valid = true) (hmax : (container t).dataBytes ≤ nfcNdefMax)
    (hl : msg.length ≤ nfcNdefMax) (hfit : nfcT2TlvSize msg.length ≤ (container t).dataBytes)
    (hm : Holds t.memory msg (nfcT2TlvSize msg.length)) :
    ∃ out, serve (present i) t (nfcReaderRead (described i)) =
      some (out,{ t with selected := false }) ∧ out.readErr = .ok ∧ Shows out msg := by
  obtain ⟨version,hver⟩ := serve_readVersion (i := i) t hs
  obtain ⟨out,hout,hshow⟩ := serve_readType2 (i := i) msg (identified (described i) version .ok) t
    hs hv hmax hl hfit hm
  have htech : nfcTechIsType2 (identified (described i) version .ok).tag.tech = true :=
    nfcTechIsType2_sak_zero _ _
  unfold nfcReaderRead
  rw [serve_bind, hver, Option.bind_some]
  dsimp only
  rw [if_pos ⟨rfl,htech⟩, serve_bind, hout, Option.bind_some]
  dsimp only
  rw [serve_bind, serve_release, Option.bind_some]
  refine ⟨_,rfl,?_,?_⟩
  · simp [cleared]
  · simpa [cleared, Shows] using hshow

/-- What the writer stores the reader finds: it stores every message within the
capacity of the data area, and refuses every other one without a trace. -/
theorem nfc_write_read (expect : NfcTag) (msg : List UInt8) (t : Tag) (hu : expect.uid = i.uid)
    (hv : (container t).valid = true) (hw : (container t).writable = true)
    (hmax : (container t).dataBytes ≤ nfcNdefMax) (hl : msg.length ≤ nfcNdefMax) :
    ∃ r pages t', serve (present i) t (nfcWriterWrite expect msg) = some ((r,pages),t') ∧
      (r = .ok () ↔ msg.length ≤ nfcT2NdefCapacity (container t).dataBytes) ∧
      (r ≠ .ok () → r = .error .noSpace ∧ t'.memory = t.memory) ∧
      (r = .ok () → ∃ found out t₁ t₂,
        serve (present i) t' nfcReaderPoll.run = some (.ok (some found),t₁) ∧
        serve (present i) t₁ (nfcReaderRead found) = some (out,t₂) ∧
        out.readErr = .ok ∧ Shows out msg) := by
  have hwrite := serve_write_all expect msg t hu hv hw hl
  dsimp only at hwrite
  obtain ⟨units,hunits,-,hdata⟩ := nfcT2Cc_dataBytes _ hv
  rw [show nfcT2Cc _ = container t from rfl] at hdata
  have hcap := nfcT2TlvSize_le msg.length units hunits (by unfold nfcNdefMax at hl; omega)
  rw [← hdata] at hcap
  by_cases hfit : nfcT2TlvSize msg.length ≤ (container t).dataBytes
  · rw [if_pos hfit] at hwrite
    refine ⟨_,_,_,hwrite,⟨fun _ => hcap.mp hfit,fun _ => rfl⟩,fun h => absurd rfl h,fun _ => ?_⟩
    have hcont : ∀ s, container ⟨written t.memory msg 0 (nfcT2TlvSize msg.length/4),s⟩ =
        container t := fun s =>
      written_container t.memory msg _ t.selected s
    have hhold := written_holds t.memory msg (nfcT2TlvSize msg.length/4)
    have hmod := nfcT2TlvSize_mod msg.length
    rw [show 4*(nfcT2TlvSize msg.length/4) = nfcT2TlvSize msg.length by omega] at hhold
    obtain ⟨out,hread,hok,hshow⟩ := serve_read (i := i) msg
      ⟨written t.memory msg 0 (nfcT2TlvSize msg.length/4),true⟩ rfl (by rw [hcont]; exact hv)
      (by rw [hcont]; exact hmax) hl (by rw [hcont]; exact hfit) hhold
    exact ⟨described i,out,_,_,serve_poll,hread,hok,hshow⟩
  · rw [if_neg hfit] at hwrite
    refine ⟨_,_,_,hwrite,⟨fun h => (by cases h),fun h => absurd (hcap.mpr h) hfit⟩,
      fun _ => ⟨rfl,rfl⟩,fun h => by cases h⟩

end

def ultralight : Identity :=
  { uid := [0x04,0xA1,0xB2,0xC3,0xD4,0xE5,0xF6]
    uid_length := by decide
    atqa := atqaUltralight
    atqa_lt := by decide
    version := none
    version_length := by simp
    nak := 0x13
    nak_refuses := by decide }

def blank : Tag :=
  { memory := fun a => if a = 12 then 0xE1 else if a = 13 then 0x10 else if a = 14 then 0x06 else 0
    selected := false }

theorem nfc_write_read_blank : ∃ t' found out t₁ t₂,
    serve (present ultralight) t' nfcReaderPoll.run = some (.ok (some found),t₁) ∧
    serve (present ultralight) t₁ (nfcReaderRead found) = some (out,t₂) ∧
    Shows out [0xD0,0x00,0x00] := by
  obtain ⟨r,pages,t',-,hiff,-,hread⟩ := nfc_write_read (i := ultralight) (described ultralight)
    [0xD0,0x00,0x00] blank rfl (by decide) (by decide) (by decide) (by decide)
  obtain ⟨found,out,t₁,t₂,hp,hr,-,hshow⟩ := hread (hiff.mpr (by decide))
  exact ⟨t',found,out,t₁,t₂,hp,hr,hshow⟩

end StarkOne.NfcRoundTrip
