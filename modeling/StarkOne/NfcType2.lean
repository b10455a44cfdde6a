import Mathlib.Data.UInt
import StarkOne.StarkErr

/-!
# Type 2 tag memory

The capability container, the walk over the TLV blocks of a data area of which
only a prefix has been fetched, and the padded TLV the writer builds page by
page. Memory behind a pointer is a function of the index; `nfcT2Tlv` looks at
indices below `avail` only.
-/

set_option autoImplicit false

namespace StarkOne.NfcType2

def nfcNdefMax : ℕ := 872
def dataPage : ℕ := 4
def t2Read : UInt8 := 0x30
def t2Write : UInt8 := 0xA2
def t2Version : UInt8 := 0x60

def ccMagic : UInt8 := 0xE1
def tlvNull : UInt8 := 0x00
def tlvNdef : UInt8 := 0x03
def tlvEnd : UInt8 := 0xFE
def tlvLong : UInt8 := 0xFF

structure NfcT2Cc where
  valid : Bool
  writable : Bool
  dataBytes : ℕ
  deriving DecidableEq, Repr

def nfcT2Cc (cc : ℕ → UInt8) : NfcT2Cc :=
  if cc 0 = ccMagic ∧ cc 1 >>> 4 = 1 ∧ cc 2 ≠ 0 ∧ cc 3 &&& 0xF0 = 0 then
    { valid := true, writable := cc 3 &&& 0x0F = 0, dataBytes := (cc 2).toNat*8 }
  else { valid := false, writable := false, dataBytes := 0 }

def nfcT2NdefCapacity (dataBytes : ℕ) : ℕ :=
  if dataBytes < 3 then 0
  else if dataBytes-3 < 0xFF then dataBytes-3 else dataBytes-5

inductive NfcTlv where
  | found (off len : ℕ)
  | none
  | more (need : ℕ)
  | bad
  deriving DecidableEq, Repr

def tlvHeader (area : ℕ → UInt8) (avail total pos : ℕ) : Except NfcTlv (ℕ × ℕ) :=
  if pos+2 > total then .error .bad
  else if pos+2 > avail then .error (.more (pos+2))
  else if area (pos+1) ≠ tlvLong then .ok (2,(area (pos+1)).toNat)
  else if pos+4 > total then .error .bad
  else if pos+4 > avail then .error (.more (pos+4))
  else .ok (4,(area (pos+2)).toNat*256+(area (pos+3)).toNat)

/-- The rounds of the walk from `pos`; each advances, so `total` of them suffice. -/
def tlvWalk (area : ℕ → UInt8) (avail total : ℕ) : ℕ → ℕ → NfcTlv
  | 0, _ => .none
  | rounds+1, pos =>
    if pos ≥ total then .none
    else if pos ≥ avail then .more (pos+1)
    else if area pos = tlvNull then tlvWalk area avail total rounds (pos+1)
    else if area pos = tlvEnd then .none
    else match tlvHeader area avail total pos with
      | .error r => r
      | .ok (hdr,value) =>
        if pos+hdr+value > total then .bad
        else if area pos = tlvNdef then .found (pos+hdr) value
        else tlvWalk area avail total rounds (pos+hdr+value)

def nfcT2Tlv (area : ℕ → UInt8) (avail total : ℕ) : NfcTlv := tlvWalk area avail total total 0

def tlvHdr (len : ℕ) : ℕ := if len < 0xFF then 2 else 4

def nfcT2TlvSize (len : ℕ) : ℕ :=
  if len > 0xFFFE then 0 else (tlvHdr len+len+1+3)/4*4

def tlvByte (msg : List UInt8) (i : ℕ) : UInt8 :=
  let len := msg.length
  let hdr := tlvHdr len
  if i = 0 then tlvNdef
  else if i < hdr then
    if hdr = 2 then UInt8.ofNat len
    else if i = 1 then tlvLong
    else UInt8.ofNat (if i = 2 then len/256 else len)
  else if i < hdr+len then msg.getD (i-hdr) 0
  else if i = hdr+len then tlvEnd else 0

def nfcT2TlvPage (msg : List UInt8) (page : ℕ) : List UInt8 :=
  (List.range 4).map (fun k => tlvByte msg (page*4+k))

/-- What a valid container declares: a whole number of 8-byte units. -/
theorem nfcT2Cc_dataBytes (cc : ℕ → UInt8) (hv : (nfcT2Cc cc).valid = true) :
    ∃ units, 1 ≤ units ∧ units ≤ 255 ∧ (nfcT2Cc cc).dataBytes = 8*units := by
  unfold nfcT2Cc at hv ⊢
  split at hv
  · rename_i h
    rw [if_pos h]
    have hne : (cc 2).toNat ≠ 0 := fun h0 => h.2.2.1 (UInt8.toNat_inj.mp h0)
    have hlt := (cc 2).toNat_lt
    exact ⟨(cc 2).toNat,by omega,by omega,Nat.mul_comm _ _⟩
  · cases hv

theorem nfcT2Cc_congr (a b : ℕ → UInt8) (h : ∀ i < 4, a i = b i) : nfcT2Cc a = nfcT2Cc b := by
  unfold nfcT2Cc
  rw [h 0 (by omega), h 1 (by omega), h 2 (by omega), h 3 (by omega)]

theorem nfcT2TlvSize_mod (len : ℕ) : nfcT2TlvSize len%4 = 0 := by
  unfold nfcT2TlvSize
  split <;> omega

/-- The padded TLV fits the data area just when the message is within the capacity. -/
theorem nfcT2TlvSize_le (len units : ℕ) (hu : 1 ≤ units) (hl : len ≤ 0xFFFE) :
    nfcT2TlvSize len ≤ 8*units ↔ len ≤ nfcT2NdefCapacity (8*units) := by
  have hc : nfcT2NdefCapacity (8*units) = if 8*units < 258 then 8*units-3 else 8*units-5 := by
    unfold nfcT2NdefCapacity
    rw [if_neg (by omega)]
    congr 1
    simp only [eq_iff_iff]
    omega
  unfold nfcT2TlvSize tlvHdr
  rw [if_neg (by omega), hc]
  by_cases hs : len < 0xFF
  · rw [if_pos hs]
    split <;> omega
  · rw [if_neg hs]
    split <;> omega

theorem nfcT2TlvSize_pos (len : ℕ) (hl : len ≤ 0xFFFE) :
    tlvHdr len+len+1 ≤ nfcT2TlvSize len ∧ nfcT2TlvSize len ≤ tlvHdr len+len+4 := by
  unfold nfcT2TlvSize
  rw [if_neg (by omega)]
  omega

theorem tlvHdr_le (len : ℕ) : 2 ≤ tlvHdr len ∧ tlvHdr len ≤ 4 := by
  unfold tlvHdr
  split <;> omega

theorem nfcT2TlvPage_length (msg : List UInt8) (page : ℕ) : (nfcT2TlvPage msg page).length = 4 := by
  simp [nfcT2TlvPage]

theorem nfcT2TlvPage_getD (msg : List UInt8) (page k : ℕ) (hk : k < 4) :
    (nfcT2TlvPage msg page).getD k 0 = tlvByte msg (page*4+k) := by
  simp [nfcT2TlvPage, List.getD, List.getElem?_range hk]

theorem tlvByte_value (msg : List UInt8) (i : ℕ) (hi : i < msg.length) :
    tlvByte msg (tlvHdr msg.length+i) = msg.getD i 0 := by
  have hh := tlvHdr_le msg.length
  unfold tlvByte
  simp only
  rw [if_neg (by omega), if_neg (by omega), if_pos (by omega)]
  congr 1
  omega

theorem toNat_ofNat_lt (n : ℕ) (hn : n < 256) : (UInt8.ofNat n).toNat = n := by
  rw [UInt8.toNat_ofNat']
  exact Nat.mod_eq_of_lt hn

theorem tlvHeader_image (msg : List UInt8) (area : ℕ → UInt8) (avail total : ℕ)
    (hl : msg.length ≤ 0xFFFE) (ha : ∀ i < 4, area i = tlvByte msg i) (havail : 4 ≤ avail)
    (htotal : 4 ≤ total) :
    tlvHeader area avail total 0 = .ok (tlvHdr msg.length,msg.length) := by
  have h₁ := ha 1 (by omega)
  unfold tlvHeader
  rw [if_neg (by omega), if_neg (by omega), Nat.zero_add, h₁]
  by_cases hs : msg.length < 0xFF
  · have hb : tlvByte msg 1 = UInt8.ofNat msg.length := by simp [tlvByte, tlvHdr, hs]
    have hn := toNat_ofNat_lt msg.length (by omega)
    rw [hb, if_pos, hn, tlvHdr, if_pos hs]
    intro hf
    have := congrArg UInt8.toNat hf
    rw [hn] at this
    simp [tlvLong] at this
    omega
  · have hb : tlvByte msg 1 = tlvLong := by simp [tlvByte, tlvHdr, hs]
    have h₂ : area 2 = UInt8.ofNat (msg.length/256) := by
      simp [ha 2, tlvByte, tlvHdr, hs]
    have h₃ : area 3 = UInt8.ofNat msg.length := by simp [ha 3, tlvByte, tlvHdr, hs]
    rw [hb, if_neg (by simp), if_neg (by omega), if_neg (by omega), tlvHdr, if_neg hs, Nat.zero_add,
      Nat.zero_add, h₂, h₃, toNat_ofNat_lt _ (by omega), UInt8.toNat_ofNat']
    congr 2
    omega

theorem nfcT2Tlv_image (msg : List UInt8) (area : ℕ → UInt8) (avail total : ℕ)
    (hl : msg.length ≤ 0xFFFE) (ha : ∀ i < 4, area i = tlvByte msg i) (havail : 4 ≤ avail)
    (hroom : tlvHdr msg.length+msg.length ≤ total) (htotal : 4 ≤ total) :
    nfcT2Tlv area avail total = .found (tlvHdr msg.length) msg.length := by
  obtain ⟨rounds,rfl⟩ := Nat.exists_eq_add_of_lt (show 0 < total by omega)
  have h₀ : area 0 = tlvNdef := ha 0 (by omega)
  rw [nfcT2Tlv, show 0+rounds+1 = rounds+1 by omega, tlvWalk, if_neg (by omega), if_neg (by omega),
    h₀, if_neg (by decide), if_neg (by decide),
    tlvHeader_image msg area avail (rounds+1) hl ha havail (by omega)]
  dsimp only
  rw [if_neg (by omega), if_pos rfl, Nat.zero_add]

def Inside (avail total : ℕ) : NfcTlv → Prop
  | .found off len => off+len ≤ total
  | .more need => avail < need ∧ need ≤ total
  | .none => True
  | .bad => True

theorem tlvHeader_inside (area : ℕ → UInt8) (avail total pos : ℕ) :
    (∃ r, tlvHeader area avail total pos = .error r ∧ Inside avail total r) ∨
    ∃ hdr value, tlvHeader area avail total pos = .ok (hdr,value) ∧ 2 ≤ hdr ∧ pos+hdr ≤ avail := by
  unfold tlvHeader
  by_cases h₁ : pos+2 > total
  · exact Or.inl ⟨_,if_pos h₁,trivial⟩
  rw [if_neg h₁]
  by_cases h₂ : pos+2 > avail
  · exact Or.inl ⟨_,if_pos h₂,h₂,by omega⟩
  rw [if_neg h₂]
  by_cases h₃ : area (pos+1) ≠ tlvLong
  · exact Or.inr ⟨2,_,if_pos h₃,le_refl _,by omega⟩
  rw [if_neg h₃]
  by_cases h₄ : pos+4 > total
  · exact Or.inl ⟨_,if_pos h₄,trivial⟩
  rw [if_neg h₄]
  by_cases h₅ : pos+4 > avail
  · exact Or.inl ⟨_,if_pos h₅,h₅,by omega⟩
  · exact Or.inr ⟨4,_,if_neg h₅,by omega,by omega⟩

theorem tlvWalk_inside (area : ℕ → UInt8) (avail total rounds pos : ℕ) :
    Inside avail total (tlvWalk area avail total rounds pos) := by
  induction rounds generalizing pos with
  | zero => exact trivial
  | succ rounds ih =>
    rw [tlvWalk]
    split
    · exact trivial
    split
    · exact ⟨by omega,by omega⟩
    split
    · exact ih (pos+1)
    split
    · exact trivial
    rcases tlvHeader_inside area avail total pos with ⟨r,h,hr⟩ | ⟨hdr,value,h,-,-⟩
    · rw [h]
      exact hr
    rw [h]
    dsimp only
    split
    · exact trivial
    rename_i hb
    split
    · exact not_lt.mp hb
    · exact ih _

/-- The walk asks for more bytes only within the area, and finds only blocks within it. -/
theorem nfcT2Tlv_inside (area : ℕ → UInt8) (avail total : ℕ) :
    Inside avail total (nfcT2Tlv area avail total) := tlvWalk_inside area avail total total 0

end StarkOne.NfcType2
