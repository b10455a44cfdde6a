import Mathlib.Data.UInt
import StarkOne.BufferReader
import StarkOne.NfcType2

/-!
# NDEF messages

The parser reports its records as views into the buffer; the encoder takes
records with their bytes. Both check the length rules of the type name format.
-/

set_option autoImplicit false

namespace StarkOne.Ndef
open StarkOne.BufferReader StarkOne.NfcType2

def hdrMb : UInt8 := 0x80
def hdrMe : UInt8 := 0x40
def hdrCf : UInt8 := 0x20
def hdrSr : UInt8 := 0x10
def hdrIl : UInt8 := 0x08
def hdrTnf : UInt8 := 0x07

def ndefMaxRecords : ℕ := 8

inductive NdefTnf where
  | empty
  | wellKnown
  | mime
  | uri
  | external
  | unknown
  | unchanged
  deriving DecidableEq, Repr

def NdefTnf.code : NdefTnf → UInt8
  | .empty => 0
  | .wellKnown => 1
  | .mime => 2
  | .uri => 3
  | .external => 4
  | .unknown => 5
  | .unchanged => 6

def NdefTnf.ofCode (c : UInt8) : Option NdefTnf :=
  [.empty,.wellKnown,.mime,.uri,.external,.unknown,.unchanged][c.toNat]?

structure NdefRecord where
  tnf : NdefTnf
  type : List UInt8
  id : List UInt8
  payload : List UInt8
  typeLen : type.length < 256
  idLen : id.length < 256

/-- A record as the parser reports it: offsets into the buffer, and lengths. -/
structure NdefView where
  tnf : NdefTnf
  type : ℕ
  typeLen : UInt8
  id : ℕ
  idLen : UInt8
  payload : ℕ
  payloadLen : ℕ
  deriving DecidableEq

def slice (buf : List UInt8) (off len : ℕ) : List UInt8 := (buf.drop off).take len

theorem slice_lt (buf : List UInt8) (off : ℕ) (len : UInt8) :
    (slice buf off len.toNat).length < 256 :=
  Nat.lt_of_le_of_lt (List.length_take_le _ _) len.toNat_lt

def NdefView.record (v : NdefView) (buf : List UInt8) : NdefRecord where
  tnf := v.tnf
  type := slice buf v.type v.typeLen.toNat
  id := slice buf v.id v.idLen.toNat
  payload := slice buf v.payload v.payloadLen
  typeLen := slice_lt buf v.type v.typeLen
  idLen := slice_lt buf v.id v.idLen

def lengthsOk (tnf : NdefTnf) (typeLen idLen payloadLen : ℕ) : Bool :=
  match tnf with
  | .empty => typeLen = 0 && idLen = 0 && payloadLen = 0
  | .unknown => typeLen = 0
  | _ => typeLen > 0

def headerTnf (hdr : UInt8) (first : Bool) : Reading Fault NdefTnf :=
  if decide (hdr &&& hdrMb ≠ 0) ≠ first then stop .invalidArg
  else match NdefTnf.ofCode (hdr &&& hdrTnf) with
    | none => stop .invalidArg
    | some tnf =>
      if hdr &&& hdrCf ≠ 0 ∨ tnf = .unchanged then stop .notSupported else .ok tnf

def bigEndian (buf : List UInt8) : ℕ → ℕ → ℕ → Reading Fault ℕ
  | 0, _, acc => .ok acc
  | n+1, pos, acc => (byteAt buf pos).bind fun b => bigEndian buf n (pos+1) (acc*256+b.toNat)

def idField (buf : List UInt8) (hdr : UInt8) (pos : ℕ) : Reading Fault (UInt8 × ℕ) :=
  if hdr &&& hdrIl ≠ 0 then
    if pos = buf.length then stop .invalidArg
    else (byteAt buf pos).bind fun b => .ok (b,pos+1)
  else .ok (0,pos)

def lengthBytes (hdr : UInt8) : ℕ := if hdr &&& hdrSr ≠ 0 then 1 else 4

/-- One record at `pos`, whether it is the last, and where it ends. -/
def parseRecord (buf : List UInt8) (pos count : ℕ) : Reading Fault (NdefView × Bool × ℕ) :=
  (left buf pos).bind fun avail =>
  if avail < 2 then stop .invalidArg else
  (byteAt buf pos).bind fun hdr =>
  (headerTnf hdr (count = 0)).bind fun tnf =>
  (byteAt buf (pos+1)).bind fun typeLen =>
  (left buf (pos+2)).bind fun avail =>
  if avail < lengthBytes hdr then stop .invalidArg else
  (bigEndian buf (lengthBytes hdr) (pos+2) 0).bind fun payloadLen =>
  if nfcNdefMax < payloadLen then stop .invalidArg else
  (idField buf hdr (pos+2+lengthBytes hdr)).bind fun (idLen,body) =>
  (left buf body).bind fun avail =>
  let id := body+typeLen.toNat
  let payload := id+idLen.toNat
  if !lengthsOk tnf typeLen.toNat idLen.toNat payloadLen ||
      avail < typeLen.toNat+idLen.toNat+payloadLen then stop .invalidArg
  else if count = ndefMaxRecords then stop .noSpace
  else .ok (⟨tnf,body,typeLen,id,idLen,payload,payloadLen⟩,decide (hdr &&& hdrMe ≠ 0),
    payload+payloadLen)

def parseFrom (buf : List UInt8) : ℕ → ℕ → ℕ → Reading Fault (List NdefView)
  | 0, _, _ => .error .endless
  | rounds+1, pos, count => (parseRecord buf pos count).bind fun (view,last,pos) =>
    if last then
      if pos = buf.length then .ok [view] else stop .invalidArg
    else (parseFrom buf rounds pos (count+1)).bind fun views => .ok (view::views)

def ndefParse (buf : List UInt8) : Reading Fault (List NdefView) :=
  parseFrom buf (ndefMaxRecords+1) 0 0

def isShort (r : NdefRecord) : Bool := r.payload.length ≤ 255

def need (r : NdefRecord) : ℕ :=
  2+(if isShort r then 1 else 4)+(if r.id.length > 0 then 1 else 0)+r.type.length+r.id.length+
    r.payload.length

def headerByte (tnf : NdefTnf) (first last short ided : Bool) : UInt8 :=
  tnf.code ||| (if first then hdrMb else 0) ||| (if last then hdrMe else 0) |||
    (if short then hdrSr else 0) ||| (if ided then hdrIl else 0)

def lengthField (r : NdefRecord) : List UInt8 :=
  let n := r.payload.length
  if isShort r then [UInt8.ofNat n]
  else [UInt8.ofNat (n >>> 24),UInt8.ofNat (n >>> 16),UInt8.ofNat (n >>> 8),UInt8.ofNat n]

def encodeRecord (first last : Bool) (r : NdefRecord) : List UInt8 :=
  headerByte r.tnf first last (isShort r) (r.id.length > 0)::UInt8.ofNat r.type.length::
    (lengthField r ++ (if r.id.length > 0 then [UInt8.ofNat r.id.length] else []) ++
      r.type ++ r.id ++ r.payload)

def encodable (r : NdefRecord) : Bool :=
  r.tnf ≠ .unchanged && r.payload.length ≤ nfcNdefMax &&
    lengthsOk r.tnf r.type.length r.id.length r.payload.length

def encodeFrom : Bool → ℕ → List NdefRecord → Option (List UInt8)
  | _, _, [] => some []
  | first, room, r::rest =>
    if !encodable r || room < need r then none
    else (encodeFrom false (room-need r) rest).map (encodeRecord first rest.isEmpty r ++ ·)

/-- The bytes written, or none where the call returns 0. -/
def ndefEncode (recs : List NdefRecord) (cap : ℕ) : Option (List UInt8) :=
  if recs.isEmpty || recs.length > ndefMaxRecords then none else encodeFrom true cap recs

end StarkOne.Ndef
