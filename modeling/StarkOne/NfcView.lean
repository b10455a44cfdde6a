import StarkOne.DialogPicture
import StarkOne.NdefCodec
import StarkOne.NdefDescribe
import StarkOne.NfcDumpText
import StarkOne.NfcTask

/-!
# The tag view of the NFC app

The rows of the menu for the module's state and the tag in view. The last two
lead to the payloads and to a dump, and stand only below a module that is there.
-/

set_option autoImplicit false

namespace StarkOne.NfcView
open StarkOne.Link StarkOne.Pn532 StarkOne.NfcType2 StarkOne.NfcReader StarkOne.NfcTask
open StarkOne.Ndef StarkOne.NdefRecords StarkOne.NdefDescribe
open StarkOne.DialogPicture (cString)
open StarkOne.NfcDumpText (hexBytes nfcTechName)
open StarkOne.IrRaw (decimal hexadecimal)

def rowsMax : ℕ := 5+ndefMaxRecords+2
def labelSize : ℕ := 40
def valueSize : ℕ := 24

def bytesOf (s : List Char) : List UInt8 := s.map fun c => UInt8.ofNat c.toNat

structure Row where
  label : List UInt8
  value : Option (List UInt8)
  enabled : Bool
  deriving DecidableEq

def starkErrStr : StarkErr → List UInt8
  | .ok => ascii "OK"
  | .invalidArg => ascii "Invalid argument"
  | .noMem => ascii "Out of memory"
  | .timeout => ascii "Timeout"
  | .notFound => ascii "Not found"
  | .notSupported => ascii "Not supported"
  | .busy => ascii "Busy"
  | .io => ascii "I/O error"
  | .state => ascii "Invalid state"
  | .noSpace => ascii "No space"

def uidText (uid : List UInt8) : List UInt8 := bytesOf (hexBytes uid)

def nfcviewWritable (taken : Option StarkNfcRead) : Except (List UInt8) StarkNfcRead :=
  match taken with
  | none => .error (ascii "no tag")
  | some r =>
    if r.tag.pages = 0 ∨ r.ndefCapacity = 0 then .error (ascii "not NDEF")
    else if !r.writable then .error (ascii "read-only")
    else if r.readErr ≠ .ok then .error (ascii "read again")
    else .ok r

def infoRow (label : List UInt8) (value : Option (List UInt8)) : Row := ⟨label,value,false⟩

def valueText (text : List UInt8) : List UInt8 := text.take (valueSize-1)

/-- The line of a record, written to a label that is a buffer of its own. -/
def recordRow (r : NdefRecord) : Row :=
  infoRow (cString (ndefDescribe (some r) (List.replicate labelSize 0) labelSize)) none

def ndefBytes (r : StarkNfcRead) : List UInt8 := (List.range r.ndefLen).map r.ndef

def ndefRows (r : StarkNfcRead) : List Row :=
  if r.ndefPresent && r.ndefLen = 0 then [infoRow (ascii "NDEF: empty") none]
  else if r.ndefPresent then
    match ndefParse (ndefBytes r) with
    | .ok views => views.map fun v => recordRow (v.record (ndefBytes r))
    | .error _ => [infoRow (ascii "NDEF: malformed") none]
  else if r.tag.pages > 0 then [infoRow (ascii "No NDEF") none]
  else []

def tagRows (r : StarkNfcRead) : List Row :=
  let t := r.tag
  [infoRow (bytesOf (nfcTechName t.tech))
      (some (valueText (if r.readErr = .ok then ascii "read" else starkErrStr r.readErr))),
    infoRow (ascii "UID") (some (valueText (uidText t.uid))),
    infoRow (ascii "ATQA/SAK") (some (valueText
      (bytesOf (hexadecimal 4 t.atqa)++ascii "/"++bytesOf (hexadecimal 2 t.sak.toNat)))),
    infoRow (ascii "Size") (some
      (if t.pages > 0 then valueText (bytesOf (decimal t.pages)++ascii " pages") else ascii "-"))]
    ++ndefRows r

structure View where
  rows : List Row
  writeRow : Option ℕ
  saveRow : Option ℕ
  deriving DecidableEq

def writeRow (taken : Option StarkNfcRead) : Row :=
  match nfcviewWritable taken with
  | .ok _ => ⟨ascii "Write URI",none,true⟩
  | .error why => ⟨ascii "Write URI",some why,false⟩

def saveRow (taken : Option StarkNfcRead) : Row :=
  ⟨ascii "Save dump",if taken.isSome then none else some (ascii "no tag"),taken.isSome⟩

def presentRows (taken : Option StarkNfcRead) : List Row :=
  match taken with
  | some r => tagRows r
  | none => [infoRow (ascii "Hold a tag near") none]

def nfcviewItems (module : StarkNfcModule) (taken : Option StarkNfcRead) : View :=
  match module with
  | .ready =>
    let rows := presentRows taken
    ⟨rows++[writeRow taken,saveRow taken],some rows.length,some (rows.length+1)⟩
  | .lost => ⟨[infoRow (ascii "NFC module lost") (some (ascii "retrying"))],none,none⟩
  | .absent => ⟨[infoRow (ascii "No NFC module") (some (ascii "absent"))],none,none⟩
  | .notFitted => ⟨[infoRow (ascii "No NFC module") (some (ascii "not fitted"))],none,none⟩

theorem ndefRows_few (r : StarkNfcRead) : (ndefRows r).length ≤ ndefMaxRecords := by
  have hone : 1 ≤ ndefMaxRecords := by decide
  unfold ndefRows
  split
  · exact hone
  split
  · split
    · rename_i views hviews
      have hfew := (NdefCodec.parseFrom_ok _ 0 0 views (Nat.zero_le _) hviews).few
      rw [List.length_map]
      omega
    · exact hone
  · split
    · exact hone
    · exact Nat.zero_le _

/-- No row is put past the end of the array of rows. -/
theorem nfcviewItems_fits (module : StarkNfcModule) (taken : Option StarkNfcRead) :
    (nfcviewItems module taken).rows.length ≤ rowsMax := by
  have hone : 1 ≤ rowsMax := by decide
  cases module with
  | ready =>
    have hpresent : (presentRows taken).length ≤ 4+ndefMaxRecords := by
      cases taken with
      | none => exact (by decide : 1 ≤ 4+ndefMaxRecords)
      | some r =>
        have hfew := ndefRows_few r
        change (_++ndefRows r).length ≤ _
        rw [List.length_append]
        simpa using hfew
    change (presentRows taken++[writeRow taken,saveRow taken]).length ≤ 5+ndefMaxRecords+2
    rw [List.length_append]
    simp only [List.length_cons, List.length_nil]
    omega
  | lost => exact hone
  | absent => exact hone
  | notFitted => exact hone

end StarkOne.NfcView
