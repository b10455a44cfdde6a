import StarkOne.NfcType2
import StarkOne.Pn532

/-!
# Finding and reading a tag

The drivers of the reader over PN532 commands. A function with an output
buffer returns the buffer also when it fails, as it is left.
-/

set_option autoImplicit false

namespace StarkOne.NfcReader
open StarkOne.Link StarkOne.Pn532 StarkOne.NfcType2

def statusTimeout : UInt8 := 0x01

inductive NfcTech where
  | unknown
  | ntag213
  | ntag215
  | ntag216
  | ultralight
  | type2
  | classicMini
  | classic1k
  | classic4k
  | isoDep
  deriving DecidableEq, Repr

structure NfcTag where
  uid : List UInt8
  atqa : ℕ
  sak : UInt8
  tech : NfcTech
  pages : ℕ
  deriving DecidableEq

def vendorNxp : UInt8 := 0x04
def productUltra : UInt8 := 0x03
def productNtag : UInt8 := 0x04
def atqaUltralight : ℕ := 0x0044

def type2Ident (atqa : ℕ) : Option (List UInt8) → NfcTech
  | none => if atqa = atqaUltralight then .ultralight else .type2
  | some version =>
    if version.getD 1 0 ≠ vendorNxp then .type2
    else if version.getD 2 0 = productUltra then .ultralight
    else if version.getD 2 0 = productNtag then
      if version.getD 6 0 = 0x0F then .ntag213
      else if version.getD 6 0 = 0x11 then .ntag215
      else if version.getD 6 0 = 0x13 then .ntag216
      else .type2
    else .type2

def nfcIdent (atqa : ℕ) (sak : UInt8) (version : Option (List UInt8)) : NfcTech :=
  if sak = 0x00 then type2Ident atqa version
  else if sak = 0x09 then .classicMini
  else if sak = 0x08 ∨ sak = 0x88 then .classic1k
  else if sak = 0x18 then .classic4k
  else if sak &&& 0x20 ≠ 0 then .isoDep else .unknown

def nfcTechPages : NfcTech → ℕ
  | .ntag213 => 45
  | .ntag215 => 135
  | .ntag216 => 231
  | _ => 0

def nfcTechIsType2 : NfcTech → Bool
  | .ntag213 | .ntag215 | .ntag216 | .ultralight | .type2 => true
  | _ => false

/-- The target in a response to InListPassiveTarget: NbTg, Tg, SENS_RES, SEL_RES,
the length of the UID and the UID. -/
def pollTarget (r : List UInt8) : Except Fault (Option NfcTag) :=
  let n := (r.getD 5 0).toNat
  if r.length < 1 ∨ r.getD 0 0 = 0 then .ok none
  else if r.length < 6 ∨ (n ≠ 4 ∧ n ≠ 7 ∧ n ≠ 10) ∨ r.length < 6+n then .error .io
  else .ok (some
    { uid := (r.drop 6).take n
      atqa := (r.getD 2 0).toNat*256+(r.getD 3 0).toNat
      sak := r.getD 4 0
      tech := .unknown
      pages := 0 })

def nfcReaderPoll : Nfc (Option NfcTag) := do
  let r ← pn532Command cmdListPassive [0x01,0x00] 64
  ExceptT.mk (pure (pollTarget r))

def sameTag (expect : NfcTag) : Option NfcTag → Except Fault Unit
  | none => .error .notFound
  | some now => if now.uid = expect.uid then .ok () else .error .state

def nfcReaderReselect (expect : NfcTag) : Nfc Unit := do
  let found ← nfcReaderPoll
  ExceptT.mk (pure (sameTag expect found))

def exchangeStatus (r : List UInt8) : Except Fault (List UInt8) :=
  let status := r.headD 0xFF
  if status ≠ 0 then .error (if status &&& 0x3F = statusTimeout then .notFound else .io)
  else .ok r.tail

def nfcReaderExchange (cmd : List UInt8) (cap : ℕ) : Nfc (List UInt8) :=
  if cmd.length > 6 ∨ cap > 32 then ExceptT.mk (pure (.error .invalidArg))
  else do
    let r ← pn532Command cmdDataExch (0x01::cmd) (cap+1)
    ExceptT.mk (pure (exchangeStatus r))

def nfcReaderRelease : NfcDriver Unit := do
  let _ ← (pn532Command cmdRelease [0x00] 1).run
  pure ()

def whole (out : List UInt8) : Except Fault (List UInt8) :=
  if out.length = 16 then .ok out else .error .io

def readCmd (page : ℕ) : List UInt8 := [t2Read,UInt8.ofNat page]

def read4 (page : ℕ) : Nfc (List UInt8) := do
  let out ← nfcReaderExchange (readCmd page) 16
  ExceptT.mk (pure (whole out))

/-- The data area as far as it has been fetched. -/
structure Area where
  bytes : ℕ → UInt8
  avail : ℕ

def memcpy (dst : ℕ → UInt8) (start : ℕ) (src : List UInt8) (n : ℕ) : ℕ → UInt8 :=
  fun i => if start ≤ i ∧ i < start+n then src.getD (i-start) 0 else dst i

def memmove (dst : ℕ → UInt8) (off len : ℕ) : ℕ → UInt8 :=
  fun i => if i < len then dst (off+i) else dst i

def fill (want total : ℕ) : ℕ → Area → NfcDriver (StarkErr × Area)
  | 0, a => if a.avail < want then .spin else pure (.ok,a)
  | rounds+1, a =>
    if a.avail < want then do
      let r ← (read4 (dataPage+a.avail/4)).run
      match r with
      | .error e => pure (e.code,a)
      | .ok buf =>
        let n := min (total-a.avail) 16
        fill want total rounds ⟨memcpy a.bytes a.avail buf n,a.avail+n⟩
    else pure (.ok,a)

structure StarkNfcRead where
  tag : NfcTag
  readErr : StarkErr
  ndefPresent : Bool
  writable : Bool
  ndefCapacity : ℕ
  ndefLen : ℕ
  ndef : ℕ → UInt8

/-- The loop of `read_type2` over the TLVs; a round that goes on fetches at
least one byte more. -/
def findNdef (total : ℕ) : ℕ → StarkNfcRead → ℕ → NfcDriver (StarkErr × StarkNfcRead)
  | 0, _, _ => .spin
  | rounds+1, out, avail =>
    match nfcT2Tlv out.ndef avail total with
    | .more need => do
      let (err,a) ← fill need total need ⟨out.ndef,avail⟩
      if err ≠ .ok then pure (err,{ out with ndef := a.bytes })
      else findNdef total rounds { out with ndef := a.bytes } a.avail
    | .found off len => do
      let (err,a) ← fill (off+len) total (off+len) ⟨out.ndef,avail⟩
      if err ≠ .ok then pure (err,{ out with ndef := a.bytes })
      else pure (.ok,{ out with
        ndef := memmove a.bytes off len
        ndefLen := len
        ndefPresent := true })
    | .bad => pure (.invalidArg,out)
    | .none => pure (.ok,out)

def ccOf (buf : List UInt8) : NfcT2Cc := nfcT2Cc (fun i => buf.getD i 0)

def withCc (out : StarkNfcRead) (cc : NfcT2Cc) : StarkNfcRead :=
  { out with
    writable := cc.writable
    ndefCapacity := nfcT2NdefCapacity cc.dataBytes
    tag := { out.tag with
      pages := if out.tag.pages = 0 then dataPage+cc.dataBytes/4 else out.tag.pages } }

def readType2 (out : StarkNfcRead) : NfcDriver (StarkErr × StarkNfcRead) := do
  let r ← (read4 3).run
  match r with
  | .error e => pure (e.code,out)
  | .ok buf =>
    let cc := ccOf buf
    if !cc.valid then pure (.ok,out)
    else if cc.dataBytes > nfcNdefMax then pure (.notSupported,withCc out cc)
    else
      let avail := min cc.dataBytes 12
      findNdef cc.dataBytes (cc.dataBytes+1)
        { withCc out cc with ndef := memcpy out.ndef 0 (buf.drop 4) avail } avail

/-- GET_VERSION, for SAK 00 only. A tag that refuses it has gone back to idle
and is selected again. -/
def readVersion (found : NfcTag) : NfcDriver (Option (List UInt8) × StarkErr) :=
  if found.sak = 0x00 then do
    let r ← (nfcReaderExchange [t2Version] 8).run
    match r with
    | .ok version => pure (if version.length = 8 then some version else none,.ok)
    | .error e =>
      if e.code = .io then do
        let again ← (nfcReaderReselect found).run
        pure (none,errOf again)
      else pure (none,e.code)
  else pure (none,.ok)

def identified (found : NfcTag) (version : Option (List UInt8)) (err : StarkErr) : StarkNfcRead :=
  let tech := nfcIdent found.atqa found.sak version
  { tag := { found with tech := tech, pages := nfcTechPages tech }
    readErr := if err = .state then .notFound else err
    ndefPresent := false
    writable := false
    ndefCapacity := 0
    ndefLen := 0
    ndef := fun _ => 0 }

/-- A failed read leaves nothing half-read in the snapshot. -/
def cleared (err : StarkErr) (out : StarkNfcRead) : StarkNfcRead :=
  if err ≠ .ok then
    { out with readErr := err, ndefPresent := false, ndefLen := 0, ndef := fun _ => 0 }
  else { out with readErr := err }

def nfcReaderRead (found : NfcTag) : NfcDriver StarkNfcRead := do
  let (version,err) ← readVersion found
  let out := identified found version err
  let (err,out) ←
    if out.readErr = .ok ∧ nfcTechIsType2 out.tag.tech then readType2 out
    else pure (out.readErr,out)
  nfcReaderRelease
  pure (cleared err out)

theorem trace_exchange (cmd : List UInt8) (cap : ℕ) (hn : cmd.length ≤ 6) (hc : cap ≤ 32)
    (log : List NfcExchange) (b : Except Fault (List UInt8)) :
    Trace (nfcReaderExchange cmd cap).run log b ↔
      ∃ e : NfcExchange, e.request = ⟨cmdDataExch,0x01::cmd,cap+1⟩ ∧ log = [e] ∧
        b = (answer e).bind exchangeStatus := by
  unfold nfcReaderExchange
  rw [if_neg (by omega)]
  exact trace_checked _ _ _ _ _ _

def Selects (expect : NfcTag) (e : NfcExchange) : Prop :=
  e.request = ⟨cmdListPassive,[0x01,0x00],64⟩ ∧
    ∃ r now, answer e = .ok r ∧ pollTarget r = .ok (some now) ∧ now.uid = expect.uid

theorem trace_reselect (expect : NfcTag) (log : List NfcExchange) (b : Except Fault Unit)
    (h : Trace (nfcReaderReselect expect).run log b) :
    ∃ e : NfcExchange, e.request.code = cmdListPassive ∧ log = [e] ∧
      (b = .ok () → Selects expect e) := by
  unfold nfcReaderReselect nfcReaderPoll at h
  rcases (trace_try _ _ _ _).mp h with ⟨err,rfl,hp⟩ | ⟨l₁,l₂,found,rfl,hp,rfl,hs⟩
  · obtain ⟨e,hq,rfl,-⟩ := (trace_checked _ _ _ _ _ _).mp hp
    exact ⟨e,by rw [hq],rfl,fun hb => by cases hb⟩
  obtain ⟨e,hq,rfl,hf⟩ := (trace_checked _ _ _ _ _ _).mp hp
  refine ⟨e,by rw [hq],rfl,fun hb => ⟨hq,?_⟩⟩
  rw [hb] at hs
  cases ha : answer e with
  | error err => rw [ha] at hf; cases hf
  | ok r =>
    rw [ha] at hf
    cases found with
    | none => cases hs
    | some now =>
      refine ⟨r,now,rfl,hf.symm,?_⟩
      by_contra hne
      rw [sameTag, if_neg hne] at hs
      cases hs

def readBytes (e : NfcExchange) : Except Fault (List UInt8) :=
  ((answer e).bind exchangeStatus).bind whole

def readCommand (page : ℕ) : Command := ⟨cmdDataExch,0x01::readCmd page,17⟩

theorem trace_read4 (page : ℕ) (log : List NfcExchange) (b : Except Fault (List UInt8))
    (h : Trace (read4 page).run log b) :
    ∃ e : NfcExchange, e.request = readCommand page ∧ log = [e] ∧ b = readBytes e := by
  unfold read4 at h
  have hx := trace_exchange (readCmd page) 16 (by simp [readCmd]) (by omega)
  rcases (trace_try _ _ _ _).mp h with ⟨err,rfl,hp⟩ | ⟨l₁,l₂,out,rfl,hp,rfl,rfl⟩
  · obtain ⟨e,hq,rfl,hb⟩ := (hx _ _).mp hp
    exact ⟨e,hq,rfl,by rw [readBytes, ← hb]; rfl⟩
  · obtain ⟨e,hq,rfl,hb⟩ := (hx _ _).mp hp
    exact ⟨e,hq,rfl,by rw [readBytes, ← hb]; rfl⟩

theorem trace_release (log : List NfcExchange) (u : Unit) (h : Trace nfcReaderRelease log u) :
    ∃ e : NfcExchange, e.request.code = cmdRelease ∧ log = [e] := by
  unfold nfcReaderRelease at h
  obtain ⟨l₁,l₂,r,rfl,hc,rfl,-⟩ := (trace_bind _ _ _ _).mp h
  obtain ⟨e,hq,rfl,-⟩ := (trace_command _ _ _ _ _).mp hc
  exact ⟨e,by rw [hq],rfl⟩

end StarkOne.NfcReader
