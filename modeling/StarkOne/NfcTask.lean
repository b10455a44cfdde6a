import StarkOne.Machine
import StarkOne.NfcDumping
import StarkOne.NfcPollMachine

/-!
# The NFC task and its callers

One iteration of the task takes several steps, between which the calls of the
service may come in any order. A step that talks to the reader runs the driver
against a device that answers as it likes. The labels carry the calls, the
time, the answers of an idle reader and what becomes of the device.
-/

set_option autoImplicit false

namespace StarkOne.NfcTask
open StarkOne.Link StarkOne.Pn532 StarkOne.NfcType2 StarkOne.NfcReader StarkOne.NfcWriter
  StarkOne.NfcDumping StarkOne.NfcPollMachine

def nfcUidMax : ℕ := 10

inductive StarkNfcModule where
  | notFitted
  | absent
  | ready
  | lost
  deriving DecidableEq, Repr

inductive StarkNfcEvt where
  | tag
  | left
  | module
  | writeDone
  | writeFailed
  | dumpDone
  | dumpFailed
  deriving DecidableEq, Repr

structure Reader (σ : Type) where
  dev : σ
  log : List NfcExchange
  module : StarkNfcModule
  poll : NfcPoll
  idle : ℕ
  field : Bool
  snap : Option StarkNfcRead
  published : List StarkNfcEvt

section
variable {σ α : Type} (dev : σ → (q : Command) → Reply q × σ)

def drive (r : Reader σ) (d : NfcDriver α) : Option (α × Reader σ) :=
  (serve (recorded dev) (r.dev,r.log) d).map
    (fun p => (p.1,{ r with dev := p.2.1, log := p.2.2 }))

def publish (r : Reader σ) (what : StarkNfcEvt) : Reader σ :=
  { r with published := r.published++[what] }

/-- The field follows `want`; turning it off forgets the tag. -/
def applyField (r : Reader σ) (want : Bool) : Option (Reader σ) :=
  if want = r.field ∨ r.module ≠ .ready then some r
  else (drive dev r (pn532Field want).run).map (fun (err,r) =>
    if errOf err ≠ .ok then r
    else if want then { r with field := want }
    else { r with field := want, poll := nfcPollInit, snap := none })

def release (found : Bool) (r : Reader σ) : Option (Reader σ) :=
  if found then (drive dev r nfcReaderRelease).map Prod.snd else some r

def recover (r : Reader σ) (now : ℕ) : Option (Reader σ) :=
  if !nfcPollRecoverDue r.poll now then some r
  else (drive dev r pn532Detect.run).map (fun (err,r) =>
    let (event,poll) := nfcPollRecovered r.poll (errOf err) now
    if event = .back then
      publish { r with poll := poll, module := .ready, field := false } .module
    else { r with poll := poll })

def isFound : Except Fault (Option NfcTag) → Bool
  | .ok (some _) => true
  | _ => false

def pollOnce (r : Reader σ) (now : ℕ) : Option (Reader σ) :=
  if r.poll.state = .recovering then recover dev r now
  else (drive dev r nfcReaderPoll.run).bind (fun (polled,r) =>
    let (event,poll) := nfcPollResult r.poll polled now
    let r := { r with poll := poll }
    match event with
    | .tag arrived => (drive dev r (nfcReaderRead arrived)).map (fun (snap,r) =>
        publish { r with snap := some snap } .tag)
    | .left => release dev (isFound polled) (publish { r with snap := none } .left)
    | .lost => some (publish { r with snap := none, module := .lost } .module)
    | .none | .back => release dev (isFound polled) r)

/-- No app polls: the reader is followed, its field off. -/
def idleOnce (r : Reader σ) (answered : Bool) : Option (Reader σ) :=
  let (action,idle) := nfcIdleStep r.idle answered (r.module = .ready)
  let r := { r with idle := idle }
  match action with
  | .lost => some (publish { r with module := .lost } .module)
  | .detect => (drive dev r pn532Detect.run).map (fun (err,r) =>
      if errOf err = .ok then
        publish { r with field := false, poll := nfcPollInit, module := .ready } .module
      else r)
  | .none => some r

end

/-- A request as it was accepted, after that many calls of `stark_nfc_stop`. -/
structure WriteRequest where
  tag : NfcTag
  msg : List UInt8
  stops : ℕ

structure DumpRequest where
  out : ℕ
  stops : ℕ

inductive Request where
  | write (r : WriteRequest)
  | dump (r : DumpRequest)

def Request.stops : Request → ℕ
  | .write r => r.stops
  | .dump r => r.stops

inductive Place where
  | asleep
  | field
  | wanted
  | idle
  | write
  | dump
  | writing
  | dumping
  | polling
  deriving DecidableEq, Repr

/-- The current iteration so far: the calls of `stark_nfc_stop` before it, whether
polling was wanted, the requests it carries out and the dump buffers it found. -/
structure Iteration where
  stops : ℕ
  wanted : Bool
  carried : List Request
  buffers : ℕ → NfcDump

structure State (σ : Type) where
  reader : Reader σ
  hasTask : Bool
  wantPoll : Bool
  write : Option WriteRequest
  writeErr : StarkErr
  dump : Option DumpRequest
  dumpErr : StarkErr
  buffers : ℕ → NfcDump
  place : Place
  now : ℕ
  stops : ℕ
  /-- The iteration before polled. -/
  polled : Bool
  iter : Iteration

section
variable {σ : Type}

def wantPoll (s : State σ) (on : Bool) : StarkErr × State σ :=
  if !s.hasTask then (.notSupported,s) else (.ok,{ s with wantPoll := on })

def starkNfcStart (s : State σ) : StarkErr × State σ :=
  if s.reader.module = .notFitted ∨ s.reader.module = .absent then (.notSupported,s)
  else wantPoll s true

def starkNfcStop (s : State σ) : StarkErr × State σ :=
  let (err,s) := wantPoll s false
  (err,if err = .ok then { s with stops := s.stops+1 } else s)

/-- A pointer that is NULL is `none`; `len` bytes are read at `msg`. -/
def starkNfcWriteNdef (s : State σ) (uid msg : Option (List UInt8)) (len : ℕ) :
    StarkErr × State σ :=
  match uid with
  | none => (.invalidArg,s)
  | some uid =>
    if uid.length = 0 ∨ uid.length > nfcUidMax ∨ (len > 0 ∧ msg = none) ∨ len > nfcNdefMax then
      (.invalidArg,s)
    else if !s.hasTask || !s.wantPoll then (.state,s)
    else if s.write.isSome then (.busy,s)
    else
      let tag : NfcTag := { uid := uid, atqa := 0, sak := 0, tech := .unknown, pages := 0 }
      (.ok,{ s with write := some ⟨tag,(msg.getD []).take len,s.stops⟩ })

def starkNfcRequestDump (s : State σ) (out : Option ℕ) : StarkErr × State σ :=
  match out with
  | none => (.invalidArg,s)
  | some out =>
    if !s.hasTask || !s.wantPoll then (.state,s)
    else if s.dump.isSome || s.write.isSome then (.busy,s)
    else (.ok,{ s with dump := some ⟨out,s.stops⟩ })

def ready (r : Reader σ) : Bool := r.field && r.poll.state ≠ .recovering

def wake (s : State σ) : State σ :=
  { s with
    reader := { s.reader with log := [] }
    iter := ⟨s.stops,s.wantPoll,[],s.buffers⟩
    place := .field }

def branch (s : State σ) (now : ℕ) : State σ :=
  if s.wantPoll then { s with now := u32 now, polled := true, place := .write }
  else
    let poll := if s.reader.poll.state = .recovering then nfcPollInit else s.reader.poll
    let field := s.reader.field && s.reader.module = .ready
    { s with
      reader := { s.reader with poll := poll, field := field }
      polled := false
      place := if field then .asleep else .idle }

def chooseWrite (s : State σ) : State σ :=
  match s.write with
  | some w =>
    if ready s.reader then
      { s with place := .writing, iter := { s.iter with carried := s.iter.carried++[.write w] } }
    else { s with place := .dump }
  | none => { s with place := .dump }

def chooseDump (s : State σ) : State σ :=
  match s.dump with
  | some d =>
    if ready s.reader then
      { s with place := .dumping, iter := { s.iter with carried := s.iter.carried++[.dump d] } }
    else { s with place := .polling }
  | none => { s with place := .polling }

variable (dev : σ → (q : Command) → Reply q × σ)

def writeOnce (s : State σ) (w : WriteRequest) : Option (State σ) :=
  (drive dev s.reader (nfcWriterWrite w.tag w.msg)).map (fun (out,r) =>
    { s with
      reader := { publish r (if errOf out.1 = .ok then .writeDone else .writeFailed) with
        poll := nfcPollInit }
      writeErr := errOf out.1
      write := none
      place := .polling })

def dumpDone (s : State σ) (r : Reader σ) (err : StarkErr) (buffers : ℕ → NfcDump) : State σ :=
  { s with
    reader := publish r (if err = .ok then .dumpDone else .dumpFailed)
    dumpErr := err
    dump := none
    buffers := buffers
    place := .asleep }

def dumpOnce (s : State σ) (d : DumpRequest) : Option (State σ) :=
  match s.reader.snap with
  | none => some (dumpDone s s.reader .notFound s.buffers)
  | some snap => (drive dev s.reader (nfcReaderDump snap.tag)).map (fun (out,r) =>
      dumpDone s r out.1 (Function.update s.buffers d.out out.2))

/-- The next step of the task; a pending request belongs to it while it is carried out. -/
def taskStep (s : State σ) (now : ℕ) (answered : Bool) : Option (State σ) :=
  match s.place with
  | .asleep => some (wake s)
  | .field =>
    (if s.reader.poll.state ≠ .recovering then applyField dev s.reader s.wantPoll
      else some s.reader).map (fun r => { s with reader := r, place := .wanted })
  | .wanted => some (branch s now)
  | .idle => (idleOnce dev s.reader answered).map (fun r => { s with reader := r, place := .asleep })
  | .write => some (chooseWrite s)
  | .dump => some (chooseDump s)
  | .writing => s.write.bind (writeOnce dev s)
  | .dumping => s.dump.bind (dumpOnce dev s)
  | .polling =>
    (pollOnce dev s.reader s.now).map (fun r => { s with reader := r, place := .asleep })

inductive Label (σ : Type) where
  | start
  | stop
  | writeNdef (uid msg : Option (List UInt8)) (len : ℕ)
  | requestDump (out : Option ℕ)
  | device (d : σ)
  | task (now : ℕ) (answered : Bool)

def step (s : State σ) : Label σ → Option (State σ)
  | .start => some (starkNfcStart s).2
  | .stop => some (starkNfcStop s).2
  | .writeNdef uid msg len => some (starkNfcWriteNdef s uid msg len).2
  | .requestDump out => some (starkNfcRequestDump s out).2
  | .device d => some { s with reader := { s.reader with dev := d } }
  | .task now answered => if s.hasTask then taskStep dev s now answered else none

def blankDump : NfcDump := ⟨⟨[],0,0,.unknown,0⟩,0,fun _ => 0⟩

def booted (r : Reader σ) (hasTask : Bool) : State σ :=
  { reader := { r with log := [] }
    hasTask := hasTask
    wantPoll := false
    write := none
    writeErr := .ok
    dump := none
    dumpErr := .ok
    buffers := fun _ => blankDump
    place := .asleep
    now := 0
    stops := 0
    polled := false
    iter := ⟨0,false,[],fun _ => blankDump⟩ }

/-- The state `stark_nfc_init` leaves, by the result of opening the transport. -/
def starkNfcInit (opened : StarkErr) (d : σ) : Option (State σ) :=
  let r : Reader σ := ⟨d,[],.notFitted,nfcPollInit,0,false,none,[]⟩
  if opened = .notSupported then some (booted r false)
  else if opened ≠ .ok then some (booted { r with module := .absent } false)
  else (drive dev r pn532Detect.run).map (fun (err,r) =>
    booted { r with module := if errOf err = .ok then .ready else .absent } true)

end

end StarkOne.NfcTask
