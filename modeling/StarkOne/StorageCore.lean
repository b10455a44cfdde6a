import StarkOne.StarkErr

/-!
# The mount state machine of the storage service

Pure decisions: each input moves the state and names one action, whose result
is the next input. Time is a free-running `uint32_t` of milliseconds.
-/

set_option autoImplicit false

namespace StarkOne.StorageCore

inductive StorageState where
  | notFitted
  | absent
  | mounted
  | unusable
  | removed
  | ejected
  deriving DecidableEq, Repr

inductive StorageInput where
  | tick
  | mountResult
  | probeResult
  | presentResult
  | ioError
  | reqMount
  | reqEject
  deriving DecidableEq, Repr

inductive StorageAction where
  | none
  | tryMount
  | probe
  | presentCheck
  | unmount
  deriving DecidableEq, Repr

structure StorageTiming where
  retryMs : ℕ
  probeMs : ℕ
  deriving DecidableEq, Repr

structure StorageMachine where
  state : StorageState
  timing : StorageTiming
  dueMs : ℕ
  dueNow : Bool
  announced : Bool
  generation : ℕ
  deriving DecidableEq, Repr

structure StorageStep where
  action : StorageAction
  changed : Bool
  deriving DecidableEq, Repr

/-- The difference of the two readings, as an `int32_t`, is not negative. -/
def isDue (c : StorageMachine) (nowMs : ℕ) : Bool := c.dueNow || sub32 nowMs c.dueMs < 2^31

def schedule (c : StorageMachine) (nowMs afterMs : ℕ) : StorageMachine :=
  { c with dueNow := false, dueMs := u32 (nowMs+afterMs) }

/-- The state entered, and whether it is a change or the first one. -/
def enter (c : StorageMachine) (next : StorageState) : StorageMachine × Bool :=
  ({ c with state := next, announced := true },next ≠ c.state || !c.announced)

def storageCoreInit (fitted : Bool) (timing : StorageTiming) (nowMs : ℕ) : StorageMachine where
  state := if fitted then .absent else .notFitted
  timing := timing
  dueMs := nowMs
  dueNow := fitted
  announced := !fitted
  generation := 0

def onTick (c : StorageMachine) (nowMs : ℕ) : StorageMachine × StorageStep :=
  if !isDue c nowMs then (c,⟨.none,false⟩)
  else match c.state with
    | .absent | .unusable | .removed => (schedule c nowMs c.timing.retryMs,⟨.tryMount,false⟩)
    | .mounted => (schedule c nowMs c.timing.probeMs,⟨.probe,false⟩)
    | .ejected => (schedule c nowMs c.timing.retryMs,⟨.presentCheck,false⟩)
    | .notFitted => (c,⟨.none,false⟩)

/-- A lost card stays removed until a mount succeeds or another card turns out unusable. -/
def onMountResult (c : StorageMachine) (result : StarkErr) (nowMs : ℕ) :
    StorageMachine × StorageStep :=
  if result = .ok then
    let (c,changed) := enter c .mounted
    (schedule c nowMs c.timing.probeMs,⟨.none,changed⟩)
  else if result = .notFound then
    if c.state ≠ .removed then
      let (c,changed) := enter c .absent
      (c,⟨.none,changed⟩)
    else (c,⟨.none,false⟩)
  else
    let (c,changed) := enter c .unusable
    (c,⟨.none,changed⟩)

def onProbeResult (c : StorageMachine) (result : StarkErr) (nowMs : ℕ) :
    StorageMachine × StorageStep :=
  if result = .ok then (c,⟨.none,false⟩)
  else
    let (c,changed) := enter { c with generation := u32 (c.generation+1) } .removed
    (schedule c nowMs c.timing.retryMs,⟨.unmount,changed⟩)

def onPresentResult (c : StorageMachine) (result : StarkErr) : StorageMachine × StorageStep :=
  if c.state = .ejected ∧ result ≠ .ok then
    let (c,changed) := enter c .absent
    (c,⟨.none,changed⟩)
  else (c,⟨.none,false⟩)

def onReqMount (c : StorageMachine) (nowMs : ℕ) : StorageMachine × StorageStep :=
  if c.state ≠ .mounted then (schedule c nowMs c.timing.retryMs,⟨.tryMount,false⟩)
  else (c,⟨.none,false⟩)

def onReqEject (c : StorageMachine) (nowMs : ℕ) : StorageMachine × StorageStep :=
  if c.state = .mounted then
    let (c,changed) := enter { c with generation := u32 (c.generation+1) } .ejected
    (schedule c nowMs c.timing.retryMs,⟨.unmount,changed⟩)
  else (c,⟨.none,false⟩)

def storageCoreStep (c : StorageMachine) (input : StorageInput) (result : StarkErr) (nowMs : ℕ) :
    StorageMachine × StorageStep :=
  if c.state = .notFitted ∧ input ≠ .tick then (c,⟨.none,false⟩)
  else match input with
    | .tick => onTick c nowMs
    | .mountResult => onMountResult c result nowMs
    | .probeResult => onProbeResult c result nowMs
    | .presentResult => onPresentResult c result
    | .reqMount => onReqMount c nowMs
    | .reqEject => onReqEject c nowMs
    | .ioError =>
      (if c.state = .mounted then { c with dueNow := true } else c,⟨.none,false⟩)

def storageCoreWaitMs (c : StorageMachine) (nowMs : ℕ) : ℕ :=
  if c.state = .notFitted then 2^32-1
  else if isDue c nowMs then 0
  else sub32 c.dueMs nowMs

/-- The port of the card: what the hardware answers counts only in the right state. -/
def mediumMount (mounted : Bool) (hardware : StarkErr) : StarkErr × Bool :=
  if mounted then (.state,mounted) else (hardware,hardware = .ok)

def mediumProbe (mounted : Bool) (hardware : StarkErr) : StarkErr :=
  if mounted then hardware else .state

def mediumPresent (mounted : Bool) (hardware : StarkErr) : StarkErr :=
  if mounted then .state else hardware

def mediumUnmount (_ : Bool) : Bool := false

end StarkOne.StorageCore
