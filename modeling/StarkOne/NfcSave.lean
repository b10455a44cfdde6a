import StarkOne.Machine
import StarkOne.NfcTask
import StarkOne.UiShape

/-!
# The NFC app's dump to the card

The app on its screen, its save worker and the service that dumps the tag, in
any order with keys, the card and the dialogs over the app. Requests are
numbered as they are accepted, and a completion carries its request's number.
-/

set_option autoImplicit false

namespace StarkOne.NfcSave
open StarkOne.Machine StarkOne.UiStack StarkOne.UiShape
open StarkOne.NfcTask (StarkNfcEvt)

inductive App where
  | nfc
  deriving DecidableEq

inductive Confirm where
  | write
  deriving DecidableEq

inductive SaveWorker where
  | saving
  | ended
  deriving DecidableEq

structure NfcEvent where
  what : StarkNfcEvt
  request : ℕ
  deriving DecidableEq

inductive Mode where
  | view
  | write
  deriving DecidableEq

inductive Row where
  | write
  | save
  | other
  deriving DecidableEq

structure NfcApp where
  mode : Mode
  busy : Bool
  pending : Option ℕ
  accepted : ℕ
  answered : List ℕ

/-- What a callback reads: the launcher's row, the menu's row, whether a payload
can be written, the service's refusal, and whether a joined worker still ends. -/
structure Input where
  launch : Bool
  row : Row
  writable : Bool
  refusal : Option Fault
  ends : Bool

abbrev Phone : Type := Device App NfcApp Confirm SaveWorker NfcEvent

/-- `stark_nfc_request_dump`: refused as the service says, or busy with a request. -/
def requestDump (i : Input) (s : NfcApp) : StarkErr × NfcApp :=
  match i.refusal, s.pending with
  | some e, _ => (e.code,s)
  | none, some _ => (.busy,s)
  | none, none => (.ok,{ s with pending := some (s.accepted+1), accepted := s.accepted+1 })

def nfcsaveRequest (i : Input) (d : Phone) : Phone :=
  if d.storage ≠ .mounted then d
  else if d.state.busy then d
  else
    let (err,s) := requestDump i d.state
    if err ≠ .ok then { d with state := s } else { d with state := { s with busy := true } }

def setBusy (busy : Bool) (d : Phone) : Phone := { d with state := { d.state with busy := busy } }

def nfcsaveEvent (e : NfcEvent) (d : Phone) : Phone :=
  if !d.state.busy then d
  else match e.what with
    | .dumpFailed => setBusy false d
    | .dumpDone =>
      let (err,d) := starkAppWorkerStart .saving d
      if err ≠ .ok then setBusy false d else d
    | _ => d

def setMode (mode : Mode) (d : Phone) : Phone := { d with state := { d.state with mode := mode } }

def activate (i : Input) (d : Phone) : Phone :=
  match d.state.mode, i.row with
  | .write, _ => if i.writable then (starkUiDialogConfirm .write d).2 else d
  | .view, .write => setMode .write d
  | .view, .save => nfcsaveRequest i d
  | .view, .other => d

def menuEvent (i : Input) (e : UiEvent NfcEvent) (d : Phone) : Bool × Phone :=
  match e with
  | .key .back _ => (false,d)
  | .key .ok .short => (true,activate i d)
  | .key _ _ => (true,d)
  | _ => (false,d)

def writeOver (e : NfcEvent) : Bool := e.what = .writeDone || e.what = .writeFailed

def nfcEvent (i : Input) (e : UiEvent NfcEvent) (d : Phone) : Bool × Phone :=
  match e with
  | .other e =>
    let d := nfcsaveEvent e d
    (true,if d.state.mode = .view || writeOver e then setMode .view d else d)
  | .key .back .short => if d.state.mode = .write then (true,setMode .view d) else (false,d)
  | e => menuEvent i e d

def appNfc : Apps App NfcApp Confirm SaveWorker NfcEvent Input where
  onStart _ _ s := (.ok,{ s with mode := .view })
  onStop _ s := { s with busy := false }
  onEvent _ := nfcEvent
  done _ _ _ d := d
  join i _ d := if i.ends then setBusy false d else d
  selected i := if i.launch then some .nfc else none

inductive Label where
  | key (key : StarkKey) (action : StarkKeyAction)
  | card (state : StarkStorageState)
  | fail (generation : ℕ)
  | nfc (what : StarkNfcEvt)
  | complete (ok : Bool)
  | work
  | dispatch (i : Input)

def unrelated (what : StarkNfcEvt) : Bool := what ≠ .dumpDone && what ≠ .dumpFailed

def completes : UiEvent NfcEvent → Option ℕ
  | .other e => if unrelated e.what then none else some e.request
  | _ => none

def note (e : UiEvent NfcEvent) (d : Phone) : Phone :=
  match completes e with
  | some n => { d with state := { d.state with answered := n::d.state.answered } }
  | none => d

variable (cap : ℕ)

def step (d : Phone) : Label → Option Phone
  | .key k a => some (starkEventPublish cap (.key k a) d)
  | .card st => some (starkEventPublish cap (.storage st) { d with storage := st })
  | .fail g => some (starkEventPublish cap (.appFail g) d)
  | .nfc what => if unrelated what then some (starkEventPublish cap (.other ⟨what,0⟩) d) else none
  | .complete ok =>
    match d.state.pending with
    | some n => some (starkEventPublish cap
        (.other ⟨if ok then .dumpDone else .dumpFailed,n⟩)
        { d with state := { d.state with pending := none } })
    | none => none
  | .work =>
    match d.worker with
    | .running .saving => some { setBusy false d with worker := .running .ended }
    | .running .ended => some { d with worker := .returned }
    | _ => none
  | .dispatch i =>
    match d.queue with
    | [] => none
    | e::rest => some (note e (deliver appNfc i e { d with queue := rest }))

def closedDialog : Dialog Confirm := ⟨false,false,false,false,false,.cancel,none⟩

def booted : Phone :=
  { stack := [.launcher]
    dialog := closedDialog
    current := none
    generation := 0
    worker := .none
    storage := .notFitted
    storageLast := .notFitted
    queue := []
    state := ⟨.view,false,none,0,[]⟩ }

end StarkOne.NfcSave
