import StarkOne.NfcOffer
import StarkOne.NfcSave

/-!
# The NFC app and the NFC task together

The app on its screen calls the service that the task serves, and the task's
events come back over the bus, in any order with keys, the card, the worker and
the reader. Each accepted write is kept with the dialog that asked for it.
-/

set_option autoImplicit false

namespace StarkOne.NfcWriteApp
open StarkOne.Machine StarkOne.UiStack StarkOne.Link StarkOne.Pn532 StarkOne.NfcReader
open StarkOne.NfcTask StarkOne.NfcView StarkOne.NfcOffer
open StarkOne.NdefRecords (ascii)
open StarkOne.NfcSave (App Mode SaveWorker)

structure Accepted where
  shown : Ask
  uid : List UInt8
  msg : List UInt8

structure Desk (σ : Type) where
  mode : Mode
  taken : Option StarkNfcRead
  view : View
  menu : List Row
  offer : Offer
  busy : Bool
  service : State σ
  accepted : List Accepted

/-- What a callback reads: the launcher's row, the menu's row, what the array for a description
held before, and whether a joined worker still ends. -/
structure Input where
  launch : Bool
  row : ℕ
  stack : { array : List UInt8 // array.length = whatSize }
  ends : Bool

abbrev Phone (σ : Type) : Type := Device App (Desk σ) Ask SaveWorker StarkNfcEvt

section
variable {σ : Type}

def nfcviewRefresh (s : Desk σ) : Desk σ := { s with taken := s.service.reader.snap }

def payloadRow (p : Payload) : Row := ⟨p.label,none,true⟩

def nfcwriteItems : List Row := kPayloads.map payloadRow

def nfcShow (mode : Mode) (s : Desk σ) : Desk σ :=
  match mode with
  | .view =>
    let view := nfcviewItems s.service.reader.module s.taken
    { s with mode := .view, view := view, menu := view.rows }
  | .write => { s with mode := .write, menu := nfcwriteItems }

def setBusy (busy : Bool) (d : Phone σ) : Phone σ := { d with state := { d.state with busy := busy } }

/-- The dump goes to `s_dump`, the first of the service's buffers. -/
def nfcsaveRequest (d : Phone σ) : Phone σ :=
  if d.storage ≠ .mounted then d
  else if d.state.busy then d
  else
    let (err,service) := starkNfcRequestDump d.state.service (some 0)
    if err ≠ .ok then { d with state := { d.state with service := service } }
    else { d with state := { d.state with service := service, busy := true } }

def nfcsaveEvent (what : StarkNfcEvt) (d : Phone σ) : Phone σ :=
  if !d.state.busy then d
  else match what with
    | .dumpFailed => setBusy false d
    | .dumpDone =>
      let (err,d) := starkAppWorkerStart .saving d
      if err ≠ .ok then setBusy false d else d
    | _ => d

def askWrite (i : Input) (d : Phone σ) : Phone σ :=
  let (offer,ask) := nfcwriteActivate i.row d.state.taken i.stack.1 d.state.offer
  let d := { d with state := { d.state with offer := offer } }
  match ask with
  | some a => (starkUiDialogConfirm a d).2
  | none => d

/-- The answer to the dialog: OK hands the offered message to the service. -/
def confirmed (a : Ask) (result : StarkDialogResult) (d : Phone σ) : Phone σ :=
  if result ≠ .ok then d
  else
    let o := d.state.offer
    let (err,service) := starkNfcWriteNdef d.state.service (some o.tag.uid) (some o.msg) o.msg.length
    let accepted := if err = .ok then ⟨a,o.tag.uid,o.msg⟩::d.state.accepted else d.state.accepted
    { d with state := { d.state with service := service, accepted := accepted } }

def activate (i : Input) (d : Phone σ) : Phone σ :=
  match d.state.mode with
  | .write => askWrite i d
  | .view =>
    if d.state.view.writeRow = some i.row then { d with state := nfcShow .write d.state }
    else if d.state.view.saveRow = some i.row then nfcsaveRequest d
    else d

/-- A menu activates the row that is selected, which is an enabled one. -/
def menuEvent (i : Input) (e : UiEvent StarkNfcEvt) (d : Phone σ) : Bool × Phone σ :=
  match e with
  | .key .back _ => (false,d)
  | .key .ok .short => (true,if d.state.menu[i.row]?.any Row.enabled then activate i d else d)
  | .key _ _ => (true,d)
  | _ => (false,d)

def writeOver (what : StarkNfcEvt) : Bool := what = .writeDone || what = .writeFailed

def nfcEvent (i : Input) (e : UiEvent StarkNfcEvt) (d : Phone σ) : Bool × Phone σ :=
  match e with
  | .other what =>
    let d := nfcsaveEvent what d
    let s := nfcviewRefresh d.state
    (true,{ d with state := if s.mode = .view || writeOver what then nfcShow .view s else s })
  | .key .back .short =>
    if d.state.mode = .write then (true,{ d with state := nfcShow .view d.state }) else (false,d)
  | e => menuEvent i e d

def nfcStart (s : Desk σ) : StarkErr × Desk σ :=
  let s := nfcviewRefresh s
  let s := { s with service := (starkNfcStart s.service).2 }
  (.ok,nfcShow .view s)

def nfcStop (s : Desk σ) : Desk σ := { s with service := (starkNfcStop s.service).2, busy := false }

def appNfc : Apps App (Desk σ) Ask SaveWorker StarkNfcEvt Input where
  onStart _ _ s := nfcStart s
  onStop _ s := nfcStop s
  onEvent _ := nfcEvent
  done a _ := confirmed a
  join i _ d := if i.ends then setBusy false d else d
  selected i := if i.launch then some .nfc else none

inductive Label (σ : Type) where
  | key (key : StarkKey) (action : StarkKeyAction)
  | card (state : StarkStorageState)
  | fail (generation : ℕ)
  | device (d : σ)
  | task (now : ℕ) (answered : Bool)
  | work
  | dispatch (i : Input)

/-- What the task published since comes to the bus, the oldest first. -/
def announce (cap : ℕ) (service : State σ) (d : Phone σ) : Phone σ :=
  (service.reader.published.drop d.state.service.reader.published.length).foldl
    (fun d what => starkEventPublish cap (.other what) d)
    { d with state := { d.state with service := service } }

variable (dev : σ → (q : Command) → Reply q × σ) (cap : ℕ)

def step (d : Phone σ) : Label σ → Option (Phone σ)
  | .key k a => some (starkEventPublish cap (.key k a) d)
  | .card st => some (starkEventPublish cap (.storage st) { d with storage := st })
  | .fail g => some (starkEventPublish cap (.appFail g) d)
  | .device v => (NfcTask.step dev d.state.service (.device v)).map (fun s => announce cap s d)
  | .task now answered =>
    (NfcTask.step dev d.state.service (.task now answered)).map (fun s => announce cap s d)
  | .work =>
    match d.worker with
    | .running .saving => some { setBusy false d with worker := .running .ended }
    | .running .ended => some { d with worker := .returned }
    | _ => none
  | .dispatch i =>
    match d.queue with
    | [] => none
    | e::rest => some (deliver appNfc i e { d with queue := rest })

def booted (service : State σ) : Phone σ :=
  { stack := [.launcher]
    dialog := ⟨false,false,false,false,false,.cancel,none⟩
    current := none
    generation := 0
    worker := .none
    storage := .notFitted
    storageLast := .notFitted
    queue := []
    state :=
      { mode := .view
        taken := none
        view := ⟨[],none,none⟩
        menu := []
        offer := ⟨[],⟨[],0,0,.unknown,0⟩⟩
        busy := false
        service := service
        accepted := [] } }

end

end StarkOne.NfcWriteApp
