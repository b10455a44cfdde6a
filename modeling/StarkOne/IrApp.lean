import StarkOne.IrWork
import StarkOne.Machine
import StarkOne.UiShape

/-!
# The IR app

Receiving, browsing, saving and sending on the app's one screen. A request
fills what it shares with the worker and then starts the worker; the worker
in place may take steps in between, so the start is a step of its own.
-/

set_option autoImplicit false

namespace StarkOne.IrApp
open StarkOne.UiStack StarkOne.IrCodec StarkOne.IrRaw StarkOne.IrTxGuard StarkOne.IrWork
open StarkOne.StoragePath (CStr)

def irappRecent : ℕ := 6
def irsendMsgLen : ℕ := 112

/-- What a callback reads: the launcher's row, the menu's row, the captures that
were received, the driver's answers, and the steps of a worker that is joined. -/
structure Input where
  launch : Bool
  row : ℕ
  taken : List IrSignal
  rxStart : StarkErr
  transmit : StarkErr
  joined : List Answer

def irappShow (mode : Mode) (d : Phone) : Phone := { d with state := { d.state with mode := mode } }

def setBusy (busy : Bool) (d : Phone) : Phone := { d with state := { d.state with busy := busy } }

def irappSave (signal : Option IrSignal) (d : Phone) : Phone :=
  match signal with
  | none => d
  | some s =>
    if d.storage ≠ .mounted then d
    else if d.state.busy then d
    else { d with state :=
      { d.state with signal := s, origin := none, calling := some (.save s) } }

def irbrowseForget (d : Phone) : Phone := { d with state := { d.state with count := 0 } }

def irbrowseOpen (d : Phone) : Phone :=
  let d := irbrowseForget d
  if d.storage ≠ .mounted then irappShow .browse d
  else { d with state := { d.state with busy := true, calling := some .list } }

def irbrowseActivate (k : ℕ) (d : Phone) : Phone :=
  if d.state.count ≤ k || !(d.state.slots k).valid then d
  else { d with state := { d.state with pick := k, busy := true, calling := some .load } }

def jobOf : Call → IrWorker
  | .list => .list
  | .load => .load
  | .save asked => .save asked .names

def startCall (c : Call) (d : Phone) : Phone :=
  let (err,d) := starkAppWorkerStart (jobOf c) { d with state := { d.state with calling := none } }
  if err = .ok then d
  else match c with
    | .list => irappShow .browse (setBusy false d)
    | .load => setBusy false d
    | .save _ => d

def confirmMessage (s : IrSignal) (plan : IrTxPlan) : CStr :=
  snprintf irsendMsgLen
    (irappDescribe s irbrowseWhatLen++", ".toList++decimal s.carrierHz++" Hz, ".toList++
      decimal s.timings.length++" pulses, ".toList++decimal plan.totalMs++
      " ms. Own devices only.".toList)

def irsendConfirm (name : CStr) (d : Phone) : Phone :=
  let name := snprintf irbrowseNameLen name
  let d := { d with state := { d.state with name := name } }
  match irTxCheck d.state.signal 0 with
  | .error _ => d
  | .ok plan =>
    (starkUiDialogConfirm ⟨confirmMessage d.state.signal plan,d.state.signal,name⟩ d).2

def starkIrTransmit (i : Input) (s : IrSignal) : StarkErr :=
  match irTxCheck s 0 with
  | .error e => e.code
  | .ok _ => i.transmit

def sendConfirmed (t : Transmit) (i : Input) (result : StarkDialogResult) (d : Phone) : Phone :=
  if result ≠ .ok then d
  else
    let s := d.state
    let d := { d with state := { s with sent := ⟨s.signal,s.origin,t⟩::s.sent } }
    match starkIrTransmit i s.signal with
    | .ok => { d with state := { d.state with sending := true } }
    | .busy => (starkUiDialogAlert d).2
    | _ => d

def irsendEvent (e : Note) (d : Phone) : Phone :=
  if d.state.sending && (e = .txDone || e = .txFailed) then
    { d with state := { d.state with sending := false } }
  else d

def irbrowseEvent (e : Note) (d : Phone) : Bool × Phone :=
  match e with
  | .listed => (true,irappShow .browse (setBusy false d))
  | .loaded => (true,irsendConfirm (d.state.slots d.state.pick).name (setBusy false d))
  | .failed => (true,setBusy false d)
  | _ => (false,d)

def irviewDrain (taken : List IrSignal) (d : Phone) : Phone :=
  { d with state := { d.state with
    caps := taken.foldl (fun caps s => (s::caps).take irappRecent) d.state.caps } }

def irviewActivate (row : ℕ) (d : Phone) : Phone :=
  match row with
  | 0 => irappSave d.state.caps.head? d
  | 1 => irbrowseOpen d
  | k+2 => irappSave d.state.caps[k]? d

def activate (i : Input) (d : Phone) : Phone :=
  match d.state.mode with
  | .browse => irbrowseActivate i.row d
  | .view => irviewActivate i.row d

def menuEvent (i : Input) (e : UiEvent Note) (d : Phone) : Bool × Phone :=
  match e with
  | .key .back _ => (false,d)
  | .key .ok .short => (true,activate i d)
  | .key _ _ => (true,d)
  | _ => (false,d)

def irEvent (i : Input) (e : UiEvent Note) (d : Phone) : Bool × Phone :=
  match e with
  | .other what =>
    let (used,d) := irbrowseEvent what (irsendEvent what d)
    if used then (true,d)
    else if what = .rx then (true,irviewDrain i.taken d)
    else menuEvent i e d
  | .storage st =>
    if d.state.mode = .browse ∧ st ≠ .mounted then
      (false,irappShow .browse (irbrowseForget d))
    else menuEvent i e d
  | .key .back .short =>
    if d.state.mode = .browse then (true,irappShow .view d) else menuEvent i e d
  | _ => menuEvent i e d

variable (cap : ℕ)

def appIr : Apps App IrApp Transmit IrWorker Note Input where
  onStart _ i s :=
    (i.rxStart,{ s with caps := [], mode := if i.rxStart = .ok then .view else s.mode })
  onStop _ s := { s with count := 0, busy := false, sending := false }
  onEvent _ := irEvent
  done := sendConfirmed
  join i _ := joinSteps cap i.joined
  selected i := if i.launch then some .ir else none

inductive Label where
  | key (key : StarkKey) (action : StarkKeyAction)
  | card (state : StarkStorageState)
  | fail (generation : ℕ)
  | driver (what : Note)
  | files (captures : List (CStr × CStr))
  | work (io : Answer)
  | start
  | dispatch (i : Input)

def fromDriver (what : Note) : Bool := what = .rx || what = .txDone || what = .txFailed

/-- The UI task dispatches no event while a request is about to start the worker. -/
def step (d : Phone) : Label → Option Phone
  | .key k a => some (starkEventPublish cap (.key k a) d)
  | .card st => some (starkEventPublish cap (.storage st) { d with storage := st })
  | .fail g => some (starkEventPublish cap (.appFail g) d)
  | .driver what => if fromDriver what then some (notify cap what d) else none
  | .files captures => some { d with state := { d.state with captures := captures } }
  | .work io =>
    match d.worker with
    | .running w => some (workStep cap false io w d)
    | _ => none
  | .start => d.state.calling.map (fun c => startCall c d)
  | .dispatch i => if d.state.calling.isSome then none else starkEventDispatch (appIr cap) i d

def emptySlot : IrBrowseEntry := ⟨[],[],false⟩

def closedDialog : Dialog Transmit := ⟨false,false,false,false,false,.cancel,none⟩

def booted : Phone where
  stack := [.launcher]
  dialog := closedDialog
  current := none
  generation := 0
  worker := .none
  storage := .notFitted
  storageLast := .notFitted
  queue := []
  state :=
    { mode := .view
      caps := []
      slots := fun _ => emptySlot
      count := 0
      pick := 0
      busy := false
      name := []
      sending := false
      signal := zeroSignal
      text := []
      calling := none
      temp := none
      captures := []
      origin := none
      sent := []
      commits := [] }

end StarkOne.IrApp
