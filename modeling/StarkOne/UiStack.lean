import StarkOne.StarkErr

/-!
# Screens, dialogs and the running app

The UI task's own state: the screen stack, the one modal dialog over it, the
running app with its worker, and the queue of events it dispatches. What the
apps do at each callback is a parameter; the input of a callback stands for
the choices it reads from elsewhere, such as the selected row of a menu.
-/

set_option autoImplicit false

namespace StarkOne.UiStack

inductive StarkKey where
  | up
  | down
  | left
  | right
  | ok
  | back
  deriving DecidableEq, Repr

inductive StarkKeyAction where
  | press
  | release
  | repeated
  | long
  | short
  | chord
  deriving DecidableEq, Repr

inductive StarkStorageState where
  | notFitted
  | absent
  | mounted
  | unusable
  | removed
  | ejected
  deriving DecidableEq, Repr

inductive UiEvent (X : Type) where
  | key (key : StarkKey) (action : StarkKeyAction)
  | storage (state : StarkStorageState)
  | appFail (generation : ℕ)
  | other (what : X)
  deriving DecidableEq

inductive Screen (A : Type) where
  | launcher
  | app (a : A)
  | dialog
  deriving DecidableEq

def Screen.overlay {A : Type} : Screen A → Bool
  | .dialog => true
  | _ => false

inductive StarkDialogResult where
  | cancel
  | ok
  deriving DecidableEq, Repr

structure Dialog (D : Type) where
  isOpen : Bool
  closing : Bool
  alert : Bool
  okArmed : Bool
  backArmed : Bool
  result : StarkDialogResult
  done : Option D

inductive Worker (W : Type) where
  | none
  | running (w : W)
  | returned
  deriving DecidableEq

structure Device (A S D W X : Type) where
  /-- The top screen first. -/
  stack : List (Screen A)
  dialog : Dialog D
  current : Option A
  generation : ℕ
  worker : Worker W
  storage : StarkStorageState
  storageLast : StarkStorageState
  queue : List (UiEvent X)
  state : S

def uiStackDepth : ℕ := 8

section
variable {A S D W X : Type}

def starkUiPush (d : Device A S D W X) (screen : Screen A) : StarkErr × Device A S D W X :=
  if d.stack.length = uiStackDepth then (.noMem,d)
  else if screen.overlay && d.stack.isEmpty then (.state,d)
  else if screen.overlay && d.stack.head?.any Screen.overlay then (.busy,d)
  else (.ok,{ d with stack := screen::d.stack })

def openDialog (alert : Bool) (done : Option D) (d : Device A S D W X) :
    StarkErr × Device A S D W X :=
  if d.dialog.isOpen then (.busy,d)
  else
    let d := { d with dialog :=
      { d.dialog with
        isOpen := true, closing := false, alert := alert, okArmed := false, backArmed := false
        done := done } }
    let (err,d) := starkUiPush d .dialog
    if err ≠ .ok then (err,{ d with dialog := { d.dialog with isOpen := false } }) else (.ok,d)

def starkUiDialogConfirm (done : D) (d : Device A S D W X) : StarkErr × Device A S D W X :=
  openDialog false (some done) d

def starkUiDialogAlert (d : Device A S D W X) : StarkErr × Device A S D W X :=
  openDialog true none d

def starkAppWorkerStart (w : W) (d : Device A S D W X) : StarkErr × Device A S D W X :=
  match d.current, d.worker with
  | none, _ => (.state,d)
  | some _, .running _ => (.busy,d)
  | some _, _ => (.ok,{ d with worker := .running w })

/-- A full queue loses its oldest event. -/
def starkEventPublish (cap : ℕ) (e : UiEvent X) (d : Device A S D W X) : Device A S D W X :=
  { d with queue := (if d.queue.length = cap then d.queue.tail else d.queue)++[e] }

end

/-- What the apps do when they are called, and which row the launcher has selected. -/
structure Apps (A S D W X I : Type) where
  onStart : A → I → S → StarkErr × S
  onStop : A → S → S
  onEvent : A → I → UiEvent X → Device A S D W X → Bool × Device A S D W X
  done : D → I → StarkDialogResult → Device A S D W X → Device A S D W X
  /-- What the worker still does while its app waits for it. -/
  join : I → W → Device A S D W X → Device A S D W X
  selected : I → Option A

section
variable {A S D W X I : Type} (code : Apps A S D W X I) (i : I)

def appWorkerJoin (d : Device A S D W X) : Device A S D W X :=
  match d.worker with
  | .none => d
  | .running w => { code.join i w d with worker := .none }
  | .returned => { d with worker := .none }

/-- The worker is gone before the app is stopped. -/
def onAppScreenExit (d : Device A S D W X) : Device A S D W X :=
  match d.current with
  | none => d
  | some a =>
    let d := appWorkerJoin code i { d with current := none }
    { d with state := code.onStop a d.state }

def dialogExit (d : Device A S D W X) : Device A S D W X :=
  let result := if d.dialog.closing then d.dialog.result else .cancel
  let closed := { d with dialog := { d.dialog with isOpen := false, closing := false } }
  match d.dialog.done with
  | some f => code.done f i result closed
  | none => closed

def onExit : Screen A → Device A S D W X → Device A S D W X
  | .launcher, d => d
  | .app _, d => onAppScreenExit code i d
  | .dialog, d => dialogExit code i d

def starkUiPop (d : Device A S D W X) : StarkErr × Device A S D W X :=
  match d.stack with
  | leaving::below::rest => (.ok,onExit code i leaving { d with stack := below::rest })
  | _ => (.state,d)

def popWhile : ℕ → Device A S D W X → Device A S D W X
  | 0, d => d
  | n+1, d => if d.stack.length > 1 then popWhile n (starkUiPop code i d).2 else d

def starkUiPopToRoot (d : Device A S D W X) : Device A S D W X :=
  popWhile code i d.stack.length d

def finish (result : StarkDialogResult) (d : Device A S D W X) : Device A S D W X :=
  (starkUiPop code i { d with dialog := { d.dialog with result := result, closing := true } }).2

/-- The dialog takes every key while it is open, and nothing else. -/
def dialogEvent (e : UiEvent X) (d : Device A S D W X) : Bool × Device A S D W X :=
  match e with
  | .key .ok .press => (true,{ d with dialog := { d.dialog with okArmed := true } })
  | .key .ok .short => (true,if d.dialog.okArmed then finish code i .ok d else d)
  | .key .back .press => (true,{ d with dialog := { d.dialog with backArmed := true } })
  | .key .back .short =>
    (true,if d.dialog.backArmed then
        finish code i (if d.dialog.alert then .ok else .cancel) d else d)
  | .key _ _ => (true,d)
  | _ => (false,d)

def starkAppLaunch (a : A) (d : Device A S D W X) : StarkErr × Device A S D W X :=
  match d.current with
  | some _ => (.busy,d)
  | none =>
    let (err,state) := code.onStart a i d.state
    if err ≠ .ok then (err,{ d with state := state })
    else
      let (err,d) := starkUiPush
        { d with state := state, generation := d.generation+1, current := some a } (.app a)
      if err ≠ .ok then (err,{ d with current := none, state := code.onStop a d.state })
      else (.ok,d)

def launcherEvent (e : UiEvent X) (d : Device A S D W X) : Bool × Device A S D W X :=
  match e with
  | .key .back _ => (false,d)
  | .key .ok .short =>
    match code.selected i with
    | some a => (true,(starkAppLaunch code i a d).2)
    | none => (true,d)
  | .key _ _ => (true,d)
  | _ => (false,d)

def screenEvent (e : UiEvent X) (d : Device A S D W X) : Screen A → Bool × Device A S D W X
  | .launcher => launcherEvent code i e d
  | .app a => code.onEvent a i e d
  | .dialog => dialogEvent code i e d

/-- Only the top screen sees an event; a BACK it leaves alone pops it. -/
def onBusEvent (e : UiEvent X) (d : Device A S D W X) : Device A S D W X :=
  match d.stack with
  | [] => d
  | top::_ =>
    match e with
    | .key _ .chord => d
    | .key .back .long => starkUiPopToRoot code i d
    | e =>
      let (used,d) := screenEvent code i e d top
      if used then d
      else match e with
        | .key .back .short => (starkUiPop code i d).2
        | _ => d

def onAppRequest (e : UiEvent X) (d : Device A S D W X) : Device A S D W X :=
  match e with
  | .appFail generation =>
    if d.current.isSome && generation = d.generation then
      (starkUiDialogAlert (starkUiPopToRoot code i d)).2
    else d
  | _ => d

/-- Only an unexpected loss of the card is announced. -/
def onStorage (e : UiEvent X) (d : Device A S D W X) : Device A S D W X :=
  match e with
  | .storage state =>
    let d' := if d.storageLast = .mounted ∧ state = .removed then (starkUiDialogAlert d).2 else d
    { d' with storageLast := state }
  | _ => d

/-- The subscribers in their order: the UI, the app manager, the status bar. -/
def deliver (e : UiEvent X) (d : Device A S D W X) : Device A S D W X :=
  onStorage e (onAppRequest code i e (onBusEvent code i e d))

def starkEventDispatch (d : Device A S D W X) : Option (Device A S D W X) :=
  match d.queue with
  | [] => none
  | e::rest => some (deliver code i e { d with queue := rest })

end

end StarkOne.UiStack
