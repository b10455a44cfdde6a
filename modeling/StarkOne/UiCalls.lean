import Mathlib.Logic.Function.Basic
import StarkOne.Machine
import StarkOne.UiStack

/-!
# Calls on the UI task

Every function of the screen stack, of the dialog and of the app manager calls
back into the code of the apps, and that code may call any of them again. The
machine keeps the calls in progress as a stack of frames; while a frame of a
callback is on top, the callback makes its next call or returns.
-/

set_option autoImplicit false

namespace StarkOne.UiCalls
open StarkOne.UiStack (StarkKey StarkKeyAction StarkDialogResult Dialog uiStackDepth)

inductive Screen (A : Type) where
  | launcher
  | app (a : A)
  | other (overlay : Bool)
  | dialog
  deriving DecidableEq

def Screen.isDialog {A : Type} : Screen A → Bool
  | .dialog => true
  | _ => false

/-- A screen's `on_exit`: none, a function of its own, or the app manager's. -/
inductive Hook (F : Type) where
  | null
  | own (f : F)
  | manager
  deriving DecidableEq

def Hook.ofOwn {F : Type} : Option F → Hook F
  | none => .null
  | some f => .own f

/-- What is left in the screen by the manager's `on_exit` with this one saved: were it the
manager's own, that would find nothing saved and no app. -/
def Hook.putBack {F : Type} : Hook F → Hook F
  | .manager => .null
  | h => h

/-- The calls in progress. A callback of the app that runs is `own`, and so is one that
belongs to a screen an app has pushed. -/
inductive Frame (A : Type) where
  /-- The top screen's `on_event`, for a BACK short press or another event. -/
  | event (own back : Bool)
  | enter
  | exit
  | done (own : Bool)
  | start (a : A)
  | screen (a : A) (n : ℕ)
  /-- The app's own `on_exit`, called by the manager's, which goes on afterwards. -/
  | leave (a : A) (n : ℕ)
  | stop (a : A) (n : ℕ)
  /-- The loop of `stark_ui_pop_to_root`, for a report raised in that launch or without one. -/
  | unwind (fault : Option ℕ)
  deriving DecidableEq

def Frame.own {A : Type} : Frame A → Bool
  | .event own _ => own
  | .done own => own
  | .unwind _ => false
  | _ => true

structure Opening where
  serial : ℕ
  alert : Bool
  done : Option Bool
  deriving DecidableEq

/-- A call of a dialog's `done`, with the keys the dialog was given while it was open. -/
structure Answer where
  opening : Opening
  keys : List (StarkKey × StarkKeyAction)
  result : StarkDialogResult
  deriving DecidableEq

inductive Entry (A F : Type) where
  | launched (n : ℕ) (a : A) (own : Option F)
  /-- The hook put back into the screen, and called unless it is null. -/
  | left (n : ℕ) (own : Hook F)
  | stopped (n : ℕ) (worker : Option ℕ)

/-- The statics of the three modules and the calls in progress. Dialogs, successful starts
and launches are counted, and what was opened, answered and ended is recorded. -/
structure Ui (A F : Type) where
  stack : List (Screen A)
  dialog : Dialog Bool
  current : Option (A × ℕ)
  savedExit : Hook F
  hook : A → Hook F
  generation : UInt32
  caps : UInt32
  worker : Option ℕ
  reports : List (UInt32 × ℕ)
  frames : List (Frame A)
  opened : ℕ
  keys : List (StarkKey × StarkKeyAction)
  openings : List Opening
  answers : List Answer
  starts : ℕ
  launches : ℕ
  given : A → Option F
  log : List (Entry A F)

structure Registry (I A : Type) where
  find : I → Option A
  capsRequired : A → UInt32
  overlay : A → Bool

def Registry.covers {I A : Type} (reg : Registry I A) : Screen A → Bool
  | .launcher => false
  | .app a => reg.overlay a
  | .other overlay => overlay
  | .dialog => true

structure Given (F : Type) where
  exit : Option (Option F)
  renders : Bool

inductive Event where
  | key (key : StarkKey) (action : StarkKeyAction)
  | other
  deriving DecidableEq

/-- The first group is the UI task's own work and the returns of callbacks, the second
the calls that code on it makes, the last a report raised on any task. -/
inductive UiAction (I F : Type) where
  | deliver (e : Event)
  | report (index : ℕ)
  | handled (used : Bool)
  | started (err : StarkErr)
  | screened (screen : Option (Given F))
  | ret
  | run
  | push (overlay renders : Bool)
  | pop
  | popToRoot
  | stopCurrent
  | openDialog (alert : Bool) (done : Option Bool)
  | launch (id : I)
  | workerStart (returned created : Bool)
  | setCaps (caps : UInt32)
  | fail

section
variable {A F : Type}

def boot (exits : A → Option F) : Ui A F where
  stack := [.launcher]
  dialog := ⟨false,false,false,false,false,.cancel,none⟩
  current := none
  savedExit := .null
  hook := fun a => .ofOwn (exits a)
  generation := 0
  caps := 0
  worker := none
  reports := []
  frames := []
  opened := 0
  keys := []
  openings := []
  answers := []
  starts := 0
  launches := 0
  given := exits
  log := []

def inApp (fs : List (Frame A)) : Bool := fs.any Frame.own

def call (f : Frame A) (s : Ui A F) : Ui A F := { s with frames := f::s.frames }

def onEnter (screen : Screen A) (s : Ui A F) : Ui A F :=
  match screen with
  | .dialog => s
  | _ => call .enter s

def dialogExit (s : Ui A F) : Ui A F :=
  let result := if s.dialog.closing then s.dialog.result else .cancel
  let closed := { s with dialog := { s.dialog with isOpen := false, closing := false } }
  match s.dialog.done with
  | some own =>
    { call (.done own) closed with
      answers := ⟨⟨s.opened,s.dialog.alert,some own⟩,s.keys,result⟩::s.answers }
  | none => closed

def appWorkerJoin (s : Ui A F) : Ui A F := { s with worker := none }

def stopApp (a : A) (n : ℕ) (s : Ui A F) : Ui A F :=
  { call (.stop a n) s with log := .stopped n s.worker::s.log }

end

section
variable {A F I : Type} [DecidableEq A] (reg : Registry I A)

def onAppScreenExit (a : A) (s : Ui A F) : Ui A F :=
  let s' := { s with
    hook := Function.update s.hook a s.savedExit.putBack
    current := none
    savedExit := .null }
  match s.current with
  | none => call .exit s'
  | some (b,n) => { call (.leave b n) s' with log := .left n s.savedExit::s.log }

def onExit (leaving : Screen A) (s : Ui A F) : Ui A F :=
  match leaving with
  | .launcher => s
  | .other _ => call .exit s
  | .dialog => dialogExit s
  | .app a =>
    match s.hook a with
    | .manager => onAppScreenExit a s
    | _ => call .exit s

def starkUiPush (screen : Screen A) (renders : Bool) (s : Ui A F) : StarkErr × Ui A F :=
  if !renders then (.invalidArg,s)
  else if s.stack.length = uiStackDepth then (.noMem,s)
  else if reg.covers screen && s.stack.isEmpty then (.state,s)
  else if reg.covers screen && s.stack.head?.any reg.covers then (.busy,s)
  else (.ok,onEnter screen { s with stack := screen::s.stack })

def starkUiPop (s : Ui A F) : StarkErr × Ui A F :=
  match s.stack with
  | leaving::below::rest => (.ok,onExit leaving { s with stack := below::rest })
  | _ => (.state,s)

def starkUiPopToRoot (s : Ui A F) : Ui A F := call (.unwind none) s

def openDialog (alert : Bool) (done : Option Bool) (s : Ui A F) : StarkErr × Ui A F :=
  if s.dialog.isOpen then (.busy,s)
  else
    let opening := { s with dialog :=
      { s.dialog with
        isOpen := true, closing := false, alert := alert, okArmed := false, backArmed := false
        done := done } }
    match starkUiPush reg .dialog true opening with
    | (.ok,v) =>
      (.ok,{ v with
        opened := s.opened+1
        keys := []
        openings := ⟨s.opened+1,alert,done⟩::s.openings })
    | (err,v) => (err,{ v with dialog := { v.dialog with isOpen := false } })

def finish (result : StarkDialogResult) (s : Ui A F) : Ui A F :=
  (starkUiPop { s with dialog := { s.dialog with result := result, closing := true } }).2

def dialogKey (key : StarkKey) (action : StarkKeyAction) (s : Ui A F) : Ui A F :=
  let s := { s with keys := s.keys++[(key,action)] }
  match key, action with
  | .ok, .press => { s with dialog := { s.dialog with okArmed := true } }
  | .ok, .short => if s.dialog.okArmed then finish .ok s else s
  | .back, .press => { s with dialog := { s.dialog with backArmed := true } }
  | .back, .short =>
    if s.dialog.backArmed then finish (if s.dialog.alert then .ok else .cancel) s else s
  | _, _ => s

/-- The dialog takes every key and nothing else; another screen's `on_event` is called. -/
def onBusEvent (e : Event) (s : Ui A F) : Ui A F :=
  match s.stack with
  | [] => s
  | top::_ =>
    match e with
    | .key _ .chord => s
    | .key .back .long => starkUiPopToRoot s
    | .key key action =>
      if top.isDialog then dialogKey key action s
      else call (.event (decide (top ≠ .launcher)) (key = .back && action = .short)) s
    | .other =>
      if top.isDialog then s else call (.event (decide (top ≠ .launcher)) false) s

/-- `app_fault_accept`: an app runs, and the report carries its launch's generation. -/
def onAppRequest (report : UInt32 × ℕ) (s : Ui A F) : Ui A F :=
  if s.current.isSome && report.1 = s.generation then call (.unwind (some report.2)) s else s

def starkAppFail (s : Ui A F) : Ui A F :=
  { s with reports := (s.generation,s.launches)::s.reports }

def starkAppAvailable (a : A) (s : Ui A F) : Bool :=
  reg.capsRequired a &&& ~~~s.caps = 0

def starkAppLaunch (id : I) (s : Ui A F) : Ui A F :=
  match reg.find id with
  | none => s
  | some a =>
    if s.current.isSome then s
    else if !starkAppAvailable reg a s then s
    else call (.start a) s

def startReturned (a : A) (err : StarkErr) (rest : List (Frame A)) (s : Ui A F) : Ui A F :=
  let s := { s with frames := rest }
  if err ≠ .ok then s else { call (.screen a s.starts) s with starts := s.starts+1 }

/-- What the app does to its screen's `on_exit` before it hands the screen over. -/
def screenGiven (a : A) (exit : Option (Option F)) (s : Ui A F) : Ui A F :=
  match exit with
  | none => s
  | some own =>
    { s with
      given := Function.update s.given a own
      hook := Function.update s.hook a (.ofOwn own) }

/-- The rest of the launch, up to the screen's `on_enter` or, when the push is refused,
`on_stop`. -/
def pushApp (a : A) (n : ℕ) (renders : Bool) (s : Ui A F) : Ui A F :=
  let s := { s with
    generation := s.generation+1
    launches := s.launches+1
    current := some (a,n)
    savedExit := s.hook a
    hook := Function.update s.hook a .manager }
  match starkUiPush reg (.app a) renders s with
  | (.ok,v) => { v with log := .launched n a (v.given a)::v.log }
  | (_,v) =>
    stopApp a n { v with
      hook := Function.update v.hook a v.savedExit
      current := none
      savedExit := .null }

def screenReturned (a : A) (n : ℕ) (screen : Option (Given F)) (rest : List (Frame A))
    (s : Ui A F) : Ui A F :=
  let s := { s with frames := rest }
  match screen with
  | none => stopApp a n s
  | some g => pushApp reg a n g.renders (screenGiven a g.exit s)

def starkAppStopCurrent (s : Ui A F) : Ui A F :=
  if s.current.isSome then (starkUiPop s).2 else s

/-- A worker that has returned is reaped first; the new task may not be created. -/
def starkAppWorkerStart (returned created : Bool) (s : Ui A F) : Ui A F :=
  match s.current with
  | none => s
  | some (_,n) =>
    if s.worker.isSome && !returned then s
    else { s with worker := if created then some n else none }

/-- A callback without a result returns. The manager's `on_exit` then joins the worker and
stops the app. -/
def callbackReturned (s : Ui A F) : Option (Ui A F) :=
  match s.frames with
  | .enter::rest => some { s with frames := rest }
  | .exit::rest => some { s with frames := rest }
  | .done _::rest => some { s with frames := rest }
  | .stop _ _::rest => some { s with frames := rest }
  | .leave a n::rest => some (stopApp a n (appWorkerJoin { s with frames := rest }))
  | _ => none

/-- One round of the unwinding loop; a report's unwinding ends with its alert. -/
def unwindRound (s : Ui A F) : Option (Ui A F) :=
  match s.frames with
  | .unwind fault::rest =>
    if s.stack.length > 1 then some (starkUiPop s).2
    else
      let s := { s with frames := rest }
      some (if fault.isSome then (openDialog reg true none s).2 else s)
  | _ => none

/-- A callback, or the UI task between two events, may call: no loop is in its way. -/
def mayCall (s : Ui A F) : Bool :=
  match s.frames with
  | .unwind _::_ => false
  | _ => true

def step (s : Ui A F) : UiAction I F → Option (Ui A F)
  | .deliver e =>
    match s.frames with
    | [] => some (onBusEvent e s)
    | _ => none
  | .report index =>
    match s.frames, s.reports[index]? with
    | [], some r => some (onAppRequest r { s with reports := s.reports.eraseIdx index })
    | _, _ => none
  | .handled used =>
    match s.frames with
    | .event _ back::rest =>
      let s := { s with frames := rest }
      some (if !used && back then (starkUiPop s).2 else s)
    | _ => none
  | .started err =>
    match s.frames with
    | .start a::rest => some (startReturned a err rest s)
    | _ => none
  | .screened screen =>
    match s.frames with
    | .screen a n::rest => some (screenReturned reg a n screen rest s)
    | _ => none
  | .ret => callbackReturned s
  | .run => unwindRound reg s
  | .push overlay renders =>
    if mayCall s then some (starkUiPush reg (.other overlay) renders s).2 else none
  | .pop => if mayCall s then some (starkUiPop s).2 else none
  | .popToRoot => if mayCall s then some (starkUiPopToRoot s) else none
  | .stopCurrent => if mayCall s then some (starkAppStopCurrent s) else none
  | .openDialog alert done => if mayCall s then some (openDialog reg alert done s).2 else none
  | .launch id => if mayCall s then some (starkAppLaunch reg id s) else none
  | .workerStart returned created =>
    if mayCall s then some (starkAppWorkerStart returned created s) else none
  | .setCaps caps => if mayCall s then some { s with caps := caps } else none
  | .fail => some (starkAppFail s)

end

def Frame.plain {A : Type} : Frame A → Bool
  | .enter => true
  | .exit => true
  | .done _ => true
  | .stop _ _ => true
  | _ => false

inductive Taken {A F I : Type} [DecidableEq A] (reg : Registry I A) (s : Ui A F) :
    UiAction I F → Ui A F → Prop
  | deliver (e : Event) (hf : s.frames = []) : Taken reg s (.deliver e) (onBusEvent e s)
  | report (index : ℕ) (r : UInt32 × ℕ) (hf : s.frames = []) (hr : r ∈ s.reports) :
      Taken reg s (.report index) (onAppRequest r { s with reports := s.reports.eraseIdx index })
  | handled (used own back : Bool) (rest : List (Frame A)) (hf : s.frames = .event own back::rest) :
      Taken reg s (.handled used) (if !used && back then (starkUiPop { s with frames := rest }).2
        else { s with frames := rest })
  | started (err : StarkErr) (a : A) (rest : List (Frame A)) (hf : s.frames = .start a::rest) :
      Taken reg s (.started err) (startReturned a err rest s)
  | screened (screen : Option (Given F)) (a : A) (n : ℕ) (rest : List (Frame A))
      (hf : s.frames = .screen a n::rest) :
      Taken reg s (.screened screen) (screenReturned reg a n screen rest s)
  | returned (f : Frame A) (rest : List (Frame A)) (hf : s.frames = f::rest) (hp : f.plain = true) :
      Taken reg s .ret { s with frames := rest }
  | left (a : A) (n : ℕ) (rest : List (Frame A)) (hf : s.frames = .leave a n::rest) :
      Taken reg s .ret (stopApp a n (appWorkerJoin { s with frames := rest }))
  | unwinds (fault : Option ℕ) (rest : List (Frame A)) (hf : s.frames = .unwind fault::rest)
      (hl : 1 < s.stack.length) : Taken reg s .run (starkUiPop s).2
  | unwound (fault : Option ℕ) (rest : List (Frame A)) (hf : s.frames = .unwind fault::rest)
      (hl : s.stack.length ≤ 1) : Taken reg s .run
        (if fault.isSome then (openDialog reg true none { s with frames := rest }).2
        else { s with frames := rest })
  | push (overlay renders : Bool) (hm : mayCall s = true) :
      Taken reg s (.push overlay renders) (starkUiPush reg (.other overlay) renders s).2
  | pop (hm : mayCall s = true) : Taken reg s .pop (starkUiPop s).2
  | popToRoot (hm : mayCall s = true) : Taken reg s .popToRoot (call (.unwind none) s)
  | stopCurrent (hm : mayCall s = true) : Taken reg s .stopCurrent (starkAppStopCurrent s)
  | openDialog (alert : Bool) (done : Option Bool) (hm : mayCall s = true) :
      Taken reg s (.openDialog alert done) (openDialog reg alert done s).2
  | launch (id : I) (hm : mayCall s = true) : Taken reg s (.launch id) (starkAppLaunch reg id s)
  | workerStart (returned created : Bool) (hm : mayCall s = true) :
      Taken reg s (.workerStart returned created) (starkAppWorkerStart returned created s)
  | setCaps (caps : UInt32) (hm : mayCall s = true) :
      Taken reg s (.setCaps caps) { s with caps := caps }
  | fail : Taken reg s .fail (starkAppFail s)

theorem step_taken {A F I : Type} [DecidableEq A] {reg : Registry I A} {s t : Ui A F}
    {a : UiAction I F} (h : step reg s a = some t) : Taken reg s a t := by
  cases a with
  | deliver e =>
    dsimp only [step] at h
    split at h
    · obtain rfl := Option.some.inj h
      exact .deliver e ‹_›
    · cases h
  | report index =>
    dsimp only [step] at h
    split at h
    · rename_i r hf hr
      obtain rfl := Option.some.inj h
      exact .report index r hf (List.mem_of_getElem? hr)
    · cases h
  | handled used =>
    dsimp only [step] at h
    split at h
    · obtain rfl := Option.some.inj h
      exact .handled used _ _ _ ‹_›
    · cases h
  | started err =>
    dsimp only [step] at h
    split at h
    · obtain rfl := Option.some.inj h
      exact .started err _ _ ‹_›
    · cases h
  | screened screen =>
    dsimp only [step] at h
    split at h
    · obtain rfl := Option.some.inj h
      exact .screened screen _ _ _ ‹_›
    · cases h
  | ret =>
    dsimp only [step, callbackReturned] at h
    split at h
    case h_5 =>
      obtain rfl := Option.some.inj h
      exact .left _ _ _ ‹_›
    case h_6 => cases h
    all_goals
      obtain rfl := Option.some.inj h
      exact .returned _ _ ‹_› rfl
  | run =>
    dsimp only [step, unwindRound] at h
    split at h
    · split at h
      · rename_i hl
        obtain rfl := Option.some.inj h
        exact .unwinds _ _ ‹_› hl
      · rename_i hl
        obtain rfl := Option.some.inj h
        exact .unwound _ _ ‹_› (Nat.not_lt.mp hl)
    · cases h
  | push overlay renders =>
    obtain ⟨hm,hv⟩ := Option.ite_none_right_eq_some.mp h
    obtain rfl := Option.some.inj hv
    exact .push overlay renders hm
  | pop =>
    obtain ⟨hm,hv⟩ := Option.ite_none_right_eq_some.mp h
    obtain rfl := Option.some.inj hv
    exact .pop hm
  | popToRoot =>
    obtain ⟨hm,hv⟩ := Option.ite_none_right_eq_some.mp h
    obtain rfl := Option.some.inj hv
    exact .popToRoot hm
  | stopCurrent =>
    obtain ⟨hm,hv⟩ := Option.ite_none_right_eq_some.mp h
    obtain rfl := Option.some.inj hv
    exact .stopCurrent hm
  | openDialog alert done =>
    obtain ⟨hm,hv⟩ := Option.ite_none_right_eq_some.mp h
    obtain rfl := Option.some.inj hv
    exact .openDialog alert done hm
  | launch id =>
    obtain ⟨hm,hv⟩ := Option.ite_none_right_eq_some.mp h
    obtain rfl := Option.some.inj hv
    exact .launch id hm
  | workerStart returned created =>
    obtain ⟨hm,hv⟩ := Option.ite_none_right_eq_some.mp h
    obtain rfl := Option.some.inj hv
    exact .workerStart returned created hm
  | setCaps caps =>
    obtain ⟨hm,hv⟩ := Option.ite_none_right_eq_some.mp h
    obtain rfl := Option.some.inj hv
    exact .setCaps caps hm
  | fail =>
    obtain rfl := Option.some.inj h
    exact .fail

section
variable {A F : Type} [DecidableEq A]

theorem onBusEvent_cases (e : Event) (s : Ui A F) :
    onBusEvent e s = s ∨ onBusEvent e s = call (.unwind none) s ∨
    (∃ key action rest, s.stack = .dialog::rest ∧ onBusEvent e s = dialogKey key action s) ∨
    ∃ top rest back, s.stack = top::rest ∧
      onBusEvent e s = call (.event (decide (top ≠ .launcher)) back) s := by
  unfold onBusEvent
  cases hs : s.stack with
  | nil => exact Or.inl rfl
  | cons top rest =>
    dsimp only
    split
    · exact Or.inl rfl
    · exact Or.inr (Or.inl rfl)
    · rename_i key action _ _
      split
      · rename_i hd
        obtain rfl : top = .dialog := by cases top <;> first | rfl | cases hd
        exact Or.inr (Or.inr (Or.inl ⟨key,action,rest,rfl,rfl⟩))
      · exact Or.inr (Or.inr (Or.inr ⟨top,rest,_,rfl,rfl⟩))
    · split
      · exact Or.inl rfl
      · exact Or.inr (Or.inr (Or.inr ⟨top,rest,_,rfl,rfl⟩))

end

section
variable {A F I : Type}

theorem starkAppLaunch_cases (reg : Registry I A) (id : I) (s : Ui A F) :
    starkAppLaunch reg id s = s ∨
    ∃ a, s.current = none ∧ starkAppLaunch reg id s = call (.start a) s := by
  unfold starkAppLaunch
  split
  · exact Or.inl rfl
  · rename_i a _
    split_ifs with hc
    · exact Or.inl rfl
    · exact Or.inl rfl
    · exact Or.inr ⟨a,by simpa using hc,rfl⟩

theorem starkUiPush_cases (reg : Registry I A) (screen : Screen A) (renders : Bool)
    (s : Ui A F) :
    (∃ err, err ≠ .ok ∧ starkUiPush reg screen renders s = (err,s)) ∨
    starkUiPush reg screen renders s =
      (.ok,onEnter screen { s with stack := screen::s.stack }) := by
  unfold starkUiPush
  split_ifs
  · exact Or.inl ⟨_,by decide,rfl⟩
  · exact Or.inl ⟨_,by decide,rfl⟩
  · exact Or.inl ⟨_,by decide,rfl⟩
  · exact Or.inl ⟨_,by decide,rfl⟩
  · exact Or.inr rfl

theorem openDialog_cases (reg : Registry I A) (alert : Bool) (done : Option Bool) (s : Ui A F) :
    (openDialog reg alert done s).2 = s ∨ (s.dialog.isOpen = false ∧ ∃ dialog : Dialog Bool,
      dialog.closing = false ∧ dialog.okArmed = false ∧ dialog.backArmed = false ∧
      dialog.alert = alert ∧ dialog.done = done ∧
      ((dialog.isOpen = false ∧ (openDialog reg alert done s).2 = { s with dialog := dialog }) ∨
      (dialog.isOpen = true ∧ (openDialog reg alert done s).2 =
        { s with
          stack := .dialog::s.stack, dialog := dialog, opened := s.opened+1, keys := []
          openings := ⟨s.opened+1,alert,done⟩::s.openings }))) := by
  unfold openDialog
  split
  · exact Or.inl rfl
  · rename_i hopen
    refine Or.inr ⟨eq_false_of_ne_true hopen,?_⟩
    rcases starkUiPush_cases reg .dialog true { s with dialog :=
      { s.dialog with
        isOpen := true, closing := false, alert := alert, okArmed := false, backArmed := false
        done := done } } with ⟨err,hne,hp⟩ | hp
    · dsimp only
      rw [hp]
      refine ⟨⟨false,false,alert,false,false,s.dialog.result,done⟩,rfl,rfl,rfl,rfl,rfl,
        Or.inl ⟨rfl,?_⟩⟩
      cases err <;> first | rfl | exact absurd rfl hne
    · dsimp only
      rw [hp]
      exact ⟨_,rfl,rfl,rfl,rfl,rfl,Or.inr ⟨rfl,rfl⟩⟩

end

section
variable {A F I : Type} [DecidableEq A]

/-- The app's screen is on the stack with the manager's hook in the place of its own, or
its push was refused and the app is stopped. -/
theorem pushApp_cases (reg : Registry I A) (a : A) (n : ℕ) (renders : Bool) (s : Ui A F) :
    pushApp reg a n renders s =
      { s with
        frames := .enter::s.frames
        stack := .app a::s.stack
        hook := Function.update s.hook a .manager
        generation := s.generation+1
        launches := s.launches+1
        current := some (a,n)
        savedExit := s.hook a
        log := .launched n a (s.given a)::s.log } ∨
    pushApp reg a n renders s = stopApp a n
      { s with
        generation := s.generation+1
        launches := s.launches+1
        current := none
        savedExit := .null } := by
  unfold pushApp
  dsimp only
  rcases starkUiPush_cases reg (.app a) renders
    { s with
      generation := s.generation+1
      launches := s.launches+1
      current := some (a,n)
      savedExit := s.hook a
      hook := Function.update s.hook a .manager } with ⟨err,hne,hp⟩ | hp
  · right
    have hback : Function.update (Function.update s.hook a .manager) a (s.hook a) = s.hook := by
      rw [Function.update_idem, Function.update_eq_self]
    rw [hp]
    cases err <;> first | exact absurd rfl hne | (dsimp only; rw [hback])
  · left
    rw [hp]
    rfl

end

section
variable {A F : Type} [DecidableEq A]

theorem starkUiPop_cases (s : Ui A F) :
    (s.stack.length ≤ 1 ∧ (starkUiPop s).2 = s) ∨
    ∃ leaving below rest, s.stack = leaving::below::rest ∧
      (starkUiPop s).2 = onExit leaving { s with stack := below::rest } := by
  unfold starkUiPop
  split
  · rename_i leaving below rest hs
    exact Or.inr ⟨leaving,below,rest,hs,rfl⟩
  · rename_i hno
    refine Or.inl ⟨?_,rfl⟩
    cases hs : s.stack with
    | nil => exact Nat.zero_le _
    | cons leaving stack =>
      cases stack with
      | nil => exact Nat.le_refl _
      | cons below rest => exact absurd hs (hno leaving below rest)

end

def pair : Registry Bool Bool := ⟨some,fun _ => 0,fun _ => false⟩

end StarkOne.UiCalls
