import Mathlib.Data.List.Sort
import StarkOne.IrNames
import StarkOne.IrTxGuard
import StarkOne.UiStack

/-!
# The IR app's worker

List, load and save run one at a time on the app's worker and share one signal
and one text with the app. A card call succeeds or fails as the environment
says, and the worker's steps are its card calls and its writes of what it shares.
-/

set_option autoImplicit false

namespace StarkOne.IrWork
open StarkOne.UiStack StarkOne.IrCodec StarkOne.IrRaw StarkOne.IrNames
open StarkOne.StoragePath (CStr)

inductive App where
  | ir
  deriving DecidableEq

inductive Mode where
  | view
  | browse
  deriving DecidableEq

inductive Note where
  | listed
  | loaded
  | failed
  | rx
  | txDone
  | txFailed
  deriving DecidableEq

structure IrBrowseEntry where
  name : CStr
  what : CStr
  valid : Bool

inductive Loading where
  | read
  | clear
  | parse
  deriving DecidableEq

inductive Saving where
  | names
  | format (name : CStr)
  | create (name : CStr)
  | write (name : CStr)
  | close (name : CStr)
  deriving DecidableEq

/-- Where the worker stands; a save worker remembers the signal it was asked for. -/
inductive IrWorker where
  | list
  | check (k : ℕ) (stage : Loading)
  | listed
  | load
  | loading (name : CStr) (stage : Loading)
  | loaded (ok : Bool)
  | save (asked : IrSignal) (stage : Saving)
  | ended
  deriving DecidableEq

inductive Call where
  | list
  | load
  | save (asked : IrSignal)
  deriving DecidableEq

structure Transmit where
  message : CStr
  shown : IrSignal
  name : CStr
  deriving DecidableEq

structure Sent where
  signal : IrSignal
  origin : Option CStr
  confirmed : Transmit
  deriving DecidableEq

structure Commit where
  name : CStr
  text : CStr
  asked : IrSignal
  deriving DecidableEq

/-- The app and the captures directory; `origin`, `sent` and `commits` are history. -/
structure IrApp where
  mode : Mode
  caps : List IrSignal
  slots : ℕ → IrBrowseEntry
  count : ℕ
  pick : ℕ
  busy : Bool
  name : CStr
  sending : Bool
  signal : IrSignal
  text : CStr
  calling : Option Call
  temp : Option (CStr × CStr)
  captures : List (CStr × CStr)
  origin : Option CStr
  sent : List Sent
  commits : List Commit

abbrev Phone : Type := Device App IrApp Transmit IrWorker Note

structure Answer where
  ok : Bool
  got : ℕ

def irbrowseMax : ℕ := 16
def irbrowseNameLen : ℕ := 24
def irbrowseWhatLen : ℕ := 24
def saveNameLen : ℕ := 16

def snprintf (len : ℕ) (text : CStr) : CStr := text.take (len-1)

def irappDescribe (s : IrSignal) (len : ℕ) : CStr :=
  let f := s.frame
  snprintf len
    (if f.protocol = .unknown then "RAW ".toList++decimal s.timings.length
    else if f.repeated then irProtocolName f.protocol++" repeat".toList
    else irProtocolName f.protocol++" ".toList++hexadecimal 2 f.address++"/".toList++
      hexadecimal 2 f.command)

/-- `irapp_load` up to its next step, or to its result. -/
def irappLoad (io : Answer) (name : CStr) (s : IrApp) : Loading → (Loading ⊕ StarkErr) × IrApp
  | .read =>
    match s.captures.lookup name with
    | none => (.inr .notFound,s)
    | some content =>
      if io.ok then (.inl .clear,{ s with text := content.take irRawTextMax })
      else (.inr .io,{ s with text := content.take io.got })
  | .clear => (.inl .parse,{ s with signal := zeroSignal, origin := none })
  | .parse =>
    let (err,out) := irRawParse s.text
    (.inr err,{ s with signal := out, origin := if err = .ok then some name else none })

def collect (s : IrApp) (name : CStr) : Bool × IrApp :=
  if name.length < 4 || !".ir".toList.isSuffixOf name || s.count = irbrowseMax then
    (s.count < irbrowseMax,s)
  else (true,{ s with
    slots := Function.update s.slots s.count
      { s.slots s.count with name := snprintf irbrowseNameLen name }
    count := s.count+1 })

def collectAll (s : IrApp) : List CStr → IrApp
  | [] => s
  | name::rest =>
    let (more,s) := collect s name
    if more then collectAll s rest else s

def browseOrder (a b : IrBrowseEntry) : Prop := irNamesCompare a.name b.name ≠ .gt

instance : DecidableRel browseOrder :=
  fun a b => inferInstanceAs (Decidable (irNamesCompare a.name b.name ≠ .gt))

def sortSlots (s : IrApp) : IrApp :=
  let sorted := ((List.range s.count).map s.slots).insertionSort browseOrder
  { s with slots := fun k => sorted.getD k (s.slots k) }

def setEntry (k : ℕ) (valid : Bool) (what : CStr) (s : IrApp) : IrApp :=
  { s with slots := Function.update s.slots k { s.slots k with what := what, valid := valid } }

def storeCapture (name text : CStr) (files : List (CStr × CStr)) : List (CStr × CStr) :=
  files.filter (fun f => f.1 ≠ name)++[(name,text)]

/-- `write_one` in its steps; the file is written under a temporary name. -/
def writeOne (io : Answer) (asked : IrSignal) (s : IrApp) : Saving → IrWorker × IrApp
  | .names =>
    if !io.ok then (.ended,s)
    else match irNamesNext ((s.captures.map Prod.fst).foldl irNamesScan 0) saveNameLen with
      | .error _ => (.ended,s)
      | .ok name => (.save asked (.format name),s)
  | .format name =>
    let out := irRawFormat s.signal irRawTextMax
    (if out = [] then .ended else .save asked (.create name),{ s with text := out })
  | .create name =>
    if !io.ok then (.ended,s)
    else (.save asked (.write name),{ s with temp := some (name,[]) })
  | .write name =>
    if !io.ok then (.ended,{ s with temp := none })
    else (.save asked (.close name),{ s with temp := some (name,s.text) })
  | .close _ =>
    match io.ok, s.temp with
    | true, some (name,text) => (.ended,{ s with
        temp := none
        captures := storeCapture name text s.captures
        commits := ⟨name,text,asked⟩::s.commits })
    | _, _ => (.ended,{ s with temp := none })

variable (cap : ℕ)

def goOn (w : IrWorker) (s : IrApp) (d : Phone) : Phone :=
  { d with worker := .running w, state := s }

def notify (what : Note) (d : Phone) : Phone := starkEventPublish cap (.other what) d

/-- One step of the worker; only the list looks at the stop flag. -/
def workStep (stop : Bool) (io : Answer) (w : IrWorker) (d : Phone) : Phone :=
  let s := d.state
  match w with
  | .list =>
    let names := s.captures.map Prod.fst
    let s := { s with count := 0 }
    goOn (.check 0 .read)
      (if io.ok then sortSlots (collectAll s names) else collectAll s (names.take io.got)) d
  | .check k stage =>
    if stage = .read ∧ (s.count ≤ k ∨ stop = true) then goOn .listed s d
    else match irappLoad io (s.slots k).name s stage with
      | (.inl next,s) => goOn (.check k next) s d
      | (.inr .ok,s) =>
        goOn (.check (k+1) .read) (setEntry k true (irappDescribe s.signal irbrowseWhatLen) s) d
      | (.inr _,s) => goOn (.check (k+1) .read) (setEntry k false "(invalid)".toList s) d
  | .listed => notify cap .listed (goOn .ended s d)
  | .load => goOn (.loading (s.slots s.pick).name .read) s d
  | .loading name stage =>
    match irappLoad io name s stage with
    | (.inl next,s) => goOn (.loading name next) s d
    | (.inr err,s) => goOn (.loaded (err = .ok)) s d
  | .loaded ok => notify cap (if ok then .loaded else .failed) (goOn .ended s d)
  | .save asked stage =>
    let (w,s) := writeOne io asked s stage
    goOn w s d
  | .ended => { d with worker := .returned }

def joinSteps : List Answer → Phone → Phone
  | [], d => d
  | io::rest, d =>
    match d.worker with
    | .running w => joinSteps rest (workStep cap true io w d)
    | _ => d

theorem joinSteps_keeps {Inv : Phone → Prop}
    (hk : ∀ stop io w d, Inv d → d.worker = .running w → Inv (workStep cap stop io w d))
    (ios : List Answer) {d : Phone} (h : Inv d) : Inv (joinSteps cap ios d) := by
  induction ios generalizing d with
  | nil => exact h
  | cons io rest ih =>
    unfold joinSteps
    split
    · exact ih (hk true io _ d h ‹_›)
    · exact h

end StarkOne.IrWork
