import Mathlib.Data.List.FinRange
import StarkOne.StorageIo

/-!
# The file helpers

Four handle slots over the file-system calls. Each function is one call under
the storage lock, so runs of these functions are the runs of the component. A
handle is used while its slot holds it; `ioErrors` counts the reports to the
service. The rest of the service is two actions on this state: the volume goes
away, and a volume is mounted and prepared.
-/

set_option autoImplicit false

namespace StarkOne.StorageFile
open StarkOne.InodeDisk StarkOne.StoragePath StarkOne.StorageIo

inductive StarkFileMode where
  | read
  | writeAtomic
  | append
  deriving DecidableEq, Repr

structure StarkFile where
  stale : Bool
  fd : ℕ
  generation : ℕ
  mode : StarkFileMode
  path : CStr
  tmp : CStr

abbrev Slot := Fin 4

structure Files where
  io : Io
  root : CStr
  mounted : Bool
  generation : ℕ
  ioErrors : ℕ
  slots : Slot → Option StarkFile

def fail (e : Errno) (s : Files) : StarkErr × Files :=
  let err := storageMapErrno e
  (err,if err = .io then { s with ioErrors := s.ioErrors+1 } else s)

def usable (s : Files) (k : Slot) : StarkErr :=
  match s.slots k with
  | none => .invalidArg
  | some f => if f.stale || !s.mounted || s.generation != f.generation then .io else .ok

def setSlot (s : Files) (k : Slot) (f : Option StarkFile) : Files :=
  { s with slots := Function.update s.slots k f }

def release (s : Files) (k : Slot) : Files := setSlot s k none

def freeSlot (s : Files) : Option Slot := (List.finRange 4).find? (fun k => (s.slots k).isNone)

def openFlags : StarkFileMode → OpenFlags
  | .read => .rdonly
  | .writeAtomic => .creatTrunc
  | .append => .creatAppend

section
variable (o : ℕ → Outcome)

/-- A call that either succeeds or fails the operation with its errno. -/
def attempt {α : Type} (r : Except Errno α × Io) (s : Files) : StarkErr × Files :=
  match r with
  | (.ok _,io) => (.ok,{ s with io := io })
  | (.error e,io) => fail e { s with io := io }

def starkStorageOpen (s : Files) (dir : StarkDir) (name : CStr) (mode : StarkFileMode) :
    StarkErr × Option Slot × Files :=
  match storagePathBuild s.root dir name false storagePathMax,
    storagePathBuild s.root dir name true storagePathMax with
  | .error e, _ => (e.code,none,s)
  | .ok _, .error e => (e.code,none,s)
  | .ok path, .ok tmp =>
    if !s.mounted then (.state,none,s)
    else match freeSlot s with
      | none => (.busy,none,s)
      | some k =>
        match ioOpen o (if mode = .writeAtomic then tmp else path) (openFlags mode) s.io with
        | (.error e,io) =>
          let r := fail e { s with io := io }
          (r.1,none,r.2)
        | (.ok fd,io) =>
          (.ok,some k,setSlot { s with io := io } k (some ⟨false,fd,s.generation,mode,path,tmp⟩))

/-- The loop of a write; each round that goes on has taken at least one byte. -/
def writeLoop (fd : ℕ) : ℕ → List UInt8 → Files → StarkErr × Files
  | _, [], s => (.ok,s)
  | 0, _::_, s => (.ok,s)
  | rounds+1, p, s =>
    match ioWrite o fd p s.io with
    | (.error e,io) => fail e { s with io := io }
    | (.ok n,io) =>
      if n = 0 then (.noSpace,{ s with io := io })
      else writeLoop fd rounds (p.drop n) { s with io := io }

def starkStorageWrite (s : Files) (k : Slot) (buf : List UInt8) : StarkErr × Files :=
  match usable s k, s.slots k with
  | .ok, some f =>
    if f.mode = .read then (.state,s) else writeLoop o f.fd buf.length buf s
  | err, _ => (err,s)

/-- The steps of a close, each on the error so far. -/
def closeSync (f : StarkFile) (s : Files) : StarkErr × Files :=
  if f.mode ≠ .read then attempt (ioFsync o f.fd s.io) s else (.ok,s)

def closeFd (f : StarkFile) (r : StarkErr × Files) : StarkErr × Files :=
  let c := ioClose o f.fd r.2.io
  if r.1 = .ok then attempt c r.2 else (r.1,{ r.2 with io := c.2 })

def closeUnlink (f : StarkFile) (r : StarkErr × Files) : StarkErr × Files :=
  if f.mode = .writeAtomic ∧ r.1 = .ok then
    match ioUnlink o f.path r.2.io with
    | (.error .enoent,io) => (.ok,{ r.2 with io := io })
    | u => attempt u r.2
  else r

def closeRename (f : StarkFile) (r : StarkErr × Files) : StarkErr × Files :=
  if f.mode = .writeAtomic ∧ r.1 = .ok then attempt (ioRename o f.tmp f.path r.2.io) r.2 else r

def closeDrop (f : StarkFile) (r : StarkErr × Files) : StarkErr × Files :=
  if f.mode = .writeAtomic ∧ r.1 ≠ .ok ∧ r.1 ≠ .io then
    (r.1,{ r.2 with io := (ioUnlink o f.tmp r.2.io).2 })
  else r

def starkStorageClose (s : Files) (k : Slot) : StarkErr × Files :=
  match usable s k, s.slots k with
  | .ok, some f =>
    let r := closeDrop o f (closeRename o f (closeUnlink o f (closeFd o f (closeSync o f s))))
    (r.1,release r.2 k)
  | .invalidArg, _ => (.invalidArg,s)
  | err, _ => (err,release s k)

def starkStorageDiscard (s : Files) (k : Slot) : Files :=
  match usable s k, s.slots k with
  | .ok, some f =>
    let s := { s with io := (ioClose o f.fd s.io).2 }
    let s := if f.mode = .writeAtomic then { s with io := (ioUnlink o f.tmp s.io).2 } else s
    release s k
  | .invalidArg, _ => s
  | _, _ => release s k

def starkStorageRemove (s : Files) (dir : StarkDir) (name : CStr) : StarkErr × Files :=
  match storagePathBuild s.root dir name false storagePathMax with
  | .error e => (e.code,s)
  | .ok path => if !s.mounted then (.state,s) else attempt (ioUnlink o path s.io) s

def storageFilesRename (s : Files) (dir : StarkDir) (src dst : CStr) : StarkErr × Files :=
  match storagePathBuild s.root dir src false storagePathMax,
    storagePathBuild s.root dir dst false storagePathMax with
  | .error e, _ => (e.code,s)
  | .ok _, .error e => (e.code,s)
  | .ok a, .ok b => if !s.mounted then (.state,s) else attempt (ioRename o a b s.io) s

/-- The files of a directory with their sizes; temporary files are left out. -/
def starkStorageList (s : Files) (dir : StarkDir) : StarkErr × List (CStr × ℕ) × Files :=
  match storageDirPath s.root dir storagePathMax with
  | .error e => (e.code,[],s)
  | .ok path =>
    if !s.mounted then (.state,[],s)
    else match ioList o path s.io with
      | (.error e,io) =>
        let r := fail e { s with io := io }
        (r.1,[],r.2)
      | (.ok names,io) =>
        (.ok,(names.filter storageNameValid).map fun name =>
          (name,((s.io.disk.content (path ++ '/'::name)).getD []).length),{ s with io := io })

def storageFilesSize (s : Files) (dir : StarkDir) (name : CStr) : StarkErr × ℕ × Files :=
  match starkStorageList o s dir with
  | (.ok,entries,s) => match entries.find? (fun e => e.1 = name) with
    | none => (.notFound,0,s)
    | some e => (.ok,e.2,s)
  | (err,_,s) => (err,0,s)

def invalidateOne (s : Files) (k : Slot) : Files :=
  match s.slots k with
  | none => s
  | some f =>
    if f.stale then s
    else setSlot { s with io := (ioClose o f.fd s.io).2 } k (some { f with stale := true })

def storageFilesInvalidate (s : Files) : Files := (List.finRange 4).foldl (invalidateOne o) s

def sweepOne (dir name : CStr) (r : ℕ × Files) : ℕ × Files :=
  if !tmpSuffix.isSuffixOf name || dir.length+1+name.length ≥ storagePathMax+storageNameMax then r
  else match ioUnlink o (dir ++ '/'::name) r.2.io with
    | (.ok _,io) => (r.1+1,{ r.2 with io := io })
    | (.error _,io) => (r.1,{ r.2 with io := io })

def makeDir (path : CStr) (s : Files) : StarkErr × Files :=
  match ioMkdir o path s.io with
  | (.error .eexist,io) => (.ok,{ s with io := io })
  | r => attempt r s

def prepareDirs : List StarkDir → ℕ × Files → StarkErr × ℕ × Files
  | [], r => (.ok,r)
  | d::ds, (n,s) =>
    match storageDirPath s.root d storagePathMax with
    | .error e => (e.code,n,s)
    | .ok path =>
      let (err,s) := makeDir o path s
      if err ≠ .ok then (err,n,s)
      else match ioList o path s.io with
        | (.error e,io) =>
          let r := fail e { s with io := io }
          (r.1,n,r.2)
        | (.ok names,io) =>
          prepareDirs ds (names.foldl (fun r name => sweepOne o path name r) (n,{ s with io := io }))

def dirname (path : CStr) : CStr := (path.reverse.dropWhile (· != '/')).tail.reverse

def storageFilesPrepare (s : Files) : StarkErr × ℕ × Files :=
  match storageDirPath s.root .captures storagePathMax with
  | .error e => (e.code,0,s)
  | .ok path =>
    let (err,s) := makeDir o (dirname path) s
    if err ≠ .ok then (err,0,s)
    else prepareDirs o [.captures,.logs,.apps,.config] (0,s)

/-- The volume goes away: every open handle goes stale first. -/
def volumeLost (s : Files) : Files := { storageFilesInvalidate o s with mounted := false }

/-- A volume is mounted, which begins a new generation of handles. -/
def volumeMounted (s : Files) : Files :=
  if s.mounted then s
  else (storageFilesPrepare o { s with mounted := true, generation := u32 (s.generation+1) }).2.2

end

theorem usable_cases (s : Files) (k : Slot) :
    (s.slots k = none ∧ usable s k = .invalidArg) ∨
    ∃ f, s.slots k = some f ∧ ((usable s k = .io ∧
        (f.stale = true ∨ s.mounted = false ∨ s.generation ≠ f.generation)) ∨
      (usable s k = .ok ∧ f.stale = false ∧ s.mounted = true ∧ s.generation = f.generation)) := by
  unfold usable
  cases hk : s.slots k with
  | none => exact Or.inl ⟨rfl,rfl⟩
  | some f =>
    refine Or.inr ⟨f,rfl,?_⟩
    dsimp only
    by_cases hc : (f.stale || !s.mounted || s.generation != f.generation) = true
    · rw [if_pos hc]
      refine Or.inl ⟨rfl,?_⟩
      simpa [or_assoc] using hc
    · rw [if_neg hc]
      refine Or.inr ⟨rfl,?_⟩
      simpa [and_assoc] using hc

theorem writeLoop_cons (o : ℕ → Outcome) (fd rounds : ℕ) (b : UInt8) (p : List UInt8) (s : Files) :
    writeLoop o fd (rounds+1) (b::p) s =
      match ioWrite o fd (b::p) s.io with
      | (.error e,io) => fail e { s with io := io }
      | (.ok n,io) =>
        if n = 0 then (.noSpace,{ s with io := io })
        else writeLoop o fd rounds ((b::p).drop n) { s with io := io } := rfl

@[simp] theorem fail_io (e : Errno) (s : Files) : (fail e s).2.io = s.io := by
  unfold fail
  dsimp only
  split <;> rfl

@[simp] theorem fail_slots (e : Errno) (s : Files) : (fail e s).2.slots = s.slots := by
  unfold fail
  dsimp only
  split <;> rfl

theorem fail_ne_ok (e : Errno) (s : Files) : (fail e s).1 ≠ .ok := storageMapErrno_ne_ok e

@[simp] theorem attempt_io {α : Type} (r : Except Errno α × Io) (s : Files) :
    (attempt r s).2.io = r.2 := by
  obtain ⟨_ | _,io⟩ := r
  · exact fail_io _ _
  · rfl

theorem attempt_ok {α : Type} (r : Except Errno α × Io) (s : Files) :
    (attempt r s).1 = .ok ↔ ∃ a, r.1 = .ok a := by
  obtain ⟨e | a,io⟩ := r
  · exact ⟨fun h => absurd h (fail_ne_ok _ _),fun ⟨a,h⟩ => by cases h⟩
  · exact ⟨fun _ => ⟨a,rfl⟩,fun _ => rfl⟩

end StarkOne.StorageFile
