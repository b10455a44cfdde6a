import StarkOne.Machine
import StarkOne.NumberedNames
import StarkOne.StorageFile

/-!
# The log writer

Everything in the ring goes to `stark.log`, which is rotated before it would
pass its limit: the oldest file goes, the others move up by one. A step of the
rotation that fails leaves the rest of it for the next time.
-/

set_option autoImplicit false

namespace StarkOne.StorageLog
open StarkOne.InodeDisk StarkOne.StoragePath StarkOne.StorageIo StarkOne.StorageFile

def logRotateMaxFiles : ℕ := 8

/-- Where a file moves; without a new place it is deleted. -/
structure LogRotateStep where
  src : ℕ
  dst : Option ℕ
  deriving DecidableEq

def shifts : ℕ → List LogRotateStep
  | 0 => []
  | i+1 => ⟨i,some (i+1)⟩::shifts i

def logRotatePlan (size add limit : UInt32) (files max : ℕ) : List LogRotateStep :=
  if size = 0 ∨ size.toNat+add.toNat ≤ limit.toNat ∨ files = 0 ∨ max < files then []
  else ⟨files-1,none⟩::shifts (files-1)

def logRotateName (index len : ℕ) : CStr :=
  (if index = 0 then "stark.log".toList
    else "stark.".toList++Nat.toDigits 10 index++".log".toList).take (len-1)

def logName : CStr := "stark.log".toList

structure LogWriter where
  limit : UInt32
  files : ℕ
  sizeKnown : Bool
  size : UInt32
  written : UInt32
  announced : Bool

def storageLogOnMount (w : LogWriter) : LogWriter :=
  { w with sizeKnown := false, size := 0, written := 0, announced := false }

def storageLogInit (limit : UInt32) (files : ℕ) : LogWriter :=
  storageLogOnMount ⟨limit,max 1 (min files logRotateMaxFiles),false,0,0,false⟩

def okOrMissing (err : StarkErr) : Bool := err = .ok || err = .notFound

section
variable (o : ℕ → Outcome)

def rotateStep (step : LogRotateStep) (s : Files) : StarkErr × Files :=
  match step.dst with
  | none => starkStorageRemove o s .logs (logRotateName step.src 24)
  | some dst => storageFilesRename o s .logs (logRotateName step.src 24) (logRotateName dst 24)

def rotateSteps : List LogRotateStep → Files → Bool × Files
  | [], s => (true,s)
  | step::rest, s =>
    let (err,s) := rotateStep o step s
    if okOrMissing err then rotateSteps rest s else (false,s)

def plan (w : LogWriter) (add : UInt32) : List LogRotateStep :=
  logRotatePlan w.size add w.limit w.files logRotateMaxFiles

def rotate (add : UInt32) (w : LogWriter) (s : Files) : Bool × LogWriter × Files :=
  let steps := plan w add
  match rotateSteps o steps s with
  | (false,s) => (false,w,s)
  | (true,s) => (true,if steps ≠ [] then { w with size := 0 } else w,s)

def append (marker chunk : List UInt8) (s : Files) : StarkErr × Files :=
  match starkStorageOpen o s .logs logName .append with
  | (.ok,some k,s) =>
    let r := starkStorageWrite o s k marker
    let r := if r.1 = .ok then starkStorageWrite o r.2 k chunk else r
    let c := starkStorageClose o r.2 k
    (if r.1 ≠ .ok then r.1 else c.1,c.2)
  | (err,_,s) => (err,s)

structure Taken where
  chunk : List UInt8
  dropped : UInt32

def dropMarker (dropped : UInt32) : List UInt8 :=
  if dropped = 0 then []
  else (("--- ".toList++Nat.toDigits 10 dropped.toNat++" log lines dropped ---\n".toList).take 47).map
    fun c => UInt8.ofNat c.toNat

def readSize (w : LogWriter) (s : Files) : StarkErr × LogWriter × Files :=
  if w.sizeKnown then (.ok,w,s)
  else match storageFilesSize o s .logs logName with
    | (.ok,size,s) => (.ok,{ w with sizeKnown := true, size := UInt32.ofNat size },s)
    | (.notFound,_,s) => (.ok,{ w with sizeKnown := true, size := 0 },s)
    | (err,_,s) => (err,w,s)

def Taken.bytes (t : Taken) : List UInt8 := dropMarker t.dropped++t.chunk

def Taken.add (t : Taken) : UInt32 := UInt32.ofNat (t.chunk.length+(dropMarker t.dropped).length)

def appended (t : Taken) (w : LogWriter) (s : Files) : StarkErr × LogWriter × Files :=
  match append o (dropMarker t.dropped) t.chunk s with
  | (.ok,s) => (.ok,{ w with size := w.size+t.add, written := w.written+t.add, announced := true },s)
  | (err,s) => (err,{ w with sizeKnown := false },s)

def flushRound (t : Taken) (w : LogWriter) (s : Files) : StarkErr × LogWriter × Files :=
  match readSize o w s with
  | (.ok,w,s) =>
    let (_,w,s) := rotate o t.add w s
    appended o t w s
  | (err,w,s) => (err,w,s)

/-- The rounds go on until the ring has nothing more, or one goes wrong; also whether the
first bytes since the mount were written. -/
def storageLogFlush : List Taken → LogWriter → Files → StarkErr × Bool × LogWriter × Files
  | [], w, s => (.ok,false,w,s)
  | t::ts, w, s =>
    if t.chunk = [] ∧ dropMarker t.dropped = [] then (.ok,false,w,s)
    else match flushRound o t w s with
      | (.ok,w',s) =>
        let (err,first,w',s) := storageLogFlush ts w' s
        (err,first || !w.announced,w',s)
      | (err,w,s) => (err,false,w,s)

end

end StarkOne.StorageLog
