import Mathlib.Data.UInt
import Mathlib.Data.List.Basic
import StarkOne.UiStack

/-!
# The key state machine

Samples of all keys come with the time; the actions they give rise to go into
an array of the caller. A level counts once it was stable for the debounce
time. Elapsed times are differences of a clock that wraps.
-/

set_option autoImplicit false

namespace StarkOne.KeyInput
open StarkOne.UiStack (StarkKey StarkKeyAction)

def starkKeys : List StarkKey := [.up,.down,.left,.right,.ok,.back]

def keyIndex : StarkKey → UInt8
  | .up => 0
  | .down => 1
  | .left => 2
  | .right => 3
  | .ok => 4
  | .back => 5

structure InputCoreTiming where
  debounceMs : UInt16
  longMs : UInt16
  repeatDelayMs : UInt16
  repeatIntervalMs : UInt16
  deriving DecidableEq

structure InputAction where
  key : StarkKey
  action : StarkKeyAction
  count : UInt8
  deriving DecidableEq, Repr

structure InputKeyState where
  raw : Bool
  pressed : Bool
  rawSince : UInt32
  pressedAt : UInt32
  nextRepeat : UInt32
  repeats : UInt8
  longSent : Bool
  deriving DecidableEq

structure InputCore where
  key : StarkKey → InputKeyState
  t : InputCoreTiming
  chord : Bool

def inputRepeatMinMs : UInt16 := 40
def inputCoreMaxActions : ℕ := 2*starkKeys.length+1

structure Sink where
  max : ℕ
  out : List InputAction

def emit (s : Sink) (k : StarkKey) (action : StarkKeyAction) (count : UInt8) : Sink :=
  if s.out.length < s.max then { s with out := s.out++[⟨k,action,count⟩] } else s

def keyRepeats : StarkKey → Bool
  | .up | .down | .left | .right => true
  | .ok | .back => false

def emitLong (s : Sink) (k : StarkKey) (st : InputKeyState) : Sink × InputKeyState :=
  (emit s k .long 0,{ st with longSent := true })

def emitRepeat (s : Sink) (k : StarkKey) (st : InputKeyState) (held : UInt32) (interval : UInt16) :
    Sink × InputKeyState :=
  let st := if st.repeats < 255 then { st with repeats := st.repeats+1 } else st
  let s := emit s k .repeated st.repeats
  let st := { st with nextRepeat := st.nextRepeat+interval.toUInt32 }
  -- Updates arrived late: the missed repeats are skipped.
  if st.nextRepeat ≤ held then (s,{ st with nextRepeat := held+interval.toUInt32 }) else (s,st)

def sampled (st : InputKeyState) (raw : Bool) (now : UInt32) : InputKeyState :=
  if raw ≠ st.raw then { st with raw := raw, rawSince := now } else st

/-- `quiet`: a chord is latched and this is one of its keys. -/
def updateKey (s : Sink) (k : StarkKey) (st : InputKeyState) (raw : Bool) (now : UInt32)
    (t : InputCoreTiming) (quiet : Bool) : Sink × InputKeyState :=
  let st := sampled st raw now
  let stable := decide (t.debounceMs.toUInt32 ≤ now-st.rawSince)
  if !st.pressed then
    if raw && stable then
      (emit s k .press 0,{ st with
        pressed := true, pressedAt := now, nextRepeat := t.repeatDelayMs.toUInt32, repeats := 0,
        longSent := false })
    else (s,st)
  else
  let held := now-st.pressedAt
  if !raw && stable then
    let (s,st) :=
      if !quiet && !st.longSent && t.longMs.toUInt32 ≤ held then emitLong s k st else (s,st)
    let s := emit s k .release 0
    let s := if !quiet && !st.longSent then emit s k .short 0 else s
    (s,{ st with pressed := false })
  else
  let longDue := !quiet && !st.longSent && t.longMs.toUInt32 ≤ held
  let repeatDue := keyRepeats k && st.nextRepeat ≤ held
  if longDue && repeatDue && st.nextRepeat < t.longMs.toUInt32 then
    let (s,st) := emitRepeat s k st held t.repeatIntervalMs
    emitLong s k st
  else
  let (s,st) := if longDue then emitLong s k st else (s,st)
  if repeatDue then emitRepeat s k st held t.repeatIntervalMs else (s,st)

def inputCoreTimingValid (t : InputCoreTiming) : Bool :=
  inputRepeatMinMs ≤ t.repeatIntervalMs && t.debounceMs ≤ t.repeatDelayMs && t.debounceMs < t.longMs

def defaultTiming : InputCoreTiming := ⟨20,500,400,120⟩

/-- Every key released, no history; without a timing the default one is taken. -/
def inputCoreInit (t : Option InputCoreTiming) : Except Fault InputCore :=
  let t := t.getD defaultTiming
  if !inputCoreTimingValid t then .error .invalidArg
  else .ok ⟨fun _ => ⟨false,false,0,0,0,0,false⟩,t,false⟩

def chordKey (k : StarkKey) : Bool := k = .ok || k = .back

def rawLevel (rawBitmap : UInt8) (k : StarkKey) : Bool := (rawBitmap >>> keyIndex k) &&& 1 ≠ 0

def updateKeys (rawBitmap : UInt8) (now : UInt32) (c : InputCore) :
    List StarkKey → Sink × (StarkKey → InputKeyState) → Sink × (StarkKey → InputKeyState)
  | [], r => r
  | k::ks, (s,key) =>
    let u := updateKey s k (key k) (rawLevel rawBitmap k) now c.t (c.chord && chordKey k)
    updateKeys rawBitmap now c ks (u.1,fun j => if j = k then u.2 else key j)

/-- The actions in an array of `maxOut`, and the state after it. -/
def inputCoreUpdate (c : InputCore) (rawBitmap : UInt8) (now : UInt32) (maxOut : ℕ) :
    List InputAction × InputCore :=
  let (sink,key) := updateKeys rawBitmap now c starkKeys (⟨maxOut,[]⟩,c.key)
  let ok := (key .ok).pressed
  let back := (key .back).pressed
  if !c.chord && ok && back then ((emit sink .ok .chord 0).out,⟨key,c.t,true⟩)
  else if c.chord && !ok && !back then (sink.out,⟨key,c.t,false⟩)
  else (sink.out,⟨key,c.t,c.chord⟩)

end StarkOne.KeyInput
