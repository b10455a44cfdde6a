import StarkOne.RunLength
import StarkOne.IrCodec
import StarkOne.StarkErr

/-!
# The encoders

The nominal durations of a frame, pushed one after the other into a list that
takes no duration beyond its capacity. A field that does not fit its protocol
is refused.
-/

set_option autoImplicit false

namespace StarkOne.IrEncode
open StarkOne.IrCodec StarkOne.RunLength

/-- The list is unchanged when it is full or the duration is out of range. -/
def irPush (t : List ℕ) (us : ℕ) : List ℕ :=
  if irMaxDurations ≤ t.length || us = 0 || 65535 < us then t else t++[us]

def pushBits (fixed one nought word : ℕ) (i : ℕ) : ℕ → List ℕ → List ℕ
  | 0, t => t
  | n+1, t =>
    pushBits fixed one nought word (i+1) n
      (irPush (irPush t fixed) (if word.testBit i then one else nought))

/-- `~x & 0xFF` -/
def notByte (x : ℕ) : ℕ := (0xFFFFFFFF ^^^ x) &&& 0xFF

def irNecWord (f : IrFrame) : ℕ :=
  let addr := if f.protocol = .nec then f.address ||| notByte f.address <<< 8 else f.address
  addr ||| f.command <<< 16 ||| notByte f.command <<< 24

def irNecEncode (f : IrFrame) : Except Fault (List ℕ) :=
  if f.repeated then
    .ok (irPush (irPush (irPush [] necLeadMark) necRepeatSpace) necBitMark)
  else if 0xFF < f.command || (f.protocol = .nec && 0xFF < f.address) then .error .invalidArg
  else
    let t := irPush (irPush [] necLeadMark) necLeadSpace
    .ok (irPush (pushBits necBitMark necOneSpace necZeroSpace (irNecWord f) 0 32 t) necBitMark)

def sircBits : IrProtocol → ℕ
  | .sirc12 => 12
  | .sirc15 => 15
  | _ => 20

def irSircEncode (f : IrFrame) : Except Fault (List ℕ) :=
  let bits := sircBits f.protocol
  if 0x7F < f.command || 1 <<< (bits-7)-1 < f.address then .error .invalidArg
  else
    let word := f.command ||| f.address <<< 7
    .ok (pushBits sircSpace sircOneMark sircZeroMark word 0 bits (irPush [] sircStartMark))

def bitsDown (word : ℕ) : ℕ → List Bool
  | 0 => []
  | n+1 => word.testBit n::bitsDown word n

/-- A leading space is not emitted, nor is a trailing one. -/
def irBiphaseEmit (levels : List Bool) (unit : ℕ) (out : List ℕ) : List ℕ :=
  match levels.dropWhile (! ·) with
  | [] => out
  | a::rest => (runs a 1 rest).foldl (fun out run => irPush out (run*unit)) out

def irRc5Word (f : IrFrame) : ℕ :=
  1 <<< 13 ||| (if f.command &&& 0x40 ≠ 0 then 0 else 1 <<< 12) ||| f.toggle <<< 11 |||
    f.address <<< 6 ||| (f.command &&& 0x3F)

def irRc5Encode (f : IrFrame) : Except Fault (List ℕ) :=
  if 0x1F < f.address || 0x7F < f.command || 1 < f.toggle then .error .invalidArg
  else .ok (irBiphaseEmit (halves ((bitsDown (irRc5Word f) rc5Bits).map (! ·))) rc5Unit [])

def rc6Start : List Bool := [true,false,false,true,false,true,false,true]

def rc6Trailer (first : Bool) : List Bool := [first,first,!first,!first]

/-- A one is a mark, then a space; the trailer has twice the length. -/
def irRc6Levels (f : IrFrame) : List Bool :=
  rc6Start++rc6Trailer (f.toggle ≠ 0)++halves (bitsDown (f.address <<< 8 ||| f.command) 16)

def irRc6Encode (f : IrFrame) : Except Fault (List ℕ) :=
  if 0xFF < f.address || 0xFF < f.command || 1 < f.toggle then .error .invalidArg
  else .ok (irBiphaseEmit (irRc6Levels f) rc6Unit (irPush (irPush [] rc6LeadMark) rc6LeadSpace))

def irNecCarrierHz : ℕ := 38000
def irRc5CarrierHz : ℕ := 36000
def irRc6CarrierHz : ℕ := 36000
def irSircCarrierHz : ℕ := 40000

/-- The carrier is written for every protocol that has an encoder, also when the frame is refused. -/
def irEncodeCarrier : IrProtocol → Option ℕ
  | .unknown => none
  | .nec | .necx => some irNecCarrierHz
  | .rc5 => some irRc5CarrierHz
  | .rc6 => some irRc6CarrierHz
  | .sirc12 | .sirc15 | .sirc20 => some irSircCarrierHz

def irEncode (f : IrFrame) : Except Fault (List ℕ) :=
  match f.protocol with
  | .nec | .necx => irNecEncode f
  | .rc5 => irRc5Encode f
  | .rc6 => irRc6Encode f
  | .sirc12 | .sirc15 | .sirc20 => irSircEncode f
  | .unknown => .error .invalidArg

end StarkOne.IrEncode
