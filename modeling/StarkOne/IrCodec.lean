import Mathlib.Data.Nat.Bitwise
import StarkOne.StoragePath

/-!
# Infrared signals and the frames they carry

A signal is a list of durations in microseconds, marks and spaces in turn,
with a carrier. Each decoder reads the whole list as one frame of its own
protocol, with the tolerance that all of them share, or answers nothing.
-/

set_option autoImplicit false

namespace StarkOne.IrCodec
open StarkOne.StoragePath (CStr)

inductive IrProtocol where
  | unknown
  | nec
  | necx
  | rc5
  | rc6
  | sirc12
  | sirc15
  | sirc20
  deriving DecidableEq, Repr

def irProtocolName : IrProtocol → CStr
  | .unknown => "RAW".toList
  | .nec => "NEC".toList
  | .necx => "NECX".toList
  | .rc5 => "RC5".toList
  | .rc6 => "RC6".toList
  | .sirc12 => "SIRC12".toList
  | .sirc15 => "SIRC15".toList
  | .sirc20 => "SIRC20".toList

structure IrFrame where
  protocol : IrProtocol
  address : ℕ
  command : ℕ
  repeated : Bool
  toggle : ℕ
  deriving DecidableEq, Repr

structure IrSignal where
  timings : List ℕ
  carrierHz : ℕ
  frame : IrFrame
  deriving DecidableEq, Repr

def noFrame : IrFrame := ⟨.unknown,0,0,false,0⟩

def zeroSignal : IrSignal := ⟨[],0,noFrame⟩

def irMaxDurations : ℕ := 256
def irTolPct : ℕ := 25
def irTolFloorUs : ℕ := 60

def irMatch (measured nominal : ℕ) : Bool :=
  let tol := max (nominal*irTolPct/100) irTolFloorUs
  nominal-tol ≤ measured && measured ≤ nominal+tol

/-- Pairs of a fixed pulse and one whose length is the bit, the low bit first. -/
def irPulses (fixed one nought : ℕ) (i word : ℕ) : List ℕ → Option ℕ
  | a::b::rest =>
    if !irMatch a fixed then none
    else if irMatch b one then irPulses fixed one nought (i+1) (word ||| 1 <<< i) rest
    else if irMatch b nought then irPulses fixed one nought (i+1) word rest
    else none
  | _ => some word

def necLeadMark : ℕ := 9000
def necLeadSpace : ℕ := 4500
def necRepeatSpace : ℕ := 2250
def necBitMark : ℕ := 560
def necZeroSpace : ℕ := 560
def necOneSpace : ℕ := 1690
def necFullLen : ℕ := 2+64+1
def necRepeatLen : ℕ := 3

def irNecFrame (word : ℕ) : Option IrFrame :=
  let a := word &&& 0xFF
  let na := word >>> 8 &&& 0xFF
  let c := word >>> 16 &&& 0xFF
  let nc := word >>> 24 &&& 0xFF
  if c ^^^ nc ≠ 0xFF then none
  else if a ^^^ na = 0xFF then some ⟨.nec,a,c,false,0⟩
  else some ⟨.necx,a ||| na <<< 8,c,false,0⟩

def irNecDecode (t : List ℕ) : Option IrFrame :=
  let d := fun i => t.getD i 0
  if t.length = necRepeatLen && irMatch (d 0) necLeadMark && irMatch (d 1) necRepeatSpace &&
      irMatch (d 2) necBitMark then some ⟨.nec,0,0,true,0⟩
  else if t.length ≠ necFullLen || !irMatch (d 0) necLeadMark || !irMatch (d 1) necLeadSpace ||
      !irMatch (d (necFullLen-1)) necBitMark then none
  else (irPulses necBitMark necOneSpace necZeroSpace 0 0 ((t.drop 2).take 64)).bind irNecFrame

def sircStartMark : ℕ := 2400
def sircSpace : ℕ := 600
def sircOneMark : ℕ := 1200
def sircZeroMark : ℕ := 600

def sircOf (n : ℕ) : Option IrProtocol :=
  if n = 1+2*12 then some .sirc12
  else if n = 1+2*15 then some .sirc15
  else if n = 1+2*20 then some .sirc20
  else none

def irSircDecode (t : List ℕ) : Option IrFrame := do
  let p ← sircOf t.length
  if !irMatch (t.getD 0 0) sircStartMark then none
  else
    let word ← irPulses sircSpace sircOneMark sircZeroMark 0 0 t.tail
    some ⟨p,word >>> 7,word &&& 0x7F,false,0⟩

def irBiphaseExpand (unit maxK cap : ℕ) (level : Bool) (halves : List Bool) :
    List ℕ → Option (List Bool)
  | [] => some halves
  | d::rest =>
    let k := (d+unit/2)/unit
    if k < 1 || maxK < k || !irMatch d (k*unit) || cap < halves.length+k then none
    else irBiphaseExpand unit maxK cap (!level) (halves++List.replicate k level) rest

def irBiphaseBits (bit : Bool → Bool → Bool) (word : ℕ) : List Bool → Option ℕ
  | a::b::rest =>
    if a = b then none else irBiphaseBits bit (word <<< 1 ||| (bit a b).toNat) rest
  | _ => some word

def rc5Unit : ℕ := 889
def rc5Bits : ℕ := 14

def irRc5Frame (word : ℕ) : IrFrame where
  protocol := .rc5
  address := word >>> 6 &&& 0x1F
  command := word &&& 0x3F ||| (if word >>> 12 &&& 1 = 1 then 0 else 0x40)
  repeated := false
  toggle := word >>> 11 &&& 1

/-- The first half, the space of the start bit, is never seen; a last space neither. -/
def irRc5Decode (t : List ℕ) : Option IrFrame :=
  if t.length = 0 then none
  else do
    let seen ← irBiphaseExpand rc5Unit 2 (2*rc5Bits) true [] t
    let halves := false::seen
    let halves := if halves.length = 2*rc5Bits-1 then halves++[false] else halves
    if halves.length ≠ 2*rc5Bits then none
    else (irBiphaseBits (fun _ b => b) 0 halves).map irRc5Frame

def rc6Unit : ℕ := 444
def rc6LeadMark : ℕ := 2666
def rc6LeadSpace : ℕ := 889
def rc6Halves : ℕ := 44

def rc6Parse (t : List ℕ) (unit : ℕ) : Option IrFrame := do
  let seen ← irBiphaseExpand unit 3 rc6Halves true [] (t.drop 2)
  let h := if seen.length = rc6Halves-1 then seen++[false] else seen
  if h.length ≠ rc6Halves || h.take 8 ≠ [true,false,false,true,false,true,false,true] then none
  else
    let half := fun i => h.getD i false
    if half 8 ≠ half 9 || half 10 ≠ half 11 || half 8 = half 10 then none
    else
      let data ← irBiphaseBits (fun a _ => a) 0 (h.drop 12)
      some ⟨.rc6,data >>> 8,data &&& 0xFF,false,(half 8).toNat⟩

/-- The nominal unit first, then the one that both parts of the leader agree on. -/
def irRc6Decode (t : List ℕ) : Option IrFrame :=
  if t.length < 3 then none
  else
    let mark := t.getD 0 0
    let space := t.getD 1 0
    let nominal :=
      if irMatch mark rc6LeadMark && irMatch space rc6LeadSpace then rc6Parse t rc6Unit else none
    nominal <|>
      let fromMark := mark/6
      let fromSpace := space/2
      let unit := (mark+space)/8
      let diff := if fromMark > fromSpace then fromMark-fromSpace else fromSpace-fromMark
      if diff*10 > unit || !irMatch unit rc6Unit then none else rc6Parse t unit

def irDecode (t : List ℕ) : IrFrame :=
  (irNecDecode t <|> irRc6Decode t <|> irSircDecode t <|> irRc5Decode t).getD noFrame

end StarkOne.IrCodec
