import StarkOne.IrCodec

/-!
# The text of a saved signal

The text names the format, then a key and its values on each line. Only the
timings and the carrier are read back; the frame is decoded again.
-/

set_option autoImplicit false

namespace StarkOne.IrRaw
open StarkOne.IrCodec
open StarkOne.StoragePath (CStr)

def irRawTextMax : ℕ := 1800
def lineMaxChars : ℕ := 1700
def carrierMin : ℕ := 20000
def carrierMax : ℕ := 60000
def uint16Max : ℕ := 65535

/-- `%u` -/
def decimal (n : ℕ) : CStr := Nat.toDigits 10 n

def padded (width : ℕ) (digits : CStr) : CStr :=
  List.replicate (width-digits.length) '0'++digits

/-- `%0wX` -/
def hexadecimal (width n : ℕ) : CStr := padded width ((Nat.toDigits 16 n).map Char.toUpper)

def irRawHead (s : IrSignal) : CStr :=
  "stark-ir 1\nprotocol ".toList++irProtocolName s.frame.protocol++
  "\naddress 0x".toList++hexadecimal 4 s.frame.address++
  "\ncommand 0x".toList++hexadecimal 4 s.frame.command++"\n".toList++
  (if s.frame.toggle ≠ 0 then "toggle 1\n".toList else [])++
  (if s.frame.repeated then "repeat 1\n".toList else [])++
  "carrier ".toList++decimal s.carrierHz++"\ntimings".toList

def irRawTimings (len : ℕ) (out : CStr) : List ℕ → Option CStr
  | [] => some out
  | d::rest =>
    let piece := ' '::decimal d
    if len-out.length ≤ piece.length then none else irRawTimings len (out++piece) rest

/-- The empty text stands for the failure. -/
def irRawFormat (s : IrSignal) (len : ℕ) : CStr :=
  if len = 0 || irMaxDurations < s.timings.length then []
  else if len ≤ (irRawHead s).length then []
  else match irRawTimings len (irRawHead s) s.timings with
    | none => []
    | some out => if len < out.length+2 then [] else out++['\n']

def isSpace (c : Char) : Bool := c = ' ' || c = '\t' || c = '\r'

def tokens (line : CStr) : List CStr := (line.splitOnP isSpace).filter (· ≠ [])

def digitOf (base : ℕ) (c : Char) : Option ℕ :=
  if '0' ≤ c && c ≤ '9' then some (c.toNat - '0'.toNat)
  else if base = 16 && 'a' ≤ c && c ≤ 'f' then some (c.toNat - 'a'.toNat + 10)
  else if base = 16 && 'A' ≤ c && c ≤ 'F' then some (c.toNat - 'A'.toNat + 10)
  else none

def numberFrom (base limit v : ℕ) : CStr → Option ℕ
  | [] => some v
  | c::rest => do
    let digit ← digitOf base c
    if limit < v*base+digit then none else numberFrom base limit (v*base+digit) rest

/-- A bare `0x` stays decimal and fails on the `x`. -/
def number (limit : ℕ) : CStr → Option ℕ
  | '0'::x::c::rest =>
    if x = 'x' || x = 'X' then numberFrom 16 limit 0 (c::rest)
    else numberFrom 10 limit 0 ('0'::x::c::rest)
  | tok => numberFrom 10 limit 0 tok

structure Parsing where
  header : Bool
  haveTimings : Bool
  haveCarrier : Bool
  out : IrSignal

/-- The durations read so far stay in the output when one of them is refused. -/
def takeTimings (us : List ℕ) : List CStr → StarkErr × List ℕ
  | [] => (.ok,us)
  | tok::rest =>
    if us.length = irMaxDurations then (.invalidArg,us)
    else match number uint16Max tok with
      | none => (.invalidArg,us)
      | some 0 => (.invalidArg,us)
      | some d => takeTimings (us++[d]) rest

def parseLine (s : Parsing) (line : CStr) : StarkErr × Parsing :=
  match tokens (line.takeWhile (· ≠ '#')) with
  | [] => (.ok,s)
  | key::values =>
    if !s.header then
      if key = "stark-ir".toList && values.head?.bind (number 0xFFFF) = some 1 then
        (.ok,{ s with header := true })
      else (.invalidArg,s)
    else if key = "timings".toList then
      let (err,us) := takeTimings [] values
      let s := { s with out := { s.out with timings := us } }
      if err ≠ .ok then (err,s) else (.ok,{ s with haveTimings := !us.isEmpty })
    else if key = "carrier".toList then
      match values.head?.bind (number carrierMax) with
      | none => (.invalidArg,s)
      | some hz =>
        if hz < carrierMin then (.invalidArg,s)
        else (.ok,{ s with out := { s.out with carrierHz := hz }, haveCarrier := true })
    else (.ok,s)

def parseLines (s : Parsing) : List CStr → StarkErr × Parsing
  | [] => (.ok,s)
  | line::rest =>
    if lineMaxChars < line.length then (.invalidArg,s)
    else
      let (err,s) := parseLine s line
      if err ≠ .ok then (err,s) else parseLines s rest

def defaultCarrier : IrProtocol → ℕ
  | .unknown | .nec | .necx => 38000
  | .rc5 | .rc6 => 36000
  | .sirc12 | .sirc15 | .sirc20 => 40000

/-- The output is cleared first, and filled as far as the parser gets. -/
def irRawParse (text : CStr) : StarkErr × IrSignal :=
  let (err,s) := parseLines ⟨false,false,false,zeroSignal⟩ (text.splitOn '\n')
  if err ≠ .ok then (err,s.out)
  else if !s.header || !s.haveTimings then (.invalidArg,s.out)
  else
    let frame := irDecode s.out.timings
    (.ok,{ s.out with
      frame := frame
      carrierHz := if s.haveCarrier then s.out.carrierHz else defaultCarrier frame.protocol })

end StarkOne.IrRaw
