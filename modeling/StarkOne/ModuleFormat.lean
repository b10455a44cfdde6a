import Mathlib.Data.UInt
import StarkOne.StoragePath

/-!
# The descriptor of a module

The 32 bytes of an identification chip, which are not trusted: any content is
either rejected with a reason or gives fields that were checked.
-/

set_option autoImplicit false

namespace StarkOne.ModuleFormat
open StarkOne.StoragePath (CStr)

def moduleDescSize : ℕ := 32
def moduleNameMax : ℕ := 18

def capIrTx : UInt32 := (1 : UInt32) <<< 0
def capIrRx : UInt32 := (1 : UInt32) <<< 1
def capNfc : UInt32 := (1 : UInt32) <<< 2
def capModSpi : UInt32 := (1 : UInt32) <<< 3
def capModIrq : UInt32 := (1 : UInt32) <<< 4
def capsKnown : UInt32 := capIrTx ||| capIrRx ||| capNfc ||| capModSpi ||| capModIrq

structure ModuleDesc where
  id : ℕ
  rev : ℕ
  caps : UInt32
  name : CStr
  deriving DecidableEq

inductive ModuleDescResult where
  | ok
  | blank
  | badMagic
  | badVersion
  | badCrc
  | badField
  | truncated
  deriving DecidableEq, Repr

def magic0 : UInt8 := 0x53
def magic1 : UInt8 := 0x4D
def formatVersion : UInt8 := 1
def nameOffset : ℕ := 12
def crcOffset : ℕ := 30

def crcBits : ℕ → UInt32 → UInt32
  | 0, c => c
  | n+1, c => crcBits n (if c &&& 0x8000 ≠ 0 then c <<< 1 ^^^ 0x1021 else c <<< 1)

/-- CRC-16 with polynomial 0x1021, from 0xFFFF. -/
def crc16 (bytes : List UInt8) : UInt32 :=
  bytes.foldl (fun crc b => crcBits 8 (crc ^^^ (b.toUInt32 <<< (8 : UInt32))) &&& 0xFFFF) (0xFFFF : UInt32)

/-- Printable bytes, the first one no space, then only zeros. -/
def nameValid (n : List UInt8) : Bool :=
  let text := n.takeWhile (· ≠ 0)
  text.all (fun b => 0x20 ≤ b && b ≤ 0x7E) && (n.drop text.length).all (· = 0) &&
    text ≠ [] && n.getD 0 0 ≠ 0x20

def moduleDescParse (raw : List UInt8) : Except ModuleDescResult ModuleDesc :=
  let byte := fun i => raw.getD i 0
  let word := fun i => (byte i).toNat ||| (byte (i+1)).toNat <<< 8
  let name := (raw.drop nameOffset).take moduleNameMax
  if raw.length < moduleDescSize then .error .truncated
  else if (raw.take moduleDescSize).all (· = 0xFF) then .error .blank
  else if byte 0 ≠ magic0 || byte 1 ≠ magic1 then .error .badMagic
  else if byte 2 ≠ formatVersion then .error .badVersion
  else if (crc16 (raw.take crcOffset)).toNat ≠ word crcOffset then .error .badCrc
  else if byte 3 ≠ 0 || byte 7 ≠ 0 || word 4 = 0 || word 4 = 0xFFFF || !nameValid name then
    .error .badField
  else .ok
    { id := word 4
      rev := (byte 6).toNat
      caps := (byte 8).toUInt32 ||| (byte 9).toUInt32 <<< 8 ||| (byte 10).toUInt32 <<< 16 |||
        (byte 11).toUInt32 <<< 24
      name := (name.takeWhile (· ≠ 0)).map fun b => Char.ofNat b.toNat }

/-- Infrared is on the board, and the reader is on the other bus. -/
def moduleDescCapsSupported (caps : UInt32) : Bool :=
  if caps &&& (capIrTx ||| capIrRx) ≠ 0 then false
  else caps &&& capNfc = 0 || caps &&& capModSpi = 0

end StarkOne.ModuleFormat
