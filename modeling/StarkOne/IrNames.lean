import StarkOne.IrRaw

/-!
# The names of saved captures

Captures are numbered upwards from the highest number in the directory. The
list shows them before every other file, the newest first.
-/

set_option autoImplicit false

namespace StarkOne.IrNames
open StarkOne.IrRaw
open StarkOne.StoragePath (CStr)

def irNameMax : ℕ := 10000

def irNameNumber (name : CStr) : Option ℕ :=
  if name.length ≠ 10 || name.take 3 ≠ "ir_".toList || name.drop 7 ≠ ".ir".toList then none
  else
    let digits := (name.drop 3).take 4
    if digits.all (fun c => '0' ≤ c && c ≤ '9') then
      some (digits.foldl (fun n c => n*10+(c.toNat - '0'.toNat)) 0)
    else none

def irNamesScan (highest : ℕ) (name : CStr) : ℕ :=
  match irNameNumber name with
  | some n => if highest < n then n else highest
  | none => highest

def irNamesNext (highest len : ℕ) : Except Fault CStr :=
  if len < 11 then .error .invalidArg
  else if irNameMax ≤ highest+1 then .error .noSpace
  else .ok ("ir_".toList++padded 4 (decimal (highest+1))++".ir".toList)

def strcmp : CStr → CStr → Ordering
  | [], [] => .eq
  | [], _::_ => .lt
  | _::_, [] => .gt
  | a::as, b::bs => (compare a.toNat b.toNat).then (strcmp as bs)

def irNamesCompare (a b : CStr) : Ordering :=
  match irNameNumber a, irNameNumber b with
  | some _, none => .lt
  | none, some _ => .gt
  | some _, some _ => strcmp b a
  | none, none => strcmp a b

end StarkOne.IrNames
