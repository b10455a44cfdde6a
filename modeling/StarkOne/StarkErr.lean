import Mathlib.Algebra.Group.Nat.Defs
import Mathlib.Data.List.Basic

/-!
# Error codes and 32-bit counters

The error codes of the firmware, and the wrapping arithmetic of its `uint32_t`
counters on natural numbers below `2^32`.
-/

set_option autoImplicit false

namespace StarkOne

inductive StarkErr where
  | ok
  | invalidArg
  | noMem
  | timeout
  | notFound
  | notSupported
  | busy
  | io
  | state
  | noSpace
  deriving DecidableEq, Repr

/-- The error of a call that failed. -/
structure Fault where
  code : StarkErr
  ne_ok : code ≠ .ok
  deriving DecidableEq

namespace Fault

def invalidArg : Fault := ⟨.invalidArg,by decide⟩
def timeout : Fault := ⟨.timeout,by decide⟩
def notFound : Fault := ⟨.notFound,by decide⟩
def busy : Fault := ⟨.busy,by decide⟩
def notSupported : Fault := ⟨.notSupported,by decide⟩
def io : Fault := ⟨.io,by decide⟩
def state : Fault := ⟨.state,by decide⟩
def noSpace : Fault := ⟨.noSpace,by decide⟩

end Fault

/-- The `stark_err_t` a call returns. -/
def errOf {α : Type} : Except Fault α → StarkErr
  | .ok _ => .ok
  | .error e => e.code

def u32 (n : ℕ) : ℕ := n % 2^32

/-- `a - b` of two `uint32_t` values. -/
def sub32 (a b : ℕ) : ℕ := (a+(2^32-b)) % 2^32

theorem u32_lt (n : ℕ) : u32 n < 2^32 := Nat.mod_lt _ (by decide)

theorem u32_add_one (n : ℕ) : u32 (u32 n+1) = u32 (n+1) := by
  simp [u32, Nat.mod_add_mod]

/-- A difference of wrapped counters is exact while the counters are less than
one wrap apart. -/
theorem sub32_u32 (a b : ℕ) (hle : b ≤ a) (hlt : a-b < 2^32) : sub32 (u32 a) (u32 b) = a-b := by
  unfold sub32 u32
  omega

end StarkOne
