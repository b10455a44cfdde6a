import Mathlib.Logic.Function.Basic
import StarkOne.ModuleFormat

/-!
# Module discovery and arbitration

One record per slot follows the identification chip of its module and holds
the claim on the slot's lines. Every function here runs under the lock; the
bus calls of a polling round are made outside of it, and their results are
arguments.
-/

set_option autoImplicit false

namespace StarkOne.ModuleBus
open StarkOne.StoragePath (CStr)
open StarkOne.ModuleFormat

def capsExclusive : UInt32 := capNfc
def capsWiring : UInt32 := capModSpi ||| capModIrq

def moduleSlots : ℕ := 2
def moduleProviders : ℕ := 2
def moduleMissLimit : ℕ := 2
def moduleReadLimit : ℕ := 3

inductive ModuleKind where
  | onboard
  | bus
  | slot
  deriving DecidableEq, Repr

inductive ModuleState where
  | absent
  | known
  | generic
  | conflict
  deriving DecidableEq, Repr

structure ModuleEntry where
  kind : ModuleKind
  state : ModuleState
  slot : ℕ
  id : ℕ
  rev : ℕ
  declared : UInt32
  confirmed : UInt32
  why : ModuleDescResult
  unsupported : Bool
  name : CStr
  deriving DecidableEq

structure ModuleWiring where
  addr : UInt8
  cs : ℤ
  irq0 : ℤ
  irq1 : ℤ
  deriving DecidableEq

/-- The generation of the slot is its number of revocations as a `uint32_t`. -/
structure ModuleSlot where
  e : ModuleEntry
  wire : ModuleWiring
  owner : Option CStr
  claimed : UInt32
  revocations : ℕ
  misses : ℕ
  readErrors : ℕ
  valid : Bool
  seen : Bool
  accepted : Bool
  seenHash : UInt32
  acceptedHash : UInt32
  deriving DecidableEq

def ModuleSlot.gen (s : ModuleSlot) : ℕ := u32 s.revocations

structure ModuleProvider where
  kind : ModuleKind
  name : CStr
  caps : UInt32

/-- Only the first `n` slots exist. -/
structure ModuleCore where
  slot : ℕ → ModuleSlot
  n : ℕ
  provider : List ModuleProvider
  confirmed : UInt32
  caps : UInt32

structure ModuleLease where
  slot : ℕ
  gen : ℕ
  deriving DecidableEq, Repr

/-- FNV-1a -/
def hash32 (bytes : List UInt8) : UInt32 :=
  bytes.foldl (fun h b => (h ^^^ b.toUInt32)*16777619) 2166136261

def clearedEntry (index : ℕ) : ModuleEntry where
  kind := .slot
  state := .absent
  slot := index
  id := 0
  rev := 0
  declared := 0
  confirmed := 0
  why := .ok
  unsupported := false
  name := []

def clearEntry (s : ModuleSlot) : ModuleSlot :=
  { s with e := clearedEntry s.e.slot, valid := false }

def makeGeneric (s : ModuleSlot) (why : ModuleDescResult) : ModuleSlot :=
  { s with e := { clearedEntry s.e.slot with state := .generic, why := why }, valid := false }

def accept (s : ModuleSlot) (raw : List UInt8) : ModuleSlot :=
  match moduleDescParse raw with
  | .error why => makeGeneric s why
  | .ok d =>
    let e :=
      { clearedEntry s.e.slot with id := d.id, rev := d.rev, declared := d.caps, name := d.name }
    if moduleDescCapsSupported d.caps then
      { s with e := { e with state := .known }, valid := true }
    else { s with e := { e with state := .generic, unsupported := true }, valid := false }

/-- Every lease on the slot goes stale. -/
def revoke (s : ModuleSlot) : ModuleSlot :=
  { s with revocations := s.revocations+1, owner := none, claimed := 0 }

/-- Two modules overlap when both provide what only one can, or are the same module and
one of them does. -/
def overlap (a b : ModuleSlot) : Bool :=
  let ex := (a.e.declared ||| b.e.declared) &&& capsExclusive
  let both := a.e.declared &&& b.e.declared &&& capsExclusive
  both ≠ 0 || (a.e.id = b.e.id && ex ≠ 0)

def withConflict (s : ModuleSlot) : ModuleSlot :=
  revoke { s with e := { s.e with state := .conflict } }

def presumeKnown (s : ModuleSlot) : ModuleSlot :=
  if s.valid then { s with e := { s.e with state := .known } } else s

def resolvePair (r : (ℕ → ModuleSlot) × UInt32) (p : ℕ × ℕ) : (ℕ → ModuleSlot) × UInt32 :=
  let a := r.1 p.1
  let b := r.1 p.2
  if a.valid && b.valid && overlap a b then
    (fun i => if i = p.1 then withConflict a else if i = p.2 then withConflict b else r.1 i,
      r.2 ||| ((a.e.declared ||| b.e.declared) &&& capsExclusive))
  else r

def slotPairs (n : ℕ) : List (ℕ × ℕ) :=
  (List.range n).flatMap fun i => (List.range' (i+1) (n-(i+1))).map fun j => (i,j)

def resolveConflicts (c : ModuleCore) : (ℕ → ModuleSlot) × UInt32 :=
  (slotPairs c.n).foldl resolvePair
    (fun i => if i < c.n then presumeKnown (c.slot i) else c.slot i,0)

/-- The core behind it, and whether the effective capabilities changed. -/
def recompute (c : ModuleCore) : ModuleCore × Bool :=
  let (slot,withheld) := resolveConflicts c
  let caps := c.confirmed &&& ~~~withheld &&& capsKnown &&& ~~~capsWiring
  ({ c with slot := slot, caps := caps },caps ≠ c.caps)

def moduleCoreInit (wires : ℕ → ModuleWiring) (n : ℕ) : ModuleCore where
  slot := fun i =>
    { e := clearedEntry i, wire := wires i, owner := none, claimed := 0, revocations := 0,
      misses := 0, readErrors := 0, valid := false, seen := false, accepted := false,
      seenHash := 0, acceptedHash := 0 }
  n := min n moduleSlots
  provider := []
  confirmed := 0
  caps := 0

def apply (s : ModuleSlot) (probe read : StarkErr) (raw : List UInt8) : ModuleSlot × Bool :=
  if probe ≠ .ok then
    let s := { s with
      seen := false, readErrors := 0,
      misses := if s.misses < moduleMissLimit then s.misses+1 else s.misses }
    if s.misses < moduleMissLimit || s.e.state = .absent then (s,false)
    else (clearEntry { s with accepted := false },true)
  else
    let s := { s with misses := 0 }
    if read ≠ .ok then
      let s := { s with
        seen := false,
        readErrors := if s.readErrors < moduleReadLimit then s.readErrors+1 else s.readErrors }
      if s.e.state ≠ .absent || s.readErrors < moduleReadLimit then (s,false)
      else (makeGeneric s .truncated,true)
    else
      let h := hash32 (raw.take moduleDescSize)
      let stable := s.seen && h = s.seenHash
      let s := { s with readErrors := 0, seen := true, seenHash := h }
      if !stable || (s.accepted && h = s.acceptedHash) then (s,false)
      else (accept { s with accepted := true, acceptedHash := h } raw,true)

/-- An entry that changes is cleared, or the module is not read, or its content is taken in. -/
theorem apply_updated {s : ModuleSlot} {probe read : StarkErr} {raw : List UInt8}
    (h : (apply s probe read raw).2 = true) : ∃ t,
      (probe ≠ .ok ∧ (apply s probe read raw).1 = clearEntry t) ∨
      (probe = .ok ∧ read ≠ .ok ∧ (apply s probe read raw).1 = makeGeneric t .truncated) ∨
      (probe = .ok ∧ read = .ok ∧ (apply s probe read raw).1 = accept t raw) := by
  unfold apply at h ⊢
  dsimp only at h ⊢
  generalize (if s.misses < moduleMissLimit then s.misses+1 else s.misses) = misses at h ⊢
  generalize (if s.readErrors < moduleReadLimit then s.readErrors+1 else s.readErrors) = errors at h ⊢
  by_cases hp : probe ≠ .ok
  · rw [if_pos hp] at h ⊢
    split at h
    · cases h
    · rename_i hm
      rw [if_neg hm]
      exact ⟨_,.inl ⟨hp,rfl⟩⟩
  rw [if_neg hp] at h ⊢
  by_cases hr : read ≠ .ok
  · rw [if_pos hr] at h ⊢
    split at h
    · cases h
    · rename_i he
      rw [if_neg he]
      exact ⟨_,.inr (.inl ⟨not_not.mp hp,hr,rfl⟩)⟩
  · rw [if_neg hr] at h ⊢
    split at h
    · cases h
    · rename_i hs
      rw [if_neg hs]
      exact ⟨_,.inr (.inr ⟨not_not.mp hp,not_not.mp hr,rfl⟩)⟩

/-- The part of a polling round that runs under the lock for one slot. A removed or
replaced module takes its lease along. -/
def tickSlot (c : ModuleCore) (i : ℕ) (probe read : StarkErr) (raw : List UInt8) :
    ModuleCore × Bool :=
  match apply (c.slot i) probe read raw with
  | (s,true) => ({ c with slot := Function.update c.slot i (revoke s) },true)
  | (s,false) => ({ c with slot := Function.update c.slot i s },false)

def tickEnd (c : ModuleCore) (changed : ℕ) : ModuleCore :=
  if changed ≠ 0 then (recompute c).1 else c

def moduleCoreConfirm (c : ModuleCore) (caps : UInt32) (present : Bool) : ModuleCore × Bool :=
  recompute { c with
    confirmed := if present then c.confirmed ||| caps else c.confirmed &&& ~~~caps }

def moduleCoreProvide (c : ModuleCore) (kind : ModuleKind) (name : CStr) (caps : UInt32) :
    ModuleCore :=
  if c.provider.length < moduleProviders then
    { c with provider := c.provider++[⟨kind,name,caps⟩] }
  else c

def listSlot (c : ModuleCore) (i : ℕ) : ModuleEntry :=
  { (c.slot i).e with confirmed := (c.slot i).e.declared &&& c.confirmed }

def listProvider (c : ModuleCore) (p : ModuleProvider) : ModuleEntry where
  kind := p.kind
  state := if p.caps &&& c.confirmed ≠ 0 then .known else .absent
  slot := 0
  id := 0
  rev := 0
  declared := p.caps
  confirmed := p.caps &&& c.confirmed
  why := .ok
  unsupported := false
  name := p.name.take moduleNameMax

def moduleCoreList (c : ModuleCore) (max : ℕ) : List ModuleEntry × ℕ :=
  (((List.range c.n).map (listSlot c)++c.provider.map (listProvider c)).take max,
    c.n+c.provider.length)

/-- A listing fills the room it has, and shows as confirmed what is confirmed of each entry. -/
theorem moduleCoreList_entries (c : ModuleCore) (max : ℕ) :
    (moduleCoreList c max).1.length = min max (moduleCoreList c max).2 ∧
    ∀ e ∈ (moduleCoreList c max).1, e.confirmed = e.declared &&& c.confirmed := by
  unfold moduleCoreList
  refine ⟨by simp,fun e he => ?_⟩
  rcases List.mem_append.mp (List.mem_of_mem_take he) with hs | hp
  · obtain ⟨i,-,rfl⟩ := List.mem_map.mp hs
    rfl
  · obtain ⟨p,-,rfl⟩ := List.mem_map.mp hp
    rfl

def leased (c : ModuleCore) (l : Option ModuleLease) : Option ℕ :=
  l.bind fun l =>
    if c.n ≤ l.slot then none
    else if (c.slot l.slot).owner ≠ none ∧ (c.slot l.slot).gen = l.gen then some l.slot else none

def wired (w : ModuleWiring) (caps : UInt32) : Bool :=
  (caps &&& capModSpi = 0 || 0 ≤ w.cs) && (caps &&& capModIrq = 0 || (0 ≤ w.irq0 && 0 ≤ w.irq1))

/-- `out` says whether there is room for the lease. -/
def moduleCoreClaim (c : ModuleCore) (slot : ℕ) (caps : UInt32) (owner : Option CStr) (out : Bool) :
    Except Fault ModuleLease × ModuleCore :=
  if c.n ≤ slot || owner = none || !out || caps = 0 || caps &&& ~~~capsWiring ≠ 0 then
    (.error .invalidArg,c)
  else
    let s := c.slot slot
    if s.e.state ≠ .known then (.error .notFound,c)
    else if s.e.declared &&& caps ≠ caps || !wired s.wire caps then (.error .notSupported,c)
    else if s.owner ≠ none then (.error .busy,c)
    else (.ok ⟨slot,s.gen⟩,
      { c with slot := Function.update c.slot slot { s with owner := owner, claimed := caps } })

def moduleCoreRelease (c : ModuleCore) (l : Option ModuleLease) : ModuleCore :=
  match leased c l with
  | none => c
  | some i => { c with slot := Function.update c.slot i (revoke (c.slot i)) }

def moduleCoreLeaseValid (c : ModuleCore) (l : Option ModuleLease) : Bool := (leased c l).isSome

structure ModulePins where
  cs : ℤ
  irq0 : ℤ
  irq1 : ℤ
  deriving DecidableEq, Repr

def claimedPins (w : ModuleWiring) (claimed : UInt32) : ModulePins where
  cs := if claimed &&& capModSpi ≠ 0 then w.cs else -1
  irq0 := if claimed &&& capModIrq ≠ 0 then w.irq0 else -1
  irq1 := if claimed &&& capModIrq ≠ 0 then w.irq1 else -1

def moduleCoreLeasePins (c : ModuleCore) (l : Option ModuleLease) : Except Fault ModulePins :=
  match leased c l with
  | none => .error .state
  | some i => .ok (claimedPins (c.slot i).wire (c.slot i).claimed)

end StarkOne.ModuleBus
