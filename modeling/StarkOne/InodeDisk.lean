import Mathlib.Data.List.AList
import Mathlib.Logic.Function.Basic

/-!
# A directory of inodes

Names lead to inodes, inodes hold bytes, and an open file keeps its inode when
the name goes away. A disk has no two names for one inode, and its inodes are
below the next one to be given out. Names are compared exactly.
-/

set_option autoImplicit false

namespace StarkOne.InodeDisk

variable {P β : Type} [DecidableEq P]

structure Disk (P β : Type) [DecidableEq P] where
  dir : AList (fun _ : P => ℕ)
  data : ℕ → List β
  next : ℕ
  fresh : ∀ p i, dir.lookup p = some i → i < next
  single : ∀ p q i, dir.lookup p = some i → dir.lookup q = some i → p = q

namespace Disk

def inode (d : Disk P β) (p : P) : Option ℕ := d.dir.lookup p

def content (d : Disk P β) (p : P) : Option (List β) := (d.inode p).map d.data

def empty : Disk P β :=
  { dir := ∅
    data := fun _ => []
    next := 0
    fresh := fun p i h => by
      rw [AList.lookup_empty] at h
      cases h
    single := fun p q i h => by
      rw [AList.lookup_empty] at h
      cases h }

def create (d : Disk P β) (p : P) : Disk P β :=
  { dir := d.dir.insert p d.next
    data := Function.update d.data d.next []
    next := d.next+1
    fresh := fun q i h => by
      by_cases hq : q = p
      · subst hq
        rw [AList.lookup_insert] at h
        obtain rfl := Option.some.inj h
        exact Nat.lt_succ_self _
      · rw [AList.lookup_insert_ne hq] at h
        exact Nat.lt_succ_of_lt (d.fresh q i h)
    single := fun q r i hq hr => by
      by_cases hqp : q = p <;> by_cases hrp : r = p
      · rw [hqp, hrp]
      · subst hqp
        rw [AList.lookup_insert] at hq
        rw [AList.lookup_insert_ne hrp] at hr
        have := d.fresh r i hr
        obtain rfl := Option.some.inj hq
        omega
      · subst hrp
        rw [AList.lookup_insert] at hr
        rw [AList.lookup_insert_ne hqp] at hq
        have := d.fresh q i hq
        obtain rfl := Option.some.inj hr
        omega
      · rw [AList.lookup_insert_ne hqp] at hq
        rw [AList.lookup_insert_ne hrp] at hr
        exact d.single q r i hq hr }

theorem lookup_erase_some {s : AList (fun _ : P => ℕ)} {p q : P} {i : ℕ}
    (h : (s.erase p).lookup q = some i) : q ≠ p ∧ s.lookup q = some i := by
  by_cases hq : q = p
  · subst hq
    rw [AList.lookup_erase] at h
    cases h
  · rw [AList.lookup_erase_ne hq] at h
    exact ⟨hq,h⟩

def unlink (d : Disk P β) (p : P) : Disk P β :=
  { d with
    dir := d.dir.erase p
    fresh := fun q i h => d.fresh q i (lookup_erase_some h).2
    single := fun q r i hq hr =>
      d.single q r i (lookup_erase_some hq).2 (lookup_erase_some hr).2 }

/-- The file `src`, of inode `i`, takes the name `dst`, whatever had it before. -/
def rename (d : Disk P β) (src dst : P) (i : ℕ) (hi : d.dir.lookup src = some i) : Disk P β :=
  { d with
    dir := (d.dir.erase src).insert dst i
    fresh := fun q j h => by
      by_cases hq : q = dst
      · subst hq
        rw [AList.lookup_insert] at h
        exact Option.some.inj h ▸ d.fresh src i hi
      · rw [AList.lookup_insert_ne hq] at h
        exact d.fresh q j (lookup_erase_some h).2
    single := fun q r j hq hr => by
      have away : ∀ x, x ≠ dst → ((d.dir.erase src).insert dst i).lookup x = some j →
          x ≠ src ∧ d.dir.lookup x = some j := by
        intro x hx h
        rw [AList.lookup_insert_ne hx] at h
        exact lookup_erase_some h
      by_cases hqd : q = dst <;> by_cases hrd : r = dst
      · rw [hqd, hrd]
      · obtain ⟨hne,hl⟩ := away r hrd hr
        rw [hqd, AList.lookup_insert] at hq
        obtain rfl := Option.some.inj hq
        exact absurd (d.single r src _ hl hi) hne
      · obtain ⟨hne,hl⟩ := away q hqd hq
        rw [hrd, AList.lookup_insert] at hr
        obtain rfl := Option.some.inj hr
        exact absurd (d.single q src _ hl hi) hne
      · exact d.single q r j (away q hqd hq).2 (away r hrd hr).2 }

def store (d : Disk P β) (i : ℕ) (bytes : List β) : Disk P β :=
  { d with data := Function.update d.data i bytes }

section
variable (d : Disk P β) (p q : P) (i : ℕ) (bytes : List β)

@[simp] theorem inode_create_self : (d.create p).inode p = some d.next := AList.lookup_insert _

@[simp] theorem inode_create_ne (h : q ≠ p) : (d.create p).inode q = d.inode q :=
  AList.lookup_insert_ne h

@[simp] theorem inode_unlink_self : (d.unlink p).inode p = none := AList.lookup_erase _ _

@[simp] theorem inode_unlink_ne (h : q ≠ p) : (d.unlink p).inode q = d.inode q :=
  AList.lookup_erase_ne h

@[simp] theorem inode_rename_dst (hi : d.dir.lookup p = some i) :
    (d.rename p q i hi).inode q = some i := AList.lookup_insert _

theorem inode_rename_src (hi : d.dir.lookup p = some i) (h : p ≠ q) :
    (d.rename p q i hi).inode p = none := by
  rw [inode, rename, AList.lookup_insert_ne h, AList.lookup_erase]

theorem inode_rename_ne (r : P) (hi : d.dir.lookup p = some i) (hp : r ≠ p) (hq : r ≠ q) :
    (d.rename p q i hi).inode r = d.inode r := by
  rw [inode, rename, AList.lookup_insert_ne hq, AList.lookup_erase_ne hp]
  rfl

@[simp] theorem inode_store : (d.store i bytes).inode p = d.inode p := rfl

@[simp] theorem data_store_self : (d.store i bytes).data i = bytes := Function.update_self _ _ _

@[simp] theorem data_create_self : (d.create p).data d.next = [] := Function.update_self _ _ _

theorem content_eq (h : d.inode p = some i) : d.content p = some (d.data i) := by
  rw [content, h]
  rfl

theorem content_none (h : d.inode p = none) : d.content p = none := by
  rw [content, h]
  rfl

theorem content_store_ne (h : d.inode p ≠ some i) : (d.store i bytes).content p = d.content p := by
  unfold content
  rw [inode_store]
  cases hp : d.inode p with
  | none => rfl
  | some j =>
    have hj : j ≠ i := fun hji => h (hji ▸ hp)
    exact congrArg some (Function.update_of_ne hj _ _)

theorem content_create_ne (h : q ≠ p) : (d.create p).content q = d.content q := by
  unfold content
  rw [inode_create_ne d p q h]
  cases hq : d.inode q with
  | none => rfl
  | some j => exact congrArg some (Function.update_of_ne (Nat.ne_of_lt (d.fresh q j hq)) _ _)

theorem content_unlink_ne (h : q ≠ p) : (d.unlink p).content q = d.content q := by
  rw [content, inode_unlink_ne d p q h]
  rfl

end

end Disk

/-- The bytes of a file after a write at `start`; a gap before it reads as zeros. -/
def overwrite [Inhabited β] (old : List β) (start : ℕ) (bytes : List β) : List β :=
  old.take start ++ List.replicate (start-old.length) default ++ bytes ++
    old.drop (start+bytes.length)

theorem overwrite_end [Inhabited β] (old bytes : List β) :
    overwrite old old.length bytes = old ++ bytes := by
  simp [overwrite]

end StarkOne.InodeDisk
