import StarkOne.InodeDisk
import StarkOne.StoragePath

/-!
# The file-system calls

The calls of the I/O table over a directory of inodes. The environment answers
call number `n` with `o n`: success, with the number of bytes a write takes,
or a failure with its errno. A failed write, fsync or close may leave anything
in the file it was made on; every other failed call leaves the disk alone. A
listing that fails midway leaves names out.
-/

set_option autoImplicit false

namespace StarkOne.StorageIo
open StarkOne.InodeDisk StarkOne.StoragePath

inductive Outcome where
  | ok (n : ℕ)
  | fail (e : Errno) (left : Option (List UInt8))

structure OpenFile where
  inode : ℕ
  offset : ℕ
  append : Bool

/-- The disk with the open descriptors, which are numbers below `fdNext`; `calls`
counts the calls made so far. -/
structure Io where
  disk : Disk CStr UInt8
  fds : ℕ → Option OpenFile
  fdNext : ℕ
  calls : ℕ
  held : ∀ fd f, fds fd = some f → f.inode < disk.next ∧ fd < fdNext

namespace Io

def tick (w : Io) : Io := { w with calls := w.calls+1 }

def setFd (w : Io) (fd : ℕ) (f : OpenFile) (h : f.inode < w.disk.next ∧ fd < w.fdNext) : Io :=
  { w with
    fds := Function.update w.fds fd (some f)
    held := fun k g hg => by
      by_cases hk : k = fd
      · subst hk
        rw [Function.update_self] at hg
        exact Option.some.inj hg ▸ h
      · rw [Function.update_of_ne hk] at hg
        exact w.held k g hg }

def dropFd (w : Io) (fd : ℕ) : Io :=
  { w with
    fds := Function.update w.fds fd none
    held := fun k g hg => by
      by_cases hk : k = fd
      · subst hk
        rw [Function.update_self] at hg
        cases hg
      · rw [Function.update_of_ne hk] at hg
        exact w.held k g hg }

def giveFd (w : Io) (i : ℕ) (append : Bool) (h : i < w.disk.next) : Io :=
  setFd
    { w with
      fdNext := w.fdNext+1
      held := fun fd f hf => ⟨(w.held fd f hf).1,Nat.lt_succ_of_lt (w.held fd f hf).2⟩ }
    w.fdNext ⟨i,0,append⟩ ⟨h,Nat.lt_succ_self _⟩

def storeTo (w : Io) (i : ℕ) (bytes : List UInt8) : Io := { w with disk := w.disk.store i bytes }

def leave (w : Io) (i : ℕ) : Option (List UInt8) → Io
  | none => w
  | some bytes => w.storeTo i bytes

def createFile (w : Io) (p : CStr) : Io :=
  { w with
    disk := w.disk.create p
    held := fun k g hg => ⟨Nat.lt_succ_of_lt (w.held k g hg).1,(w.held k g hg).2⟩ }

end Io

inductive OpenFlags where
  | rdonly
  | creatTrunc
  | creatAppend
  deriving DecidableEq

def ebadf : Errno := .other 9

section
variable (o : ℕ → Outcome)

def ioOpen (p : CStr) (flags : OpenFlags) (w : Io) : Except Errno ℕ × Io :=
  match o w.calls with
  | .fail e _ => (.error e,w.tick)
  | .ok _ =>
    match h : w.disk.dir.lookup p with
    | some i =>
      let t := if flags = .creatTrunc then w.tick.storeTo i [] else w.tick
      (.ok w.fdNext,t.giveFd i (flags = .creatAppend) (by
        have := w.disk.fresh p i h
        dsimp only [t]
        split <;> exact this))
    | none =>
      if flags = .rdonly then (.error .enoent,w.tick)
      else (.ok w.fdNext,
        (w.tick.createFile p).giveFd w.disk.next (flags = .creatAppend) (Nat.lt_succ_self _))

/-- A write takes at most as many bytes as it is given; none when the volume is full. -/
def ioWrite (fd : ℕ) (p : List UInt8) (w : Io) : Except Errno ℕ × Io :=
  match hf : w.fds fd with
  | none => (.error ebadf,w.tick)
  | some f =>
    match o w.calls with
    | .fail e left => (.error e,w.tick.leave f.inode left)
    | .ok n =>
      let taken := p.take n
      let start := if f.append then (w.disk.data f.inode).length else f.offset
      (.ok taken.length,
        (w.tick.storeTo f.inode (overwrite (w.disk.data f.inode) start taken)).setFd fd
          { f with offset := start+taken.length } (w.held fd f hf))

def ioFsync (fd : ℕ) (w : Io) : Except Errno Unit × Io :=
  match w.fds fd with
  | none => (.error ebadf,w.tick)
  | some f =>
    match o w.calls with
    | .fail e left => (.error e,w.tick.leave f.inode left)
    | .ok _ => (.ok (),w.tick)

/-- The descriptor is gone whether or not closing it fails. -/
def ioClose (fd : ℕ) (w : Io) : Except Errno Unit × Io :=
  match w.fds fd with
  | none => (.error ebadf,w.tick)
  | some f =>
    match o w.calls with
    | .fail e left => (.error e,(w.tick.leave f.inode left).dropFd fd)
    | .ok _ => (.ok (),w.tick.dropFd fd)

def ioUnlink (p : CStr) (w : Io) : Except Errno Unit × Io :=
  match o w.calls with
  | .fail e _ => (.error e,w.tick)
  | .ok _ =>
    match w.disk.inode p with
    | none => (.error .enoent,w.tick)
    | some _ => (.ok (),{ w.tick with disk := w.disk.unlink p })

def ioRename (src dst : CStr) (w : Io) : Except Errno Unit × Io :=
  match o w.calls with
  | .fail e _ => (.error e,w.tick)
  | .ok _ =>
    match h : w.disk.dir.lookup src with
    | none => (.error .enoent,w.tick)
    | some i => (.ok (),{ w.tick with disk := w.disk.rename src dst i h })

/-- Directories are not part of the disk: making one only succeeds or fails. -/
def ioMkdir (_ : CStr) (w : Io) : Except Errno Unit × Io :=
  match o w.calls with
  | .fail e _ => (.error e,w.tick)
  | .ok _ => (.ok (),w.tick)

def nameIn (dir p : CStr) : Option CStr :=
  let head := dir ++ ['/']
  if head.isPrefixOf p && !(p.drop head.length).contains '/' then some (p.drop head.length)
  else none

/-- The names that do not have a zero in `left`. -/
def namesLeft (left : List UInt8) (names : List CStr) : List CStr :=
  ((names.zip left).filter fun e => e.2 != 0).map Prod.fst

/-- Only a directory that cannot be opened is an error. When reading it ends early, or `stat`
fails on a name, names are missing. -/
def ioList (dir : CStr) (w : Io) : Except Errno (List CStr) × Io :=
  let names := w.disk.dir.keys.filterMap (nameIn dir)
  match o w.calls with
  | .fail e none => (.error e,w.tick)
  | .fail _ (some left) => (.ok (namesLeft left names),w.tick)
  | .ok _ => (.ok names,w.tick)

end

def succeeds (o : ℕ → Outcome) (n : ℕ) : Prop := ∃ m, o n = .ok m

def Linked (w : Io) (fd : ℕ) (q : CStr) : Prop :=
  ∃ f, w.fds fd = some f ∧ w.disk.inode q = some f.inode

def Appends (w : Io) (fd : ℕ) (q : CStr) (bytes : List UInt8) : Prop :=
  ∃ i, w.fds fd = some ⟨i,bytes.length,false⟩ ∧ w.disk.inode q = some i ∧ w.disk.data i = bytes

theorem Appends.linked {w : Io} {fd : ℕ} {q : CStr} {bytes : List UInt8}
    (h : Appends w fd q bytes) : Linked w fd q := by
  obtain ⟨i,hf,hi,-⟩ := h
  exact ⟨_,hf,hi⟩

section
variable (o : ℕ → Outcome) (w : Io)

theorem open_appends {q : CStr} {fd : ℕ} {t : Io}
    (h : ioOpen o q .creatTrunc w = (.ok fd,t)) : Appends t fd q [] := by
  unfold ioOpen at h
  split at h
  · cases h
  split at h
  · rename_i i hi
    obtain ⟨hfd,rfl⟩ := Prod.mk.inj h
    obtain rfl := Except.ok.inj hfd
    refine ⟨i,?_,hi,Disk.data_store_self _ _ _⟩
    exact Function.update_self _ _ _
  · rename_i hi
    obtain ⟨hfd,rfl⟩ := Prod.mk.inj h
    obtain rfl := Except.ok.inj hfd
    refine ⟨w.disk.next,?_,Disk.inode_create_self _ _,Disk.data_create_self _ _⟩
    exact Function.update_self _ _ _

theorem open_frame {q : CStr} {fd : ℕ} {t : Io} (h : ioOpen o q .creatTrunc w = (.ok fd,t)) :
    fd = w.fdNext ∧ (∀ j, j ≠ fd → t.fds j = w.fds j) ∧
      (w.disk.inode q ≠ none → t.disk.inode = w.disk.inode) := by
  unfold ioOpen at h
  split at h
  · cases h
  split at h
  · rename_i i hi
    obtain ⟨hfd,rfl⟩ := Prod.mk.inj h
    obtain rfl := Except.ok.inj hfd
    exact ⟨rfl,fun j hj => Function.update_of_ne hj _ _,fun _ => rfl⟩
  · rename_i hi
    obtain ⟨hfd,rfl⟩ := Prod.mk.inj h
    obtain rfl := Except.ok.inj hfd
    exact ⟨rfl,fun j hj => Function.update_of_ne hj _ _,fun hne => absurd hi hne⟩

theorem open_succeeds (q : CStr) (ho : succeeds o w.calls) :
    ∃ fd t, ioOpen o q .creatTrunc w = (.ok fd,t) := by
  obtain ⟨n,hn⟩ := ho
  unfold ioOpen
  rw [hn]
  dsimp only
  split
  · exact ⟨_,_,rfl⟩
  · exact ⟨_,_,rfl⟩

theorem write_cases {fd : ℕ} {f : OpenFile} (p : List UInt8) (hf : w.fds fd = some f) :
    (∃ e t, ioWrite o fd p w = (.error e,t) ∧ ¬succeeds o w.calls ∧ t.fds = w.fds ∧
      t.disk.inode = w.disk.inode) ∨
    ∃ n start t, ioWrite o fd p w = (.ok (p.take n).length,t) ∧ o w.calls = .ok n ∧
      (∀ j, j ≠ fd → t.fds j = w.fds j) ∧
      start = (if f.append then (w.disk.data f.inode).length else f.offset) ∧
      t.fds fd = some { f with offset := start+(p.take n).length } ∧
      t.disk.inode = w.disk.inode ∧
      t.disk.data f.inode = overwrite (w.disk.data f.inode) start (p.take n) := by
  unfold ioWrite
  split
  · rename_i hn
    rw [hf] at hn
    cases hn
  rename_i g hg
  obtain rfl := Option.some.inj (hf.symm.trans hg)
  split
  · rename_i e left ho
    refine Or.inl ⟨e,_,rfl,by simp [succeeds, ho],?_⟩
    cases left <;> exact ⟨rfl,rfl⟩
  · rename_i n ho
    exact Or.inr ⟨n,_,_,rfl,ho,fun j hj => Function.update_of_ne hj _ _,rfl,
      Function.update_self _ _ _,rfl,Disk.data_store_self _ _ _⟩

theorem fsync_cases {fd : ℕ} {q : CStr} (h : Linked w fd q) :
    (succeeds o w.calls ∧ ioFsync o fd w = (.ok (),w.tick)) ∨
    (¬succeeds o w.calls ∧ ∃ e t, ioFsync o fd w = (.error e,t)) := by
  obtain ⟨f,hf,-⟩ := h
  unfold ioFsync succeeds
  rw [hf]
  cases ho : o w.calls with
  | ok n => exact Or.inl ⟨⟨n,rfl⟩,rfl⟩
  | fail e left => exact Or.inr ⟨by simp,_,_,rfl⟩

theorem close_cases {fd : ℕ} {q : CStr} (h : Linked w fd q) :
    (succeeds o w.calls ∧ ioClose o fd w = (.ok (),w.tick.dropFd fd)) ∨
    (¬succeeds o w.calls ∧ ∃ e t, ioClose o fd w = (.error e,t)) := by
  obtain ⟨f,hf,-⟩ := h
  unfold ioClose succeeds
  rw [hf]
  cases ho : o w.calls with
  | ok n => exact Or.inl ⟨⟨n,rfl⟩,rfl⟩
  | fail e left => exact Or.inr ⟨by simp,_,_,rfl⟩

theorem unlink_cases (q : CStr) :
    (ioUnlink o q w).2.calls = w.calls+1 ∧
    ((succeeds o w.calls ∧ w.disk.inode q ≠ none ∧ (ioUnlink o q w).1 = .ok () ∧
        (ioUnlink o q w).2.disk = w.disk.unlink q) ∨
      ((¬succeeds o w.calls ∨ w.disk.inode q = none) ∧ (∃ e, (ioUnlink o q w).1 = .error e) ∧
        (ioUnlink o q w).2.disk = w.disk ∧
        (succeeds o w.calls → (ioUnlink o q w).1 = .error .enoent))) := by
  unfold ioUnlink succeeds
  cases ho : o w.calls with
  | fail e left => exact ⟨rfl,Or.inr ⟨Or.inl (by simp),⟨e,rfl⟩,rfl,by simp⟩⟩
  | ok n =>
    cases hi : w.disk.inode q with
    | none => exact ⟨rfl,Or.inr ⟨Or.inr rfl,⟨.enoent,rfl⟩,rfl,fun _ => rfl⟩⟩
    | some i => exact ⟨rfl,Or.inl ⟨⟨n,rfl⟩,by simp,rfl,rfl⟩⟩

theorem rename_cases {src : CStr} {i : ℕ} (dst : CStr) (hi : w.disk.dir.lookup src = some i) :
    (succeeds o w.calls ∧ (ioRename o src dst w).1 = .ok () ∧
      (ioRename o src dst w).2.disk = w.disk.rename src dst i hi) ∨
    (¬succeeds o w.calls ∧ (∃ e, (ioRename o src dst w).1 = .error e) ∧
      (ioRename o src dst w).2.disk = w.disk) := by
  unfold ioRename succeeds
  cases ho : o w.calls with
  | fail e left => exact Or.inr ⟨by simp,⟨e,rfl⟩,rfl⟩
  | ok n =>
    refine Or.inl ⟨⟨n,rfl⟩,?_⟩
    dsimp only
    split
    · rename_i hn
      rw [hi] at hn
      cases hn
    · rename_i j hj
      obtain rfl := Option.some.inj (hi.symm.trans hj)
      exact ⟨rfl,rfl⟩

end

section
variable (o : ℕ → Outcome) (w : Io)

theorem namesLeft_subset (left : List UInt8) (names : List CStr) : namesLeft left names ⊆ names := by
  intro name h
  obtain ⟨e,he,rfl⟩ := List.mem_map.mp h
  exact (List.of_mem_zip (List.mem_of_mem_filter he)).1

/-- A listing that is not refused gives names of the directory. -/
theorem list_cases (dir : CStr) : (ioList o dir w).2 = w.tick ∧
    ((∃ e, (ioList o dir w).1 = .error e) ∨ ∃ names, (ioList o dir w).1 = .ok names ∧
      names ⊆ w.disk.dir.keys.filterMap (nameIn dir)) := by
  unfold ioList
  dsimp only
  split
  · exact ⟨rfl,.inl ⟨_,rfl⟩⟩
  · exact ⟨rfl,.inr ⟨_,rfl,namesLeft_subset _ _⟩⟩
  · exact ⟨rfl,.inr ⟨_,rfl,List.Subset.refl _⟩⟩

theorem leave_fds (i : ℕ) (left : Option (List UInt8)) :
    (w.leave i left).fds = w.fds ∧ (w.leave i left).disk.inode = w.disk.inode := by
  cases left <;> exact ⟨rfl,rfl⟩

theorem fsync_frame (fd : ℕ) :
    (ioFsync o fd w).2.fds = w.fds ∧ (ioFsync o fd w).2.disk.inode = w.disk.inode := by
  unfold ioFsync
  split
  · exact ⟨rfl,rfl⟩
  split
  · exact leave_fds w.tick _ _
  · exact ⟨rfl,rfl⟩

theorem close_frame (fd : ℕ) :
    (ioClose o fd w).2.fds = Function.update w.fds fd none ∧
      (ioClose o fd w).2.disk.inode = w.disk.inode := by
  unfold ioClose
  split
  · rename_i hn
    exact ⟨(Function.update_eq_self_iff.mpr hn.symm).symm,rfl⟩
  split
  · rename_i f _ _ e left _
    obtain ⟨hfds,hino⟩ := leave_fds w.tick f.inode left
    exact ⟨by simp only [Io.dropFd, hfds]; rfl,hino⟩
  · exact ⟨rfl,rfl⟩

theorem unlink_fds (q : CStr) : (ioUnlink o q w).2.fds = w.fds := by
  unfold ioUnlink
  split
  · rfl
  · split <;> rfl

theorem rename_fds (src dst : CStr) : (ioRename o src dst w).2.fds = w.fds := by
  unfold ioRename
  split
  · rfl
  · split <;> rfl

theorem unlink_absent (p q : CStr) (h : w.disk.inode p = none) :
    (ioUnlink o q w).2.disk.inode p = none := by
  rcases (unlink_cases o w q).2 with ⟨-,-,-,hd⟩ | ⟨-,-,hd,-⟩
  · rw [hd]
    by_cases hq : p = q
    · rw [hq]
      exact Disk.inode_unlink_self _ _
    · rw [Disk.inode_unlink_ne _ _ _ hq]
      exact h
  · rw [hd]
    exact h

theorem rename_absent (src dst : CStr) (h : w.disk.inode src = none) :
    ∃ e t, ioRename o src dst w = (.error e,t) := by
  unfold ioRename
  split
  · exact ⟨_,_,rfl⟩
  split
  · exact ⟨_,_,rfl⟩
  · rename_i i hi
    have : w.disk.dir.lookup src = none := h
    rw [this] at hi
    cases hi

end

structure Kept (p : CStr) (old : Option (List UInt8)) (w : Io) : Prop where
  content : w.disk.content p = old
  unopened : ∀ fd f, w.fds fd = some f → w.disk.inode p ≠ some f.inode

section
variable {p : CStr} {old : Option (List UInt8)} {w : Io}

theorem Kept.tick (h : Kept p old w) : Kept p old w.tick := ⟨h.content,h.unopened⟩

theorem Kept.setFd (h : Kept p old w) (fd : ℕ) (f : OpenFile)
    (hf : f.inode < w.disk.next ∧ fd < w.fdNext) (hne : w.disk.inode p ≠ some f.inode) :
    Kept p old (w.setFd fd f hf) := by
  refine ⟨h.content,fun k g hg => ?_⟩
  by_cases hk : k = fd
  · subst hk
    dsimp only [Io.setFd] at hg
    rw [Function.update_self] at hg
    exact Option.some.inj hg ▸ hne
  · dsimp only [Io.setFd] at hg
    rw [Function.update_of_ne hk] at hg
    exact h.unopened k g hg

theorem Kept.giveFd (h : Kept p old w) (i : ℕ) (append : Bool) (hi : i < w.disk.next)
    (hne : w.disk.inode p ≠ some i) : Kept p old (w.giveFd i append hi) := by
  unfold Io.giveFd
  refine Kept.setFd ?_ _ _ _ hne
  exact ⟨h.content,h.unopened⟩

theorem Kept.dropFd (h : Kept p old w) (fd : ℕ) : Kept p old (w.dropFd fd) := by
  refine ⟨h.content,fun k g hg => ?_⟩
  by_cases hk : k = fd
  · subst hk
    dsimp only [Io.dropFd] at hg
    rw [Function.update_self] at hg
    cases hg
  · dsimp only [Io.dropFd] at hg
    rw [Function.update_of_ne hk] at hg
    exact h.unopened k g hg

theorem Kept.storeTo (h : Kept p old w) (i : ℕ) (bytes : List UInt8)
    (hne : w.disk.inode p ≠ some i) : Kept p old (w.storeTo i bytes) :=
  ⟨(Disk.content_store_ne _ _ _ _ hne).trans h.content,h.unopened⟩

theorem Kept.leave (h : Kept p old w) (i : ℕ) (left : Option (List UInt8))
    (hne : w.disk.inode p ≠ some i) : Kept p old (w.leave i left) := by
  cases left with
  | none => exact h
  | some bytes => exact h.storeTo i bytes hne

theorem Kept.createFile (h : Kept p old w) (q : CStr) (hq : p ≠ q) :
    Kept p old (w.createFile q) :=
  ⟨(Disk.content_create_ne _ _ _ hq).trans h.content,fun fd f hf => by
    have := h.unopened fd f hf
    rwa [← Disk.inode_create_ne w.disk q p hq] at this⟩

variable (o : ℕ → Outcome)

theorem kept_open (h : Kept p old w) (q : CStr) (flags : OpenFlags) (hq : p ≠ q) :
    Kept p old (ioOpen o q flags w).2 := by
  unfold ioOpen
  split
  · exact h.tick
  split
  · rename_i i hi
    have hne : w.disk.inode p ≠ some i := fun hp => hq (w.disk.single p q i hp hi)
    by_cases ht : flags = .creatTrunc
    · simp only [ht, if_true]
      exact (h.tick.storeTo i [] hne).giveFd i _ _ hne
    · simp only [ht, if_false]
      exact h.tick.giveFd i _ _ hne
  · split
    · exact h.tick
    · refine (h.tick.createFile q hq).giveFd w.disk.next _ (Nat.lt_succ_self _) ?_
      intro hp
      have hp' : w.disk.inode p = some w.disk.next := (Disk.inode_create_ne w.disk q p hq).symm.trans hp
      exact absurd (w.disk.fresh p _ hp') (Nat.lt_irrefl _)

theorem kept_write (h : Kept p old w) (fd : ℕ) (bytes : List UInt8) :
    Kept p old (ioWrite o fd bytes w).2 := by
  unfold ioWrite
  split
  · exact h.tick
  rename_i f hf
  have hne := h.unopened fd f hf
  split
  · exact h.tick.leave _ _ hne
  · dsimp only
    refine Kept.setFd ?_ _ _ _ hne
    exact h.tick.storeTo f.inode _ hne

theorem kept_fsync (h : Kept p old w) (fd : ℕ) : Kept p old (ioFsync o fd w).2 := by
  unfold ioFsync
  split
  · exact h.tick
  rename_i f hf
  split
  · exact h.tick.leave _ _ (h.unopened fd f hf)
  · exact h.tick

theorem kept_close (h : Kept p old w) (fd : ℕ) : Kept p old (ioClose o fd w).2 := by
  unfold ioClose
  split
  · exact h.tick
  rename_i f hf
  split
  · exact (h.tick.leave _ _ (h.unopened fd f hf)).dropFd fd
  · exact h.tick.dropFd fd

theorem kept_unlink (h : Kept p old w) (q : CStr) (hq : p ≠ q) :
    Kept p old (ioUnlink o q w).2 := by
  unfold ioUnlink
  split
  · exact h.tick
  split
  · exact h.tick
  · exact ⟨(Disk.content_unlink_ne _ _ _ hq).trans h.content,fun fd f hf => by
      have := h.unopened fd f hf
      rwa [← Disk.inode_unlink_ne w.disk q p hq] at this⟩

theorem kept_mkdir (h : Kept p old w) (q : CStr) : Kept p old (ioMkdir o q w).2 := by
  unfold ioMkdir
  split <;> exact h.tick

theorem kept_list (h : Kept p old w) (q : CStr) : Kept p old (ioList o q w).2 := by
  rw [(list_cases o w q).1]
  exact h.tick

end

end StarkOne.StorageIo
