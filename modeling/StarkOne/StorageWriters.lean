import StarkOne.Machine
import StarkOne.StorageAtomic

/-!
# Atomic writers of one name

Any number of handles opened for an atomic write on one name, over calls that
do not fail. They share one temporary file. While at most one of them is open
it is that handle's file; a second open truncates it, and from then on a
discard of the one takes it away from the other.
-/

set_option autoImplicit false

namespace StarkOne.StorageWriters
open StarkOne.Machine StarkOne.InodeDisk StarkOne.StoragePath StarkOne.StorageIo
  StarkOne.StorageFile StarkOne.StorageKept StarkOne.StorageWriting StarkOne.StorageAtomic

/-- No call fails, and a write takes at least one byte. -/
def Unfailing (o : ℕ → Outcome) : Prop := ∀ n, ∃ m, 0 < m ∧ o n = .ok m

theorem Unfailing.succeeds {o : ℕ → Outcome} (ho : Unfailing o) (n : ℕ) : succeeds o n := by
  obtain ⟨m,-,hm⟩ := ho n
  exact ⟨m,hm⟩

/-- The component, with the bytes written through the handle of each slot. -/
structure Writers where
  files : Files
  wrote : Slot → List UInt8

inductive WriterOp where
  | openAtomic
  | write (k : Slot) (buf : List UInt8)
  | close (k : Slot)
  | discard (k : Slot)
  deriving DecidableEq

section
variable (o : ℕ → Outcome) (dir : StarkDir) (name : CStr)

/-- One call; a handle is used only between its open and its close or discard. -/
def act (s : Writers) : WriterOp → Option Writers
  | .openAtomic =>
    let r := starkStorageOpen o s.files dir name .writeAtomic
    some
      { files := r.2.2
        wrote := match r.2.1 with
          | some k => Function.update s.wrote k []
          | none => s.wrote }
  | .write k buf =>
    if (s.files.slots k).isSome then
      some
        { files := (starkStorageWrite o s.files k buf).2
          wrote := Function.update s.wrote k (s.wrote k ++ buf) }
    else none
  | .close k =>
    if (s.files.slots k).isSome then some { s with files := (starkStorageClose o s.files k).2 }
    else none
  | .discard k =>
    if (s.files.slots k).isSome then some { s with files := starkStorageDiscard o s.files k }
    else none

end

/-- The name is opened only while no handle on it is open. -/
def Apart (s : Writers) (a : WriterOp) : Prop :=
  a = .openAtomic → ∀ k, s.files.slots k = none

instance (s : Writers) (a : WriterOp) : Decidable (Apart s a) :=
  decidable_of_iff (a = .openAtomic → ∀ k, (s.files.slots k).isNone = true)
    (by simp only [Apart, Option.isNone_iff_eq_none])

def writes (o : ℕ → Outcome) (k : Slot) : List (List UInt8) → Files → Files
  | [], s => s
  | buf::bufs, s => writes o k bufs (starkStorageWrite o s k buf).2

/-- A close that succeeds commits what was written through its handle, and a
discard of another handle changes nothing about it, now or after more writes. -/
structure Unmixed (o : ℕ → Outcome) (path : CStr) (s : Writers) : Prop where
  commit : ∀ k, (s.files.slots k).isSome → (starkStorageClose o s.files k).1 = .ok →
    (starkStorageClose o s.files k).2.io.disk.content path = some (s.wrote k)
  undisturbed : ∀ i k bufs, i ≠ k → (s.files.slots i).isSome → (s.files.slots k).isSome →
    let plain := starkStorageClose o (writes o k bufs s.files) k
    let after := starkStorageClose o (writes o k bufs (starkStorageDiscard o s.files i)) k
    after.1 = plain.1 ∧ after.2.io.disk.content path = plain.2.io.disk.content path

structure Idle (s : Writers) : Prop where
  slots : ∀ k, s.files.slots k = none
  fds : ∀ fd, s.files.io.fds fd = none

/-- The one open handle: its descriptor is the only one, and the temporary file
holds what was written through it. -/
structure Busy (path tmp : CStr) (k : Slot) (f : StarkFile) (s : Writers) : Prop where
  slot : s.files.slots k = some f
  alone : ∀ j, j ≠ k → s.files.slots j = none
  fresh : f.stale = false
  generation : s.files.generation = f.generation
  mode : f.mode = .writeAtomic
  final : f.path = path
  temp : f.tmp = tmp
  fds : ∀ j, j ≠ f.fd → s.files.io.fds j = none
  bytes : Appends s.files.io f.fd tmp (s.wrote k)

structure Inv (root path tmp : CStr) (s : Writers) : Prop where
  root : s.files.root = root
  mounted : s.files.mounted = true
  handles : Idle s ∨ ∃ k f, Busy path tmp k f s

section
variable {o : ℕ → Outcome} (ho : Unfailing o)
include ho

theorem writeLoop_ok (fd rounds : ℕ) (bytes : List UInt8) (s : Files) (q : CStr)
    (h : Linked s.io fd q) (hr : bytes.length ≤ rounds) :
    (writeLoop o fd rounds bytes s).1 = .ok := by
  induction rounds generalizing bytes s with
  | zero =>
    obtain rfl := List.length_eq_zero_iff.mp (Nat.le_zero.mp hr)
    rfl
  | succ rounds ih =>
    cases bytes with
    | nil => rfl
    | cons b bytes =>
      obtain ⟨f,hf,hi⟩ := h
      rw [writeLoop_cons]
      rcases write_cases o s.io (b::bytes) hf with ⟨e,t,-,hno,-⟩ |
        ⟨n,start,t,hw,hn,-,-,hfd,hino,-⟩
      · exact absurd (ho.succeeds _) hno
      obtain ⟨m,hm,hom⟩ := ho s.io.calls
      obtain rfl := Outcome.ok.inj (hom.symm.trans hn)
      have hlen : ((b::bytes).take m).length ≠ 0 := by
        rw [List.length_take, List.length_cons]
        omega
      rw [hw]
      dsimp only
      rw [if_neg hlen]
      refine ih _ _ ⟨_,hfd,by rw [hino]; exact hi⟩ ?_
      rw [List.length_drop]
      omega

end

section
variable (o : ℕ → Outcome) (f : StarkFile)

theorem sameTable_attempt {α : Type} (r : Except Errno α × Io) (s : Files) :
    SameTable s (attempt r s).2 := by
  obtain ⟨e | a,io⟩ := r
  · exact sameTable_fail e s io
  · exact ⟨rfl,rfl,rfl,rfl⟩

theorem closeSync_frame (s : Files) :
    SameTable s (closeSync o f s).2 ∧ (closeSync o f s).2.io.fds = s.io.fds := by
  unfold closeSync
  split
  · exact ⟨sameTable_attempt _ _,by rw [attempt_io]; exact (fsync_frame o _ _).1⟩
  · exact ⟨⟨rfl,rfl,rfl,rfl⟩,rfl⟩

theorem closeFd_frame (r : StarkErr × Files) :
    SameTable r.2 (closeFd o f r).2 ∧
      (closeFd o f r).2.io.fds = Function.update r.2.io.fds f.fd none := by
  unfold closeFd
  dsimp only
  split
  · exact ⟨sameTable_attempt _ _,by rw [attempt_io]; exact (close_frame o _ _).1⟩
  · exact ⟨⟨rfl,rfl,rfl,rfl⟩,(close_frame o _ _).1⟩

theorem closeUnlink_frame (r : StarkErr × Files) :
    SameTable r.2 (closeUnlink o f r).2 ∧ (closeUnlink o f r).2.io.fds = r.2.io.fds := by
  have hu := unlink_fds o r.2.io f.path
  unfold closeUnlink
  split
  · split
    · rename_i io heq
      rw [heq] at hu
      exact ⟨⟨rfl,rfl,rfl,rfl⟩,hu⟩
    · exact ⟨sameTable_attempt _ _,by rw [attempt_io]; exact hu⟩
  · exact ⟨⟨rfl,rfl,rfl,rfl⟩,rfl⟩

theorem closeRename_frame (r : StarkErr × Files) :
    SameTable r.2 (closeRename o f r).2 ∧ (closeRename o f r).2.io.fds = r.2.io.fds := by
  unfold closeRename
  split
  · exact ⟨sameTable_attempt _ _,by rw [attempt_io]; exact rename_fds o _ _ _⟩
  · exact ⟨⟨rfl,rfl,rfl,rfl⟩,rfl⟩

theorem closeDrop_frame (r : StarkErr × Files) :
    SameTable r.2 (closeDrop o f r).2 ∧ (closeDrop o f r).2.io.fds = r.2.io.fds := by
  unfold closeDrop
  split
  · exact ⟨⟨rfl,rfl,rfl,rfl⟩,unlink_fds o _ _⟩
  · exact ⟨⟨rfl,rfl,rfl,rfl⟩,rfl⟩

theorem close_table (s : Files) (k : Slot) (hf : s.slots k = some f) (hu : usable s k = .ok) :
    (starkStorageClose o s k).2.slots = Function.update s.slots k none ∧
    (starkStorageClose o s k).2.root = s.root ∧
    (starkStorageClose o s k).2.mounted = s.mounted ∧
    (starkStorageClose o s k).2.io.fds = Function.update s.io.fds f.fd none := by
  obtain ⟨h₁,g₁⟩ := closeSync_frame o f s
  obtain ⟨h₂,g₂⟩ := closeFd_frame o f (closeSync o f s)
  obtain ⟨h₃,g₃⟩ := closeUnlink_frame o f (closeFd o f (closeSync o f s))
  obtain ⟨h₄,g₄⟩ := closeRename_frame o f (closeUnlink o f (closeFd o f (closeSync o f s)))
  obtain ⟨h₅,g₅⟩ := closeDrop_frame o f
    (closeRename o f (closeUnlink o f (closeFd o f (closeSync o f s))))
  have h := (((h₁.trans h₂).trans h₃).trans h₄).trans h₅
  have g := ((g₅.trans g₄).trans g₃).trans g₂
  rw [g₁] at g
  unfold starkStorageClose
  rw [hu, hf]
  exact ⟨by dsimp only [release, setSlot]; rw [h.slots],h.root,h.mounted,g⟩

theorem discard_table (s : Files) (k : Slot) (hf : s.slots k = some f) (hu : usable s k = .ok) :
    (starkStorageDiscard o s k).slots = Function.update s.slots k none ∧
    (starkStorageDiscard o s k).root = s.root ∧
    (starkStorageDiscard o s k).mounted = s.mounted ∧
    (starkStorageDiscard o s k).generation = s.generation ∧
    (starkStorageDiscard o s k).io.fds = Function.update s.io.fds f.fd none := by
  have hc := (close_frame o s.io f.fd).1
  unfold starkStorageDiscard
  rw [hu, hf]
  dsimp only
  split
  · exact ⟨rfl,rfl,rfl,rfl,(unlink_fds o _ _).trans hc⟩
  · exact ⟨rfl,rfl,rfl,rfl,hc⟩

/-- A close whose temporary file is gone fails. -/
theorem close_without_tmp (s : Files) (k : Slot) (hf : s.slots k = some f)
    (hm : f.mode = .writeAtomic) (hu : usable s k = .ok) (ht : s.io.disk.inode f.tmp = none) :
    (starkStorageClose o s k).1 ≠ .ok := by
  rw [(close_usable o f s k hf hu).1]
  have hsync : (closeSync o f s).2.io.disk.inode = s.io.disk.inode := by
    unfold closeSync
    split
    · rw [attempt_io]
      exact (fsync_frame o _ _).2
    · rfl
  have hclose : (closeFd o f (closeSync o f s)).2.io.disk.inode = s.io.disk.inode := by
    rw [← hsync]
    unfold closeFd
    dsimp only
    split
    · rw [attempt_io]
      exact (close_frame o _ _).2
    · exact (close_frame o _ _).2
  generalize closeFd o f (closeSync o f s) = r at hclose
  have hgone : (closeUnlink o f r).2.io.disk.inode f.tmp = none := by
    have hu := unlink_absent o r.2.io f.tmp f.path (by rw [hclose]; exact ht)
    unfold closeUnlink
    split
    · split
      · rename_i io heq
        rw [heq] at hu
        exact hu
      · rw [attempt_io]
        exact hu
    · rw [hclose]
      exact ht
  by_cases hok : (closeUnlink o f r).1 = .ok
  · obtain ⟨e,t,hr⟩ := rename_absent o _ f.tmp f.path hgone
    unfold closeRename
    rw [if_pos ⟨hm,hok⟩, hr]
    exact fail_ne_ok _ _
  · unfold closeRename
    rw [if_neg (fun h => hok h.2)]
    exact hok

end

theorem discard_removes {o : ℕ → Outcome} (ho : Unfailing o) {f : StarkFile} (s : Files) (k : Slot)
    (hf : s.slots k = some f) (hm : f.mode = .writeAtomic) (hu : usable s k = .ok) :
    (starkStorageDiscard o s k).io.disk.inode f.tmp = none := by
  unfold starkStorageDiscard
  rw [hu, hf]
  dsimp only
  rw [if_pos hm]
  rcases (unlink_cases o (ioClose o f.fd s.io).2 f.tmp).2 with ⟨-,-,-,hd⟩ | ⟨hn,-,hd,-⟩
  · change (ioUnlink o f.tmp (ioClose o f.fd s.io).2).2.disk.inode f.tmp = none
    rw [hd]
    exact Disk.inode_unlink_self _ _
  · change (ioUnlink o f.tmp (ioClose o f.fd s.io).2).2.disk.inode f.tmp = none
    rw [hd]
    exact hn.resolve_left (fun h => h (ho.succeeds _))

theorem usable_fresh {s : Files} {k : Slot} {f : StarkFile} (hf : s.slots k = some f)
    (hst : f.stale = false) (hm : s.mounted = true) (hg : s.generation = f.generation) :
    usable s k = .ok := by
  unfold usable
  rw [hf]
  simp [hst, hm, hg]

section
variable {o : ℕ → Outcome} {dir : StarkDir} {name root path tmp : CStr} {k : Slot}
  {f : StarkFile} {s t : Writers}

theorem Busy.usable (h : Busy path tmp k f s) (hm : s.files.mounted = true) :
    usable s.files k = .ok :=
  usable_fresh h.slot h.fresh hm h.generation

theorem Busy.only (h : Busy path tmp k f s) {j : Slot} (hj : (s.files.slots j).isSome) : j = k := by
  by_contra hne
  rw [h.alone j hne] at hj
  cases hj

theorem Busy.kept (h : Busy path tmp k f s) (hne : tmp ≠ path) :
    Kept path (s.files.io.disk.content path) s.files.io := by
  refine ⟨rfl,fun fd g hg hp => ?_⟩
  obtain ⟨i,hf,hi,-⟩ := h.bytes
  by_cases hfd : fd = f.fd
  · subst hfd
    obtain rfl := Option.some.inj (hf.symm.trans hg)
    exact hne (s.files.io.disk.single tmp path i hi hp)
  · rw [h.fds fd hfd] at hg
    cases hg

theorem Busy.close (ho : Unfailing o) (h : Busy path tmp k f s) (hm : s.files.mounted = true)
    (hne : tmp ≠ path) : (starkStorageClose o s.files k).1 = .ok ∧
      (starkStorageClose o s.files k).2.io.disk.content path = some (s.wrote k) := by
  obtain ⟨hslot,-,-,-,hmode,rfl,rfl,-,hbytes⟩ := id h
  rcases close_effect o f s.files k hslot hmode (h.usable hm) hbytes.linked hne (h.kept hne) with
    ⟨he,hc,-⟩ | ⟨-,-,-,n,hn⟩ | ⟨-,-,g,-,-,-,-,-,-,hn⟩
  · obtain ⟨i,-,hi,hd⟩ := hbytes
    exact ⟨he,by rw [hc, Disk.content_eq _ _ _ hi, hd]⟩
  · exact absurd (ho.succeeds n) hn
  · exact absurd (ho.succeeds _) hn

theorem Idle.unused (h : Idle s) (k : Slot) : ¬(s.files.slots k).isSome := by
  rw [h.slots k]
  exact fun hk => by cases hk

theorem inv_unmixed (ho : Unfailing o) (hne : tmp ≠ path) (h : Inv root path tmp s) :
    Unmixed o path s := by
  rcases h.handles with hi | ⟨k,f,hb⟩
  · exact ⟨fun k hk => absurd hk (hi.unused k),fun i k _ _ hk => absurd hk (hi.unused i)⟩
  · refine ⟨fun j hj _ => ?_,fun i j _ hij hi hj => absurd ((hb.only hi).trans (hb.only hj).symm) hij⟩
    obtain rfl := hb.only hj
    exact (hb.close ho h.mounted hne).2

theorem open_result (ho : Unfailing o)
    (hp : storagePathBuild root dir name false storagePathMax = .ok path)
    (ht : storagePathBuild root dir name true storagePathMax = .ok tmp)
    (h : Inv root path tmp s) (j : Slot) (hj : s.files.slots j = none) :
    ∃ i fd io, s.files.slots i = none ∧ ioOpen o tmp .creatTrunc s.files.io = (.ok fd,io) ∧
      starkStorageOpen o s.files dir name .writeAtomic = (.ok,some i,
        setSlot { s.files with io := io } i
          (some ⟨false,fd,s.files.generation,.writeAtomic,path,tmp⟩)) := by
  obtain ⟨fd,io,hio⟩ := open_succeeds o s.files.io tmp (ho.succeeds _)
  have hfree : ∃ i, freeSlot s.files = some i ∧ s.files.slots i = none := by
    cases hi : freeSlot s.files with
    | none =>
      have := List.find?_eq_none.mp hi j (List.mem_finRange j)
      rw [hj] at this
      exact absurd rfl this
    | some i =>
      have := List.find?_some hi
      exact ⟨i,rfl,Option.isNone_iff_eq_none.mp this⟩
  obtain ⟨i,hi,hnone⟩ := hfree
  refine ⟨i,fd,io,hnone,hio,?_⟩
  rw [← h.root] at hp ht
  unfold starkStorageOpen
  rw [hp, ht]
  dsimp only
  rw [if_neg (by simp [h.mounted]), hi]
  dsimp only [openFlags]
  rw [if_pos rfl, hio]

theorem open_busy (ho : Unfailing o)
    (hp : storagePathBuild root dir name false storagePathMax = .ok path)
    (ht : storagePathBuild root dir name true storagePathMax = .ok tmp)
    (h : Inv root path tmp s) (hi : Idle s) (hs : act o dir name s .openAtomic = some t) :
    Inv root path tmp t := by
  obtain ⟨i,fd,io,-,hio,hopen⟩ := open_result ho hp ht h 0 (hi.slots 0)
  unfold act at hs
  rw [hopen] at hs
  obtain rfl := Option.some.inj hs
  refine ⟨h.root,h.mounted,Or.inr ⟨i,_,Function.update_self _ _ _,fun j hj => ?_,rfl,rfl,rfl,rfl,rfl,
    fun j hj => ?_,?_⟩⟩
  · exact (Function.update_of_ne hj _ _).trans (hi.slots j)
  · exact ((open_frame o _ hio).2.1 j hj).trans (hi.fds j)
  · dsimp only
    rw [Function.update_self]
    exact open_appends o _ hio

theorem write_busy (ho : Unfailing o) (h : Inv root path tmp s) (j : Slot) (buf : List UInt8)
    (hb : Busy path tmp k f s) (hs : act o dir name s (.write j buf) = some t) :
    Inv root path tmp t := by
  rw [act] at hs
  split at hs
  swap
  · cases hs
  rename_i hj
  obtain rfl := hb.only hj
  obtain rfl := Option.some.inj hs
  have hw : starkStorageWrite o s.files j buf = writeLoop o f.fd buf.length buf s.files := by
    unfold starkStorageWrite
    rw [hb.usable h.mounted, hb.slot]
    dsimp only
    rw [if_neg (by rw [hb.mode]; decide)]
  obtain ⟨hsame,-,hrest⟩ := writeLoop_linked o f.fd buf.length buf s.files tmp hb.bytes.linked
  have hok := writeLoop_ok ho f.fd buf.length buf s.files tmp hb.bytes.linked (le_refl _)
  have happ := writeLoop_appends o f.fd buf.length buf s.files tmp _ hb.bytes (le_refl _) hok
  rw [hw]
  refine ⟨hsame.root.trans h.root,hsame.mounted.trans h.mounted,Or.inr ⟨j,f,?_,fun i hi => ?_,
    hb.fresh,hsame.generation.trans hb.generation,hb.mode,hb.final,hb.temp,fun i hi => ?_,?_⟩⟩
  · rw [hsame.slots]
    exact hb.slot
  · rw [hsame.slots]
    exact hb.alone i hi
  · exact (hrest i hi).trans (hb.fds i hi)
  · dsimp only
    rw [Function.update_self]
    exact happ

/-- Once its slot and its descriptor are given up, no handle is left. -/
theorem Busy.freed (hb : Busy path tmp k f s)
    (hslots : t.files.slots = Function.update s.files.slots k none)
    (hfds : t.files.io.fds = Function.update s.files.io.fds f.fd none) : Idle t := by
  constructor
  · intro i
    rw [hslots]
    by_cases hi : i = k
    · rw [hi, Function.update_self]
    · rw [Function.update_of_ne hi]
      exact hb.alone i hi
  · intro fd
    rw [hfds]
    by_cases hi : fd = f.fd
    · rw [hi, Function.update_self]
    · rw [Function.update_of_ne hi]
      exact hb.fds fd hi

theorem close_idle (h : Inv root path tmp s) (j : Slot) (hb : Busy path tmp k f s)
    (hs : act o dir name s (.close j) = some t) : Inv root path tmp t := by
  rw [act] at hs
  split at hs
  swap
  · cases hs
  rename_i hj
  obtain rfl := hb.only hj
  obtain rfl := Option.some.inj hs
  obtain ⟨hslots,hroot,hmount,hfds⟩ := close_table o f s.files j hb.slot (hb.usable h.mounted)
  exact ⟨hroot.trans h.root,hmount.trans h.mounted,Or.inl (hb.freed hslots hfds)⟩

theorem discard_idle (h : Inv root path tmp s) (j : Slot) (hb : Busy path tmp k f s)
    (hs : act o dir name s (.discard j) = some t) : Inv root path tmp t := by
  rw [act] at hs
  split at hs
  swap
  · cases hs
  rename_i hj
  obtain rfl := hb.only hj
  obtain rfl := Option.some.inj hs
  obtain ⟨hslots,hroot,hmount,-,hfds⟩ := discard_table o f s.files j hb.slot (hb.usable h.mounted)
  exact ⟨hroot.trans h.root,hmount.trans h.mounted,Or.inl (hb.freed hslots hfds)⟩

theorem act_inv (ho : Unfailing o)
    (hp : storagePathBuild root dir name false storagePathMax = .ok path)
    (ht : storagePathBuild root dir name true storagePathMax = .ok tmp) (a : WriterOp)
    (h : Inv root path tmp s) (hg : Apart s a) (hs : act o dir name s a = some t) :
    Inv root path tmp t := by
  rcases h.handles with hi | ⟨k,f,hb⟩
  · cases a with
    | openAtomic => exact open_busy ho hp ht h hi hs
    | write k buf => rw [act, if_neg (hi.unused k)] at hs; cases hs
    | close k => rw [act, if_neg (hi.unused k)] at hs; cases hs
    | discard k => rw [act, if_neg (hi.unused k)] at hs; cases hs
  · cases a with
    | openAtomic =>
      have := hg rfl k
      rw [hb.slot] at this
      cases this
    | write j buf => exact write_busy ho h j buf hb hs
    | close j => exact close_idle h j hb hs
    | discard j => exact discard_idle h j hb hs

theorem Busy.second_kept (hb : Busy path tmp k f s) (hne : tmp ≠ path) {fd : ℕ} {io : Io}
    (hio : ioOpen o tmp .creatTrunc s.files.io = (.ok fd,io)) :
    Kept path (io.disk.content path) io := by
  refine ⟨rfl,fun n g hg hp' => ?_⟩
  obtain ⟨i,hfile,hino,-⟩ := hb.bytes
  obtain ⟨i',hfile',hino',-⟩ := open_appends o _ hio
  obtain ⟨-,hothers,hframe⟩ := open_frame o _ hio
  have hsame := hframe (by rw [hino]; simp)
  by_cases hn : n = fd
  · subst hn
    obtain rfl := Option.some.inj (hfile'.symm.trans hg)
    exact hne (io.disk.single tmp path i' hino' hp')
  rw [hothers n hn] at hg
  by_cases hn' : n = f.fd
  · subst hn'
    obtain rfl := Option.some.inj (hfile.symm.trans hg)
    exact hne (io.disk.single tmp path i ((congrFun hsame tmp).trans hino) hp')
  · rw [hb.fds n hn'] at hg
    cases hg

/-- A second open leaves two handles, and a discard of the first takes the
temporary file of the second away. -/
theorem open_apart_only (ho : Unfailing o)
    (hp : storagePathBuild root dir name false storagePathMax = .ok path)
    (ht : storagePathBuild root dir name true storagePathMax = .ok tmp) (a : WriterOp)
    (h : Inv root path tmp s) (hg : ¬Apart s a) (hs : act o dir name s a = some t) :
    ¬Unmixed o path t := by
  have hne := tmp_ne_final hp ht
  obtain ⟨rfl,hk⟩ := Classical.not_imp.mp hg
  obtain ⟨k,hk⟩ := not_forall.mp hk
  rcases h.handles with hi | ⟨k',f,hb⟩
  · exact absurd (hi.slots k) hk
  obtain rfl : k = k' := hb.only (Option.isSome_iff_ne_none.mpr hk)
  obtain ⟨free,hfree⟩ := exists_ne k
  obtain ⟨j,fd,io,hnone,hio,hopen⟩ := open_result ho hp ht h free (hb.alone free hfree)
  have hjk : j ≠ k := by
    rintro rfl
    exact hk hnone
  rw [act, hopen] at hs
  obtain rfl := Option.some.inj hs
  dsimp only
  intro hun
  generalize hV : setSlot { s.files with io := io } j _ = V at hun
  have hslotj : V.slots j = some ⟨false,fd,s.files.generation,.writeAtomic,path,tmp⟩ := by
    rw [← hV]
    exact Function.update_self _ _ _
  have hslotk : V.slots k = some f := by
    rw [← hV]
    exact (Function.update_of_ne (Ne.symm hjk) _ _).trans hb.slot
  have hio' : V.io = io := by rw [← hV]; rfl
  have hmounted : V.mounted = true := by rw [← hV]; exact h.mounted
  have hgen : V.generation = s.files.generation := by rw [← hV]; rfl
  have husek := usable_fresh hslotk hb.fresh hmounted (hgen.trans hb.generation)
  have husej := usable_fresh hslotj rfl hmounted hgen
  have happ : Appends V.io fd tmp [] := by rw [hio']; exact open_appends o _ hio
  have hkept : Kept path (V.io.disk.content path) V.io := by
    rw [hio']
    exact hb.second_kept hne hio
  have hplain : (starkStorageClose o V j).1 = .ok := by
    rcases close_effect o _ V j hslotj rfl husej happ.linked hne hkept with
      ⟨he,-⟩ | ⟨-,-,-,n,hn⟩ | ⟨-,-,g,-,-,-,-,-,-,hn⟩
    · exact he
    · exact absurd (ho.succeeds n) hn
    · exact absurd (ho.succeeds _) hn
  have hafter := (hun.undisturbed k j [] (Ne.symm hjk) (by rw [hslotk]; rfl)
    (by rw [hslotj]; rfl)).1
  rw [writes, writes, hplain] at hafter
  obtain ⟨dslots,-,dmounted,dgen,-⟩ := discard_table o f V k hslotk husek
  have hslotj' : (starkStorageDiscard o V k).slots j =
      some ⟨false,fd,s.files.generation,.writeAtomic,path,tmp⟩ := by
    rw [dslots, Function.update_of_ne hjk]
    exact hslotj
  have hgone := discard_removes ho V k hslotk hb.mode husek
  rw [hb.temp] at hgone
  exact close_without_tmp o _ _ j hslotj' rfl
    (usable_fresh hslotj' rfl (dmounted.trans hmounted) (dgen.trans hgen))
    hgone hafter

end

def start (s : Files) : Writers := { files := s, wrote := fun _ => [] }

/-- From a mounted card with no file open, two writers never mix just when no
open meets a handle that is still open. -/
theorem two_writers_iff (o : ℕ → Outcome) (ho : Unfailing o) (s₀ : Files) (dir : StarkDir)
    (name path tmp : CStr)
    (hp : storagePathBuild s₀.root dir name false storagePathMax = .ok path)
    (ht : storagePathBuild s₀.root dir name true storagePathMax = .ok tmp)
    (hmounted : s₀.mounted = true) (hidle : Idle (start s₀)) (acts : List WriterOp) (s : Writers)
    (h : Run (act o dir name) Free (start s₀) acts s) :
    (∀ before after u, acts = before++after → Run (act o dir name) Free (start s₀) before u →
      Unmixed o path u) ↔ Run (act o dir name) Apart (start s₀) acts s :=
  run_guard_exact (Inv s₀.root path tmp) (Unmixed o path)
    (fun _ a _ hi hg hs => act_inv ho hp ht a hi hg hs)
    (fun _ hi => inv_unmixed ho (tmp_ne_final hp ht) hi)
    (fun _ a _ hi hg hs => open_apart_only ho hp ht a hi hg hs)
    acts ⟨rfl,hmounted,Or.inl hidle⟩ h

def allWell (_ : ℕ) : Outcome := .ok 64

theorem allWell_unfailing : Unfailing allWell := fun _ => ⟨64,by decide,rfl⟩

def card : Files := cardWith sdRoot capturePath [1]

theorem card_idle : Idle (start card) := ⟨fun _ => rfl,fun _ => rfl⟩

def inTurn : List WriterOp :=
  [.openAtomic, .write 0 [7], .close 0, .openAtomic, .write 0 [8,8], .discard 0]

/-- Two writers in turn. -/
theorem two_writers_in_turn :
    ∃ s, Run (act allWell .captures captureName) Apart (start card) inTurn s ∧
      ∀ before after u, inTurn = before++after →
        Run (act allWell .captures captureName) Free (start card) before u →
        Unmixed allWell capturePath u := by
  obtain ⟨s,hs⟩ : ∃ s, follow (act allWell .captures captureName) (start card) inTurn = some s :=
    Option.isSome_iff_exists.mp (by decide)
  have hrun := run_of_follow (G := Apart) inTurn (by decide) hs
  exact ⟨s,hrun,(two_writers_iff allWell allWell_unfailing card .captures captureName capturePath
    captureTmp (by decide) (by decide) rfl card_idle inTurn s
    (run_weaken (fun _ _ _ => trivial) inTurn hrun)).mpr hrun⟩

/-- Two opens, and a discard of the first handle makes the close of the second fail. -/
theorem two_writers_mix :
    ¬∀ (o : ℕ → Outcome) (s₀ : Files) (dir : StarkDir) (name path tmp : CStr), Unfailing o →
      storagePathBuild s₀.root dir name false storagePathMax = .ok path →
      storagePathBuild s₀.root dir name true storagePathMax = .ok tmp →
      s₀.mounted = true → Idle (start s₀) → ∀ (acts : List WriterOp) (s : Writers),
        Run (act o dir name) Free (start s₀) acts s → Unmixed o path s := by
  intro h
  have hmix := (h allWell card .captures captureName capturePath captureTmp allWell_unfailing
    (by decide) (by decide) rfl card_idle [.openAtomic,.openAtomic] _
    ⟨trivial,_,rfl,trivial,_,rfl,rfl⟩).undisturbed 0 1 [[7]] (by decide) (by decide) (by decide)
  revert hmix
  decide

end StarkOne.StorageWriters
