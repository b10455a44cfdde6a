import StarkOne.StorageFile

/-!
# Reading a file

A read is one call of the file system, which takes as many bytes as it
answers. The three calls of a reader succeed together or tell why not.
-/

set_option autoImplicit false

namespace StarkOne.StorageRead
open StarkOne.InodeDisk StarkOne.StoragePath StarkOne.StorageIo StarkOne.StorageFile

section
variable (o : ℕ → Outcome)

/-- A read takes at most as many bytes as are asked for; none at the end of the file. -/
def ioRead (fd len : ℕ) (w : Io) : Except Errno (List UInt8) × Io :=
  match hf : w.fds fd with
  | none => (.error ebadf,w.tick)
  | some f =>
    match o w.calls with
    | .fail e _ => (.error e,w.tick)
    | .ok n =>
      let got := ((w.disk.data f.inode).drop f.offset).take (min n len)
      (.ok got,w.tick.setFd fd { f with offset := f.offset+got.length } (w.held fd f hf))

def starkStorageRead (s : Files) (k : Slot) (len : ℕ) : StarkErr × List UInt8 × Files :=
  match usable s k, s.slots k with
  | .ok, some f =>
    if f.mode ≠ .read then (.state,[],s)
    else match ioRead o f.fd len s.io with
      | (.error e,io) =>
        let r := fail e { s with io := io }
        (r.1,[],r.2)
      | (.ok got,io) => (.ok,got,{ s with io := io })
  | err, _ => (err,[],s)

end

structure Reading (s : Files) (k : Slot) (i offset : ℕ) (f : StarkFile) : Prop where
  slot : s.slots k = some f
  usable : usable s k = .ok
  mode : f.mode = .read
  fd : s.io.fds f.fd = some ⟨i,offset,false⟩

structure Openable (o : ℕ → Outcome) (s : Files) (dir : StarkDir) (name path : CStr) (i : ℕ) :
    Prop where
  built : storagePathBuild s.root dir name false storagePathMax = .ok path
  tmp : ∃ tmp, storagePathBuild s.root dir name true storagePathMax = .ok tmp
  mounted : s.mounted = true
  slot : ∃ k, freeSlot s = some k
  call : succeeds o s.io.calls
  inode : s.io.disk.inode path = some i

section
variable {o : ℕ → Outcome} {s t : Files} {dir : StarkDir} {name path : CStr} {i : ℕ}

theorem Openable.content (h : Openable o s dir name path i) :
    s.io.disk.content path = some (s.io.disk.data i) := by
  rw [Disk.content, h.inode]
  rfl

theorem ioOpen_rdonly (w : Io) (q : CStr) (ho : succeeds o w.calls) (hi : w.disk.inode q = some i) :
    ∃ h, ioOpen o q .rdonly w = (.ok w.fdNext,w.tick.giveFd i false h) := by
  refine ⟨w.disk.fresh q i hi,?_⟩
  obtain ⟨n,hn⟩ := ho
  unfold ioOpen
  rw [hn]
  dsimp only
  split
  · rename_i j hj
    obtain rfl := Option.some.inj (hi.symm.trans hj)
    rfl
  · rename_i hj
    exact absurd (hi.symm.trans hj) (by simp)

theorem ioOpen_rdonly_ok (w : Io) (q : CStr) {fd : ℕ} {v : Io}
    (h : ioOpen o q .rdonly w = (.ok fd,v)) : succeeds o w.calls ∧ ∃ i, w.disk.inode q = some i := by
  unfold ioOpen at h
  split at h
  · cases h
  rename_i n hn
  split at h
  · rename_i j hj
    exact ⟨⟨n,hn⟩,j,hj⟩
  · cases h

theorem open_read (h : Openable o s dir name path i) :
    ∃ k t f, starkStorageOpen o s dir name .read = (.ok,some k,t) ∧ Reading t k i 0 f ∧
      t.io.disk = s.io.disk ∧ t.io.calls = s.io.calls+1 := by
  obtain ⟨tmp,htmp⟩ := h.tmp
  obtain ⟨k,hk⟩ := h.slot
  obtain ⟨hlt,hopen⟩ := ioOpen_rdonly s.io path h.call h.inode
  have hok : starkStorageOpen o s dir name .read =
      (.ok,some k,setSlot { s with io := s.io.tick.giveFd i false hlt } k
        (some ⟨false,s.io.fdNext,s.generation,.read,path,tmp⟩)) := by
    unfold starkStorageOpen
    rw [h.built, htmp]
    dsimp only
    rw [h.mounted, hk]
    dsimp only [openFlags]
    rw [if_neg (by decide), if_neg (by decide), hopen]
  refine ⟨k,_,⟨false,s.io.fdNext,s.generation,.read,path,tmp⟩,hok,⟨?_,?_,rfl,?_⟩,rfl,rfl⟩
  · exact Function.update_self _ _ _
  · simp [usable, setSlot, h.mounted]
  · exact Function.update_self _ _ _

theorem open_read_ok {k : Option Slot} (h : starkStorageOpen o s dir name .read = (.ok,k,t)) :
    ∃ path i, Openable o s dir name path i := by
  unfold starkStorageOpen at h
  split at h
  · rename_i e _
    exact absurd (Prod.mk.inj h).1 e.ne_ok
  · rename_i e _ _
    exact absurd (Prod.mk.inj h).1 e.ne_ok
  rename_i path tmp hpath htmp
  split at h
  · cases h
  rename_i hm
  split at h
  · cases h
  rename_i slot hslot
  rw [if_neg (by decide)] at h
  split at h
  · rename_i e io he
    exact absurd (Prod.mk.inj h).1 (fail_ne_ok _ _)
  · rename_i fd io hopen
    obtain ⟨ho,i,hi⟩ := ioOpen_rdonly_ok s.io path hopen
    exact ⟨path,i,hpath,⟨tmp,htmp⟩,by simpa using hm,⟨slot,hslot⟩,ho,hi⟩

variable {k : Slot} {f : StarkFile} {offset : ℕ}

theorem ioRead_ok (w : Io) (fd len n : ℕ) (g : OpenFile) (hf : w.fds fd = some g)
    (hn : o w.calls = .ok n) :
    ∃ v, ioRead o fd len w = (.ok (((w.disk.data g.inode).drop g.offset).take (min n len)),v) ∧
      (∃ offset, v.fds fd = some { g with offset := offset }) ∧ v.calls = w.calls+1 := by
  unfold ioRead
  split
  · rename_i hnone
    rw [hf] at hnone
    cases hnone
  rename_i g' hg
  obtain rfl := Option.some.inj (hf.symm.trans hg)
  rw [hn]
  exact ⟨_,rfl,⟨_,Function.update_self _ _ _⟩,rfl⟩

/-- A read that the file system answers with `n` takes the next bytes, `n` or `len` at most. -/
theorem read_ok (h : Reading s k i offset f) (len : ℕ) {n : ℕ} (hn : o s.io.calls = .ok n) :
    ∃ t offset', starkStorageRead o s k len =
        (.ok,((s.io.disk.data i).drop offset).take (min n len),t) ∧
      Reading t k i offset' f ∧ t.io.calls = s.io.calls+1 := by
  obtain ⟨v,hread,⟨offset',hfd⟩,hcalls⟩ := ioRead_ok s.io f.fd len n _ h.fd hn
  refine ⟨{ s with io := v },offset',?_,⟨h.slot,h.usable,h.mode,hfd⟩,hcalls⟩
  unfold starkStorageRead
  rw [h.usable, h.slot]
  dsimp only
  rw [if_neg (not_not.mpr h.mode), hread]

theorem read_succeeds (h : Reading s k i offset f) (len : ℕ)
    (hok : (starkStorageRead o s k len).1 = .ok) : succeeds o s.io.calls := by
  unfold starkStorageRead at hok
  rw [h.usable, h.slot] at hok
  dsimp only at hok
  rw [if_neg (not_not.mpr h.mode)] at hok
  unfold ioRead at hok
  split at hok
  · rename_i e io _
    exact absurd hok (fail_ne_ok e { s with io := io })
  · rename_i got io hread
    split at hread
    · cases hread
    split at hread
    · cases hread
    · rename_i n hn
      exact ⟨n,hn⟩

theorem close_read (h : Reading s k i offset f) :
    (starkStorageClose o s k).1 = .ok ↔ succeeds o s.io.calls := by
  have hclose : (starkStorageClose o s k).1 = (attempt (ioClose o f.fd s.io) s).1 := by
    unfold starkStorageClose
    rw [h.usable, h.slot]
    simp [closeDrop, closeRename, closeUnlink, closeFd, closeSync, h.mode]
  rw [hclose, attempt_ok]
  unfold ioClose StorageIo.succeeds
  rw [h.fd]
  dsimp only
  split
  · rename_i hn
    simp [hn]
  · rename_i n hn
    simp [hn]

end

end StarkOne.StorageRead
