import StarkOne.StorageKept

/-!
# A handle under an atomic write

While its handle is fresh the descriptor of an atomic write leads to the
temporary file, and while every write succeeded that file holds the bytes
written. Closing it flushes, closes, removes the old file and renames.
-/

set_option autoImplicit false

namespace StarkOne.StorageWriting
open StarkOne.InodeDisk StarkOne.StoragePath StarkOne.StorageIo StarkOne.StorageFile
  StarkOne.StorageKept

/-- Only the file-system side of the state differs. -/
structure SameTable (s t : Files) : Prop where
  slots : t.slots = s.slots
  root : t.root = s.root
  mounted : t.mounted = s.mounted
  generation : t.generation = s.generation

theorem SameTable.trans {s t u : Files} (h : SameTable s t) (g : SameTable t u) : SameTable s u :=
  ⟨g.slots.trans h.slots,g.root.trans h.root,g.mounted.trans h.mounted,g.generation.trans h.generation⟩

theorem SameTable.usable {s t : Files} (h : SameTable s t) (k : Slot) : usable t k = usable s k := by
  unfold StorageFile.usable
  rw [h.slots, h.mounted, h.generation]

theorem sameTable_fail (e : Errno) (s : Files) (io : Io) :
    SameTable s (fail e { s with io := io }).2 := by
  unfold fail
  dsimp only
  split <;> exact ⟨rfl,rfl,rfl,rfl⟩

section
variable (o : ℕ → Outcome)

theorem writeLoop_linked (fd rounds : ℕ) (bytes : List UInt8) (s : Files) (q : CStr)
    (h : Linked s.io fd q) :
    SameTable s (writeLoop o fd rounds bytes s).2 ∧
      Linked (writeLoop o fd rounds bytes s).2.io fd q ∧
      ∀ j, j ≠ fd → (writeLoop o fd rounds bytes s).2.io.fds j = s.io.fds j := by
  induction rounds generalizing bytes s with
  | zero => cases bytes <;> exact ⟨⟨rfl,rfl,rfl,rfl⟩,h,fun _ _ => rfl⟩
  | succ rounds ih =>
    cases bytes with
    | nil => exact ⟨⟨rfl,rfl,rfl,rfl⟩,h,fun _ _ => rfl⟩
    | cons b bytes =>
      obtain ⟨f,hf,hi⟩ := h
      rw [writeLoop_cons]
      rcases write_cases o s.io (b::bytes) hf with ⟨e,t,hw,-,hfds,hino⟩ |
        ⟨n,start,t,hw,-,hothers,-,hfd,hino,-⟩
      · rw [hw]
        dsimp only
        refine ⟨sameTable_fail e s t,⟨f,?_,?_⟩,fun j _ => by rw [fail_io, hfds]⟩
        · rw [fail_io, hfds]
          exact hf
        · rw [fail_io, hino]
          exact hi
      · rw [hw]
        dsimp only
        have hl : Linked t fd q := ⟨_,hfd,by rw [hino]; exact hi⟩
        split
        · exact ⟨⟨rfl,rfl,rfl,rfl⟩,hl,hothers⟩
        · obtain ⟨ht,hlink,hrest⟩ :=
            ih ((b::bytes).drop ((b::bytes).take n).length) { s with io := t } hl
          exact ⟨⟨ht.slots,ht.root,ht.mounted,ht.generation⟩,hlink,
            fun j hj => (hrest j hj).trans (hothers j hj)⟩

theorem writeLoop_appends (fd rounds : ℕ) (bytes : List UInt8) (s : Files) (q : CStr)
    (sofar : List UInt8) (h : Appends s.io fd q sofar) (hr : bytes.length ≤ rounds)
    (hok : (writeLoop o fd rounds bytes s).1 = .ok) :
    Appends (writeLoop o fd rounds bytes s).2.io fd q (sofar ++ bytes) := by
  induction rounds generalizing bytes s sofar with
  | zero =>
    obtain rfl := List.length_eq_zero_iff.mp (Nat.le_zero.mp hr)
    rw [List.append_nil]
    exact h
  | succ rounds ih =>
    cases bytes with
    | nil =>
      rw [List.append_nil]
      exact h
    | cons b bytes =>
      obtain ⟨i,hf,hi,hd⟩ := h
      rw [writeLoop_cons] at hok ⊢
      rcases write_cases o s.io (b::bytes) hf with ⟨e,t,hw,-⟩ |
        ⟨n,start,t,hw,-,-,rfl,hfd,hino,hdata⟩
      · rw [hw] at hok
        exact absurd hok (fail_ne_ok _ _)
      rw [hw] at hok ⊢
      dsimp only at hok hfd hdata ⊢
      by_cases hn : ((b::bytes).take n).length = 0
      · rw [if_pos hn] at hok
        cases hok
      rw [if_neg hn] at hok ⊢
      have happ : Appends t fd q (sofar ++ (b::bytes).take n) := by
        refine ⟨i,?_,?_,?_⟩
        · rw [hfd, List.length_append]
          rfl
        · rw [hino]
          exact hi
        · rw [hdata, hd]
          exact overwrite_end _ _
      have hlen : ((b::bytes).drop ((b::bytes).take n).length).length ≤ rounds := by
        rw [List.length_drop]
        omega
      have hnext := ih _ { s with io := t } _ happ hlen hok
      rwa [List.append_assoc, List.prefix_iff_eq_append.mp (List.take_prefix n (b::bytes))] at hnext

end

/-- The handle under an atomic write: while it is fresh its descriptor leads to
the temporary file, and while all went well that file holds the bytes so far. -/
def Writing (k : Slot) (path tmp : CStr) (good : Prop) (bytes : List UInt8) (s : Files) : Prop :=
  ∃ f, s.slots k = some f ∧ f.mode = .writeAtomic ∧ f.path = path ∧ f.tmp = tmp ∧
    (s.mounted = false → f.stale = true) ∧
    (f.stale = false → Linked s.io f.fd tmp ∧ (good → Appends s.io f.fd tmp bytes))

section
variable (o : ℕ → Outcome) {k : Slot} {path tmp : CStr} {good : Prop} {bytes : List UInt8}
  {s : Files}

theorem writing_write (h : Writing k path tmp good bytes s) (buf : List UInt8) :
    Writing k path tmp (good ∧ (starkStorageWrite o s k buf).1 = .ok) (bytes ++ buf)
      (starkStorageWrite o s k buf).2 := by
  obtain ⟨f,hf,hm,hp,ht,hmount,hfresh⟩ := h
  rcases usable_cases s k with ⟨hn,-⟩ | ⟨g,hg,h⟩
  · rw [hf] at hn
    cases hn
  obtain rfl := Option.some.inj (hf.symm.trans hg)
  unfold starkStorageWrite
  rcases h with ⟨hu,-⟩ | ⟨hu,hst,-,-⟩
  · rw [hu]
    exact ⟨f,hf,hm,hp,ht,hmount,fun hs => ⟨(hfresh hs).1,fun hg => by cases hg.2⟩⟩
  · rw [hu, hf]
    dsimp only
    rw [if_neg (by rw [hm]; decide)]
    obtain ⟨hl,happ⟩ := hfresh hst
    obtain ⟨hsame,hlink,-⟩ := writeLoop_linked o f.fd buf.length buf s tmp hl
    refine ⟨f,by rw [hsame.slots, hf],hm,hp,ht,by rw [hsame.mounted]; exact hmount,fun _ =>
      ⟨hlink,fun hg => ?_⟩⟩
    exact writeLoop_appends o f.fd buf.length buf s tmp bytes (happ hg.1) (le_refl _) hg.2

theorem writing_lost (h : Writing k path tmp good bytes s) :
    Writing k path tmp good bytes (volumeLost o s) := by
  obtain ⟨f,hf,hm,hp,ht,-,-⟩ := h
  refine ⟨{ f with stale := true },?_,hm,hp,ht,fun _ => rfl,fun hs => by cases hs⟩
  rw [invalidate_slots, hf]
  rfl

theorem writing_mounted (h : Writing k path tmp good bytes s) :
    Writing k path tmp good bytes (volumeMounted o s) := by
  by_cases hs : s.mounted = true
  · unfold volumeMounted
    rw [if_pos hs]
    exact h
  obtain ⟨f,hf,hm,hp,ht,hmount,-⟩ := h
  have hst := hmount (Bool.not_eq_true _ ▸ hs)
  refine ⟨f,by rw [volumeMounted_slots, hf],hm,hp,ht,fun _ => hst,fun hfresh => ?_⟩
  rw [hst] at hfresh
  cases hfresh

end

theorem open_atomic (o : ℕ → Outcome) {s t : Files} {dir : StarkDir} {name path tmp : CStr}
    {k : Slot} (hp : storagePathBuild s.root dir name false storagePathMax = .ok path)
    (ht : storagePathBuild s.root dir name true storagePathMax = .ok tmp)
    (h : starkStorageOpen o s dir name .writeAtomic = (.ok,some k,t)) :
    ∃ fd io, ioOpen o tmp .creatTrunc s.io = (.ok fd,io) ∧ s.mounted = true ∧
      t = setSlot { s with io := io } k (some ⟨false,fd,s.generation,.writeAtomic,path,tmp⟩) := by
  unfold starkStorageOpen at h
  rw [hp, ht] at h
  dsimp only at h
  by_cases hs : s.mounted = true
  swap
  · rw [if_pos (by simp [hs])] at h
    cases h
  rw [if_neg (by simp [hs])] at h
  split at h
  · cases h
  rw [if_pos rfl] at h
  split at h
  · rename_i e io _
    have h₁ := (Prod.mk.inj h).1
    exact absurd h₁ (fail_ne_ok _ _)
  · rename_i j _ fd io heq
    obtain ⟨-,h₂⟩ := Prod.mk.inj h
    obtain ⟨h₃,h₄⟩ := Prod.mk.inj h₂
    obtain rfl := Option.some.inj h₃
    exact ⟨fd,io,heq,hs,h₄.symm⟩

/-- The close finds an old file, can flush and close the new one and remove the
old one, and then cannot rename. -/
def LosesOld (o : ℕ → Outcome) (s : Files) (k : Slot) : Prop :=
  ∃ f, s.slots k = some f ∧ usable s k = .ok ∧ s.io.disk.inode f.path ≠ none ∧
    succeeds o s.io.calls ∧ succeeds o (s.io.calls+1) ∧ succeeds o (s.io.calls+2) ∧
    ¬succeeds o (s.io.calls+3)

section
variable (o : ℕ → Outcome) (f : StarkFile)

theorem sync_close_cases (s : Files) {q : CStr} (hm : f.mode ≠ .read)
    (hl : Linked s.io f.fd q) :
    (succeeds o s.io.calls ∧ succeeds o (s.io.calls+1) ∧ (closeFd o f (closeSync o f s)).1 = .ok ∧
      (closeFd o f (closeSync o f s)).2.io = s.io.tick.tick.dropFd f.fd) ∨
    (¬(succeeds o s.io.calls ∧ succeeds o (s.io.calls+1)) ∧
      (closeFd o f (closeSync o f s)).1 ≠ .ok) := by
  have hsync : closeSync o f s = attempt (ioFsync o f.fd s.io) s := by
    unfold closeSync
    rw [if_pos hm]
  rw [hsync]
  rcases fsync_cases o s.io hl with ⟨h₁,h⟩ | ⟨h₁,e,t,h⟩
  · rw [h]
    have hl' : Linked s.io.tick f.fd q := hl
    unfold closeFd attempt
    dsimp only
    rw [if_pos rfl]
    rcases close_cases o s.io.tick hl' with ⟨h₂,h⟩ | ⟨h₂,e,t,h⟩
    · rw [h]
      exact Or.inl ⟨h₁,h₂,rfl,rfl⟩
    · rw [h]
      exact Or.inr ⟨fun hc => h₂ hc.2,fail_ne_ok _ _⟩
  · rw [h]
    have hne : (attempt (α := Unit) (.error e,t) s).1 ≠ .ok := fail_ne_ok _ _
    refine Or.inr ⟨fun hc => h₁ hc.1,?_⟩
    unfold closeFd
    dsimp only
    rw [if_neg hne]
    exact hne

/-- Removing the old file: it is gone, or the directory is as it was. -/
theorem closeUnlink_cases (r : StarkErr × Files) (hm : f.mode = .writeAtomic) (hr : r.1 = .ok) :
    (closeUnlink o f r).2.io.calls = r.2.io.calls+1 ∧
    ((succeeds o r.2.io.calls ∧ r.2.io.disk.inode f.path ≠ none ∧ (closeUnlink o f r).1 = .ok ∧
        (closeUnlink o f r).2.io.disk = r.2.io.disk.unlink f.path) ∨
      ((¬succeeds o r.2.io.calls ∨ r.2.io.disk.inode f.path = none) ∧
        (closeUnlink o f r).2.io.disk = r.2.io.disk ∧
        (succeeds o r.2.io.calls → (closeUnlink o f r).1 = .ok))) := by
  obtain ⟨hcalls,h⟩ := unlink_cases o r.2.io f.path
  unfold closeUnlink
  rw [if_pos ⟨hm,hr⟩]
  generalize ioUnlink o f.path r.2.io = u at hcalls h ⊢
  obtain ⟨_ | v,t⟩ := u
  · rename_i e
    rcases h with ⟨-,-,h,-⟩ | ⟨hw,-,hd,he⟩
    · cases h
    split
    · rename_i heq
      obtain ⟨-,rfl⟩ := Prod.mk.inj heq
      exact ⟨hcalls,Or.inr ⟨hw,hd,fun _ => rfl⟩⟩
    · rename_i hne
      rw [attempt_io]
      exact ⟨hcalls,Or.inr ⟨hw,hd,fun hs => (hne t (congrArg (·,t) (he hs))).elim⟩⟩
  · rcases h with ⟨hs,hi,-,hd⟩ | ⟨-,⟨e,h⟩,-⟩
    · exact ⟨hcalls,Or.inl ⟨hs,hi,rfl,hd⟩⟩
    · cases h

theorem closeRename_cases (r : StarkErr × Files) {i : ℕ} (hm : f.mode = .writeAtomic)
    (hr : r.1 = .ok) (hi : r.2.io.disk.dir.lookup f.tmp = some i) :
    (succeeds o r.2.io.calls ∧ (closeRename o f r).1 = .ok ∧
      (closeRename o f r).2.io.disk = r.2.io.disk.rename f.tmp f.path i hi) ∨
    (¬succeeds o r.2.io.calls ∧ (closeRename o f r).1 ≠ .ok ∧
      (closeRename o f r).2.io.disk = r.2.io.disk) := by
  have h := rename_cases o r.2.io f.path hi
  unfold closeRename
  rw [if_pos ⟨hm,hr⟩]
  generalize ioRename o f.tmp f.path r.2.io = u at h ⊢
  obtain ⟨e | v,t⟩ := u
  · rcases h with ⟨-,h,-⟩ | ⟨hs,-,hd⟩
    · cases h
    · exact Or.inr ⟨hs,fail_ne_ok _ _,by rw [attempt_io]; exact hd⟩
  · rcases h with ⟨hs,-,hd⟩ | ⟨-,⟨e,h⟩,-⟩
    · exact Or.inl ⟨hs,rfl,hd⟩
    · cases h

theorem closeRename_failed (r : StarkErr × Files) (hr : r.1 ≠ .ok) :
    closeRename o f (closeUnlink o f r) = r := by
  have hu : closeUnlink o f r = r := if_neg (fun h => hr h.2)
  rw [hu]
  exact if_neg (fun h => hr h.2)

theorem closeDrop_fst (r : StarkErr × Files) : (closeDrop o f r).1 = r.1 := by
  unfold closeDrop
  split <;> rfl

theorem closeDrop_content (r : StarkErr × Files) (hne : f.tmp ≠ f.path) :
    (closeDrop o f r).2.io.disk.content f.path = r.2.io.disk.content f.path := by
  unfold closeDrop
  split
  · rcases (unlink_cases o r.2.io f.tmp).2 with ⟨-,-,-,hd⟩ | ⟨-,-,hd,-⟩
    · dsimp only
      rw [hd]
      exact Disk.content_unlink_ne _ _ _ (Ne.symm hne)
    · dsimp only
      rw [hd]
  · rfl

theorem close_usable (s : Files) (k : Slot) (hf : s.slots k = some f) (hu : usable s k = .ok) :
    (starkStorageClose o s k).1 = (closeRename o f (closeUnlink o f (closeFd o f (closeSync o f s)))).1 ∧
    (starkStorageClose o s k).2.io =
      (closeDrop o f (closeRename o f (closeUnlink o f (closeFd o f (closeSync o f s))))).2.io := by
  unfold starkStorageClose
  rw [hu, hf]
  exact ⟨closeDrop_fst _ _ _,rfl⟩

/-- A close of a fresh atomic handle: the new file is in place, or the old one
is still there, or the old one is lost. -/
theorem close_effect (s : Files) (k : Slot) {old : Option (List UInt8)} (hf : s.slots k = some f)
    (hm : f.mode = .writeAtomic) (hu : usable s k = .ok) (hl : Linked s.io f.fd f.tmp)
    (hne : f.tmp ≠ f.path) (hk : Kept f.path old s.io) :
    ((starkStorageClose o s k).1 = .ok ∧
      (starkStorageClose o s k).2.io.disk.content f.path = s.io.disk.content f.tmp ∧
      ¬LosesOld o s k) ∨
    ((starkStorageClose o s k).1 ≠ .ok ∧
      (starkStorageClose o s k).2.io.disk.content f.path = old ∧ ¬LosesOld o s k ∧
      ∃ n, ¬succeeds o n) ∨
    ((starkStorageClose o s k).1 ≠ .ok ∧
      (starkStorageClose o s k).2.io.disk.content f.path = none ∧ LosesOld o s k) := by
  obtain ⟨hfst,hio⟩ := close_usable o f s k hf hu
  rw [hfst, hio, closeDrop_content _ _ _ hne]
  have hloses : LosesOld o s k ↔ s.io.disk.inode f.path ≠ none ∧ succeeds o s.io.calls ∧
      succeeds o (s.io.calls+1) ∧ succeeds o (s.io.calls+2) ∧ ¬succeeds o (s.io.calls+3) := by
    constructor
    · rintro ⟨g,hg,-,h⟩
      obtain rfl := Option.some.inj (hf.symm.trans hg)
      exact h
    · exact fun h => ⟨f,hf,hu,h⟩
  rw [hloses]
  obtain ⟨file,hfile,hino⟩ := hl
  have hkept := kept_closeFd o f _ (kept_closeSync o f s hk)
  rcases sync_close_cases o f s (by rw [hm]; decide) ⟨file,hfile,hino⟩ with ⟨h₁,h₂,hok,hdisk⟩ | ⟨h,hfail⟩
  swap
  · rw [closeRename_failed _ _ _ hfail]
    refine Or.inr (Or.inl ⟨hfail,hkept.content,fun hc => h ⟨hc.2.1,hc.2.2.1⟩,?_⟩)
    by_contra hall
    exact h ⟨by_contra fun hn => hall ⟨_,hn⟩,by_contra fun hn => hall ⟨_,hn⟩⟩
  generalize closeFd o f (closeSync o f s) = r at hok hdisk hkept ⊢
  have hd : r.2.io.disk = s.io.disk := by rw [hdisk]; rfl
  have hc : r.2.io.calls = s.io.calls+2 := by rw [hdisk]; rfl
  have hold : s.io.disk.content f.path = old := hk.content
  obtain ⟨hcalls,hun⟩ := closeUnlink_cases o f r hm hok
  by_cases hul : (closeUnlink o f r).1 = .ok
  swap
  · have hr : closeRename o f (closeUnlink o f r) = closeUnlink o f r := by
      unfold closeRename
      rw [if_neg (fun h => hul h.2)]
    rw [hr]
    rcases hun with ⟨-,-,h,-⟩ | ⟨hw,hdu,hsu⟩
    · exact absurd h hul
    · refine Or.inr (Or.inl ⟨hul,by rw [hdu, hd, hold],fun hc' => ?_,_,fun h => hul (hsu h)⟩)
      rw [hc, hd] at hw
      exact hw.elim (fun h => h hc'.2.2.2.1) (fun h => hc'.1 h)
  have htmp : (closeUnlink o f r).2.io.disk.inode f.tmp = some file.inode := by
    rcases hun with ⟨-,-,-,hdu⟩ | ⟨-,hdu,-⟩
    · rw [hdu, Disk.inode_unlink_ne _ _ _ hne, hd]
      exact hino
    · rw [hdu, hd]
      exact hino
  have hdata : (closeUnlink o f r).2.io.disk.data = s.io.disk.data := by
    rcases hun with ⟨-,-,-,hdu⟩ | ⟨-,hdu,-⟩
    · rw [hdu, ← hd]
      rfl
    · rw [hdu, hd]
  rw [hc] at hcalls
  rcases closeRename_cases o f (closeUnlink o f r) hm hul htmp with ⟨hs,hrn,hdr⟩ | ⟨hs,hrn,hdr⟩
  · refine Or.inl ⟨hrn,?_,fun h => h.2.2.2.2 (hcalls ▸ hs)⟩
    rw [hdr, Disk.content_eq _ _ _ (Disk.inode_rename_dst _ _ _ _ htmp),
      Disk.content_eq _ _ _ hino, ← hdata]
    rfl
  · rw [hcalls] at hs
    rcases hun with ⟨hsu,hi,-,hdu⟩ | ⟨hw,hdu,-⟩
    · refine Or.inr (Or.inr ⟨hrn,?_,hd ▸ hi,h₁,h₂,hc ▸ hsu,hs⟩)
      rw [hdr, hdu]
      exact Disk.content_none _ _ (Disk.inode_unlink_self _ _)
    · refine Or.inr (Or.inl ⟨hrn,by rw [hdr, hdu, hd, hold],fun hc' => ?_,_,hs⟩)
      rw [hc, hd] at hw
      exact hw.elim (fun h => h hc'.2.2.2.1) (fun h => hc'.1 h)

end

end StarkOne.StorageWriting
