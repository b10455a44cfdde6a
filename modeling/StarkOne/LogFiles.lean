import StarkOne.LogRotation
import StarkOne.RotatingLog
import StarkOne.StorageWriters

/-!
# What the log files hold

The bytes of a flush go to the end of `stark.log` by one open, one or two
writes and one close. If all of them succeed, the file has grown by exactly
these bytes and no other file has changed. A rotation moves the files with
what they hold.
-/

set_option autoImplicit false

namespace StarkOne.LogFiles
open StarkOne.InodeDisk StarkOne.StoragePath StarkOne.StorageIo StarkOne.StorageFile
  StarkOne.StorageWriting StarkOne.StorageWriters StarkOne.StorageLog StarkOne.LogRotation
  StarkOne.RotatingLog

def logsPath (root : CStr) : CStr := root++"/stark/".toList++"logs".toList

structure Grows (q : CStr) (before : Card) (fd : ℕ) (bytes : List UInt8) (w : Io) : Prop where
  handle : ∃ i offset, w.fds fd = some ⟨i,offset,true⟩ ∧ w.disk.inode q = some i ∧
    w.disk.data i = bytes
  others : ∀ p, p ≠ q → w.disk.content p = before.content p

theorem Grows.linked {q : CStr} {before : Card} {fd : ℕ} {bytes : List UInt8} {w : Io}
    (h : Grows q before fd bytes w) : Linked w fd q := by
  obtain ⟨i,offset,hf,hi,-⟩ := h.handle
  exact ⟨_,hf,hi⟩

theorem Grows.content {q : CStr} {before : Card} {fd : ℕ} {bytes : List UInt8} {w : Io}
    (h : Grows q before fd bytes w) : w.disk.content q = some bytes := by
  obtain ⟨i,offset,-,hi,hd⟩ := h.handle
  rw [Disk.content_eq w.disk q i hi, hd]

variable {o : ℕ → Outcome}

theorem write_grows {q : CStr} {before : Card} {fd : ℕ} {bytes : List UInt8} {w : Io}
    (h : Grows q before fd bytes w) (p : List UInt8) :
    (∃ e t, ioWrite o fd p w = (.error e,t)) ∨
    ∃ n t, ioWrite o fd p w = (.ok (p.take n).length,t) ∧
      Grows q before fd (bytes++p.take n) t := by
  obtain ⟨i,offset,hf,hi,hd⟩ := h.handle
  unfold ioWrite
  split
  · rename_i hn
    rw [hf] at hn
    cases hn
  rename_i g hg
  obtain rfl := Option.some.inj (hf.symm.trans hg)
  split
  · exact .inl ⟨_,_,rfl⟩
  rename_i n _
  refine .inr ⟨n,_,rfl,⟨i,_,Function.update_self _ _ _,hi,?_⟩,fun r hr => ?_⟩
  · rw [if_pos rfl]
    refine (Disk.data_store_self _ _ _).trans ?_
    rw [hd]
    exact overwrite_end _ _
  · rw [← h.others r hr]
    exact Disk.content_store_ne _ _ _ _ fun hri => hr (w.disk.single r q i hri hi)

theorem writeLoop_grows {q : CStr} {before : Card} {fd : ℕ} (rounds : ℕ) (p : List UInt8)
    {bytes : List UInt8} {s : Files} (h : Grows q before fd bytes s.io) (hr : p.length ≤ rounds)
    (hok : (writeLoop o fd rounds p s).1 = .ok) :
    Grows q before fd (bytes++p) (writeLoop o fd rounds p s).2.io := by
  induction rounds generalizing p bytes s with
  | zero =>
    obtain rfl := List.length_eq_zero_iff.mp (Nat.le_zero.mp hr)
    rw [List.append_nil]
    exact h
  | succ rounds ih =>
    cases p with
    | nil =>
      rw [List.append_nil]
      exact h
    | cons b p =>
      rw [writeLoop_cons] at hok ⊢
      rcases write_grows (o := o) h (b::p) with ⟨e,t,hw⟩ | ⟨n,t,hw,ht⟩
      · rw [hw] at hok
        exact absurd hok (fail_ne_ok _ _)
      rw [hw] at hok ⊢
      dsimp only at hok ⊢
      by_cases hn : ((b::p).take n).length = 0
      · rw [if_pos hn] at hok
        cases hok
      rw [if_neg hn] at hok ⊢
      have hlen : ((b::p).drop ((b::p).take n).length).length ≤ rounds := by
        rw [List.length_drop]
        omega
      have hrest := ih _ (s := { s with io := t }) ht hlen hok
      rwa [List.append_assoc, List.prefix_iff_eq_append.mp (List.take_prefix n (b::p))] at hrest

structure Growing (s t : Files) (k : Slot) (bytes : List UInt8) : Prop where
  root : t.root = s.root
  mounted : t.mounted = s.mounted
  usable : usable t k = .ok
  handle : ∃ f, t.slots k = some f ∧ f.mode = .append ∧
    Grows (logPath s.root 0) s.io.disk f.fd bytes t.io

theorem storageWrite_growing {s t : Files} {k : Slot} {bytes : List UInt8}
    (h : Growing s t k bytes) (p : List UInt8) (hok : (starkStorageWrite o t k p).1 = .ok) :
    Growing s (starkStorageWrite o t k p).2 k (bytes++p) := by
  obtain ⟨f,hf,hmode,hg⟩ := h.handle
  have heq : starkStorageWrite o t k p = writeLoop o f.fd p.length p t := by
    unfold starkStorageWrite
    rw [h.usable, hf]
    exact if_neg (by rw [hmode]; decide)
  rw [heq] at hok ⊢
  obtain ⟨htable,-,-⟩ := writeLoop_linked o f.fd p.length p t _ hg.linked
  exact ⟨htable.root.trans h.root,htable.mounted.trans h.mounted,(htable.usable k).trans h.usable,
    f,by rw [htable.slots]; exact hf,hmode,writeLoop_grows _ p hg (Nat.le_refl _) hok⟩

theorem storageWrite_unfailing (ho : Unfailing o) {s t : Files} {k : Slot} {bytes : List UInt8}
    (h : Growing s t k bytes) (p : List UInt8) : (starkStorageWrite o t k p).1 = .ok := by
  obtain ⟨f,hf,hmode,hg⟩ := h.handle
  unfold starkStorageWrite
  rw [h.usable, hf]
  dsimp only
  rw [if_neg (by rw [hmode]; decide)]
  exact writeLoop_ok ho f.fd _ p t _ hg.linked (Nat.le_refl _)

theorem close_growing {s t : Files} {k : Slot} {bytes : List UInt8} (h : Growing s t k bytes) :
    ∃ f, starkStorageClose o t k =
      ((closeFd o f (closeSync o f t)).1,release (closeFd o f (closeSync o f t)).2 k) ∧
        f.mode = .append ∧ Linked t.io f.fd (logPath s.root 0) := by
  obtain ⟨f,hf,hmode,hg⟩ := h.handle
  refine ⟨f,?_,hmode,hg.linked⟩
  have hrest : ∀ r, closeDrop o f (closeRename o f (closeUnlink o f r)) = r := by
    intro r
    unfold closeDrop closeRename closeUnlink
    rw [hmode]
    simp
  unfold starkStorageClose
  rw [h.usable, hf]
  dsimp only
  rw [hrest]

theorem storageClose_growing {s t : Files} {k : Slot} {bytes : List UInt8}
    (h : Growing s t k bytes) (hok : (starkStorageClose o t k).1 = .ok) :
    (starkStorageClose o t k).2.root = s.root ∧ (starkStorageClose o t k).2.mounted = s.mounted ∧
      (starkStorageClose o t k).2.io.disk = t.io.disk ∧
      (starkStorageClose o t k).2.slots k = none := by
  obtain ⟨f,heq,hmode,hlinked⟩ := close_growing (o := o) h
  have hsync := closeSync_frame o f t
  have hclose := closeFd_frame o f (closeSync o f t)
  have htable := hsync.1.trans hclose.1
  rw [heq] at hok ⊢
  refine ⟨htable.root.trans h.root,htable.mounted.trans h.mounted,?_,Function.update_self _ _ _⟩
  rcases sync_close_cases o f t (by rw [hmode]; decide) hlinked with ⟨-,-,-,hio⟩ | ⟨-,hfail⟩
  · show (closeFd o f (closeSync o f t)).2.io.disk = _
    rw [hio]
    rfl
  · exact absurd hok hfail

theorem storageClose_unfailing (ho : Unfailing o) {s t : Files} {k : Slot} {bytes : List UInt8}
    (h : Growing s t k bytes) : (starkStorageClose o t k).1 = .ok := by
  obtain ⟨f,heq,hmode,hlinked⟩ := close_growing (o := o) h
  rw [heq]
  rcases sync_close_cases o f t (by rw [hmode]; decide) hlinked with ⟨-,-,hok,-⟩ | ⟨hno,-⟩
  · exact hok
  · exact absurd ⟨ho.succeeds _,ho.succeeds _⟩ hno

theorem log_name : logName = logRotateName 0 24 := by
  decide

theorem ioOpen_grows {q : CStr} {w t : Io} {fd : ℕ} (h : ioOpen o q .creatAppend w = (.ok fd,t)) :
    Grows q w.disk fd ((w.disk.content q).getD []) t := by
  unfold ioOpen at h
  split at h
  · cases h
  split at h
  · rename_i i hi
    obtain ⟨hfd,rfl⟩ := Prod.mk.inj h
    obtain rfl := Except.ok.inj hfd
    refine ⟨⟨i,0,Function.update_self _ _ _,hi,?_⟩,fun p _ => rfl⟩
    rw [Disk.content_eq w.disk q i hi]
    rfl
  · rename_i hi
    obtain ⟨hfd,rfl⟩ := Prod.mk.inj h
    obtain rfl := Except.ok.inj hfd
    refine ⟨⟨w.disk.next,0,Function.update_self _ _ _,Disk.inode_create_self _ _,?_⟩,fun p hp => ?_⟩
    · rw [Disk.content_none w.disk q hi]
      exact Disk.data_create_self _ _
    · exact Disk.content_create_ne _ _ _ hp

theorem ioOpen_unfailing (ho : Unfailing o) (q : CStr) (w : Io) :
    ∃ fd t, ioOpen o q .creatAppend w = (.ok fd,t) := by
  obtain ⟨n,-,hn⟩ := ho w.calls
  unfold ioOpen
  rw [hn]
  dsimp only
  split <;> exact ⟨_,_,rfl⟩

theorem logPath_built {root path : CStr}
    (h : storagePathBuild root .logs logName false storagePathMax = .ok path) :
    path = logPath root 0 := by
  obtain ⟨-,rfl⟩ := storagePathBuild_ok h
  rw [if_neg (by decide), List.append_nil, log_name]
  rfl

theorem open_growing {s t : Files} {k : Option Slot}
    (h : starkStorageOpen o s .logs logName .append = (.ok,k,t)) : ∃ j, k = some j ∧
      Growing s t j ((s.io.disk.content (logPath s.root 0)).getD []) := by
  unfold starkStorageOpen at h
  split at h
  · rename_i e _
    exact absurd (congrArg Prod.fst h) e.ne_ok
  · rename_i e _ _
    exact absurd (congrArg Prod.fst h) e.ne_ok
  rename_i path tmp hpath _
  obtain rfl := logPath_built hpath
  by_cases hm : s.mounted = true
  swap
  · rw [if_pos (by simpa using hm)] at h
    cases h
  rw [if_neg (by simp [hm])] at h
  split at h
  · cases h
  rename_i j _
  rw [if_neg (by decide)] at h
  split at h
  · rename_i e io _
    exact absurd (congrArg Prod.fst h) (fail_ne_ok e { s with io := io })
  rename_i fd io hio
  obtain ⟨-,hrest⟩ := Prod.mk.inj h
  obtain ⟨hk,rfl⟩ := Prod.mk.inj hrest
  refine ⟨j,hk.symm,rfl,rfl,?_,_,Function.update_self _ _ _,rfl,ioOpen_grows hio⟩
  have hslot : (setSlot { s with io := io } j
      (some ⟨false,fd,s.generation,.append,logPath s.root 0,tmp⟩)).slots j =
        some ⟨false,fd,s.generation,.append,logPath s.root 0,tmp⟩ := Function.update_self _ _ _
  unfold StorageFile.usable
  rw [hslot]
  simp [setSlot, hm]

theorem open_unfailing (ho : Unfailing o) (s : Files) :
    ((starkStorageOpen o s .logs logName .append).1 ≠ .ok →
      (starkStorageOpen o s .logs logName .append).2.2 = s) ∧
    (s.mounted = true → (∃ k, s.slots k = none) → s.root.length+25 < storagePathMax →
      (starkStorageOpen o s .logs logName .append).1 = .ok) := by
  have hbuilt : ∀ tmp, s.root.length+25 < storagePathMax → ∃ path,
      storagePathBuild s.root .logs logName tmp storagePathMax = .ok path := by
    intro tmp hfits
    refine ⟨_,storagePathBuild_eq_ok.mpr ⟨by decide,?_,rfl⟩⟩
    have hlog : logName.length = 9 := rfl
    have htmp : (if tmp = true then tmpSuffix else []).length ≤ 4 := by
      cases tmp <;> decide
    have hdir : ("/stark/".toList).length = 7 ∧ (storageDirName .logs).length = 4 := ⟨rfl,rfl⟩
    simp only [List.length_append, List.length_cons]
    omega
  unfold starkStorageOpen
  split
  · rename_i e he
    refine ⟨fun _ => rfl,fun _ _ hfits => ?_⟩
    obtain ⟨path,hp⟩ := hbuilt false hfits
    rw [hp] at he
    cases he
  · rename_i e _ he
    refine ⟨fun _ => rfl,fun _ _ hfits => ?_⟩
    obtain ⟨path,hp⟩ := hbuilt true hfits
    rw [hp] at he
    cases he
  rename_i path tmp _ _
  by_cases hm : s.mounted = true
  swap
  · rw [if_pos (by simpa using hm)]
    exact ⟨fun _ => rfl,fun h => absurd h hm⟩
  rw [if_neg (by simp [hm])]
  split
  · rename_i hnone
    refine ⟨fun _ => rfl,fun _ ⟨k,hk⟩ => ?_⟩
    have := List.find?_eq_none.mp hnone k (List.mem_finRange k)
    rw [hk] at this
    exact absurd rfl this
  rw [if_neg (by decide)]
  obtain ⟨fd,t,hopen⟩ := ioOpen_unfailing ho path s.io
  unfold openFlags
  rw [hopen]
  exact ⟨fun h => absurd rfl h,fun _ _ _ => rfl⟩

structure Appended (s t : Files) (bytes : List UInt8) : Prop where
  root : t.root = s.root
  mounted : t.mounted = s.mounted
  volume : s.mounted = true
  log : t.io.disk.content (logPath s.root 0) =
    some ((s.io.disk.content (logPath s.root 0)).getD []++bytes)
  others : ∀ p, p ≠ logPath s.root 0 → t.io.disk.content p = s.io.disk.content p
  free : ∃ k, t.slots k = none

theorem append_appended {marker chunk : List UInt8} {s t : Files}
    (h : append o marker chunk s = (.ok,t)) : Appended s t (marker++chunk) := by
  unfold append at h
  split at h
  swap
  · rename_i err j u hne hu
    obtain ⟨herr,-⟩ := Prod.mk.inj h
    subst herr
    obtain ⟨k,hk,-⟩ := open_growing hu
    exact (hne k rfl hk).elim
  rename_i k u hu
  obtain ⟨j,hj,hopened⟩ := open_growing hu
  cases hj
  dsimp only at h
  by_cases hmark : (starkStorageWrite o u k marker).1 = .ok
  swap
  · rw [if_neg hmark] at h
    rw [if_pos hmark] at h
    exact absurd (congrArg Prod.fst h) hmark
  rw [if_pos hmark] at h
  have hmarked := storageWrite_growing hopened marker hmark
  by_cases hchunk : (starkStorageWrite o (starkStorageWrite o u k marker).2 k chunk).1 = .ok
  swap
  · rw [if_pos hchunk] at h
    exact absurd (congrArg Prod.fst h) hchunk
  rw [if_neg (not_not_intro hchunk)] at h
  have hwritten := storageWrite_growing hmarked chunk hchunk
  obtain ⟨hclose,rfl⟩ := Prod.mk.inj h
  obtain ⟨hroot,hmounted,hdisk,hfree⟩ := storageClose_growing hwritten hclose
  obtain ⟨f,-,-,hgrows⟩ := hwritten.handle
  have hvolume : u.mounted = true := by
    rcases usable_cases u k with ⟨-,hno⟩ | ⟨f,-,⟨hno,-⟩ | ⟨-,-,hm,-⟩⟩
    · rw [hopened.usable] at hno
      cases hno
    · rw [hopened.usable] at hno
      cases hno
    · exact hm
  refine ⟨hroot,hmounted,hopened.mounted.symm.trans hvolume,?_,fun p hp => ?_,k,hfree⟩
  · rw [hdisk, hgrows.content, List.append_assoc]
  · rw [hdisk, hgrows.others p hp]

theorem append_unfailing (ho : Unfailing o) (marker chunk : List UInt8) (s : Files) :
    ((append o marker chunk s).1 ≠ .ok → (append o marker chunk s).2 = s) ∧
    (s.mounted = true → (∃ k, s.slots k = none) → s.root.length+25 < storagePathMax →
      (append o marker chunk s).1 = .ok) := by
  obtain ⟨hrefused,hopens⟩ := open_unfailing ho s
  unfold append
  split
  swap
  · rename_i err j u hne hu
    rw [hu] at hrefused hopens
    refine ⟨hrefused,fun hm hf hr => ?_⟩
    have herr : err = .ok := hopens hm hf hr
    subst herr
    obtain ⟨k,hk,-⟩ := open_growing hu
    exact (hne k rfl hk).elim
  rename_i k u hu
  obtain ⟨j,hj,hopened⟩ := open_growing hu
  cases hj
  have hmark := storageWrite_unfailing ho hopened marker
  have hmarked := storageWrite_growing hopened marker hmark
  have hchunk := storageWrite_unfailing ho hmarked chunk
  have hwritten := storageWrite_growing hmarked chunk hchunk
  dsimp only
  rw [if_pos hmark, if_neg (not_not_intro hchunk)]
  have hclose := storageClose_unfailing ho hwritten
  exact ⟨fun h => absurd hclose h,fun _ _ _ => hclose⟩

theorem rotateStep_frame (step : LogRotateStep) (s : Files) :
    SameTable s (rotateStep o step s).2 ∧ (rotateStep o step s).2.io.disk.data = s.io.disk.data := by
  have hsame : SameTable s s := ⟨rfl,rfl,rfl,rfl⟩
  have hunlink : ∀ p, (ioUnlink o p s.io).2.disk.data = s.io.disk.data := by
    intro p
    unfold ioUnlink
    split
    · rfl
    · split <;> rfl
  have hrename : ∀ a b, (ioRename o a b s.io).2.disk.data = s.io.disk.data := by
    intro a b
    unfold ioRename
    split
    · rfl
    · split <;> rfl
  unfold rotateStep
  split
  · unfold starkStorageRemove
    split
    · exact ⟨hsame,rfl⟩
    split
    · exact ⟨hsame,rfl⟩
    · exact ⟨sameTable_attempt _ _,by rw [attempt_io, hunlink]⟩
  · unfold storageFilesRename
    split
    · exact ⟨hsame,rfl⟩
    · exact ⟨hsame,rfl⟩
    split
    · exact ⟨hsame,rfl⟩
    · exact ⟨sameTable_attempt _ _,by rw [attempt_io, hrename]⟩

theorem rotateSteps_frame (steps : List LogRotateStep) (s : Files) :
    SameTable s (rotateSteps o steps s).2 ∧
      (rotateSteps o steps s).2.io.disk.data = s.io.disk.data := by
  induction steps generalizing s with
  | nil => exact ⟨⟨rfl,rfl,rfl,rfl⟩,rfl⟩
  | cons step rest ih =>
    obtain ⟨htable,hdata⟩ := rotateStep_frame (o := o) step s
    rw [rotateSteps_cons]
    split
    · obtain ⟨hrest,hdata'⟩ := ih (rotateStep o step s).2
      exact ⟨htable.trans hrest,hdata'.trans hdata⟩
    · exact ⟨htable,hdata⟩

structure Moved (n : ℕ) (s t : Files) : Prop where
  slots : ∀ k < 8, slot s.root t.io.disk k =
    if n < k then slot s.root s.io.disk k else if k = 0 then none else slot s.root s.io.disk (k-1)
  elsewhere : ∀ p, (∀ k < 8, p ≠ logPath s.root k) → t.io.disk.inode p = s.io.disk.inode p

theorem shifts_moved (ho : Truthful o) (n : ℕ) (hn : n < 8) (s : Files)
    (hempty : slot s.root s.io.disk n = none) (hdone : (rotateSteps o (shifts n) s).1 = true) :
    Moved n s (rotateSteps o (shifts n) s).2 := by
  induction n generalizing s with
  | zero =>
    refine ⟨fun k _ => ?_,fun _ _ => rfl⟩
    by_cases hk : 0 < k
    · rw [if_pos hk]
      rfl
    · obtain rfl : k = 0 := by omega
      exact hempty
  | succ n ih =>
    have hstep := rename_stepped ho s hn
    unfold shifts at hdone ⊢
    rw [rotateSteps_cons] at hdone ⊢
    generalize rotateStep o ⟨n,some (n+1)⟩ s = r at hstep hdone ⊢
    obtain ⟨err,u⟩ := r
    obtain ⟨hroot,-,hcalled,-⟩ := hstep
    dsimp only at hroot hcalled hdone ⊢
    by_cases herr : okOrMissing err = true
    swap
    · rw [if_neg herr] at hdone
      cases hdone
    rw [if_pos herr] at hdone ⊢
    obtain ⟨-,-,-,hdisk⟩ := hcalled herr
    -- slot n has gone to slot n+1, also when there was nothing in it
    have hmoved : (∀ k < 8, slot s.root u.io.disk k = if k = n+1 then slot s.root s.io.disk n
          else if k = n then none else slot s.root s.io.disk k) ∧
        ∀ p, (∀ k < 8, p ≠ logPath s.root k) → u.io.disk.inode p = s.io.disk.inode p := by
      rcases hdisk with ⟨hnone,hdisk⟩ | ⟨i,hi,hdisk⟩
      · rw [hdisk]
        refine ⟨fun k hk => ?_,fun _ _ => rfl⟩
        split
        · rename_i h
          rw [h, hempty, hnone]
        split
        · rename_i h
          rw [h, hnone]
        · rfl
      · have hslot : slot s.root s.io.disk n = some i := hi
        rw [hdisk, hslot]
        exact ⟨fun k hk => slot_rename s.root s.io.disk hn hi hk,
          fun p hp => Disk.inode_rename_ne _ _ _ _ _ hi (hp n (by omega)) (hp (n+1) hn)⟩
    obtain ⟨hslots,helse⟩ := hmoved
    have hrest := ih (by omega) u (by rw [hroot, hslots n (by omega), if_neg (by omega), if_pos rfl])
      hdone
    obtain ⟨hs,he⟩ := hrest
    rw [hroot] at hs he
    refine ⟨fun k hk => ?_,fun p hp => (he p hp).trans (helse p hp)⟩
    rw [hs k hk]
    by_cases habove : n < k
    · rw [if_pos habove, hslots k hk]
      by_cases htop : k = n+1
      · subst htop
        rw [if_pos rfl, if_neg (lt_irrefl _), if_neg (Nat.succ_ne_zero n), Nat.add_sub_cancel]
      · rw [if_neg htop, if_neg (by omega), if_pos (by omega)]
    · rw [if_neg habove, if_neg (by omega : ¬n+1 < k)]
      by_cases hz : k = 0
      · rw [if_pos hz, if_pos hz]
      · rw [if_neg hz, if_neg hz, hslots (k-1) (by omega), if_neg (by omega), if_neg (by omega)]

theorem rotation_moved (ho : Truthful o) {n : ℕ} (hn : n < 8) (s : Files)
    (hdone : (rotateSteps o (⟨n,none⟩::shifts n) s).1 = true) :
    Moved n s (rotateSteps o (⟨n,none⟩::shifts n) s).2 := by
  have hstep := remove_stepped ho s hn
  rw [rotateSteps_cons] at hdone ⊢
  generalize rotateStep o ⟨n,none⟩ s = r at hstep hdone ⊢
  obtain ⟨err,u⟩ := r
  obtain ⟨hroot,-,hcalled,-⟩ := hstep
  dsimp only at hroot hcalled hdone ⊢
  by_cases herr : okOrMissing err = true
  swap
  · rw [if_neg herr] at hdone
    cases hdone
  rw [if_pos herr] at hdone ⊢
  obtain ⟨-,-,-,hdisk⟩ := hcalled herr
  have hgone : (∀ k < 8, slot s.root u.io.disk k =
        if k = n then none else slot s.root s.io.disk k) ∧
      ∀ p, (∀ k < 8, p ≠ logPath s.root k) → u.io.disk.inode p = s.io.disk.inode p := by
    rcases hdisk with ⟨hnone,hdisk⟩ | hdisk
    · rw [hdisk]
      refine ⟨fun k _ => ?_,fun _ _ => rfl⟩
      split
      · rename_i h
        rw [h, hnone]
      · rfl
    · rw [hdisk]
      exact ⟨fun k hk => slot_unlink s.root _ n hn hk,
        fun p hp => Disk.inode_unlink_ne _ _ _ (hp n hn)⟩
  obtain ⟨hslots,helse⟩ := hgone
  obtain ⟨hs,he⟩ := shifts_moved ho n hn u (by rw [hroot, hslots n hn, if_pos rfl]) hdone
  rw [hroot] at hs he
  refine ⟨fun k hk => ?_,fun p hp => (he p hp).trans (helse p hp)⟩
  rw [hs k hk]
  by_cases habove : n < k
  · rw [if_pos habove, if_pos habove, hslots k hk, if_neg (by omega)]
  · rw [if_neg habove, if_neg habove]
    by_cases hz : k = 0
    · rw [if_pos hz, if_pos hz]
    · rw [if_neg hz, if_neg hz, hslots (k-1) (by omega), if_neg (by omega)]

theorem unfailing_truthful (ho : Unfailing o) : Truthful o := by
  intro n left h
  obtain ⟨m,-,hm⟩ := ho n
  rw [hm] at h
  cases h

theorem rotation_unfailing (ho : Unfailing o) {n : ℕ} (hn : n < 8) (s : Files)
    (hfits : s.root.length+23 < storagePathMax)
    (hnot : (rotateSteps o (⟨n,none⟩::shifts n) s).1 = false) :
    s.mounted = false ∧ (rotateSteps o (⟨n,none⟩::shifts n) s).2.io.disk = s.io.disk := by
  have htrue := unfailing_truthful ho
  have hstep := remove_stepped htrue s hn
  rw [rotateSteps_cons] at hnot ⊢
  generalize rotateStep o ⟨n,none⟩ s = r at hstep hnot ⊢
  obtain ⟨err,u⟩ := r
  obtain ⟨hroot,hmounted,hcalled,hrefused⟩ := hstep
  dsimp only at hroot hmounted hcalled hrefused hnot ⊢
  by_cases herr : okOrMissing err = true
  · rw [if_pos herr] at hnot
    obtain ⟨hready,-,-,hdisk⟩ := hcalled herr
    have hempty : slot u.root u.io.disk n = none := by
      rw [hroot]
      rcases hdisk with ⟨hnone,hdisk⟩ | hdisk
      · rw [hdisk]
        exact hnone
      · rw [hdisk, slot_unlink s.root _ n hn hn, if_pos rfl]
    have hshifted := shifts_shifted htrue n hn u hempty
    obtain ⟨hm,hr⟩ := hready (hshifted.bottom hnot).1
    obtain ⟨j,-,hfails⟩ := hshifted.failed hnot ⟨hmounted.trans hm,by rw [hroot]; exact hr⟩
    exact absurd (ho.succeeds _) hfails
  · rw [if_neg herr]
    obtain ⟨hdisk,hwhy⟩ := hrefused (by simpa using herr)
    refine ⟨?_,hdisk⟩
    by_contra hm
    exact hwhy ⟨by simpa using hm,hfits⟩ (ho.succeeds _)

end StarkOne.LogFiles
