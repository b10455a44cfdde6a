import StarkOne.StorageLog

/-!
# What a rotation deletes

A rotation that is left half done is planned again from its start. Its first
step deletes what is in the oldest slot, which is no longer the file that was
there when the rotation began if an earlier attempt has already moved another
one into it.
-/

set_option autoImplicit false

namespace StarkOne.LogRotation
open StarkOne.Machine StarkOne.InodeDisk StarkOne.StoragePath StarkOne.StorageIo StarkOne.StorageFile
open StarkOne.StorageLog

abbrev Card := Disk CStr UInt8

def logPath (root : CStr) (k : ℕ) : CStr :=
  root++"/stark/".toList++"logs".toList++ '/'::logRotateName k 24

def slot (root : CStr) (d : Card) (k : ℕ) : Option ℕ := d.inode (logPath root k)

def Has (d : Card) (i : ℕ) : Prop := ∃ p, d.inode p = some i

theorem name_facts : ∀ k < 8, storageNameValid (logRotateName k 24) = true ∧
    (logRotateName k 24).length ≤ 11 ∧ (0 < k → (logRotateName k 24).length = 11) := by
  decide +kernel

theorem name_injective : ∀ j < 8, ∀ k < 8, logRotateName j 24 = logRotateName k 24 → j = k := by
  decide +kernel

theorem path_injective (root : CStr) {j k : ℕ} (hj : j < 8) (hk : k < 8)
    (h : logPath root j = logPath root k) : j = k := by
  unfold logPath at h
  exact name_injective j hj k hk (List.cons.inj (List.append_cancel_left h)).2

theorem build_log (root : CStr) {k : ℕ} (hk : k < 8) :
    storagePathBuild root .logs (logRotateName k 24) false storagePathMax =
      if root.length+12+(logRotateName k 24).length < storagePathMax then .ok (logPath root k)
      else .error .invalidArg := by
  obtain ⟨hvalid,-,-⟩ := name_facts k hk
  have hmax : storagePathMax = 80 := rfl
  have hout : (root++"/stark/".toList++storageDirName .logs).length = root.length+11 := by
    rw [List.length_append, List.length_append]
    rfl
  have htail : ('/'::logRotateName k 24++[]).length = (logRotateName k 24).length+1 := by
    rw [List.append_nil, List.length_cons]
  unfold storagePathBuild storageDirPath
  rw [hvalid]
  simp only [Bool.not_true, Bool.false_eq_true, if_false, hout]
  by_cases hdir : root.length+11 < storagePathMax
  · rw [if_pos hdir]
    change (if _ then Except.ok _ else Except.error Fault.invalidArg) = _
    rw [htail, hout, List.append_nil]
    by_cases hfits : root.length+12+(logRotateName k 24).length < storagePathMax
    · rw [if_pos hfits, if_pos (by omega)]
      rfl
    · rw [if_neg hfits, if_neg (by omega)]
  · rw [if_neg hdir, if_neg (by omega)]
    rfl

def Ready (s : Files) : Prop := s.mounted = true ∧ s.root.length+23 < storagePathMax

/-- A call on an existing file is never told that there is none. -/
def Truthful (o : ℕ → Outcome) : Prop := ∀ n left, o n ≠ .fail .enoent left

structure Stepped (o : ℕ → Outcome) (s : Files) (src : ℕ) (moves : Card → Prop) (r : StarkErr × Files) :
    Prop where
  root : r.2.root = s.root
  mounted : r.2.mounted = s.mounted
  done : okOrMissing r.1 = true → (0 < src → Ready s) ∧ succeeds o s.io.calls ∧
    r.2.io.calls = s.io.calls+1 ∧
      ((slot s.root s.io.disk src = none ∧ r.2.io.disk = s.io.disk) ∨ moves r.2.io.disk)
  failed : okOrMissing r.1 = false → r.2.io.disk = s.io.disk ∧ (Ready s → ¬succeeds o s.io.calls)

theorem attempt_env {α : Type} (r : Except Errno α × Io) (s : Files) :
    (attempt r s).2.root = s.root ∧ (attempt r s).2.mounted = s.mounted := by
  obtain ⟨e | a,io⟩ := r
  · unfold attempt fail
    dsimp only
    split <;> exact ⟨rfl,rfl⟩
  · exact ⟨rfl,rfl⟩

theorem errno_missing {e : Errno} (h : okOrMissing (storageMapErrno e) = true) : e = .enoent := by
  cases e with
  | enoent => rfl
  | enospc => cases h
  | eexist => cases h
  | einval => cases h
  | enametoolong => cases h
  | other n => cases h

variable {o : ℕ → Outcome} {s : Files}

theorem refused {src : ℕ} {moves : Card → Prop} {err : StarkErr} (herr : okOrMissing err = false)
    (hr : ¬Ready s) : Stepped o s src moves (err,s) :=
  ⟨rfl,rfl,fun h => (by rw [herr] at h; cases h),fun _ => ⟨rfl,fun h => absurd h hr⟩⟩

theorem called (ho : Truthful o) {src : ℕ} {moves : Card → Prop} (hready : 0 < src → Ready s)
    {r : Except Errno Unit × Io} (hcalls : r.2.calls = s.io.calls+1)
    (hok : r.1 = .ok () → succeeds o s.io.calls ∧ moves r.2.disk)
    (hmissing : r.1 = .error .enoent → succeeds o s.io.calls →
      slot s.root s.io.disk src = none ∧ r.2.disk = s.io.disk)
    (herror : ∀ e, r.1 = .error e → r.2.disk = s.io.disk ∧
      (succeeds o s.io.calls → e = .enoent) ∧
      (¬succeeds o s.io.calls → ∃ left, o s.io.calls = .fail e left)) :
    Stepped o s src moves (attempt r s) := by
  obtain ⟨hroot,hmounted⟩ := attempt_env r s
  refine ⟨hroot,hmounted,fun h => ?_,fun h => ?_⟩
  · rw [attempt_io]
    cases hr : r.1 with
    | ok u =>
      obtain ⟨hs,hm⟩ := hok hr
      exact ⟨hready,hs,hcalls,.inr hm⟩
    | error e =>
      obtain ⟨-,-,hfail⟩ := herror e hr
      have he : e = .enoent := by
        apply errno_missing
        unfold attempt at h
        obtain ⟨r,io⟩ := r
        cases hr
        exact h
      subst he
      have hs : succeeds o s.io.calls := by
        by_contra hn
        obtain ⟨left,hleft⟩ := hfail hn
        exact ho _ _ hleft
      exact ⟨hready,hs,hcalls,.inl (hmissing hr hs)⟩
  · rw [attempt_io]
    cases hr : r.1 with
    | ok u =>
      have : (attempt r s).1 = .ok := (attempt_ok r s).mpr ⟨u,hr⟩
      rw [this] at h
      cases h
    | error e =>
      obtain ⟨hdisk,hmiss,-⟩ := herror e hr
      refine ⟨hdisk,fun _ hs => ?_⟩
      unfold attempt at h
      obtain ⟨r,io⟩ := r
      cases hr
      rw [hmiss hs] at h
      cases h

theorem remove_stepped (ho : Truthful o) (s : Files) {k : ℕ} (hk : k < 8) :
    Stepped o s k (fun d => d = s.io.disk.unlink (logPath s.root k))
      (rotateStep o ⟨k,none⟩ s) := by
  have hlen := (name_facts k hk).2
  unfold rotateStep starkStorageRemove
  dsimp only
  rw [build_log s.root hk]
  by_cases hfits : s.root.length+12+(logRotateName k 24).length < storagePathMax
  · rw [if_pos hfits]
    dsimp only
    cases hm : s.mounted with
    | false => exact refused rfl fun h => (by rw [h.1] at hm; cases hm)
    | true =>
      rw [if_neg (by decide)]
      have hready : 0 < k → Ready s := fun h => ⟨hm,by have := hlen.2 h; omega⟩
      obtain ⟨hcalls,hcases⟩ := unlink_cases o s.io (logPath s.root k)
      rcases hcases with ⟨hs,-,hok,hdisk⟩ | ⟨hwhy,⟨e,he⟩,hdisk,hmiss⟩
      · exact called ho hready hcalls (fun _ => ⟨hs,hdisk⟩) (fun h => (by rw [hok] at h; cases h))
          fun e h => by rw [hok] at h; cases h
      · refine called ho hready hcalls (fun h => (by rw [he] at h; cases h))
          (fun _ hs => ⟨hwhy.resolve_left (not_not_intro hs),hdisk⟩) fun e' he' => ?_
        refine ⟨hdisk,fun hs => Except.error.inj (he'.symm.trans (hmiss hs)),fun hn => ?_⟩
        unfold ioUnlink at he'
        unfold StorageIo.succeeds at hn
        cases hcall : o s.io.calls with
        | ok n => exact absurd ⟨n,hcall⟩ hn
        | fail e left =>
          rw [hcall] at he'
          cases he'
          exact ⟨left,rfl⟩
  · rw [if_neg hfits]
    exact refused rfl fun h => by have := h.2; omega

theorem rename_stepped (ho : Truthful o) (s : Files) {k : ℕ} (hk : k+1 < 8) :
    Stepped o s k (fun d => ∃ i hi, d = s.io.disk.rename (logPath s.root k) (logPath s.root (k+1)) i hi)
      (rotateStep o ⟨k,some (k+1)⟩ s) := by
  have hlen := (name_facts k (by omega)).2
  have hlen' := (name_facts (k+1) hk).2
  unfold rotateStep storageFilesRename
  dsimp only
  rw [build_log s.root (by omega : k < 8), build_log s.root hk]
  by_cases hfits' : s.root.length+12+(logRotateName (k+1) 24).length < storagePathMax
  · have hfits : s.root.length+12+(logRotateName k 24).length < storagePathMax := by
      have := hlen'.2 (Nat.succ_pos k)
      omega
    rw [if_pos hfits, if_pos hfits']
    dsimp only
    cases hm : s.mounted with
    | false => exact refused rfl fun h => (by rw [h.1] at hm; cases hm)
    | true =>
      rw [if_neg (by decide)]
      have hready : 0 < k → Ready s := fun _ => ⟨hm,by have := hlen'.2 (Nat.succ_pos k); omega⟩
      have hcalls : (ioRename o (logPath s.root k) (logPath s.root (k+1)) s.io).2.calls =
          s.io.calls+1 := by
        unfold ioRename
        split
        · rfl
        · split <;> rfl
      have hfail : ∀ e, (ioRename o (logPath s.root k) (logPath s.root (k+1)) s.io).1 = .error e →
          ¬succeeds o s.io.calls → ∃ left, o s.io.calls = .fail e left := by
        intro e he hn
        unfold ioRename at he
        cases hcall : o s.io.calls with
        | ok n => exact absurd ⟨n,hcall⟩ hn
        | fail e' left =>
          rw [hcall] at he
          cases he
          exact ⟨left,rfl⟩
      obtain hi | ⟨i,hi⟩ := Option.eq_none_or_eq_some (s.io.disk.dir.lookup (logPath s.root k))
      swap
      · rcases rename_cases o s.io (logPath s.root (k+1)) hi with ⟨hs,hok,hdisk⟩ | ⟨hs,⟨e,he⟩,hdisk⟩
        · exact called ho hready hcalls (fun _ => ⟨hs,i,hi,hdisk⟩)
            (fun h => (by rw [hok] at h; cases h)) fun e h => by rw [hok] at h; cases h
        · exact called ho hready hcalls (fun h => (by rw [he] at h; cases h))
            (fun _ h => absurd h hs) fun e' he' => ⟨hdisk,fun h => absurd h hs,hfail e' he'⟩
      · have hnone : (ioRename o (logPath s.root k) (logPath s.root (k+1)) s.io).2.disk = s.io.disk ∧
            (succeeds o s.io.calls →
              (ioRename o (logPath s.root k) (logPath s.root (k+1)) s.io).1 = .error .enoent) ∧
            (ioRename o (logPath s.root k) (logPath s.root (k+1)) s.io).1 ≠ .ok () := by
          unfold ioRename StorageIo.succeeds
          cases o s.io.calls with
          | fail e left => exact ⟨rfl,fun ⟨n,h⟩ => (by cases h),fun h => by cases h⟩
          | ok n =>
            dsimp only
            split
            · exact ⟨rfl,fun _ => rfl,fun h => by cases h⟩
            · rename_i i h
              rw [hi] at h
              cases h
        obtain ⟨hdisk,hmiss,hne⟩ := hnone
        exact called ho hready hcalls (fun h => absurd h hne) (fun _ _ => ⟨hi,hdisk⟩)
          fun e he => ⟨hdisk,fun hs => Except.error.inj (he.symm.trans (hmiss hs)),hfail e he⟩
  · rw [if_neg hfits']
    have hnot : ¬Ready s := fun h => by
      have := h.2
      omega
    by_cases hfits : s.root.length+12+(logRotateName k 24).length < storagePathMax
    · rw [if_pos hfits]
      exact refused rfl hnot
    · rw [if_neg hfits]
      exact refused rfl hnot

theorem rotateSteps_cons (o : ℕ → Outcome) (step : LogRotateStep) (rest : List LogRotateStep)
    (s : Files) : rotateSteps o (step::rest) s =
      if okOrMissing (rotateStep o step s).1 then rotateSteps o rest (rotateStep o step s).2
      else (false,(rotateStep o step s).2) := rfl

theorem slot_rename (root : CStr) (d : Card) {n i : ℕ} (hn : n+1 < 8)
    (hi : d.dir.lookup (logPath root n) = some i) {k : ℕ} (hk : k < 8) :
    slot root (d.rename (logPath root n) (logPath root (n+1)) i hi) k =
      if k = n+1 then some i else if k = n then none else slot root d k := by
  by_cases htop : k = n+1
  · subst htop
    rw [if_pos rfl]
    exact Disk.inode_rename_dst d _ _ i hi
  rw [if_neg htop]
  by_cases hsrc : k = n
  · subst hsrc
    rw [if_pos rfl]
    exact Disk.inode_rename_src d _ _ i hi fun h => htop (path_injective root hk hn h)
  rw [if_neg hsrc]
  exact Disk.inode_rename_ne d _ _ i _ hi
    (fun h => hsrc (path_injective root hk (by omega) h)) fun h => htop (path_injective root hk hn h)

theorem has_rename {d : Card} {p q : CStr} {i : ℕ} (hi : d.dir.lookup p = some i)
    (hq : d.inode q = none) {j : ℕ} (h : Has d j) : Has (d.rename p q i hi) j := by
  obtain ⟨r,hr⟩ := h
  by_cases hrp : r = p
  · subst hrp
    have : i = j := Option.some.inj (hi.symm.trans hr)
    exact ⟨q,this ▸ Disk.inode_rename_dst d r q i hi⟩
  · have hrq : r ≠ q := fun h => by
      rw [h, hq] at hr
      cases hr
    exact ⟨r,(Disk.inode_rename_ne d p q i r hi hrp hrq).trans hr⟩

/-- What moving the files below `n` up does, when nothing is in slot `n`. If it stops half done,
slot `n` was filled only if its first move was made and a later one failed. -/
structure Shifted (o : ℕ → Outcome) (n : ℕ) (s : Files) (r : Bool × Files) : Prop where
  root : r.2.root = s.root
  mounted : r.2.mounted = s.mounted
  next : r.2.io.disk.next = s.io.disk.next
  has : ∀ i, Has s.io.disk i → Has r.2.io.disk i
  above : ∀ k, n < k → k < 8 → slot s.root r.2.io.disk k = slot s.root s.io.disk k
  bottom : r.1 = false → 0 < n ∧ slot s.root r.2.io.disk 0 = slot s.root s.io.disk 0
  failed : r.1 = false → Ready s → ∃ j < n, ¬succeeds o (s.io.calls+j)
  top : r.1 = false → slot s.root r.2.io.disk n = none ∨
    (slot s.root s.io.disk (n-1) ≠ none ∧ succeeds o s.io.calls ∧
      ∃ j, 1 ≤ j ∧ j < n ∧ ¬succeeds o (s.io.calls+j))

theorem shifts_shifted (ho : Truthful o) (n : ℕ) (hn : n < 8) (s : Files)
    (hempty : slot s.root s.io.disk n = none) : Shifted o n s (rotateSteps o (shifts n) s) := by
  induction n generalizing s with
  | zero =>
    exact ⟨rfl,rfl,rfl,fun _ h => h,fun _ _ _ => rfl,fun h => (by cases h),fun h => (by cases h),
      fun h => by cases h⟩
  | succ n ih =>
    have hstep := rename_stepped ho s hn
    unfold shifts
    rw [rotateSteps_cons]
    generalize rotateStep o ⟨n,some (n+1)⟩ s = r at hstep ⊢
    obtain ⟨err,t⟩ := r
    obtain ⟨hroot,hmounted,hdone,hfailed⟩ := hstep
    dsimp only at hroot hmounted hdone hfailed ⊢
    cases herr : okOrMissing err with
    | false =>
      obtain ⟨hdisk,hwhy⟩ := hfailed herr
      rw [if_neg (by decide)]
      refine ⟨hroot,hmounted,by rw [hdisk],fun i h => by rw [hdisk]; exact h,
        fun k _ _ => by rw [hdisk],fun _ => ⟨Nat.succ_pos n,by rw [hdisk]⟩,
        fun _ hr => ⟨0,Nat.succ_pos n,hwhy hr⟩,fun _ => .inl (by rw [hdisk]; exact hempty)⟩
    | true =>
      obtain ⟨hready,hs,hcalls,hdisk⟩ := hdone herr
      rw [if_pos rfl]
      have hready' : 0 < n → Ready t := fun h => by
        obtain ⟨hm,hfits⟩ := hready h
        exact ⟨hmounted.trans hm,by rw [hroot]; exact hfits⟩
      have hlow : slot t.root t.io.disk n = none := by
        rw [hroot]
        rcases hdisk with ⟨hnone,hdisk⟩ | ⟨i,hi,hdisk⟩
        · rw [hdisk]
          exact hnone
        · rw [hdisk, slot_rename s.root s.io.disk hn hi (by omega), if_neg (by omega), if_pos rfl]
      have hrest := ih (by omega) t hlow
      generalize rotateSteps o (shifts n) t = r at hrest ⊢
      have habove := hrest.above
      have hbottom := hrest.bottom
      rw [hroot] at habove hbottom
      -- a later failure, counted from the first call
      have hlater : r.1 = false → ∃ j, 1 ≤ j ∧ j < n+1 ∧ ¬succeeds o (s.io.calls+j) := by
        intro hr
        obtain ⟨j,hj,hnot⟩ := hrest.failed hr (hready' (hbottom hr).1)
        rw [hcalls, Nat.add_assoc, Nat.add_comm 1 j] at hnot
        exact ⟨j+1,by omega,by omega,hnot⟩
      have hhas : ∀ i, Has s.io.disk i → Has t.io.disk i := by
        rcases hdisk with ⟨-,hdisk⟩ | ⟨i,hi,hdisk⟩
        · rw [hdisk]
          exact fun _ h => h
        · rw [hdisk]
          exact fun j h => has_rename hi hempty h
      have hnext : t.io.disk.next = s.io.disk.next := by
        rcases hdisk with ⟨-,hdisk⟩ | ⟨i,hi,hdisk⟩ <;> rw [hdisk]
        rfl
      have hslots : ∀ k, k ≠ n → k ≠ n+1 → k < 8 →
          slot s.root t.io.disk k = slot s.root s.io.disk k := by
        intro k hkn hkn' hk
        rcases hdisk with ⟨-,hdisk⟩ | ⟨i,hi,hdisk⟩
        · rw [hdisk]
        · rw [hdisk, slot_rename s.root s.io.disk hn hi hk, if_neg hkn', if_neg hkn]
      refine ⟨hrest.root.trans hroot,hrest.mounted.trans hmounted,hrest.next.trans hnext,
        fun i h => hrest.has i (hhas i h),fun k hk hk8 => ?_,fun hr => ⟨Nat.succ_pos n,?_⟩,
        fun hr _ => ?_,fun hr => ?_⟩
      · rw [habove k (by omega) hk8]
        exact hslots k (by omega) (by omega) hk8
      · obtain ⟨hpos,hsame⟩ := hbottom hr
        rw [hsame]
        exact hslots 0 (by omega) (by omega) (by decide)
      · obtain ⟨j,-,hj,hnot⟩ := hlater hr
        exact ⟨j,hj,hnot⟩
      · rw [habove (n+1) (Nat.lt_succ_self n) hn]
        rcases hdisk with ⟨-,hdisk⟩ | ⟨i,hi,hdisk⟩
        · rw [hdisk]
          exact .inl hempty
        · refine .inr ⟨fun h => ?_,hs,hlater hr⟩
          have : slot s.root s.io.disk n = some i := hi
          rw [Nat.add_sub_cancel] at h
          rw [this] at h
          cases h

/-- No attempt at a rotation moves a file into the oldest slot and then fails: when the delete
and the first move of a file succeed, so do all other calls. -/
def Whole (o : ℕ → Outcome) (files : ℕ) (s : Files) : Prop :=
  Ready s → slot s.root s.io.disk (files-2) ≠ none → succeeds o s.io.calls →
    succeeds o (s.io.calls+1) → ∀ j < files, 2 ≤ j → succeeds o (s.io.calls+j)

instance (o : ℕ → Outcome) (n : ℕ) : Decidable (succeeds o n) :=
  match h : o n with
  | .ok m => isTrue ⟨m,h⟩
  | .fail _ _ => isFalse fun ⟨m,hm⟩ => by
    rw [h] at hm
    cases hm

instance (s : Files) : Decidable (Ready s) :=
  inferInstanceAs (Decidable (s.mounted = true ∧ s.root.length+23 < storagePathMax))

instance (o : ℕ → Outcome) (files : ℕ) (s : Files) : Decidable (Whole o files s) :=
  inferInstanceAs (Decidable (Ready s → slot s.root s.io.disk (files-2) ≠ none →
    succeeds o s.io.calls → succeeds o (s.io.calls+1) →
    ∀ j < files, 2 ≤ j → succeeds o (s.io.calls+j)))

structure Attempted (o : ℕ → Outcome) (files : ℕ) (s : Files) (r : Bool × Files) : Prop where
  root : r.2.root = s.root
  mounted : r.2.mounted = s.mounted
  next : r.2.io.disk.next = s.io.disk.next
  has : ∀ i, Has s.io.disk i → slot s.root s.io.disk (files-1) ≠ some i → Has r.2.io.disk i
  bottom : r.1 = false → slot s.root r.2.io.disk 0 = slot s.root s.io.disk 0
  oldest : r.1 = false → Whole o files s → slot s.root r.2.io.disk (files-1) = none ∨
    slot s.root r.2.io.disk (files-1) = slot s.root s.io.disk (files-1)

theorem slot_unlink (root : CStr) (d : Card) {k : ℕ} (n : ℕ) (hn : n < 8) (hk : k < 8) :
    slot root (d.unlink (logPath root n)) k = if k = n then none else slot root d k := by
  by_cases h : k = n
  · subst h
    rw [if_pos rfl]
    exact Disk.inode_unlink_self d _
  · rw [if_neg h]
    exact Disk.inode_unlink_ne d _ _ fun hp => h (path_injective root hk hn hp)

theorem attempted (ho : Truthful o) {n : ℕ} (hn : n < 8) (s : Files) :
    Attempted o (n+1) s (rotateSteps o (⟨n,none⟩::shifts n) s) := by
  have hstep := remove_stepped ho s hn
  rw [rotateSteps_cons]
  generalize rotateStep o ⟨n,none⟩ s = r at hstep ⊢
  obtain ⟨err,t⟩ := r
  obtain ⟨hroot,hmounted,hdone,hfailed⟩ := hstep
  dsimp only at hroot hmounted hdone hfailed ⊢
  cases herr : okOrMissing err with
  | false =>
    obtain ⟨hdisk,-⟩ := hfailed herr
    rw [if_neg (by decide)]
    exact ⟨hroot,hmounted,by rw [hdisk],fun i h _ => by rw [hdisk]; exact h,
      fun _ => by rw [hdisk],fun _ _ => .inr (by rw [hdisk])⟩
  | true =>
    obtain ⟨hready,hs,hcalls,hdisk⟩ := hdone herr
    rw [if_pos rfl]
    have hempty : slot s.root t.io.disk n = none := by
      rcases hdisk with ⟨hnone,hdisk⟩ | hdisk
      · rw [hdisk]
        exact hnone
      · rw [hdisk, slot_unlink s.root _ n hn hn, if_pos rfl]
    have hrest := shifts_shifted ho n hn t (by rw [hroot]; exact hempty)
    generalize rotateSteps o (shifts n) t = r at hrest ⊢
    have hbottom := hrest.bottom
    have htop := hrest.top
    rw [hroot] at hbottom htop
    have hslots : ∀ k, k ≠ n → k < 8 → slot s.root t.io.disk k = slot s.root s.io.disk k := by
      intro k hkn hk
      rcases hdisk with ⟨-,hdisk⟩ | hdisk
      · rw [hdisk]
      · rw [hdisk, slot_unlink s.root _ n hn hk, if_neg hkn]
    refine ⟨hrest.root.trans hroot,hrest.mounted.trans hmounted,?_,fun i h hi => hrest.has i ?_,
      fun hr => ?_,fun hr hw => ?_⟩
    · rw [hrest.next]
      rcases hdisk with ⟨-,hdisk⟩ | hdisk <;> rw [hdisk]
      rfl
    · rcases hdisk with ⟨-,hdisk⟩ | hdisk
      · rw [hdisk]
        exact h
      · obtain ⟨p,hp⟩ := h
        refine ⟨p,?_⟩
        rw [hdisk, Disk.inode_unlink_ne _ _ _ fun hpn => hi (by rw [hpn] at hp; exact hp)]
        exact hp
    · obtain ⟨hpos,hsame⟩ := hbottom hr
      rw [hsame]
      exact hslots 0 (by omega) (by decide)
    · rcases htop hr with hnone | ⟨hmoved,hs',j,hj,hjn,hnot⟩
      · exact .inl hnone
      · rw [hslots (n-1) (by omega) (by omega)] at hmoved
        rw [hcalls] at hs' hnot
        rw [Nat.add_assoc] at hnot
        exact absurd (hw (hready (by omega)) hmoved hs hs' (1+j) (by omega) (by omega)) hnot

structure SameDir (s t : Files) : Prop where
  root : t.root = s.root
  mounted : t.mounted = s.mounted
  inode : t.io.disk.inode = s.io.disk.inode
  next : t.io.disk.next = s.io.disk.next

theorem SameDir.trans {s t u : Files} (h : SameDir s t) (g : SameDir t u) : SameDir s u :=
  ⟨g.root.trans h.root,g.mounted.trans h.mounted,g.inode.trans h.inode,g.next.trans h.next⟩

theorem sameDir_fail (e : Errno) (s : Files) : SameDir s (fail e s).2 := by
  unfold fail
  dsimp only
  split <;> exact ⟨rfl,rfl,rfl,rfl⟩

theorem sameDir_attempt {α : Type} (r : Except Errno α × Io) (s : Files)
    (hinode : r.2.disk.inode = s.io.disk.inode) (hnext : r.2.disk.next = s.io.disk.next) :
    SameDir s (attempt r s).2 := by
  obtain ⟨hroot,hmounted⟩ := attempt_env r s
  exact ⟨hroot,hmounted,by rw [attempt_io]; exact hinode,by rw [attempt_io]; exact hnext⟩

theorem leave_dir (w : Io) (i : ℕ) (left : Option (List UInt8)) :
    (w.leave i left).disk.inode = w.disk.inode ∧ (w.leave i left).disk.next = w.disk.next := by
  cases left <;> exact ⟨rfl,rfl⟩

theorem write_dir (o : ℕ → Outcome) (fd : ℕ) (p : List UInt8) (w : Io) :
    (ioWrite o fd p w).2.disk.inode = w.disk.inode ∧ (ioWrite o fd p w).2.disk.next = w.disk.next := by
  unfold ioWrite
  split
  · exact ⟨rfl,rfl⟩
  · split
    · exact leave_dir w.tick _ _
    · exact ⟨rfl,rfl⟩

theorem writeLoop_dir (o : ℕ → Outcome) (fd rounds : ℕ) (p : List UInt8) (s : Files) :
    SameDir s (writeLoop o fd rounds p s).2 ∧ (writeLoop o fd rounds p s).2.slots = s.slots := by
  induction rounds generalizing p s with
  | zero => cases p <;> exact ⟨⟨rfl,rfl,rfl,rfl⟩,rfl⟩
  | succ rounds ih =>
    cases p with
    | nil => exact ⟨⟨rfl,rfl,rfl,rfl⟩,rfl⟩
    | cons b p =>
      obtain ⟨hinode,hnext⟩ := write_dir o fd (b::p) s.io
      rw [writeLoop_cons]
      split
      · rename_i e io hw
        rw [hw] at hinode hnext
        have hio : SameDir s { s with io := io } := ⟨rfl,rfl,hinode,hnext⟩
        exact ⟨hio.trans (sameDir_fail e _),fail_slots e _⟩
      · rename_i n io hw
        rw [hw] at hinode hnext
        have hio : SameDir s { s with io := io } := ⟨rfl,rfl,hinode,hnext⟩
        split
        · exact ⟨hio,rfl⟩
        · obtain ⟨hd,hs⟩ := ih ((b::p).drop n) { s with io := io }
          exact ⟨hio.trans hd,hs⟩

theorem storageWrite_dir (o : ℕ → Outcome) (s : Files) (k : Slot) (buf : List UInt8) :
    SameDir s (starkStorageWrite o s k buf).2 ∧ (starkStorageWrite o s k buf).2.slots = s.slots := by
  unfold starkStorageWrite
  split
  · split
    · exact ⟨⟨rfl,rfl,rfl,rfl⟩,rfl⟩
    · exact writeLoop_dir o _ _ buf s
  · exact ⟨⟨rfl,rfl,rfl,rfl⟩,rfl⟩

theorem fsync_dir (o : ℕ → Outcome) (fd : ℕ) (w : Io) :
    (ioFsync o fd w).2.disk.inode = w.disk.inode ∧ (ioFsync o fd w).2.disk.next = w.disk.next := by
  unfold ioFsync
  split
  · exact ⟨rfl,rfl⟩
  · split
    · exact leave_dir w.tick _ _
    · exact ⟨rfl,rfl⟩

theorem close_dir (o : ℕ → Outcome) (fd : ℕ) (w : Io) :
    (ioClose o fd w).2.disk.inode = w.disk.inode ∧ (ioClose o fd w).2.disk.next = w.disk.next := by
  unfold ioClose
  split
  · exact ⟨rfl,rfl⟩
  · split
    · exact leave_dir w.tick _ _
    · exact ⟨rfl,rfl⟩

theorem storageClose_dir (o : ℕ → Outcome) (s : Files) (k : Slot)
    (hmode : ∀ f, s.slots k = some f → f.mode = .append) :
    SameDir s (starkStorageClose o s k).2 := by
  unfold starkStorageClose
  split
  · rename_i f _ hf
    have happ := hmode f hf
    have hsync : SameDir s (closeSync o f s).2 := by
      unfold closeSync
      rw [happ, if_pos (by decide)]
      obtain ⟨hinode,hnext⟩ := fsync_dir o f.fd s.io
      exact sameDir_attempt _ s hinode hnext
    have hclose : ∀ r : StarkErr × Files, SameDir r.2 (closeFd o f r).2 := by
      intro r
      obtain ⟨hinode,hnext⟩ := close_dir o f.fd r.2.io
      unfold closeFd
      dsimp only
      split
      · exact sameDir_attempt _ r.2 hinode hnext
      · exact ⟨rfl,rfl,hinode,hnext⟩
    have hrest : ∀ r, closeDrop o f (closeRename o f (closeUnlink o f r)) = r := by
      intro r
      unfold closeDrop closeRename closeUnlink
      rw [happ]
      simp
    dsimp only
    rw [hrest]
    have hall := hsync.trans (hclose (closeSync o f s))
    exact ⟨hall.root,hall.mounted,hall.inode,hall.next⟩
  · exact ⟨rfl,rfl,rfl,rfl⟩
  · exact ⟨rfl,rfl,rfl,rfl⟩

structure Grown (s t : Files) : Prop where
  root : t.root = s.root
  mounted : t.mounted = s.mounted
  inode : (t.io.disk.inode = s.io.disk.inode ∧ t.io.disk.next = s.io.disk.next) ∨
    (slot s.root s.io.disk 0 = none ∧
      t.io.disk.inode = (s.io.disk.create (logPath s.root 0)).inode ∧
      t.io.disk.next = s.io.disk.next+1)

theorem Grown.trans {s t u : Files} (h : Grown s t) (g : SameDir t u) : Grown s u :=
  ⟨g.root.trans h.root,g.mounted.trans h.mounted,
    h.inode.imp (fun ⟨hi,hn⟩ => ⟨g.inode.trans hi,g.next.trans hn⟩)
      fun ⟨h0,hi,hn⟩ => ⟨h0,g.inode.trans hi,g.next.trans hn⟩⟩

theorem grown_of_same {s t : Files} (h : SameDir s t) : Grown s t :=
  ⟨h.root,h.mounted,.inl ⟨h.inode,h.next⟩⟩

theorem ioOpen_append (o : ℕ → Outcome) (p : CStr) (w : Io) :
    (∃ e, (ioOpen o p .creatAppend w).1 = .error e ∧ (ioOpen o p .creatAppend w).2.disk = w.disk) ∨
    (∃ fd, (ioOpen o p .creatAppend w).1 = .ok fd ∧
      ((w.disk.inode p ≠ none ∧ (ioOpen o p .creatAppend w).2.disk = w.disk) ∨
        (w.disk.inode p = none ∧ (ioOpen o p .creatAppend w).2.disk = w.disk.create p))) := by
  unfold ioOpen
  split
  · exact .inl ⟨_,rfl,rfl⟩
  · split
    · rename_i i hi
      have hne : w.disk.inode p ≠ none := fun h => by
        unfold Disk.inode at h
        rw [hi] at h
        cases h
      exact .inr ⟨_,rfl,.inl ⟨hne,rfl⟩⟩
    · rename_i hi
      exact .inr ⟨_,rfl,.inr ⟨hi,rfl⟩⟩

theorem open_append (o : ℕ → Outcome) (s : Files) :
    Grown s (starkStorageOpen o s .logs logName .append).2.2 ∧
      ((starkStorageOpen o s .logs logName .append).1 = .ok → ∃ k f,
        (starkStorageOpen o s .logs logName .append).2.1 = some k ∧
        (starkStorageOpen o s .logs logName .append).2.2.slots k = some f ∧ f.mode = .append ∧
        slot s.root (starkStorageOpen o s .logs logName .append).2.2.io.disk 0 ≠ none) := by
  have hsame : Grown s s := grown_of_same ⟨rfl,rfl,rfl,rfl⟩
  have hname : logName = logRotateName 0 24 := by decide
  unfold starkStorageOpen
  rw [hname]
  split
  · rename_i e _
    exact ⟨hsame,fun h => absurd h e.ne_ok⟩
  · rename_i e _ _
    exact ⟨hsame,fun h => absurd h e.ne_ok⟩
  rename_i path tmp hpath _
  have hp : path = logPath s.root 0 := by
    rw [build_log s.root (by decide)] at hpath
    split at hpath
    · exact (Except.ok.inj hpath).symm
    · cases hpath
  subst hp
  split
  · exact ⟨hsame,fun h => by cases h⟩
  split
  · exact ⟨hsame,fun h => by cases h⟩
  rename_i k _
  rw [if_neg (by decide)]
  unfold openFlags
  rcases ioOpen_append o (logPath s.root 0) s.io with ⟨e,he,hdisk⟩ | ⟨fd,hfd,hdisk⟩
  · generalize ioOpen o (logPath s.root 0) .creatAppend s.io = r at he hdisk ⊢
    obtain ⟨r,io⟩ := r
    cases he
    have hio : SameDir s { s with io := io } :=
      ⟨rfl,rfl,congrArg Disk.inode hdisk,congrArg Disk.next hdisk⟩
    exact ⟨grown_of_same (hio.trans (sameDir_fail e _)),
      fun h => absurd h (fail_ne_ok e { s with io := io })⟩
  · generalize ioOpen o (logPath s.root 0) .creatAppend s.io = r at hfd hdisk ⊢
    obtain ⟨r,io⟩ := r
    cases hfd
    dsimp only at hdisk ⊢
    refine ⟨⟨rfl,rfl,?_⟩,fun _ => ⟨k,_,rfl,Function.update_self _ _ _,rfl,?_⟩⟩
    · rcases hdisk with ⟨-,hdisk⟩ | ⟨hnone,hdisk⟩
      · exact .inl ⟨congrArg Disk.inode hdisk,congrArg Disk.next hdisk⟩
      · exact .inr ⟨hnone,congrArg Disk.inode hdisk,congrArg Disk.next hdisk⟩
    · show io.disk.inode (logPath s.root 0) ≠ none
      rcases hdisk with ⟨hne,hdisk⟩ | ⟨-,hdisk⟩
      · rw [hdisk]
        exact hne
      · rw [hdisk, Disk.inode_create_self]
        exact fun h => by cases h

/-- After bytes were appended, the log file is there. -/
theorem append_grown (o : ℕ → Outcome) (marker chunk : List UInt8) (s : Files) :
    Grown s (append o marker chunk s).2 ∧ ((append o marker chunk s).1 = .ok →
      slot s.root (append o marker chunk s).2.io.disk 0 ≠ none) := by
  obtain ⟨hgrown,hopened⟩ := open_append o s
  unfold append
  split
  · rename_i k t ht
    rw [ht] at hgrown hopened
    obtain ⟨k',f,hk,hf,hmode,hthere⟩ := hopened rfl
    cases hk
    obtain ⟨hmark,hmarkSlots⟩ := storageWrite_dir o t k marker
    have hwritten : SameDir t (if (starkStorageWrite o t k marker).1 = .ok then
        starkStorageWrite o (starkStorageWrite o t k marker).2 k chunk
        else starkStorageWrite o t k marker).2 ∧
        (if (starkStorageWrite o t k marker).1 = .ok then
          starkStorageWrite o (starkStorageWrite o t k marker).2 k chunk
          else starkStorageWrite o t k marker).2.slots = t.slots := by
      split
      · obtain ⟨hd,hs⟩ := storageWrite_dir o (starkStorageWrite o t k marker).2 k chunk
        exact ⟨hmark.trans hd,hs.trans hmarkSlots⟩
      · exact ⟨hmark,hmarkSlots⟩
    dsimp only
    generalize (if (starkStorageWrite o t k marker).1 = .ok then
        starkStorageWrite o (starkStorageWrite o t k marker).2 k chunk
        else starkStorageWrite o t k marker) = r at hwritten ⊢
    have hclose := storageClose_dir o r.2 k fun g hg => by
      rw [hwritten.2] at hg
      exact Option.some.inj (hf.symm.trans hg) ▸ hmode
    have hall := hwritten.1.trans hclose
    refine ⟨hgrown.trans hall,fun _ => ?_⟩
    unfold slot
    rw [hall.inode]
    exact hthere
  · rename_i err k t hne ht
    rw [ht] at hgrown hopened
    refine ⟨hgrown,fun h => ?_⟩
    dsimp only at h
    subst h
    obtain ⟨k',f,hk,-⟩ := hopened rfl
    cases hk
    exact (hne k' rfl rfl).elim

theorem nameIn_some {dir p name : CStr} (h : nameIn dir p = some name) : p = dir++ '/'::name := by
  unfold nameIn at h
  dsimp only at h
  split at h
  · rename_i hpre
    obtain ⟨hpre,-⟩ := Bool.and_eq_true_iff.mp hpre
    obtain ⟨rest,rfl⟩ := List.isPrefixOf_iff_prefix.mp hpre
    rw [List.drop_left] at h
    rw [Option.some.inj h, List.append_assoc]
    rfl
  · cases h

theorem storageList_dir (o : ℕ → Outcome) (s : Files) :
    SameDir s (starkStorageList o s .logs).2.2 ∧
      ∀ e ∈ (starkStorageList o s .logs).2.1, e.1 = logName → slot s.root s.io.disk 0 ≠ none := by
  unfold starkStorageList
  split
  · exact ⟨⟨rfl,rfl,rfl,rfl⟩,fun e h => by cases h⟩
  rename_i path hpath
  have hp : path = s.root++"/stark/".toList++"logs".toList := by
    unfold storageDirPath at hpath
    dsimp only at hpath
    split at hpath
    · exact (Except.ok.inj hpath).symm
    · cases hpath
  split
  · exact ⟨⟨rfl,rfl,rfl,rfl⟩,fun e h => by cases h⟩
  obtain ⟨htick,hlist⟩ := list_cases o s.io path
  generalize ioList o path s.io = r at htick hlist
  obtain ⟨r,io⟩ := r
  dsimp only at htick hlist
  subst htick
  rcases hlist with ⟨e,rfl⟩ | ⟨names,rfl,hnames⟩
  · have hfail := sameDir_fail e { s with io := s.io.tick }
    exact ⟨⟨hfail.root,hfail.mounted,hfail.inode,hfail.next⟩,fun e h => by cases h⟩
  · refine ⟨⟨rfl,rfl,rfl,rfl⟩,fun e he hname => ?_⟩
    obtain ⟨name,hmem,rfl⟩ := List.mem_map.mp he
    obtain ⟨q,hq,hin⟩ := List.mem_filterMap.mp (hnames (List.mem_of_mem_filter hmem))
    dsimp only at hname
    subst hname
    have hlog : q = logPath s.root 0 := by
      rw [nameIn_some hin, hp]
      have : logName = logRotateName 0 24 := by decide
      rw [this]
      rfl
    subst hlog
    exact fun h => AList.lookup_eq_none.mp h hq

theorem filesSize_dir (o : ℕ → Outcome) (s : Files) :
    SameDir s (storageFilesSize o s .logs logName).2.2 ∧
      ((storageFilesSize o s .logs logName).1 = .ok → slot s.root s.io.disk 0 ≠ none) := by
  obtain ⟨hdir,hentries⟩ := storageList_dir o s
  unfold storageFilesSize
  split
  · rename_i entries t ht
    rw [ht] at hdir hentries
    split
    · exact ⟨hdir,fun h => by cases h⟩
    · rename_i e he
      exact ⟨hdir,fun _ => hentries e (List.mem_of_find?_eq_some he) (by simpa using List.find?_some he)⟩
  · rename_i err entries t hne ht
    rw [ht] at hdir
    exact ⟨hdir,fun h => (hne h).elim⟩

def Sized (w : LogWriter) (s : Files) : Prop :=
  w.sizeKnown = true → w.size ≠ 0 → slot s.root s.io.disk 0 ≠ none

theorem readSize_sized (o : ℕ → Outcome) {w : LogWriter} {s : Files} (h : Sized w s) :
    SameDir s (readSize o w s).2.2 ∧ (readSize o w s).2.1.files = w.files ∧
      Sized (readSize o w s).2.1 (readSize o w s).2.2 ∧
      ((readSize o w s).1 = .ok → (readSize o w s).2.1.sizeKnown = true) := by
  obtain ⟨hdir,hfound⟩ := filesSize_dir o s
  have hkeep : ∀ t, SameDir s t → ∀ k, slot t.root t.io.disk k = slot s.root s.io.disk k := by
    intro t ht k
    unfold slot
    rw [ht.root, ht.inode]
  unfold readSize
  split
  · rename_i hknown
    exact ⟨⟨rfl,rfl,rfl,rfl⟩,rfl,h,fun _ => hknown⟩
  split
  · rename_i size t ht
    rw [ht] at hdir hfound
    exact ⟨hdir,rfl,fun _ _ => by rw [hkeep t hdir]; exact hfound rfl,fun _ => rfl⟩
  · rename_i size t ht
    rw [ht] at hdir
    exact ⟨hdir,rfl,fun _ hz => absurd rfl hz,fun _ => rfl⟩
  · rename_i err size t hok hmiss ht
    rw [ht] at hdir
    refine ⟨hdir,rfl,fun hk hz => ?_,fun herr => (hok herr).elim⟩
    rw [hkeep t hdir]
    exact h hk hz

/-- The writer and the card; beside them whether a rotation is left half done, and the card as
it was when the last rotation began. -/
structure State where
  w : LogWriter
  s : Files
  pending : Bool
  began : Option Card

def start (limit : UInt32) (files : ℕ) (s : Files) : State :=
  ⟨storageLogInit limit files,s,false,none⟩

/-- One round of a flush. A rotation begins when it becomes due and none is pending. -/
def step (o : ℕ → Outcome) (st : State) (t : Taken) : Option State :=
  match readSize o st.w st.s with
  | (.ok,w,s) =>
    let due := plan w t.add ≠ []
    let r := rotate o t.add w s
    let a := appended o t r.2.1 r.2.2
    some ⟨a.2.1,a.2.2,if due then !r.1 else st.pending,
      if due ∧ !st.pending then some s.io.disk else st.began⟩
  | (_,w,s) => some { st with w := w, s := s }

/-- The machine takes the rounds of the flush. -/
theorem step_round (o : ℕ → Outcome) (st : State) (t : Taken) :
    (step o st t).map (fun u => (u.w,u.s)) = some (flushRound o t st.w st.s).2 := by
  unfold step flushRound
  obtain ⟨err,w,s⟩ := readSize o st.w st.s
  cases err <;> rfl

def Keeps (root : CStr) (files : ℕ) (d now : Card) : Prop :=
  ∀ i, Has d i ∨ (d.next ≤ i ∧ i < now.next) → slot root d (files-1) ≠ some i → Has now i

def Kept (st : State) : Prop := ∀ d, st.began = some d → Keeps st.s.root st.w.files d st.s.io.disk

def WholeAttempts (o : ℕ → Outcome) (st : State) (t : Taken) : Prop :=
  let r := readSize o st.w st.s
  r.1 = .ok → plan r.2.1 t.add ≠ [] → Whole o r.2.1.files r.2.2

instance (o : ℕ → Outcome) (st : State) (t : Taken) : Decidable (WholeAttempts o st t) :=
  inferInstanceAs (Decidable ((readSize o st.w st.s).1 = .ok →
    plan (readSize o st.w st.s).2.1 t.add ≠ [] →
      Whole o (readSize o st.w st.s).2.1.files (readSize o st.w st.s).2.2))

theorem keeps_refl (root : CStr) (files : ℕ) (d : Card) : Keeps root files d d := by
  rintro i (h | ⟨hlow,hhigh⟩) _
  · exact h
  · omega

theorem keeps_attempted {root : CStr} {files : ℕ} {d : Card} {s : Files} {r : Bool × Files}
    (hroot : s.root = root) (h : Keeps root files d s.io.disk)
    (hold : slot root s.io.disk (files-1) = none ∨
      slot root s.io.disk (files-1) = slot root d (files-1))
    (hr : Attempted o files s r) : Keeps root files d r.2.io.disk := by
  subst hroot
  intro i hi hne
  rw [hr.next] at hi
  refine hr.has i (h i hi hne) fun hs => ?_
  rcases hold with hnone | hsame
  · rw [hnone] at hs
    cases hs
  · exact hne (hsame.symm.trans hs)

theorem keeps_grown {root : CStr} {files : ℕ} {d : Card} {s t : Files} (hroot : s.root = root)
    (h : Keeps root files d s.io.disk) (hg : Grown s t) : Keeps root files d t.io.disk := by
  subst hroot
  intro i hi hne
  rcases hg.inode with ⟨hinode,hnext⟩ | ⟨hnone,hinode,hnext⟩
  · rw [hnext] at hi
    obtain ⟨p,hp⟩ := h i hi hne
    exact ⟨p,by rw [hinode]; exact hp⟩
  · rw [hnext] at hi
    by_cases hnew : i = s.io.disk.next
    · exact ⟨logPath s.root 0,by rw [hinode, Disk.inode_create_self, hnew]⟩
    · obtain ⟨p,hp⟩ := h i (hi.imp id fun ⟨hl,hh⟩ => ⟨hl,by omega⟩) hne
      have hp0 : p ≠ logPath s.root 0 := fun h0 => by
        rw [h0] at hp
        unfold slot at hnone
        rw [hnone] at hp
        cases hp
      exact ⟨p,by rw [hinode, Disk.inode_create_ne _ _ _ hp0]; exact hp⟩

/-- While a rotation is pending, the oldest slot is empty or holds the file it held. -/
structure Inv (st : State) : Prop where
  files : 1 ≤ st.w.files ∧ st.w.files ≤ 8
  sized : Sized st.w st.s
  kept : Kept st
  pending : st.pending = true → slot st.s.root st.s.io.disk 0 ≠ none ∧ ∃ d, st.began = some d ∧
    (slot st.s.root st.s.io.disk (st.w.files-1) = none ∨
      slot st.s.root st.s.io.disk (st.w.files-1) = slot st.s.root d (st.w.files-1))

theorem inv_start (limit : UInt32) (files : ℕ) (s : Files) : Inv (start limit files s) := by
  refine ⟨?_,fun h => (by cases h),fun d h => (by cases h),fun h => (by cases h)⟩
  show 1 ≤ max 1 (min files logRotateMaxFiles) ∧ max 1 (min files logRotateMaxFiles) ≤ 8
  unfold logRotateMaxFiles
  omega

theorem plan_cases (w : LogWriter) (add : UInt32) : plan w add = [] ∨
    (w.size ≠ 0 ∧ plan w add = ⟨w.files-1,none⟩::shifts (w.files-1)) := by
  unfold plan logRotatePlan
  split
  · exact .inl rfl
  · rename_i h
    exact .inr ⟨fun hz => h (.inl hz),rfl⟩

theorem inv_sameDir {st : State} (h : Inv st) {w : LogWriter} {s : Files} (hd : SameDir st.s s)
    (hf : w.files = st.w.files) (hs : Sized w s) : Inv { st with w := w, s := s } := by
  refine ⟨by rw [hf]; exact h.files,hs,fun d hb => ?_,fun hp => ?_⟩
  · rw [hd.root, hf]
    intro i hi hne
    rw [hd.next] at hi
    obtain ⟨p,hp⟩ := h.kept d hb i hi hne
    exact ⟨p,by rw [hd.inode]; exact hp⟩
  · obtain ⟨h0,d,hb,hold⟩ := h.pending hp
    unfold slot at *
    rw [hd.root, hd.inode, hf]
    exact ⟨h0,d,hb,hold⟩

theorem inv_appended {st : State} (h : Inv st) (o : ℕ → Outcome) (t : Taken) :
    Inv { st with w := (appended o t st.w st.s).2.1, s := (appended o t st.w st.s).2.2 } := by
  obtain ⟨hgrown,hthere⟩ := append_grown o (dropMarker t.dropped) t.chunk st.s
  have hshape : (appended o t st.w st.s).2.2 = (append o (dropMarker t.dropped) t.chunk st.s).2 ∧
      (appended o t st.w st.s).2.1.files = st.w.files ∧
      Sized (appended o t st.w st.s).2.1 (appended o t st.w st.s).2.2 := by
    unfold appended
    split
    · rename_i s hs
      rw [hs] at hgrown hthere ⊢
      refine ⟨rfl,rfl,fun _ _ => ?_⟩
      rw [hgrown.root]
      exact hthere rfl
    · rename_i err s hne hs
      rw [hs]
      exact ⟨rfl,rfl,fun hk => by cases hk⟩
  obtain ⟨hs,hf,hsized⟩ := hshape
  rw [hs] at hsized ⊢
  refine ⟨by rw [hf]; exact h.files,hsized,fun d hb => ?_,fun hp => ?_⟩
  · rw [hgrown.root, hf]
    exact keeps_grown rfl (h.kept d hb) hgrown
  · obtain ⟨h0,d,hb,hold⟩ := h.pending hp
    rcases hgrown.inode with ⟨hinode,-⟩ | ⟨hnone,-⟩
    · unfold slot at *
      dsimp only
      rw [hgrown.root, hinode, hf]
      exact ⟨h0,d,hb,hold⟩
    · exact absurd hnone h0

/-- An attempt that is whole keeps the invariant; a new rotation begins with what is there. -/
theorem inv_rotated {st : State} (h : Inv st) {o : ℕ → Outcome} (ho : Truthful o) (add : UInt32)
    (hknown : st.w.sizeKnown = true) (hwhole : plan st.w add ≠ [] → Whole o st.w.files st.s) :
    Inv ⟨(rotate o add st.w st.s).2.1,(rotate o add st.w st.s).2.2,
      if plan st.w add ≠ [] then !(rotate o add st.w st.s).1 else st.pending,
      if plan st.w add ≠ [] ∧ !st.pending then some st.s.io.disk else st.began⟩ := by
  obtain ⟨hlow,hhigh⟩ := h.files
  rcases plan_cases st.w add with hplan | ⟨hsize,hplan⟩
  · unfold rotate
    rw [hplan]
    exact h
  have hne : plan st.w add ≠ [] := by
    rw [hplan]
    exact List.cons_ne_nil _ _
  have hw := hwhole hne
  have h0 := h.sized hknown hsize
  have hatt := attempted ho (by omega : st.w.files-1 < 8) st.s
  rw [Nat.sub_add_cancel hlow] at hatt
  -- the card the rotation began with, and what was in the oldest slot
  obtain ⟨d,hbegan,hkeeps,hold⟩ : ∃ d,
      (if plan st.w add ≠ [] ∧ !st.pending then some st.s.io.disk else st.began) = some d ∧
      Keeps st.s.root st.w.files d st.s.io.disk ∧
      (slot st.s.root st.s.io.disk (st.w.files-1) = none ∨
        slot st.s.root st.s.io.disk (st.w.files-1) = slot st.s.root d (st.w.files-1)) := by
    cases hp : st.pending with
    | false => exact ⟨_,if_pos ⟨hne,rfl⟩,keeps_refl _ _ _,.inr rfl⟩
    | true =>
      obtain ⟨-,d,hb,hold⟩ := h.pending hp
      refine ⟨d,?_,h.kept d hb,hold⟩
      rw [if_neg fun h => (by cases h.2)]
      exact hb
  rw [hbegan, if_pos hne]
  unfold rotate
  rw [hplan]
  dsimp only
  generalize rotateSteps o (⟨st.w.files-1,none⟩::shifts (st.w.files-1)) st.s = r at hatt ⊢
  have hkept := keeps_attempted rfl hkeeps hold hatt
  obtain ⟨done,s⟩ := r
  have hroot : s.root = st.s.root := hatt.root
  cases done with
  | true =>
    dsimp only at hkept ⊢
    rw [if_pos (List.cons_ne_nil _ _)]
    refine ⟨h.files,fun _ hz => absurd rfl hz,fun d' hd' => ?_,fun hp => by cases hp⟩
    cases hd'
    rw [hroot]
    exact hkept
  | false =>
    have hbottom := hatt.bottom rfl
    have holdest := hatt.oldest rfl hw
    dsimp only at hkept hbottom holdest ⊢
    rw [← hbottom, ← hroot] at h0
    refine ⟨h.files,fun _ _ => h0,fun d' hd' => ?_,fun _ => ⟨h0,d,rfl,?_⟩⟩
    · cases hd'
      rw [hroot]
      exact hkept
    · rw [hroot]
      rcases holdest with hnone | hsame
      · exact .inl hnone
      · rw [hsame]
        exact hold

theorem inv_step {o : ℕ → Outcome} (ho : Truthful o) (st : State) (t : Taken) (st' : State)
    (h : Inv st) (hg : WholeAttempts o st t) (hs : step o st t = some st') : Inv st' := by
  obtain ⟨hdir,hfiles,hsized,hknown⟩ := readSize_sized o h.sized
  have hread := inv_sameDir h hdir hfiles hsized
  unfold step at hs
  split at hs
  · rename_i w s hws
    rw [hws] at hread hknown
    unfold WholeAttempts at hg
    rw [hws] at hg
    have hrotated := inv_rotated hread ho t.add (hknown rfl) (hg rfl)
    exact Option.some.inj hs ▸ inv_appended hrotated o t
  · rename_i err w s hne hws
    rw [hws] at hread
    exact Option.some.inj hs ▸ hread

/-- In every run whose attempts are whole, only the file that was in the oldest slot when the
last rotation began may be gone. -/
theorem rotation_keeps {o : ℕ → Outcome} (ho : Truthful o) (limit : UInt32) (files : ℕ) (s : Files)
    (ts : List Taken) (st : State)
    (h : Run (step o) (WholeAttempts o) (start limit files s) ts st) : Kept st :=
  (run_invariant Inv (inv_step ho) ts (inv_start limit files s) h).kept

def logCard (root : CStr) (sizes : List ℕ) : Files :=
  { io :=
      { disk := (sizes.zipIdx).foldl (fun d e =>
          (d.create (logPath root e.2)).store d.next (List.replicate e.1 0)) Disk.empty
        fds := fun _ => none
        fdNext := 0
        calls := 0
        held := fun _ _ h => by cases h }
    root := root
    mounted := true
    generation := 1
    ioErrors := 0
    slots := fun _ => none }

def fails (k n : ℕ) : Outcome := if n = k then .fail (.other 5) none else .ok 64

theorem fails_truthful (k : ℕ) : Truthful (fails k) := by
  intro n left h
  unfold fails at h
  split at h
  · cases h
  · cases h

def oneByte : Taken := ⟨[7],0⟩

/-- With two files the move of `stark.log` fails and is made at the next round. -/
theorem rotation_keeps_two : ∃ st, Run (step (fails 2)) (WholeAttempts (fails 2))
    (start 4 2 (logCard "/sd".toList [5,5])) [oneByte,oneByte] st ∧
      (Kept st ∧ st.pending = false ∧ st.began.isSome) := by
  obtain ⟨st,hrun,hseen⟩ := run_witness (step (fails 2)) (G := WholeAttempts (fails 2))
    (p := fun st => st.pending = false ∧ st.began.isSome = true)
      (s := start 4 2 (logCard "/sd".toList [5,5]))
    [oneByte,oneByte] (by decide +kernel) (by decide +kernel)
  exact ⟨st,hrun,
      rotation_keeps (fails_truthful 2) 4 2 (logCard "/sd".toList [5,5]) [oneByte,oneByte] st hrun,
    hseen⟩

/-- The move of `stark.log` fails after `stark.1.log` has become `stark.2.log`, and the next
round deletes that. -/
theorem rotation_loses_shifted : ¬∀ (o : ℕ → Outcome) (limit : UInt32) (files : ℕ) (s : Files)
    (ts : List Taken) (st : State), Truthful o → Run (step o) Free (start limit files s) ts st →
      Kept st := by
  intro h
  obtain ⟨st,hrun,hroot,hfiles,hbegan,hgone⟩ := run_witness (step (fails 3)) (G := Free)
    (p := fun st => st.s.root = "/sd".toList ∧ st.w.files = 3 ∧
      (st.began.map fun d => (slot "/sd".toList d 1,slot "/sd".toList d 2)) = some (some 1,some 2) ∧
      ∀ p ∈ st.s.io.disk.dir.keys, st.s.io.disk.inode p ≠ some 1)
    (s := start 4 3 (logCard "/sd".toList [5,5,5])) [oneByte,oneByte] (by decide +kernel)
    (by decide +kernel)
  obtain ⟨d,hd,hslots⟩ := Option.map_eq_some_iff.mp hbegan
  obtain ⟨h1,h2⟩ := Prod.mk.inj hslots
  obtain ⟨p,hp⟩ := h (fails 3) 4 3 _ _ st (fails_truthful 3) hrun d hd 1 (.inl ⟨_,h1⟩) (by
    rw [hroot, hfiles, h2]
    exact fun h => by cases h)
  have hkey : (st.s.io.disk.dir.lookup p).isSome := by
    unfold Disk.inode at hp
    rw [hp]
    rfl
  exact hgone p (AList.mem_keys.mp (AList.lookup_isSome.mp hkey)) hp

end StarkOne.LogRotation
