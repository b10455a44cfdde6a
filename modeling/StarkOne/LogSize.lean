import Mathlib.Data.UInt
import StarkOne.LogFiles

/-!
# The size of the log file

The writer remembers the size of `stark.log`. It is read from a listing of the
directory when it is not known, and not known any more after a mount or a
failed append. A listing that leaves `stark.log` out is taken for a directory
without it, and the size that is remembered is then wrong.
-/

set_option autoImplicit false

namespace StarkOne.LogSize
open StarkOne.InodeDisk StarkOne.StoragePath StarkOne.StorageIo StarkOne.StorageFile
  StarkOne.StorageWriting StarkOne.StorageWriters StarkOne.StorageLog StarkOne.LogRotation
  StarkOne.LogFiles

def logBytes (s : Files) : List UInt8 := (s.io.disk.content (logPath s.root 0)).getD []

/-- A size that is known is that of the file, as a 32-bit number. -/
def Exact (w : LogWriter) (s : Files) : Prop :=
  w.sizeKnown = true → w.size = UInt32.ofNat (logBytes s).length

/-- A listing of the log directory that is no error gives `stark.log` if it is there. -/
def Listed (o : ℕ → Outcome) (s : Files) : Prop :=
  ∀ names, s.mounted = true → (ioList o (logsPath s.root) s.io).1 = .ok names →
    s.io.disk.content (logPath s.root 0) ≠ none → logName ∈ names

structure Untouched (s t : Files) : Prop where
  table : SameTable s t
  disk : t.io.disk = s.io.disk

theorem Untouched.logBytes {s t : Files} (h : Untouched s t) : logBytes t = logBytes s := by
  unfold LogSize.logBytes
  rw [h.table.root, h.disk]

variable {o : ℕ → Outcome}

/-- What a listing of the log directory says, if it says anything. -/
theorem storageList_logs (o : ℕ → Outcome) (s : Files) :
    Untouched s (starkStorageList o s .logs).2.2 ∧
    ((starkStorageList o s .logs).1 = .ok → s.mounted = true ∧ ∃ names,
      (ioList o (logsPath s.root) s.io).1 = .ok names ∧
      (starkStorageList o s .logs).2.1 = (names.filter storageNameValid).map fun name =>
        (name,((s.io.disk.content (logsPath s.root++ '/'::name)).getD []).length)) ∧
    (Truthful o → (starkStorageList o s .logs).1 ≠ .notFound) := by
  have hsame : Untouched s s := ⟨⟨rfl,rfl,rfl,rfl⟩,rfl⟩
  unfold starkStorageList storageDirPath
  dsimp only
  by_cases hdir : (s.root++"/stark/".toList++storageDirName .logs).length < storagePathMax
  swap
  · rw [if_neg hdir]
    exact ⟨hsame,fun h => (by cases h),fun _ h => by cases h⟩
  rw [if_pos hdir]
  dsimp only
  by_cases hm : s.mounted = true
  swap
  · rw [if_pos (by simpa using hm)]
    exact ⟨hsame,fun h => (by cases h),fun _ h => by cases h⟩
  rw [if_neg (by simp [hm])]
  obtain ⟨htick,-⟩ := list_cases o s.io (logsPath s.root)
  have hmissing : ∀ e, (ioList o (logsPath s.root) s.io).1 = .error e → Truthful o → e ≠ .enoent := by
    intro e he htrue
    unfold ioList at he
    dsimp only at he
    split at he
    · rename_i e' ho
      cases he
      intro h
      exact htrue _ none (by rw [ho, h])
    · cases he
    · cases he
  split
  · rename_i e io hio
    have hl : ioList o (logsPath s.root) s.io = (.error e,io) := hio
    rw [hl] at htick hmissing
    obtain rfl : io = s.io.tick := htick
    refine ⟨⟨sameTable_fail e s _,by rw [fail_io]; rfl⟩,
      fun h => absurd h (fail_ne_ok e { s with io := s.io.tick }),
      fun htrue h => hmissing e rfl htrue ?_⟩
    exact errno_missing (by rw [show storageMapErrno e = .notFound from h]; rfl)
  · rename_i names io hio
    have hl : ioList o (logsPath s.root) s.io = (.ok names,io) := hio
    rw [hl] at htick
    obtain rfl : io = s.io.tick := htick
    exact ⟨⟨⟨rfl,rfl,rfl,rfl⟩,rfl⟩,fun _ => ⟨hm,names,by rw [hl],rfl⟩,fun _ h => by cases h⟩

theorem logPath_zero (root : CStr) : logsPath root++ '/'::logName = logPath root 0 := by
  rw [log_name]
  rfl

theorem filesSize_logs (o : ℕ → Outcome) (s : Files) :
    Untouched s (storageFilesSize o s .logs logName).2.2 ∧
    ((storageFilesSize o s .logs logName).1 = .ok →
      (storageFilesSize o s .logs logName).2.1 = (logBytes s).length) ∧
    ((storageFilesSize o s .logs logName).1 = .notFound → Truthful o → Listed o s →
      logBytes s = []) := by
  obtain ⟨hsame,hnames,hmissing⟩ := storageList_logs o s
  unfold storageFilesSize
  generalize starkStorageList o s .logs = r at hsame hnames hmissing ⊢
  obtain ⟨err,entries,t⟩ := r
  dsimp only at hsame hnames hmissing ⊢
  split
  · rename_i entries' t' heq
    cases heq
    obtain ⟨hm,names,hlist,rfl⟩ := hnames rfl
    split
    · rename_i hnone
      refine ⟨hsame,fun h => (by cases h),fun _ _ hlisted => ?_⟩
      -- the name would have been found
      by_contra hne
      have hthere : s.io.disk.content (logPath s.root 0) ≠ none := by
        intro h
        apply hne
        unfold logBytes
        rw [h]
        rfl
      have hmem := hlisted names hm hlist hthere
      have hvalid : storageNameValid logName = true := by decide
      have := List.find?_eq_none.mp hnone _
        (List.mem_map_of_mem (List.mem_filter.mpr ⟨hmem,hvalid⟩))
      simp at this
    · rename_i e he
      refine ⟨hsame,fun _ => ?_,fun h => by cases h⟩
      obtain ⟨name,-,rfl⟩ := List.mem_map.mp (List.mem_of_find?_eq_some he)
      have hname : name = logName := by simpa using List.find?_some he
      subst hname
      dsimp only
      rw [logPath_zero]
      rfl
  · rename_i err' entries' t' hne heq
    cases heq
    exact ⟨hsame,fun h => absurd h hne,fun h htrue _ => absurd h (hmissing htrue)⟩

theorem readSize_exact (htrue : Truthful o) {w w' : LogWriter} {s t : Files} (h : Exact w s)
    (hlisted : w.sizeKnown = false → Listed o s) (hr : readSize o w s = (.ok,w',t)) :
    Untouched s t ∧ w'.sizeKnown = true ∧ w'.size = UInt32.ofNat (logBytes s).length ∧
      w' = { w with sizeKnown := true, size := w'.size } := by
  obtain ⟨hsame,hfound,hmissing⟩ := filesSize_logs o s
  unfold readSize at hr
  by_cases hk : w.sizeKnown = true
  · rw [if_pos hk] at hr
    cases hr
    exact ⟨⟨⟨rfl,rfl,rfl,rfl⟩,rfl⟩,hk,h hk,by rw [← hk]⟩
  rw [if_neg hk] at hr
  generalize storageFilesSize o s .logs logName = r at hsame hfound hmissing hr
  obtain ⟨err,size,u⟩ := r
  dsimp only at hsame hfound hmissing hr
  split at hr
  · rename_i size' u' heq
    cases heq
    cases hr
    exact ⟨hsame,rfl,by rw [hfound rfl],rfl⟩
  · rename_i size' u' heq
    cases heq
    cases hr
    have hno := hmissing rfl htrue (hlisted (by simpa using hk))
    exact ⟨hsame,rfl,by rw [hno]; rfl,rfl⟩
  · rename_i err' size' u' hok _ heq
    cases heq
    obtain ⟨herr,-⟩ := Prod.mk.inj hr
    exact absurd herr hok

theorem readSize_failed {w : LogWriter} {s : Files} (hr : (readSize o w s).1 ≠ .ok) :
    (readSize o w s).2.1 = w ∧ w.sizeKnown = false ∧ Untouched s (readSize o w s).2.2 := by
  obtain ⟨hsame,-,-⟩ := filesSize_logs o s
  unfold readSize at hr ⊢
  by_cases hk : w.sizeKnown = true
  · rw [if_pos hk] at hr
    exact absurd rfl hr
  rw [if_neg hk] at hr ⊢
  generalize storageFilesSize o s .logs logName = r at hsame hr ⊢
  obtain ⟨err,size,u⟩ := r
  dsimp only at hsame
  split
  · rename_i size' u' heq
    rw [heq] at hr
    exact absurd rfl hr
  · rename_i size' u' heq
    rw [heq] at hr
    exact absurd rfl hr
  · rename_i err' size' u' _ _ heq
    cases heq
    exact ⟨rfl,by simpa using hk,hsame⟩

theorem content_slot {s t : Files} {j k : ℕ} (hdata : t.io.disk.data = s.io.disk.data)
    (hslot : slot s.root t.io.disk j = slot s.root s.io.disk k) :
    t.io.disk.content (logPath s.root j) = s.io.disk.content (logPath s.root k) := by
  unfold Disk.content
  rw [hdata]
  exact congrArg (Option.map _) hslot

/-- The three ways of a rotation: nothing to do, done, and given up with `stark.log` still there. -/
inductive Rotated (o : ℕ → Outcome) (add : UInt32) (w : LogWriter) (s : Files) :
    Bool × LogWriter × Files → Prop where
  | idle : plan w add = [] → Rotated o add w s (true,w,s)
  | done (t : Files) : plan w add ≠ [] → SameTable s t → t.io.disk.data = s.io.disk.data →
      Moved (w.files-1) s t → Rotated o add w s (true,{ w with size := 0 },t)
  | stuck (t : Files) : plan w add ≠ [] → SameTable s t →
      t.io.disk.content (logPath s.root 0) = s.io.disk.content (logPath s.root 0) →
      (Unfailing o → s.root.length+23 < storagePathMax →
        s.mounted = false ∧ t.io.disk = s.io.disk) → Rotated o add w s (false,w,t)

theorem rotate_rotated (htrue : Truthful o) (add : UInt32) {w : LogWriter} (s : Files)
    (hfiles : 1 ≤ w.files ∧ w.files ≤ 8) : Rotated o add w s (rotate o add w s) := by
  obtain ⟨hlow,hhigh⟩ := hfiles
  rcases plan_cases w add with hplan | ⟨hsize,hplan⟩
  · unfold rotate
    rw [hplan]
    exact .idle hplan
  have hne : plan w add ≠ [] := by
    rw [hplan]
    exact List.cons_ne_nil _ _
  have hn : w.files-1 < 8 := by omega
  obtain ⟨htable,hdata⟩ := rotateSteps_frame (o := o) (⟨w.files-1,none⟩::shifts (w.files-1)) s
  have hmoved := rotation_moved htrue hn s
  have hbottom := (attempted htrue hn s).bottom
  have hunfailing := fun ho : Unfailing o => rotation_unfailing ho hn s
  unfold rotate
  rw [hplan]
  dsimp only
  generalize rotateSteps o (⟨w.files-1,none⟩::shifts (w.files-1)) s = r at *
  obtain ⟨done,t⟩ := r
  cases done with
  | true =>
    dsimp only
    rw [if_pos (List.cons_ne_nil _ _)]
    exact .done t hne htable hdata (hmoved rfl)
  | false =>
    exact .stuck t hne htable (content_slot hdata (hbottom rfl))
      fun ho hfits => hunfailing ho hfits rfl

theorem rotated_exact {add : UInt32} {w : LogWriter} {s : Files} {r : Bool × LogWriter × Files}
    (h : Exact w s) (hr : Rotated o add w s r) :
    Exact r.2.1 r.2.2 ∧ r.2.1.files = w.files ∧ r.2.1.sizeKnown = w.sizeKnown := by
  cases hr with
  | idle => exact ⟨h,rfl,rfl⟩
  | done t hne htable hdata hmoved =>
    refine ⟨fun _ => ?_,rfl,rfl⟩
    have hnone : t.io.disk.inode (logPath t.root 0) = none := by
      have := hmoved.slots 0 (by decide)
      rw [if_neg (Nat.not_lt_zero _), if_pos rfl] at this
      rw [htable.root]
      exact this
    unfold logBytes
    rw [Disk.content_none _ _ hnone]
    rfl
  | stuck t hne htable hsame =>
    refine ⟨fun hk => ?_,rfl,rfl⟩
    unfold logBytes
    rw [htable.root, hsame]
    exact h hk

theorem add_bytes (t : Taken) : t.add = UInt32.ofNat t.bytes.length := by
  unfold Taken.add Taken.bytes
  rw [List.length_append, Nat.add_comm]

theorem appended_exact {t : Taken} {w : LogWriter} {s : Files} (h : Exact w s)
    (hk : w.sizeKnown = true) : Exact (appended o t w s).2.1 (appended o t w s).2.2 ∧
      (appended o t w s).2.1.files = w.files ∧
      ((appended o t w s).1 = .ok → (appended o t w s).2.1.sizeKnown = true) := by
  unfold appended
  split
  · rename_i u hu
    have happ := append_appended hu
    refine ⟨fun _ => ?_,rfl,fun _ => hk⟩
    have hbytes : logBytes u = logBytes s++t.bytes := by
      unfold logBytes
      rw [happ.root, happ.log]
      rfl
    dsimp only
    rw [hbytes, h hk, add_bytes, List.length_append, UInt32.ofNat_add]
  · exact ⟨fun hk' => (by cases hk'),rfl,fun h => absurd h ‹_›⟩

theorem flushRound_read {t : Taken} {w w' : LogWriter} {s u : Files}
    (hr : readSize o w s = (.ok,w',u)) : flushRound o t w s =
      appended o t (rotate o t.add w' u).2.1 (rotate o t.add w' u).2.2 := by
  unfold flushRound
  rw [hr]

theorem flushRound_unread {t : Taken} {w : LogWriter} {s : Files} (h : (readSize o w s).1 ≠ .ok) :
    flushRound o t w s = readSize o w s := by
  unfold flushRound
  split
  · rename_i w' u hr
    rw [hr] at h
    exact absurd rfl h
  · rename_i hr
    exact hr.symm

theorem flushRound_exact (htrue : Truthful o) {t : Taken} {w : LogWriter} {s : Files}
    (h : Exact w s) (hfiles : 1 ≤ w.files ∧ w.files ≤ 8)
    (hlisted : w.sizeKnown = false → Listed o s) :
    Exact (flushRound o t w s).2.1 (flushRound o t w s).2.2 ∧
      (flushRound o t w s).2.1.files = w.files ∧
      ((flushRound o t w s).1 = .ok → (flushRound o t w s).2.1.sizeKnown = true) := by
  by_cases hok : (readSize o w s).1 = .ok
  · obtain ⟨w',u,hr⟩ : ∃ w' u, readSize o w s = (.ok,w',u) := ⟨_,_,Prod.ext hok rfl⟩
    rw [flushRound_read hr]
    obtain ⟨hsame,hk,hsize,hw⟩ := readSize_exact htrue h hlisted hr
    have hexact : Exact w' u := fun _ => by rw [hsize, hsame.logBytes]
    have hfiles' : w'.files = w.files := by rw [hw]
    have hrot := rotate_rotated htrue t.add u (by rw [hfiles']; exact hfiles)
    obtain ⟨hexact',hkept,hknown⟩ := rotated_exact hexact hrot
    obtain ⟨happ,hkept',hok⟩ := appended_exact (o := o) (t := t) hexact' (hknown.trans hk)
    exact ⟨happ,hkept'.trans (hkept.trans hfiles'),hok⟩
  · obtain ⟨hw,hk,-⟩ := readSize_failed hok
    rw [flushRound_unread hok]
    exact ⟨fun hk' => (by rw [hw, hk] at hk'; cases hk'),by rw [hw],fun h => absurd h hok⟩

theorem flush_exact (htrue : Truthful o) (ts : List Taken) {w : LogWriter} {s : Files}
    (h : Exact w s) (hfiles : 1 ≤ w.files ∧ w.files ≤ 8)
    (hlisted : w.sizeKnown = false → Listed o s) :
    Exact (storageLogFlush o ts w s).2.2.1 (storageLogFlush o ts w s).2.2.2 ∧
      (storageLogFlush o ts w s).2.2.1.files = w.files := by
  induction ts generalizing w s with
  | nil => exact ⟨h,rfl⟩
  | cons t ts ih =>
    obtain ⟨hexact,hkept,hknown⟩ := flushRound_exact (t := t) htrue h hfiles hlisted
    unfold storageLogFlush
    split
    · exact ⟨h,rfl⟩
    split
    · rename_i w' u hr
      rw [hr] at hexact hkept hknown
      obtain ⟨hrest,hfiles'⟩ := ih hexact (by rw [hkept]; exact hfiles) fun hn => by
        rw [hknown rfl] at hn
        cases hn
      exact ⟨hrest,hfiles'.trans hkept⟩
    · rename_i err w' u hne hr
      rw [hr] at hexact hkept
      exact ⟨hexact,hkept⟩

end StarkOne.LogSize
