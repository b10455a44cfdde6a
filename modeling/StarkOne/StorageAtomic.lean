import StarkOne.StorageWriting

/-!
# Atomic writes and the old file

One handle opened for an atomic write, whatever its writes are, whatever fails
under them, and whether or not the card goes and comes back meanwhile. Nothing
before the close leads to the final name, so the old file stays. The close is
the one place that removes it, and only a failed rename leaves it removed.
-/

set_option autoImplicit false

namespace StarkOne.StorageAtomic
open StarkOne.InodeDisk StarkOne.StoragePath StarkOne.StorageIo StarkOne.StorageFile
  StarkOne.StorageKept StarkOne.StorageWriting

inductive SessionOp where
  | write (buf : List UInt8)
  | lose
  | mount

inductive SessionEnd where
  | close
  | discard
  | leave
  deriving DecidableEq

section
variable (o : ℕ → Outcome) (k : Slot)

def runOps : List SessionOp → Files → List StarkErr × Files
  | [], s => ([],s)
  | .write buf::ops, s =>
    let r := starkStorageWrite o s k buf
    let rest := runOps ops r.2
    (r.1::rest.1,rest.2)
  | .lose::ops, s => runOps ops (volumeLost o s)
  | .mount::ops, s => runOps ops (volumeMounted o s)

def finish : SessionEnd → Files → Option StarkErr × Files
  | .close, s =>
    let r := starkStorageClose o s k
    (some r.1,r.2)
  | .discard, s => (none,starkStorageDiscard o s k)
  | .leave, s => (none,s)

end

def written : List SessionOp → List UInt8
  | [] => []
  | .write buf::ops => buf ++ written ops
  | _::ops => written ops

/-- Without a successful close the old file stays; with it, and every write
successful, the new one is complete. -/
def KeepsOld (old new : Option (List UInt8)) (results : List StarkErr) (r : Option StarkErr)
    (bytes : List UInt8) : Prop :=
  (r ≠ some .ok → new = old) ∧ (r = some .ok → (∀ e ∈ results, e = .ok) → new = some bytes)

section
variable (o : ℕ → Outcome) {k : Slot} {path tmp : CStr} {good : Prop} {bytes : List UInt8}
  {s : Files}

theorem writing_runOps (ops : List SessionOp) (h : Writing k path tmp good bytes s) :
    Writing k path tmp (good ∧ ∀ e ∈ (runOps o k ops s).1, e = .ok) (bytes ++ written ops)
      (runOps o k ops s).2 := by
  induction ops generalizing s good bytes with
  | nil =>
    obtain ⟨f,hf,hm,hp,ht,hmount,hfresh⟩ := h
    refine ⟨f,hf,hm,hp,ht,hmount,fun hs => ⟨(hfresh hs).1,fun hg => ?_⟩⟩
    rw [written, List.append_nil]
    exact (hfresh hs).2 hg.1
  | cons op ops ih =>
    cases op with
    | write buf =>
      obtain ⟨f,hf,hm,hp,ht,hmount,hfresh⟩ := ih (writing_write o h buf)
      refine ⟨f,hf,hm,hp,ht,hmount,fun hs => ⟨(hfresh hs).1,fun hg => ?_⟩⟩
      have hall := hg.2
      rw [runOps, List.forall_mem_cons] at hall
      rw [written, ← List.append_assoc]
      exact (hfresh hs).2 ⟨⟨hg.1,hall.1⟩,hall.2⟩
    | lose => exact ih (writing_lost o h)
    | mount => exact ih (writing_mounted o h)

theorem kept_runOps {old : Option (List UInt8)} (ops : List SessionOp) (hp : ¬tmpSuffix <:+ path)
    (h : Kept path old s.io) : Kept path old (runOps o k ops s).2.io := by
  induction ops generalizing s with
  | nil => exact h
  | cons op ops ih =>
    cases op with
    | write buf => exact ih (kept_storageWrite o s k buf h)
    | lose => exact ih (kept_volumeLost o s h)
    | mount => exact ih (kept_volumeMounted o s hp h)

end

theorem finish_effect (o : ℕ → Outcome) {k : Slot} {path tmp : CStr} {good : Prop}
    {bytes : List UInt8} {old : Option (List UInt8)} {s : Files} (fin : SessionEnd)
    (h : Writing k path tmp good bytes s) (hk : Kept path old s.io) (hne : tmp ≠ path) :
    ((finish o k fin s).1 ≠ some .ok →
      ((finish o k fin s).2.io.disk.content path = old ↔ ¬(fin = .close ∧ LosesOld o s k))) ∧
    ((finish o k fin s).1 = some .ok → ¬LosesOld o s k ∧
      (good → (finish o k fin s).2.io.disk.content path = some bytes)) := by
  obtain ⟨f,hf,hm,rfl,rfl,-,hfresh⟩ := h
  cases fin with
  | leave => exact ⟨fun _ => ⟨fun _ h => (by cases h.1),fun _ => hk.content⟩,fun h => by cases h⟩
  | discard =>
    have hd := kept_discard o s k (fun g hg => by
      obtain rfl := Option.some.inj (hf.symm.trans hg)
      exact Ne.symm hne) hk
    exact ⟨fun _ => ⟨fun _ h => (by cases h.1),fun _ => hd.content⟩,fun h => by cases h⟩
  | close =>
    have hne' : ∀ {e : StarkErr}, e ≠ .ok → some e ≠ some StarkErr.ok :=
      fun he h => he (Option.some.inj h)
    unfold finish
    dsimp only
    rcases usable_cases s k with ⟨hn,-⟩ | ⟨g,hg,h⟩
    · rw [hf] at hn
      cases hn
    obtain rfl := Option.some.inj (hf.symm.trans hg)
    rcases h with ⟨hu,-⟩ | ⟨hu,hst,-,-⟩
    · have hc : starkStorageClose o s k = (.io,release s k) := by
        unfold starkStorageClose
        rw [hu]
      have hl : ¬LosesOld o s k := by
        rintro ⟨g,-,hg,-⟩
        rw [hu] at hg
        cases hg
      rw [hc]
      exact ⟨fun _ => ⟨fun _ h => hl h.2,fun _ => hk.content⟩,fun h => by cases h⟩
    obtain ⟨hl,happ⟩ := hfresh hst
    rcases close_effect o f s k hf hm hu hl hne hk with ⟨he,hc,hw⟩ | ⟨he,hc,hw,-⟩ | ⟨he,hc,hw⟩
    · rw [he]
      refine ⟨fun h => absurd rfl h,fun _ => ⟨hw,fun hg => ?_⟩⟩
      obtain ⟨i,-,hi,hd⟩ := happ hg
      rw [hc, Disk.content_eq _ _ _ hi, hd]
    · exact ⟨fun _ => ⟨fun _ h => hw h.2,fun _ => hc⟩,fun h => absurd h (hne' he)⟩
    · refine ⟨fun _ => ⟨fun h => ?_,fun h => absurd ⟨rfl,hw⟩ h⟩,fun h => absurd h (hne' he)⟩
      obtain ⟨g,hg,-,hi,-⟩ := hw
      obtain rfl := Option.some.inj (hf.symm.trans hg)
      have hold := hk.content
      rw [← h, hc] at hold
      cases hino : s.io.disk.inode f.path with
      | none => exact absurd hino hi
      | some i =>
        rw [Disk.content_eq _ _ _ hino] at hold
        cases hold

/-- What a session that was opened for an atomic write leaves at the final name. -/
theorem session_effect (o : ℕ → Outcome) {s₀ s₁ : Files} {dir : StarkDir} {name path tmp : CStr}
    {k : Slot} (hp : storagePathBuild s₀.root dir name false storagePathMax = .ok path)
    (ht : storagePathBuild s₀.root dir name true storagePathMax = .ok tmp)
    (hquiet : ∀ fd f, s₀.io.fds fd = some f → s₀.io.disk.inode path ≠ some f.inode)
    (hopen : starkStorageOpen o s₀ dir name .writeAtomic = (.ok,some k,s₁))
    (ops : List SessionOp) (fin : SessionEnd) :
    let before := (runOps o k ops s₁).2
    let after := finish o k fin before
    (after.1 ≠ some .ok → (after.2.io.disk.content path = s₀.io.disk.content path ↔
      ¬(fin = .close ∧ LosesOld o before k))) ∧
    (after.1 = some .ok → ¬LosesOld o before k ∧ ((∀ e ∈ (runOps o k ops s₁).1, e = .ok) →
      after.2.io.disk.content path = some (written ops))) := by
  have hne := tmp_ne_final hp ht
  obtain ⟨fd,io,hio,hmount,rfl⟩ := open_atomic o hp ht hopen
  have happ := open_appends o s₀.io hio
  have hkept : Kept path (s₀.io.disk.content path) io := by
    have := kept_open o ⟨rfl,hquiet⟩ tmp .creatTrunc (Ne.symm hne)
    rwa [hio] at this
  generalize hs : setSlot { s₀ with io := io } k _ = s₁
  have hw : Writing k path tmp True [] s₁ := by
    refine ⟨_,by rw [← hs]; exact Function.update_self _ _ _,rfl,rfl,rfl,fun hm => ?_,
      fun _ => ⟨?_,fun _ => ?_⟩⟩
    · rw [← hs] at hm
      exact absurd (hmount.symm.trans hm) (by decide)
    · rw [← hs]
      exact happ.linked
    · rw [← hs]
      exact happ
  have hk : Kept path (s₀.io.disk.content path) s₁.io := by rw [← hs]; exact hkept
  have hkrun := kept_runOps o (k := k) ops (final_not_tmp hp) hk
  obtain ⟨hfail,hok⟩ := finish_effect o fin (writing_runOps o ops hw) hkrun hne
  exact ⟨hfail,fun hr => ⟨(hok hr).1,fun hall => (hok hr).2 ⟨trivial,hall⟩⟩⟩

/-- An atomic write keeps its promise unless the close removes the old file and
then cannot rename the new one. -/
theorem write_atomic_iff (o : ℕ → Outcome) (s₀ s₁ : Files) (dir : StarkDir)
    (name path tmp : CStr) (k : Slot)
    (hp : storagePathBuild s₀.root dir name false storagePathMax = .ok path)
    (ht : storagePathBuild s₀.root dir name true storagePathMax = .ok tmp)
    (hquiet : ∀ fd f, s₀.io.fds fd = some f → s₀.io.disk.inode path ≠ some f.inode)
    (hopen : starkStorageOpen o s₀ dir name .writeAtomic = (.ok,some k,s₁))
    (ops : List SessionOp) (fin : SessionEnd) :
    KeepsOld (s₀.io.disk.content path)
      ((finish o k fin (runOps o k ops s₁).2).2.io.disk.content path) (runOps o k ops s₁).1
      (finish o k fin (runOps o k ops s₁).2).1 (written ops) ↔
    ¬(fin = .close ∧ LosesOld o (runOps o k ops s₁).2 k) := by
  obtain ⟨hfail,hok⟩ := session_effect o hp ht hquiet hopen ops fin
  constructor
  · rintro ⟨h,-⟩
    by_cases hr : (finish o k fin (runOps o k ops s₁).2).1 = some .ok
    · exact fun hc => (hok hr).1 hc.2
    · exact (hfail hr).mp (h hr)
  · exact fun h => ⟨fun hr => (hfail hr).mpr h,fun hr => (hok hr).2⟩

def cardWith (root p : CStr) (bytes : List UInt8) : Files :=
  { io :=
      { disk := (Disk.empty.create p).store 0 bytes
        fds := fun _ => none
        fdNext := 0
        calls := 0
        held := fun _ _ h => by cases h }
    root := root
    mounted := true
    generation := 1
    ioErrors := 0
    slots := fun _ => none }

def sdRoot : CStr := "/sd".toList
def captureName : CStr := "ir_0001.ir".toList
def capturePath : CStr := "/sd/stark/captures/ir_0001.ir".toList
def captureTmp : CStr := "/sd/stark/captures/ir_0001.ir.tmp".toList

def renameFails (n : ℕ) : Outcome := if n = 5 then .fail (.other 5) none else .ok 64

def captureSession : List SessionOp := [.write [7,7]]

/-- The rename fails after the old file was removed: neither is left. -/
theorem write_atomic_loses_old :
    ¬∀ (o : ℕ → Outcome) (s₀ s₁ : Files) (dir : StarkDir) (name path tmp : CStr) (k : Slot),
      storagePathBuild s₀.root dir name false storagePathMax = .ok path →
      storagePathBuild s₀.root dir name true storagePathMax = .ok tmp →
      (∀ fd f, s₀.io.fds fd = some f → s₀.io.disk.inode path ≠ some f.inode) →
      starkStorageOpen o s₀ dir name .writeAtomic = (.ok,some k,s₁) →
      ∀ (ops : List SessionOp) (fin : SessionEnd),
        KeepsOld (s₀.io.disk.content path)
          ((finish o k fin (runOps o k ops s₁).2).2.io.disk.content path) (runOps o k ops s₁).1
          (finish o k fin (runOps o k ops s₁).2).1 (written ops) := by
  intro h
  have hlost := (h renameFails (cardWith sdRoot capturePath [1]) _ .captures captureName capturePath
    captureTmp 0 (by decide) (by decide) (fun _ _ h => by cases h) rfl captureSession .close).1
    (by decide)
  revert hlost
  decide

/-- With every call successful the old capture gives way to the new one. -/
theorem write_atomic_replaces :
    let o : ℕ → Outcome := fun _ => .ok 64
    ∃ s₁, starkStorageOpen o (cardWith sdRoot capturePath [1]) .captures captureName .writeAtomic =
        (.ok,some 0,s₁) ∧
      (KeepsOld (some [1])
        ((finish o 0 .close (runOps o 0 captureSession s₁).2).2.io.disk.content capturePath)
        (runOps o 0 captureSession s₁).1 (finish o 0 .close (runOps o 0 captureSession s₁).2).1
        [7,7] ↔ ¬(SessionEnd.close = .close ∧ LosesOld o (runOps o 0 captureSession s₁).2 0)) := by
  intro o
  exact ⟨_,rfl,write_atomic_iff o (cardWith sdRoot capturePath [1]) _ .captures captureName
    capturePath captureTmp 0 (by decide) (by decide) (fun _ _ h => by cases h) rfl captureSession .close⟩

end StarkOne.StorageAtomic
