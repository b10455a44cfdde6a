import StarkOne.StorageFile

/-!
# What the file helpers leave alone

A file that no descriptor leads to keeps its content through every helper that
does not name it: writes, a discard, the sweep at a mount, the loss of the
volume. The handle table changes only where a helper says so.
-/

set_option autoImplicit false

namespace StarkOne.StorageKept
open StarkOne.InodeDisk StarkOne.StoragePath StarkOne.StorageIo StarkOne.StorageFile

section
variable {p : CStr} {old : Option (List UInt8)} (o : ℕ → Outcome)

theorem kept_writeLoop (fd rounds : ℕ) (bytes : List UInt8) (s : Files) (h : Kept p old s.io) :
    Kept p old (writeLoop o fd rounds bytes s).2.io := by
  induction rounds generalizing bytes s with
  | zero => cases bytes <;> exact h
  | succ rounds ih =>
    cases bytes with
    | nil => exact h
    | cons b bytes =>
      have hw := kept_write o h fd (b::bytes)
      rw [writeLoop_cons]
      split
      · rename_i e io heq
        rw [heq] at hw
        rw [fail_io]
        exact hw
      · rename_i n io heq
        rw [heq] at hw
        split
        · exact hw
        · exact ih _ _ hw

theorem kept_storageWrite (s : Files) (k : Slot) (buf : List UInt8) (h : Kept p old s.io) :
    Kept p old (starkStorageWrite o s k buf).2.io := by
  unfold starkStorageWrite
  split
  · split
    · exact h
    · exact kept_writeLoop o _ _ _ _ h
  · exact h

theorem kept_attempt {α : Type} (r : Except Errno α × Io) (s : Files) (h : Kept p old r.2) :
    Kept p old (attempt r s).2.io := by
  rw [attempt_io]
  exact h

theorem kept_closeSync (f : StarkFile) (s : Files) (h : Kept p old s.io) :
    Kept p old (closeSync o f s).2.io := by
  unfold closeSync
  split
  · exact kept_attempt _ _ (kept_fsync o h f.fd)
  · exact h

theorem kept_closeFd (f : StarkFile) (r : StarkErr × Files) (h : Kept p old r.2.io) :
    Kept p old (closeFd o f r).2.io := by
  unfold closeFd
  dsimp only
  split
  · exact kept_attempt _ _ (kept_close o h f.fd)
  · exact kept_close o h f.fd

theorem kept_discard (s : Files) (k : Slot) (ht : ∀ f, s.slots k = some f → p ≠ f.tmp)
    (h : Kept p old s.io) : Kept p old (starkStorageDiscard o s k).io := by
  unfold starkStorageDiscard
  split
  · rename_i f _ hf
    have hc := kept_close o h f.fd
    dsimp only
    split
    · exact kept_unlink o hc f.tmp (ht f hf)
    · exact hc
  · exact h
  · exact h

theorem kept_invalidateOne (s : Files) (k : Slot) (h : Kept p old s.io) :
    Kept p old (invalidateOne o s k).io := by
  unfold invalidateOne
  split
  · exact h
  split
  · exact h
  · exact kept_close o h _

theorem kept_volumeLost (s : Files) (h : Kept p old s.io) : Kept p old (volumeLost o s).io := by
  unfold volumeLost storageFilesInvalidate
  generalize List.finRange 4 = ks
  induction ks generalizing s with
  | nil => exact h
  | cons k ks ih => exact ih _ (kept_invalidateOne o s k h)

theorem kept_sweepOne (dir name : CStr) (r : ℕ × Files) (hp : ¬tmpSuffix <:+ p)
    (h : Kept p old r.2.io) : Kept p old (sweepOne o dir name r).2.io := by
  unfold sweepOne
  split
  · exact h
  rename_i hc
  have hs : tmpSuffix <:+ name := by
    have : tmpSuffix.isSuffixOf name = true := by
      by_contra hn
      exact hc (by simp [hn])
    exact List.isSuffixOf_iff_suffix.mp this
  have hne : p ≠ dir ++ '/'::name := by
    rintro rfl
    exact hp (hs.trans ((List.suffix_cons _ _).trans (List.suffix_append _ _)))
  have hu := kept_unlink o h (dir ++ '/'::name) hne
  split
  · rename_i u io heq
    rw [heq] at hu
    exact hu
  · rename_i e io heq
    rw [heq] at hu
    exact hu

theorem kept_sweep (dir : CStr) (names : List CStr) (r : ℕ × Files) (hp : ¬tmpSuffix <:+ p)
    (h : Kept p old r.2.io) :
    Kept p old (names.foldl (fun r name => sweepOne o dir name r) r).2.io := by
  induction names generalizing r with
  | nil => exact h
  | cons name names ih => exact ih _ (kept_sweepOne o dir name r hp h)

theorem kept_makeDir (path : CStr) (s : Files) (h : Kept p old s.io) :
    Kept p old (makeDir o path s).2.io := by
  have hm := kept_mkdir o h path
  unfold makeDir
  split
  · rename_i io heq
    rw [heq] at hm
    exact hm
  · exact kept_attempt _ _ hm

theorem kept_prepareDirs (ds : List StarkDir) (r : ℕ × Files) (hp : ¬tmpSuffix <:+ p)
    (h : Kept p old r.2.io) : Kept p old (prepareDirs o ds r).2.2.io := by
  induction ds generalizing r with
  | nil => exact h
  | cons d ds ih =>
    obtain ⟨n,s⟩ := r
    rw [prepareDirs]
    split
    · exact h
    rename_i path _
    have hm := kept_makeDir o path s h
    generalize makeDir o path s = m at hm ⊢
    obtain ⟨err,t⟩ := m
    dsimp only at hm ⊢
    split
    · exact hm
    have hl := kept_list o hm path
    split
    · rename_i e io heq
      rw [heq] at hl
      dsimp only
      rw [fail_io]
      exact hl
    · rename_i names io heq
      rw [heq] at hl
      exact ih _ (kept_sweep o path names _ hp hl)

/-- Mounting sweeps temporary files only. -/
theorem kept_volumeMounted (s : Files) (hp : ¬tmpSuffix <:+ p) (h : Kept p old s.io) :
    Kept p old (volumeMounted o s).io := by
  unfold volumeMounted
  split
  · exact h
  unfold storageFilesPrepare
  split
  · exact h
  rename_i path _
  have hm := kept_makeDir o (dirname path)
      { s with mounted := true, generation := u32 (s.generation+1) } h
  generalize makeDir o (dirname path) _ = m at hm ⊢
  obtain ⟨err,t⟩ := m
  dsimp only at hm ⊢
  split
  · exact hm
  · exact kept_prepareDirs o _ (0,t) hp hm

end

section
variable (o : ℕ → Outcome)

theorem invalidateOne_slots (s : Files) (j k : Slot) :
    (invalidateOne o s j).slots k = if k = j then (s.slots k).map (fun f => { f with stale := true })
      else s.slots k := by
  unfold invalidateOne
  by_cases hk : k = j
  · subst hk
    rw [if_pos rfl]
    cases hf : s.slots k with
    | none => exact hf
    | some f =>
      dsimp only
      by_cases hst : f.stale = true
      · rw [if_pos hst, hf]
        simp [← hst]
      · rw [if_neg hst]
        simp [setSlot]
  · rw [if_neg hk]
    split
    · rfl
    split
    · rfl
    · exact Function.update_of_ne hk _ _

theorem invalidate_slots (s : Files) (k : Slot) :
    (volumeLost o s).slots k = (s.slots k).map (fun f => { f with stale := true }) := by
  have fold : ∀ (ks : List Slot) (t : Files), (ks.foldl (invalidateOne o) t).slots k =
      if k ∈ ks then (t.slots k).map (fun f => { f with stale := true }) else t.slots k := by
    intro ks
    induction ks with
    | nil => exact fun t => rfl
    | cons j ks ih =>
      intro t
      rw [List.foldl_cons, ih, invalidateOne_slots]
      by_cases hj : k = j
      · subst hj
        by_cases hk : k ∈ ks <;> simp [hk, Option.map_map, Function.comp_def]
      · simp [hj]
  have hall := fold (List.finRange 4) s
  rw [if_pos (List.mem_finRange k)] at hall
  exact hall

theorem sweepOne_slots (dir name : CStr) (r : ℕ × Files) :
    (sweepOne o dir name r).2.slots = r.2.slots := by
  unfold sweepOne
  split
  · rfl
  · split <;> rfl

theorem sweep_slots (dir : CStr) (names : List CStr) (r : ℕ × Files) :
    (names.foldl (fun r name => sweepOne o dir name r) r).2.slots = r.2.slots := by
  induction names generalizing r with
  | nil => rfl
  | cons name names ih => exact (ih _).trans (sweepOne_slots o dir name r)

theorem attempt_slots {α : Type} (r : Except Errno α × Io) (s : Files) :
    (attempt r s).2.slots = s.slots := by
  obtain ⟨_ | _,io⟩ := r
  · exact fail_slots _ _
  · rfl

theorem makeDir_slots (path : CStr) (s : Files) : (makeDir o path s).2.slots = s.slots := by
  unfold makeDir
  split
  · rfl
  · exact attempt_slots _ _

theorem prepareDirs_slots (ds : List StarkDir) (r : ℕ × Files) :
    (prepareDirs o ds r).2.2.slots = r.2.slots := by
  induction ds generalizing r with
  | nil => rfl
  | cons d ds ih =>
    obtain ⟨n,s⟩ := r
    rw [prepareDirs]
    split
    · rfl
    rename_i path _
    have hm := makeDir_slots o path s
    generalize makeDir o path s = m at hm ⊢
    obtain ⟨err,t⟩ := m
    dsimp only at hm ⊢
    split
    · exact hm
    split
    · exact (fail_slots _ _).trans hm
    · exact (ih _).trans ((sweep_slots o path _ _).trans hm)

theorem volumeMounted_slots (s : Files) : (volumeMounted o s).slots = s.slots := by
  unfold volumeMounted
  split
  · rfl
  unfold storageFilesPrepare
  split
  · rfl
  rename_i path _
  have hm := makeDir_slots o (dirname path)
    { s with mounted := true, generation := u32 (s.generation+1) }
  generalize makeDir o (dirname path) _ = m at hm ⊢
  obtain ⟨err,t⟩ := m
  dsimp only at hm ⊢
  split
  · exact hm
  · exact (prepareDirs_slots o _ (0,t)).trans hm

end

end StarkOne.StorageKept
