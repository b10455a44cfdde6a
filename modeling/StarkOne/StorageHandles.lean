import Mathlib.Data.List.Perm.Subperm
import StarkOne.Descriptors
import StarkOne.StorageFile
import StarkOne.StorageMount

/-!
# Handles across mounts

The file calls beside the mount machine of the storage task, each in one hold
of the lock. The file system is a log of descriptor calls: it answers as it
likes, except that it gives out no number that is open. Calls by path name are
made on no descriptor and only their answers are kept. A failure that a call
reports is an input the mount machine may get at any time.
-/

set_option autoImplicit false

namespace StarkOne.StorageHandles
open StarkOne.Machine StarkOne.Descriptors StarkOne.StorageCore StarkOne.StorageMount
open StarkOne.StoragePath StarkOne.StorageFile

abbrev Reply := Except Errno ℕ

structure Handle where
  file : StarkFile
  id : ℕ

structure Service where
  mount : StorageMount.State
  slots : Slot → Option Handle
  opens : ℕ
  log : List (Event ℕ ℕ)

def result : Reply → StarkErr
  | .ok _ => .ok
  | .error e => storageMapErrno e

def setSlot (s : Service) (k : Slot) (h : Option Handle) : Service :=
  { s with slots := Function.update s.slots k h }

def record (s : Service) (e : Event ℕ ℕ) : Service := { s with log := e::s.log }

def mounted (s : Service) : Bool := s.mount.core.state = .mounted

def usable (s : Service) (f : StarkFile) : StarkErr :=
  if f.stale || !mounted s || s.mount.core.generation != f.generation then .io else .ok

def freeSlot (s : Service) : Option Slot := (List.finRange 4).find? (fun k => (s.slots k).isNone)

def use (s : Service) (h : Handle) : Service := record s (.used h.id h.file.fd)

def shut (s : Service) (h : Handle) : Service := record s (.closed h.id h.file.fd)

def release (s : Service) (k : Slot) (h : Handle) : Service :=
  setSlot (record s (.released h.id)) k none

def starkStorageOpen (root : CStr) (s : Service) (dir : StarkDir) (name : CStr)
    (mode : StarkFileMode) (reply : Reply) : StarkErr × Option Slot × Service :=
  match storagePathBuild root dir name false storagePathMax,
    storagePathBuild root dir name true storagePathMax with
  | .error e, _ => (e.code,none,s)
  | .ok _, .error e => (e.code,none,s)
  | .ok path, .ok tmp =>
    if !mounted s then (.state,none,s)
    else match freeSlot s with
      | none => (.busy,none,s)
      | some k => match reply with
        | .error e => (storageMapErrno e,none,s)
        | .ok fd =>
          let s' := record s (.opened s.opens fd)
          (.ok,some k,setSlot { s' with opens := s.opens+1 } k
            (some ⟨⟨false,fd,s.mount.core.generation,mode,path,tmp⟩,s.opens⟩))

def starkStorageRead (s : Service) (h : Handle) (reply : Reply) : StarkErr × ℕ × Service :=
  match usable s h.file with
  | .ok =>
    if h.file.mode ≠ .read then (.state,0,s)
    else match reply with
      | .error e => (storageMapErrno e,0,use s h)
      | .ok n => (.ok,n,use s h)
  | err => (err,0,s)

/-- Each round writes what is left; a round that goes on has taken at least one byte. -/
def writeLoop (h : Handle) : ℕ → ℕ → (ℕ → Reply) → Service → StarkErr × Service
  | _, 0, _, s => (.ok,s)
  | 0, _+1, _, s => (.ok,s)
  | rounds+1, len+1, replies, s => match replies 0 with
    | .error e => (storageMapErrno e,use s h)
    | .ok n =>
      if n = 0 then (.noSpace,use s h)
      else writeLoop h rounds (len+1-n) (fun i => replies (i+1)) (use s h)

def starkStorageWrite (s : Service) (h : Handle) (len : ℕ) (replies : ℕ → Reply) :
    StarkErr × Service :=
  match usable s h.file with
  | .ok => if h.file.mode = .read then (.state,s) else writeLoop h len len replies s
  | err => (err,s)

structure CloseReplies where
  sync : Reply
  shut : Reply
  unlink : Reply
  rename : Reply

def closeErr (f : StarkFile) (r : CloseReplies) : StarkErr :=
  let err := if f.mode ≠ .read then result r.sync else .ok
  let err := if err = .ok then result r.shut else err
  let err := if f.mode = .writeAtomic ∧ err = .ok ∧ r.unlink ≠ .error .enoent then result r.unlink
    else err
  if f.mode = .writeAtomic ∧ err = .ok then result r.rename else err

def starkStorageClose (s : Service) (k : Slot) (h : Handle) (r : CloseReplies) :
    StarkErr × Service :=
  match usable s h.file with
  | .ok =>
    let s := if h.file.mode ≠ .read then use s h else s
    (closeErr h.file r,release (shut s h) k h)
  | err => (err,release s k h)

def starkStorageDiscard (s : Service) (k : Slot) (h : Handle) : Service :=
  match usable s h.file with
  | .ok => release (shut s h) k h
  | _ => release s k h

def invalidateOne (s : Service) (k : Slot) : Service :=
  match s.slots k with
  | none => s
  | some h =>
    if h.file.stale then s
    else setSlot (shut s h) k (some { h with file := { h.file with stale := true } })

def storageFilesInvalidate (s : Service) : Service := (List.finRange 4).foldl invalidateOne s

inductive Act where
  | openFile (dir : StarkDir) (name : CStr) (mode : StarkFileMode) (reply : Reply)
  | read (k : Slot) (reply : Reply)
  | write (k : Slot) (len : ℕ) (replies : ℕ → Reply)
  | close (k : Slot) (replies : CloseReplies)
  | discard (k : Slot)
  | task (a : StorageMount.Act)

def asked (m : StorageMount.State) (a : StorageMount.Act) : Option StorageAction :=
  (call m a).map fun r => r.1.2.action

/-- A step of the task. A release ends the generation and invalidates the handles first. -/
def taskStep (s : Service) (a : StorageMount.Act) : Option Service :=
  (StorageMount.step s.mount a).map fun m =>
    if asked s.mount a = some .unmount then
      storageFilesInvalidate (record { s with mount := m } .ended)
    else { s with mount := m }

/-- A handle is used while its slot holds it, and only while the task is not at work. -/
def onHandle (s : Service) (k : Slot) (f : Handle → Service) : Option Service :=
  if s.mount.pending ≠ .none then none else (s.slots k).map f

def step (root : CStr) (s : Service) : Act → Option Service
  | .openFile dir name mode reply =>
    if s.mount.pending ≠ .none then none
    else some (starkStorageOpen root s dir name mode reply).2.2
  | .read k reply => onHandle s k fun h => (starkStorageRead s h reply).2.2
  | .write k len replies => onHandle s k fun h => (starkStorageWrite s h len replies).2
  | .close k replies => onHandle s k fun h => (starkStorageClose s k h replies).2
  | .discard k => onHandle s k fun h => starkStorageDiscard s k h
  | .task a => taskStep s a

/-- The file system gives out no number that is open. -/
def Vfs (s : Service) : Act → Prop
  | .openFile _ _ _ (.ok fd) => table s.log fd = none
  | _ => True

def start (fitted : Bool) (timing : StorageTiming) (t : ℕ) : Service where
  mount := boot fitted timing t
  slots := fun _ => none
  opens := 0
  log := []

/-- A step of the mount machine that asks for a release ends the period; any other keeps
the generation, and a mounted card mounted. -/
theorem mount_step {m m' : StorageMount.State} {a : StorageMount.Act} (hi : StorageMount.Inv m)
    (h : StorageMount.step m a = some m') :
    (asked m a = some .unmount ∧ m'.ended = m.ended+1) ∨
    (asked m a ≠ some .unmount ∧ m'.ended = m.ended ∧
      m'.core.generation = m.core.generation ∧
      (m.core.state = .mounted → m'.core.state = .mounted)) := by
  obtain ⟨-,c,st,x,hc,rfl⟩ := step_some h
  have hask : asked m a = some st.action := by
    rw [asked, hc]
    rfl
  obtain ⟨input,r,now,hcore,-,-,hwhy⟩ := call_cases hi hc
  have hans := core_answer m.core input r now
  rw [← hcore] at hans
  dsimp only at hans hwhy
  have hstay : c.state = m.core.state → st.action ≠ .unmount →
      c.generation = m.core.generation →
      asked m a ≠ some .unmount ∧ (perform m a c st x).ended = m.ended ∧
      c.generation = m.core.generation ∧ (m.core.state = .mounted → c.state = .mounted) := by
    intro hs hact hg
    refine ⟨by rw [hask]; exact fun h => hact (Option.some.inj h),?_,hg,fun hm => hs.trans hm⟩
    exact if_neg fun hn => hn.2 (hs.trans hn.1)
  cases hans with
  | idle _ _ _ hs ha hg => exact .inr (hstay hs (by decide) hg)
  | tryMount _ _ _ hs ha hg => exact .inr (hstay hs (by decide) hg)
  | probe _ _ hs ha hg => exact .inr (hstay hs (by decide) hg)
  | check _ _ hs ha hg => exact .inr (hstay hs (by decide) hg)
  | found _ hs ha hg =>
    exact .inr ⟨by rw [hask]; exact fun h => (by cases h),if_neg fun hn => hn.2 hs,hg,fun _ => hs⟩
  | missed _ _ _ next hs hn ha hg hr hinput =>
    have hold : m.core.state ≠ .mounted := by
      rcases hinput with hin | ⟨-,he⟩
      · exact (hi.trying (hwhy.pending.1.mpr hin)).1
      · rw [he]
        decide
    exact .inr ⟨by rw [hask]; exact fun h => (by cases h),if_neg fun hn => hold hn.1,hg,
      fun hm => absurd hm hold⟩
  | lost _ _ _ next hs hn ha hg =>
    have hold : m.core.state = .mounted := by
      rcases hn with ⟨-,hin⟩ | ⟨-,-,hm⟩
      · exact hi.probing (hwhy.pending.2.1.mpr hin)
      · exact hm
    have hnew : c.state ≠ .mounted := by
      rcases hn with ⟨hn,-⟩ | ⟨hn,-⟩ <;> rw [hs, hn] <;> decide
    exact .inl ⟨hask,if_pos ⟨hold,hnew⟩⟩

/-- The slots and the log agree: an open number stands for the slot that holds it. -/
structure Sound (log : List (Event ℕ ℕ)) (slots : Slot → Option Handle) (opens : ℕ) : Prop where
  clean : Clean log
  known : ∀ i, since log i ≠ none → i < opens
  table : ∀ n i, table log n = some i ↔
    ∃ k h, slots k = some h ∧ h.file.stale = false ∧ h.file.fd = n ∧ h.id = i
  opened : ∀ k h, slots k = some h → since log h.id ≠ none
  apart : ∀ j k g h, slots j = some g → slots k = some h → g.id = h.id → j = k
  distinct : (live log).Nodup
  live : ∀ i, i ∈ live log ↔ ∃ k h, slots k = some h ∧ h.id = i

section
variable {log : List (Event ℕ ℕ)} {slots : Slot → Option Handle} {opens : ℕ}

theorem sound_start : Sound [] (fun _ => none) 0 where
  clean := trivial
  known := fun i h => absurd rfl h
  table := fun n i => ⟨fun h => (by cases h),fun ⟨k,h,hk,_⟩ => by cases hk⟩
  opened := fun k h hk => by cases hk
  apart := fun j k g h hj => by cases hj
  distinct := List.nodup_nil
  live := fun i => ⟨fun h => (by cases h),fun ⟨k,h,hk,_⟩ => by cases hk⟩

theorem sound_ended (hs : Sound log slots opens) : Sound (.ended::log) slots opens where
  clean := hs.clean
  known := hs.known
  table := hs.table
  opened := hs.opened
  apart := hs.apart
  distinct := hs.distinct
  live := hs.live

theorem sound_used (hs : Sound log slots opens) {k : Slot} {h : Handle} (hk : slots k = some h)
    (hf : h.file.stale = false) (hp : since log h.id = some (period log)) :
    Sound (.used h.id h.file.fd::log) slots opens where
  clean := ⟨(hs.table _ _).mpr ⟨k,h,hk,hf,rfl,rfl⟩,hp,hs.clean⟩
  known := hs.known
  table := hs.table
  opened := hs.opened
  apart := hs.apart
  distinct := hs.distinct
  live := hs.live

theorem update_some {k j : Slot} {v : Option Handle} {g : Handle}
    (h : Function.update slots k v j = some g) : (j = k ∧ v = some g) ∨ (j ≠ k ∧ slots j = some g) := by
  by_cases hj : j = k
  · subst hj
    rw [Function.update_self] at h
    exact .inl ⟨rfl,h⟩
  · rw [Function.update_of_ne hj] at h
    exact .inr ⟨hj,h⟩

theorem sound_opened (hs : Sound log slots opens) {k : Slot} {f : StarkFile} (hk : slots k = none)
    (hn : table log f.fd = none) (hf : f.stale = false) :
    Sound (.opened opens f.fd::log) (Function.update slots k (some ⟨f,opens⟩)) (opens+1) := by
  have hnew : since log opens = none := by
    by_contra hne
    exact absurd (hs.known opens hne) (Nat.lt_irrefl _)
  have hold : ∀ j g, slots j = some g → Function.update slots k (some ⟨f,opens⟩) j = some g := by
    intro j g hj
    rw [Function.update_of_ne fun h => by rw [h, hk] at hj; cases hj]
    exact hj
  have hself : Function.update slots k (some ⟨f,opens⟩) k = some ⟨f,opens⟩ := Function.update_self _ _ _
  have hids : ∀ j g, slots j = some g → g.id ≠ opens := by
    intro j g hj heq
    exact hs.opened j g hj (heq ▸ hnew)
  constructor
  · exact ⟨hnew,hn,hs.clean⟩
  · intro i hi
    by_cases hio : i = opens
    · exact hio ▸ Nat.lt_succ_self _
    · rw [since, if_neg hio] at hi
      exact Nat.lt_succ_of_lt (hs.known i hi)
  · intro n i
    by_cases hnf : n = f.fd
    · subst hnf
      rw [table, if_pos rfl]
      constructor
      · intro h
        exact ⟨k,_,hself,hf,rfl,Option.some.inj h⟩
      · rintro ⟨j,g,hj,hfresh,hfd,rfl⟩
        rcases update_some hj with ⟨-,hg⟩ | ⟨-,hj⟩
        · obtain rfl := Option.some.inj hg
          rfl
        · have := (hs.table f.fd g.id).mpr ⟨j,g,hj,hfresh,hfd,rfl⟩
          rw [hn] at this
          cases this
    · rw [table, if_neg hnf, hs.table]
      constructor
      · rintro ⟨j,g,hj,h⟩
        exact ⟨j,g,hold j g hj,h⟩
      · rintro ⟨j,g,hj,hfresh,hfd,hid⟩
        rcases update_some hj with ⟨-,hg⟩ | ⟨-,hj⟩
        · obtain rfl := Option.some.inj hg
          exact absurd hfd.symm hnf
        · exact ⟨j,g,hj,hfresh,hfd,hid⟩
  · intro j g hj
    rcases update_some hj with ⟨-,hg⟩ | ⟨-,hj⟩
    · obtain rfl := Option.some.inj hg
      simp [since]
    · rw [since, if_neg (hids j g hj)]
      exact hs.opened j g hj
  · intro i j g h hi hj hid
    rcases update_some hi with ⟨rfl,hg⟩ | ⟨-,hi'⟩ <;>
      rcases update_some hj with ⟨rfl,hh⟩ | ⟨-,hj'⟩
    · rfl
    · obtain rfl := Option.some.inj hg
      exact absurd hid.symm (hids j h hj')
    · obtain rfl := Option.some.inj hh
      exact absurd hid (hids i g hi')
    · exact hs.apart i j g h hi' hj' hid
  · refine List.nodup_cons.mpr ⟨fun hmem => ?_,hs.distinct⟩
    obtain ⟨j,g,hj,hid⟩ := (hs.live opens).mp hmem
    exact hids j g hj hid
  · intro i
    show i ∈ opens::live log ↔ _
    rw [List.mem_cons, hs.live]
    constructor
    · rintro (rfl | ⟨j,g,hj,hid⟩)
      · exact ⟨k,_,hself,rfl⟩
      · exact ⟨j,g,hold j g hj,hid⟩
    · rintro ⟨j,g,hj,hid⟩
      rcases update_some hj with ⟨-,hg⟩ | ⟨-,hj⟩
      · obtain rfl := Option.some.inj hg
        exact .inl hid.symm
      · exact .inr ⟨j,g,hj,hid⟩

theorem sound_closed (hs : Sound log slots opens) {k : Slot} {h : Handle} (hk : slots k = some h)
    (hf : h.file.stale = false) :
    Sound (.closed h.id h.file.fd::log)
      (Function.update slots k (some { h with file := { h.file with stale := true } })) opens := by
  have hopen := (hs.table _ _).mpr ⟨k,h,hk,hf,rfl,rfl⟩
  have hself := Function.update_self k (some { h with file := { h.file with stale := true } }) slots
  constructor
  · exact ⟨hopen,hs.clean⟩
  · exact hs.known
  · intro n i
    by_cases hn : n = h.file.fd
    · subst hn
      rw [table, if_pos rfl]
      refine iff_of_false (fun h => by cases h) ?_
      rintro ⟨j,g,hj,hfresh,hfd,rfl⟩
      rcases update_some hj with ⟨-,hg⟩ | ⟨hjk,hj⟩
      · obtain rfl := Option.some.inj hg
        cases hfresh
      · have := (hs.table _ _).mpr ⟨j,g,hj,hfresh,hfd,rfl⟩
        exact hjk (hs.apart j k g h hj hk (Option.some.inj (this.symm.trans hopen)))
    · rw [table, if_neg hn, hs.table]
      constructor
      · rintro ⟨j,g,hj,hfresh,hfd,hid⟩
        refine ⟨j,g,?_,hfresh,hfd,hid⟩
        rw [Function.update_of_ne]
        · exact hj
        · rintro rfl
          obtain rfl := Option.some.inj (hj.symm.trans hk)
          exact hn hfd.symm
      · rintro ⟨j,g,hj,hfresh,hfd,hid⟩
        rcases update_some hj with ⟨-,hg⟩ | ⟨-,hj⟩
        · obtain rfl := Option.some.inj hg
          cases hfresh
        · exact ⟨j,g,hj,hfresh,hfd,hid⟩
  · intro j g hj
    rcases update_some hj with ⟨-,hg⟩ | ⟨-,hj⟩
    · obtain rfl := Option.some.inj hg
      exact hs.opened k h hk
    · exact hs.opened j g hj
  · intro i j a b hi hj hid
    rcases update_some hi with ⟨rfl,hg⟩ | ⟨-,hi'⟩ <;>
      rcases update_some hj with ⟨rfl,hh⟩ | ⟨-,hj'⟩
    · rfl
    · obtain rfl := Option.some.inj hg
      exact hs.apart i j h b hk hj' hid
    · obtain rfl := Option.some.inj hh
      exact hs.apart i j a h hi' hk hid
    · exact hs.apart i j a b hi' hj' hid
  · exact hs.distinct
  · intro i
    show i ∈ live log ↔ _
    rw [hs.live]
    constructor
    · rintro ⟨j,g,hj,hid⟩
      by_cases hjk : j = k
      · subst hjk
        obtain rfl := Option.some.inj (hj.symm.trans hk)
        exact ⟨j,_,hself,hid⟩
      · exact ⟨j,g,by rw [Function.update_of_ne hjk]; exact hj,hid⟩
    · rintro ⟨j,g,hj,hid⟩
      rcases update_some hj with ⟨-,hg⟩ | ⟨-,hj⟩
      · obtain rfl := Option.some.inj hg
        exact ⟨k,h,hk,hid⟩
      · exact ⟨j,g,hj,hid⟩

theorem sound_released (hs : Sound log slots opens) {k : Slot} {h : Handle} (hk : slots k = some h)
    (hf : h.file.stale = true) :
    Sound (.released h.id::log) (Function.update slots k none) opens := by
  have hrest : ∀ j g, Function.update slots k none j = some g ↔ slots j = some g ∧ j ≠ k := by
    intro j g
    constructor
    · intro hj
      rcases update_some hj with ⟨-,hg⟩ | ⟨hjk,hj⟩
      · cases hg
      · exact ⟨hj,hjk⟩
    · rintro ⟨hj,hjk⟩
      rw [Function.update_of_ne hjk]
      exact hj
  constructor
  · exact hs.clean
  · exact hs.known
  · intro n i
    show table log n = some i ↔ _
    rw [hs.table]
    constructor
    · rintro ⟨j,g,hj,hfresh,h⟩
      refine ⟨j,g,(hrest j g).mpr ⟨hj,?_⟩,hfresh,h⟩
      rintro rfl
      obtain rfl := Option.some.inj (hj.symm.trans hk)
      rw [hf] at hfresh
      cases hfresh
    · rintro ⟨j,g,hj,h⟩
      exact ⟨j,g,((hrest j g).mp hj).1,h⟩
  · exact fun j g hj => hs.opened j g ((hrest j g).mp hj).1
  · exact fun i j a b hi hj => hs.apart i j a b ((hrest i a).mp hi).1 ((hrest j b).mp hj).1
  · exact hs.distinct.erase _
  · intro i
    show i ∈ (live log).erase h.id ↔ _
    rw [hs.distinct.mem_erase_iff, hs.live]
    constructor
    · rintro ⟨hne,j,g,hj,hid⟩
      refine ⟨j,g,(hrest j g).mpr ⟨hj,?_⟩,hid⟩
      rintro rfl
      obtain rfl := Option.some.inj (hj.symm.trans hk)
      exact hne hid.symm
    · rintro ⟨j,g,hj,rfl⟩
      obtain ⟨hj,hjk⟩ := (hrest j g).mp hj
      exact ⟨fun hid => hjk (hs.apart j k g h hj hk hid),j,g,hj,rfl⟩

end

/-- What holds between the steps: a handle that is not stale is of the mount at hand. -/
structure Inv (s : Service) : Prop where
  mount : StorageMount.Inv s.mount
  sound : Sound s.log s.slots s.opens
  period : period s.log = s.mount.ended
  current : ∀ k h, s.slots k = some h → h.file.stale = false →
    since s.log h.id = some (Descriptors.period s.log) ∧
      h.file.generation = s.mount.core.generation ∧ s.mount.core.state = .mounted

theorem inv_start (fitted : Bool) (timing : StorageTiming) (t : ℕ) :
    Inv (start fitted timing t) where
  mount := inv_boot fitted timing t
  sound := sound_start
  period := rfl
  current := fun k h hk => by cases hk

theorem usable_ok {s : Service} {f : StarkFile} (h : usable s f = .ok) : f.stale = false := by
  unfold usable at h
  split at h
  · cases h
  · rename_i hu
    simp only [Bool.or_eq_true, not_or, Bool.not_eq_true] at hu
    exact hu.1.1

theorem usable_stale {s : Service} {f : StarkFile} (h : f.stale = true) : usable s f = .io := by
  simp [usable, h]

/-- A handle found unusable is stale. -/
theorem Inv.stale {s : Service} (hi : Inv s) {k : Slot} {h : Handle} (hk : s.slots k = some h)
    (hu : usable s h.file ≠ .ok) : h.file.stale = true := by
  rw [← Bool.not_eq_false]
  intro hf
  obtain ⟨-,hg,hm⟩ := hi.current k h hk hf
  apply hu
  simp [usable, hf, mounted, hm, hg]

theorem inv_use {s : Service} (hi : Inv s) {k : Slot} {h : Handle} (hk : s.slots k = some h)
    (hf : h.file.stale = false) : Inv (use s h) where
  mount := hi.mount
  sound := sound_used hi.sound hk hf (hi.current k h hk hf).1
  period := hi.period
  current := hi.current

theorem inv_release {s : Service} (hi : Inv s) {k : Slot} {h : Handle} (hk : s.slots k = some h)
    (hf : h.file.stale = true) : Inv (release s k h) where
  mount := hi.mount
  sound := sound_released hi.sound hk hf
  period := hi.period
  current := by
    intro j g hj
    rcases update_some hj with ⟨-,hg⟩ | ⟨-,hj⟩
    · cases hg
    · exact hi.current j g hj

def stalled (h : Handle) : Handle := { h with file := { h.file with stale := true } }

theorem inv_invalidated {s : Service} (hi : Inv s) {k : Slot} {h : Handle} (hk : s.slots k = some h)
    (hf : h.file.stale = false) : Inv (setSlot (shut s h) k (some (stalled h))) where
  mount := hi.mount
  sound := sound_closed hi.sound hk hf
  period := hi.period
  current := by
    intro j g hj hfresh
    rcases update_some hj with ⟨-,hg⟩ | ⟨-,hj⟩
    · obtain rfl := Option.some.inj hg
      cases hfresh
    · exact hi.current j g hj hfresh

theorem inv_shut {s : Service} (hi : Inv s) {k : Slot} {h : Handle} (hk : s.slots k = some h)
    (hf : h.file.stale = false) : Inv (release (shut s h) k h) := by
  have hstep := inv_invalidated hi hk hf
  have hself : (setSlot (shut s h) k (some (stalled h))).slots k = some (stalled h) :=
    Function.update_self _ _ _
  have hrel := inv_release hstep hself rfl
  have heq : release (setSlot (shut s h) k (some (stalled h))) k (stalled h) =
      release (shut s h) k h := by
    simp [release, setSlot, record, stalled, Function.update_idem]
  exact heq ▸ hrel

theorem inv_open {root : CStr} {s : Service} (hi : Inv s) (dir : StarkDir) (name : CStr)
    (mode : StarkFileMode) (reply : Reply) (hv : Vfs s (.openFile dir name mode reply)) :
    Inv (starkStorageOpen root s dir name mode reply).2.2 := by
  unfold starkStorageOpen
  split
  · exact hi
  · exact hi
  split
  · exact hi
  rename_i hm
  split
  · exact hi
  rename_i k hk
  split
  · exact hi
  rename_i fd
  have hfree : s.slots k = none := by
    have := List.find?_some hk
    exact Option.isNone_iff_eq_none.mp this
  have hmounted : s.mount.core.state = .mounted := by
    simpa [mounted] using hm
  constructor
  · exact hi.mount
  · exact sound_opened (f := ⟨false,fd,s.mount.core.generation,mode,_,_⟩) hi.sound hfree hv rfl
  · exact hi.period
  · intro j g hj hfresh
    rcases update_some hj with ⟨-,hg⟩ | ⟨-,hj⟩
    · obtain rfl := Option.some.inj hg
      exact ⟨if_pos rfl,rfl,hmounted⟩
    · obtain ⟨hs,hg,hst⟩ := hi.current j g hj hfresh
      have hne : g.id ≠ s.opens := Nat.ne_of_lt (hi.sound.known g.id (by rw [hs]; simp))
      exact ⟨(if_neg hne).trans hs,hg,hst⟩

theorem writeLoop_inv {k : Slot} {h : Handle} (hf : h.file.stale = false) (rounds : ℕ) :
    ∀ (len : ℕ) (replies : ℕ → Reply) (s : Service), Inv s → s.slots k = some h →
      Inv (writeLoop h rounds len replies s).2 := by
  induction rounds with
  | zero =>
    intro len replies s hi hk
    cases len <;> exact hi
  | succ rounds ih =>
    intro len replies s hi hk
    cases len with
    | zero => exact hi
    | succ len =>
      rw [writeLoop]
      split
      · exact inv_use hi hk hf
      · split
        · exact inv_use hi hk hf
        · exact ih _ _ _ (inv_use hi hk hf) hk

structure Invalidated (s t : Service) (ks : List Slot) : Prop where
  mount : t.mount = s.mount
  sound : Sound t.log t.slots t.opens
  period : period t.log = period s.log
  stale : ∀ k ∈ ks, ∀ h, t.slots k = some h → h.file.stale = true
  kept : ∀ k, (∀ h, s.slots k = some h → h.file.stale = true) → t.slots k = s.slots k

theorem invalidateOne_spec {s : Service} (hs : Sound s.log s.slots s.opens) (k : Slot) :
    Invalidated s (invalidateOne s k) [k] := by
  unfold invalidateOne
  split
  · rename_i hk
    refine ⟨rfl,hs,rfl,fun j hj h hh => ?_,fun _ _ => rfl⟩
    rw [List.mem_singleton.mp hj, hk] at hh
    cases hh
  · rename_i h hk
    split
    · rename_i hst
      refine ⟨rfl,hs,rfl,fun j hj g hg => ?_,fun _ _ => rfl⟩
      rw [List.mem_singleton.mp hj, hk] at hg
      exact Option.some.inj hg ▸ hst
    · rename_i hst
      refine ⟨rfl,sound_closed hs hk (Bool.eq_false_iff.mpr hst),rfl,fun j hj g hg => ?_,
        fun j hj => ?_⟩
      · rcases update_some hg with ⟨-,hg⟩ | ⟨hjk,-⟩
        · obtain rfl := Option.some.inj hg
          rfl
        · exact absurd (List.mem_singleton.mp hj) hjk
      · have hjk : j ≠ k := by
          rintro rfl
          exact hst (hj h hk)
        exact Function.update_of_ne hjk _ _

theorem invalidate_spec (ks : List Slot) {s : Service} (hs : Sound s.log s.slots s.opens) :
    Invalidated s (ks.foldl invalidateOne s) ks := by
  induction ks generalizing s with
  | nil => exact ⟨rfl,hs,rfl,fun k hk => (by cases hk),fun _ _ => rfl⟩
  | cons k ks ih =>
    have h1 := invalidateOne_spec hs k
    have h2 := ih h1.sound
    refine ⟨h2.mount.trans h1.mount,h2.sound,h2.period.trans h1.period,fun j hj h hh => ?_,
      fun j hj => ?_⟩
    · rcases List.mem_cons.mp hj with rfl | hj
      · have hst := h1.stale j (List.mem_singleton_self j)
        exact hst h ((h2.kept j hst).symm.trans hh)
      · exact h2.stale j hj h hh
    · have hsame := h1.kept j hj
      exact (h2.kept j (fun h hh => hj h (hsame.symm.trans hh))).trans hsame

theorem inv_task {s t : Service} {a : StorageMount.Act} (hi : Inv s) (h : taskStep s a = some t) :
    Inv t := by
  obtain ⟨m,hm,rfl⟩ := Option.map_eq_some_iff.mp h
  have him := inv_step s.mount a m hi.mount hm
  rcases mount_step hi.mount hm with ⟨hask,hend⟩ | ⟨hask,hend,hgen,hcard⟩
  · rw [if_pos hask]
    have hspec := invalidate_spec (List.finRange 4) (s := record { s with mount := m } .ended)
      (sound_ended hi.sound)
    constructor
    · exact hspec.mount ▸ him
    · exact hspec.sound
    · refine hspec.period.trans ?_
      show period s.log+1 = _
      rw [hi.period, ← hend]
      exact congrArg StorageMount.State.ended hspec.mount.symm
    · intro k g hk hf
      rw [hspec.stale k (List.mem_finRange k) g hk] at hf
      cases hf
  · rw [if_neg hask]
    refine ⟨him,hi.sound,hi.period.trans hend.symm,fun k g hk hf => ?_⟩
    obtain ⟨hs,hg,hst⟩ := hi.current k g hk hf
    exact ⟨hs,hg.trans hgen.symm,hcard hst⟩

theorem on_handle {s t : Service} {k : Slot} {f : Handle → Service}
    (h : onHandle s k f = some t) : ∃ g, s.slots k = some g ∧ t = f g := by
  unfold onHandle at h
  split at h
  · cases h
  · obtain ⟨g,hg,rfl⟩ := Option.map_eq_some_iff.mp h
    exact ⟨g,hg,rfl⟩

theorem inv_read {s : Service} (hi : Inv s) {k : Slot} {h : Handle} (hk : s.slots k = some h)
    (reply : Reply) : Inv (starkStorageRead s h reply).2.2 := by
  unfold starkStorageRead
  split
  · rename_i hu
    split
    · exact hi
    · split <;> exact inv_use hi hk (usable_ok hu)
  · exact hi

theorem inv_write {s : Service} (hi : Inv s) {k : Slot} {h : Handle} (hk : s.slots k = some h)
    (len : ℕ) (replies : ℕ → Reply) : Inv (starkStorageWrite s h len replies).2 := by
  unfold starkStorageWrite
  split
  · rename_i hu
    split
    · exact hi
    · exact writeLoop_inv (usable_ok hu) _ _ _ _ hi hk
  · exact hi

theorem inv_close {s : Service} (hi : Inv s) {k : Slot} {h : Handle} (hk : s.slots k = some h)
    (r : CloseReplies) : Inv (starkStorageClose s k h r).2 := by
  unfold starkStorageClose
  split
  · rename_i hu
    dsimp only
    split
    · exact inv_shut (inv_use hi hk (usable_ok hu)) hk (usable_ok hu)
    · exact inv_shut hi hk (usable_ok hu)
  · rename_i hu
    exact inv_release hi hk (hi.stale hk hu)

theorem inv_discard {s : Service} (hi : Inv s) {k : Slot} {h : Handle} (hk : s.slots k = some h) :
    Inv (starkStorageDiscard s k h) := by
  unfold starkStorageDiscard
  split
  · rename_i hu
    exact inv_shut hi hk (usable_ok hu)
  · rename_i hu
    exact inv_release hi hk (hi.stale hk hu)

theorem inv_act {root : CStr} (s : Service) (a : Act) (t : Service) (hi : Inv s) (hv : Vfs s a)
    (h : step root s a = some t) : Inv t := by
  cases a with
  | openFile dir name mode reply =>
    simp only [step, Option.ite_none_left_eq_some] at h
    obtain ⟨-,h⟩ := h
    obtain rfl := Option.some.inj h
    exact inv_open hi dir name mode reply hv
  | read k reply =>
    obtain ⟨g,hg,rfl⟩ := on_handle h
    exact inv_read hi hg reply
  | write k len replies =>
    obtain ⟨g,hg,rfl⟩ := on_handle h
    exact inv_write hi hg len replies
  | close k replies =>
    obtain ⟨g,hg,rfl⟩ := on_handle h
    exact inv_close hi hg replies
  | discard k =>
    obtain ⟨g,hg,rfl⟩ := on_handle h
    exact inv_discard hi hg
  | task a => exact inv_task hi h

theorem close_frees (s : Service) (k : Slot) (h : Handle) (r : CloseReplies) :
    (starkStorageClose s k h r).2.slots k = none := by
  unfold starkStorageClose
  split
  · exact Function.update_self _ _ _
  · exact Function.update_self _ _ _

theorem discard_frees (s : Service) (k : Slot) (h : Handle) :
    (starkStorageDiscard s k h).slots k = none := by
  unfold starkStorageDiscard
  split
  · exact Function.update_self _ _ _
  · exact Function.update_self _ _ _

theorem live_length {log : List (Event ℕ ℕ)} {slots : Slot → Option Handle} {opens : ℕ}
    (hs : Sound log slots opens) : (live log).length ≤ 4 := by
  have hsub : live log ⊆ (List.finRange 4).filterMap fun k => (slots k).map Handle.id := by
    intro i hi
    obtain ⟨k,h,hk,hid⟩ := (hs.live i).mp hi
    exact List.mem_filterMap.mpr ⟨k,List.mem_finRange k,by rw [hk]; exact congrArg some hid⟩
  calc (live log).length
    _ ≤ ((List.finRange 4).filterMap fun k => (slots k).map Handle.id).length :=
        (hs.distinct.subperm hsub).length_le
    _ ≤ (List.finRange 4).length := List.length_filterMap_le _ _
    _ = 4 := List.length_finRange

/-- In every run, each descriptor is used only while it is open and of the mount at hand
and is closed once, when its handle is given up or its mount ends; a handle of an earlier
mount only fails; and the slots do not run out of reach. -/
theorem handles_across_removal (fitted : Bool) (timing : StorageTiming) (t0 : ℕ) (root : CStr)
    (as : List Act) (s : Service) (hs : Run (step root) Vfs (start fitted timing t0) as s) :
    Clean s.log ∧ period s.log = s.mount.ended ∧
    (∀ i, since s.log i ≠ none →
      (closes s.log i = 0 ∧ i ∈ live s.log ∧ since s.log i = some (period s.log)) ∨
      (closes s.log i = 1 ∧ ∀ n, table s.log n ≠ some i)) ∧
    (∀ k h, s.slots k = some h → since s.log h.id ≠ some (period s.log) →
      (∀ reply, (starkStorageRead s h reply).1 = .io ∧ (starkStorageRead s h reply).2.2 = s) ∧
      ∀ len replies, (starkStorageWrite s h len replies).1 = .io ∧
        (starkStorageWrite s h len replies).2 = s) ∧
    (live s.log).length ≤ 4 ∧
    (∀ k h, s.slots k = some h → h.id ∈ live s.log ∧
      (∀ r, (starkStorageClose s k h r).2.slots k = none) ∧
      (starkStorageDiscard s k h).slots k = none) := by
  have hi := run_invariant Inv (fun s a t hi hv h => inv_act s a t hi hv h) as
    (inv_start fitted timing t0) hs
  refine ⟨hi.sound.clean,hi.period,?_,?_,live_length hi.sound,?_⟩
  · intro i hsince
    rcases closed_once hi.sound.clean hsince with ⟨hc,n,hn⟩ | hc
    · obtain ⟨k,h,hk,hf,-,rfl⟩ := (hi.sound.table n i).mp hn
      exact .inl ⟨hc,(hi.sound.live _).mpr ⟨k,h,hk,rfl⟩,(hi.current k h hk hf).1⟩
    · exact .inr hc
  · intro k h hk hold
    have hst : h.file.stale = true := by
      rw [← Bool.not_eq_false]
      exact fun hf => hold (hi.current k h hk hf).1
    have hu := usable_stale (s := s) hst
    constructor
    · intro reply
      unfold starkStorageRead
      rw [hu]
      exact ⟨rfl,rfl⟩
    · intro len replies
      unfold starkStorageWrite
      rw [hu]
      exact ⟨rfl,rfl⟩
  · intro k h hk
    exact ⟨(hi.sound.live _).mpr ⟨k,h,hk,rfl⟩,close_frees s k h,discard_frees s k h⟩

def firstSlot : Slot := ⟨0,by decide⟩

/-- A file is open when the card goes; its number is given out again after the next mount. -/
def pulled : List Act :=
  [.task (.feed .tick 0),.task (.answer .ok 0),
    .openFile .captures "a".toList .append (.ok 3),
    .task (.feed .tick 1000),.task (.answer .io 1000),
    .task (.feed .reqMount 1000),.task (.answer .ok 1000),
    .openFile .captures "b".toList .read (.ok 3),.write firstSlot 4 (fun _ => .ok 4)]

theorem handles_across_removal_pulled : ∃ s,
    Run (step "/sd".toList) Vfs (start true benchTiming 0) pulled s ∧
      table s.log 3 = some 1 ∧ closes s.log 0 = 1 ∧ (live s.log).length ≤ 4 := by
  have hrun : Run (step "/sd".toList) Vfs (start true benchTiming 0) pulled _ :=
    ⟨trivial,_,rfl,trivial,_,rfl,rfl,_,rfl,trivial,_,rfl,trivial,_,rfl,trivial,_,rfl,trivial,_,rfl,
      rfl,_,rfl,trivial,_,rfl,rfl⟩
  have h := handles_across_removal true benchTiming 0 _ pulled _ hrun
  refine ⟨_,hrun,rfl,?_,h.2.2.2.2.1⟩
  have hclosed := (h.2.2.1 0 (by decide)).resolve_left fun hopen => absurd hopen.2.2 (by decide)
  exact hclosed.1

end StarkOne.StorageHandles
