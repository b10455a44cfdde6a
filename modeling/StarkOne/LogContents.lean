import StarkOne.LogSize
import StarkOne.Machine

/-!
# The log over many flushes

Flushes of what the ring hands over, mounts, and what other components do. When
no call fails, the files are a rotating log of the bytes flushed. Whatever
fails, a size that the writer regards as known is that of the file, as long as
the listings it was read from had the file in them. Names are compared exactly,
though FATFS does not tell upper from lower case: the log directory is this
writer's alone, and its names are all in lower case.
-/

set_option autoImplicit false

namespace StarkOne.LogContents
open StarkOne.Machine StarkOne.InodeDisk StarkOne.StoragePath StarkOne.StorageIo
  StarkOne.StorageFile StarkOne.StorageWriting StarkOne.StorageWriters StarkOne.StorageLog
  StarkOne.LogFiles StarkOne.LogSize StarkOne.RotatingLog
open StarkOne.LogRotation hiding State start step

/-- What a flush takes from the ring, which ends with a take that gives nothing. -/
def taken : List Taken → List Taken
  | [] => []
  | t::ts => if t.bytes = [] then [] else t::taken ts

def written (o : ℕ → Outcome) : List Taken → LogWriter → Files → List Taken
  | [], _, _ => []
  | t::ts, w, s =>
    if t.bytes = [] then []
    else match flushRound o t w s with
      | (.ok,w,s) => t::written o ts w s
      | _ => []

structure State where
  w : LogWriter
  s : Files
  flushed : List (List UInt8)

def start (limit : UInt32) (files : ℕ) (s : Files) : State := ⟨storageLogInit limit files,s,[]⟩

inductive Act where
  | flush (ts : List Taken)
  | mount (s : Files)
  | others (s : Files)

def step (o : ℕ → Outcome) (st : State) : Act → Option State
  | .flush ts =>
    let r := storageLogFlush o ts st.w st.s
    some ⟨r.2.2.1,r.2.2.2,st.flushed++(written o ts st.w st.s).map Taken.bytes⟩
  | .mount s => some { st with w := storageLogOnMount st.w, s := s }
  | .others s => some { st with s := s }

def logNames (s : Files) : List CStr := s.io.disk.dir.keys.filterMap (nameIn (logsPath s.root))

structure SameLogs (s t : Files) : Prop where
  root : t.root = s.root
  content : ∀ p, nameIn (logsPath s.root) p ≠ none → t.io.disk.content p = s.io.disk.content p

def Fits (ts : List Taken) : Prop := ∀ t ∈ ts, t.chunk.length ≤ 1024

def Alone (st : State) : Act → Prop
  | .flush ts => Fits ts
  | .mount s => SameLogs st.s s
  | .others s => SameLogs st.s s

structure Tidy (limit : UInt32) (files : ℕ) (flushed : List (List UInt8)) (s : Files) : Prop where
  text : oldestFirst (fun k => (s.io.disk.content (logPath s.root k)).getD []) files <:+
    flushed.flatten
  names : ∀ name ∈ logNames s, ∃ k < files, name = logRotateName k 24
  count : (logNames s).length ≤ files
  sizes : ∀ k < files, ∀ bytes, s.io.disk.content (logPath s.root k) = some bytes →
    bytes.length ≤ limit.toNat ∨ bytes ∈ flushed

structure Stored (s : Files) (l : Log UInt8) : Prop where
  current : s.io.disk.content (logPath s.root 0) = if l.current = [] then none else some l.current
  older : ∀ k, k+1 < 8 → s.io.disk.content (logPath s.root (k+1)) = l.older[k]?
  only : ∀ p, nameIn (logsPath s.root) p ≠ none → s.io.disk.content p ≠ none →
    ∃ k < 8, p = logPath s.root k

theorem Stored.logBytes {s : Files} {l : Log UInt8} (h : Stored s l) : logBytes s = l.current := by
  unfold LogSize.logBytes
  rw [h.current]
  split
  · rename_i hnil
    exact hnil.symm
  · rfl

theorem Stored.file {s : Files} {l : Log UInt8} (h : Stored s l) {k : ℕ} (hk : k < 8) :
    (s.io.disk.content (logPath s.root k)).getD [] = l.file k := by
  cases k with
  | zero => exact h.logBytes
  | succ k =>
    rw [h.older k hk]
    rfl

theorem Stored.rotate {s t : Files} {l : Log UInt8} (h : Stored s l) {n : ℕ}
    (hroot : t.root = s.root) (hdata : t.io.disk.data = s.io.disk.data) (hmoved : Moved n s t)
    (hne : l.current ≠ []) (hcount : l.older.length ≤ n) : Stored t (l.rotate n) := by
  refine ⟨?_,fun k hk => ?_,fun p hp hthere => ?_⟩
  · rw [hroot]
    have := hmoved.slots 0 (by decide)
    rw [if_neg (Nat.not_lt_zero n), if_pos rfl] at this
    exact Disk.content_none _ _ this
  · rw [hroot]
    have hslot := hmoved.slots (k+1) hk
    show _ = ((l.current::l.older).take n)[k]?
    by_cases hkn : n < k+1
    · rw [if_pos hkn] at hslot
      rw [content_slot hdata hslot, h.older k hk, List.getElem?_eq_none (by omega),
        List.getElem?_eq_none ((List.length_take_le _ _).trans (by omega))]
    · rw [if_neg hkn, if_neg (Nat.succ_ne_zero k), Nat.add_sub_cancel] at hslot
      rw [content_slot hdata hslot, List.getElem?_take_of_lt (by omega)]
      cases k with
      | zero => rw [h.current, if_neg hne]; rfl
      | succ k => exact h.older k (by omega)
  · rw [hroot] at hp ⊢
    by_contra hno
    have helse := hmoved.elsewhere p fun k hk hpk => hno ⟨k,hk,hpk⟩
    refine hno (h.only p hp ?_)
    unfold Disk.content at hthere ⊢
    rwa [hdata, helse] at hthere

theorem Stored.append {s t : Files} {l : Log UInt8} (h : Stored s l) {bytes : List UInt8}
    (happ : Appended s t bytes) (hne : bytes ≠ []) : Stored t (l.append bytes) := by
  refine ⟨?_,fun k hk => ?_,fun p hp hthere => ?_⟩
  · have hlog := h.logBytes
    unfold LogSize.logBytes at hlog
    rw [happ.root, happ.log, hlog, if_neg]
    · rfl
    · exact fun hnil => hne (List.append_eq_nil_iff.mp hnil).2
  · rw [happ.root, happ.others _ fun hp => (by cases path_injective s.root hk (by decide) hp)]
    exact h.older k hk
  · rw [happ.root] at hp ⊢
    by_cases hlog : p = logPath s.root 0
    · exact ⟨0,by decide,hlog⟩
    · rw [happ.others p hlog] at hthere
      exact h.only p hp hthere

theorem Stored.same {s t : Files} {l : Log UInt8} (h : Stored s l) (hroot : t.root = s.root)
    (hdisk : t.io.disk = s.io.disk) : Stored t l := by
  refine ⟨?_,?_,?_⟩ <;> rw [hroot, hdisk]
  · exact h.current
  · exact h.older
  · exact h.only

/-- The writer and the card agree on the log. -/
structure Sound (limit : UInt32) (flushed : List (List UInt8)) (w : LogWriter) (s : Files)
    (l : Log UInt8) : Prop where
  stored : Stored s l
  bounded : Bounded limit.toNat (w.files-1) flushed l
  lengths : ∀ bytes ∈ flushed, bytes.length < 2^11
  exact : Exact w s
  limit : w.limit = limit
  files : 1 ≤ w.files ∧ w.files ≤ 8
  fits : s.root.length+25 < storagePathMax

section
variable {o : ℕ → Outcome} {limit : UInt32} {flushed : List (List UInt8)} {w : LogWriter}
  {s : Files} {l : Log UInt8}

theorem Sound.size (h : Sound limit flushed w s l) (hk : w.sizeKnown = true) :
    w.size.toNat = l.current.length := by
  have hlimit := UInt32.toNat_lt limit
  have hsmall : l.current.length < 2^32 := by
    rcases h.bounded.current with hle | hmem
    · omega
    · have := h.lengths _ hmem
      omega
  rw [h.exact hk, h.stored.logBytes]
  exact UInt32.toNat_ofNat_of_lt hsmall

theorem bytes_length {t : Taken} (h : t.chunk.length ≤ 1024) : t.bytes.length < 2^11 := by
  have hmarker : (dropMarker t.dropped).length ≤ 47 := by
    unfold dropMarker
    split
    · exact Nat.zero_le _
    · rw [List.length_map]
      exact List.length_take_le _ _
  unfold Taken.bytes
  rw [List.length_append]
  omega

theorem plan_due (h : Sound limit flushed w s l) (hk : w.sizeKnown = true) {t : Taken}
    (ht : t.chunk.length ≤ 1024) : plan w t.add ≠ [] ↔ l.Due limit.toNat t.bytes.length := by
  obtain ⟨hlow,hhigh⟩ := h.files
  have hsize := h.size hk
  have hadd : t.add.toNat = t.bytes.length := by
    rw [add_bytes]
    exact UInt32.toNat_ofNat_of_lt (Nat.lt_trans (bytes_length ht) (by decide))
  have hzero : w.size = 0 ↔ l.current = [] := by
    rw [← UInt32.toNat_inj, hsize]
    exact List.length_eq_zero_iff
  have hmax : logRotateMaxFiles = 8 := rfl
  unfold plan logRotatePlan Log.Due
  rw [hsize, hadd, h.limit]
  constructor
  · intro hplan
    have hnot : ¬(w.size = 0 ∨ l.current.length+t.bytes.length ≤ limit.toNat ∨ w.files = 0 ∨
        logRotateMaxFiles < w.files) := fun hc => hplan (if_pos hc)
    exact ⟨fun hc => hnot (.inl (hzero.mpr hc)),Nat.lt_of_not_le fun hc => hnot (.inr (.inl hc))⟩
  · rintro ⟨hne,hlt⟩
    rw [if_neg]
    · exact List.cons_ne_nil _ _
    · rintro (hc | hc | hc | hc)
      · exact hne (hzero.mp hc)
      · omega
      · omega
      · omega

theorem Sound.rotated (ho : Unfailing o) (h : Sound limit flushed w s l) (hk : w.sizeKnown = true)
    {t : Taken} (ht : t.chunk.length ≤ 1024) {r : Bool × LogWriter × Files}
    (hr : Rotated o t.add w s r) : ∃ l', Sound limit flushed r.2.1 r.2.2 l' ∧
      (r.2.2.mounted = true → ¬l'.Due limit.toNat t.bytes.length) ∧ SameTable s r.2.2 := by
  obtain ⟨hexact,hfiles,-⟩ := rotated_exact h.exact hr
  have hdue := plan_due h hk ht
  cases hr with
  | idle hplan =>
    exact ⟨l,h,fun _ hd => hdue.mpr hd hplan,⟨rfl,rfl,rfl,rfl⟩⟩
  | done u hplan htable hdata hmoved =>
    obtain ⟨hne,-⟩ := hdue.mp hplan
    refine ⟨l.rotate (w.files-1),⟨?_,h.bounded.rotate hne,h.lengths,hexact,h.limit,h.files,?_⟩,
      fun _ hd => hd.1 rfl,htable⟩
    · exact h.stored.rotate htable.root hdata hmoved hne h.bounded.count
    · rw [htable.root]
      exact h.fits
  | stuck u hplan htable hsame hwhy =>
    have hfits := h.fits
    obtain ⟨hm,hdisk⟩ := hwhy ho (by omega)
    refine ⟨l,⟨h.stored.same htable.root hdisk,h.bounded,h.lengths,hexact,h.limit,h.files,?_⟩,
      fun hm' => ?_,htable⟩
    · rw [htable.root]
      exact h.fits
    · have := htable.mounted.symm.trans hm'
      rw [hm] at this
      cases this

theorem Sound.appended (ho : Unfailing o) (h : Sound limit flushed w s l)
    (hk : w.sizeKnown = true) {t : Taken} (ht : t.chunk.length ≤ 1024) (hne : t.bytes ≠ [])
    (hroom : s.mounted = true → ¬l.Due limit.toNat t.bytes.length) :
    ((appended o t w s).1 = .ok → Sound limit (flushed++[t.bytes]) (appended o t w s).2.1
        (appended o t w s).2.2 (l.append t.bytes) ∧ Appended s (appended o t w s).2.2 t.bytes) ∧
    ((appended o t w s).1 ≠ .ok →
      Sound limit flushed (appended o t w s).2.1 (appended o t w s).2.2 l) := by
  obtain ⟨hexact,hfiles,-⟩ := appended_exact (o := o) (t := t) h.exact hk
  obtain ⟨hrefused,-⟩ := append_unfailing ho (dropMarker t.dropped) t.chunk s
  unfold StorageLog.appended at hexact ⊢
  split
  · rename_i u hu
    rw [hu] at hexact
    have happ := append_appended hu
    refine ⟨fun _ => ⟨⟨h.stored.append happ hne,h.bounded.append (hroom happ.volume),?_,hexact,
      h.limit,h.files,?_⟩,happ⟩,fun hno => absurd rfl hno⟩
    · intro bytes hb
      rcases List.mem_append.mp hb with hb | hb
      · exact h.lengths bytes hb
      · rw [List.mem_singleton.mp hb]
        exact bytes_length ht
    · rw [happ.root]
      exact h.fits
  · rename_i err u hne' hu
    rw [hu] at hrefused
    have hu' : u = s := hrefused hne'
    subst hu'
    refine ⟨fun hok => absurd hok hne',fun _ => ⟨h.stored,h.bounded,h.lengths,?_,h.limit,h.files,
      h.fits⟩⟩
    exact fun hk' => by cases hk'

theorem nameIn_join (dir : CStr) {name : CStr} (h : '/' ∉ name) :
    nameIn dir (dir++ '/'::name) = some name := by
  unfold nameIn
  have hsplit : dir++ '/'::name = (dir++['/'])++name := by
    rw [List.append_assoc]
    rfl
  dsimp only
  rw [hsplit, List.drop_left, if_pos]
  rw [Bool.and_eq_true]
  exact ⟨List.isPrefixOf_iff_prefix.mpr (List.prefix_append _ _),by simpa using h⟩

theorem nameIn_log (root : CStr) {k : ℕ} (hk : k < 8) :
    nameIn (logsPath root) (logPath root k) = some (logRotateName k 24) := by
  have hslash : ∀ k < 8, '/' ∉ logRotateName k 24 := by decide +kernel
  exact nameIn_join (logsPath root) (hslash k hk)

theorem content_mem {d : Card} {p : CStr} : p ∈ d.dir.keys ↔ d.content p ≠ none := by
  unfold Disk.content Disk.inode
  rw [← AList.mem_keys, ← AList.lookup_isSome]
  cases d.dir.lookup p <;> simp

theorem unfailing_listed (ho : Unfailing o) (s : Files) : Listed o s := by
  intro names _ hnames hthere
  obtain ⟨m,-,hm⟩ := ho s.io.calls
  unfold ioList at hnames
  rw [hm] at hnames
  obtain rfl := Except.ok.inj hnames
  refine List.mem_filterMap.mpr ⟨logPath s.root 0,content_mem.mpr hthere,?_⟩
  rw [nameIn_log s.root (by decide), log_name]

theorem bytes_nil (t : Taken) : t.bytes = [] ↔ t.chunk = [] ∧ dropMarker t.dropped = [] := by
  unfold Taken.bytes
  rw [List.append_eq_nil_iff, and_comm]

theorem Sound.round (ho : Unfailing o) (h : Sound limit flushed w s l) {t : Taken}
    (ht : t.chunk.length ≤ 1024) (hne : t.bytes ≠ []) : ∃ l',
    ((flushRound o t w s).1 = .ok → Sound limit (flushed++[t.bytes]) (flushRound o t w s).2.1
      (flushRound o t w s).2.2 l') ∧
    ((flushRound o t w s).1 ≠ .ok →
      Sound limit flushed (flushRound o t w s).2.1 (flushRound o t w s).2.2 l') := by
  have htrue := unfailing_truthful ho
  by_cases hok : (readSize o w s).1 = .ok
  · obtain ⟨w',u,hr⟩ : ∃ w' u, readSize o w s = (.ok,w',u) := ⟨_,_,Prod.ext hok rfl⟩
    rw [flushRound_read hr]
    obtain ⟨hsame,hk,hsize,hw⟩ := readSize_exact htrue h.exact (fun _ => unfailing_listed ho s) hr
    have hfiles : w'.files = w.files := by rw [hw]
    have hread : Sound limit flushed w' u l := by
      refine ⟨h.stored.same hsame.table.root hsame.disk,?_,h.lengths,fun _ => ?_,?_,?_,?_⟩
      · rw [hfiles]
        exact h.bounded
      · rw [hsize, hsame.logBytes]
      · rw [hw]
        exact h.limit
      · rw [hfiles]
        exact h.files
      · rw [hsame.table.root]
        exact h.fits
    have hrot := rotate_rotated htrue t.add u hread.files
    obtain ⟨l',hsound,hroom,-⟩ := hread.rotated ho hk ht hrot
    obtain ⟨-,-,hknown⟩ := rotated_exact hread.exact hrot
    obtain ⟨hwrote,hrefused⟩ := hsound.appended ho (hknown.trans hk) ht hne hroom
    by_cases hdone : (StorageLog.appended o t (StorageLog.rotate o t.add w' u).2.1
        (StorageLog.rotate o t.add w' u).2.2).1 = .ok
    · exact ⟨l'.append t.bytes,fun _ => (hwrote hdone).1,fun hno => absurd hdone hno⟩
    · exact ⟨l',fun hyes => absurd hyes hdone,hrefused⟩
  · obtain ⟨hw,hk,hsame⟩ := readSize_failed hok
    rw [flushRound_unread hok]
    refine ⟨l,fun hyes => absurd hyes hok,fun _ => ⟨h.stored.same hsame.table.root hsame.disk,
      ?_,h.lengths,fun hk' => ?_,?_,?_,?_⟩⟩
    · rw [hw]
      exact h.bounded
    · rw [hw, hk] at hk'
      cases hk'
    · rw [hw]
      exact h.limit
    · rw [hw]
      exact h.files
    · rw [hsame.table.root]
      exact h.fits

theorem Sound.flush (ho : Unfailing o) (ts : List Taken) (hfits : Fits ts)
    (h : Sound limit flushed w s l) : ∃ l',
    Sound limit (flushed++(written o ts w s).map Taken.bytes) (storageLogFlush o ts w s).2.2.1
      (storageLogFlush o ts w s).2.2.2 l' := by
  induction ts generalizing w s l flushed with
  | nil =>
    refine ⟨l,?_⟩
    rw [written, List.map_nil, List.append_nil]
    exact h
  | cons t ts ih =>
    unfold written storageLogFlush
    by_cases hnil : t.bytes = []
    · refine ⟨l,?_⟩
      rw [if_pos hnil, if_pos ((bytes_nil t).mp hnil), List.map_nil, List.append_nil]
      exact h
    rw [if_neg hnil, if_neg fun hc => hnil ((bytes_nil t).mpr hc)]
    obtain ⟨l',hok,hrefused⟩ := h.round ho (hfits t List.mem_cons_self) hnil
    generalize flushRound o t w s = r at hok hrefused ⊢
    split
    · rename_i w' u
      obtain ⟨l'',hrest⟩ := ih (fun t ht => hfits t (List.mem_cons_of_mem _ ht)) (hok rfl)
      rw [List.append_assoc] at hrest
      exact ⟨l'',hrest⟩
    · rename_i hne
      obtain ⟨err,w',u⟩ := r
      have herr : err ≠ .ok := fun h => hne w' u (by rw [h])
      refine ⟨l',?_⟩
      rw [List.map_nil, List.append_nil]
      split
      · rename_i heq
        exact absurd (congrArg Prod.fst heq) herr
      · rename_i heq
        cases heq
        exact hrefused herr

theorem Sound.tidy (h : Sound limit flushed w s l) : Tidy limit w.files flushed s := by
  obtain ⟨hlow,hhigh⟩ := h.files
  have hcount := h.bounded.count
  have hnames : ∀ name ∈ logNames s, ∃ k < w.files, name = logRotateName k 24 := by
    intro name hname
    obtain ⟨p,hp,hin⟩ := List.mem_filterMap.mp hname
    have hthere := content_mem.mp hp
    obtain ⟨k,hk,rfl⟩ := h.stored.only p (by rw [hin]; exact Option.some_ne_none _) hthere
    rw [nameIn_log s.root hk] at hin
    refine ⟨k,?_,(Option.some.inj hin).symm⟩
    cases k with
    | zero => omega
    | succ k =>
      rw [h.stored.older k hk] at hthere
      have := List.getElem?_eq_none_iff.not.mp hthere
      omega
  refine ⟨?_,hnames,?_,fun k hk bytes hbytes => ?_⟩
  · rw [oldestFirst_congr w.files fun k hk => h.stored.file (by omega),
      oldestFirst_log l w.files (by omega)]
    exact h.bounded.suffix
  · have hnodup : (logNames s).Nodup := by
      refine List.Nodup.filterMap (fun p q name hp hq => ?_) (AList.keys_nodup _)
      rw [nameIn_some hp, nameIn_some hq]
    have hsub : logNames s ⊆ (List.range w.files).map fun k => logRotateName k 24 := by
      intro name hname
      obtain ⟨k,hk,rfl⟩ := hnames name hname
      exact List.mem_map_of_mem (List.mem_range.mpr hk)
    have hle := (List.subperm_of_subset hnodup hsub).length_le
    rwa [List.length_map, List.length_range] at hle
  · cases k with
    | zero =>
      rw [h.stored.current] at hbytes
      split at hbytes
      · cases hbytes
      · exact Option.some.inj hbytes ▸ h.bounded.current
    | succ k =>
      rw [h.stored.older k (by omega)] at hbytes
      exact h.bounded.sizes bytes (List.mem_of_getElem? hbytes)

theorem readSize_unfailing (ho : Unfailing o) (w : LogWriter) (hm : s.mounted = true)
    (hfits : s.root.length+25 < storagePathMax) : (readSize o w s).1 = .ok := by
  have hlist : (starkStorageList o s .logs).1 = .ok := by
    have hdir : (s.root++"/stark/".toList++storageDirName .logs).length < storagePathMax := by
      rw [List.length_append, List.length_append]
      have : ("/stark/".toList).length = 7 ∧ (storageDirName .logs).length = 4 := ⟨rfl,rfl⟩
      omega
    obtain ⟨m,-,hok⟩ := ho s.io.calls
    unfold starkStorageList storageDirPath ioList
    dsimp only
    rw [if_pos hdir, hok]
    dsimp only
    rw [if_neg (by simp [hm])]
  unfold readSize storageFilesSize
  split
  · rfl
  generalize starkStorageList o s .logs = r at hlist ⊢
  obtain ⟨err,entries,t⟩ := r
  obtain rfl : err = .ok := hlist
  dsimp only
  cases entries.find? fun e => e.1 = logName <;> rfl

/-- With the volume mounted and a handle free a round succeeds and leaves it so. -/
theorem Sound.succeeds (ho : Unfailing o) (h : Sound limit flushed w s l) (t : Taken)
    (hm : s.mounted = true) (hfree : ∃ k, s.slots k = none) :
    (flushRound o t w s).1 = .ok ∧ (flushRound o t w s).2.2.mounted = true ∧
      ∃ k, (flushRound o t w s).2.2.slots k = none := by
  have htrue := unfailing_truthful ho
  obtain ⟨w',u,hr⟩ : ∃ w' u, readSize o w s = (.ok,w',u) :=
    ⟨_,_,Prod.ext (readSize_unfailing ho w hm h.fits) rfl⟩
  rw [flushRound_read hr]
  obtain ⟨hsame,hk,-,hw⟩ := readSize_exact htrue h.exact (fun _ => unfailing_listed ho s) hr
  have hfiles : 1 ≤ w'.files ∧ w'.files ≤ 8 := by
    rw [hw]
    exact h.files
  have htable : SameTable s (StorageLog.rotate o t.add w' u).2.2 := by
    have hrot := rotate_rotated htrue t.add u hfiles
    refine hsame.table.trans ?_
    generalize StorageLog.rotate o t.add w' u = r at hrot
    cases hrot with
    | idle => exact ⟨rfl,rfl,rfl,rfl⟩
    | done u' _ htable => exact htable
    | stuck u' _ htable => exact htable
  generalize (StorageLog.rotate o t.add w' u).2.2 = v at htable ⊢
  generalize (StorageLog.rotate o t.add w' u).2.1 = w'' at ⊢
  have hm' : v.mounted = true := htable.mounted.trans hm
  have hok := (append_unfailing ho (dropMarker t.dropped) t.chunk v).2 hm'
    (by rw [htable.slots]; exact hfree) (by rw [htable.root]; exact h.fits)
  unfold StorageLog.appended
  split
  · rename_i x hx
    have happ := append_appended hx
    exact ⟨rfl,happ.mounted.trans hm',happ.free⟩
  · rename_i err x hne hx
    rw [hx] at hok
    exact absurd hok hne

theorem Sound.writes (ho : Unfailing o) (ts : List Taken) (hfits : Fits ts)
    (h : Sound limit flushed w s l) (hm : s.mounted = true) (hfree : ∃ k, s.slots k = none) :
    written o ts w s = taken ts := by
  induction ts generalizing w s l flushed with
  | nil => rfl
  | cons t ts ih =>
    unfold written taken
    by_cases hnil : t.bytes = []
    · rw [if_pos hnil, if_pos hnil]
    rw [if_neg hnil, if_neg hnil]
    have ht := hfits t List.mem_cons_self
    obtain ⟨l',hok,-⟩ := h.round ho ht hnil
    obtain ⟨hdone,hm',hfree'⟩ := h.succeeds ho t hm hfree
    generalize flushRound o t w s = r at hok hdone hm' hfree' ⊢
    obtain ⟨err,w',u⟩ := r
    obtain rfl : err = .ok := hdone
    exact congrArg (t :: ·) (ih (fun t ht => hfits t (List.mem_cons_of_mem _ ht)) (hok rfl) hm' hfree')

end

/-- The log directory is empty, and all its paths fit. -/
def Bare (s : Files) : Prop :=
  (∀ p, nameIn (logsPath s.root) p ≠ none → s.io.disk.content p = none) ∧
    s.root.length+25 < storagePathMax

theorem sound_start (limit : UInt32) (files : ℕ) {s : Files} (h : Bare s) :
    Sound limit [] (storageLogInit limit files) s Log.empty := by
  obtain ⟨hempty,hfits⟩ := h
  have hlog : ∀ k < 8, s.io.disk.content (logPath s.root k) = none := fun k hk =>
    hempty _ (by rw [nameIn_log s.root hk]; exact Option.some_ne_none _)
  refine ⟨⟨hlog 0 (by decide),fun k hk => hlog (k+1) hk,fun p hp hne => absurd (hempty p hp) hne⟩,
    bounded_empty _ _,fun _ hb => (by cases hb),fun hk => (by cases hk),rfl,?_,hfits⟩
  show 1 ≤ max 1 (min files logRotateMaxFiles) ∧ max 1 (min files logRotateMaxFiles) ≤ 8
  unfold logRotateMaxFiles
  omega

theorem SameLogs.stored {s t : Files} (h : SameLogs s t) {l : Log UInt8} (hs : Stored s l) :
    Stored t l := by
  have hlog : ∀ k < 8, t.io.disk.content (logPath s.root k) = s.io.disk.content (logPath s.root k) :=
    fun k hk => h.content _ (by rw [nameIn_log s.root hk]; exact Option.some_ne_none _)
  refine ⟨?_,fun k hk => ?_,fun p hp hne => ?_⟩
  · rw [h.root, hlog 0 (by decide)]
    exact hs.current
  · rw [h.root, hlog (k+1) hk]
    exact hs.older k hk
  · rw [h.root] at hp ⊢
    exact hs.only p hp (by rwa [h.content p hp] at hne)

theorem SameLogs.logBytes {s t : Files} (h : SameLogs s t) : logBytes t = logBytes s := by
  unfold LogSize.logBytes
  rw [h.root, h.content _ (by rw [nameIn_log s.root (by decide)]; exact Option.some_ne_none _)]

section
variable {o : ℕ → Outcome}

theorem flush_nothing (ts : List Taken) {w : LogWriter} {s : Files}
    (hnothing : taken ts = []) : storageLogFlush o ts w s = (.ok,false,w,s) := by
  cases ts with
  | nil => rfl
  | cons t ts =>
    unfold taken at hnothing
    by_cases hnil : t.bytes = []
    · unfold storageLogFlush
      rw [if_pos ((bytes_nil t).mp hnil)]
    · rw [if_neg hnil] at hnothing
      cases hnothing

theorem sound_step (ho : Unfailing o) {limit : UInt32} {n : ℕ} (st : State) (a : Act) (st' : State)
    (h : (∃ l, Sound limit st.flushed st.w st.s l) ∧ st.w.files = n) (hg : Alone st a)
    (hs : step o st a = some st') :
    (∃ l, Sound limit st'.flushed st'.w st'.s l) ∧ st'.w.files = n := by
  obtain ⟨⟨l,hl⟩,hn⟩ := h
  cases a with
  | flush ts =>
    obtain rfl := Option.some.inj hs
    refine ⟨hl.flush ho ts hg,?_⟩
    exact (flush_exact (unfailing_truthful ho) ts hl.exact hl.files
      fun _ => unfailing_listed ho st.s).2.trans hn
  | mount s =>
    obtain rfl := Option.some.inj hs
    have hroot : s.root = st.s.root := hg.root
    exact ⟨⟨l,hg.stored hl.stored,hl.bounded,hl.lengths,fun hk => (by cases hk),hl.limit,hl.files,
      by rw [hroot]; exact hl.fits⟩,hn⟩
  | others s =>
    obtain rfl := Option.some.inj hs
    have hroot : s.root = st.s.root := hg.root
    refine ⟨⟨l,hg.stored hl.stored,hl.bounded,hl.lengths,fun hk => ?_,hl.limit,hl.files,
      by rw [hroot]; exact hl.fits⟩,hn⟩
    rw [hg.logBytes]
    exact hl.exact hk

/-- A flush that has to read the size is told of the file. -/
def Told (o : ℕ → Outcome) (st : State) : Act → Prop
  | .flush ts => taken ts ≠ [] → st.w.sizeKnown = false → Listed o st.s
  | .mount _ => True
  | .others s => SameLogs st.s s

theorem exact_step (htrue : Truthful o) (st : State) (a : Act) (st' : State)
    (h : Exact st.w st.s ∧ 1 ≤ st.w.files ∧ st.w.files ≤ 8) (hg : Told o st a)
    (hs : step o st a = some st') : Exact st'.w st'.s ∧ 1 ≤ st'.w.files ∧ st'.w.files ≤ 8 := by
  obtain ⟨hexact,hfiles⟩ := h
  cases a with
  | flush ts =>
    obtain rfl := Option.some.inj hs
    dsimp only
    by_cases hnothing : taken ts = []
    · rw [flush_nothing ts hnothing]
      exact ⟨hexact,hfiles⟩
    · obtain ⟨hafter,hkept⟩ := flush_exact htrue ts hexact hfiles (hg hnothing)
      rw [hkept]
      exact ⟨hafter,hfiles⟩
  | mount s =>
    obtain rfl := Option.some.inj hs
    exact ⟨fun hk => (by cases hk),hfiles⟩
  | others s =>
    obtain rfl := Option.some.inj hs
    refine ⟨fun hk => ?_,hfiles⟩
    rw [hg.logBytes]
    exact hexact hk

end

/-- When no call fails, the log files are the end of what was flushed, as many and as large as
they may be, and a flush with the volume there writes all that it takes. Whatever fails, a size
that the writer knows is that of the file, if every listing it came from gave the file. -/
theorem log_files (o : ℕ → Outcome) (limit : UInt32) (files : ℕ) (s : Files) (acts : List Act)
    (st : State) :
    (Unfailing o → Bare s → Run (step o) Alone (start limit files s) acts st →
      Tidy limit (max 1 (min files logRotateMaxFiles)) st.flushed st.s ∧
      ∀ ts, Fits ts → st.s.mounted = true → (∃ k, st.s.slots k = none) →
        written o ts st.w st.s = taken ts) ∧
    (Truthful o → Run (step o) (Told o) (start limit files s) acts st → st.w.sizeKnown = true →
      (logBytes st.s).length < 2^32 → st.w.size.toNat = (logBytes st.s).length) := by
  constructor
  · intro ho hbare hrun
    have hstart : (∃ l, Sound limit (start limit files s).flushed (start limit files s).w
        (start limit files s).s l) ∧
        (start limit files s).w.files = max 1 (min files logRotateMaxFiles) :=
      ⟨⟨_,sound_start limit files hbare⟩,rfl⟩
    obtain ⟨⟨l,hl⟩,hn⟩ := run_invariant _ (sound_step ho) acts hstart hrun
    refine ⟨hn ▸ hl.tidy,fun ts hfits hm hfree => hl.writes ho ts hfits hm hfree⟩
  · intro htrue hrun hk hsmall
    have hfiles : 1 ≤ max 1 (min files logRotateMaxFiles) ∧
        max 1 (min files logRotateMaxFiles) ≤ 8 := by
      unfold logRotateMaxFiles
      omega
    have hstart : Exact (start limit files s).w (start limit files s).s ∧
        1 ≤ (start limit files s).w.files ∧ (start limit files s).w.files ≤ 8 :=
      ⟨fun hk => (by cases hk),hfiles⟩
    obtain ⟨hexact,-⟩ := run_invariant _ (exact_step htrue) acts hstart hrun
    rw [hexact hk]
    exact UInt32.toNat_ofNat_of_lt hsmall

def bareCard : Files := logCard "/sd".toList []

theorem bareCard_bare : Bare bareCard := by
  refine ⟨fun p _ => Disk.content_none _ _ ?_,by decide⟩
  exact AList.lookup_empty p

def line (n : ℕ) : Taken := ⟨List.replicate n 7,0⟩

def threeFlushes : List Act := [.flush [line 3,line 1],.flush [line 6],.flush [line 2]]

theorem log_files_three : ∃ st, Run (step fun _ => .ok 64) Alone (start 4 2 bareCard)
    threeFlushes st ∧ Tidy 4 (max 1 (min 2 logRotateMaxFiles)) st.flushed st.s ∧
      st.w.size.toNat = (logBytes st.s).length ∧ st.flushed = [[7,7,7],[7],[7,7,7,7,7,7],[7,7]] := by
  have ho : Unfailing fun _ => .ok 64 := fun n => ⟨64,by decide,rfl⟩
  have hfits : ∀ ns : List ℕ, (∀ n ∈ ns, n ≤ 1024) → Fits (ns.map line) := by
    rintro ns hns t ht
    obtain ⟨n,hn,rfl⟩ := List.mem_map.mp ht
    exact (List.length_replicate (n := n)).le.trans (hns n hn)
  obtain ⟨st,hrun,hknown,hsmall,hflushed⟩ := run_witness (step fun _ => .ok 64) (G := Free)
    (s := start 4 2 bareCard) (p := fun st => st.w.sizeKnown = true ∧
      (logBytes st.s).length < 2^32 ∧ st.flushed = [[7,7,7],[7],[7,7,7,7,7,7],[7,7]])
    threeFlushes (by decide +kernel) (by decide +kernel)
  obtain ⟨-,u,hu,-,v,hv,-,x,hx,rfl⟩ := hrun
  have halone : Run (step fun _ => .ok 64) Alone (start 4 2 bareCard) threeFlushes x :=
    ⟨hfits [3,1] (by decide),u,hu,hfits [6] (by decide),v,hv,hfits [2] (by decide),x,hx,rfl⟩
  have htold : Run (step fun _ => .ok 64) (Told fun _ => .ok 64) (start 4 2 bareCard) threeFlushes x :=
    ⟨fun _ _ => unfailing_listed ho _,u,hu,fun _ _ => unfailing_listed ho _,v,hv,
      fun _ _ => unfailing_listed ho _,x,hx,rfl⟩
  obtain ⟨htidy,-⟩ := (log_files (fun _ => .ok 64) 4 2 bareCard threeFlushes x).1 ho bareCard_bare halone
  have hsize := (log_files (fun _ => .ok 64) 4 2 bareCard threeFlushes x).2 (unfailing_truthful ho)
    htold hknown hsmall
  exact ⟨x,halone,htidy,hsize,hflushed⟩

/-- Only the writer changes the log directory of a card; any card may be mounted. -/
def Handled (st : State) : Act → Prop
  | .flush _ => True
  | .mount _ => True
  | .others s => SameLogs st.s s

/-- Every call succeeds, but for `stat` on the one name of the listing that is call 14. -/
def lossy (n : ℕ) : Outcome := if n = 14 then .fail (.other 5) (some [0]) else .ok 64

def remounted : Files :=
  volumeMounted lossy (volumeLost lossy
    (storageLogFlush lossy [line 1] (storageLogInit 100 3) bareCard).2.2.2)

/-- The size that is read after the mount is 0, with a byte in the file. -/
theorem log_size_lost : ¬∀ (o : ℕ → Outcome) (limit : UInt32) (files : ℕ) (s : Files)
    (acts : List Act) (st : State), Truthful o → Bare s →
      Run (step o) Handled (start limit files s) acts st → st.w.sizeKnown = true →
        (logBytes st.s).length < 2^32 → st.w.size.toNat = (logBytes st.s).length := by
  intro h
  obtain ⟨st,hrun,hknown,hsize,hlen⟩ := run_witness (step lossy) (G := Free)
    (s := start 100 3 bareCard) (p := fun st => st.w.sizeKnown = true ∧ st.w.size.toNat = 1 ∧
      (logBytes st.s).length = 2)
    [.flush [line 1],.mount remounted,.flush [line 1]] (by decide +kernel) (by decide +kernel)
  have htrue : Truthful lossy := by
    intro n left hn
    unfold lossy at hn
    split at hn <;> cases hn
  obtain ⟨-,u,hu,-,v,hv,-,x,hx,rfl⟩ := hrun
  have := h lossy 100 3 bareCard [.flush [line 1],.mount remounted,.flush [line 1]] x htrue
    bareCard_bare ⟨trivial,u,hu,trivial,v,hv,trivial,x,hx,rfl⟩ hknown (by rw [hlen]; decide)
  rw [hsize, hlen] at this
  cases this

end StarkOne.LogContents
