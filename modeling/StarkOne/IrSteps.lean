import StarkOne.IrApp

/-!
# What a step of the IR app can do

Each request, event and answer, said once: what it fills, what it records and
that it otherwise shares nothing with the worker.
-/

set_option autoImplicit false

namespace StarkOne.IrSteps
open StarkOne.UiStack StarkOne.UiShape StarkOne.IrCodec StarkOne.IrTxGuard StarkOne.IrWork
open StarkOne.IrApp
open StarkOne.StoragePath (CStr)

structure SameWork (s t : IrApp) : Prop where
  signal : t.signal = s.signal
  text : t.text = s.text
  slots : t.slots = s.slots
  pick : t.pick = s.pick
  calling : t.calling = s.calling
  temp : t.temp = s.temp
  captures : t.captures = s.captures
  origin : t.origin = s.origin
  sent : t.sent = s.sent
  commits : t.commits = s.commits

theorem sameWork_refl (s : IrApp) : SameWork s s := ⟨rfl,rfl,rfl,rfl,rfl,rfl,rfl,rfl,rfl,rfl⟩

structure OnlySave (s t : IrApp) : Prop where
  signal : t.signal = s.signal
  slots : t.slots = s.slots
  pick : t.pick = s.pick
  calling : t.calling = s.calling
  origin : t.origin = s.origin
  sent : t.sent = s.sent

theorem SameWork.onlySave {s t : IrApp} (h : SameWork s t) : OnlySave s t := { h with }

def saveAsked (signal : Option IrSignal) (d : Phone) : Option Call :=
  match signal with
  | none => none
  | some s => if d.storage ≠ .mounted then none else if d.state.busy then none else some (.save s)

def irviewAsked (row : ℕ) (d : Phone) : Option Call :=
  match row with
  | 0 => saveAsked d.state.caps.head? d
  | 1 => if d.storage ≠ .mounted then none else some .list
  | k+2 => saveAsked d.state.caps[k]? d

def asked (i : Input) (d : Phone) : Option Call :=
  match d.state.mode with
  | .browse =>
    if d.state.count ≤ i.row || !(d.state.slots i.row).valid then none else some .load
  | .view => irviewAsked i.row d

def okNext (d : Phone) : Bool :=
  d.queue.head? = some (.key .ok .short) && d.stack.head? = some (.app .ir)

def request (i : Input) (d : Phone) : Option Call := if okNext d then asked i d else none

def afterCall (k : ℕ) (c : Call) (s : IrApp) : IrApp :=
  match c with
  | .list => { s with count := 0, busy := true, calling := some .list }
  | .load => { s with pick := k, busy := true, calling := some .load }
  | .save a => { s with signal := a, origin := none, calling := some (.save a) }

def Makes (k : ℕ) (call : Option Call) (d d' : Phone) : Prop :=
  match call with
  | some c => d' = { d with state := afterCall k c d.state }
  | none => ∃ s, d' = { d with state := s } ∧ SameWork d.state s

theorem irappSave_makes (k : ℕ) (signal : Option IrSignal) (d : Phone) :
    Makes k (saveAsked signal d) d (irappSave signal d) := by
  unfold irappSave saveAsked
  cases signal with
  | none => exact ⟨d.state,rfl,sameWork_refl _⟩
  | some s =>
    dsimp only
    split
    · exact ⟨d.state,rfl,sameWork_refl _⟩
    · split
      · exact ⟨d.state,rfl,sameWork_refl _⟩
      · rfl

theorem irbrowseOpen_makes (k : ℕ) (d : Phone) :
    Makes k (if d.storage ≠ .mounted then none else some .list) d (irbrowseOpen d) := by
  unfold irbrowseOpen
  by_cases hst : d.storage = .mounted
  · rw [if_neg (not_not.mpr hst)]
    dsimp only [irbrowseForget]
    rw [if_neg (not_not.mpr hst)]
    rfl
  · rw [if_pos hst]
    dsimp only [irbrowseForget]
    rw [if_pos hst]
    exact ⟨_,rfl,rfl,rfl,rfl,rfl,rfl,rfl,rfl,rfl,rfl,rfl⟩

theorem irviewActivate_makes (k row : ℕ) (d : Phone) :
    Makes k (irviewAsked row d) d (irviewActivate row d) :=
  match row with
  | 0 => irappSave_makes k d.state.caps.head? d
  | 1 => irbrowseOpen_makes k d
  | n+2 => irappSave_makes k d.state.caps[n]? d

theorem activate_makes (i : Input) (d : Phone) :
    Makes i.row (asked i d) d (activate i d) := by
  unfold asked activate
  cases d.state.mode with
  | browse =>
    dsimp only [irbrowseActivate]
    split
    · exact ⟨d.state,rfl,sameWork_refl _⟩
    · rfl
  | view => exact irviewActivate_makes i.row i.row d

theorem irsendEvent_same (what : Note) (d : Phone) :
    ∃ s, irsendEvent what d = { d with state := s } ∧ SameWork d.state s := by
  unfold irsendEvent
  split
  · exact ⟨_,rfl,rfl,rfl,rfl,rfl,rfl,rfl,rfl,rfl,rfl,rfl⟩
  · exact ⟨_,rfl,sameWork_refl _⟩

theorem menuEvent_other (i : Input) {e : UiEvent Note} (d : Phone) (hk : e ≠ .key .ok .short) :
    (menuEvent i e d).2 = d := by
  unfold menuEvent
  split
  · rfl
  · exact absurd rfl hk
  · rfl
  · rfl

theorem irEvent_other (i : Input) {e : UiEvent Note} (d : Phone) (hk : e ≠ .key .ok .short)
    (hl : e ≠ .other .loaded) :
    ∃ s, (irEvent i e d).2 = { d with state := s } ∧ SameWork d.state s := by
  have hmenu : ∃ s, (menuEvent i e d).2 = { d with state := s } ∧ SameWork d.state s :=
    ⟨d.state,menuEvent_other i d hk,sameWork_refl _⟩
  unfold irEvent
  split
  · rename_i what
    obtain ⟨s,he,hs⟩ := irsendEvent_same what d
    rw [he]
    cases what with
    | loaded => exact absurd rfl hl
    | listed => exact ⟨_,rfl,{ hs with }⟩
    | failed => exact ⟨_,rfl,{ hs with }⟩
    | rx => exact ⟨_,rfl,{ hs with }⟩
    | txDone => exact ⟨s,rfl,hs⟩
    | txFailed => exact ⟨s,rfl,hs⟩
  · split
    · exact ⟨_,rfl,rfl,rfl,rfl,rfl,rfl,rfl,rfl,rfl,rfl,rfl⟩
    · exact hmenu
  · split
    · exact ⟨_,rfl,rfl,rfl,rfl,rfl,rfl,rfl,rfl,rfl,rfl,rfl⟩
    · exact hmenu
  · exact hmenu

theorem deliver_ok (cap : ℕ) (i : Input) {d : Phone} (h : d.stack.head? = some (.app .ir)) :
    deliver (appIr cap) i (.key .ok .short) d = activate i d := by
  obtain ⟨rest,hr⟩ := List.head?_eq_some_iff.mp h
  change onBusEvent (appIr cap) i (.key .ok .short) d = activate i d
  simp [onBusEvent, hr, screenEvent, appIr, irEvent, menuEvent]

theorem irEvent_loaded (i : Input) (d : Phone) :
    (irEvent i (.other .loaded) d).2 =
      irsendConfirm (d.state.slots d.state.pick).name (setBusy false d) := by
  have hs : irsendEvent .loaded d = d := by simp [irsendEvent]
  unfold irEvent
  dsimp only
  rw [hs]
  rfl

theorem irsendConfirm_cases (name : CStr) (d : Phone) :
    (∃ s, irsendConfirm name d = { d with state := s } ∧ SameWork d.state s) ∨
    ∃ plan s, irTxCheck d.state.signal 0 = .ok plan ∧ SameWork d.state s ∧
      irsendConfirm name d = (starkUiDialogConfirm
        ⟨confirmMessage d.state.signal plan,d.state.signal,snprintf irbrowseNameLen name⟩
        { d with state := s }).2 := by
  unfold irsendConfirm
  dsimp only
  cases irTxCheck d.state.signal 0 with
  | error e => exact Or.inl ⟨_,rfl,rfl,rfl,rfl,rfl,rfl,rfl,rfl,rfl,rfl,rfl⟩
  | ok plan => exact Or.inr ⟨plan,{ d.state with name := snprintf irbrowseNameLen name },rfl,
    ⟨rfl,rfl,rfl,rfl,rfl,rfl,rfl,rfl,rfl,rfl⟩,rfl⟩

theorem sendConfirmed_cases (t : Transmit) (i : Input) (result : StarkDialogResult) (d : Phone) :
    sendConfirmed t i result d = d ∨
    ∃ sending, let s := { d.state with
        sent := ⟨d.state.signal,d.state.origin,t⟩::d.state.sent, sending := sending }
      sendConfirmed t i result d = { d with state := s } ∨
        sendConfirmed t i result d = (starkUiDialogAlert { d with state := s }).2 := by
  unfold sendConfirmed
  split
  · exact Or.inl rfl
  · refine Or.inr ?_
    dsimp only
    split
    · exact ⟨true,Or.inl rfl⟩
    · exact ⟨d.state.sending,Or.inr rfl⟩
    · exact ⟨d.state.sending,Or.inl rfl⟩

def lists : IrWorker → Bool
  | .list | .check _ _ => true
  | _ => false

def loads : IrWorker → Bool
  | .load | .loading _ _ | .loaded _ => true
  | _ => false

def Short (s : IrApp) : Prop := ∀ k, (s.slots k).name.length < irbrowseNameLen

structure OnlyLoad (s t : IrApp) : Prop where
  pick : t.pick = s.pick
  calling : t.calling = s.calling
  temp : t.temp = s.temp
  captures : t.captures = s.captures
  sent : t.sent = s.sent
  commits : t.commits = s.commits

theorem irappLoad_only (io : Answer) (name : CStr) (s : IrApp) (stage : Loading) :
    OnlyLoad s (irappLoad io name s stage).2 ∧ (irappLoad io name s stage).2.slots = s.slots ∧
      ((irappLoad io name s stage).1 = .inr .ok →
        (irappLoad io name s stage).2.origin = some name) := by
  cases stage with
  | read =>
    unfold irappLoad
    dsimp only
    split
    · exact ⟨⟨rfl,rfl,rfl,rfl,rfl,rfl⟩,rfl,fun h => nomatch h⟩
    · split
      · exact ⟨⟨rfl,rfl,rfl,rfl,rfl,rfl⟩,rfl,fun h => nomatch h⟩
      · exact ⟨⟨rfl,rfl,rfl,rfl,rfl,rfl⟩,rfl,fun h => nomatch h⟩
  | clear => exact ⟨⟨rfl,rfl,rfl,rfl,rfl,rfl⟩,rfl,fun h => nomatch h⟩
  | parse => exact ⟨⟨rfl,rfl,rfl,rfl,rfl,rfl⟩,rfl,fun h => if_pos (Sum.inr.inj h)⟩

theorem collect_only (s : IrApp) (name : CStr) :
    OnlyLoad s (collect s name).2 ∧ (Short s → Short (collect s name).2) := by
  unfold collect
  split
  · exact ⟨⟨rfl,rfl,rfl,rfl,rfl,rfl⟩,id⟩
  · refine ⟨⟨rfl,rfl,rfl,rfl,rfl,rfl⟩,fun h k => ?_⟩
    by_cases hk : k = s.count
    · subst hk
      simp only [Function.update_self, snprintf, List.length_take]
      exact Nat.lt_of_le_of_lt (Nat.min_le_left _ _) (by decide)
    · simp only [Function.update_of_ne hk]
      exact h k

theorem OnlyLoad.trans {s t u : IrApp} (h : OnlyLoad s t) (g : OnlyLoad t u) : OnlyLoad s u :=
  ⟨g.pick.trans h.pick,g.calling.trans h.calling,g.temp.trans h.temp,
    g.captures.trans h.captures,g.sent.trans h.sent,g.commits.trans h.commits⟩

theorem collectAll_only (names : List CStr) (s : IrApp) :
    OnlyLoad s (collectAll s names) ∧ (Short s → Short (collectAll s names)) := by
  induction names generalizing s with
  | nil => exact ⟨⟨rfl,rfl,rfl,rfl,rfl,rfl⟩,id⟩
  | cons name rest ih =>
    obtain ⟨ho,hs⟩ := collect_only s name
    unfold collectAll
    dsimp only
    split
    · obtain ⟨ho',hs'⟩ := ih (collect s name).2
      exact ⟨ho.trans ho',fun h => hs' (hs h)⟩
    · exact ⟨ho,hs⟩

theorem sortSlots_short {s : IrApp} (h : Short s) : Short (sortSlots s) := by
  intro k
  unfold sortSlots
  dsimp only
  rw [List.getD_eq_getElem?_getD]
  cases hk : (((List.range s.count).map s.slots).insertionSort browseOrder)[k]? with
  | none => exact h k
  | some e =>
    have hm := (List.mem_insertionSort browseOrder).mp (List.mem_of_getElem? hk)
    obtain ⟨j,-,rfl⟩ := List.mem_map.mp hm
    exact h j

theorem setEntry_short {s : IrApp} (h : Short s) (k : ℕ) (valid : Bool) (what : CStr) :
    Short (setEntry k valid what s) := by
  intro j
  unfold setEntry
  dsimp only
  by_cases hj : j = k
  · subst hj
    rw [Function.update_self]
    exact h j
  · rw [Function.update_of_ne hj]
    exact h j

variable (cap : ℕ)

theorem lists_step (stop : Bool) (io : Answer) {w : IrWorker} (d : Phone)
    (hw : lists w = true) :
    ∃ w' s, workStep cap stop io w d = goOn w' s d ∧ (lists w' = true ∨ w' = .listed) ∧
      OnlyLoad d.state s ∧ (Short d.state → Short s) := by
  cases w with
  | list =>
    have hall := fun names => collectAll_only names { d.state with count := 0 }
    unfold workStep
    dsimp only
    split
    · exact ⟨_,_,rfl,Or.inl rfl,{ (hall _).1 with },fun h => sortSlots_short ((hall _).2 h)⟩
    · exact ⟨_,_,rfl,Or.inl rfl,{ (hall _).1 with },(hall _).2⟩
  | check k stage =>
    obtain ⟨ho,hs,-⟩ := irappLoad_only io (d.state.slots k).name d.state stage
    have hshort : Short d.state → Short (irappLoad io (d.state.slots k).name d.state stage).2 := by
      unfold Short
      rw [hs]
      exact id
    unfold workStep
    dsimp only
    split
    · exact ⟨_,_,rfl,Or.inr rfl,⟨rfl,rfl,rfl,rfl,rfl,rfl⟩,id⟩
    · split
      · rename_i heq
        rw [heq] at ho hshort
        exact ⟨_,_,rfl,Or.inl rfl,ho,hshort⟩
      · rename_i heq
        rw [heq] at ho hshort
        exact ⟨_,_,rfl,Or.inl rfl,{ ho with },fun h => setEntry_short (hshort h) _ _ _⟩
      · rename_i heq
        rw [heq] at ho hshort
        exact ⟨_,_,rfl,Or.inl rfl,{ ho with },fun h => setEntry_short (hshort h) _ _ _⟩
  | listed => cases hw
  | load => cases hw
  | loading name stage => cases hw
  | loaded ok => cases hw
  | save a stage => cases hw
  | ended => cases hw

theorem loading_step (stop : Bool) (io : Answer) (name : CStr) (stage : Loading) (d : Phone) :
    ∃ w' s, workStep cap stop io (.loading name stage) d = goOn w' s d ∧
      OnlyLoad d.state s ∧ s.slots = d.state.slots ∧
      ((∃ next, w' = .loading name next) ∨ w' = .loaded false ∨
        w' = .loaded true ∧ s.origin = some name) := by
  obtain ⟨ho,hs,hor⟩ := irappLoad_only io name d.state stage
  unfold workStep
  dsimp only
  split
  · rename_i next t heq
    rw [heq] at ho hs
    exact ⟨_,_,rfl,ho,hs,Or.inl ⟨next,rfl⟩⟩
  · rename_i err t heq
    rw [heq] at ho hs hor
    refine ⟨_,_,rfl,ho,hs,Or.inr ?_⟩
    by_cases he : err = .ok
    · subst he
      exact Or.inr ⟨rfl,hor rfl⟩
    · exact Or.inl (by rw [decide_eq_false he])

theorem writeOne_only (io : Answer) (asked : IrSignal) (s : IrApp) (stage : Saving) :
    OnlySave s (writeOne io asked s stage).2 ∧
      ((writeOne io asked s stage).1 = .ended ∨
        ∃ next, (writeOne io asked s stage).1 = .save asked next) := by
  have hsame : OnlySave s s := ⟨rfl,rfl,rfl,rfl,rfl,rfl⟩
  cases stage with
  | names =>
    dsimp only [writeOne]
    split
    · exact ⟨hsame,Or.inl rfl⟩
    · split
      · exact ⟨hsame,Or.inl rfl⟩
      · exact ⟨hsame,Or.inr ⟨_,rfl⟩⟩
  | format name =>
    dsimp only [writeOne]
    refine ⟨⟨rfl,rfl,rfl,rfl,rfl,rfl⟩,?_⟩
    split
    · exact Or.inl rfl
    · exact Or.inr ⟨_,rfl⟩
  | create name =>
    dsimp only [writeOne]
    split
    · exact ⟨hsame,Or.inl rfl⟩
    · exact ⟨⟨rfl,rfl,rfl,rfl,rfl,rfl⟩,Or.inr ⟨_,rfl⟩⟩
  | write name =>
    dsimp only [writeOne]
    split
    · exact ⟨⟨rfl,rfl,rfl,rfl,rfl,rfl⟩,Or.inl rfl⟩
    · exact ⟨⟨rfl,rfl,rfl,rfl,rfl,rfl⟩,Or.inr ⟨_,rfl⟩⟩
  | close name =>
    dsimp only [writeOne]
    split
    · exact ⟨⟨rfl,rfl,rfl,rfl,rfl,rfl⟩,Or.inl rfl⟩
    · exact ⟨⟨rfl,rfl,rfl,rfl,rfl,rfl⟩,Or.inl rfl⟩

theorem startCall_cases (c : Call) (d : Phone) :
    ∃ s, SameWork { d.state with calling := none } s ∧
      (startCall c d = { d with worker := .running (jobOf c), state := s } ∧
        (∀ w, d.worker ≠ .running w) ∨
      startCall c d = { d with state := s }) := by
  unfold startCall
  rcases workerStart_cases (jobOf c) { d with state := { d.state with calling := none } } with
    ⟨he,hw⟩ | ⟨e,he⟩
  · rw [he]
    exact ⟨_,sameWork_refl _,Or.inl ⟨rfl,hw⟩⟩
  · rw [he]
    dsimp only
    rw [if_neg e.ne_ok]
    cases c with
    | list =>
      refine ⟨_,?_,Or.inr rfl⟩
      exact ⟨rfl,rfl,rfl,rfl,rfl,rfl,rfl,rfl,rfl,rfl⟩
    | load =>
      refine ⟨_,?_,Or.inr rfl⟩
      exact ⟨rfl,rfl,rfl,rfl,rfl,rfl,rfl,rfl,rfl,rfl⟩
    | save a =>
      refine ⟨_,?_,Or.inr rfl⟩
      exact sameWork_refl _

/-- Leaving the app keeps what the screens' end, the worker's steps and its end, and the app's
stop keep. -/
theorem exit_keeps (cap : ℕ) {Inv : Phone → Prop}
    (hwork : ∀ stop io w d, Inv d → d.worker = .running w → Inv (workStep cap stop io w d))
    (hnone : ∀ d, Inv d → Inv { d with worker := .none })
    (hstop : ∀ a d, Inv d → Inv { d with state := (appIr cap).onStop a d.state }) (i : Input)
    {d : Phone} (hc : d.current.isSome = true) (h : Inv (left d)) :
    Inv (onAppScreenExit (appIr cap) i { d with stack := d.stack.tail }) := by
  obtain ⟨a,ha⟩ := Option.isSome_iff_exists.mp hc
  rw [onAppScreenExit_eq i ha]
  refine hstop a _ ?_
  unfold appWorkerJoin
  split
  · exact h
  · exact hnone _ (joinSteps_keeps cap hwork i.joined h)
  · exact hnone _ h

/-- A step publishes an event from outside, changes the files, is one of the worker, or is one
of the UI task, which starts the worker before it dispatches the next event. -/
theorem step_cases {cap : ℕ} {d t : Phone} {l : Label} (h : step cap d l = some t) :
    (∃ st e, (∀ what, e = .other what → fromDriver what = true) ∧
      t = starkEventPublish cap e { d with storage := st }) ∨
    (∃ captures, t = { d with state := { d.state with captures := captures } }) ∨
    (∃ io w, d.worker = .running w ∧ t = workStep cap false io w d) ∨
    (∃ c, d.state.calling = some c ∧ t = startCall c d) ∨
    ∃ i e rest, l = .dispatch i ∧ d.state.calling = none ∧ d.queue = e::rest ∧
      t = deliver (appIr cap) i e { d with queue := rest } := by
  cases l with
  | key k a =>
    exact .inl ⟨d.storage,.key k a,fun what hw => (by cases hw),(Option.some.inj h).symm⟩
  | card st => exact .inl ⟨st,.storage st,fun what hw => (by cases hw),(Option.some.inj h).symm⟩
  | fail g =>
    exact .inl ⟨d.storage,.appFail g,fun what hw => (by cases hw),(Option.some.inj h).symm⟩
  | driver what =>
    simp only [step] at h
    split at h
    · rename_i hd
      refine .inl ⟨d.storage,_,fun other ho => ?_,(Option.some.inj h).symm⟩
      rwa [← UiEvent.other.inj ho]
    · cases h
  | files captures => exact .inr (.inl ⟨captures,(Option.some.inj h).symm⟩)
  | work io =>
    simp only [step] at h
    split at h
    · rename_i w hw
      exact .inr (.inr (.inl ⟨io,w,hw,(Option.some.inj h).symm⟩))
    · cases h
  | start =>
    obtain ⟨c,hc,rfl⟩ := Option.map_eq_some_iff.mp h
    exact .inr (.inr (.inr (.inl ⟨c,hc,rfl⟩)))
  | dispatch i =>
    simp only [step] at h
    split at h
    · cases h
    rename_i hcall
    unfold starkEventDispatch at h
    split at h
    · cases h
    · rename_i e rest hq
      exact .inr (.inr (.inr (.inr
        ⟨i,e,rest,rfl,by simpa using hcall,hq,(Option.some.inj h).symm⟩)))

end StarkOne.IrSteps
