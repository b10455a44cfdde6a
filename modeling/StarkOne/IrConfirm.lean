import StarkOne.IrSteps

/-!
# What the IR app transmits

The shared signal is described in the dialog and read again for the
transmitter. It is the confirmed one as long as no request is made between the
load of a file and the delivery of its notification.
-/

set_option autoImplicit false

namespace StarkOne.IrConfirm
open StarkOne.Machine StarkOne.UiStack StarkOne.UiShape StarkOne.IrCodec StarkOne.IrTxGuard
open StarkOne.IrWork StarkOne.IrApp StarkOne.IrSteps
open StarkOne.StoragePath (CStr)

/-- The transmitted signal is the one that the dialog described, and it came from
the recorded file. -/
structure Confirmed (x : Sent) : Prop where
  shown : x.signal = x.confirmed.shown
  file : x.origin = some x.confirmed.name
  described : ∃ plan, irTxCheck x.signal 0 = .ok plan ∧
    x.confirmed.message = confirmMessage x.signal plan

def isLoadNote : UiEvent Note → Bool
  | .other .loaded | .other .failed => true
  | _ => false

def listing (d : Phone) : Bool :=
  match d.worker with
  | .running w => lists w
  | _ => false

def loading (d : Phone) : Bool :=
  match d.worker with
  | .running w => loads w
  | _ => false

def noted (d : Phone) : Bool := d.queue.any isLoadNote

def outstanding (d : Phone) : Bool := loading d || noted d

/-- No request is made while a load is outstanding. -/
def Quiet (d : Phone) : Label → Prop
  | .dispatch i => outstanding d = true → request i d = none
  | _ => True

instance (d : Phone) : (l : Label) → Decidable (Quiet d l)
  | .dispatch _ => inferInstanceAs (Decidable (_ → _))
  | .key _ _ | .card _ | .fail _ | .driver _ | .files _ | .work _ | .start => isTrue trivial

def pickName (s : IrApp) : CStr := (s.slots s.pick).name

def Asks (d : Phone) (t : Transmit) : Prop := d.dialog.isOpen = true ∧ d.dialog.done = some t

structure Inv (d : Phone) : Prop where
  shape : Shape d
  still : outstanding d = true → d.state.calling = none
  apart : noted d = true → listing d = false ∧ loading d = false
  named : ∀ name stage, d.worker = .running (.loading name stage) → name = pickName d.state
  ended : d.worker = .running (.loaded true) → d.state.origin = some (pickName d.state)
  queued : .other .loaded ∈ d.queue → d.state.origin = some (pickName d.state)
  short : Short d.state
  shown : ∀ t, Asks d t → d.state.calling = none ∧ listing d = false ∧ loading d = false ∧
    Confirmed ⟨d.state.signal,d.state.origin,t⟩
  sent : ∀ x ∈ d.state.sent, Confirmed x

variable {d d' : Phone}

theorem noted_sub (hq : ∀ e ∈ d'.queue, isLoadNote e = true → e ∈ d.queue) (h : noted d' = true) :
    noted d = true := by
  obtain ⟨e,he,hl⟩ := List.any_eq_true.mp h
  exact List.any_eq_true.mpr ⟨e,hq e he hl,hl⟩

def Beside (d d' : Phone) : Prop :=
  d'.worker = d.worker ∨ listing d' = false ∧ loading d' = false

theorem beside_listing (hw : Beside d d') (h : listing d = false) : listing d' = false := by
  rcases hw with hw | hw
  · unfold listing at h ⊢
    rw [hw]
    exact h
  · exact hw.1

theorem beside_loading (hw : Beside d d') (h : loading d = false) : loading d' = false := by
  rcases hw with hw | hw
  · unfold loading at h ⊢
    rw [hw]
    exact h
  · exact hw.2

theorem beside_running (hw : Beside d d') {w : IrWorker} (hl : loads w = true)
    (hr : d'.worker = .running w) : d.worker = .running w := by
  rcases hw with hw | hw
  · exact hw ▸ hr
  · have hf := hw.2
    unfold loading at hf
    rw [hr] at hf
    exact Bool.noConfusion (hl.symm.trans hf)

theorem Inv.same (h : Inv d) (hs : Shape d') (hw : Beside d d')
    (hq : ∀ e ∈ d'.queue, isLoadNote e = true → e ∈ d.queue) (hd : ∀ t, Asks d' t → Asks d t)
    (hsame : OnlySave d.state d'.state) : Inv d' where
  shape := hs
  still ho := by
    rw [hsame.calling]
    refine h.still ?_
    rcases Bool.or_eq_true_iff.mp ho with hl | hn
    · refine Bool.or_eq_true_iff.mpr (Or.inl (Bool.not_eq_false _ ▸ fun hf => ?_))
      exact Bool.noConfusion (hl.symm.trans (beside_loading hw hf))
    · exact Bool.or_eq_true_iff.mpr (Or.inr (noted_sub hq hn))
  apart hn := ⟨beside_listing hw (h.apart (noted_sub hq hn)).1,
    beside_loading hw (h.apart (noted_sub hq hn)).2⟩
  named name stage hr := by
    unfold pickName
    rw [hsame.slots, hsame.pick]
    exact h.named name stage (beside_running hw rfl hr)
  ended hr := by
    unfold pickName
    rw [hsame.slots, hsame.pick, hsame.origin]
    exact h.ended (beside_running hw rfl hr)
  queued hm := by
    unfold pickName
    rw [hsame.slots, hsame.pick, hsame.origin]
    exact h.queued (hq _ hm rfl)
  short := by
    unfold Short
    rw [hsame.slots]
    exact h.short
  shown t ht := by
    obtain ⟨hc,hl,hr,ht⟩ := h.shown t (hd t ht)
    rw [hsame.calling, hsame.signal, hsame.origin]
    exact ⟨hc,beside_listing hw hl,beside_loading hw hr,ht⟩
  sent := by
    rw [hsame.sent]
    exact h.sent

theorem Inv.calm (hs : Shape d') (hn : noted d' = false) (hd : ∀ t, ¬Asks d' t)
    (hc : loading d' = true → d'.state.calling = none)
    (hw : ∀ name stage, d'.worker = .running (.loading name stage) → name = pickName d'.state)
    (hl : d'.worker = .running (.loaded true) → d'.state.origin = some (pickName d'.state))
    (hshort : Short d'.state) (hsent : ∀ x ∈ d'.state.sent, Confirmed x) : Inv d' where
  shape := hs
  still ho := by
    rcases Bool.or_eq_true_iff.mp ho with hl | hm
    · exact hc hl
    · exact Bool.noConfusion (hn.symm.trans hm)
  apart hm := Bool.noConfusion (hn.symm.trans hm)
  named := hw
  ended := hl
  queued hm := by
    have hm : noted d' = true := List.any_eq_true.mpr ⟨_,hm,rfl⟩
    exact Bool.noConfusion (hn.symm.trans hm)
  short := hshort
  shown t ht := absurd ht (hd t)
  sent := hsent

theorem inv_alert (h : Inv d) : Inv (starkUiDialogAlert d).2 := by
  have hs := shape_openDialog true none h.shape
  unfold starkUiDialogAlert
  rcases openDialog_shape true none h.shape with ⟨he,-⟩ | ⟨-,he⟩
  · rw [he]
    exact h
  · rw [he] at hs ⊢
    exact h.same hs (Or.inl rfl) (fun e he _ => he) (fun t ht => nomatch ht.2)
      (sameWork_refl _).onlySave

theorem inv_confirm (h : Inv d) (hc : d.state.calling = none) (hl : listing d = false)
    (hr : loading d = false) (ho : d.state.origin = some (pickName d.state)) :
    Inv (irsendConfirm (pickName d.state) d) := by
  rcases irsendConfirm_cases (pickName d.state) d with ⟨s,he,hs⟩ | ⟨plan,s,hp,hs,he⟩
  · rw [he]
    exact h.same (shape_same h.shape rfl rfl rfl) (Or.inl rfl) (fun e he _ => he)
      (fun t ht => ht) hs.onlySave
  · have hd : Inv { d with state := s } :=
      h.same (shape_same h.shape rfl rfl rfl) (Or.inl rfl) (fun e he _ => he)
        (fun t ht => ht) hs.onlySave
    have hname : snprintf irbrowseNameLen (pickName d.state) = pickName d.state :=
      List.take_of_length_le (Nat.le_pred_of_lt (h.short d.state.pick))
    rw [he, hname]
    unfold starkUiDialogConfirm
    have hshape := shape_openDialog false
      (some ⟨confirmMessage d.state.signal plan,d.state.signal,pickName d.state⟩) hd.shape
    rcases openDialog_shape false
      (some ⟨confirmMessage d.state.signal plan,d.state.signal,pickName d.state⟩) hd.shape with
      ⟨hb,-⟩ | ⟨-,hb⟩
    · rw [hb]
      exact hd
    · rw [hb] at hshape ⊢
      refine ⟨hshape,hd.still,hd.apart,hd.named,hd.ended,hd.queued,hd.short,fun t ht => ?_,hd.sent⟩
      obtain rfl := Option.some.inj ht.2
      refine ⟨hs.calling.trans hc,hl,hr,?_,?_,plan,?_,?_⟩
      · exact hs.signal
      · exact hs.origin.trans ho
      · exact hs.signal ▸ hp
      · exact hs.signal ▸ rfl

theorem inv_answered (h : Inv d) (t : Transmit) (i : Input) (result : StarkDialogResult)
    (ht : Confirmed ⟨d.state.signal,d.state.origin,t⟩) : Inv (sendConfirmed t i result d) := by
  have hsent : ∀ sending, Inv { d with state := { d.state with
      sent := ⟨d.state.signal,d.state.origin,t⟩::d.state.sent, sending := sending } } := by
    intro sending
    refine ⟨shape_same h.shape rfl rfl rfl,h.still,h.apart,h.named,h.ended,h.queued,h.short,
      h.shown,fun x hx => ?_⟩
    rcases List.mem_cons.mp hx with rfl | hx
    · exact ht
    · exact h.sent x hx
  rcases sendConfirmed_cases t i result d with he | ⟨sending,he | he⟩
  · rw [he]
    exact h
  · rw [he]
    exact hsent sending
  · rw [he]
    exact inv_alert (hsent sending)

theorem not_noted (h : Inv d) (hr : listing d = true ∨ loading d = true) : noted d = false := by
  refine Bool.eq_false_iff.mpr (fun hn => ?_)
  rcases hr with hr | hr
  · exact Bool.noConfusion (hr.symm.trans (h.apart hn).1)
  · exact Bool.noConfusion (hr.symm.trans (h.apart hn).2)

theorem not_asks (h : Inv d) (hr : listing d = true ∨ loading d = true) (t : Transmit) :
    ¬Asks d t := by
  intro ht
  obtain ⟨-,hl,hld,-⟩ := h.shown t ht
  rcases hr with hr | hr
  · exact Bool.noConfusion (hr.symm.trans hl)
  · exact Bool.noConfusion (hr.symm.trans hld)

theorem inv_goOn (h : Inv d) (hr : listing d = true ∨ loading d = true) {w : IrWorker} {s : IrApp}
    (ho : OnlyLoad d.state s) (hs : Short s) (hc : loads w = true → d.state.calling = none)
    (hn : ∀ name stage, w = .loading name stage → name = pickName s)
    (he : w = .loaded true → s.origin = some (pickName s)) : Inv (goOn w s d) := by
  have hnoted := not_noted h hr
  have hasks := not_asks h hr
  refine Inv.calm (shape_same h.shape rfl rfl rfl) hnoted hasks
    (fun hl => ho.calling.trans (hc hl)) (fun name stage hw => ?_) (fun hw => ?_) hs
    (fun x hx => h.sent x (ho.sent ▸ hx))
  · exact hn name stage (Worker.running.inj hw)
  · exact he (Worker.running.inj hw)

theorem inv_publish (cap : ℕ) (h : Inv d) {e : UiEvent Note} (he : isLoadNote e = false) :
    Inv (starkEventPublish cap e d) := by
  refine h.same (shape_same h.shape rfl rfl rfl) (Or.inl rfl) (fun x hx hl => ?_)
    (fun t ht => ht) (sameWork_refl _).onlySave
  rcases mem_publish hx with hx | rfl
  · exact hx
  · exact Bool.noConfusion (he.symm.trans hl)

theorem inv_ended (h : Inv d) : Inv (goOn .ended d.state d) :=
  h.same (shape_same h.shape rfl rfl rfl) (Or.inr ⟨rfl,rfl⟩) (fun _ he _ => he) (fun _ ht => ht)
    (sameWork_refl _).onlySave

theorem inv_loaded (cap : ℕ) (h : Inv d) {ok : Bool} (hw : d.worker = .running (.loaded ok)) :
    Inv (notify cap (if ok then .loaded else .failed) (goOn .ended d.state d)) := by
  have hload : loading d = true := by
    unfold loading
    rw [hw]
    rfl
  have hnoted := not_noted h (Or.inr hload)
  have hasks := not_asks h (Or.inr hload)
  have hc := h.still (Bool.or_eq_true_iff.mpr (Or.inl hload))
  refine ⟨shape_same h.shape rfl rfl rfl,fun _ => hc,fun _ => ⟨rfl,rfl⟩,
    (fun _ _ hr => nomatch hr),(fun hr => nomatch hr),fun hm => ?_,
      h.short,fun t ht => absurd ht (hasks t),h.sent⟩
  rcases mem_publish hm with hx | hx
  · have hn : noted d = true := List.any_eq_true.mpr ⟨_,hx,rfl⟩
    exact Bool.noConfusion (hnoted.symm.trans hn)
  · cases ok with
    | true => exact h.ended hw
    | false => cases hx

theorem inv_workStep (cap : ℕ) (stop : Bool) (io : Answer) (w : IrWorker) (h : Inv d)
    (hw : d.worker = .running w) : Inv (workStep cap stop io w d) := by
  have hlist : listing d = lists w := by
    unfold listing
    rw [hw]
  have hload : loading d = loads w := by
    unfold loading
    rw [hw]
  have hlists : lists w = true → Inv (workStep cap stop io w d) := by
    intro hl
    obtain ⟨w',s,he,hw',ho,hs⟩ := lists_step cap stop io d hl
    rw [he]
    refine inv_goOn h (Or.inl (hlist.trans hl)) ho (hs h.short) (fun hl' => ?_)
      (fun name stage hn => ?_) (fun hn => ?_)
    · cases w' <;> simp [lists, loads] at hw' hl'
    · subst hn
      simp [lists] at hw'
    · subst hn
      simp [lists] at hw'
  cases w with
  | list => exact hlists rfl
  | check k stage => exact hlists rfl
  | listed => exact inv_publish cap (inv_ended h) rfl
  | load =>
    exact inv_goOn h (Or.inr hload) ⟨rfl,rfl,rfl,rfl,rfl,rfl⟩ h.short
      (fun _ => h.still (Bool.or_eq_true_iff.mpr (Or.inl hload)))
      (fun name stage hn => (IrWorker.loading.inj hn).1.symm) (fun hn => nomatch hn)
  | loading name stage =>
    obtain ⟨w',s,he,ho,hslots,hw'⟩ := loading_step cap stop io name stage d
    have hpick : pickName s = pickName d.state := by
      unfold pickName
      rw [hslots, ho.pick]
    have hname := h.named name stage hw
    rw [he]
    refine inv_goOn h (Or.inr hload) ho (by unfold Short; rw [hslots]; exact h.short)
      (fun _ => h.still (Bool.or_eq_true_iff.mpr (Or.inl hload))) (fun n st hn => ?_) (fun hn => ?_)
    · rcases hw' with ⟨next,hx⟩ | hx | ⟨hx,-⟩
      · rw [hx] at hn
        rw [hpick, ← hname]
        exact (IrWorker.loading.inj hn).1.symm
      · rw [hx] at hn
        cases hn
      · rw [hx] at hn
        cases hn
    · rcases hw' with ⟨next,hx⟩ | hx | ⟨-,hx⟩
      · rw [hx] at hn
        cases hn
      · rw [hx] at hn
        cases hn
      · rw [hx, hpick, ← hname]
  | loaded ok => exact inv_loaded cap h hw
  | save a stage =>
    obtain ⟨ho,hw'⟩ := writeOne_only io a d.state stage
    have hbeside : lists (writeOne io a d.state stage).1 = false ∧
        loads (writeOne io a d.state stage).1 = false := by
      rcases hw' with hx | ⟨next,hx⟩
      · rw [hx]
        exact ⟨rfl,rfl⟩
      · rw [hx]
        exact ⟨rfl,rfl⟩
    have hs : Inv (goOn (writeOne io a d.state stage).1 (writeOne io a d.state stage).2 d) :=
      h.same (shape_same h.shape rfl rfl rfl) (Or.inr hbeside) (fun _ he _ => he) (fun _ ht => ht) ho
    exact hs
  | ended =>
    have hs : Inv { d with worker := .returned } :=
      h.same (shape_same h.shape rfl rfl rfl) (Or.inr ⟨rfl,rfl⟩) (fun _ he _ => he)
        (fun _ ht => ht) (sameWork_refl _).onlySave
    exact hs

theorem keeps (cap : ℕ) : Keeps (appIr cap) Inv where
  shape _ h := h.shape
  keys d dl h ho hd := h.same (by
    unfold Shape overlayOf
    rw [ho]
    exact h.shape) (Or.inl rfl) (fun _ he _ => he) (fun _ ht => ⟨ho ▸ ht.1,hd ▸ ht.2⟩)
    (sameWork_refl _).onlySave
  alert d h := inv_alert h
  close i d h ho := by
    have hc : Inv (closed d) := h.same (shape_closed h.shape ho) (Or.inl rfl) (fun _ he _ => he)
      (fun t ht => nomatch ht.1) (sameWork_refl _).onlySave
    rw [dialogExit_eq]
    split
    · rename_i t hd
      obtain ⟨-,-,-,ht⟩ := h.shown t ⟨ho,hd⟩
      exact inv_answered hc t i _ ht
    · exact hc
  exit i d h ho hc := by
    have hl : Inv (left d) := h.same (shape_left h.shape ho hc) (Or.inl rfl) (fun _ he _ => he)
      (fun _ ht => ht) (sameWork_refl _).onlySave
    refine exit_keeps cap (fun stop io w d h hw => inv_workStep cap stop io w h hw)
      (fun d h => ?_) (fun a d h => ?_) i hc hl
    · exact h.same (shape_same h.shape rfl rfl rfl) (Or.inr ⟨rfl,rfl⟩) (fun _ he _ => he)
        (fun _ ht => ht) (sameWork_refl _).onlySave
    · exact h.same (shape_same h.shape rfl rfl rfl) (Or.inl rfl) (fun _ he _ => he)
        (fun _ ht => ht) ⟨rfl,rfl,rfl,rfl,rfl,rfl⟩
  launch i a d h ho hc := by
    have hs := shape_launched (appIr cap) i a h.shape ho hc
    rcases launch_shape (appIr cap) i a h.shape ho hc with he | he
    · rw [he] at hs ⊢
      exact h.same hs (Or.inl rfl) (fun _ he _ => he) (fun _ ht => ht) ⟨rfl,rfl,rfl,rfl,rfl,rfl⟩
    · rw [he] at hs ⊢
      exact h.same hs (Or.inl rfl) (fun _ he _ => he) (fun _ ht => ht) ⟨rfl,rfl,rfl,rfl,rfl,rfl⟩
  last d st h := h.same (shape_same h.shape rfl rfl rfl) (Or.inl rfl) (fun _ he _ => he)
    (fun _ ht => ht) (sameWork_refl _).onlySave

theorem inv_makes (h : Inv d) (ho : d.dialog.isOpen = false) {k : ℕ} {call : Option Call}
    (hc : call ≠ none → outstanding d = false) (hm : Makes k call d d') : Inv d' := by
  cases call with
  | none =>
    obtain ⟨s,rfl,hs⟩ := hm
    exact h.same (shape_same h.shape rfl rfl rfl) (Or.inl rfl) (fun _ he _ => he) (fun _ ht => ht)
      hs.onlySave
  | some c =>
    obtain rfl := hm
    obtain ⟨hl,hn⟩ := Bool.or_eq_false_iff.mp (hc (Option.some_ne_none c))
    have hw : ∀ w, d.worker = .running w → loads w = false := by
      intro w hw
      unfold loading at hl
      rw [hw] at hl
      exact hl
    have hslots : (afterCall k c d.state).slots = d.state.slots := by cases c <;> rfl
    have hsent : (afterCall k c d.state).sent = d.state.sent := by cases c <;> rfl
    refine Inv.calm (shape_same h.shape rfl rfl rfl) hn
      (fun t ht => Bool.noConfusion (ho.symm.trans ht.1))
      (fun hr => Bool.noConfusion (hl.symm.trans hr)) (fun name stage hr => ?_) (fun hr => ?_) ?_
      (fun x hx => h.sent x (hsent ▸ hx))
    · exact Bool.noConfusion (hw _ hr)
    · exact Bool.noConfusion (hw _ hr)
    · unfold Short
      rw [hslots]
      exact h.short

theorem inv_start (h : Inv d) {c : Call} (hc : d.state.calling = some c) : Inv (startCall c d) := by
  have hout : outstanding d = false := by
    refine Bool.eq_false_iff.mpr (fun ho => ?_)
    exact absurd ((h.still ho).symm.trans hc) (fun hn => nomatch hn)
  obtain ⟨hl,hn⟩ := Bool.or_eq_false_iff.mp hout
  have hasks : ∀ t, ¬Asks d t := by
    intro t ht
    exact absurd ((h.shown t ht).1.symm.trans hc) (fun hn => nomatch hn)
  have hw : ∀ w, d.worker = .running w → loads w = false := by
    intro w hw
    unfold loading at hl
    rw [hw] at hl
    exact hl
  obtain ⟨s,hs,⟨he,-⟩ | he⟩ := startCall_cases c d
  · rw [he]
    refine Inv.calm (shape_same h.shape rfl rfl rfl) hn hasks (fun _ => hs.calling)
      (fun name stage hr => ?_) (fun hr => ?_) ?_ (fun x hx => h.sent x (hs.sent ▸ hx))
    · cases c <;> cases Worker.running.inj hr
    · cases c <;> cases Worker.running.inj hr
    · unfold Short
      rw [hs.slots]
      exact h.short
  · rw [he]
    refine Inv.calm (shape_same h.shape rfl rfl rfl) hn hasks (fun _ => hs.calling)
      (fun name stage hr => ?_) (fun hr => ?_) ?_ (fun x hx => h.sent x (hs.sent ▸ hx))
    · exact Bool.noConfusion (hw _ hr)
    · exact Bool.noConfusion (hw _ hr)
    · unfold Short
      rw [hs.slots]
      exact h.short

theorem inv_take (h : Inv d) {e : UiEvent Note} {rest : List (UiEvent Note)}
    (hq : d.queue = e::rest) : Inv { d with queue := rest } :=
  h.same (shape_same h.shape rfl rfl rfl) (Or.inl rfl)
    (fun _ hx _ => hq ▸ List.mem_cons_of_mem e hx) (fun _ ht => ht) (sameWork_refl _).onlySave

theorem inv_dispatch (cap : ℕ) (h : Inv d) (i : Input) {e : UiEvent Note}
    {rest : List (UiEvent Note)} (hq : d.queue = e::rest) (hc : d.state.calling = none)
    (hg : Quiet d (.dispatch i)) : Inv (deliver (appIr cap) i e { d with queue := rest }) := by
  have ht := inv_take h hq
  refine deliver_keeps (keeps cap) i e ht (fun a ho ha => ?_)
  change Inv (irEvent i e { d with queue := rest }).2
  by_cases hk : e = .key .ok .short
  · subst hk
    have htop : d.stack.head? = some (.app .ir) := by
      rw [shape_app h.shape ho ha]
      rfl
    refine inv_makes ht ho (fun hcall => ?_) (activate_makes i { d with queue := rest })
    refine Bool.eq_false_iff.mpr (fun hout => ?_)
    have hout' : outstanding d = true := by
      rcases Bool.or_eq_true_iff.mp hout with hl | hn
      · exact Bool.or_eq_true_iff.mpr (Or.inl hl)
      · exact Bool.or_eq_true_iff.mpr (Or.inr (noted_sub
          (fun _ hx _ => hq ▸ List.mem_cons_of_mem _ hx) hn))
    have hr := hg hout'
    unfold request okNext at hr
    rw [hq, htop] at hr
    exact hcall hr
  by_cases hl : e = .other .loaded
  · subst hl
    have hn : noted d = true := List.any_eq_true.mpr ⟨_,hq ▸ List.mem_cons_self,rfl⟩
    obtain ⟨hlist,hload⟩ := h.apart hn
    rw [irEvent_loaded]
    have hb : Inv (setBusy false { d with queue := rest }) :=
      ht.same (shape_same ht.shape rfl rfl rfl) (Or.inl rfl) (fun _ he _ => he) (fun _ ht => ht)
        ⟨rfl,rfl,rfl,rfl,rfl,rfl⟩
    exact inv_confirm hb hc hlist hload (h.queued (hq ▸ List.mem_cons_self))
  · obtain ⟨s,he,hs⟩ := irEvent_other i { d with queue := rest } hk hl
    rw [he]
    exact ht.same (shape_same ht.shape rfl rfl rfl) (Or.inl rfl) (fun _ he _ => he)
      (fun _ ht => ht) hs.onlySave

theorem step_inv (cap : ℕ) (l : Label) {t : Phone} (h : Inv d) (hg : Quiet d l)
    (hs : step cap d l = some t) : Inv t := by
  rcases step_cases hs with ⟨st,e,he,rfl⟩ | ⟨captures,rfl⟩ | ⟨io,w,hw,rfl⟩ | ⟨c,hc,rfl⟩ |
    ⟨i,e,rest,rfl,hc,hq,rfl⟩
  · have hd : Inv { d with storage := st } := h.same (shape_same h.shape rfl rfl rfl) (Or.inl rfl)
      (fun _ he _ => he) (fun _ ht => ht) (sameWork_refl _).onlySave
    refine inv_publish cap hd ?_
    cases e with
    | other what =>
      have hdriver := he what rfl
      cases what <;> first | rfl | cases hdriver
    | _ => rfl
  · exact h.same (shape_same h.shape rfl rfl rfl) (Or.inl rfl) (fun _ he _ => he) (fun _ ht => ht)
      ⟨rfl,rfl,rfl,rfl,rfl,rfl⟩
  · exact inv_workStep cap false io w h hw
  · exact inv_start h hc
  · exact inv_dispatch cap h i hq hc hg

theorem inv_booted : Inv booted where
  shape := rfl
  still _ := rfl
  apart h := nomatch h
  named _ _ h := nomatch h
  ended h := nomatch h
  queued h := nomatch h
  short _ := (by decide : 0 < irbrowseNameLen)
  shown _ h := nomatch h.1
  sent _ h := nomatch h

/-- Every transmission is the confirmed one in a run whose requests wait for loads. -/
theorem ir_sends_confirmed (cap : ℕ) (ls : List Label) (t : Phone)
    (h : Run (step cap) Quiet booted ls t) : ∀ x ∈ t.state.sent, Confirmed x :=
  (run_invariant Inv (fun _ l _ hi hg hs => step_inv cap l hi hg hs) ls inv_booted h).sent

def still : Input := ⟨false,0,[],.ok,.ok,[]⟩

def works (n : ℕ) : List Label := List.replicate n (.work ⟨true,0⟩)

def raw (us : String) : CStr := "stark-ir 1\ntimings ".toList++us.toList

def browsing : List Label :=
  [.files [("ir_0002.ir".toList,raw "900"),("ir_0001.ir".toList,raw "800")],
    .card .mounted,.dispatch still,
    .key .ok .short,.dispatch { still with launch := true },
    .key .ok .short,.dispatch { still with row := 1 },.start]++works 10++[.dispatch still]

def agreeing : List Label := [.key .ok .press,.dispatch still,.key .ok .short,.dispatch still]

def sending : List Label :=
  browsing++[.key .ok .short,.dispatch still,.start]++works 6++[.dispatch still]++agreeing

theorem ir_sends_one :
    ∃ t, Run (step 16) Quiet booted sending t ∧ t.state.sent.length = 1 ∧
      ∀ x ∈ t.state.sent, Confirmed x := by
  obtain ⟨t,ht,hn⟩ := run_witness (step 16) (G := Quiet)
    (p := fun t => t.state.sent.length = 1) (s := booted) sending (by decide) (by decide)
  exact ⟨t,ht,hn,ir_sends_confirmed 16 sending t ht⟩

/-- The second file is picked between the load of the first and its notification:
the dialog shows the first signal and the second one is loaded under it. -/
def pickedTwice : List Label :=
  browsing++[.key .ok .short,.dispatch still,.start,.key .ok .short]++works 6++
    [.dispatch { still with row := 1 },.start,.dispatch still]++works 6++[.dispatch still]++agreeing

theorem ir_sends_another :
    ¬∀ (cap : ℕ) (ls : List Label) (t : Phone), Run (step cap) Free booted ls t →
      ∀ x ∈ t.state.sent, Confirmed x := by
  intro h
  obtain ⟨t,ht,x,hx,hn⟩ := run_witness (step 16) (G := Free)
    (p := fun t => ∃ x ∈ t.state.sent, x.signal ≠ x.confirmed.shown) (s := booted) pickedTwice
    (by decide) (by decide)
  exact hn (h 16 pickedTwice t ht x hx).shown

end StarkOne.IrConfirm
