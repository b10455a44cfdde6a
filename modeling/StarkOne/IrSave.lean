import StarkOne.IrSteps

/-!
# What the IR app saves

A request to save fills the shared signal before it is known whether the worker
can be started. The files hold what was asked for as long as nobody else still
needs the shared signal when it is filled.
-/

set_option autoImplicit false

namespace StarkOne.IrSave
open StarkOne.Machine StarkOne.UiStack StarkOne.UiShape StarkOne.IrCodec StarkOne.IrRaw
open StarkOne.IrWork StarkOne.IrApp StarkOne.IrSteps
open StarkOne.StoragePath (CStr)

def textOf (s : IrSignal) : CStr := irRawFormat s irRawTextMax

def Saved (s : IrApp) : Prop := ∀ c ∈ s.commits, c.text = textOf c.asked

def fills : IrWorker → Bool
  | .list | .check _ _ | .load | .loading _ _ => true
  | _ => false

def toFormat : IrWorker → Option IrSignal
  | .save a .names | .save a (.format _) => some a
  | _ => none

def formatted : IrWorker → Option IrSignal
  | .save a (.create _) | .save a (.write _) | .save a (.close _) => some a
  | _ => none

def running (d : Phone) : Option IrWorker :=
  match d.worker with
  | .running w => some w
  | _ => none

def free (d : Phone) (a : IrSignal) : Bool :=
  (running d).all (fun w => !fills w && (toFormat w).all (· = a))

/-- A save that passes its checks finds the shared signal free. -/
def Spare (d : Phone) : Label → Prop
  | .dispatch i => ∀ a, request i d = some (.save a) → free d a = true
  | _ => True

def spares (d : Phone) : Option Call → Bool
  | some (.save a) => free d a
  | _ => true

theorem spares_iff (d : Phone) (call : Option Call) :
    spares d call = true ↔ ∀ a, call = some (.save a) → free d a = true := by
  constructor
  · rintro h a rfl
    exact h
  · intro h
    cases call with
    | none => rfl
    | some c =>
      cases c with
      | list => rfl
      | load => rfl
      | save a => exact h a rfl

instance (d : Phone) : (l : Label) → Decidable (Spare d l)
  | .dispatch i => decidable_of_iff _ (spares_iff d (request i d))
  | .key _ _ | .card _ | .fail _ | .driver _ | .files _ | .work _ | .start => isTrue trivial

structure Inv (d : Phone) : Prop where
  shape : Shape d
  before : ∀ w a, d.worker = .running w → toFormat w = some a → d.state.signal = a
  after : ∀ w a, d.worker = .running w → formatted w = some a → d.state.text = textOf a
  temp : ∀ a name, d.worker = .running (.save a (.close name)) →
    d.state.temp = some (name,d.state.text)
  calling : ∀ a, d.state.calling = some (.save a) → d.state.signal = a ∧
    ∀ w, d.worker = .running w → fills w = false
  saved : Saved d.state

structure SameSave (s t : IrApp) : Prop where
  signal : t.signal = s.signal
  text : t.text = s.text
  calling : t.calling = s.calling
  temp : t.temp = s.temp
  commits : t.commits = s.commits

theorem sameSave_refl (s : IrApp) : SameSave s s := ⟨rfl,rfl,rfl,rfl,rfl⟩

variable {d d' : Phone}

def Beside (d d' : Phone) : Prop :=
  d'.worker = d.worker ∨ ∀ w, d'.worker = .running w →
    fills w = false ∧ toFormat w = none ∧ formatted w = none

theorem Inv.same (h : Inv d) (hs : Shape d') (hw : Beside d d')
    (hsame : SameSave d.state d'.state) : Inv d' where
  shape := hs
  before w a hr ha := by
    rw [hsame.signal]
    rcases hw with hw | hw
    · exact h.before w a (hw ▸ hr) ha
    · exact nomatch ha.symm.trans (hw w hr).2.1
  after w a hr ha := by
    rw [hsame.text]
    rcases hw with hw | hw
    · exact h.after w a (hw ▸ hr) ha
    · exact nomatch ha.symm.trans (hw w hr).2.2
  temp a name hr := by
    rw [hsame.temp, hsame.text]
    rcases hw with hw | hw
    · exact h.temp a name (hw ▸ hr)
    · exact nomatch (hw _ hr).2.2
  calling a hc := by
    rw [hsame.signal]
    obtain ⟨hs,hf⟩ := h.calling a (hsame.calling ▸ hc)
    refine ⟨hs,fun w hr => ?_⟩
    rcases hw with hw | hw
    · exact hf w (hw ▸ hr)
    · exact (hw w hr).1
  saved := by
    unfold Saved
    rw [hsame.commits]
    exact h.saved

theorem inv_publish (cap : ℕ) (h : Inv d) (e : UiEvent Note) : Inv (starkEventPublish cap e d) :=
  h.same (shape_same h.shape rfl rfl rfl) (Or.inl rfl) (sameSave_refl _)

theorem inv_alert (h : Inv d) : Inv (starkUiDialogAlert d).2 := by
  have hs := shape_openDialog true none h.shape
  unfold starkUiDialogAlert
  rcases openDialog_shape true none h.shape with ⟨he,-⟩ | ⟨-,he⟩
  · rw [he]
    exact h
  · rw [he] at hs ⊢
    exact h.same hs (Or.inl rfl) (sameSave_refl _)

theorem inv_confirm (h : Inv d) (name : CStr) : Inv (irsendConfirm name d) := by
  rcases irsendConfirm_cases name d with ⟨s,he,hs⟩ | ⟨plan,s,-,hs,he⟩
  · rw [he]
    exact h.same (shape_same h.shape rfl rfl rfl) (Or.inl rfl) { hs with }
  · have hd : Inv { d with state := s } :=
      h.same (shape_same h.shape rfl rfl rfl) (Or.inl rfl) { hs with }
    rw [he]
    unfold starkUiDialogConfirm
    generalize Transmit.mk _ _ _ = t
    have hshape := shape_openDialog false (some t) hd.shape
    rcases openDialog_shape false (some t) hd.shape with ⟨hb,-⟩ | ⟨-,hb⟩
    · rw [hb]
      exact hd
    · rw [hb] at hshape ⊢
      exact hd.same hshape (Or.inl rfl) (sameSave_refl _)

theorem inv_answered (h : Inv d) (t : Transmit) (i : Input) (result : StarkDialogResult) :
    Inv (sendConfirmed t i result d) := by
  have hsent : ∀ sending, Inv { d with state := { d.state with
      sent := ⟨d.state.signal,d.state.origin,t⟩::d.state.sent, sending := sending } } :=
    fun _ => h.same (shape_same h.shape rfl rfl rfl) (Or.inl rfl) ⟨rfl,rfl,rfl,rfl,rfl⟩
  rcases sendConfirmed_cases t i result d with he | ⟨sending,he | he⟩
  · rw [he]
    exact h
  · rw [he]
    exact hsent sending
  · rw [he]
    exact inv_alert (hsent sending)

theorem inv_fills (h : Inv d) {w w' : IrWorker} {s : IrApp} (hw : d.worker = .running w)
    (hf : fills w = true) (ho : OnlyLoad d.state s) (ht : toFormat w' = none)
    (ha : formatted w' = none) : Inv (goOn w' s d) where
  shape := shape_same h.shape rfl rfl rfl
  before v a hr hv := by
    obtain rfl := Worker.running.inj hr
    exact nomatch hv.symm.trans ht
  after v a hr hv := by
    obtain rfl := Worker.running.inj hr
    exact nomatch hv.symm.trans ha
  temp a name hr := by
    obtain rfl := Worker.running.inj hr
    cases ha
  calling a hc :=
    Bool.noConfusion (hf.symm.trans ((h.calling a (ho.calling ▸ hc)).2 w hw))
  saved := by
    unfold Saved
    rw [show (goOn w' s d).state.commits = d.state.commits from ho.commits]
    exact h.saved

theorem inv_ended (h : Inv d) : Inv (goOn .ended d.state d) :=
  h.same (shape_same h.shape rfl rfl rfl)
    (Or.inr (fun _ hr => Worker.running.inj hr ▸ ⟨rfl,rfl,rfl⟩)) (sameSave_refl _)

theorem inv_saving (h : Inv d) {w' : IrWorker} {s : IrApp}
    (hs : OnlySave d.state s) (hf : fills w' = false)
    (hb : ∀ b, toFormat w' = some b → d.state.signal = b)
    (ha : ∀ b, formatted w' = some b → s.text = textOf b)
    (ht : ∀ b name, w' = .save b (.close name) → s.temp = some (name,s.text)) (hc : Saved s) :
    Inv (goOn w' s d) where
  shape := shape_same h.shape rfl rfl rfl
  before v b hr hv := by
    obtain rfl := Worker.running.inj hr
    exact hs.signal.trans (hb b hv)
  after v b hr hv := by
    obtain rfl := Worker.running.inj hr
    exact ha b hv
  temp b name hr := ht b name (Worker.running.inj hr)
  calling b hcall := by
    refine ⟨hs.signal.trans (h.calling b (hs.calling ▸ hcall)).1,fun v hr => ?_⟩
    obtain rfl := Worker.running.inj hr
    exact hf
  saved := hc

theorem inv_writeOne (h : Inv d) (io : Answer) {a : IrSignal} {stage : Saving}
    (hw : d.worker = .running (.save a stage)) :
    Inv (goOn (writeOne io a d.state stage).1 (writeOne io a d.state stage).2 d) := by
  have hsame : OnlySave d.state d.state := (sameWork_refl _).onlySave
  have hend : Inv (goOn .ended { d.state with temp := none } d) :=
    inv_saving h ⟨rfl,rfl,rfl,rfl,rfl,rfl⟩ rfl (fun _ hb => nomatch hb) (fun _ hb => nomatch hb)
      (fun _ _ hb => nomatch hb) h.saved
  cases stage with
  | names =>
    have hsig := h.before _ a hw rfl
    dsimp only [writeOne]
    split
    · exact inv_ended h
    · split
      · exact inv_ended h
      · exact inv_saving h hsame rfl (fun b hb => hsig.trans (Option.some.inj hb))
          (fun _ hb => nomatch hb) (fun _ _ hb => nomatch hb) h.saved
  | format name =>
    have hsig := h.before _ a hw rfl
    dsimp only [writeOne]
    split
    · exact inv_saving h ⟨rfl,rfl,rfl,rfl,rfl,rfl⟩ rfl (fun _ hb => nomatch hb)
        (fun _ hb => nomatch hb) (fun _ _ hb => nomatch hb) h.saved
    · refine inv_saving h ⟨rfl,rfl,rfl,rfl,rfl,rfl⟩ rfl (fun _ hb => nomatch hb)
        (fun b hb => ?_) (fun _ _ hb => nomatch hb) h.saved
      rw [← Option.some.inj hb, ← hsig]
      rfl
  | create name =>
    have htext := h.after _ a hw rfl
    dsimp only [writeOne]
    split
    · exact inv_ended h
    · exact inv_saving h ⟨rfl,rfl,rfl,rfl,rfl,rfl⟩ rfl (fun _ hb => nomatch hb)
        (fun b hb => Option.some.inj hb ▸ htext) (fun _ _ hb => nomatch hb) h.saved
  | write name =>
    have htext := h.after _ a hw rfl
    dsimp only [writeOne]
    split
    · exact hend
    · refine inv_saving h ⟨rfl,rfl,rfl,rfl,rfl,rfl⟩ rfl (fun _ hb => nomatch hb)
        (fun b hb => Option.some.inj hb ▸ htext) (fun b n hb => ?_) h.saved
      obtain ⟨-,hn⟩ := IrWorker.save.inj hb
      rw [Saving.close.inj hn]
  | close name =>
    have htext := h.after _ a hw rfl
    have htemp := h.temp a name hw
    dsimp only [writeOne]
    rw [htemp]
    split
    · rename_i heq
      obtain ⟨-,rfl⟩ := Prod.mk.inj (Option.some.inj heq)
      refine inv_saving h ⟨rfl,rfl,rfl,rfl,rfl,rfl⟩ rfl (fun _ hb => nomatch hb)
        (fun _ hb => nomatch hb) (fun _ _ hb => nomatch hb) (fun c hc => ?_)
      rcases List.mem_cons.mp hc with rfl | hc
      · exact htext
      · exact h.saved c hc
    · exact hend

theorem inv_workStep (cap : ℕ) (stop : Bool) (io : Answer) (w : IrWorker) (h : Inv d)
    (hw : d.worker = .running w) : Inv (workStep cap stop io w d) := by
  have hlists : lists w = true → Inv (workStep cap stop io w d) := by
    intro hl
    obtain ⟨w',s,he,hw',ho,-⟩ := lists_step cap stop io d hl
    rw [he]
    refine inv_fills h hw (by cases w <;> first | rfl | cases hl) ho ?_ ?_
    · cases w' <;> simp [lists, toFormat] at hw' ⊢
    · cases w' <;> simp [lists, formatted] at hw' ⊢
  cases w with
  | list => exact hlists rfl
  | check k stage => exact hlists rfl
  | listed => exact inv_publish cap (inv_ended h) _
  | load => exact inv_fills h hw rfl ⟨rfl,rfl,rfl,rfl,rfl,rfl⟩ rfl rfl
  | loading name stage =>
    obtain ⟨w',s,he,ho,-,hw'⟩ := loading_step cap stop io name stage d
    rw [he]
    rcases hw' with ⟨next,rfl⟩ | rfl | ⟨rfl,-⟩
    · exact inv_fills h hw rfl ho rfl rfl
    · exact inv_fills h hw rfl ho rfl rfl
    · exact inv_fills h hw rfl ho rfl rfl
  | loaded ok => exact inv_publish cap (inv_ended h) _
  | save a stage => exact inv_writeOne h io hw
  | ended =>
    have hs : Inv { d with worker := .returned } :=
      h.same (shape_same h.shape rfl rfl rfl) (Or.inr (fun _ hr => nomatch hr)) (sameSave_refl _)
    exact hs

theorem keeps (cap : ℕ) : Keeps (appIr cap) Inv where
  shape _ h := h.shape
  keys d dl h ho hd := h.same (by
    unfold Shape overlayOf
    rw [ho]
    exact h.shape) (Or.inl rfl) (sameSave_refl _)
  alert d h := inv_alert h
  close i d h ho := by
    have hc : Inv (closed d) := h.same (shape_closed h.shape ho) (Or.inl rfl) (sameSave_refl _)
    rw [dialogExit_eq]
    split
    · exact inv_answered hc _ i _
    · exact hc
  exit i d h ho hc := by
    have hl : Inv (left d) := h.same (shape_left h.shape ho hc) (Or.inl rfl) (sameSave_refl _)
    refine exit_keeps cap (fun stop io w d h hw => inv_workStep cap stop io w h hw)
      (fun d h => ?_) (fun a d h => ?_) i hc hl
    · exact h.same (shape_same h.shape rfl rfl rfl) (Or.inr (fun _ hn => nomatch hn))
        (sameSave_refl _)
    · exact h.same (shape_same h.shape rfl rfl rfl) (Or.inl rfl) ⟨rfl,rfl,rfl,rfl,rfl⟩
  launch i a d h ho hc := by
    have hs := shape_launched (appIr cap) i a h.shape ho hc
    rcases launch_shape (appIr cap) i a h.shape ho hc with he | he
    · rw [he] at hs ⊢
      exact h.same hs (Or.inl rfl) ⟨rfl,rfl,rfl,rfl,rfl⟩
    · rw [he] at hs ⊢
      exact h.same hs (Or.inl rfl) ⟨rfl,rfl,rfl,rfl,rfl⟩
  last d st h := h.same (shape_same h.shape rfl rfl rfl) (Or.inl rfl) (sameSave_refl _)

theorem inv_makes (h : Inv d) {k : ℕ} {call : Option Call}
    (hfree : ∀ a, call = some (.save a) → free d a = true) (hm : Makes k call d d') : Inv d' := by
  cases call with
  | none =>
    obtain ⟨s,rfl,hs⟩ := hm
    exact h.same (shape_same h.shape rfl rfl rfl) (Or.inl rfl) { hs with }
  | some c =>
    obtain rfl := hm
    cases c with
    | list => exact ⟨shape_same h.shape rfl rfl rfl,h.before,h.after,h.temp,(fun _ hn => nomatch hn),
        h.saved⟩
    | load => exact ⟨shape_same h.shape rfl rfl rfl,h.before,h.after,h.temp,(fun _ hn => nomatch hn),
        h.saved⟩
    | save a =>
      have hf : ∀ w, d.worker = .running w → fills w = false ∧ ∀ b, toFormat w = some b → b = a := by
        intro w hw
        have hf := hfree a rfl
        simp only [free, running, hw, Option.all_some, Bool.and_eq_true, Bool.not_eq_true'] at hf
        refine ⟨hf.1,fun b hb => ?_⟩
        have hb' := hf.2
        rw [hb] at hb'
        exact of_decide_eq_true hb'
      refine ⟨shape_same h.shape rfl rfl rfl,fun w b hw hb => ?_,h.after,h.temp,fun b hb => ?_,
        h.saved⟩
      · exact ((hf w hw).2 b hb).symm
      · exact ⟨Call.save.inj (Option.some.inj hb),fun w hw => (hf w hw).1⟩

theorem inv_start (h : Inv d) {c : Call} (hc : d.state.calling = some c) : Inv (startCall c d) := by
  obtain ⟨s,hs,⟨he,-⟩ | he⟩ := startCall_cases c d
  · rw [he]
    have hcalling : ∀ a, s.calling ≠ some (.save a) := by
      intro a ha
      exact nomatch hs.calling.symm.trans ha
    refine ⟨shape_same h.shape rfl rfl rfl,fun w b hw hb => ?_,fun w b hw hb => ?_,
      fun b name hw => ?_,fun b hb => absurd hb (hcalling b),?_⟩
    · obtain rfl := Worker.running.inj hw
      cases c with
      | list => cases hb
      | load => cases hb
      | save a =>
        rw [← Option.some.inj hb]
        exact hs.signal.trans (h.calling a hc).1
    · obtain rfl := Worker.running.inj hw
      cases c <;> cases hb
    · cases c <;> cases Worker.running.inj hw
    · exact fun x hx => h.saved x (hs.commits ▸ hx)
  · rw [he]
    have hd : Inv { d with state := { d.state with calling := none } } :=
      ⟨shape_same h.shape rfl rfl rfl,h.before,h.after,h.temp,(fun _ hn => nomatch hn),h.saved⟩
    exact hd.same (shape_same h.shape rfl rfl rfl) (Or.inl rfl) { hs with }

theorem inv_take (h : Inv d) (rest : List (UiEvent Note)) : Inv { d with queue := rest } :=
  h.same (shape_same h.shape rfl rfl rfl) (Or.inl rfl) (sameSave_refl _)

theorem inv_dispatch (cap : ℕ) (h : Inv d) (i : Input) {e : UiEvent Note}
    {rest : List (UiEvent Note)} (hq : d.queue = e::rest) (hg : Spare d (.dispatch i)) :
    Inv (deliver (appIr cap) i e { d with queue := rest }) := by
  have ht := inv_take h rest
  refine deliver_keeps (keeps cap) i e ht (fun a ho ha => ?_)
  change Inv (irEvent i e { d with queue := rest }).2
  by_cases hk : e = .key .ok .short
  · subst hk
    have htop : d.stack.head? = some (.app .ir) := by
      rw [shape_app h.shape ho ha]
      rfl
    refine inv_makes ht (fun b hb => ?_) (activate_makes i { d with queue := rest })
    refine hg b ?_
    unfold request okNext
    rw [hq, htop]
    exact hb
  by_cases hl : e = .other .loaded
  · subst hl
    rw [irEvent_loaded]
    have hb : Inv (setBusy false { d with queue := rest }) :=
      ht.same (shape_same ht.shape rfl rfl rfl) (Or.inl rfl) ⟨rfl,rfl,rfl,rfl,rfl⟩
    exact inv_confirm hb _
  · obtain ⟨s,he,hs⟩ := irEvent_other i { d with queue := rest } hk hl
    rw [he]
    exact ht.same (shape_same ht.shape rfl rfl rfl) (Or.inl rfl) { hs with }

theorem step_inv (cap : ℕ) (l : Label) {t : Phone} (h : Inv d) (hg : Spare d l)
    (hs : step cap d l = some t) : Inv t := by
  rcases step_cases hs with ⟨st,e,-,rfl⟩ | ⟨captures,rfl⟩ | ⟨io,w,hw,rfl⟩ | ⟨c,hc,rfl⟩ |
    ⟨i,e,rest,rfl,-,hq,rfl⟩
  · have hd : Inv { d with storage := st } :=
      h.same (shape_same h.shape rfl rfl rfl) (Or.inl rfl) (sameSave_refl _)
    exact inv_publish cap hd e
  · exact h.same (shape_same h.shape rfl rfl rfl) (Or.inl rfl) ⟨rfl,rfl,rfl,rfl,rfl⟩
  · exact inv_workStep cap false io w h hw
  · exact inv_start h hc
  · exact inv_dispatch cap h i hq hg

theorem inv_booted : Inv booted where
  shape := rfl
  before _ _ h := nomatch h
  after _ _ h := nomatch h
  temp _ _ h := nomatch h
  calling _ h := nomatch h
  saved _ h := nomatch h

def requests (d : Phone) : Label → Bool
  | .dispatch _ => okNext d
  | .start => true
  | _ => false

def toWrite (d : Phone) : Option CStr :=
  (running d).bind (fun w => match toFormat w, formatted w with
    | some _, _ => some (textOf d.state.signal)
    | none, some _ => some d.state.text
    | none, none => none)

structure SameFiles (d d' : Phone) : Prop where
  captures : d'.state.captures = d.state.captures
  commits : d'.state.commits = d.state.commits
  temp : d'.state.temp = d.state.temp
  toWrite : d'.worker = d.worker → toWrite d' = toWrite d

theorem toWrite_eq (hw : d'.worker = d.worker)
    (hs : ∀ w a, d.worker = .running w → toFormat w = some a → d'.state.signal = d.state.signal)
    (ht : d'.state.text = d.state.text) : toWrite d' = toWrite d := by
  unfold toWrite running
  rw [hw]
  cases hr : d.worker with
  | none => rfl
  | returned => rfl
  | running w =>
    dsimp only [Option.bind_some]
    cases hf : toFormat w with
    | some a => rw [hs w a hr hf]
    | none =>
      rw [ht]
      cases formatted w <;> rfl

theorem makes_files (h : Inv d) {k : ℕ} {call : Option Call}
    (hfree : ∀ a, call = some (.save a) → free d a = true) (hm : Makes k call d d') :
    SameFiles d d' := by
  cases call with
  | none =>
    obtain ⟨s,rfl,hs⟩ := hm
    exact ⟨hs.captures,hs.commits,hs.temp,fun _ => toWrite_eq rfl (fun _ _ _ _ => hs.signal) hs.text⟩
  | some c =>
    have hi := inv_makes h hfree hm
    obtain rfl := hm
    refine ⟨by cases c <;> rfl,by cases c <;> rfl,by cases c <;> rfl,
      fun hw => toWrite_eq hw (fun w a hr ha => ?_) (by cases c <;> rfl)⟩
    exact (hi.before w a hr ha).trans (h.before w a hr ha).symm

theorem request_files (cap : ℕ) (h : Inv d) {l : Label} {t : Phone} (hg : Spare d l)
    (hr : requests d l = true) (hs : step cap d l = some t) : SameFiles d t := by
  cases l with
  | start =>
    obtain ⟨c,hc,rfl⟩ := Option.map_eq_some_iff.mp hs
    obtain ⟨s,hsame,⟨he,hn⟩ | he⟩ := startCall_cases c d
    · rw [he]
      exact ⟨hsame.captures,hsame.commits,hsame.temp,fun hw => absurd hw.symm (hn _)⟩
    · rw [he]
      exact ⟨hsame.captures,hsame.commits,hsame.temp,
        fun _ => toWrite_eq rfl (fun _ _ _ _ => hsame.signal) hsame.text⟩
  | dispatch i =>
    obtain ⟨hq,htop⟩ := Bool.and_eq_true_iff.mp hr
    simp only [step] at hs
    split at hs
    · cases hs
    unfold starkEventDispatch at hs
    split at hs
    · cases hs
    rename_i e rest heq
    have hk : e = .key .ok .short := by simpa [heq] using hq
    obtain rfl := Option.some.inj hs
    subst hk
    have hdeliver := deliver_ok cap i (d := { d with queue := rest }) (of_decide_eq_true htop)
    rw [hdeliver]
    have hm := makes_files (inv_take h rest) (fun a ha => ?_)
      (activate_makes i { d with queue := rest })
    · exact ⟨hm.captures,hm.commits,hm.temp,hm.toWrite⟩
    · refine hg a ?_
      unfold request
      rw [show okNext d = true from hr]
      exact ha
  | key k a => cases hr
  | card st => cases hr
  | fail g => cases hr
  | driver what => cases hr
  | files captures => cases hr
  | work io => cases hr

/-- In a run whose saves find the signal free, each file is the one asked for and a
request leaves the files alone. -/
theorem ir_saves_asked (cap : ℕ) (ls : List Label) (t : Phone)
    (h : Run (step cap) Spare booted ls t) :
    Saved t.state ∧ ∀ l u, Spare t l → requests t l = true → step cap t l = some u →
      SameFiles t u := by
  have hi := run_invariant Inv (fun _ l _ hi hg hs => step_inv cap l hi hg hs) ls inv_booted h
  exact ⟨hi.saved,fun _ _ hg hr hs => request_files cap hi hg hr hs⟩

def still : Input := ⟨false,0,[],.ok,.ok,[]⟩

def works (n : ℕ) : List Label := List.replicate n (.work ⟨true,0⟩)

def heard (us : ℕ) : IrSignal := ⟨[us],38000,noFrame⟩

def received : List Label :=
  [.card .mounted,.dispatch still,
    .key .ok .short,.dispatch { still with launch := true },
    .driver .rx,.dispatch { still with taken := [heard 900,heard 800] }]

def savedOnce : List Label :=
  received++[.key .ok .short,.dispatch still,.start,.key .ok .short,.dispatch still,.start]++works 6

theorem ir_saves_one :
    ∃ t, Run (step 16) Spare booted savedOnce t ∧ t.state.commits.length = 1 ∧
      Saved t.state ∧ ∀ l u, Spare t l → requests t l = true → step 16 t l = some u →
        SameFiles t u := by
  obtain ⟨t,ht,hn⟩ := run_witness (step 16) (G := Spare)
    (p := fun t => t.state.commits.length = 1) (s := booted) savedOnce (by decide) (by decide)
  exact ⟨t,ht,hn,ir_saves_asked 16 savedOnce t ht⟩

/-- The older signal is asked for while the worker that saves the newer one has not
formatted it. -/
def savedOver : List Label :=
  received++[.key .ok .short,.dispatch still,.start,
    .key .ok .short,.dispatch { still with row := 3 },.start]++works 6

theorem ir_saves_another :
    ¬∀ (cap : ℕ) (ls : List Label) (t : Phone), Run (step cap) Free booted ls t →
      Saved t.state ∧ ∀ l u, requests t l = true → step cap t l = some u → SameFiles t u := by
  intro h
  obtain ⟨t,ht,c,hc,hn⟩ := run_witness (step 16) (G := Free)
    (p := fun t => ∃ c ∈ t.state.commits, c.text ≠ textOf c.asked) (s := booted) savedOver
    (by decide) (by decide)
  exact hn ((h 16 savedOver t ht).1 c hc)

end StarkOne.IrSave
