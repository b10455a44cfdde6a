import StarkOne.UiCalls

/-!
# What a dialog answers

The part of the UI's state a dialog's life depends on, and its invariant: the
dialog is open exactly while its screen is on the stack, it is armed by the
keys it was given since it opened, and each callback was called once.
-/

set_option autoImplicit false

namespace StarkOne.DialogAnswers
open StarkOne.Machine StarkOne.UiCalls
open StarkOne.UiStack (StarkKey StarkKeyAction StarkDialogResult Dialog)

def Clicked (key : StarkKey) (keys : List (StarkKey × StarkKeyAction)) : Prop :=
  ∃ before between, keys = before++(key,.press)::(between++[(key,.short)])

def Agreed (alert : Bool) (keys : List (StarkKey × StarkKeyAction)) : Prop :=
  Clicked .ok keys ∨ (alert = true ∧ Clicked .back keys)

theorem clicked_snoc (key : StarkKey) (keys : List (StarkKey × StarkKeyAction))
    (last : StarkKey × StarkKeyAction) :
    Clicked key (keys++[last]) ↔ last = (key,.short) ∧ (key,.press) ∈ keys := by
  constructor
  · rintro ⟨before,between,h⟩
    rw [← List.cons_append, ← List.append_assoc] at h
    obtain ⟨hk,hl⟩ := List.append_inj' h rfl
    exact ⟨List.head_eq_of_cons_eq hl,by simp [hk]⟩
  · rintro ⟨rfl,hm⟩
    obtain ⟨before,between,rfl⟩ := List.append_of_mem hm
    exact ⟨before,between,by simp⟩

theorem clicked_nil (key : StarkKey) : ¬Clicked key [] := by
  rintro ⟨before,between,h⟩
  simp at h

structure Desk (A : Type) where
  stack : List (Screen A)
  dialog : Dialog Bool
  opened : ℕ
  keys : List (StarkKey × StarkKeyAction)
  openings : List Opening
  answers : List Answer

def desk {A F : Type} (s : Ui A F) : Desk A :=
  ⟨s.stack,s.dialog,s.opened,s.keys,s.openings,s.answers⟩

def times (serial : ℕ) (answers : List Answer) : ℕ :=
  answers.countP (fun c => c.opening.serial = serial)

structure Filed {A : Type} (d : Desk A) : Prop where
  root : d.stack.getLast? = some .launcher
  once : d.stack.countP Screen.isDialog = if d.dialog.isOpen then 1 else 0
  latest : d.dialog.isOpen = true → ⟨d.opened,d.dialog.alert,d.dialog.done⟩ ∈ d.openings
  serials : ∀ o ∈ d.openings, o.serial ≤ d.opened ∧
    (d.dialog.isOpen = true → o.serial = d.opened → o.done = d.dialog.done)
  past : ∀ c ∈ d.answers, c.opening ∈ d.openings ∧
    (d.dialog.isOpen = true → c.opening.serial < d.opened) ∧
    (c.result = .ok ↔ Agreed c.opening.alert c.keys)
  called : ∀ o ∈ d.openings, o.done.isSome = true →
    times o.serial d.answers = if d.dialog.isOpen = true ∧ o.serial = d.opened then 0 else 1

structure Awaiting {A : Type} (d : Desk A) : Prop where
  calm : d.dialog.closing = false
  okArmed : d.dialog.isOpen = true → (d.dialog.okArmed = true ↔ (.ok,.press) ∈ d.keys)
  backArmed : d.dialog.isOpen = true → (d.dialog.backArmed = true ↔ (.back,.press) ∈ d.keys)
  unanswered : d.dialog.isOpen = true → ¬Clicked .ok d.keys ∧ ¬Clicked .back d.keys

structure Modal {A : Type} (d : Desk A) : Prop where
  filed : Filed d
  awaiting : Awaiting d

def Desk.leave {A : Type} (result : StarkDialogResult) (stack : List (Screen A)) (d : Desk A) :
    Desk A where
  stack := stack
  dialog := { d.dialog with isOpen := false, closing := false }
  opened := d.opened
  keys := d.keys
  openings := d.openings
  answers := match d.dialog.done with
    | some own => ⟨⟨d.opened,d.dialog.alert,some own⟩,d.keys,result⟩::d.answers
    | none => d.answers

section
variable {A : Type}

theorem Filed.open_of_top {d : Desk A} (h : Filed d) {stack : List (Screen A)}
    (hs : d.stack = .dialog::stack) : d.dialog.isOpen = true := by
  have ho := h.once
  by_contra hn
  simp [hs, Screen.isDialog, hn] at ho

theorem times_cons (serial : ℕ) (c : Answer) (cs : List Answer) :
    times serial (c::cs) = times serial cs+(if c.opening.serial = serial then 1 else 0) := by
  simp [times, List.countP_cons]

theorem Filed.times_opened {d : Desk A} (h : Filed d) (ho : d.dialog.isOpen = true) :
    times d.opened d.answers = 0 := by
  refine List.countP_eq_zero.mpr fun c hc => ?_
  have := (h.past c hc).2.1 ho
  simp
  omega

theorem Filed.leave {d : Desk A} (h : Filed d) {stack : List (Screen A)}
    (hs : d.stack = .dialog::stack) (hne : stack ≠ []) {result : StarkDialogResult}
    (hr : result = .ok ↔ Agreed d.dialog.alert d.keys) : Modal (d.leave result stack) := by
  have hopen := h.open_of_top hs
  have hzero := h.times_opened hopen
  refine ⟨⟨?_,?_,fun hc => Bool.noConfusion hc,fun o ho => ⟨(h.serials o ho).1,
      fun hc => Bool.noConfusion hc⟩,
    ?_,?_⟩,⟨rfl,fun hc => Bool.noConfusion hc,
      fun hc => Bool.noConfusion hc,fun hc => Bool.noConfusion hc⟩⟩
  · have hroot := h.root
    rwa [hs, List.getLast?_cons_of_ne_nil hne] at hroot
  · have hone := h.once
    rw [hs, hopen, List.countP_cons_of_pos rfl, if_pos rfl] at hone
    exact Nat.succ.inj hone
  · intro c hc
    cases hd : d.dialog.done with
    | none =>
      simp only [Desk.leave, hd] at hc
      exact ⟨(h.past c hc).1,fun hn => Bool.noConfusion hn,(h.past c hc).2.2⟩
    | some own =>
      simp only [Desk.leave, hd, List.mem_cons] at hc
      rcases hc with rfl | hc
      · exact ⟨hd ▸ h.latest hopen,fun hn => Bool.noConfusion hn,hr⟩
      · exact ⟨(h.past c hc).1,fun hn => Bool.noConfusion hn,(h.past c hc).2.2⟩
  · intro o ho hsome
    have hcalled := h.called o ho hsome
    have hdone := (h.serials o ho).2 hopen
    rw [if_neg (fun hc => Bool.noConfusion hc.1)]
    cases hd : d.dialog.done with
    | none =>
      -- a dialog without a callback is not one of these
      have hne' : o.serial ≠ d.opened := by
        intro he
        rw [hdone he, hd] at hsome
        cases hsome
      simp only [Desk.leave, hd]
      rw [hcalled, if_neg (fun hc => hne' hc.2)]
    | some own =>
      simp only [Desk.leave, hd]
      rw [times_cons]
      by_cases he : o.serial = d.opened
      · rw [he, hzero, if_pos rfl]
      · rw [hcalled, if_neg (fun hc => he hc.2), if_neg (fun hc => he hc.symm)]

end

section
variable {A F : Type}

theorem dialogExit_desk (s : Ui A F) : desk (dialogExit s) = (desk s).leave
    (if s.dialog.closing then s.dialog.result else .cancel) s.stack := by
  unfold dialogExit
  cases hd : s.dialog.done <;> simp [desk, Desk.leave, call, hd]

theorem Modal.restack {d : Desk A} (h : Modal d) {stack : List (Screen A)}
    (hroot : stack.getLast? = some .launcher)
    (hcount : stack.countP Screen.isDialog = d.stack.countP Screen.isDialog) :
    Modal { d with stack := stack } :=
  ⟨⟨hroot,hcount.trans h.filed.once,h.filed.latest,h.filed.serials,h.filed.past,h.filed.called⟩,
    ⟨h.awaiting.calm,h.awaiting.okArmed,h.awaiting.backArmed,h.awaiting.unanswered⟩⟩

theorem Modal.push {d : Desk A} (h : Modal d) {screen : Screen A}
    (hs : screen.isDialog = false) : Modal { d with stack := screen::d.stack } := by
  refine h.restack ?_ (List.countP_cons_of_neg (by simp [hs]))
  have hroot := h.filed.root
  rwa [List.getLast?_cons_of_ne_nil (fun hn => by simp [hn] at hroot)]

theorem Modal.pop {d : Desk A} (h : Modal d) {leaving below : Screen A} {rest : List (Screen A)}
    (hd : d.stack = leaving::below::rest) (hs : leaving.isDialog = false) :
    Modal { d with stack := below::rest } := by
  refine h.restack ?_ ?_
  · have hroot := h.filed.root
    rwa [hd, List.getLast?_cons_cons] at hroot
  · rw [hd, List.countP_cons_of_neg (a := leaving) (by simp [hs])]

theorem Modal.open {d : Desk A} (h : Modal d) (hclosed : d.dialog.isOpen = false)
    (dialog : Dialog Bool) (ho : dialog.isOpen = true) (hc : dialog.closing = false)
    (hok : dialog.okArmed = false) (hback : dialog.backArmed = false) :
    Modal { d with
      stack := .dialog::d.stack, dialog := dialog, opened := d.opened+1, keys := []
      openings := ⟨d.opened+1,dialog.alert,dialog.done⟩::d.openings } := by
  have hnew : ∀ o ∈ d.openings, o.serial ≤ d.opened := fun o hm => (h.filed.serials o hm).1
  have hpast : ∀ c ∈ d.answers, c.opening.serial < d.opened+1 :=
    fun c hm => Nat.lt_succ_of_le (hnew _ (h.filed.past c hm).1)
  refine ⟨⟨?_,?_,fun _ => List.mem_cons_self,?_,?_,?_⟩,⟨hc,?_,?_,?_⟩⟩
  · have hroot := h.filed.root
    rwa [List.getLast?_cons_of_ne_nil (fun hn => by simp [hn] at hroot)]
  · have honce := h.filed.once
    rw [hclosed] at honce
    rw [ho, List.countP_cons_of_pos rfl, honce]
    rfl
  · intro o hm
    rcases List.mem_cons.mp hm with rfl | hm
    · exact ⟨Nat.le_refl _,fun _ _ => rfl⟩
    · have hle := hnew o hm
      exact ⟨Nat.le_succ_of_le hle,fun _ he => absurd hle (by dsimp only at he; omega)⟩
  · exact fun c hm => ⟨List.mem_cons_of_mem _ (h.filed.past c hm).1,fun _ => hpast c hm,
      (h.filed.past c hm).2.2⟩
  · intro o hm hsome
    rcases List.mem_cons.mp hm with rfl | hm
    · rw [if_pos ⟨ho,rfl⟩]
      exact List.countP_eq_zero.mpr fun c hm => by
        have := hpast c hm
        simp
        omega
    · have hne : o.serial ≠ d.opened+1 := by
        have := hnew o hm
        omega
      rw [h.filed.called o hm hsome, if_neg (fun hx => by simp [hclosed] at hx),
        if_neg (fun hx => hne hx.2)]
  · exact fun _ => by simp [hok]
  · exact fun _ => by simp [hback]
  · exact fun _ => ⟨clicked_nil _,clicked_nil _⟩

theorem Filed.given {d : Desk A} (h : Filed d) (keys : List (StarkKey × StarkKeyAction))
    {dialog : Dialog Bool} (ho : dialog.isOpen = d.dialog.isOpen)
    (ha : dialog.alert = d.dialog.alert) (hd : dialog.done = d.dialog.done) :
    Filed { d with keys := keys, dialog := dialog } where
  root := h.root
  once := ho ▸ h.once
  latest := by
    rw [ho, ha, hd]
    exact h.latest
  serials := by
    rw [ho, hd]
    exact h.serials
  past := by
    rw [ho]
    exact h.past
  called := by
    rw [ho]
    exact h.called

theorem Modal.type {d : Desk A} (h : Modal d) (last : StarkKey × StarkKeyAction)
    {dialog : Dialog Bool} (ho : dialog.isOpen = d.dialog.isOpen)
    (ha : dialog.alert = d.dialog.alert) (hd : dialog.done = d.dialog.done)
    (hc : dialog.closing = d.dialog.closing)
    (hok : dialog.okArmed = (d.dialog.okArmed || last = (.ok,.press)))
    (hback : dialog.backArmed = (d.dialog.backArmed || last = (.back,.press)))
    (hokno : last = (.ok,.short) → d.dialog.okArmed = false)
    (hbackno : last = (.back,.short) → d.dialog.backArmed = false) :
    Modal { d with keys := d.keys++[last], dialog := dialog } := by
  refine ⟨h.filed.given _ ho ha hd,hc.trans h.awaiting.calm,fun hopen => ?_,fun hopen => ?_,
    fun hopen => ?_⟩
  · rw [hok, Bool.or_eq_true, h.awaiting.okArmed (ho ▸ hopen), List.mem_append, List.mem_singleton,
      decide_eq_true_eq, eq_comm (a := last)]
  · rw [hback, Bool.or_eq_true, h.awaiting.backArmed (ho ▸ hopen), List.mem_append,
      List.mem_singleton, decide_eq_true_eq, eq_comm (a := last)]
  · rw [clicked_snoc, clicked_snoc, ← h.awaiting.okArmed (ho ▸ hopen),
      ← h.awaiting.backArmed (ho ▸ hopen)]
    exact ⟨fun hx => by simp [hokno hx.1] at hx,fun hx => by simp [hbackno hx.1] at hx⟩

end

section
variable {A F : Type} [DecidableEq A]

theorem onExit_desk {leaving : Screen A} (h : leaving.isDialog = false) (s : Ui A F) :
    desk (onExit leaving s) = desk s := by
  cases leaving with
  | launcher => rfl
  | other overlay => rfl
  | dialog => cases h
  | app a =>
    unfold onExit
    dsimp only
    split
    · unfold onAppScreenExit
      dsimp only
      split <;> rfl
    · rfl

theorem starkUiPop_dialog {s : Ui A F} (h : Filed (desk s)) {rest : List (Screen A)}
    (hs : s.stack = .dialog::rest)
    (hr : (if s.dialog.closing then s.dialog.result else .cancel) = .ok ↔
      Agreed s.dialog.alert s.keys) : Modal (desk (starkUiPop s).2) := by
  have hroot := h.root
  unfold starkUiPop
  cases rest with
  | nil => simp [desk, hs] at hroot
  | cons below rest =>
    rw [hs]
    dsimp only [onExit]
    rw [dialogExit_desk]
    exact h.leave hs (List.cons_ne_nil _ _) hr

theorem starkUiPop_modal {s : Ui A F} (h : Modal (desk s)) : Modal (desk (starkUiPop s).2) := by
  rcases starkUiPop_cases s with ⟨-,hp⟩ | ⟨leaving,below,rest,hs,hp⟩
  · rwa [hp]
  · cases hd : leaving.isDialog with
    | false =>
      rw [hp, onExit_desk hd]
      exact h.pop hs hd
    | true =>
      obtain rfl : leaving = .dialog := by cases leaving <;> first | rfl | cases hd
      refine starkUiPop_dialog h.filed hs ?_
      have hopen := h.filed.open_of_top hs
      have hno := h.awaiting.unanswered hopen
      have hnot : ¬Agreed s.dialog.alert s.keys :=
        fun ha => ha.elim hno.1 (fun hb => hno.2 hb.2)
      rw [if_neg (by simp [show s.dialog.closing = false from h.awaiting.calm])]
      exact iff_of_false (fun hc => by cases hc) hnot

theorem finish_modal {s : Ui A F} (h : Filed (desk s)) {rest : List (Screen A)}
    (hs : s.stack = .dialog::rest) {result : StarkDialogResult}
    (hr : result = .ok ↔ Agreed s.dialog.alert s.keys) : Modal (desk (finish result s)) :=
  starkUiPop_dialog (s := { s with dialog := { s.dialog with result := result, closing := true } })
    (h.given s.keys rfl rfl rfl) hs hr

theorem dialogKey_modal {s : Ui A F} (h : Modal (desk s)) {rest : List (Screen A)}
    (hs : s.stack = .dialog::rest) (key : StarkKey) (action : StarkKeyAction) :
    Modal (desk (dialogKey key action s)) := by
  have hopen := h.filed.open_of_top hs
  have hok := h.awaiting.okArmed hopen
  have hback := h.awaiting.backArmed hopen
  have hfiled : Filed (desk { s with keys := s.keys++[(key,action)] }) :=
    h.filed.given _ rfl rfl rfl
  unfold dialogKey
  dsimp only
  split
  · exact h.type (.ok,.press) rfl rfl rfl rfl (by simp) (by simp [desk]) (by simp) (by simp)
  · split
    · rename_i harm
      refine finish_modal hfiled hs (iff_of_true rfl (Or.inl ?_))
      exact (clicked_snoc _ _ _).mpr ⟨rfl,hok.mp harm⟩
    · rename_i harm
      exact h.type (.ok,.short) rfl rfl rfl rfl (by simp [desk]) (by simp [desk])
        (fun _ => eq_false_of_ne_true harm) (by simp)
  · exact h.type (.back,.press) rfl rfl rfl rfl (by simp [desk]) (by simp) (by simp) (by simp)
  · split
    · rename_i harm
      -- BACK closes either kind, but only an alert takes it for an OK
      have hclick : Clicked .back (s.keys++[(StarkKey.back,StarkKeyAction.short)]) :=
        (clicked_snoc _ _ _).mpr ⟨rfl,hback.mp harm⟩
      have hno : ¬Clicked .ok (s.keys++[(StarkKey.back,StarkKeyAction.short)]) := by
        rw [clicked_snoc]
        exact fun hx => by simp at hx
      refine finish_modal hfiled hs ?_
      cases ha : s.dialog.alert <;> simp [Agreed, hclick, hno]
    · rename_i harm
      exact h.type (.back,.short) rfl rfl rfl rfl (by simp [desk]) (by simp [desk]) (by simp)
        (fun _ => eq_false_of_ne_true harm)
  · rename_i hop hos hbp hbs
    have hne : ∀ {k a}, (key = k → action = a → False) → (key,action) ≠ (k,a) :=
      fun hno he => hno (congrArg Prod.fst he) (congrArg Prod.snd he)
    exact h.type (key,action) rfl rfl rfl rfl (by simp [desk, hne hop]) (by simp [desk, hne hbp])
      (fun he => absurd he (hne hos)) (fun he => absurd he (hne hbs))

end

section
variable {A F I : Type} (reg : Registry I A)

theorem starkUiPush_modal {s : Ui A F} (h : Modal (desk s)) {screen : Screen A}
    (hs : screen.isDialog = false) (renders : Bool) :
    Modal (desk (starkUiPush reg screen renders s).2) := by
  rcases starkUiPush_cases reg screen renders s with ⟨err,-,hp⟩ | hp
  · rwa [hp]
  · rw [hp, show desk (onEnter screen { s with stack := screen::s.stack }) =
      { desk s with stack := screen::s.stack } by cases screen <;> rfl]
    exact h.push hs

theorem Modal.refused {d : Desk A} (h : Modal d) (hclosed : d.dialog.isOpen = false)
    {dialog : Dialog Bool} (ho : dialog.isOpen = false) (hc : dialog.closing = false) :
    Modal { d with dialog := dialog } := by
  have honce := h.filed.once
  have hcalled := h.filed.called
  simp only [hclosed, Bool.false_eq_true, if_false, false_and] at honce hcalled
  have hno : dialog.isOpen ≠ true := fun he => by simp [ho] at he
  refine ⟨⟨h.filed.root,?_,fun he => absurd he hno,fun o hm => ⟨(h.filed.serials o hm).1,
    fun he => absurd he hno⟩,fun c hm => ⟨(h.filed.past c hm).1,fun he => absurd he hno,
    (h.filed.past c hm).2.2⟩,?_⟩,
      ⟨hc,fun he => absurd he hno,fun he => absurd he hno,fun he => absurd he hno⟩⟩
  · rw [if_neg hno, honce]
  · intro o hm hsome
    rw [if_neg (fun hx => hno hx.1), hcalled o hm hsome]

theorem openDialog_modal {s : Ui A F} (h : Modal (desk s)) (alert : Bool) (done : Option Bool) :
    Modal (desk (openDialog reg alert done s).2) := by
  rcases openDialog_cases reg alert done s with
    hp | ⟨hclosed,dialog,hc,hok,hback,ha,hd,⟨ho,hp⟩ | ⟨ho,hp⟩⟩
  · rwa [hp]
  · rw [hp]
    exact h.refused hclosed ho hc
  · rw [hp, ← ha, ← hd]
    exact h.open hclosed dialog ho hc hok hback

end

theorem boot_modal {A F : Type} (exits : A → Option F) : Modal (desk (boot exits)) where
  filed := ⟨rfl,rfl,fun h => Bool.noConfusion h,fun _ h => absurd h List.not_mem_nil,
    fun _ h => absurd h List.not_mem_nil,fun _ h => absurd h List.not_mem_nil⟩
  awaiting := ⟨rfl,fun h => Bool.noConfusion h,fun h => Bool.noConfusion h,fun h => Bool.noConfusion h⟩

section
variable {A F I : Type} [DecidableEq A] (reg : Registry I A)

theorem onBusEvent_modal {s : Ui A F} (h : Modal (desk s)) (e : Event) :
    Modal (desk (onBusEvent e s)) := by
  rcases onBusEvent_cases e s with he | he | ⟨key,action,rest,hs,he⟩ | ⟨top,rest,back,-,he⟩ <;>
    rw [he]
  · exact h
  · exact h
  · exact dialogKey_modal h hs key action
  · exact h

theorem pushApp_modal {s : Ui A F} (h : Modal (desk s)) (a : A) (n : ℕ) (renders : Bool) :
    Modal (desk (pushApp reg a n renders s)) := by
  rcases pushApp_cases reg a n renders s with hp | hp <;> rw [hp]
  · exact h.push (show (Screen.app a).isDialog = false from rfl)
  · exact h

theorem step_modal {s t : Ui A F} {a : UiAction I F} (h : Modal (desk s))
    (hs : step reg s a = some t) : Modal (desk t) := by
  cases step_taken hs with
  | deliver e hf => exact onBusEvent_modal h e
  | report index r hf hr =>
    unfold onAppRequest
    split <;> exact h
  | handled used own back rest hf =>
    split
    · exact starkUiPop_modal h
    · exact h
  | started err a rest hf =>
    unfold startReturned
    dsimp only
    split <;> exact h
  | screened screen a n rest hf =>
    cases screen with
    | none => exact h
    | some g =>
      refine pushApp_modal reg ?_ a n g.renders
      unfold screenGiven
      split <;> exact h
  | returned f rest hf hp => exact h
  | left a n rest hf => exact h
  | unwinds fault rest hf hl => exact starkUiPop_modal h
  | unwound fault rest hf hl =>
    split
    · exact openDialog_modal reg (s := { s with frames := rest }) h true none
    · exact h
  | push overlay renders hm => exact starkUiPush_modal reg h rfl renders
  | pop hm => exact starkUiPop_modal h
  | popToRoot hm => exact h
  | stopCurrent hm =>
    unfold starkAppStopCurrent
    split
    · exact starkUiPop_modal h
    · exact h
  | openDialog alert done hm => exact openDialog_modal reg h alert done
  | launch id hm =>
    rcases starkAppLaunch_cases reg id s with hl | ⟨a,-,hl⟩ <;> rw [hl] <;> exact h
  | workerStart returned created hm =>
    unfold starkAppWorkerStart
    split
    · exact h
    · split <;> exact h
  | setCaps caps hm => exact h
  | fail => exact h

/-- In every run, whatever the callbacks call: the dialog is open while its screen is on
the stack, the callback of each dialog that opened is called once, when it leaves, and
the result is OK only after the press and the short press it asks for. -/
theorem dialog_answers (exits : A → Option F) (as : List (UiAction I F)) (t : Ui A F)
    (h : Run (step reg) Free (boot exits) as t) :
    (t.dialog.isOpen = true ↔ Screen.dialog ∈ t.stack) ∧
    (∀ o ∈ t.openings, o.done.isSome = true → times o.serial t.answers =
      if t.dialog.isOpen = true ∧ o.serial = t.opened then 0 else 1) ∧
    ∀ c ∈ t.answers, c.opening ∈ t.openings ∧
      (c.result = .ok ↔ Agreed c.opening.alert c.keys) := by
  have hm := run_invariant (fun s : Ui A F => Modal (desk s))
    (fun _ _ _ hs _ hst => step_modal reg hs hst) as (boot_modal exits) h
  refine ⟨?_,hm.filed.called,fun c hc => ⟨(hm.filed.past c hc).1,(hm.filed.past c hc).2.2⟩⟩
  have honce := hm.filed.once
  cases ho : t.dialog.isOpen with
  | true =>
    have hpos : 0 < t.stack.countP Screen.isDialog := by simp [desk, ho] at honce; omega
    obtain ⟨screen,hmem,hd⟩ := List.countP_pos_iff.mp hpos
    obtain rfl : screen = .dialog := by cases screen <;> first | rfl | cases hd
    exact iff_of_true rfl hmem
  | false =>
    have hzero : t.stack.countP Screen.isDialog = 0 := by simpa [desk, ho] using honce
    exact iff_of_false Bool.false_ne_true (fun hmem => List.countP_eq_zero.mp hzero _ hmem rfl)

end

def confirming : List (UiAction Bool Unit) :=
  [.openDialog false (some true),.deliver (.key .ok .press),.deliver (.key .ok .short),.ret]

theorem confirming_answers : ∃ t, Run (step pair) Free (boot (fun _ => none)) confirming t ∧
    Screen.dialog ∉ t.stack ∧ times 1 t.answers = 1 ∧
    ∀ c ∈ t.answers, c.result = .ok ∧ Agreed c.opening.alert c.keys := by
  obtain ⟨t,hr,hopen,ho,hc⟩ := run_witness (step pair) (G := Free)
    (p := fun t : Ui Bool Unit => t.dialog.isOpen = false ∧ t.openings = [⟨1,false,some true⟩] ∧
      t.answers.all (fun c => c.result = .ok))
    (s := boot (fun _ => none)) confirming (by decide) (by decide)
  have h := dialog_answers pair _ confirming t hr
  have hcalled := h.2.1 ⟨1,false,some true⟩ (by rw [ho]; exact List.mem_cons_self) rfl
  rw [hopen, if_neg (fun hx => Bool.noConfusion hx.1)] at hcalled
  refine ⟨t,hr,fun hs => ?_,hcalled,fun c hm => ?_⟩
  · exact Bool.false_ne_true (hopen.symm.trans (h.1.mpr hs))
  · have hok : c.result = .ok := by simpa using List.all_eq_true.mp hc c hm
    exact ⟨hok,(h.2.2 c hm).2.mp hok⟩

end StarkOne.DialogAnswers
