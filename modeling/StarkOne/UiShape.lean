import StarkOne.UiStack

/-!
# The shape of the screen stack

The stack is the launcher, the running app's screen over it and the open
dialog on top of either. So each pop is the end of a dialog or of the app, and
what these ends and the apps' callbacks keep is kept by every event.
-/

set_option autoImplicit false

namespace StarkOne.UiShape
open StarkOne.UiStack

section
variable {A S D W X I : Type}

def overlayOf (d : Device A S D W X) : List (Screen A) :=
  if d.dialog.isOpen then [.dialog] else []

def Shape (d : Device A S D W X) : Prop :=
  d.stack = overlayOf d++(d.current.toList.map Screen.app++[.launcher])

theorem workerStart_cases (w : W) (d : Device A S D W X) :
    (starkAppWorkerStart w d = (.ok,{ d with worker := .running w }) ∧
      ∀ w', d.worker ≠ .running w') ∨
    ∃ e : Fault, starkAppWorkerStart w d = (e.code,d) := by
  unfold starkAppWorkerStart
  split
  · exact Or.inr ⟨.state,rfl⟩
  · exact Or.inr ⟨⟨.busy,by decide⟩,rfl⟩
  · rename_i hw
    exact Or.inl ⟨rfl,fun w' h => hw w' h⟩

theorem mem_publish {cap : ℕ} {e x : UiEvent X} {d : Device A S D W X}
    (h : x ∈ (starkEventPublish cap e d).queue) : x ∈ d.queue ∨ x = e := by
  rcases List.mem_append.mp h with hx | hx
  · refine Or.inl ?_
    split at hx
    · exact List.mem_of_mem_tail hx
    · exact hx
  · exact Or.inr (List.mem_singleton.mp hx)

/-- What keeps a property of devices: the ends of dialogs and apps, launches and
what happens beside the screens. -/
structure Keeps (code : Apps A S D W X I) (Inv : Device A S D W X → Prop) : Prop where
  shape : ∀ d, Inv d → Shape d
  keys : ∀ d dl, Inv d → dl.isOpen = d.dialog.isOpen → dl.done = d.dialog.done →
    Inv { d with dialog := dl }
  alert : ∀ d, Inv d → Inv (starkUiDialogAlert d).2
  close : ∀ i d, Inv d → d.dialog.isOpen = true →
    Inv (dialogExit code i { d with stack := d.stack.tail })
  exit : ∀ i d, Inv d → d.dialog.isOpen = false → d.current.isSome = true →
    Inv (onAppScreenExit code i { d with stack := d.stack.tail })
  launch : ∀ i a d, Inv d → d.dialog.isOpen = false → d.current = none →
    Inv (starkAppLaunch code i a d).2
  last : ∀ d st, Inv d → Inv { d with storageLast := st }

variable {code : Apps A S D W X I} {d : Device A S D W X}

theorem shape_dialog (h : Shape d) (ho : d.dialog.isOpen = true) :
    d.stack = .dialog::(d.current.toList.map Screen.app++[.launcher]) := by
  rw [h, overlayOf, if_pos ho]
  rfl

theorem shape_app (h : Shape d) (ho : d.dialog.isOpen = false) {a : A} (hc : d.current = some a) :
    d.stack = [.app a,.launcher] := by
  rw [h, overlayOf, ho, hc]
  rfl

theorem shape_launcher (h : Shape d) (ho : d.dialog.isOpen = false) (hc : d.current = none) :
    d.stack = [.launcher] := by
  rw [h, overlayOf, ho, hc]
  rfl

/-- The top screen is the dialog, the app's or the launcher. -/
theorem shape_top (h : Shape d) :
    (d.dialog.isOpen = true ∧ d.stack.head? = some .dialog) ∨
    (d.dialog.isOpen = false ∧ ∃ a, d.current = some a ∧ d.stack.head? = some (.app a)) ∨
    (d.dialog.isOpen = false ∧ d.current = none ∧ d.stack.head? = some .launcher) := by
  cases ho : d.dialog.isOpen with
  | true => exact Or.inl ⟨rfl,by rw [shape_dialog h ho]; rfl⟩
  | false =>
    cases hc : d.current with
    | some a => exact Or.inr (Or.inl ⟨rfl,a,rfl,by rw [shape_app h ho hc]; rfl⟩)
    | none => exact Or.inr (Or.inr ⟨rfl,rfl,by rw [shape_launcher h ho hc]; rfl⟩)

theorem openDialog_shape (alert : Bool) (done : Option D) (h : Shape d) :
    (openDialog alert done d = (.busy,d) ∧ d.dialog.isOpen = true) ∨
    (d.dialog.isOpen = false ∧ openDialog alert done d = (.ok,{ d with
      stack := .dialog::d.stack
      dialog := { d.dialog with
        isOpen := true, closing := false, alert := alert, okArmed := false, backArmed := false
        done := done } })) := by
  cases ho : d.dialog.isOpen with
  | true => exact Or.inl ⟨by simp [openDialog, ho],rfl⟩
  | false =>
    refine Or.inr ⟨rfl,?_⟩
    have hs : d.stack = d.current.toList.map Screen.app++[.launcher] := by
      rw [h, overlayOf, ho]
      rfl
    cases hc : d.current with
    | some a =>
      rw [hc] at hs
      simp [openDialog, starkUiPush, ho, hc, hs, uiStackDepth, Screen.overlay]
    | none =>
      rw [hc] at hs
      simp [openDialog, starkUiPush, ho, hc, hs, uiStackDepth, Screen.overlay]

theorem shape_openDialog (alert : Bool) (done : Option D) (h : Shape d) :
    Shape (openDialog alert done d).2 := by
  rcases openDialog_shape alert done h with ⟨he,-⟩ | ⟨ho,he⟩
  · rw [he]
    exact h
  · rw [he]
    change Screen.dialog::d.stack = _
    rw [h, overlayOf, ho]
    rfl

def closed (d : Device A S D W X) : Device A S D W X :=
  { d with
    stack := d.stack.tail
    dialog := { d.dialog with isOpen := false, closing := false } }

theorem shape_closed (h : Shape d) (ho : d.dialog.isOpen = true) : Shape (closed d) := by
  change d.stack.tail = _
  rw [shape_dialog h ho]
  rfl

theorem dialogExit_eq (i : I) : dialogExit code i { d with stack := d.stack.tail } =
    match d.dialog.done with
    | some f => code.done f i (if d.dialog.closing then d.dialog.result else .cancel) (closed d)
    | none => closed d := rfl

def left (d : Device A S D W X) : Device A S D W X :=
  { d with stack := d.stack.tail, current := none }

theorem shape_left (h : Shape d) (ho : d.dialog.isOpen = false) (hc : d.current.isSome = true) :
    Shape (left d) := by
  obtain ⟨a,ha⟩ := Option.isSome_iff_exists.mp hc
  change d.stack.tail = overlayOf d++_
  rw [shape_app h ho ha, overlayOf, ho]
  rfl

theorem onAppScreenExit_eq (i : I) {a : A} (hc : d.current = some a) :
    onAppScreenExit code i { d with stack := d.stack.tail } =
      { appWorkerJoin code i (left d) with
        state := code.onStop a (appWorkerJoin code i (left d)).state } := by
  unfold onAppScreenExit
  dsimp only
  rw [hc]
  rfl

variable (code) in
theorem launch_shape (i : I) (a : A) (h : Shape d)
    (ho : d.dialog.isOpen = false) (hc : d.current = none) :
    (starkAppLaunch code i a d).2 = { d with state := (code.onStart a i d.state).2 } ∨
    (starkAppLaunch code i a d).2 = { d with
      state := (code.onStart a i d.state).2
      generation := d.generation+1
      current := some a
      stack := .app a::d.stack } := by
  have hs := shape_launcher h ho hc
  unfold starkAppLaunch
  rw [hc]
  dsimp only
  split
  · exact Or.inl rfl
  · simp [starkUiPush, hs, uiStackDepth, Screen.overlay]

variable (code) in
theorem shape_launched (i : I) (a : A) (h : Shape d)
    (ho : d.dialog.isOpen = false) (hc : d.current = none) :
    Shape (starkAppLaunch code i a d).2 := by
  rcases launch_shape code i a h ho hc with he | he
  · rw [he]
    exact h
  · rw [he]
    change Screen.app a::d.stack = overlayOf d++_
    rw [shape_launcher h ho hc, overlayOf, ho]
    rfl

theorem shape_same {d' : Device A S D W X} (h : Shape d) (hs : d'.stack = d.stack)
    (hd : d'.dialog = d.dialog) (hc : d'.current = d.current) : Shape d' := by
  unfold Shape overlayOf
  rw [hs, hd, hc]
  exact h

section
variable {Inv : Device A S D W X → Prop} (hk : Keeps code Inv) (i : I)
include hk

theorem pop_keeps (h : Inv d) : Inv (starkUiPop code i d).2 := by
  have hs := hk.shape d h
  cases ho : d.dialog.isOpen with
  | true =>
    have hd := hk.close i d h ho
    have ht := shape_dialog hs ho
    cases hr : d.current.toList.map Screen.app++[Screen.launcher] with
    | nil => simp at hr
    | cons below rest =>
      rw [hr] at ht
      rw [ht] at hd
      unfold starkUiPop
      rw [ht]
      exact hd
  | false =>
    cases hc : d.current with
    | some a =>
      have ht := shape_app hs ho hc
      have hd := hk.exit i d h ho (by rw [hc]; rfl)
      rw [ht] at hd
      unfold starkUiPop
      rw [ht]
      exact hd
    | none =>
      unfold starkUiPop
      rw [shape_launcher hs ho hc]
      exact h

theorem popWhile_keeps (n : ℕ) (h : Inv d) : Inv (popWhile code i n d) := by
  induction n generalizing d with
  | zero => exact h
  | succ n ih =>
    unfold popWhile
    split
    · exact ih (pop_keeps hk i h)
    · exact h

theorem finish_keeps (result : StarkDialogResult) (h : Inv d) : Inv (finish code i result d) :=
  pop_keeps hk i (hk.keys d { d.dialog with result := result, closing := true } h rfl rfl)

theorem dialogEvent_keeps (e : UiEvent X) (h : Inv d) : Inv (dialogEvent code i e d).2 := by
  unfold dialogEvent
  split
  · exact hk.keys d { d.dialog with okArmed := true } h rfl rfl
  · dsimp only
    split
    · exact finish_keeps hk i _ h
    · exact h
  · exact hk.keys d { d.dialog with backArmed := true } h rfl rfl
  · dsimp only
    split
    · exact finish_keeps hk i _ h
    · exact h
  · exact h
  · exact h

theorem launcherEvent_keeps (e : UiEvent X) (h : Inv d) (ho : d.dialog.isOpen = false)
    (hc : d.current = none) : Inv (launcherEvent code i e d).2 := by
  unfold launcherEvent
  split
  · exact h
  · split
    · exact hk.launch i _ d h ho hc
    · exact h
  · exact h
  · exact h

theorem onBusEvent_keeps (e : UiEvent X) (h : Inv d)
    (he : ∀ a, d.dialog.isOpen = false → d.current = some a → Inv (code.onEvent a i e d).2) :
    Inv (onBusEvent code i e d) := by
  have hscreen : ∀ top, d.stack.head? = some top → Inv (screenEvent code i e d top).2 := by
    intro top ht
    rcases shape_top (hk.shape d h) with ⟨ho,hd⟩ | ⟨ho,a,hc,hd⟩ | ⟨ho,hc,hd⟩
    · obtain rfl := Option.some.inj (ht.symm.trans hd)
      exact dialogEvent_keeps hk i e h
    · obtain rfl := Option.some.inj (ht.symm.trans hd)
      exact he a ho hc
    · obtain rfl := Option.some.inj (ht.symm.trans hd)
      exact launcherEvent_keeps hk i e h ho hc
  unfold onBusEvent
  split
  · exact h
  · rename_i top rest hst
    have hs := hscreen top (by rw [hst]; rfl)
    split
    · exact h
    · exact popWhile_keeps hk i _ h
    · dsimp only
      split
      · exact hs
      · split
        · exact pop_keeps hk i hs
        · exact hs

theorem onAppRequest_keeps (e : UiEvent X) (h : Inv d) : Inv (onAppRequest code i e d) := by
  unfold onAppRequest
  split
  · split
    · exact hk.alert _ (popWhile_keeps hk i _ h)
    · exact h
  · exact h

theorem onStorage_keeps (e : UiEvent X) (h : Inv d) : Inv (onStorage e d) := by
  unfold onStorage
  split
  · dsimp only
    split
    · exact hk.last _ _ (hk.alert d h)
    · exact hk.last _ _ h
  · exact h

/-- An event keeps what the ends and the app's own callback for it keep. -/
theorem deliver_keeps (e : UiEvent X) (h : Inv d)
    (he : ∀ a, d.dialog.isOpen = false → d.current = some a → Inv (code.onEvent a i e d).2) :
    Inv (deliver code i e d) :=
  onStorage_keeps hk e (onAppRequest_keeps hk i e (onBusEvent_keeps hk i e h he))

end

theorem deliver_other (i : I) (x : X) (h : Shape d) :
    deliver code i (.other x) d =
      match d.dialog.isOpen, d.current with
      | false, some a => (code.onEvent a i (.other x) d).2
      | _, _ => d := by
  change onBusEvent code i (.other x) d = _
  cases ho : d.dialog.isOpen with
  | true =>
    simp [onBusEvent, shape_dialog h ho, screenEvent, dialogEvent]
  | false =>
    cases hc : d.current with
    | some a =>
      simp only [onBusEvent, shape_app h ho hc, screenEvent]
      exact ite_self _
    | none => simp [onBusEvent, shape_launcher h ho hc, screenEvent, launcherEvent]

end

end StarkOne.UiShape
