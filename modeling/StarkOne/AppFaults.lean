import StarkOne.AppBracket
import StarkOne.DialogAnswers

/-!
# Fault reports and the calls they find

A report unwinds the screen stack only for the launch it was raised in. What
this rests on is the order of the calls in progress: nothing of the UI task's
own launches an app while a report is carried out.
-/

set_option autoImplicit false

namespace StarkOne.AppFaults
open StarkOne.Machine StarkOne.UiCalls StarkOne.AppBracket
open StarkOne.DialogAnswers (Modal desk step_modal boot_modal)

def atBottom {A : Type} : Frame A → Bool
  | .event _ _ => true
  | .unwind (some _) => true
  | _ => false

def starting {A : Type} : Frame A → Bool
  | .start _ => true
  | .screen _ _ => true
  | _ => false

/-- An event and a report are handled with nothing else in progress, an app starts under no
report, and a `done` that is not the app's makes no calls of its own. -/
def Placed {A : Type} : List (Frame A) → Prop
  | [] => True
  | f::rest => (atBottom f = true → rest = []) ∧
      (∀ under, rest = .done false::under → inApp under = true) ∧
      (starting f = true → ∀ r, Frame.unwind (some r) ∉ rest) ∧ Placed rest

/-- Launches are made outside the apps' callbacks. A dialog whose `done` is not the app's is
opened over a running app; other screens are an app's; and screens are not popped by
such a `done`. -/
def Bracketed {A F I : Type} (s : Ui A F) : UiAction I F → Prop
  | .launch _ => inApp s.frames = false
  | .openDialog _ done => done = some false → s.current.isSome = true
  | .push _ _ => inApp s.frames = true
  | .pop => inApp s.frames = true ∨ s.frames.head? ≠ some (.done false)
  | .popToRoot => inApp s.frames = true ∨ s.frames.head? ≠ some (.done false)
  | .stopCurrent => inApp s.frames = true ∨ s.frames.head? ≠ some (.done false)
  | _ => True

instance {A F I : Type} [DecidableEq A] (s : Ui A F) : (a : UiAction I F) → Decidable (Bracketed s a)
  | .launch _ => inferInstanceAs (Decidable (inApp s.frames = false))
  | .openDialog _ done => inferInstanceAs (Decidable (done = some false → s.current.isSome = true))
  | .push _ _ => inferInstanceAs (Decidable (inApp s.frames = true))
  | .pop | .popToRoot | .stopCurrent =>
    inferInstanceAs (Decidable (inApp s.frames = true ∨ s.frames.head? ≠ some (.done false)))
  | .deliver _ | .report _ | .handled _ | .started _ | .screened _ | .ret | .run
  | .workerStart _ _ | .setCaps _ | .fail => inferInstanceAs (Decidable True)

theorem bracketed_outside {A F I : Type} (s : Ui A F) (a : UiAction I F) (h : Bracketed s a) :
    Outside s a := by
  cases a <;> first | exact h | trivial

structure Orderly {A F : Type} (s : Ui A F) : Prop where
  placed : Placed s.frames
  /-- Such a `done` runs while the app it was opened over is still recorded. -/
  backed : ∀ rest, s.frames = .done false::rest → inApp rest = false → s.current.isSome = true
  covers : s.dialog.isOpen = true → s.dialog.done = some false →
    ∃ above below a, s.stack = above++.dialog::below ∧ Screen.app a ∈ below
  generation : s.generation = UInt32.ofNat s.launches
  reports : ∀ r ∈ s.reports, r.1 = UInt32.ofNat r.2 ∧ r.2 ≤ s.launches
  fault : ∀ r, .unwind (some r) ∈ s.frames → s.launches < 2^32 → r = s.launches

section
variable {A F : Type}

def Open (fs : List (Frame A)) : Prop := ∀ under, fs = .done false::under → inApp under = true

theorem open_nil : Open ([] : List (Frame A)) := fun under hu => by cases hu

theorem open_of_inApp {fs : List (Frame A)} (h : inApp fs = true) : Open fs := by
  rintro under rfl
  simpa [inApp, Frame.own] using h

theorem open_of_guard {fs : List (Frame A)}
    (h : inApp fs = true ∨ fs.head? ≠ some (.done false)) : Open fs := by
  rcases h with h | h
  · exact open_of_inApp h
  · rintro under rfl
    exact absurd rfl h

theorem Orderly.call {s : Ui A F} (h : Orderly s) (hopen : Open s.frames) {f : Frame A}
    (hb : atBottom f = false) (hs : starting f = false)
    (hd : f = .done false → inApp s.frames = false → s.current.isSome = true) :
    Orderly (call f s) where
  placed := ⟨fun he => absurd (hb.symm.trans he) Bool.false_ne_true,hopen,
    fun he => absurd (hs.symm.trans he) Bool.false_ne_true,h.placed⟩
  backed rest hf hn := by
    obtain ⟨rfl,rfl⟩ := List.cons.inj hf
    exact hd rfl hn
  covers := h.covers
  generation := h.generation
  reports := h.reports
  fault r hm := by
    rcases List.mem_cons.mp hm with rfl | hm
    · cases hb
    · exact h.fault r hm

theorem Orderly.back {s : Ui A F} (h : Orderly s) {f : Frame A} {rest : List (Frame A)}
    (hf : s.frames = f::rest) : Orderly { s with frames := rest } where
  placed := by
    have hp := h.placed
    rw [hf] at hp
    exact hp.2.2.2
  backed under hu hn := by
    have hp := h.placed
    rw [hf] at hp
    exact absurd (hn.symm.trans (hp.2.1 under hu)) Bool.false_ne_true
  covers := h.covers
  generation := h.generation
  reports := h.reports
  fault r hm := h.fault r (hf ▸ List.mem_cons_of_mem _ hm)

theorem Orderly.open_under {s : Ui A F} (h : Orderly s) {f : Frame A} {rest : List (Frame A)}
    (hf : s.frames = f::rest) : Open rest := by
  have hp := h.placed
  rw [hf] at hp
  exact hp.2.1

end

section
variable {A F : Type}

theorem covers_tail {leaving : Screen A} {stack : List (Screen A)} (hl : leaving ≠ .dialog)
    (h : ∃ above below a, leaving::stack = above++Screen.dialog::below ∧ Screen.app a ∈ below) :
    ∃ above below a, stack = above++Screen.dialog::below ∧ Screen.app a ∈ below := by
  obtain ⟨above,below,a,hs,ha⟩ := h
  cases above with
  | nil => exact absurd (List.cons.inj hs).1 hl
  | cons top above => exact ⟨above,below,a,(List.cons.inj hs).2,ha⟩

theorem app_recorded {s : Ui A F} (h : Kept (life s)) {a : A} (hs : Screen.app a ∈ s.stack) :
    s.current.isSome = true := by
  obtain ⟨n,hc⟩ := (h.recorded a).mp hs
  rw [hc]
  rfl

theorem recorded_app {s : Ui A F} (h : Kept (life s)) (hc : s.current.isSome = true) :
    ∃ a, Screen.app a ∈ s.stack := by
  obtain ⟨c,hc⟩ := Option.isSome_iff_exists.mp hc
  exact ⟨c.1,(h.recorded c.1).mpr ⟨c.2,hc⟩⟩

theorem Orderly.restack {s : Ui A F} (h : Orderly s) {leaving : Screen A}
    {stack : List (Screen A)} (hs : s.stack = leaving::stack) (hl : leaving ≠ .dialog) :
    Orderly { s with stack := stack } :=
  ⟨h.placed,h.backed,fun ho hd => covers_tail hl (hs ▸ h.covers ho hd),h.generation,h.reports,h.fault⟩

theorem dialogExit_orderly {s : Ui A F} (h : Orderly s) (hopen : Open s.frames)
    {rest : List (Screen A)}
    (hover : s.dialog.done = some false → s.current.isSome = true) :
    Orderly (dialogExit { s with stack := rest }) := by
  have hclosed : Orderly { s with
      stack := rest, dialog := { s.dialog with isOpen := false, closing := false } } :=
    ⟨h.placed,h.backed,fun ho _ => Bool.noConfusion ho,h.generation,h.reports,h.fault⟩
  unfold dialogExit
  dsimp only
  split
  · rename_i own hd
    have hcall := hclosed.call hopen (f := .done own) rfl rfl (fun he _ => hover (by
      rw [hd]
      injection he with he
      rw [he]))
    exact ⟨hcall.placed,hcall.backed,hcall.covers,hcall.generation,hcall.reports,hcall.fault⟩
  · exact hclosed

end

section
variable {A F : Type} [DecidableEq A]

theorem starkUiPop_orderly {s : Ui A F} (h : Orderly s) (hk : Kept (life s))
    (hopen : Open s.frames) (hmodal : ∀ rest, s.stack = .dialog::rest → s.dialog.isOpen = true) :
    Orderly (starkUiPop s).2 := by
  rcases starkUiPop_cases s with ⟨-,hp⟩ | ⟨leaving,below,rest,hs,hp⟩
  · rwa [hp]
  · cases leaving with
    | launcher =>
      rw [hp]
      exact h.restack hs (by simp)
    | other overlay =>
      rw [hp]
      exact (h.restack hs (by simp)).call hopen rfl rfl (fun he => by cases he)
    | dialog =>
      rw [hp]
      refine dialogExit_orderly h hopen fun hd => ?_
      obtain ⟨above,under,a,he,ha⟩ := h.covers (hmodal _ hs) hd
      exact app_recorded hk (he ▸ List.mem_append_right _ (List.mem_cons_of_mem _ ha))
    | app a =>
      obtain ⟨n,hc,-⟩ := hk.top hs
      rw [starkUiPop_app hk hc hs]
      have hr := (h.restack hs (by simp)).call hopen (f := .leave a n) rfl rfl
        (fun he => by cases he)
      exact ⟨hr.placed,fun _ hu => absurd (List.cons.inj hu).1 (by simp),hr.covers,hr.generation,
        hr.reports,hr.fault⟩

structure Reached (s : Ui A F) : Prop where
  kept : Kept (life s)
  modal : Modal (desk s)
  orderly : Orderly s

theorem Reached.pop {s : Ui A F} (h : Reached s) (hopen : Open s.frames) :
    Orderly (starkUiPop s).2 :=
  starkUiPop_orderly h.orderly h.kept hopen (fun _ hs => h.modal.filed.open_of_top hs)

theorem dialogKey_orderly {s : Ui A F} (h : Reached s) (hopen : Open s.frames)
    {rest : List (Screen A)} (hs : s.stack = .dialog::rest) (key : UiStack.StarkKey)
    (action : UiStack.StarkKeyAction) : Orderly (dialogKey key action s) := by
  have hdialog : s.dialog.isOpen = true := h.modal.filed.open_of_top hs
  have hpart : ∀ keys (dialog : UiStack.Dialog Bool), dialog.isOpen = s.dialog.isOpen →
      dialog.done = s.dialog.done → Orderly { s with keys := keys, dialog := dialog } := by
    intro keys dialog ho hd
    have ho' := h.orderly
    exact ⟨ho'.placed,ho'.backed,fun hi hn => ho'.covers (ho ▸ hi) (hd ▸ hn),ho'.generation,ho'.reports,
      ho'.fault⟩
  have hfinish : ∀ keys result, Orderly (finish result { s with keys := keys }) := by
    intro keys result
    exact starkUiPop_orderly (s := { s with
        keys := keys, dialog := { s.dialog with result := result, closing := true } })
      (hpart keys _ rfl rfl) h.kept hopen (fun _ _ => hdialog)
  unfold dialogKey
  dsimp only
  split
  · exact hpart _ _ rfl rfl
  · split
    · exact hfinish _ _
    · exact hpart _ _ rfl rfl
  · exact hpart _ _ rfl rfl
  · split
    · exact hfinish _ _
    · exact hpart _ _ rfl rfl
  · exact hpart _ _ rfl rfl

theorem onBusEvent_orderly {s : Ui A F} (h : Reached s) (hf : s.frames = []) (e : Event) :
    Orderly (onBusEvent e s) := by
  have hopen : Open s.frames := hf ▸ open_nil
  rcases onBusEvent_cases e s with he | he | ⟨key,action,rest,hs,he⟩ | ⟨top,rest,back,-,he⟩ <;>
    rw [he]
  · exact h.orderly
  · exact h.orderly.call hopen rfl rfl (fun hd => by cases hd)
  · exact dialogKey_orderly h hopen hs key action
  · have ho := h.orderly
    refine ⟨⟨fun _ => hf,hopen,fun hst => Bool.noConfusion hst,ho.placed⟩,
      fun under hu => absurd (List.cons.inj hu).1 (by simp),
      ho.covers,ho.generation,ho.reports,fun r hm => ?_⟩
    rcases List.mem_cons.mp hm with hm | hm
    · cases hm
    · exact ho.fault r hm

end

section
variable {A F I : Type} (reg : Registry I A)

theorem openDialog_orderly {s : Ui A F} (h : Orderly s) (hk : Kept (life s)) (alert : Bool)
    (done : Option Bool) (hg : done = some false → s.current.isSome = true) :
    Orderly (openDialog reg alert done s).2 := by
  rcases openDialog_cases reg alert done s with
    hp | ⟨-,dialog,-,-,-,-,hd,⟨ho,hp⟩ | ⟨-,hp⟩⟩ <;> rw [hp]
  · exact h
  · exact ⟨h.placed,h.backed,fun hi _ => absurd (ho.symm.trans hi) Bool.false_ne_true,h.generation,
      h.reports,h.fault⟩
  · refine ⟨h.placed,h.backed,fun _ hn => ?_,h.generation,h.reports,h.fault⟩
    obtain ⟨a,ha⟩ := recorded_app hk (hg (hd.symm.trans hn))
    exact ⟨[],s.stack,a,rfl,ha⟩

theorem covers_cons {screen : Screen A} {stack : List (Screen A)}
    (h : ∃ above below a, stack = above++Screen.dialog::below ∧ Screen.app a ∈ below) :
    ∃ above below a, screen::stack = above++Screen.dialog::below ∧ Screen.app a ∈ below := by
  obtain ⟨above,below,a,hs,ha⟩ := h
  exact ⟨screen::above,below,a,by rw [hs]; rfl,ha⟩

theorem starkUiPush_orderly {s : Ui A F} (h : Orderly s) (hopen : Open s.frames)
    (overlay renders : Bool) : Orderly (starkUiPush reg (.other overlay) renders s).2 := by
  rcases starkUiPush_cases reg (.other overlay) renders s with ⟨err,-,hp⟩ | hp <;> rw [hp]
  · exact h
  · have hc := h.call hopen (f := .enter) rfl rfl (fun he => by cases he)
    exact ⟨hc.placed,fun under hu => absurd (List.cons.inj hu).1 (by simp),
      fun ho hd => covers_cons (h.covers ho hd),hc.generation,hc.reports,hc.fault⟩

theorem Orderly.replace {s : Ui A F} (h : Orderly s) {f g : Frame A} {rest : List (Frame A)}
    (hf : s.frames = f::rest) (hb : atBottom g = false)
    (hs : starting g = true → starting f = true) (hd : g ≠ .done false) :
    Orderly { s with frames := g::rest } := by
  have hp := h.placed
  rw [hf] at hp
  have hback := h.back hf
  refine ⟨⟨fun he => absurd (hb.symm.trans he) Bool.false_ne_true,hp.2.1,
      fun hst => hp.2.2.1 (hs hst),hp.2.2.2⟩,
    fun under hu => absurd (List.cons.inj hu).1 hd,h.covers,h.generation,h.reports,fun r hm => ?_⟩
  rcases List.mem_cons.mp hm with hm | hm
  · rw [← hm] at hb
    cases hb
  · exact hback.fault r hm

theorem starkAppLaunch_orderly {s : Ui A F} (h : Orderly s) (hm : mayCall s = true)
    (hg : inApp s.frames = false) (hc : s.current = none) (a : A) :
    Orderly (call (.start a) s) := by
  have hidle : Open s.frames ∧ ∀ r, Frame.unwind (some r) ∉ s.frames := by
    cases hf : s.frames with
    | nil => exact ⟨open_nil,fun r => List.not_mem_nil⟩
    | cons f rest =>
      have hp := h.placed
      rw [hf] at hp hg
      obtain ⟨hfown,hrest⟩ : f.own = false ∧ inApp rest = false := by
        simpa [inApp, Bool.or_eq_false_iff] using hg
      cases f with
      | event own back =>
        obtain rfl := hp.1 rfl
        exact ⟨fun under hu => absurd (List.cons.inj hu).1 (by simp),fun r hr => by simp at hr⟩
      | done own =>
        obtain rfl : own = false := hfown
        have := h.backed rest hf hrest
        rw [hc] at this
        cases this
      | unwind fault =>
        rw [mayCall, hf] at hm
        cases hm
      | enter => cases hfown
      | exit => cases hfown
      | start b => cases hfown
      | screen b n => cases hfown
      | leave b n => cases hfown
      | stop b n => cases hfown
  refine ⟨⟨fun he => Bool.noConfusion he,hidle.1,fun _ => hidle.2,h.placed⟩,
    fun under hu => absurd (List.cons.inj hu).1 (by simp),h.covers,h.generation,h.reports,fun r hm => ?_⟩
  rcases List.mem_cons.mp hm with hm | hm
  · cases hm
  · exact h.fault r hm

theorem stopApp_orderly {s : Ui A F} (h : Orderly s) {f : Frame A} {rest : List (Frame A)}
    (hf : s.frames = f::rest) (a : A) (n : ℕ) :
    Orderly (stopApp a n { s with frames := rest }) := by
  have hr := h.replace hf (g := .stop a n) rfl (fun he => by cases he) (by simp)
  exact ⟨hr.placed,fun under hu => absurd (List.cons.inj hu).1 (by simp),hr.covers,hr.generation,
    hr.reports,hr.fault⟩

theorem Orderly.next {s : Ui A F} (h : Orderly s)
    (hno : ∀ r, Frame.unwind (some r) ∉ s.frames) :
    Orderly { s with generation := s.generation+1, launches := s.launches+1 } :=
  ⟨h.placed,h.backed,h.covers,by
      show s.generation+1 = _
      rw [h.generation]
      simp,
    fun r hr => ⟨(h.reports r hr).1,Nat.le_succ_of_le (h.reports r hr).2⟩,
    fun r hm => absurd hm (hno r)⟩

/-- A report is carried out only for the launch it was raised in. -/
theorem onAppRequest_orderly {s : Ui A F} (h : Orderly s) (hf : s.frames = [])
    {r : UInt32 × ℕ} (hr : r.1 = UInt32.ofNat r.2 ∧ r.2 ≤ s.launches) :
    Orderly (onAppRequest r s) := by
  unfold onAppRequest
  split
  · rename_i hacc
    have hgen : r.1 = s.generation := by
      simp only [Bool.and_eq_true, decide_eq_true_eq] at hacc
      exact hacc.2
    refine ⟨?_,fun under hu => absurd (List.cons.inj hu).1 (by simp),h.covers,h.generation,h.reports,
      fun m hm hlt => ?_⟩
    · show Placed (Frame.unwind (some r.2)::s.frames)
      rw [hf]
      exact ⟨fun _ => rfl,open_nil,fun hst => Bool.noConfusion hst,trivial⟩
    · have hm' : m = r.2 := by
        rcases List.mem_cons.mp hm with hm | hm
        · injection hm with hm
          exact Option.some.inj hm
        · rw [hf] at hm
          cases hm
      have hlt : s.launches < 2^32 := hlt
      rw [hr.1, h.generation] at hgen
      have hnat := congrArg UInt32.toNat hgen
      rw [UInt32.toNat_ofNat_of_lt' (Nat.lt_of_le_of_lt hr.2 hlt),
        UInt32.toNat_ofNat_of_lt' hlt] at hnat
      exact hm'.trans hnat
  · exact h

end

theorem boot_reached {A F : Type} (exits : A → Option F) : Reached (boot exits) where
  kept := boot_kept exits
  modal := boot_modal exits
  orderly :=
    { placed := trivial
      backed := fun _ hu => by cases hu
      covers := fun ho _ => Bool.noConfusion ho
      generation := rfl
      reports := fun _ hr => absurd hr List.not_mem_nil
      fault := fun _ hm => absurd hm List.not_mem_nil }

section
variable {A F I : Type} [DecidableEq A] (reg : Registry I A)

theorem pushApp_orderly {s : Ui A F} (h : Orderly s) {a : A} {n : ℕ} {rest : List (Frame A)}
    (hf : s.frames = .screen a n::rest) (renders : Bool) :
    Orderly (pushApp reg a n renders { s with frames := rest }) := by
  have hno : ∀ r, Frame.unwind (some r) ∉ s.frames := by
    have hp := h.placed
    rw [hf] at hp ⊢
    intro r hm
    rcases List.mem_cons.mp hm with hm | hm
    · cases hm
    · exact hp.2.2.1 rfl r hm
  have hnext := h.next hno
  rcases pushApp_cases reg a n renders { s with frames := rest } with hp | hp <;> rw [hp]
  · have hr := hnext.replace hf (g := .enter) rfl (fun he => by cases he) (by simp)
    exact ⟨hr.placed,fun under hu => absurd (List.cons.inj hu).1 (by simp),
      fun ho hd => covers_cons (h.covers ho hd),hr.generation,hr.reports,hr.fault⟩
  · have hr := stopApp_orderly hnext hf a n
    exact ⟨hr.placed,fun under hu => absurd (List.cons.inj hu).1 (by simp),hr.covers,hr.generation,
      hr.reports,hr.fault⟩

theorem screenReturned_orderly {s : Ui A F} (h : Orderly s) {a : A} {n : ℕ}
    {rest : List (Frame A)} (hf : s.frames = .screen a n::rest) (screen : Option (Given F)) :
    Orderly (screenReturned reg a n screen rest s) := by
  cases screen with
  | none => exact stopApp_orderly h hf a n
  | some g =>
    have hgiven : Orderly (screenGiven a g.exit s) := by
      unfold screenGiven
      split
      · exact h
      · exact ⟨h.placed,h.backed,h.covers,h.generation,h.reports,h.fault⟩
    rw [screenReturned_given]
    exact pushApp_orderly reg hgiven ((screenGiven_frames a g.exit s).trans hf) g.renders

theorem step_orderly {s t : Ui A F} {a : UiAction I F} (h : Reached s) (hg : Bracketed s a)
    (hs : step reg s a = some t) : Orderly t := by
  have ho := h.orderly
  cases step_taken hs with
  | deliver e hf => exact onBusEvent_orderly h hf e
  | report index r hf hr =>
    have hleft : Orderly { s with reports := s.reports.eraseIdx index } :=
      ⟨ho.placed,ho.backed,ho.covers,ho.generation,
        fun q hq => ho.reports q (List.mem_of_mem_eraseIdx hq),ho.fault⟩
    exact onAppRequest_orderly hleft hf (ho.reports r hr)
  | handled used own back rest hf =>
    have hback := ho.back hf
    split
    · exact starkUiPop_orderly hback (h.kept.back hf (fun _ => rfl)) (ho.open_under hf)
        (fun _ hst => h.modal.filed.open_of_top hst)
    · exact hback
  | started err b rest hf =>
    unfold startReturned
    dsimp only
    split
    · exact ho.back hf
    · have hr := ho.replace hf (g := .screen b s.starts) rfl (fun _ => rfl) (by simp)
      exact ⟨hr.placed,hr.backed,hr.covers,hr.generation,hr.reports,hr.fault⟩
  | screened screen b n rest hf => exact screenReturned_orderly reg ho hf screen
  | returned f rest hf hp => exact ho.back hf
  | left b n rest hf =>
    have hr := stopApp_orderly ho hf b n
    exact ⟨hr.placed,hr.backed,hr.covers,hr.generation,hr.reports,hr.fault⟩
  | unwinds fault rest hf hl =>
    refine h.pop (fun under hu => ?_)
    rw [hf] at hu
    exact absurd (List.cons.inj hu).1 (by simp)
  | unwound fault rest hf hl =>
    have hback := ho.back hf
    split
    · exact openDialog_orderly reg hback (h.kept.back hf (fun _ => rfl)) true none
        (fun he => by cases he)
    · exact hback
  | push overlay renders hm => exact starkUiPush_orderly reg ho (open_of_inApp hg) overlay renders
  | pop hm => exact h.pop (open_of_guard hg)
  | popToRoot hm => exact ho.call (open_of_guard hg) rfl rfl (fun he => by cases he)
  | stopCurrent hm =>
    unfold starkAppStopCurrent
    split
    · exact h.pop (open_of_guard hg)
    · exact ho
  | openDialog alert done hm =>
    exact openDialog_orderly reg ho h.kept alert done hg
  | launch id hm =>
    rcases starkAppLaunch_cases reg id s with hl | ⟨b,hc,hl⟩ <;> rw [hl]
    · exact ho
    · exact starkAppLaunch_orderly ho hm hg hc b
  | workerStart returned created hm =>
    unfold starkAppWorkerStart
    split
    · exact ho
    · split
      · exact ho
      · exact ⟨ho.placed,ho.backed,ho.covers,ho.generation,ho.reports,ho.fault⟩
  | setCaps caps hm => exact ⟨ho.placed,ho.backed,ho.covers,ho.generation,ho.reports,ho.fault⟩
  | fail =>
    refine ⟨ho.placed,ho.backed,ho.covers,ho.generation,fun r hr => ?_,ho.fault⟩
    rcases List.mem_cons.mp hr with rfl | hr
    · exact ⟨ho.generation,Nat.le_refl _⟩
    · exact ho.reports r hr

theorem step_reached {s t : Ui A F} {a : UiAction I F} (h : Reached s) (hg : Bracketed s a)
    (hs : step reg s a = some t) : Reached t :=
  ⟨step_kept reg h.kept (bracketed_outside s a hg) hs,step_modal reg h.modal hs,
    step_orderly reg h hg hs⟩

/-- Every run of launches, keys, fault reports and dialogs. One app is started, runs or is
being stopped at a time; it is recorded exactly while its screen is on the stack. Each
successful start is stopped once it is not held any more, with no worker left. An app
that ends has its own `on_exit` back and called once. While a report is carried out
there has been no launch since the one it was raised in. -/
theorem app_bracket (exits : A → Option F) (as : List (UiAction I F)) (t : Ui A F)
    (h : Run (step reg) Bracketed (boot exits) as t) :
    (life t).busy ≤ 1 ∧
    (∀ a, Screen.app a ∈ t.stack ↔ ∃ n, t.current = some (a,n)) ∧
    (∀ n, n < t.starts → (life t).stops n+(life t).alive n = 1) ∧
    (∀ n w, .stopped n w ∈ t.log → w = none) ∧ (∀ n ∈ t.worker, (life t).stops n = 0) ∧
    (∀ a, Screen.app a ∉ t.stack → t.hook a = .ofOwn (t.given a)) ∧
    (∀ n, (life t).launches n ≤ 1 ∧ (life t).exits n+(life t).records n = (life t).launches n) ∧
    (∀ n hook, .left n hook ∈ t.log → ∃ a own, .launched n a own ∈ t.log ∧ hook = .ofOwn own) ∧
    (t.launches < 2^32 → ∀ r, .unwind (some r) ∈ t.frames → r = t.launches) := by
  have hr := run_invariant Reached (fun _ _ _ hs hg hst => step_reached reg hs hg hst) as
    (boot_reached exits) h
  refine ⟨hr.kept.one,hr.kept.recorded,fun n hn => (hr.kept.stopped n).trans (if_pos hn),hr.kept.joined,
    fun n hn => hr.kept.working hn,fun a ha => hr.kept.restored a fun c hc he => ?_,hr.kept.ended_once,
    hr.kept.own,fun hlt r hm => hr.orderly.fault r hm hlt⟩
  exact ha ((hr.kept.recorded a).mpr ⟨c.2,by rw [← he]; exact hc⟩)

end

def relaunch : List (UiAction Bool Unit) :=
  [.launch false,.started .ok,.screened (some ⟨some (some ()),true⟩),.ret,
    .workerStart false true,.fail,.deliver (.key .back .short),.handled false,.ret,.ret,
    .launch true,.started .ok,.screened (some ⟨none,true⟩),.ret,.report 0]

theorem relaunch_bracket : ∃ t, Run (step pair) Bracketed (boot (fun _ => none)) relaunch t ∧
    t.current = some (true,1) ∧ (life t).stops 0 = 1 ∧ t.hook false = .own () ∧
    (life t).exits 0 = 1 := by
  obtain ⟨t,hr,hc,hf,hn,hg,hl⟩ := run_witness (step pair) (G := Bracketed)
    (p := fun t : Ui Bool Unit => t.current = some (true,1) ∧ t.frames = [] ∧ t.starts = 2 ∧
      t.given false = some () ∧ (life t).launches 0 = 1)
    (s := boot (fun _ => none)) relaunch (by decide) (by decide)
  obtain ⟨-,hs,hstop,-,-,hhook,hexit,-⟩ := app_bracket pair _ relaunch t hr
  have hoff : Screen.app false ∉ t.stack := fun hm => by
    obtain ⟨n,hn⟩ := (hs false).mp hm
    simp [hc] at hn
  have hzero := hstop 0 (by omega)
  have hout := hexit 0
  have halive : (life t).alive 0 = 0 := by simp [Life.alive, Life.records, life, hc, hf]
  have hrec : (life t).records 0 = 0 := by simp [Life.records, life, hc]
  refine ⟨t,hr,hc,by omega,?_,by omega⟩
  rw [hhook false hoff, hg]
  rfl

end StarkOne.AppFaults
