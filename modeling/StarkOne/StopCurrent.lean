import StarkOne.AppBracket
import StarkOne.DialogAnswers

/-!
# Stopping the running app

`stark_app_stop_current` pops the top screen, whichever it is. A whole call of it
reaches from the call to its return, over everything the callbacks it makes
do in between.
-/

set_option autoImplicit false

namespace StarkOne.StopCurrent
open StarkOne.Machine StarkOne.UiCalls StarkOne.AppBracket
open StarkOne.DialogAnswers (Modal desk step_modal boot_modal)

/-- A step inside a call made on top of these frames, which has not returned yet. -/
def Inside {A F I : Type} (fs : List (Frame A)) (s : Ui A F) (a : UiAction I F) : Prop :=
  Outside s a ∧ fs.length < s.frames.length

section
variable {A F I : Type} [DecidableEq A] (reg : Registry I A)

def StopCall (s : Ui A F) (as : List (UiAction I F)) (t : Ui A F) : Prop :=
  ∃ v, step reg s (.stopCurrent : UiAction I F) = some v ∧
    Run (step reg) (Inside s.frames) v as t ∧ t.frames = s.frames

end

/-- What a step does to the calls in progress under the top one. -/
def Beneath {A : Type} (f : Frame A) (rest fs : List (Frame A)) : Prop :=
  (∃ gs, fs = gs++f::rest) ∨ ∃ gs, fs = gs++rest ∧ (∀ a n, f = .leave a n → gs = [.stop a n]) ∧
    ∀ a n, f = .stop a n → gs = []

theorem beneath_drop {A : Type} {f : Frame A} {rest : List (Frame A)} (gs : List (Frame A))
    (hl : ∀ a n, f ≠ .leave a n) (hs : ∀ a n, f ≠ .stop a n) : Beneath f rest (gs++rest) :=
  Or.inr ⟨gs,rfl,fun a n he => absurd he (hl a n),fun a n he => absurd he (hs a n)⟩

section
variable {A F : Type} [DecidableEq A]

theorem starkUiPop_quiet (s : Ui A F) : ∃ gs, (starkUiPop s).2.frames = gs++s.frames ∧
    (starkUiPop s).2.starts = s.starts ∧
    ((starkUiPop s).2.current = s.current ∨ (starkUiPop s).2.current = none) := by
  rcases starkUiPop_cases s with ⟨-,hp⟩ | ⟨leaving,below,rest,-,hp⟩ <;> rw [hp]
  · exact ⟨[],rfl,rfl,Or.inl rfl⟩
  · cases leaving with
    | launcher => exact ⟨[],rfl,rfl,Or.inl rfl⟩
    | other overlay => exact ⟨[.exit],rfl,rfl,Or.inl rfl⟩
    | dialog =>
      dsimp only [onExit, dialogExit]
      split
      · exact ⟨[.done _],rfl,rfl,Or.inl rfl⟩
      · exact ⟨[],rfl,rfl,Or.inl rfl⟩
    | app a =>
      dsimp only [onExit]
      split
      · dsimp only [onAppScreenExit]
        split
        · exact ⟨[.exit],rfl,rfl,Or.inr rfl⟩
        · exact ⟨[.leave _ _],rfl,rfl,Or.inr rfl⟩
      · exact ⟨[.exit],rfl,rfl,Or.inl rfl⟩

end

section
variable {A F I : Type} (reg : Registry I A)

theorem openDialog_quiet (alert : Bool) (done : Option Bool) (s : Ui A F) :
    (openDialog reg alert done s).2.current = s.current ∧
    (openDialog reg alert done s).2.starts = s.starts ∧
    (openDialog reg alert done s).2.frames = s.frames := by
  rcases openDialog_cases reg alert done s with
    hp | ⟨-,dialog,-,-,-,-,-,⟨-,hp⟩ | ⟨-,hp⟩⟩ <;> rw [hp] <;> exact ⟨rfl,rfl,rfl⟩

end

section
variable {A F I : Type} [DecidableEq A] (reg : Registry I A)

theorem step_inside {s t : Ui A F} {x : UiAction I F} (h : step reg s x = some t) {f : Frame A}
    {rest : List (Frame A)} (hf : s.frames = f::rest) (hc : s.current = none)
    (hno : ∀ a n, f ≠ .screen a n) :
    t.current = none ∧ s.starts ≤ t.starts ∧ Beneath f rest t.frames := by
  have hpop : ∀ v : Ui A F, v.current = none → v.starts = s.starts → v.frames = s.frames →
      (starkUiPop v).2.current = none ∧ s.starts ≤ (starkUiPop v).2.starts ∧
        Beneath f rest (starkUiPop v).2.frames := by
    intro v hv hs hfs
    obtain ⟨gs,hgs,hst,hcur⟩ := starkUiPop_quiet v
    refine ⟨hcur.elim (fun he => he.trans hv) id,by omega,Or.inl ⟨gs,?_⟩⟩
    rw [hgs, hfs, hf]
  have hcall : ∀ g : Frame A, Beneath f rest (g::s.frames) := fun g => Or.inl ⟨[g],by rw [hf]; rfl⟩
  have hsame : Beneath f rest s.frames := Or.inl ⟨[],hf⟩
  cases step_taken h with
  | deliver e hn => rw [hf] at hn; cases hn
  | report index r hn hr => rw [hf] at hn; cases hn
  | handled used own back under hu =>
    obtain ⟨rfl,rfl⟩ := List.cons.inj (hf.symm.trans hu)
    split
    · obtain ⟨gs,hgs,hst,hcur⟩ := starkUiPop_quiet { s with frames := rest }
      refine ⟨hcur.elim (fun he => he.trans hc) id,Nat.le_of_eq hst.symm,?_⟩
      rw [hgs]
      exact beneath_drop gs (by simp) (by simp)
    · exact ⟨hc,Nat.le_refl _,beneath_drop [] (by simp) (by simp)⟩
  | started err a under hu =>
    obtain ⟨rfl,rfl⟩ := List.cons.inj (hf.symm.trans hu)
    unfold startReturned
    dsimp only
    split
    · exact ⟨hc,Nat.le_refl _,beneath_drop [] (by simp) (by simp)⟩
    · exact ⟨hc,Nat.le_succ _,beneath_drop [_] (by simp) (by simp)⟩
  | screened screen a n under hu => exact absurd (List.cons.inj (hf.symm.trans hu)).1 (hno a n)
  | returned g under hu hp =>
    obtain ⟨rfl,rfl⟩ := List.cons.inj (hf.symm.trans hu)
    refine ⟨hc,Nat.le_refl _,Or.inr ⟨[],rfl,fun a n he => ?_,fun a n he => rfl⟩⟩
    rw [he] at hp
    cases hp
  | left a n under hu =>
    obtain ⟨rfl,rfl⟩ := List.cons.inj (hf.symm.trans hu)
    refine ⟨hc,Nat.le_refl _,Or.inr ⟨[.stop a n],rfl,fun b m he => ?_,fun b m he => by cases he⟩⟩
    injection he with h1 h2
    rw [h1, h2]
  | unwinds fault under hu hl => exact hpop s hc rfl rfl
  | unwound fault under hu hl =>
    obtain ⟨rfl,rfl⟩ := List.cons.inj (hf.symm.trans hu)
    have hdrop : Beneath (Frame.unwind fault) rest rest := beneath_drop [] (by simp) (by simp)
    split
    · obtain ⟨h1,h2,h3⟩ := openDialog_quiet reg true none { s with frames := rest }
      exact ⟨h1.trans hc,Nat.le_of_eq h2.symm,h3 ▸ hdrop⟩
    · exact ⟨hc,Nat.le_refl _,hdrop⟩
  | push overlay renders hm =>
    rcases starkUiPush_cases reg (.other overlay) renders s with ⟨err,-,hp⟩ | hp <;> rw [hp]
    · exact ⟨hc,Nat.le_refl _,hsame⟩
    · exact ⟨hc,Nat.le_refl _,hcall .enter⟩
  | pop hm => exact hpop s hc rfl rfl
  | popToRoot hm => exact ⟨hc,Nat.le_refl _,hcall _⟩
  | stopCurrent hm =>
    unfold starkAppStopCurrent
    rw [hc]
    exact ⟨hc,Nat.le_refl _,hsame⟩
  | openDialog alert done hm =>
    obtain ⟨h1,h2,h3⟩ := openDialog_quiet reg alert done s
    exact ⟨h1.trans hc,Nat.le_of_eq h2.symm,h3 ▸ hsame⟩
  | launch id hm =>
    rcases starkAppLaunch_cases reg id s with hl | ⟨a,-,hl⟩ <;> rw [hl]
    · exact ⟨hc,Nat.le_refl _,hsame⟩
    · exact ⟨hc,Nat.le_refl _,hcall _⟩
  | workerStart returned created hm =>
    unfold starkAppWorkerStart
    rw [hc]
    exact ⟨hc,Nat.le_refl _,hsame⟩
  | setCaps caps hm => exact ⟨hc,Nat.le_refl _,hsame⟩
  | fail => exact ⟨hc,Nat.le_refl _,hsame⟩

/-- The app whose start a call under way holds is out of the record until the call is over. -/
theorem run_inside {fs : List (Frame A)} {a : A} {n m : ℕ} (bs : List (UiAction I F)) :
    ∀ {s t : Ui A F}, Kept (life s) → s.current = none → m ≤ s.starts →
      (s.frames = fs ∨ ∃ gs g, (g = .leave a n ∨ g = .stop a n) ∧ s.frames = gs++g::fs) →
      Run (step reg) (Inside fs) s bs t → Kept (life t) ∧ t.current = none ∧ m ≤ t.starts := by
  induction bs with
  | nil =>
    intro s t hk hc hm _ hr
    obtain rfl := hr
    exact ⟨hk,hc,hm⟩
  | cons b bs ih =>
    intro s t hk hc hm hfs hr
    obtain ⟨⟨hout,hlen⟩,u,hu,hr⟩ := hr
    have hku := step_kept reg hk hout hu
    rcases hfs with hfs | ⟨gs,g,hg,hfs⟩
    · rw [hfs] at hlen
      exact absurd hlen (Nat.lt_irrefl _)
    · have hbusy : busyCall g = true := by rcases hg with rfl | rfl <;> rfl
      cases gs with
      | nil =>
        obtain ⟨hcu,hsu,hb⟩ := step_inside reg hu hfs hc (by rcases hg with rfl | rfl <;> simp)
        refine ih hku hcu (Nat.le_trans hm hsu) ?_ hr
        rcases hb with ⟨gs,hgs⟩ | ⟨gs,hgs,hleave,hstop⟩
        · exact Or.inr ⟨gs,g,hg,hgs⟩
        · rcases hg with rfl | rfl
          · rw [hleave a n rfl] at hgs
            exact Or.inr ⟨[],_,Or.inr rfl,hgs⟩
          · rw [hstop a n rfl] at hgs
            exact Or.inl hgs
      | cons f gs =>
        -- the held start is the only one, so no launch is under way above it
        have hno : ∀ b k, f ≠ .screen b k := by
          rintro b k rfl
          have hrest := (hk.held hfs rfl).2
          exact List.countP_eq_zero.mp hrest g (by simp) hbusy
        obtain ⟨hcu,hsu,hb⟩ := step_inside reg hu hfs hc hno
        refine ih hku hcu (Nat.le_trans hm hsu) ?_ hr
        rcases hb with ⟨ks,hks⟩ | ⟨ks,hks,-⟩
        · exact Or.inr ⟨ks++f::gs,g,hg,by rw [hks]; simp⟩
        · exact Or.inr ⟨ks++gs,g,hg,by rw [hks]; simp⟩

/-- A call that pops another screen may return with the app still recorded. -/
theorem stopCall_other {s : Ui A F} {a : A} {n : ℕ} (hk : Kept (life s))
    (hc : s.current = some (a,n)) (hm : mayCall s = true)
    (htop : s.stack.head? ≠ some (.app a)) :
    ∃ (bs : List (UiAction I F)) (t : Ui A F), StopCall reg s bs t ∧ t.current = some (a,n) := by
  have hstep : step reg s (.stopCurrent : UiAction I F) = some (starkUiPop s).2 := by
    simp [step, hm, starkAppStopCurrent, hc]
  have hcases : (starkUiPop s).2.current = s.current ∧ ((starkUiPop s).2.frames = s.frames ∨
      ∃ f, f.plain = true ∧ (starkUiPop s).2.frames = f::s.frames) := by
    rcases starkUiPop_cases s with ⟨-,hp⟩ | ⟨leaving,below,rest,hs,hp⟩ <;> rw [hp]
    · exact ⟨rfl,Or.inl rfl⟩
    · cases leaving with
      | launcher => exact ⟨rfl,Or.inl rfl⟩
      | other overlay => exact ⟨rfl,Or.inr ⟨.exit,rfl,rfl⟩⟩
      | dialog =>
        dsimp only [onExit, dialogExit]
        split
        · exact ⟨rfl,Or.inr ⟨.done _,rfl,rfl⟩⟩
        · exact ⟨rfl,Or.inl rfl⟩
      | app b =>
        obtain ⟨k,hb,-⟩ := hk.top hs
        obtain ⟨rfl,rfl⟩ := Prod.mk.inj (Option.some.inj (hb.symm.trans hc))
        exact absurd (by rw [hs]; rfl) htop
  obtain ⟨hcur,hfs | ⟨f,hf,hfs⟩⟩ := hcases
  · exact ⟨[],_,⟨_,hstep,rfl,hfs⟩,hcur.trans hc⟩
  · refine ⟨[.ret],{ (starkUiPop s).2 with frames := s.frames },
      ⟨_,hstep,⟨⟨trivial,?_⟩,_,?_,rfl⟩,rfl⟩,hcur.trans hc⟩
    · rw [hfs]
      exact Nat.lt_succ_self _
    · dsimp only [step, callbackReturned]
      rw [hfs]
      cases f <;> first | rfl | cases hf

theorem stopCall_step {s : Ui A F} {a : A} {n : ℕ} (hk : Kept (life s))
    (hmodal : Modal (desk s)) (hc : s.current = some (a,n)) (hm : mayCall s = true)
    (htop : s.stack.head? = some (.app a)) :
    ∃ v, step reg s (.stopCurrent : UiAction I F) = some v ∧ v.current = none ∧
      v.starts = s.starts ∧ v.frames = .leave a n::s.frames := by
  obtain ⟨below,rest,hs⟩ : ∃ below rest, s.stack = .app a::below::rest := by
    have hroot := hmodal.filed.root
    cases hst : s.stack with
    | nil => simp [hst] at htop
    | cons top stack =>
      rw [hst] at htop
      obtain rfl : top = .app a := Option.some.inj htop
      cases stack with
      | nil => simp [desk, hst] at hroot
      | cons below rest => exact ⟨below,rest,rfl⟩
  refine ⟨(starkUiPop s).2,by simp [step, hm, starkAppStopCurrent, hc],?_⟩
  rw [starkUiPop_app hk hc hs]
  exact ⟨rfl,rfl,rfl⟩

/-- In every run whose launches are made outside the apps' callbacks: a call of
`stark_app_stop_current` returns with the app stopped, forgotten and off the stack,
whatever the callbacks do, exactly when the app's screen was on top. -/
theorem stop_current (exits : A → Option F) (as : List (UiAction I F)) (s : Ui A F)
    (h : Run (step reg) Outside (boot exits) as s) (a : A) (n : ℕ)
    (hc : s.current = some (a,n)) (hm : mayCall s = true) :
    ((∃ (bs : List (UiAction I F)) (t : Ui A F), StopCall reg s bs t) ∧
      ∀ (bs : List (UiAction I F)) (t : Ui A F), StopCall reg s bs t →
        (life t).stops n = 1 ∧ t.current = none ∧ Screen.app a ∉ t.stack) ↔
    s.stack.head? = some (.app a) := by
  have hk : Kept (life s) := run_invariant (fun s : Ui A F => Kept (life s))
    (fun _ _ _ hs hg hst => step_kept reg hs hg hst) as (boot_kept exits) h
  have hmodal : Modal (desk s) := run_invariant (fun s : Ui A F => Modal (desk s))
    (fun _ _ _ hs _ hst => step_modal reg hs hst) as (boot_modal exits) h
  constructor
  · rintro ⟨-,hall⟩
    by_contra htop
    obtain ⟨bs,t,hcall,ht⟩ := stopCall_other reg hk hc hm htop
    have hnone := (hall bs t hcall).2.1
    rw [ht] at hnone
    cases hnone
  · intro htop
    obtain ⟨v,hv,hvc,hvs,hvf⟩ := stopCall_step (I := I) reg hk hmodal hc hm htop
    obtain ⟨hstart,hidle⟩ := hk.running hc
    constructor
    · have hlen : ∀ f : Frame A, s.frames.length < (f::s.frames).length :=
        fun _ => Nat.lt_succ_self _
      have hleft : step reg v (.ret : UiAction I F) =
          some (stopApp a n (appWorkerJoin { v with frames := s.frames })) := by
        dsimp only [step, callbackReturned]
        rw [hvf]
      exact ⟨[.ret,.ret],_,v,hv,⟨⟨trivial,hvf ▸ hlen _⟩,_,hleft,⟨trivial,hlen _⟩,_,rfl,rfl⟩,rfl⟩
    · rintro bs t ⟨v',hv',hr,hf⟩
      obtain rfl := Option.some.inj (hv.symm.trans hv')
      have hkv : Kept (life v) :=
        step_kept reg hk (show Outside s (.stopCurrent : UiAction I F) from trivial) hv
      obtain ⟨hkt,hct,hst⟩ := run_inside reg bs hkv hvc
        (Nat.le_trans hstart (Nat.le_of_eq hvs.symm)) (Or.inr ⟨[],_,Or.inl rfl,hvf⟩) hr
      refine ⟨?_,hct,fun hon => ?_⟩
      · have halive : (life t).alive n = 0 := by
          have hfree : t.frames.countP (holdsStart n) = 0 := hf ▸ hidle
          simp [Life.alive, Life.records, life, hct, hfree]
        have hs := hkt.stopped n
        rw [halive] at hs
        exact hs.trans (if_pos hst)
      · obtain ⟨k,hk'⟩ := (hkt.recorded a).mp hon
        rw [hct] at hk'
        cases hk'

end

def launched : List (UiAction Bool Unit) :=
  [.launch false,.started .ok,.screened (some ⟨none,true⟩),.ret]

/-- With an alert over the app the call removes the alert, and the app runs on. -/
theorem stop_current_alert : ∃ (s t : Ui Bool Unit),
    Run (step pair) Outside (boot (fun _ => none)) (launched++[.openDialog true none]) s ∧
    s.current = some (false,0) ∧ StopCall pair s [] t ∧ t.current = some (false,0) ∧
    Screen.app false ∈ t.stack ∧ (life t).stops 0 = 0 := by
  obtain ⟨s,hr,hc,ht⟩ := run_witness (step pair) (G := Outside)
    (p := fun s : Ui Bool Unit => s.current = some (false,0) ∧
      (step pair s .stopCurrent).any (fun t => t.current = some (false,0) ∧ t.frames = s.frames ∧
        Screen.app false ∈ t.stack ∧ (life t).stops 0 = 0))
    (s := boot (fun _ => none)) (launched++[.openDialog true none]) (by decide) (by decide)
  obtain ⟨t,hst,ht⟩ := (Option.any_eq_true _ _).mp ht
  obtain ⟨hct,hf,hon,hz⟩ := of_decide_eq_true ht
  exact ⟨s,t,hr,hc,⟨t,hst,rfl,hf⟩,hct,hon,hz⟩

theorem stop_current_top : ∃ (s t : Ui Bool Unit) (bs : List (UiAction Bool Unit)),
    Run (step pair) Outside (boot (fun _ => none)) launched s ∧ StopCall pair s bs t ∧
    (life t).stops 0 = 1 ∧ t.current = none ∧ Screen.app false ∉ t.stack := by
  obtain ⟨s,hr,hc,hm,ht⟩ := run_witness (step pair) (G := Outside)
    (p := fun s : Ui Bool Unit => s.current = some (false,0) ∧ mayCall s = true ∧
      s.stack.head? = some (.app false))
    (s := boot (fun _ => none)) launched (by decide) (by decide)
  obtain ⟨⟨bs,t,hcall⟩,hall⟩ := (stop_current pair _ launched s hr false 0 hc hm).mpr ht
  exact ⟨s,t,bs,hr,hcall,hall bs t hcall⟩

end StarkOne.StopCurrent
