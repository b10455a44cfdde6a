import StarkOne.UiCalls

/-!
# The bracket of an app's life

The part of the UI's state the life of an app depends on, and its invariant:
one app is started, runs or is being stopped, its screen is on the stack
exactly while it is recorded, and each successful start is stopped once.
-/

set_option autoImplicit false

namespace StarkOne.AppBracket
open StarkOne.Machine StarkOne.UiCalls

def appOf {A : Type} : Screen A → Option A
  | .app a => some a
  | _ => none

def busyCall {A : Type} : Frame A → Bool
  | .start _ => true
  | .screen _ _ => true
  | .leave _ _ => true
  | .stop _ _ => true
  | _ => false

/-- The start whose app has not been stopped is in the hands of this call. -/
def holdsStart {A : Type} (n : ℕ) : Frame A → Bool
  | .screen _ m => m = n
  | .leave _ m => m = n
  | _ => false

def showsStart {A : Type} (n : ℕ) : Frame A → Bool
  | .screen _ m => m = n
  | _ => false

def isLaunched {A F : Type} (n : ℕ) : Entry A F → Bool
  | .launched m _ _ => m = n
  | _ => false

def isLeft {A F : Type} (n : ℕ) : Entry A F → Bool
  | .left m _ => m = n
  | _ => false

def isStopped {A F : Type} (n : ℕ) : Entry A F → Bool
  | .stopped m _ => m = n
  | _ => false

structure Life (A F : Type) where
  shown : List A
  current : Option (A × ℕ)
  savedExit : Hook F
  hook : A → Hook F
  given : A → Option F
  worker : Option ℕ
  frames : List (Frame A)
  starts : ℕ
  log : List (Entry A F)

def life {A F : Type} (s : Ui A F) : Life A F :=
  ⟨s.stack.filterMap appOf,s.current,s.savedExit,s.hook,s.given,s.worker,s.frames,s.starts,s.log⟩

section
variable {A F : Type}

def Life.records (l : Life A F) (n : ℕ) : ℕ := if l.current.any (fun c => c.2 = n) then 1 else 0

def Life.alive (l : Life A F) (n : ℕ) : ℕ := l.records n+l.frames.countP (holdsStart n)

def Life.busy (l : Life A F) : ℕ :=
  (if l.current.isSome then 1 else 0)+l.frames.countP busyCall

def Life.stops (l : Life A F) (n : ℕ) : ℕ := l.log.countP (isStopped n)
def Life.exits (l : Life A F) (n : ℕ) : ℕ := l.log.countP (isLeft n)
def Life.launches (l : Life A F) (n : ℕ) : ℕ := l.log.countP (isLaunched n)

structure Kept (l : Life A F) : Prop where
  one : l.busy ≤ 1
  shown : l.shown = l.current.toList.map Prod.fst
  managed : ∀ c ∈ l.current, l.hook c.1 = .manager
  restored : ∀ a, (∀ c ∈ l.current, c.1 ≠ a) → l.hook a = .ofOwn (l.given a)
  saved : ∀ c ∈ l.current, l.savedExit = .ofOwn (l.given c.1)
  worker : ∀ n ∈ l.worker, ∃ a, l.current = some (a,n) ∨ .leave a n ∈ l.frames
  stopped : ∀ n, l.stops n+l.alive n = if n < l.starts then 1 else 0
  joined : ∀ n w, .stopped n w ∈ l.log → w = none
  launched : ∀ n, l.launches n+l.frames.countP (showsStart n) ≤ if n < l.starts then 1 else 0
  ended : ∀ n, l.exits n+l.records n = l.launches n
  mine : ∀ c ∈ l.current, .launched c.2 c.1 (l.given c.1) ∈ l.log
  own : ∀ n h, .left n h ∈ l.log → ∃ a e, .launched n a e ∈ l.log ∧ h = .ofOwn e

def FreeCall (f : Frame A) : Prop :=
  busyCall f = false ∧ ∀ n, holdsStart n f = false ∧ showsStart n f = false

theorem Kept.call {l : Life A F} (h : Kept l) {f : Frame A} (hf : FreeCall f) :
    Kept { l with frames := f::l.frames } where
  one := by
    have := h.one
    simpa [Life.busy, List.countP_cons, hf.1] using this
  shown := h.shown
  managed := h.managed
  restored := h.restored
  saved := h.saved
  worker n hn := by
    obtain ⟨a,ha⟩ := h.worker n hn
    exact ⟨a,ha.imp_right (List.mem_cons_of_mem _)⟩
  stopped n := by
    rw [← h.stopped n]
    simp [Life.alive, Life.records, Life.stops, (hf.2 n).1]
  joined := h.joined
  launched n := by
    have := h.launched n
    simpa [Life.launches, List.countP_cons, (hf.2 n).2] using this
  ended := h.ended
  mine := h.mine
  own := h.own

theorem Kept.back {l : Life A F} (h : Kept l) {f : Frame A} {rest : List (Frame A)}
    (hl : l.frames = f::rest) (hf : ∀ n, holdsStart n f = false) :
    Kept { l with frames := rest } where
  one := by
    have := h.one
    simp only [Life.busy, hl, List.countP_cons] at this ⊢
    omega
  shown := h.shown
  managed := h.managed
  restored := h.restored
  saved := h.saved
  worker n hn := by
    obtain ⟨a,ha⟩ := h.worker n hn
    refine ⟨a,ha.imp_right (fun hm => ?_)⟩
    rw [hl] at hm
    rcases List.mem_cons.mp hm with rfl | hm
    · exact absurd (hf n) (by simp [holdsStart])
    · exact hm
  stopped n := by
    rw [← h.stopped n]
    simp [Life.alive, Life.records, Life.stops, hl, hf n]
  joined := h.joined
  launched n := by
    have := h.launched n
    simp only [Life.launches, hl, List.countP_cons] at this ⊢
    omega
  ended := h.ended
  mine := h.mine
  own := h.own

theorem Kept.held {l : Life A F} (h : Kept l) {f : Frame A} {rest : List (Frame A)}
    (hl : l.frames = f::rest) (hf : busyCall f = true) :
    l.current = none ∧ rest.countP busyCall = 0 := by
  have hone := h.one
  rw [Life.busy, hl, List.countP_cons_of_pos hf] at hone
  cases hc : l.current with
  | none => exact ⟨rfl,by omega⟩
  | some c =>
    rw [hc, Option.isSome_some, if_pos rfl] at hone
    omega

theorem busy_of_holds {n : ℕ} {f : Frame A} (h : holdsStart n f = true) : busyCall f = true := by
  cases f <;> first | rfl | cases h

theorem holds_of_shows {n : ℕ} {f : Frame A} (h : showsStart n f = true) :
    holdsStart n f = true := by
  cases f <;> first | exact h | cases h

theorem holds_none {fs : List (Frame A)} (h : fs.countP busyCall = 0) (n : ℕ) :
    fs.countP (holdsStart n) = 0 ∧ fs.countP (showsStart n) = 0 := by
  have hno := List.countP_eq_zero.mp h
  exact ⟨List.countP_eq_zero.mpr fun f hf hh => hno f hf (busy_of_holds hh),
    List.countP_eq_zero.mpr fun f hf hh => hno f hf (busy_of_holds (holds_of_shows hh))⟩

theorem Kept.begin {l : Life A F} (h : Kept l) (a : A) (hc : l.current = none)
    (hb : l.frames.countP busyCall = 0) : Kept { l with frames := .start a::l.frames } where
  one := by simp [Life.busy, hc, hb, busyCall, List.countP_cons]
  shown := h.shown
  managed := h.managed
  restored := h.restored
  saved := h.saved
  worker n hn := by
    obtain ⟨b,hw⟩ := h.worker n hn
    exact ⟨b,hw.imp_right (List.mem_cons_of_mem _)⟩
  stopped n := by
    rw [← h.stopped n]
    simp [Life.alive, Life.records, Life.stops, holdsStart]
  joined := h.joined
  launched n := by
    have := h.launched n
    simpa [Life.launches, showsStart] using this
  ended := h.ended
  mine := h.mine
  own := h.own

theorem Kept.started {l : Life A F} (h : Kept l) {a : A} {rest : List (Frame A)}
    (hl : l.frames = .start a::rest) :
    Kept { l with frames := .screen a l.starts::rest, starts := l.starts+1 } := by
  obtain ⟨hc,hb⟩ := h.held hl rfl
  have hrest := holds_none hb
  refine ⟨?_,h.shown,h.managed,h.restored,h.saved,fun n hn => ?_,fun n => ?_,h.joined,fun n => ?_,
    h.ended,h.mine,h.own⟩
  · simp [Life.busy, hc, hb, busyCall, List.countP_cons]
  · obtain ⟨b,hw⟩ := h.worker n hn
    rw [hc, hl] at hw
    rcases hw with hw | hw
    · cases hw
    · rcases List.mem_cons.mp hw with hw | hw
      · cases hw
      · exact absurd rfl (List.countP_eq_zero.mp hb _ hw)
  · have hs := h.stopped n
    simp only [Life.alive, Life.records, Life.stops, hc, hl, List.countP_cons, holdsStart,
      (hrest n).1, decide_eq_true_eq] at hs ⊢
    split_ifs at hs ⊢ <;> simp_all <;> omega
  · have hs := h.launched n
    simp only [Life.launches, hl, List.countP_cons, showsStart, (hrest n).2,
      decide_eq_true_eq] at hs ⊢
    split_ifs at hs ⊢ <;> simp_all <;> omega

theorem Kept.leave [DecidableEq A] {l : Life A F} (h : Kept l) {a : A} {n : ℕ}
    (hc : l.current = some (a,n)) :
    Kept { l with
      shown := [], current := none, savedExit := .null
      hook := Function.update l.hook a l.savedExit
      frames := .leave a n::l.frames
      log := .left n l.savedExit::l.log } := by
  have hsaved := h.saved (a,n) hc
  have hone := h.one
  simp only [Life.busy, hc, Option.isSome_some, if_true] at hone
  have hzero : l.frames.countP busyCall = 0 := by omega
  have hrest := holds_none hzero
  refine ⟨?_,rfl,fun c hm => absurd hm (Option.not_mem_none c),fun b _ => ?_,
    fun c hm => absurd hm (Option.not_mem_none c),fun m hm => ?_,fun m => ?_,?_,fun m => ?_,fun m => ?_,
    fun c hm => absurd hm (Option.not_mem_none c),?_⟩
  · simp [Life.busy, hzero, busyCall, List.countP_cons]
  · by_cases hb : b = a
    · subst hb
      simpa using hsaved
    · dsimp only
      rw [Function.update_of_ne hb]
      refine h.restored b fun c hm => ?_
      rw [hc, Option.mem_some_iff] at hm
      exact hm ▸ fun he => hb he.symm
  · obtain ⟨b,hw⟩ := h.worker m hm
    refine ⟨a,Or.inr ?_⟩
    rcases hw with hw | hw
    · obtain ⟨-,rfl⟩ := Prod.mk.inj (Option.some.inj (hc.symm.trans hw))
      exact List.mem_cons_self
    · exact absurd rfl (List.countP_eq_zero.mp hzero _ hw)
  · have hs := h.stopped m
    simp only [Life.alive, Life.records, Life.stops, hc, Option.any_some, List.countP_cons,
      isStopped, holdsStart, (hrest m).1, decide_eq_true_eq] at hs ⊢
    simpa [Nat.add_comm] using hs
  · intro m w hm
    rcases List.mem_cons.mp hm with hm | hm
    · cases hm
    · exact h.joined m w hm
  · have hs := h.launched m
    simpa [Life.launches, List.countP_cons, isLaunched, showsStart] using hs
  · have hs := h.ended m
    simp only [Life.exits, Life.records, Life.launches, hc, Option.any_some, List.countP_cons,
      isLeft, isLaunched, decide_eq_true_eq] at hs ⊢
    simpa using hs
  · intro m hook hm
    rcases List.mem_cons.mp hm with hm | hm
    · obtain ⟨rfl,rfl⟩ : m = n ∧ hook = l.savedExit := by
        injection hm with h1 h2
        exact ⟨h1,h2⟩
      exact ⟨a,l.given a,List.mem_cons_of_mem _ (h.mine (a,m) hc),hsaved⟩
    · obtain ⟨b,own,hl,ho⟩ := h.own m hook hm
      exact ⟨b,own,List.mem_cons_of_mem _ hl,ho⟩

theorem Kept.stop {l : Life A F} (h : Kept l) {f : Frame A} {a : A} {n : ℕ} {rest : List (Frame A)}
    (hl : l.frames = f::rest) (hb : busyCall f = true) (hh : ∀ m, holdsStart m f = decide (n = m)) :
    Kept { l with
      worker := none
      frames := .stop a n::rest
      log := .stopped n none::l.log } := by
  obtain ⟨hc,hrest⟩ := h.held hl hb
  refine ⟨?_,h.shown,h.managed,h.restored,h.saved,fun m hm => absurd hm (Option.not_mem_none m),
    fun m => ?_,fun m w hm => ?_,fun m => ?_,fun m => ?_,fun c hm => ?_,fun m hook hm => ?_⟩
  · simp [Life.busy, hc, hrest, busyCall, List.countP_cons]
  · have hs := h.stopped m
    simp only [Life.alive, Life.records, Life.stops, hc, hl, List.countP_cons, hh m,
      (holds_none hrest m).1, decide_eq_true_eq] at hs
    simp only [Life.alive, Life.records, Life.stops, hc, List.countP_cons, isStopped, holdsStart,
      (holds_none hrest m).1, decide_eq_true_eq]
    simpa using hs
  · rcases List.mem_cons.mp hm with hm | hm
    · injection hm
    · exact h.joined m w hm
  · have hs := h.launched m
    simp only [Life.launches, hl, List.countP_cons, isLaunched, showsStart] at hs ⊢
    simp only [Bool.false_eq_true, if_false]
    omega
  · have hs := h.ended m
    simpa [Life.exits, Life.records, Life.launches, List.countP_cons, isLeft, isLaunched] using hs
  · have hm' : c ∈ l.current := hm
    rw [hc] at hm'
    cases hm'
  · rcases List.mem_cons.mp hm with hm | hm
    · cases hm
    · obtain ⟨b,own,hl,ho⟩ := h.own m hook hm
      exact ⟨b,own,List.mem_cons_of_mem _ hl,ho⟩

theorem Kept.idle {l : Life A F} (h : Kept l) {a : A} {n : ℕ} {rest : List (Frame A)}
    (hl : l.frames = .screen a n::rest) : l.worker = none := by
  obtain ⟨hc,hrest⟩ := h.held hl rfl
  cases hw : l.worker with
  | none => rfl
  | some m =>
    obtain ⟨b,hb⟩ := h.worker m hw
    rw [hc, hl] at hb
    rcases hb with hb | hb
    · cases hb
    · rcases List.mem_cons.mp hb with hb | hb
      · cases hb
      · exact absurd rfl (List.countP_eq_zero.mp hrest _ hb)

theorem Kept.give [DecidableEq A] {l : Life A F} (h : Kept l) (hc : l.current = none) (a : A)
    (own : Option F) :
    Kept { l with
      given := Function.update l.given a own
      hook := Function.update l.hook a (.ofOwn own) } := by
  have hno : ∀ c, c ∉ l.current := fun c hm => by
    rw [hc] at hm
    cases hm
  refine ⟨h.one,h.shown,fun c hm => absurd hm (hno c),fun b _ => ?_,fun c hm => absurd hm (hno c),
    h.worker,h.stopped,h.joined,h.launched,h.ended,fun c hm => absurd hm (hno c),h.own⟩
  by_cases hb : b = a
  · subst hb
    simp
  · dsimp only
    rw [Function.update_of_ne hb, Function.update_of_ne hb]
    exact h.restored b fun c hm => absurd hm (hno c)

theorem Kept.unsaved {l : Life A F} (h : Kept l) (hc : l.current = none) :
    Kept { l with current := none, savedExit := .null } where
  one := by
    have := h.one
    rwa [Life.busy, hc] at this
  shown := by
    have := h.shown
    rwa [hc] at this
  managed c hm := absurd hm (Option.not_mem_none c)
  restored a _ := h.restored a fun c hm => by
    rw [hc] at hm
    cases hm
  saved c hm := absurd hm (Option.not_mem_none c)
  worker n hn := by
    have := h.worker n hn
    rwa [hc] at this
  stopped n := by
    have := h.stopped n
    simpa [Life.alive, Life.records, Life.stops, hc] using this
  joined := h.joined
  launched := h.launched
  ended n := by
    have := h.ended n
    simpa [Life.exits, Life.records, Life.launches, hc] using this
  mine c hm := absurd hm (Option.not_mem_none c)
  own := h.own

theorem Kept.launch [DecidableEq A] {l : Life A F} (h : Kept l) {a : A} {n : ℕ}
    {rest : List (Frame A)} (hl : l.frames = .screen a n::rest) :
    Kept { l with
      shown := a::l.shown
      current := some (a,n)
      savedExit := l.hook a
      hook := Function.update l.hook a .manager
      frames := .enter::rest
      log := .launched n a (l.given a)::l.log } := by
  obtain ⟨hc,hb⟩ := h.held hl rfl
  have hown : l.hook a = .ofOwn (l.given a) := h.restored a fun c hm => by
    rw [hc] at hm
    cases hm
  have hshown := h.shown
  rw [hc] at hshown
  refine ⟨?_,?_,fun c hm => ?_,fun b hne => ?_,fun c hm => ?_,fun m hm => ?_,fun m => ?_,fun m w hm => ?_,
    fun m => ?_,fun m => ?_,fun c hm => ?_,fun m hook hm => ?_⟩
  · simp [Life.busy, busyCall, hb]
  · simp [hshown]
  · obtain rfl := Option.mem_some_iff.mp hm
    simp
  · have hba : b ≠ a := fun he => hne (a,n) rfl he.symm
    dsimp only
    rw [Function.update_of_ne hba]
    exact h.restored b fun c hm => by
      rw [hc] at hm
      cases hm
  · obtain rfl := Option.mem_some_iff.mp hm
    exact hown
  · have hm' : m ∈ l.worker := hm
    rw [h.idle hl] at hm'
    cases hm'
  · have hs := h.stopped m
    simp only [Life.alive, Life.records, Life.stops, hc, hl, List.countP_cons, isStopped,
      holdsStart, (holds_none hb m).1, Option.any_some, decide_eq_true_eq] at hs ⊢
    simpa [Nat.add_comm] using hs
  · rcases List.mem_cons.mp hm with hm | hm
    · cases hm
    · exact h.joined m w hm
  · have hs := h.launched m
    simp only [Life.launches, hl, List.countP_cons, isLaunched, showsStart, (holds_none hb m).2,
      decide_eq_true_eq] at hs ⊢
    simpa using hs
  · have hs := h.ended m
    simp only [Life.exits, Life.records, Life.launches, hc, List.countP_cons, isLeft, isLaunched,
      Option.any_some, decide_eq_true_eq] at hs ⊢
    simpa using hs
  · obtain rfl := Option.mem_some_iff.mp hm
    exact List.mem_cons_self
  · rcases List.mem_cons.mp hm with hm | hm
    · cases hm
    · obtain ⟨b,own,hlog,ho⟩ := h.own m hook hm
      exact ⟨b,own,List.mem_cons_of_mem _ hlog,ho⟩

theorem Kept.work {l : Life A F} (h : Kept l) {a : A} {n : ℕ} (hc : l.current = some (a,n))
    {worker : Option ℕ} (hw : ∀ m ∈ worker, m = n) : Kept { l with worker := worker } where
  one := h.one
  shown := h.shown
  managed := h.managed
  restored := h.restored
  saved := h.saved
  worker m hm := ⟨a,Or.inl (hw m hm ▸ hc)⟩
  stopped := h.stopped
  joined := h.joined
  launched := h.launched
  ended := h.ended
  mine := h.mine
  own := h.own

end

/-- Launches are made by the UI task's own code, not inside an app's callbacks. -/
def Outside {A F I : Type} (s : Ui A F) : UiAction I F → Prop
  | .launch _ => inApp s.frames = false
  | _ => True

instance {A F I : Type} (s : Ui A F) (a : UiAction I F) : Decidable (Outside s a) := by
  cases a <;> unfold Outside <;> infer_instance

section
variable {A F : Type}

theorem outside_idle {fs : List (Frame A)} (h : inApp fs = false) : fs.countP busyCall = 0 := by
  refine List.countP_eq_zero.mpr fun f hf hb => ?_
  have hown : f.own = true := by cases f <;> first | rfl | cases hb
  exact Bool.false_ne_true (h.symm.trans (List.any_eq_true.mpr ⟨f,hf,hown⟩))

theorem free_event (own back : Bool) : FreeCall (.event own back : Frame A) :=
  ⟨rfl,fun _ => ⟨rfl,rfl⟩⟩

theorem free_enter : FreeCall (.enter : Frame A) := ⟨rfl,fun _ => ⟨rfl,rfl⟩⟩

theorem free_exit : FreeCall (.exit : Frame A) := ⟨rfl,fun _ => ⟨rfl,rfl⟩⟩

theorem free_done (own : Bool) : FreeCall (.done own : Frame A) := ⟨rfl,fun _ => ⟨rfl,rfl⟩⟩

theorem free_unwind (fault : Option ℕ) : FreeCall (.unwind fault : Frame A) :=
  ⟨rfl,fun _ => ⟨rfl,rfl⟩⟩

theorem Kept.top {s : Ui A F} (h : Kept (life s)) {a : A} {rest : List (Screen A)}
    (hs : s.stack = .app a::rest) :
    ∃ n, s.current = some (a,n) ∧ rest.filterMap appOf = [] := by
  have hshown := h.shown
  simp only [life, hs, List.filterMap_cons, appOf] at hshown
  cases hc : s.current with
  | none => simp [hc] at hshown
  | some c =>
    obtain ⟨b,n⟩ := c
    simp only [hc, Option.toList_some, List.map_cons, List.map_nil, List.cons.injEq] at hshown
    obtain ⟨rfl,hr⟩ := hshown
    exact ⟨n,rfl,hr⟩

theorem life_unshown {s : Ui A F} {leaving : Screen A} {rest : List (Screen A)}
    (hs : s.stack = leaving::rest) (hl : appOf leaving = none) :
    life s = life { s with stack := rest } := by
  simp [life, hs, hl]

theorem dialogExit_kept {s : Ui A F} (h : Kept (life s)) : Kept (life (dialogExit s)) := by
  unfold dialogExit
  dsimp only
  split
  · exact h.call (free_done _)
  · exact h

end

section
variable {A F : Type} [DecidableEq A]

theorem starkUiPop_app {s : Ui A F} (h : Kept (life s)) {a : A} {n : ℕ}
    (hc : s.current = some (a,n)) {below : Screen A} {rest : List (Screen A)}
    (hs : s.stack = .app a::below::rest) :
    (starkUiPop s).2 =
      { s with
        stack := below::rest
        hook := Function.update s.hook a s.savedExit
        current := none
        savedExit := .null
        frames := .leave a n::s.frames
        log := .left n s.savedExit::s.log } := by
  have hhook : s.hook a = .manager := h.managed (a,n) hc
  have hsaved : s.savedExit = .ofOwn (s.given a) := h.saved (a,n) hc
  have hrestored : s.savedExit.putBack = s.savedExit := by
    rw [hsaved]
    cases s.given a <;> rfl
  unfold starkUiPop
  rw [hs]
  dsimp only [onExit]
  rw [hhook]
  dsimp only [onAppScreenExit]
  rw [hc, hrestored]
  rfl

theorem starkUiPop_kept {s : Ui A F} (h : Kept (life s)) : Kept (life (starkUiPop s).2) := by
  rcases starkUiPop_cases s with ⟨-,hp⟩ | ⟨leaving,below,rest,hs,hp⟩
  · rwa [hp]
  · cases leaving with
    | launcher =>
      rw [hp]
      exact life_unshown hs rfl ▸ h
    | other overlay =>
      rw [hp]
      exact Kept.call (life_unshown hs rfl ▸ h) free_exit
    | dialog =>
      rw [hp]
      exact dialogExit_kept (life_unshown hs rfl ▸ h)
    | app a =>
      obtain ⟨n,hc,hr⟩ := h.top hs
      rw [starkUiPop_app h hc hs]
      have hl := h.leave hc
      unfold life
      dsimp only
      rw [hr]
      exact hl

theorem dialogKey_kept {s : Ui A F} (h : Kept (life s)) (key : UiStack.StarkKey)
    (action : UiStack.StarkKeyAction) : Kept (life (dialogKey key action s)) := by
  unfold dialogKey finish
  dsimp only
  split
  · exact h
  · split
    · exact starkUiPop_kept h
    · exact h
  · exact h
  · split
    · exact starkUiPop_kept h
    · exact h
  · exact h

theorem onBusEvent_kept {s : Ui A F} (h : Kept (life s)) (e : Event) :
    Kept (life (onBusEvent e s)) := by
  rcases onBusEvent_cases e s with he | he | ⟨key,action,rest,-,he⟩ | ⟨top,rest,back,-,he⟩ <;>
    rw [he]
  · exact h
  · exact h.call (free_unwind none)
  · exact dialogKey_kept h key action
  · exact h.call (free_event _ _)

end

section
variable {A F : Type}

theorem stopApp_kept {s : Ui A F} (h : Kept (life s)) {a : A} {n : ℕ} {rest : List (Frame A)}
    (hf : s.frames = .screen a n::rest) :
    Kept (life (stopApp a n { s with frames := rest })) := by
  have hidle : s.worker = none := h.idle hf
  have hstop := h.stop (a := a) hf rfl (fun m => rfl)
  unfold life stopApp call
  dsimp only
  rw [hidle]
  exact hstop

end

section
variable {A F I : Type} (reg : Registry I A)

theorem openDialog_life (alert : Bool) (done : Option Bool) (s : Ui A F) :
    life (openDialog reg alert done s).2 = life s := by
  rcases openDialog_cases reg alert done s with
    hp | ⟨-,dialog,-,-,-,-,-,⟨-,hp⟩ | ⟨-,hp⟩⟩ <;> rw [hp]
  · rfl
  · rfl

theorem starkUiPush_kept {s : Ui A F} (h : Kept (life s)) (overlay renders : Bool) :
    Kept (life (starkUiPush reg (.other overlay) renders s).2) := by
  rcases starkUiPush_cases reg (.other overlay) renders s with ⟨err,-,hp⟩ | hp <;> rw [hp]
  · exact h
  · exact h.call free_enter

end

section
variable {A F I : Type} [DecidableEq A] (reg : Registry I A)

theorem screenGiven_kept {s : Ui A F} (h : Kept (life s)) (hc : s.current = none) (a : A)
    (exit : Option (Option F)) : Kept (life (screenGiven a exit s)) := by
  unfold screenGiven
  split
  · exact h
  · exact h.give hc a _

theorem screenGiven_frames (a : A) (exit : Option (Option F)) (s : Ui A F) :
    (screenGiven a exit s).frames = s.frames := by
  unfold screenGiven
  split <;> rfl

theorem screenReturned_given (a : A) (n : ℕ) (g : Given F) (rest : List (Frame A)) (s : Ui A F) :
    screenReturned reg a n (some g) rest s =
      pushApp reg a n g.renders { screenGiven a g.exit s with frames := rest } := by
  unfold screenReturned screenGiven
  dsimp only
  split <;> rfl

theorem pushApp_kept {s : Ui A F} (h : Kept (life s)) {a : A} {n : ℕ} {rest : List (Frame A)}
    (hf : s.frames = .screen a n::rest) (renders : Bool) :
    Kept (life (pushApp reg a n renders { s with frames := rest })) := by
  rcases pushApp_cases reg a n renders { s with frames := rest } with hp | hp <;> rw [hp]
  · exact h.launch hf
  · have hc : s.current = none := (h.held hf rfl).1
    exact stopApp_kept (s := { s with
      generation := s.generation+1
      launches := s.launches+1
      current := none
      savedExit := .null }) (h.unsaved hc) hf

theorem screenReturned_kept {s : Ui A F} (h : Kept (life s)) {a : A} {n : ℕ}
    {rest : List (Frame A)} (hf : s.frames = .screen a n::rest) (screen : Option (Given F)) :
    Kept (life (screenReturned reg a n screen rest s)) := by
  cases screen with
  | none => exact stopApp_kept h hf
  | some g =>
    have hc : s.current = none := (h.held hf rfl).1
    have hgiven := screenGiven_kept h hc a g.exit
    rw [screenReturned_given]
    exact pushApp_kept reg hgiven ((screenGiven_frames a g.exit s).trans hf) g.renders

/-- The bracket's step: every call and return keeps it, launches being made outside the
apps' callbacks. -/
theorem step_kept {s t : Ui A F} {a : UiAction I F} (h : Kept (life s)) (hg : Outside s a)
    (hs : step reg s a = some t) : Kept (life t) := by
  cases step_taken hs with
  | deliver e hf => exact onBusEvent_kept h e
  | report index r hf hr =>
    unfold onAppRequest
    split
    · exact h.call (free_unwind _)
    · exact h
  | handled used own back rest hf =>
    have hb : Kept (life { s with frames := rest }) := h.back hf (fun _ => rfl)
    split
    · exact starkUiPop_kept hb
    · exact hb
  | started err b rest hf =>
    unfold startReturned
    dsimp only
    split
    · exact h.back hf (fun _ => rfl)
    · exact h.started hf
  | screened screen b n rest hf => exact screenReturned_kept reg h hf screen
  | returned f rest hf hp =>
    refine h.back hf (fun n => ?_)
    cases f <;> first | rfl | cases hp
  | left b n rest hf => exact h.stop hf rfl (fun m => rfl)
  | unwinds fault rest hf hl => exact starkUiPop_kept h
  | unwound fault rest hf hl =>
    have hb : Kept (life { s with frames := rest }) := h.back hf (fun _ => rfl)
    split
    · rw [openDialog_life]
      exact hb
    · exact hb
  | push overlay renders hm => exact starkUiPush_kept reg h overlay renders
  | pop hm => exact starkUiPop_kept h
  | popToRoot hm => exact h.call (free_unwind none)
  | stopCurrent hm =>
    unfold starkAppStopCurrent
    split
    · exact starkUiPop_kept h
    · exact h
  | openDialog alert done hm =>
    rw [openDialog_life]
    exact h
  | launch id hm =>
    rcases starkAppLaunch_cases reg id s with hl | ⟨b,hc,hl⟩ <;> rw [hl]
    · exact h
    · exact h.begin b hc (outside_idle hg)
  | workerStart returned created hm =>
    unfold starkAppWorkerStart
    split
    · exact h
    · rename_i b n hc
      split
      · exact h
      · refine h.work hc (fun m hm => ?_)
        cases created with
        | true => exact (Option.mem_some_iff.mp hm).symm
        | false => exact absurd hm (Option.not_mem_none m)
  | setCaps caps hm => exact h
  | fail => exact h

end

section
variable {A F : Type}

theorem boot_kept (exits : A → Option F) : Kept (life (boot exits)) where
  one := Nat.zero_le 1
  shown := rfl
  managed c hc := absurd hc (Option.not_mem_none c)
  restored _ _ := rfl
  saved c hc := absurd hc (Option.not_mem_none c)
  worker n hn := absurd hn (Option.not_mem_none n)
  stopped n := (if_neg (Nat.not_lt_zero n)).symm
  joined _ _ hm := absurd hm List.not_mem_nil
  launched _ := Nat.zero_le _
  ended _ := rfl
  mine c hc := absurd hc (Option.not_mem_none c)
  own _ _ hm := absurd hm List.not_mem_nil

end

section
variable {A F : Type}

theorem Kept.recorded {s : Ui A F} (h : Kept (life s)) (a : A) :
    Screen.app a ∈ s.stack ↔ ∃ n, s.current = some (a,n) := by
  have hm : Screen.app a ∈ s.stack ↔ a ∈ s.stack.filterMap appOf := by
    constructor
    · exact fun hs => List.mem_filterMap.mpr ⟨_,hs,rfl⟩
    · intro hs
      obtain ⟨screen,hs,ha⟩ := List.mem_filterMap.mp hs
      cases screen with
      | app b => exact Option.some.inj ha ▸ hs
      | launcher => cases ha
      | other overlay => cases ha
      | dialog => cases ha
  have hshown : s.stack.filterMap appOf = s.current.toList.map Prod.fst := h.shown
  rw [hm, hshown]
  cases s.current with
  | none => simp
  | some c =>
    obtain ⟨b,n⟩ := c
    simp [eq_comm]

theorem Kept.running {l : Life A F} (h : Kept l) {a : A} {n : ℕ} (hc : l.current = some (a,n)) :
    n < l.starts ∧ l.frames.countP (holdsStart n) = 0 := by
  have hs := h.stopped n
  simp only [Life.alive, Life.records, hc, Option.any_some, decide_true, if_true] at hs
  split at hs <;> omega

theorem Kept.working {l : Life A F} (h : Kept l) {n : ℕ} (hw : n ∈ l.worker) : l.stops n = 0 := by
  have halive : 0 < l.alive n := by
    obtain ⟨a,hc | hf⟩ := h.worker n hw
    · simp only [Life.alive, Life.records, hc, Option.any_some, decide_true, if_true]
      omega
    · have hpos : 0 < l.frames.countP (holdsStart n) :=
        List.countP_pos_iff.mpr ⟨_,hf,by simp [holdsStart]⟩
      exact Nat.add_pos_right _ hpos
  have hs := h.stopped n
  split at hs <;> omega

theorem Kept.ended_once {l : Life A F} (h : Kept l) (n : ℕ) :
    l.launches n ≤ 1 ∧ l.exits n+l.records n = l.launches n := by
  refine ⟨?_,h.ended n⟩
  have hl := h.launched n
  split at hl <;> omega

end

end StarkOne.AppBracket
