import StarkOne.Machine
import StarkOne.StorageCore

/-!
# Runs of the mount state machine

The storage task feeds an input to the core, performs the action it names and
feeds the result back. The hardware answers as it likes, and every step reads
the clock. Beside the core the state keeps what an observer of the task sees.
-/

set_option autoImplicit false

namespace StarkOne.StorageMount
open StarkOne.Machine StarkOne.StorageCore

/-- Readings of the clock are kept unwrapped; the core sees them as `uint32_t`. -/
structure State where
  core : StorageMachine
  mounted : Bool
  pending : StorageAction
  reported : Option StorageState
  clock : ℕ
  tickAt : ℕ
  ended : ℕ
  mounts : ℕ
  deriving DecidableEq

inductive Act where
  | feed (input : StorageInput) (t : ℕ)
  | answer (hardware : StarkErr) (t : ℕ)
  deriving DecidableEq

def Act.reading : Act → ℕ
  | .feed _ t => t
  | .answer _ t => t

/-- The results of actions are not inputs of their own. -/
def isResult : StorageInput → Bool
  | .mountResult | .probeResult | .presentResult => true
  | .tick | .ioError | .reqMount | .reqEject => false

def call (s : State) : Act → Option ((StorageMachine × StorageStep) × Bool)
  | .feed input t =>
    if s.pending ≠ .none || isResult input then none
    else some (storageCoreStep s.core input .ok (u32 t),s.mounted)
  | .answer hardware t => match s.pending with
    | .tryMount =>
      let (result,mounted) := mediumMount s.mounted hardware
      some (storageCoreStep s.core .mountResult result (u32 t),mounted)
    | .probe => some (storageCoreStep s.core .probeResult (mediumProbe s.mounted hardware) (u32 t),
        s.mounted)
    | .presentCheck => some (storageCoreStep s.core .presentResult
        (mediumPresent s.mounted hardware) (u32 t),s.mounted)
    | .unmount | .none => none

/-- A release is performed on the spot; any other action waits for its result. -/
def perform (s : State) (a : Act) (c : StorageMachine) (step : StorageStep) (mounted : Bool) :
    State where
  core := c
  mounted := if step.action = .unmount then mediumUnmount mounted else mounted
  pending := if step.action = .unmount then .none else step.action
  reported := if step.changed then some c.state else s.reported
  clock := a.reading
  tickAt := match a with
    | .feed .tick t => t
    | _ => s.tickAt
  ended := if s.core.state = .mounted ∧ c.state ≠ .mounted then s.ended+1 else s.ended
  mounts := if step.action = .tryMount then s.mounts+1 else s.mounts

def step (s : State) (a : Act) : Option State :=
  if a.reading < s.clock then none
  else (call s a).map fun r => perform s a r.1.1 r.1.2 r.2

/-- A board without a slot is reported at once. -/
def boot (fitted : Bool) (timing : StorageTiming) (t : ℕ) : State where
  core := storageCoreInit fitted timing (u32 t)
  mounted := false
  pending := .none
  reported := if fitted then none else some .notFitted
  clock := t
  tickAt := t
  ended := 0
  mounts := 0

theorem step_some {s t : State} {a : Act} (h : step s a = some t) :
    s.clock ≤ a.reading ∧ ∃ c st m, call s a = some ((c,st),m) ∧ t = perform s a c st m := by
  unfold step at h
  split at h
  · cases h
  · rename_i hclock
    obtain ⟨⟨⟨c,st⟩,m⟩,hc,rfl⟩ := Option.map_eq_some_iff.mp h
    exact ⟨Nat.not_lt.mp hclock,c,st,m,hc,rfl⟩

structure Inv (s : State) : Prop where
  card : s.mounted = true ↔ s.core.state = .mounted
  generation : s.core.generation = u32 s.ended
  trying : s.pending = .tryMount → s.core.state ≠ .mounted ∧ s.core.state ≠ .notFitted
  probing : s.pending = .probe → s.core.state = .mounted
  checking : s.pending = .presentCheck → s.core.state = .ejected
  silent : s.core.announced = false → s.reported = none ∧ s.core.state = .absent
  told : s.core.announced = true → s.reported = some s.core.state
  released : s.pending ≠ .unmount

theorem inv_boot (fitted : Bool) (timing : StorageTiming) (t : ℕ) : Inv (boot fitted timing t) := by
  cases fitted
  · exact ⟨⟨fun h => (by cases h),fun h => (by cases h)⟩,rfl,fun h => (by cases h),
      fun h => (by cases h),fun h => (by cases h),fun h => (by cases h),fun _ => rfl,fun h => (by cases h)⟩
  · exact ⟨⟨fun h => (by cases h),fun h => (by cases h)⟩,rfl,fun h => (by cases h),
      fun h => (by cases h),fun h => (by cases h),fun _ => ⟨rfl,rfl⟩,fun h => (by cases h),fun h => (by cases h)⟩

/-- How the core can answer: the state stays and one action may start, or a state is
entered by the one input that settles it. -/
inductive Answer (c : StorageMachine) : StorageInput → StarkErr → StorageMachine → StorageStep → Prop where
  | idle (input : StorageInput) (r : StarkErr) (d : StorageMachine)
      (hs : d.state = c.state) (ha : d.announced = c.announced) (hg : d.generation = c.generation)
      (hprobe : input = .probeResult → c.state = .notFitted ∨ r = .ok)
      (hmount : input = .mountResult → c.state = .notFitted ∨ c.state = .removed ∧ r ≠ .ok)
      (heject : input = .reqEject → c.state ≠ .mounted) : Answer c input r d ⟨.none,false⟩
  | tryMount (input : StorageInput) (r : StarkErr) (d : StorageMachine)
      (hs : d.state = c.state) (ha : d.announced = c.announced) (hg : d.generation = c.generation)
      (hstate : c.state ≠ .mounted ∧ c.state ≠ .notFitted)
      (hinput : input = .reqMount ∨ (input = .tick ∧ c.state ≠ .ejected)) :
      Answer c input r d ⟨.tryMount,false⟩
  | probe (r : StarkErr) (d : StorageMachine)
      (hs : d.state = c.state) (ha : d.announced = c.announced) (hg : d.generation = c.generation)
      (hstate : c.state = .mounted) : Answer c .tick r d ⟨.probe,false⟩
  | check (r : StarkErr) (d : StorageMachine)
      (hs : d.state = c.state) (ha : d.announced = c.announced) (hg : d.generation = c.generation)
      (hstate : c.state = .ejected) : Answer c .tick r d ⟨.presentCheck,false⟩
  | found (d : StorageMachine) (hs : d.state = .mounted) (ha : d.announced = true)
      (hg : d.generation = c.generation) :
      Answer c .mountResult .ok d ⟨.none,.mounted ≠ c.state || !c.announced⟩
  | missed (input : StorageInput) (r : StarkErr) (d : StorageMachine) (next : StorageState)
      (hs : d.state = next) (hn : next = .absent ∨ next = .unusable) (ha : d.announced = true)
      (hg : d.generation = c.generation) (hr : r ≠ .ok)
      (hinput : input = .mountResult ∨ (input = .presentResult ∧ c.state = .ejected)) :
      Answer c input r d ⟨.none,next ≠ c.state || !c.announced⟩
  | lost (input : StorageInput) (r : StarkErr) (d : StorageMachine) (next : StorageState)
      (hs : d.state = next) (hn : next = .removed ∧ input = .probeResult ∨
        next = .ejected ∧ input = .reqEject ∧ c.state = .mounted) (ha : d.announced = true)
      (hg : d.generation = u32 (c.generation+1)) :
      Answer c input r d ⟨.unmount,next ≠ c.state || !c.announced⟩

theorem core_answer (c : StorageMachine) (input : StorageInput) (r : StarkErr) (now : ℕ) :
    Answer c input r (storageCoreStep c input r now).1 (storageCoreStep c input r now).2 := by
  unfold storageCoreStep
  split
  · rename_i h
    exact .idle _ _ _ rfl rfl rfl (fun _ => .inl h.1) (fun _ => .inl h.1)
      (fun _ hm => by rw [h.1] at hm; cases hm)
  · rename_i hfit
    cases input with
    | tick =>
      dsimp only
      unfold onTick
      split
      · exact .idle _ _ _ rfl rfl rfl (fun h => by cases h) (fun h => by cases h)
          (fun h => by cases h)
      · split <;> rename_i hs
        · exact .tryMount _ _ _ rfl rfl rfl (by simp [hs]) (.inr ⟨rfl,by simp [hs]⟩)
        · exact .tryMount _ _ _ rfl rfl rfl (by simp [hs]) (.inr ⟨rfl,by simp [hs]⟩)
        · exact .tryMount _ _ _ rfl rfl rfl (by simp [hs]) (.inr ⟨rfl,by simp [hs]⟩)
        · exact .probe _ _ rfl rfl rfl hs
        · exact .check _ _ rfl rfl rfl hs
        · exact .idle _ _ _ rfl rfl rfl (fun h => by cases h) (fun h => by cases h)
            (fun h => by cases h)
    | mountResult =>
      dsimp only
      unfold onMountResult
      split
      · rename_i hr
        subst hr
        exact .found _ rfl rfl rfl
      · rename_i hr
        split
        · split
          · exact .missed _ _ _ .absent rfl (.inl rfl) rfl rfl hr (.inl rfl)
          · rename_i hrem
            exact .idle _ _ _ rfl rfl rfl (fun h => by cases h) (fun _ => .inr ⟨not_not.mp hrem,hr⟩)
              (fun h => by cases h)
        · exact .missed _ _ _ .unusable rfl (.inr rfl) rfl rfl hr (.inl rfl)
    | probeResult =>
      dsimp only
      unfold onProbeResult
      split
      · rename_i hr
        exact .idle _ _ _ rfl rfl rfl (fun _ => .inr hr) (fun h => by cases h) (fun h => by cases h)
      · exact .lost _ _ _ .removed rfl (.inl ⟨rfl,rfl⟩) rfl rfl
    | presentResult =>
      dsimp only
      unfold onPresentResult
      split
      · rename_i h
        exact .missed _ _ _ .absent rfl (.inl rfl) rfl rfl h.2 (.inr ⟨rfl,h.1⟩)
      · exact .idle _ _ _ rfl rfl rfl (fun h => by cases h) (fun h => by cases h)
          (fun h => by cases h)
    | ioError =>
      dsimp only
      split
      · exact .idle _ _ _ rfl rfl rfl (fun h => by cases h) (fun h => by cases h)
          (fun h => by cases h)
      · exact .idle _ _ _ rfl rfl rfl (fun h => by cases h) (fun h => by cases h)
          (fun h => by cases h)
    | reqMount =>
      dsimp only
      unfold onReqMount
      split
      · rename_i hm
        exact .tryMount _ _ _ rfl rfl rfl ⟨hm,fun hn => hfit ⟨hn,by decide⟩⟩ (.inl rfl)
      · exact .idle _ _ _ rfl rfl rfl (fun h => by cases h) (fun h => by cases h)
          (fun h => by cases h)
    | reqEject =>
      dsimp only
      unfold onReqEject
      split
      · rename_i hm
        exact .lost _ _ _ .ejected rfl (.inr ⟨rfl,rfl,hm⟩) rfl rfl
      · rename_i hm
        exact .idle _ _ _ rfl rfl rfl (fun h => by cases h) (fun h => by cases h) (fun _ => hm)

/-- A call comes from an input while nothing is pending, or from the pending action's
result; only an attempt to mount touches the card behind it. -/
def Cause (s : State) (a : Act) (input : StorageInput) (result : StarkErr) (m : Bool) : Prop :=
  (s.pending = .none ∧ isResult input = false ∧ result = .ok ∧ m = s.mounted ∧
    ∃ t, a = .feed input t) ∨
  (s.pending = .tryMount ∧ input = .mountResult ∧ (m = true ↔ result = .ok)) ∨
  (s.pending = .probe ∧ input = .probeResult ∧ m = s.mounted) ∨
  (s.pending = .presentCheck ∧ input = .presentResult ∧ m = s.mounted ∧
    ∃ t, a = .answer result t)

theorem Cause.card {s : State} {a : Act} {input : StorageInput} {result : StarkErr} {m : Bool}
    (h : Cause s a input result m) (hin : input ≠ .mountResult) : m = s.mounted := by
  rcases h with ⟨-,-,-,hm,-⟩ | ⟨-,hin',-⟩ | ⟨-,-,hm⟩ | ⟨-,-,hm,-⟩
  · exact hm
  · exact absurd hin' hin
  · exact hm
  · exact hm

theorem Cause.pending {s : State} {a : Act} {input : StorageInput} {result : StarkErr} {m : Bool}
    (h : Cause s a input result m) :
    (s.pending = .tryMount ↔ input = .mountResult) ∧ (s.pending = .probe ↔ input = .probeResult) ∧
      (s.pending = .presentCheck ↔ input = .presentResult) := by
  rcases h with ⟨hp,hin,-⟩ | ⟨hp,hin,-⟩ | ⟨hp,hin,-⟩ | ⟨hp,hin,-⟩
  · rw [hp]
    cases input <;> cases hin <;> simp
  · simp [hp, hin]
  · simp [hp, hin]
  · simp [hp, hin]

theorem call_cases {s : State} {a : Act} {r : (StorageMachine × StorageStep) × Bool}
    (hi : Inv s) (h : call s a = some r) :
    ∃ input result now, r.1 = storageCoreStep s.core input result now ∧ now = u32 a.reading ∧
      (∀ i t, a = .feed i t → input = i) ∧ Cause s a input result r.2 := by
  cases a with
  | feed input t =>
    unfold call at h
    dsimp only at h
    split at h
    · cases h
    rename_i hbusy
    cases h
    simp only [Bool.or_eq_true, decide_eq_true_eq, not_or, not_not, Bool.not_eq_true] at hbusy
    exact ⟨input,.ok,_,rfl,rfl,fun i t h => (by cases h; rfl),.inl ⟨hbusy.1,hbusy.2,rfl,rfl,t,rfl⟩⟩
  | answer hardware t =>
    unfold call at h
    dsimp only at h
    split at h
    · rename_i hp
      have hcard : s.mounted = false := by
        rw [← Bool.not_eq_true, hi.card]
        exact (hi.trying hp).1
      cases h
      rw [hcard]
      refine ⟨.mountResult,hardware,_,rfl,rfl,fun i t h => (by cases h),.inr (.inl ⟨hp,rfl,?_⟩)⟩
      dsimp only [mediumMount]
      rw [if_neg (by decide)]
      exact decide_eq_true_iff
    · rename_i hp
      cases h
      exact ⟨.probeResult,_,_,rfl,rfl,fun i t h => (by cases h),.inr (.inr (.inl ⟨hp,rfl,rfl⟩))⟩
    · rename_i hp
      have hcard : s.mounted = false := by
        rw [← Bool.not_eq_true, hi.card, hi.checking hp]
        decide
      cases h
      rw [hcard]
      exact ⟨.presentResult,hardware,_,rfl,rfl,fun i t h => (by cases h),
        .inr (.inr (.inr ⟨hp,rfl,hcard.symm,t,rfl⟩))⟩
    · cases h
    · cases h

theorem inv_stay {s : State} {a : Act} {c : StorageMachine} {action : StorageAction} {m : Bool}
    (hi : Inv s) (hs : c.state = s.core.state) (ha : c.announced = s.core.announced)
    (hg : c.generation = s.core.generation) (hm : m = s.mounted) (hu : action ≠ .unmount)
    (ht : action = .tryMount → c.state ≠ .mounted ∧ c.state ≠ .notFitted)
    (hp : action = .probe → c.state = .mounted) (hc : action = .presentCheck → c.state = .ejected) :
    Inv (perform s a c ⟨action,false⟩ m) := by
  have hend : ¬ (s.core.state = .mounted ∧ c.state ≠ .mounted) := by
    rintro ⟨h1,h2⟩
    exact h2 (hs.trans h1)
  have hpending : (if action = .unmount then StorageAction.none else action) = action := if_neg hu
  constructor
  · dsimp only [perform]
    rw [if_neg hu, hm, hs]
    exact hi.card
  · dsimp only [perform]
    rw [if_neg hend, hg]
    exact hi.generation
  · dsimp only [perform]
    rwa [hpending]
  · dsimp only [perform]
    rwa [hpending]
  · dsimp only [perform]
    rwa [hpending]
  · dsimp only [perform]
    rw [ha, hs]
    exact hi.silent
  · dsimp only [perform]
    rw [ha, hs]
    exact hi.told
  · dsimp only [perform]
    rwa [hpending]

theorem told_enter {s : State} {a : Act} {c : StorageMachine} (action : StorageAction) {m : Bool}
    {next : StorageState} (hi : Inv s) (hs : c.state = next) :
    (perform s a c ⟨action,next ≠ s.core.state || !s.core.announced⟩ m).reported = some next := by
  dsimp only [perform]
  split
  · exact congrArg some hs
  · rename_i h
    simp only [Bool.or_eq_true, decide_eq_true_eq, not_or, not_not, Bool.not_eq_true',
      Bool.not_eq_false] at h
    rw [hi.told h.2, h.1]

theorem inv_enter {s : State} {a : Act} {c : StorageMachine} {action : StorageAction} {m : Bool}
    {next : StorageState} (hi : Inv s) (hs : c.state = next) (ha : c.announced = true)
    (haction : action = .none ∨ action = .unmount)
    (hcard : (if action = .unmount then mediumUnmount m else m) = true ↔ next = .mounted)
    (hg : c.generation = u32 (if s.core.state = .mounted ∧ next ≠ .mounted then s.ended+1
      else s.ended)) :
    Inv (perform s a c ⟨action,next ≠ s.core.state || !s.core.announced⟩ m) := by
  have hpending : (if action = .unmount then StorageAction.none else action) = .none := by
    rcases haction with rfl | rfl <;> rfl
  have htold := told_enter (a := a) action (m := m) hi hs
  subst hs
  constructor
  · exact hcard
  · exact hg
  · dsimp only [perform]
    rw [hpending]
    exact fun h => by cases h
  · dsimp only [perform]
    rw [hpending]
    exact fun h => by cases h
  · dsimp only [perform]
    rw [hpending]
    exact fun h => by cases h
  · intro h
    exact absurd (h.symm.trans ha) (by decide)
  · intro _
    exact htold
  · dsimp only [perform]
    rw [hpending]
    exact fun h => by cases h

theorem inv_step (s : State) (a : Act) (t : State) (hi : Inv s) (h : step s a = some t) :
    Inv t := by
  obtain ⟨-,c,st,m,hc,rfl⟩ := step_some h
  obtain ⟨input,result,now,hcore,-,-,hwhy⟩ := call_cases hi hc
  have hans := core_answer s.core input result now
  rw [← hcore] at hans
  dsimp only at hans hwhy
  cases hans with
  | idle _ _ _ hs ha hg hprobe hmount heject =>
    have hm : m = s.mounted := by
      by_cases hin : input = .mountResult
      · have htry := hi.trying (hwhy.pending.1.mpr hin)
        rcases hwhy with ⟨-,hin',-⟩ | ⟨-,-,hm⟩ | ⟨-,hin',-⟩ | ⟨-,hin',-⟩
        · rw [hin] at hin'
          cases hin'
        · rcases hmount hin with hf | ⟨-,hr⟩
          · exact absurd hf htry.2
          · rw [Bool.eq_iff_iff, hm, hi.card]
            exact iff_of_false hr htry.1
        · rw [hin] at hin'
          cases hin'
        · rw [hin] at hin'
          cases hin'
      · exact hwhy.card hin
    exact inv_stay hi hs ha hg hm (by decide) (fun h => by cases h) (fun h => by cases h)
      (fun h => by cases h)
  | tryMount _ _ _ hs ha hg hstate hinput =>
    have hin : input ≠ .mountResult := by
      rcases hinput with rfl | ⟨rfl,-⟩ <;> decide
    exact inv_stay hi hs ha hg (hwhy.card hin) (by decide) (fun _ => hs ▸ hstate)
      (fun h => by cases h) (fun h => by cases h)
  | probe _ _ hs ha hg hstate =>
    exact inv_stay hi hs ha hg (hwhy.card (by decide)) (by decide) (fun h => by cases h)
      (fun _ => hs.trans hstate) (fun h => by cases h)
  | check _ _ hs ha hg hstate =>
    exact inv_stay hi hs ha hg (hwhy.card (by decide)) (by decide) (fun h => by cases h)
      (fun h => by cases h) (fun _ => hs.trans hstate)
  | found _ hs ha hg =>
    have hm : m = true := by
      rcases hwhy with ⟨-,hin,-⟩ | ⟨-,-,hm⟩ | ⟨-,hin,-⟩ | ⟨-,hin,-⟩
      · cases hin
      · exact hm.mpr rfl
      · cases hin
      · cases hin
    apply inv_enter hi hs ha (.inl rfl) (iff_of_true hm rfl)
    rw [if_neg (fun h => h.2 rfl), hg]
    exact hi.generation
  | missed _ _ _ next hs hn ha hg hr hinput =>
    have hcard : s.core.state ≠ .mounted ∧ m = false := by
      rcases hwhy with ⟨-,hin,-⟩ | ⟨hp,-,hm⟩ | ⟨-,hin,-⟩ | ⟨hp,-,hm,-⟩
      · rcases hinput with h | ⟨h,-⟩ <;> rw [h] at hin <;> cases hin
      · exact ⟨(hi.trying hp).1,Bool.eq_false_iff.mpr fun h => hr (hm.mp h)⟩
      · rcases hinput with h | ⟨h,-⟩ <;> rw [h] at hin <;> cases hin
      · have hstate : s.core.state ≠ .mounted := by
          rw [hi.checking hp]
          decide
        exact ⟨hstate,by rw [hm, ← Bool.not_eq_true, hi.card]; exact hstate⟩
    have hnew : next ≠ .mounted := by
      rcases hn with rfl | rfl <;> decide
    apply inv_enter hi hs ha (.inl rfl) (iff_of_false (Bool.eq_false_iff.mp hcard.2) hnew)
    rw [if_neg (fun h => hcard.1 h.1), hg]
    exact hi.generation
  | lost _ _ _ next hs hn ha hg =>
    have hold : s.core.state = .mounted := by
      rcases hn with ⟨-,hin⟩ | ⟨-,-,hm⟩
      · exact hi.probing (hwhy.pending.2.1.mpr hin)
      · exact hm
    have hnew : next ≠ .mounted := by
      rcases hn with ⟨rfl,-⟩ | ⟨rfl,-⟩ <;> decide
    apply inv_enter hi hs ha (.inr rfl) (iff_of_false Bool.false_ne_true hnew)
    rw [if_pos ⟨hold,hnew⟩, hg, hi.generation, u32_add_one]

theorem inv_run {fitted : Bool} {timing : StorageTiming} {t0 : ℕ} {s : State} (as : List Act)
    (h : Run step Free (boot fitted timing t0) as s) : Inv s :=
  run_invariant Inv (fun s a t hi _ h => inv_step s a t hi h) as (inv_boot fitted timing t0) h

/-- Neither a mount request nor a presence check that finds no card. -/
def Unasked (s : State) : Act → Prop
  | .feed input _ => input ≠ .reqMount
  | .answer r _ => s.pending = .presentCheck → r = .ok

instance (s : State) (a : Act) : Decidable (Unasked s a) := by
  cases a <;> unfold Unasked <;> infer_instance

/-- Until it is asked to mount or finds the card gone, an ejected card stays ejected. -/
theorem ejected_step (s : State) (a : Act) (t : State) (hi : Inv s)
    (he : s.core.state = .ejected ∧ s.pending ≠ .tryMount) (hu : Unasked s a)
    (h : step s a = some t) :
    (t.core.state = .ejected ∧ t.pending ≠ .tryMount) ∧ t.mounts = s.mounts := by
  obtain ⟨-,c,st,m,hc,rfl⟩ := step_some h
  obtain ⟨input,result,now,hcore,-,-,hwhy⟩ := call_cases hi hc
  have hans := core_answer s.core input result now
  rw [← hcore] at hans
  dsimp only at hans hwhy
  have hwhich : (isResult input = false ∧ input ≠ .reqMount) ∨
      input = .presentResult ∧ result = .ok := by
    rcases hwhy with ⟨-,hin,-,-,t,rfl⟩ | ⟨hp,-⟩ | ⟨hp,-⟩ | ⟨hp,hin,-,t,rfl⟩
    · exact .inl ⟨hin,hu⟩
    · exact absurd hp he.2
    · rw [hi.probing hp] at he
      cases he.1
    · exact .inr ⟨hin,hu hp⟩
  cases hans with
  | idle _ _ _ hs =>
    exact ⟨⟨hs.trans he.1,fun h => by cases h⟩,rfl⟩
  | tryMount _ _ _ hs ha hg hstate hinput =>
    rcases hinput with hin | ⟨-,hne⟩
    · rcases hwhich with ⟨-,hne⟩ | ⟨hin',-⟩
      · exact absurd hin hne
      · rw [hin] at hin'
        cases hin'
    · exact absurd he.1 hne
  | probe _ _ hs ha hg hstate =>
    rw [he.1] at hstate
    cases hstate
  | check _ _ hs =>
    exact ⟨⟨hs.trans he.1,fun h => by cases h⟩,rfl⟩
  | found =>
    rcases hwhich with ⟨hin,-⟩ | ⟨hin,-⟩ <;> cases hin
  | missed _ _ _ next hs hn ha hg hr hinput =>
    rcases hwhich with ⟨hin,-⟩ | ⟨-,hok⟩
    · rcases hinput with h | ⟨h,-⟩ <;> rw [h] at hin <;> cases hin
    · exact absurd hok hr
  | lost _ _ _ next hs hn =>
    rcases hn with ⟨-,hin'⟩ | ⟨-,-,hm⟩
    · rcases hwhich with ⟨hin,-⟩ | ⟨hin,-⟩ <;> rw [hin'] at hin <;> cases hin
    · rw [he.1] at hm
      cases hm

theorem ejected_run {s t : State} (as : List Act) (hi : Inv s)
    (he : s.core.state = .ejected ∧ s.pending ≠ .tryMount) (h : Run step Unasked s as t) :
    t.mounts = s.mounts := by
  have hall := run_invariant (fun t => Inv t ∧ (t.core.state = .ejected ∧ t.pending ≠ .tryMount) ∧
    t.mounts = s.mounts) (fun u a v ⟨hi,he,hm⟩ hu hv => by
      obtain ⟨he',hm'⟩ := ejected_step u a v hi he hu hv
      exact ⟨inv_step u a v hi hv,he',hm'.trans hm⟩) as ⟨hi,he,rfl⟩ h
  exact hall.2.2

theorem eject_step {s u : State} {t : ℕ} (hm : s.core.state = .mounted)
    (h : step s (.feed .reqEject t) = some u) :
    u.core.state = .ejected ∧ u.pending ≠ .tryMount := by
  obtain ⟨-,c,st,m,hc,rfl⟩ := step_some h
  unfold call at hc
  dsimp only at hc
  split at hc
  · cases hc
  unfold storageCoreStep at hc
  rw [if_neg (fun h => by rw [hm] at h; cases h.1)] at hc
  dsimp only [onReqEject] at hc
  rw [if_pos hm] at hc
  cases hc
  exact ⟨rfl,fun h => by cases h⟩

theorem ended_step (s : State) (a : Act) (t : State) (h : step s a = some t) :
    s.ended ≤ t.ended ∧ (s.core.state = .mounted → t.core.state ≠ .mounted → s.ended < t.ended) := by
  obtain ⟨-,c,st,m,-,rfl⟩ := step_some h
  dsimp only [perform]
  split
  · exact ⟨Nat.le_succ _,fun _ _ => Nat.lt_succ_self _⟩
  · rename_i hn
    exact ⟨Nat.le_refl _,fun h1 h2 => absurd ⟨h1,h2⟩ hn⟩

theorem ended_run {s t : State} (as : List Act) (h : Run step Free s as t) :
    s.ended ≤ t.ended ∧ (s.core.state = .mounted → t.core.state ≠ .mounted → s.ended < t.ended) := by
  apply run_invariant (fun t => s.ended ≤ t.ended ∧
    (s.core.state = .mounted → t.core.state ≠ .mounted → s.ended < t.ended)) _ as
    ⟨Nat.le_refl _,fun h1 h2 => absurd h1 h2⟩ h
  rintro u a v ⟨hle,hlt⟩ - hv
  obtain ⟨hle',hlt'⟩ := ended_step u a v hv
  refine ⟨Nat.le_trans hle hle',fun h1 h2 => ?_⟩
  by_cases hu : u.core.state = .mounted
  · exact Nat.lt_of_le_of_lt hle (hlt' hu h2)
  · exact Nat.lt_of_lt_of_le (hlt h1 hu) hle'

theorem changed_iff {s : State} {a : Act} {c : StorageMachine} {st : StorageStep} {m : Bool}
    (hi : Inv s) (h : call s a = some ((c,st),m)) :
    st.changed = true ↔ match s.reported with
      | none => s.pending = .tryMount
      | some r => c.state ≠ r := by
  obtain ⟨input,result,now,hcore,-,-,hwhy⟩ := call_cases hi h
  have hans := core_answer s.core input result now
  rw [← hcore] at hans
  dsimp only at hans hwhy
  obtain ⟨htry,hprobing,-⟩ := hwhy.pending
  cases hann : s.core.announced with
  | false =>
    obtain ⟨hrep,habs⟩ := hi.silent hann
    rw [hrep]
    dsimp only
    rw [htry]
    cases hans with
    | idle _ _ _ hs ha hg hprobe hmount =>
      refine iff_of_false Bool.false_ne_true fun hin => ?_
      rcases hmount hin with h | ⟨h,-⟩ <;> rw [habs] at h <;> cases h
    | tryMount _ _ _ hs ha hg hstate hinput =>
      refine iff_of_false Bool.false_ne_true fun hin => ?_
      rcases hinput with h | ⟨h,-⟩ <;> rw [hin] at h <;> cases h
    | probe => exact iff_of_false Bool.false_ne_true fun hin => by cases hin
    | check => exact iff_of_false Bool.false_ne_true fun hin => by cases hin
    | found => exact iff_of_true (by rw [hann]; simp) rfl
    | missed _ _ _ next hs hn ha hg hr hinput =>
      rcases hinput with hin | ⟨-,he⟩
      · exact iff_of_true (by rw [hann]; simp) hin
      · rw [habs] at he
        cases he
    | lost _ _ _ next hs hn =>
      rcases hn with ⟨-,hin⟩ | ⟨-,-,hm⟩
      · have := hi.probing (hprobing.mpr hin)
        rw [habs] at this
        cases this
      · rw [habs] at hm
        cases hm
  | true =>
    rw [hi.told hann]
    dsimp only
    have henter : ∀ next : StorageState,
        (decide (next ≠ s.core.state) || !s.core.announced) = true ↔ next ≠ s.core.state := by
      intro next
      simp [hann]
    cases hans with
    | idle _ _ _ hs => exact iff_of_false Bool.false_ne_true (not_not.mpr hs)
    | tryMount _ _ _ hs => exact iff_of_false Bool.false_ne_true (not_not.mpr hs)
    | probe _ _ hs => exact iff_of_false Bool.false_ne_true (not_not.mpr hs)
    | check _ _ hs => exact iff_of_false Bool.false_ne_true (not_not.mpr hs)
    | found _ hs =>
      rw [hs]
      exact henter _
    | missed _ _ _ next hs =>
      rw [hs]
      exact henter next
    | lost _ _ _ next hs =>
      rw [hs]
      exact henter next

/-- The clock is read within half its range of the last tick. -/
def Punctual (s : State) (a : Act) : Prop := a.reading-s.tickAt < 2^31

def Consecutive (s : State) (a : Act) : Prop := a.reading-s.clock < 2^31

instance (s : State) (a : Act) : Decidable (Punctual s a) :=
  inferInstanceAs (Decidable (_ < _))

instance (s : State) (a : Act) : Decidable (Consecutive s a) :=
  inferInstanceAs (Decidable (_ < _))

/-- A step keeps the due time, a tick only while it is not due yet, or sets it one
period ahead. -/
theorem due_step (c : StorageMachine) (input : StorageInput) (r : StarkErr) (now : ℕ)
    (hfit : c.state ≠ .notFitted) :
    let d := (storageCoreStep c input r now).1
    d.timing = c.timing ∧ d.state ≠ .notFitted ∧
      ((d.dueMs = c.dueMs ∧ (input = .tick → isDue c now = false)) ∨
        d.dueMs = u32 (now+c.timing.retryMs) ∨ d.dueMs = u32 (now+c.timing.probeMs)) := by
  unfold storageCoreStep
  rw [if_neg (fun h => hfit h.1)]
  cases input with
  | tick =>
    dsimp only [onTick]
    split
    · rename_i h
      exact ⟨rfl,hfit,.inl ⟨rfl,fun _ => by simpa using h⟩⟩
    · split <;> rename_i hs
      · exact ⟨rfl,hfit,.inr (.inl rfl)⟩
      · exact ⟨rfl,hfit,.inr (.inl rfl)⟩
      · exact ⟨rfl,hfit,.inr (.inl rfl)⟩
      · exact ⟨rfl,hfit,.inr (.inr rfl)⟩
      · exact ⟨rfl,hfit,.inr (.inl rfl)⟩
      · exact absurd hs hfit
  | mountResult =>
    dsimp only [onMountResult]
    split
    · exact ⟨rfl,fun h => (by cases h),.inr (.inr rfl)⟩
    · split
      · split
        · exact ⟨rfl,fun h => (by cases h),.inl ⟨rfl,fun h => by cases h⟩⟩
        · exact ⟨rfl,hfit,.inl ⟨rfl,fun h => by cases h⟩⟩
      · exact ⟨rfl,fun h => (by cases h),.inl ⟨rfl,fun h => by cases h⟩⟩
  | probeResult =>
    dsimp only [onProbeResult]
    split
    · exact ⟨rfl,hfit,.inl ⟨rfl,fun h => by cases h⟩⟩
    · exact ⟨rfl,fun h => (by cases h),.inr (.inl rfl)⟩
  | presentResult =>
    dsimp only [onPresentResult]
    split
    · exact ⟨rfl,fun h => (by cases h),.inl ⟨rfl,fun h => by cases h⟩⟩
    · exact ⟨rfl,hfit,.inl ⟨rfl,fun h => by cases h⟩⟩
  | ioError =>
    dsimp only
    split
    · exact ⟨rfl,hfit,.inl ⟨rfl,fun h => by cases h⟩⟩
    · exact ⟨rfl,hfit,.inl ⟨rfl,fun h => by cases h⟩⟩
  | reqMount =>
    dsimp only [onReqMount]
    split
    · exact ⟨rfl,hfit,.inr (.inl rfl)⟩
    · exact ⟨rfl,hfit,.inl ⟨rfl,fun h => by cases h⟩⟩
  | reqEject =>
    dsimp only [onReqEject]
    split
    · exact ⟨rfl,fun h => (by cases h),.inr (.inl rfl)⟩
    · exact ⟨rfl,hfit,.inl ⟨rfl,fun h => by cases h⟩⟩

structure Timed (timing : StorageTiming) (s : State) : Prop where
  periods : s.core.timing = timing
  fitted : s.core.state ≠ .notFitted
  ticked : s.tickAt ≤ s.clock
  due : ∃ due, s.core.dueMs = u32 due ∧ s.tickAt ≤ due ∧
    due ≤ s.clock+max timing.retryMs timing.probeMs

/-- Read within half the range of the clock, being due is told right. -/
theorem isDue_false {c : StorageMachine} {t due : ℕ} (hd : c.dueMs = u32 due)
    (ht : t-due < 2^31) (h : isDue c (u32 t) = false) : t < due := by
  by_contra hle
  unfold isDue at h
  rw [hd, sub32_u32 t due (by omega) (by omega)] at h
  simp only [Bool.or_eq_false_iff, decide_eq_false_iff_not] at h
  exact h.2 ht

theorem timed_step {timing : StorageTiming} (s : State) (a : Act) (t : State)
    (hi : Inv s ∧ Timed timing s) (hp : Punctual s a) (h : step s a = some t) :
    Inv t ∧ Timed timing t := by
  refine ⟨inv_step s a t hi.1 h,?_⟩
  obtain ⟨hclock,c,st,m,hc,rfl⟩ := step_some h
  obtain ⟨input,result,now,hcore,hnow,hfeed,hwhy⟩ := call_cases hi.1 hc
  obtain ⟨ht,hfit,htick,due,hdue,hlow,hhigh⟩ := hi.2
  have hstep := due_step s.core input result now hfit
  rw [← hcore] at hstep
  dsimp only at hstep hwhy
  obtain ⟨ht',hfit',hdue'⟩ := hstep
  have hread : (perform s a c st m).tickAt ≤ a.reading ∧
      ((perform s a c st m).tickAt = s.tickAt ∨
        (perform s a c st m).tickAt = a.reading ∧ input = .tick) := by
    cases a with
    | answer x t => exact ⟨Nat.le_trans htick hclock,.inl rfl⟩
    | feed i t =>
      rw [hfeed i t rfl]
      cases i with
      | tick => exact ⟨Nat.le_refl _,.inr ⟨rfl,rfl⟩⟩
      | mountResult | probeResult | presentResult | ioError | reqMount | reqEject =>
        exact ⟨Nat.le_trans htick hclock,.inl rfl⟩
  have hahead : ∀ p, p ≤ max timing.retryMs timing.probeMs → c.dueMs = u32 (now+p) →
      Timed timing (perform s a c st m) := by
    intro p hp hd
    refine ⟨ht'.trans ht,hfit',hread.1,a.reading+p,?_,Nat.le_trans hread.1 (Nat.le_add_right _ _),
      Nat.add_le_add_left hp _⟩
    show c.dueMs = _
    rw [hd, hnow, u32, u32, u32, Nat.mod_add_mod]
  rcases hdue' with ⟨hsame,hwait⟩ | hd | hd
  · refine ⟨ht'.trans ht,hfit',hread.1,due,hsame.trans hdue,?_,?_⟩
    · rcases hread.2 with h | ⟨h,hin⟩
      · rw [h]
        exact hlow
      · rw [h]
        have hnot := hwait hin
        rw [hnow] at hnot
        unfold Punctual at hp
        exact Nat.le_of_lt (isDue_false hdue (by omega) hnot)
    · exact Nat.le_trans hhigh (Nat.add_le_add_right hclock _)
  · rw [ht] at hd
    exact hahead _ (Nat.le_max_left _ _) hd
  · rw [ht] at hd
    exact hahead _ (Nat.le_max_right _ _) hd

theorem timed_boot (timing : StorageTiming) (t : ℕ) : Timed timing (boot true timing t) :=
  ⟨rfl,fun h => (by cases h),Nat.le_refl _,t,rfl,Nat.le_refl _,Nat.le_add_right _ _⟩

theorem wait_le {timing : StorageTiming} {s : State} (h : Timed timing s) {x : ℕ}
    (hx : s.clock ≤ x) (hp : x-s.tickAt < 2^31)
    (hmax : max timing.retryMs timing.probeMs < 2^31) :
    storageCoreWaitMs s.core (u32 x) ≤ max timing.retryMs timing.probeMs := by
  obtain ⟨-,hfit,htick,due,hdue,hlow,hhigh⟩ := h
  unfold storageCoreWaitMs
  rw [if_neg hfit]
  split
  · exact Nat.zero_le _
  · rename_i hnot
    have hlt := isDue_false hdue (by omega) (Bool.eq_false_iff.mpr hnot)
    rw [hdue, sub32_u32 due x (Nat.le_of_lt hlt) (by omega)]
    omega

/-- Between two inputs the card is mounted exactly in the mounted state, an ejected card
is left alone, generations tell periods apart, every change is reported once, and the
wait is no longer than a period. -/
theorem mount_machine (fitted : Bool) (timing : StorageTiming) (t0 : ℕ) (as : List Act) (s : State)
    (hs : Run step Free (boot fitted timing t0) as s) :
    (s.pending = .none → (s.mounted = true ↔ s.core.state = .mounted)) ∧
    (∀ t u, s.core.state = .mounted → step s (.feed .reqEject t) = some u →
      u.core.state = .ejected ∧ ∀ bs v, Run step Unasked u bs v → v.mounts = u.mounts) ∧
    (s.core.generation = u32 s.ended ∧
      ∀ bs cs u v, Run step Free s bs u → Run step Free u cs v → s.core.state = .mounted →
        u.core.state ≠ .mounted → v.core.state = .mounted → v.ended-s.ended < 2^32 →
        v.core.generation ≠ s.core.generation) ∧
    (∀ a c st m, call s a = some ((c,st),m) →
      (st.changed = true ↔ match s.reported with
        | none => s.pending = .tryMount
        | some r => c.state ≠ r)) ∧
    (fitted = true → max timing.retryMs timing.probeMs < 2^31 →
      Run step Punctual (boot fitted timing t0) as s → ∀ x, s.clock ≤ x → x-s.tickAt < 2^31 →
      storageCoreWaitMs s.core (u32 x) ≤ max timing.retryMs timing.probeMs) := by
  have hi := inv_run as hs
  refine ⟨fun _ => hi.card,?_,⟨hi.generation,?_⟩,fun a c st m h => changed_iff hi h,?_⟩
  · intro t u hm hu
    have he := eject_step hm hu
    exact ⟨he.1,fun bs v hv => ejected_run bs (inv_step s _ u hi hu) he hv⟩
  · intro bs cs u v hu hv hm hn hm' hfew heq
    have hiu := run_invariant Inv (fun s a t hi _ h => inv_step s a t hi h) bs hi hu
    have hiv := run_invariant Inv (fun s a t hi _ h => inv_step s a t hi h) cs hiu hv
    have h1 := (ended_run bs hu).2 hm hn
    have h2 := (ended_run cs hv).1
    rw [hiv.generation, hi.generation] at heq
    unfold u32 at heq
    omega
  · intro hfit hmax hp x hx hlate
    subst hfit
    have hall := run_invariant (fun s => Inv s ∧ Timed timing s) timed_step as
      ⟨inv_boot true timing t0,timed_boot timing t0⟩ hp
    exact wait_le hall.2 hx hlate hmax

def benchTiming : StorageTiming := ⟨3000,1000⟩

def up (generation mounts ended : ℕ) : State where
  core := ⟨.mounted,benchTiming,1000,false,true,generation⟩
  mounted := true
  pending := .none
  reported := some .mounted
  clock := 0
  tickAt := 0
  ended := ended
  mounts := mounts

def down (generation mounts ended : ℕ) : State where
  core := ⟨.ejected,benchTiming,3000,false,true,generation⟩
  mounted := false
  pending := .none
  reported := some .ejected
  clock := 0
  tickAt := 0
  ended := ended
  mounts := mounts

theorem up_reached (G : State → Act → Prop) [∀ s a, Decidable (G s a)]
    (hg : guarded step G (boot true benchTiming 0) [.feed .tick 0,.answer .ok 0] = true) :
    Run step G (boot true benchTiming 0) [.feed .tick 0,.answer .ok 0] (up 0 1 0) :=
  run_of_follow _ hg (by decide)

theorem mount_machine_up : ((up 0 1 0).mounted = true ↔ (up 0 1 0).core.state = .mounted) ∧
    storageCoreWaitMs (up 0 1 0).core (u32 500) ≤ 3000 := by
  have h := mount_machine true benchTiming 0 _ _ (up_reached Free (by decide))
  exact ⟨h.1 rfl,h.2.2.2.2 rfl (by decide) (up_reached Punctual (by decide)) 500 (by decide)
    (by decide)⟩

theorem up_down (g m e : ℕ) :
    Run step Free (up g m e) [.feed .reqEject 0] (down (u32 (g+1)) m (e+1)) :=
  ⟨trivial,_,rfl,rfl⟩

theorem down_up (g m e : ℕ) :
    Run step Free (down g m e) [.feed .reqMount 0,.answer .ok 0] (up g (m+1) e) :=
  ⟨trivial,_,rfl,trivial,_,rfl,rfl⟩

def rounds : ℕ → List Act
  | 0 => []
  | k+1 => rounds k++([.feed .reqEject 0]++[.feed .reqMount 0,.answer .ok 0])

theorem rounds_run (m e k : ℕ) :
    Run step Free (up 0 m e) (rounds k) (up (u32 k) (m+k) (e+k)) := by
  induction k with
  | zero => rfl
  | succ k ih =>
    have h1 := up_down (u32 k) (m+k) (e+k)
    rw [u32_add_one] at h1
    exact (run_append _ _).mpr ⟨_,ih,(run_append _ _).mpr ⟨_,h1,down_up (u32 (k+1)) (m+k) (e+k+1)⟩⟩

/-- After `k+1` periods the generation is `k+1` as a `uint32_t`. -/
theorem period_generation (k : ℕ) : ∃ bs cs u v, Run step Free (up 0 1 0) bs u ∧
    Run step Free u cs v ∧ u.core.state ≠ .mounted ∧ v.core.state = .mounted ∧
      v.core.generation = u32 (k+1) := by
  have h1 := rounds_run 1 0 k
  have h2 := up_down (u32 k) (1+k) (0+k)
  rw [u32_add_one] at h2
  exact ⟨_,_,_,_,(run_append _ _).mpr ⟨_,h1,h2⟩,down_up _ _ _,fun h => (by cases h),rfl,rfl⟩

/-- The first tick reports nothing, the generation comes round after `2^32` periods, and
with no tick for longer than half the range of the clock the wait exceeds every period. -/
theorem mount_machine_limits :
    (∃ c st m, call (boot true benchTiming 0) (.feed .tick 0) = some ((c,st),m) ∧
      (boot true benchTiming 0).reported = none ∧ st.changed = false) ∧
    (∃ as bs cs s u v, Run step Free (boot true benchTiming 0) as s ∧ Run step Free s bs u ∧
      Run step Free u cs v ∧ s.core.state = .mounted ∧ u.core.state ≠ .mounted ∧
      v.core.state = .mounted ∧ v.core.generation = s.core.generation) ∧
    ∃ s, Run step Consecutive (boot true benchTiming 0)
      [.feed .tick 0,.answer .notFound 0,.feed .reqEject (2^31-1)] s ∧ s.pending = .none ∧
      s.clock ≤ 2^32-2 ∧ 2^32-2-s.clock < 2^31 ∧
      max benchTiming.retryMs benchTiming.probeMs < storageCoreWaitMs s.core (u32 (2^32-2)) := by
  refine ⟨⟨_,_,_,rfl,rfl,rfl⟩,?_,run_witness step _ (by decide) (by decide)⟩
  obtain ⟨bs,cs,u,v,hu,hv,hn,hm,hg⟩ := period_generation (2^32-1)
  exact ⟨_,bs,cs,_,u,v,up_reached Free (by decide),hu,hv,rfl,hn,hm,hg⟩

end StarkOne.StorageMount
