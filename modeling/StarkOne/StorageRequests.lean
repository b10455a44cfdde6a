import StarkOne.StorageMount

/-!
# Mount and eject requests

Requests come from any task and leave a flag each. The storage task takes the
lock, serves the two flags, the reported failure and the tick in this order,
and follows every input through the mount machine before the next one.
-/

set_option autoImplicit false

namespace StarkOne.StorageRequests
open StarkOne.Machine StarkOne.StorageCore StarkOne.StorageMount

inductive Request where
  | mount
  | eject
  deriving DecidableEq

/-- What the task does next; the lock is free only while it waits. -/
inductive Stage where
  | waiting
  | eject
  | mount
  | ioError
  | tick
  deriving DecidableEq

structure Task where
  card : StorageMount.State
  running : Bool
  reqEject : Bool
  reqMount : Bool
  ioError : Bool
  openFiles : ℕ
  stage : Stage
  deriving DecidableEq

inductive Act where
  | request (r : Request)
  | failed
  | files (n : ℕ)
  | wake
  | serve (t : ℕ)
  | answer (hardware : StarkErr) (t : ℕ)
  deriving DecidableEq

/-- Without a task the call returns `STARK_ERR_STATE` and leaves no flag. -/
def request (s : Task) (r : Request) : StarkErr × Task :=
  if !s.running then (.state,s)
  else match r with
    | .eject => (.ok,{ s with reqEject := true })
    | .mount => (.ok,{ s with reqMount := true })

def feedIf (flag : Bool) (input : StorageInput) (t : ℕ) (card : StorageMount.State) :
    Option StorageMount.State :=
  if card.pending ≠ .none then none
  else if flag then StorageMount.step card (.feed input t)
  else some card

def refused (s : Task) : Bool := s.openFiles > 0 && s.card.core.state = .mounted

def serve (s : Task) (t : ℕ) : Option Task :=
  match s.stage with
  | .waiting => none
  | .eject => (feedIf (s.reqEject && !refused s) .reqEject t s.card).map fun card =>
      { s with card := card, reqEject := false, stage := .mount }
  | .mount => (feedIf s.reqMount .reqMount t s.card).map fun card =>
      { s with card := card, reqMount := false, stage := .ioError }
  | .ioError => (feedIf s.ioError .ioError t s.card).map fun card =>
      { s with card := card, ioError := false, stage := .tick }
  | .tick => (feedIf true .tick t s.card).map fun card => { s with card := card, stage := .waiting }

def step (s : Task) : Act → Option Task
  | .request r => some (request s r).2
  | .failed => some { s with ioError := true }
  | .files n =>
    if s.stage = .waiting ∧ s.card.pending = .none then some { s with openFiles := n } else none
  | .wake =>
    if s.running ∧ s.stage = .waiting ∧ s.card.pending = .none then some { s with stage := .eject }
    else none
  | .serve t => serve s t
  | .answer hardware t =>
    (StorageMount.step s.card (.answer hardware t)).map fun card => { s with card := card }

/-- The service just started: a task runs on a board with a card slot. -/
def start (fitted : Bool) (timing : StorageTiming) (t : ℕ) : Task where
  card := boot fitted timing t
  running := fitted
  reqEject := false
  reqMount := false
  ioError := false
  openFiles := 0
  stage := .waiting

/-- The requests of the round have been served, with every action they started. -/
def handled (s : Task) : Bool := s.stage = .ioError && s.card.pending = .none

def inputOf : Stage → StorageInput
  | .eject => .reqEject
  | .mount => .reqMount
  | .ioError => .ioError
  | .waiting | .tick => .tick

def next : Stage → Stage
  | .eject => .mount
  | .mount => .ioError
  | .ioError => .tick
  | .waiting | .tick => .waiting

theorem serve_some {s t : Task} {x : ℕ} (h : serve s x = some t) :
    s.stage ≠ .waiting ∧ s.card.pending = .none ∧ t.stage = next s.stage ∧
    t.running = s.running ∧ (t.reqMount = true → s.reqMount = true ∧ s.stage ≠ .mount) ∧
    (s.stage ≠ .mount → t.reqMount = s.reqMount) ∧
    ((t.card = s.card ∧ (s.stage = .mount → s.reqMount = false) ∧
        (s.stage = .eject → s.reqEject = false ∨ refused s = true)) ∨
      (StorageMount.step s.card (.feed (inputOf s.stage) x) = some t.card ∧
        (s.stage = .mount → s.reqMount = true))) := by
  have hfeed : ∀ {flag : Bool} {input : StorageInput} {card : StorageMount.State},
      feedIf flag input x s.card = some card → s.card.pending = .none ∧
        ((card = s.card ∧ flag = false) ∨
          (StorageMount.step s.card (.feed input x) = some card ∧ flag = true)) := by
    intro flag input card h
    unfold feedIf at h
    split at h
    · cases h
    rename_i hp
    split at h
    · rename_i hf
      exact ⟨not_not.mp hp,.inr ⟨h,hf⟩⟩
    · rename_i hf
      exact ⟨not_not.mp hp,.inl ⟨(Option.some.inj h).symm,Bool.eq_false_iff.mpr hf⟩⟩
  unfold serve at h
  split at h <;> rename_i hs
  · cases h
  · obtain ⟨card,hc,rfl⟩ := Option.map_eq_some_iff.mp h
    obtain ⟨hp,hc⟩ := hfeed hc
    refine ⟨by simp [hs],hp,by simp [hs, next],rfl,fun h => ⟨h,by simp [hs]⟩,fun _ => rfl,?_⟩
    rcases hc with ⟨hc,hf⟩ | ⟨hc,-⟩
    · refine .inl ⟨hc,fun h => (by rw [hs] at h; cases h),fun _ => ?_⟩
      cases hq : s.reqEject
      · exact .inl rfl
      · rw [hq] at hf
        exact .inr (by simpa using hf)
    · exact .inr ⟨by rw [hs]; exact hc,fun h => by rw [hs] at h; cases h⟩
  · obtain ⟨card,hc,rfl⟩ := Option.map_eq_some_iff.mp h
    obtain ⟨hp,hc⟩ := hfeed hc
    refine ⟨by simp [hs],hp,by simp [hs, next],rfl,fun h => (by cases h),
      fun h => absurd hs h,?_⟩
    rcases hc with ⟨hc,hf⟩ | ⟨hc,hf⟩
    · exact .inl ⟨hc,fun _ => hf,fun h => by rw [hs] at h; cases h⟩
    · exact .inr ⟨by rw [hs]; exact hc,fun _ => hf⟩
  · obtain ⟨card,hc,rfl⟩ := Option.map_eq_some_iff.mp h
    obtain ⟨hp,hc⟩ := hfeed hc
    refine ⟨by simp [hs],hp,by simp [hs, next],rfl,fun h => ⟨h,by simp [hs]⟩,fun _ => rfl,?_⟩
    rcases hc with ⟨hc,-⟩ | ⟨hc,-⟩
    · exact .inl ⟨hc,fun h => (by rw [hs] at h; cases h),fun h => by rw [hs] at h; cases h⟩
    · exact .inr ⟨by rw [hs]; exact hc,fun h => by rw [hs] at h; cases h⟩
  · obtain ⟨card,hc,rfl⟩ := Option.map_eq_some_iff.mp h
    obtain ⟨hp,hc⟩ := hfeed hc
    refine ⟨by simp [hs],hp,by simp [hs, next],rfl,fun h => ⟨h,by simp [hs]⟩,fun _ => rfl,?_⟩
    rcases hc with ⟨hc,-⟩ | ⟨hc,-⟩
    · exact .inl ⟨hc,fun h => (by rw [hs] at h; cases h),fun h => by rw [hs] at h; cases h⟩
    · exact .inr ⟨by rw [hs]; exact hc,fun h => by rw [hs] at h; cases h⟩

theorem request_flags (s : Task) (r : Request) : (request s r).2 = { s with
    reqEject := s.reqEject || (s.running && r = .eject)
    reqMount := s.reqMount || (s.running && r = .mount) } := by
  obtain ⟨card,running,reqEject,reqMount,ioError,openFiles,stage⟩ := s
  cases running with
  | false => simp [request]
  | true => cases r <;> simp [request]

theorem step_cases {s t : Task} {a : Act} (h : step s a = some t) :
    (∃ r, a = .request r ∧ t = { s with
      reqEject := s.reqEject || (s.running && r = .eject)
      reqMount := s.reqMount || (s.running && r = .mount) }) ∨
    (a = .failed ∧ t = { s with ioError := true }) ∨
    (∃ n, a = .files n ∧ s.stage = .waiting ∧ t = { s with openFiles := n }) ∨
    (a = .wake ∧ s.stage = .waiting ∧ t = { s with stage := .eject }) ∨
    (∃ x, a = .serve x ∧ serve s x = some t) ∨
    ∃ r x card, a = .answer r x ∧ StorageMount.step s.card (.answer r x) = some card ∧
      t = { s with card := card } := by
  cases a with
  | request r => exact .inl ⟨r,rfl,(Option.some.inj h).symm.trans (request_flags s r)⟩
  | failed => exact .inr (.inl ⟨rfl,(Option.some.inj h).symm⟩)
  | files n =>
    simp only [step, Option.ite_none_right_eq_some] at h
    exact .inr (.inr (.inl ⟨n,rfl,h.1.1,(Option.some.inj h.2).symm⟩))
  | wake =>
    simp only [step, Option.ite_none_right_eq_some] at h
    exact .inr (.inr (.inr (.inl ⟨rfl,h.1.2.1,(Option.some.inj h.2).symm⟩)))
  | serve x => exact .inr (.inr (.inr (.inr (.inl ⟨x,rfl,h⟩))))
  | answer r x =>
    obtain ⟨card,hc,ht⟩ := Option.map_eq_some_iff.mp h
    exact .inr (.inr (.inr (.inr (.inr ⟨r,x,card,rfl,hc,ht.symm⟩))))

/-- A step leaves the card alone or is one step of its machine. -/
theorem card_step {s t : Task} {a : Act} (h : step s a = some t) :
    t.card = s.card ∨
      (∃ x, a = .serve x ∧ (s.stage = .mount → s.reqMount = true) ∧
        StorageMount.step s.card (.feed (inputOf s.stage) x) = some t.card) ∨
      ∃ r x, a = .answer r x ∧ StorageMount.step s.card (.answer r x) = some t.card := by
  rcases step_cases h with ⟨r,-,rfl⟩ | ⟨-,rfl⟩ | ⟨n,-,-,rfl⟩ | ⟨-,-,rfl⟩ | ⟨x,rfl,hs⟩ |
    ⟨r,x,card,rfl,hc,rfl⟩
  · exact .inl rfl
  · exact .inl rfl
  · exact .inl rfl
  · exact .inl rfl
  · obtain ⟨-,-,-,-,-,-,⟨hc,-⟩ | ⟨hc,hq⟩⟩ := serve_some hs
    · exact .inl hc
    · exact .inr (.inl ⟨x,rfl,hq,hc⟩)
  · exact .inr (.inr ⟨r,x,rfl,hc⟩)

theorem card_inv {s t : Task} {a : Act} (hi : Inv s.card) (h : step s a = some t) :
    Inv t.card := by
  rcases card_step h with hc | ⟨x,-,-,hc⟩ | ⟨r,x,-,hc⟩
  · exact hc ▸ hi
  · exact inv_step _ _ _ hi hc
  · exact inv_step _ _ _ hi hc

theorem start_inv {fitted : Bool} {timing : StorageTiming} {t0 : ℕ} {s : Task} (as : List Act)
    (h : Run step Free (start fitted timing t0) as s) : Inv s.card :=
  run_invariant (fun s => Inv s.card) (fun _ _ _ hi _ h => card_inv hi h) as
    (inv_boot fitted timing t0) h

theorem reqMount_step {s t : Task} {a : Act} (ha : a ≠ .request .mount) (hq : s.reqMount = false)
    (h : step s a = some t) : t.reqMount = false := by
  rcases step_cases h with ⟨r,rfl,rfl⟩ | ⟨-,rfl⟩ | ⟨n,-,-,rfl⟩ | ⟨-,-,rfl⟩ | ⟨x,rfl,hs⟩ |
    ⟨r,x,card,-,-,rfl⟩
  · have hr : r ≠ .mount := fun hr => ha (by rw [hr])
    simp [hq, hr]
  · exact hq
  · exact hq
  · exact hq
  · obtain ⟨-,-,-,-,hkeep,-⟩ := serve_some hs
    rw [← Bool.not_eq_true] at hq ⊢
    exact fun ht => hq (hkeep ht).1
  · exact hq

def Unasked (s : Task) : Act → Prop
  | .request r => r ≠ .mount
  | .answer r _ => s.card.pending = .presentCheck → r = .ok
  | .failed | .files _ | .wake | .serve _ => True

instance (s : Task) (a : Act) : Decidable (Unasked s a) := by
  cases a <;> unfold Unasked <;> infer_instance

theorem unasked_ne {s : Task} {a : Act} (h : Unasked s a) : a ≠ .request .mount := by
  rintro rfl
  exact h rfl

structure Ejected (s : Task) : Prop where
  card : Inv s.card
  quiet : s.reqMount = false
  state : s.card.core.state = .ejected
  pending : s.card.pending ≠ .tryMount

theorem ejected_keeps {s t : Task} {a : Act} (he : Ejected s) (hu : Unasked s a)
    (h : step s a = some t) : Ejected t ∧ t.card.mounts = s.card.mounts := by
  have hi := card_inv he.card h
  have hq := reqMount_step (unasked_ne hu) he.quiet h
  rcases card_step h with hc | ⟨x,rfl,hflag,hc⟩ | ⟨r,x,rfl,hc⟩
  · exact ⟨⟨hi,hq,by rw [hc]; exact he.state,by rw [hc]; exact he.pending⟩,by rw [hc]⟩
  · have hun : StorageMount.Unasked s.card (.feed (inputOf s.stage) x) := by
      have hs : s.stage ≠ .mount := fun hs => by
        have := hflag hs
        rw [he.quiet] at this
        cases this
      show inputOf s.stage ≠ .reqMount
      cases hst : s.stage with
      | mount => exact absurd hst hs
      | waiting | eject | ioError | tick => decide
    obtain ⟨⟨h1,h2⟩,h3⟩ := ejected_step _ _ _ he.card ⟨he.state,he.pending⟩ hun hc
    exact ⟨⟨hi,hq,h1,h2⟩,h3⟩
  · have hun : StorageMount.Unasked s.card (.answer r x) := hu
    obtain ⟨⟨h1,h2⟩,h3⟩ := ejected_step _ _ _ he.card ⟨he.state,he.pending⟩ hun hc
    exact ⟨⟨hi,hq,h1,h2⟩,h3⟩

theorem ejected_keeps_run {s t : Task} (as : List Act) (he : Ejected s)
    (h : Run step Unasked s as t) : Ejected t ∧ t.card.mounts = s.card.mounts := by
  apply run_invariant (fun t => Ejected t ∧ t.card.mounts = s.card.mounts) _ as ⟨he,rfl⟩ h
  rintro u a v ⟨hu,hm⟩ ha hv
  obtain ⟨hv',hm'⟩ := ejected_keeps hu ha hv
  exact ⟨hv',hm'.trans hm⟩

theorem feed_call {s t : StorageMount.State} {input : StorageInput} {x : ℕ}
    (h : StorageMount.step s (.feed input x) = some t) :
    s.pending = .none ∧ ∃ c st, storageCoreStep s.core input .ok (u32 x) = (c,st) ∧
      t = perform s (.feed input x) c st s.mounted := by
  obtain ⟨-,c,st,m,hc,rfl⟩ := step_some h
  unfold call at hc
  dsimp only at hc
  split at hc
  · cases hc
  rename_i hbusy
  simp only [Bool.or_eq_true, decide_eq_true_eq, not_or, not_not] at hbusy
  obtain ⟨hcore,rfl⟩ := Prod.mk.inj (Option.some.inj hc)
  exact ⟨hbusy.1,c,st,hcore,rfl⟩

theorem feed_eject {s t : StorageMount.State} {x : ℕ}
    (h : StorageMount.step s (.feed .reqEject x) = some t) :
    t.pending = .none ∧ t.mounts = s.mounts ∧
      (s.core.state = .mounted → t.core.state = .ejected) ∧
      (s.core.state ≠ .mounted → t.core = s.core) := by
  obtain ⟨-,c,st,hcore,rfl⟩ := feed_call h
  by_cases hm : s.core.state = .mounted
  · have hstep : storageCoreStep s.core .reqEject .ok (u32 x) = onReqEject s.core (u32 x) :=
      if_neg fun h => by rw [hm] at h; cases h.1
    rw [hstep, onReqEject, if_pos hm] at hcore
    cases hcore
    exact ⟨rfl,rfl,fun _ => rfl,fun h => absurd hm h⟩
  · have hsame : storageCoreStep s.core .reqEject .ok (u32 x) = (s.core,⟨.none,false⟩) := by
      unfold storageCoreStep
      split
      · rfl
      · exact if_neg hm
    rw [hsame] at hcore
    cases hcore
    exact ⟨rfl,rfl,fun h => absurd h hm,fun _ => rfl⟩

theorem feed_mount {s t : StorageMount.State} {x : ℕ} (hfit : s.core.state ≠ .notFitted)
    (h : StorageMount.step s (.feed .reqMount x) = some t) :
    (s.core.state = .mounted → t.core.state = .mounted ∧ t.pending = .none) ∧
      (s.core.state ≠ .mounted → t.mounts = s.mounts+1 ∧ t.pending = .tryMount) := by
  obtain ⟨-,c,st,hcore,rfl⟩ := feed_call h
  have hstep : storageCoreStep s.core .reqMount .ok (u32 x) = onReqMount s.core (u32 x) :=
    if_neg fun h => hfit h.1
  rw [hstep, onReqMount] at hcore
  by_cases hm : s.core.state = .mounted
  · rw [if_neg (not_not.mpr hm)] at hcore
    cases hcore
    exact ⟨fun _ => ⟨hm,rfl⟩,fun h => absurd hm h⟩
  · rw [if_pos hm] at hcore
    cases hcore
    exact ⟨fun h => absurd h hm,fun _ => ⟨rfl,rfl⟩⟩

theorem mounts_le {s t : StorageMount.State} {a : StorageMount.Act}
    (h : StorageMount.step s a = some t) : s.mounts ≤ t.mounts := by
  obtain ⟨-,c,st,m,-,rfl⟩ := step_some h
  dsimp only [perform]
  split
  · exact Nat.le_succ _
  · exact Nat.le_refl _

theorem fitted_keeps {s t : StorageMount.State} {a : StorageMount.Act} (hi : Inv s)
    (hfit : s.core.state ≠ .notFitted) (h : StorageMount.step s a = some t) :
    t.core.state ≠ .notFitted := by
  obtain ⟨-,c,st,m,hc,rfl⟩ := step_some h
  obtain ⟨input,result,now,hcore,-⟩ := call_cases hi hc
  have hd := (due_step s.core input result now hfit).2.1
  rw [← hcore] at hd
  exact hd

/-- The eject flag is up and the round has not come to it, or the card is ejected. -/
def Ejecting (s : Task) : Prop :=
  (Inv s.card ∧ s.stage = .eject ∧ s.reqEject = true ∧ s.reqMount = false ∧ s.openFiles = 0 ∧
    s.card.pending = .none ∧ (s.card.core.state = .mounted ∨ s.card.core.state = .ejected)) ∨
  Ejected s

theorem ejecting_keeps {s t : Task} {a : Act} (he : Ejecting s) (hu : Unasked s a)
    (h : step s a = some t) : Ejecting t ∧ t.card.mounts = s.card.mounts := by
  rcases he with ⟨hi,hst,hflag,hq,hfiles,hp,hstate⟩ | he
  · have hi' := card_inv hi h
    have hq' := reqMount_step (unasked_ne hu) hq h
    rcases step_cases h with ⟨r,rfl,rfl⟩ | ⟨rfl,rfl⟩ | ⟨n,rfl,hw,-⟩ | ⟨rfl,hw,-⟩ | ⟨x,rfl,hs⟩ |
      ⟨r,x,card,rfl,hc,-⟩
    · exact ⟨.inl ⟨hi',hst,by simp [hflag],hq',hfiles,hp,hstate⟩,rfl⟩
    · exact ⟨.inl ⟨hi',hst,hflag,hq',hfiles,hp,hstate⟩,rfl⟩
    · rw [hst] at hw
      cases hw
    · rw [hst] at hw
      cases hw
    · obtain ⟨-,-,-,-,-,-,⟨-,-,hskip⟩ | ⟨hc,-⟩⟩ := serve_some hs
      · rcases hskip hst with hf | hf
        · rw [hflag] at hf
          cases hf
        · simp [refused, hfiles] at hf
      · rw [hst] at hc
        obtain ⟨hp',hm',hej,hsame⟩ := feed_eject hc
        have hstate' : t.card.core.state = .ejected := by
          rcases hstate with hs | hs
          · exact hej hs
          · rw [hsame (by rw [hs]; decide)]
            exact hs
        exact ⟨.inr ⟨hi',hq',hstate',by rw [hp']; decide⟩,hm'⟩
    · obtain ⟨-,c,st,m,hc,-⟩ := step_some hc
      simp [call, hp] at hc
  · obtain ⟨he',hm'⟩ := ejected_keeps he hu h
    exact ⟨.inr he',hm'⟩

theorem ejecting_run {s t : Task} (as : List Act) (he : Ejecting s) (h : Run step Unasked s as t) :
    Ejecting t ∧ t.card.mounts = s.card.mounts := by
  apply run_invariant (fun t => Ejecting t ∧ t.card.mounts = s.card.mounts) _ as ⟨he,rfl⟩ h
  rintro u a v ⟨hu,hm⟩ ha hv
  obtain ⟨hv',hm'⟩ := ejecting_keeps hu ha hv
  exact ⟨hv',hm'.trans hm⟩

def InRound (_ : Task) (a : Act) : Prop := a ≠ .wake

structure Mounting (m : ℕ) (s : Task) : Prop where
  card : Inv s.card
  fitted : s.card.core.state ≠ .notFitted
  flag : s.stage = .eject ∨ s.stage = .mount → s.reqMount = true
  served : s.stage = .ioError →
    (s.card.core.state = .mounted ∧ s.card.pending = .none) ∨ m < s.card.mounts
  counted : m ≤ s.card.mounts

theorem mounting_keeps {m : ℕ} {s t : Task} {a : Act} (hm : Mounting m s) (ha : InRound s a)
    (h : step s a = some t) : Mounting m t := by
  have hi := card_inv hm.card h
  rcases step_cases h with ⟨r,rfl,rfl⟩ | ⟨rfl,rfl⟩ | ⟨n,rfl,-,rfl⟩ | ⟨rfl,-⟩ | ⟨x,rfl,hs⟩ |
    ⟨r,x,card,rfl,hc,rfl⟩
  · exact ⟨hi,hm.fitted,fun ht => by simp [hm.flag ht],hm.served,hm.counted⟩
  · exact ⟨hi,hm.fitted,hm.flag,hm.served,hm.counted⟩
  · exact ⟨hi,hm.fitted,hm.flag,hm.served,hm.counted⟩
  · exact absurd rfl ha
  · obtain ⟨hst,hp,hnext,-,-,hkeep,hcard⟩ := serve_some hs
    have hfit : t.card.core.state ≠ .notFitted := by
      rcases hcard with ⟨hc,-⟩ | ⟨hc,-⟩
      · rw [hc]
        exact hm.fitted
      · exact fitted_keeps hm.card hm.fitted hc
    have hle : m ≤ t.card.mounts := by
      rcases hcard with ⟨hc,-⟩ | ⟨hc,-⟩
      · rw [hc]
        exact hm.counted
      · exact Nat.le_trans hm.counted (mounts_le hc)
    refine ⟨hi,hfit,fun ht => ?_,fun ht => ?_,hle⟩
    · have hs : s.stage = .eject := by
        cases hs : s.stage with
        | eject => rfl
        | waiting | mount | ioError | tick =>
          rw [hs] at hnext
          rcases ht with ht | ht <;> rw [ht] at hnext <;> cases hnext
      rw [hkeep (by rw [hs]; decide)]
      exact hm.flag (.inl hs)
    · have hs : s.stage = .mount := by
        cases hs : s.stage with
        | mount => rfl
        | waiting | eject | ioError | tick =>
          rw [hs, ht] at hnext
          cases hnext
      rcases hcard with ⟨-,hskip,-⟩ | ⟨hc,-⟩
      · have := hm.flag (.inr hs)
        rw [hskip hs] at this
        cases this
      · rw [hs] at hc
        obtain ⟨hstay,htry⟩ := feed_mount hm.fitted hc
        by_cases hmounted : s.card.core.state = .mounted
        · exact .inl (hstay hmounted)
        · rw [(htry hmounted).1]
          exact .inr (Nat.lt_succ_of_le hm.counted)
  · refine ⟨hi,fitted_keeps hm.card hm.fitted hc,hm.flag,fun ht => ?_,
      Nat.le_trans hm.counted (mounts_le hc)⟩
    rcases hm.served ht with ⟨-,hp⟩ | hlt
    · obtain ⟨-,c,st,m,hc,-⟩ := step_some hc
      simp [call, hp] at hc
    · exact .inr (Nat.lt_of_lt_of_le hlt (mounts_le hc))

def Fitted (s : Task) : Prop := Inv s.card ∧ (s.running = true → s.card.core.state ≠ .notFitted)

theorem running_step {s t : Task} {a : Act} (h : step s a = some t) : t.running = s.running := by
  rcases step_cases h with ⟨r,-,rfl⟩ | ⟨-,rfl⟩ | ⟨n,-,-,rfl⟩ | ⟨-,-,rfl⟩ | ⟨x,-,hs⟩ |
    ⟨r,x,card,-,-,rfl⟩
  · rfl
  · rfl
  · rfl
  · rfl
  · exact (serve_some hs).2.2.2.1
  · rfl

theorem fitted_step (s : Task) (a : Act) (t : Task) (hi : Fitted s) (h : step s a = some t) :
    Fitted t := by
  refine ⟨card_inv hi.1 h,fun hr => ?_⟩
  rw [running_step h] at hr
  rcases card_step h with hc | ⟨x,-,-,hc⟩ | ⟨r,x,-,hc⟩
  · rw [hc]
    exact hi.2 hr
  · exact fitted_keeps hi.1 (hi.2 hr) hc
  · exact fitted_keeps hi.1 (hi.2 hr) hc

theorem fitted_start (fitted : Bool) (timing : StorageTiming) (t0 : ℕ) :
    Fitted (start fitted timing t0) := by
  refine ⟨inv_boot fitted timing t0,fun hr hn => ?_⟩
  cases fitted
  · cases hr
  · cases hn

theorem requests_flags (rs : List Request) {s u : Task} (hr : s.running = true)
    (h : Run step Free s (rs.map .request) u) :
    u = { s with
      reqEject := s.reqEject || rs.contains .eject
      reqMount := s.reqMount || rs.contains .mount } := by
  induction rs generalizing s with
  | nil =>
    obtain rfl : s = u := h
    simp
  | cons r rs ih =>
    obtain ⟨-,v,hv,hrun⟩ := h
    obtain rfl := Option.some.inj hv
    cases r with
    | mount =>
      have hreq : (request s .mount).2 = { s with reqMount := true } := by simp [request, hr]
      rw [hreq] at hrun
      have hu := ih (s := { s with reqMount := true }) hr hrun
      simpa using hu
    | eject =>
      have hreq : (request s .eject).2 = { s with reqEject := true } := by simp [request, hr]
      rw [hreq] at hrun
      have hu := ih (s := { s with reqEject := true }) hr hrun
      simpa using hu

structure Passing (c : StorageMachine) (s : Task) : Prop where
  quiet : s.reqMount = false
  same : s.stage = .eject ∨ s.stage = .mount ∨ s.stage = .ioError →
    s.card.core = c ∧ s.card.pending = .none

theorem passing_keeps {c : StorageMachine} (hc : c.state ≠ .mounted) {s t : Task} {a : Act}
    (hs : Passing c s) (ha : InRound s a ∧ Unasked s a) (h : step s a = some t) : Passing c t := by
  have hq := reqMount_step (unasked_ne ha.2) hs.quiet h
  rcases step_cases h with ⟨r,-,rfl⟩ | ⟨-,rfl⟩ | ⟨n,-,-,rfl⟩ | ⟨rfl,-⟩ | ⟨x,rfl,hserve⟩ |
    ⟨r,x,card,rfl,hcall,rfl⟩
  · exact ⟨hq,hs.same⟩
  · exact ⟨hq,hs.same⟩
  · exact ⟨hq,hs.same⟩
  · exact absurd rfl ha.1
  · obtain ⟨-,hp,hnext,-,-,-,hcard⟩ := serve_some hserve
    refine ⟨hq,fun ht => ?_⟩
    have hst : s.stage = .eject ∨ s.stage = .mount := by
      cases hst : s.stage with
      | eject => exact .inl rfl
      | mount => exact .inr rfl
      | waiting | ioError | tick =>
        rw [hst] at hnext
        rcases ht with ht | ht | ht <;> rw [ht] at hnext <;> cases hnext
    rcases hcard with ⟨hsame,-⟩ | ⟨hfed,hflag⟩
    · rw [hsame]
      exact hs.same (hst.imp_right .inl)
    · rcases hst with hst | hst
      · rw [hst] at hfed
        have hcore := (hs.same (.inl hst)).1
        obtain ⟨hp',-,-,hkeep⟩ := feed_eject hfed
        exact ⟨(hkeep (by rwa [hcore])).trans hcore,hp'⟩
      · have := hflag hst
        rw [hs.quiet] at this
        cases this
  · refine ⟨hq,fun ht => ?_⟩
    have hp := (hs.same ht).2
    obtain ⟨-,d,st,m,hcall,-⟩ := step_some hcall
    simp [call, hp] at hcall

def Own (hardware : StarkErr) (_ : Task) : Act → Prop
  | .serve _ => True
  | .answer r _ => r = hardware
  | _ => False

theorem feed_defined {s : StorageMount.State} (hp : s.pending = .none) {input : StorageInput}
    (hin : isResult input = false) : (StorageMount.step s (.feed input s.clock)).isSome = true := by
  simp [StorageMount.step, Act.reading, call, hp, hin]

theorem serve_defined {s : Task} (hp : s.card.pending = .none) (hst : s.stage ≠ .waiting) :
    ∃ t, step s (.serve s.card.clock) = some t := by
  have hfeed : ∀ (flag : Bool) (input : StorageInput), isResult input = false →
      ∃ card, feedIf flag input s.card.clock s.card = some card := by
    intro flag input hin
    unfold feedIf
    rw [if_neg (not_not.mpr hp)]
    split
    · exact Option.isSome_iff_exists.mp (feed_defined hp hin)
    · exact ⟨_,rfl⟩
  show ∃ t, serve s s.card.clock = some t
  unfold serve
  cases hs : s.stage with
  | waiting => exact absurd hs hst
  | eject =>
    obtain ⟨card,hc⟩ := hfeed (s.reqEject && !refused s) .reqEject rfl
    exact ⟨_,Option.map_eq_some_iff.mpr ⟨card,hc,rfl⟩⟩
  | mount =>
    obtain ⟨card,hc⟩ := hfeed s.reqMount .reqMount rfl
    exact ⟨_,Option.map_eq_some_iff.mpr ⟨card,hc,rfl⟩⟩
  | ioError =>
    obtain ⟨card,hc⟩ := hfeed s.ioError .ioError rfl
    exact ⟨_,Option.map_eq_some_iff.mpr ⟨card,hc,rfl⟩⟩
  | tick =>
    obtain ⟨card,hc⟩ := hfeed true .tick rfl
    exact ⟨_,Option.map_eq_some_iff.mpr ⟨card,hc,rfl⟩⟩

theorem answer_mount {s : StorageMount.State} (hp : s.pending = .tryMount) (r : StarkErr) :
    ∃ t, StorageMount.step s (.answer r s.clock) = some t ∧ t.pending = .none := by
  have hnone : ∀ result now, (storageCoreStep s.core .mountResult result now).2.action = .none := by
    intro result now
    unfold storageCoreStep
    split
    · rfl
    · dsimp only [onMountResult]
      split
      · rfl
      · split
        · split <;> rfl
        · rfl
  refine ⟨_,by simp [StorageMount.step, Act.reading, call, hp]; rfl,?_⟩
  dsimp only [perform]
  rw [hnone]
  rfl

/-- A woken task comes to handle its requests, whatever the hardware answers. -/
theorem round_handled (hardware : StarkErr) {s : Task} (hi : Fitted s) (hst : s.stage = .eject)
    (hp : s.card.pending = .none) (hr : s.running = true) :
    ∃ as t, Run step (Own hardware) s as t ∧ handled t = true := by
  obtain ⟨u,hu⟩ := serve_defined hp (by rw [hst]; decide)
  obtain ⟨-,-,hsu,hru,-,-,hcu⟩ := serve_some hu
  rw [hst] at hsu hcu
  have hpu : u.card.pending = .none := by
    rcases hcu with ⟨hc,-⟩ | ⟨hc,-⟩
    · rwa [hc]
    · exact (feed_eject hc).1
  obtain ⟨v,hv⟩ := serve_defined hpu (by rw [hsu]; decide)
  obtain ⟨-,-,hsv,-,-,-,hcv⟩ := serve_some hv
  rw [hsu] at hsv hcv
  have hpv : v.card.pending = .none ∨ v.card.pending = .tryMount := by
    rcases hcv with ⟨hc,-⟩ | ⟨hc,-⟩
    · rw [hc]
      exact .inl hpu
    · have hfit := (fitted_step _ _ _ hi hu).2 (hru.trans hr)
      by_cases hm : u.card.core.state = .mounted
      · exact .inl ((feed_mount hfit hc).1 hm).2
      · exact .inr ((feed_mount hfit hc).2 hm).2
  rcases hpv with hpv | hpv
  · exact ⟨[.serve _,.serve _],v,⟨trivial,u,hu,trivial,v,hv,rfl⟩,by simp [handled, hsv, hpv, next]⟩
  · obtain ⟨c,hc,hpc⟩ := answer_mount hpv hardware
    refine ⟨[.serve _,.serve _,.answer hardware v.card.clock],{ v with card := c },
      ⟨trivial,u,hu,trivial,v,hv,rfl,_,?_,rfl⟩,
      by simp [handled, hsv, hpc, next]⟩
    exact Option.map_eq_some_iff.mpr ⟨c,hc,rfl⟩

/-- What a round makes of the requests waiting for it: a mount at the last is tried unless the
card is mounted; ejects alone, with no mount request before them, leave a mounted or ejected card
with no file open unmounted until it is asked for or gone, and any other as it was. -/
theorem requests_served (fitted : Bool) (timing : StorageTiming) (t0 : ℕ) (as : List Act)
    (s u v : Task) (rs : List Request) (hs : Run step Free (start fitted timing t0) as s)
    (hu : Run step Free s (rs.map .request) u) (hv : step u .wake = some v) :
    (∀ hardware, ∃ bs w, Run step (Own hardware) v bs w ∧ handled w = true) ∧
    (rs.getLast? = some .mount → ∀ bs w, Run step InRound v bs w → handled w = true →
      w.card.mounted = true ∨ s.card.mounts < w.card.mounts) ∧
    (rs ≠ [] → (∀ r ∈ rs, r = .eject) → s.reqMount = false → s.openFiles = 0 →
      s.card.core.state = .mounted ∨ s.card.core.state = .ejected →
      ∀ bs w, Run step Unasked v bs w → handled w = true → ∀ cs x, Run step Unasked w cs x →
        x.card.mounted = false ∧ x.card.mounts = s.card.mounts) ∧
    ((∀ r ∈ rs, r = .eject) → s.reqMount = false → s.card.core.state ≠ .mounted →
      ∀ bs w, Run step (fun s a => InRound s a ∧ Unasked s a) v bs w → handled w = true →
        w.card.core = s.card.core) := by
  have hi := start_inv as hs
  have hfit := run_invariant Fitted (fun s a t hi _ h => fitted_step s a t hi h) as
    (fitted_start fitted timing t0) hs
  simp only [step, Option.ite_none_right_eq_some] at hv
  obtain ⟨⟨hrun,hst,hp⟩,hv⟩ := hv
  obtain rfl := Option.some.inj hv
  have hrs : s.running = true := by
    have hall := run_invariant (fun t => t.running = s.running)
      (fun t a w ht _ h => (running_step h).trans ht) _ rfl hu
    exact hall.symm.trans hrun
  have hflags := requests_flags rs hrs hu
  have hfu := run_invariant Fitted (fun s a t hi _ h => fitted_step s a t hi h) _ hfit hu
  have hnomount : (∀ r ∈ rs, r = .eject) → rs.contains Request.mount = false := by
    intro hall
    rw [← Bool.not_eq_true, List.contains_iff_mem]
    intro hmem
    cases hall _ hmem
  refine ⟨fun hardware => round_handled hardware ⟨hfu.1,hfu.2⟩ rfl hp hrun,?_,?_,?_⟩
  · intro hlast bs w hw hh
    have hmem : rs.contains Request.mount = true :=
      List.contains_iff_mem.mpr (List.mem_of_getLast? hlast)
    have hstart : Mounting s.card.mounts { u with stage := .eject } := by
      refine ⟨hfu.1,hfu.2 hrun,fun _ => ?_,fun h => (by cases h),?_⟩
      · rw [hflags, hmem]
        exact Bool.or_true _
      · exact Nat.le_of_eq (by rw [hflags])
    have hend := run_invariant (Mounting s.card.mounts)
      (fun _ _ _ hm ha h => mounting_keeps hm ha h) bs hstart hw
    simp only [handled, Bool.and_eq_true, decide_eq_true_eq] at hh
    rcases hend.served hh.1 with ⟨hm,-⟩ | hlt
    · exact .inl (hend.card.card.mpr hm)
    · exact .inr hlt
  · intro hne hall hq hfiles hstate bs w hw hh cs x hx
    have hstart : Ejecting { u with stage := .eject } := by
      refine .inl ⟨hfu.1,rfl,?_,?_,?_,hp,?_⟩
      · obtain ⟨r,hr⟩ := List.exists_mem_of_ne_nil rs hne
        have := hall r hr
        subst this
        rw [hflags, List.contains_iff_mem.mpr hr]
        exact Bool.or_true _
      · rw [hflags, hq, hnomount hall]
        rfl
      · rw [hflags]
        exact hfiles
      · rw [hflags]
        exact hstate
    obtain ⟨hend,hm⟩ := ejecting_run bs hstart hw
    simp only [handled, Bool.and_eq_true, decide_eq_true_eq] at hh
    rcases hend with ⟨-,hw',-⟩ | hej
    · rw [hh.1] at hw'
      cases hw'
    · obtain ⟨hej',hm'⟩ := ejected_keeps_run cs hej hx
      refine ⟨?_,hm'.trans (hm.trans (by rw [hflags]))⟩
      rw [← Bool.not_eq_true, hej'.card.card, hej'.state]
      decide
  · intro hall hq hstate bs w hw hh
    have hstart : Passing s.card.core { u with stage := .eject } := by
      refine ⟨?_,fun _ => ⟨?_,hp⟩⟩
      · rw [hflags, hq, hnomount hall]
        rfl
      · rw [hflags]
    have hend := run_invariant (Passing s.card.core)
      (fun _ _ _ hs ha h => passing_keeps hstate hs ha h) bs hstart hw
    simp only [handled, Bool.and_eq_true, decide_eq_true_eq] at hh
    exact (hend.same (.inr (.inr hh.1))).1

def ready : Task where
  card := up 0 1 0
  running := true
  reqEject := false
  reqMount := false
  ioError := false
  openFiles := 0
  stage := .waiting

theorem ready_reached : Run step Free (start true benchTiming 0)
    [.wake,.serve 0,.serve 0,.serve 0,.serve 0,.answer .ok 0] ready :=
  run_of_follow _ (by decide) (by decide)

theorem requests_served_ready : ∃ w, Run step Unasked ready
    [.request .eject,.wake,.serve 0,.serve 0] w ∧ w.card.mounted = false := by
  have h := requests_served true benchTiming 0 _ ready _ _ [.eject] ready_reached
    ⟨trivial,_,rfl,rfl⟩ rfl
  have hrun : Run step Unasked ready [.request .eject,.wake,.serve 0,.serve 0] _ :=
    ⟨by decide,_,rfl,trivial,_,rfl,trivial,_,rfl,trivial,_,rfl,rfl⟩
  refine ⟨_,hrun,?_⟩
  exact (h.2.2.1 (by decide) (by decide) rfl rfl (.inl rfl) [.serve 0,.serve 0] _
    ⟨trivial,_,rfl,trivial,_,rfl,rfl⟩ rfl [] _ rfl).1

/-- An eject before the first mount is ignored and the tick of the same round mounts; and
an eject asked for after a mount is served before it. -/
theorem last_request_loses :
    (∃ w x, Run step Unasked (start true benchTiming 0)
        [.request .eject,.wake,.serve 0,.serve 0] w ∧ handled w = true ∧
      Run step Unasked w [.serve 0,.serve 0,.answer .ok 0] x ∧ x.card.mounted = true) ∧
    ∃ w, Run step Free ready
        [.request .mount,.request .eject,.wake,.serve 0,.serve 0,.answer .ok 0] w ∧
      handled w = true ∧ w.card.mounted = true := by
  refine ⟨⟨_,_,⟨by decide,_,rfl,trivial,_,rfl,trivial,_,rfl,trivial,_,rfl,rfl⟩,rfl,
    ⟨trivial,_,rfl,trivial,_,rfl,by decide,_,rfl,rfl⟩,rfl⟩,?_⟩
  exact run_witness step _ (by decide) (by decide)

end StarkOne.StorageRequests
