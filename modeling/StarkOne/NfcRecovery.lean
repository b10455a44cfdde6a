import StarkOne.NfcTaskSteps
import StarkOne.Type2Tag

/-!
# A lost reader is looked for

Polling that begins with the module ready keeps it ready or looks for it, also
over a stop in the middle. Polling that begins with the module lost asks the
reader for tags and never for itself, so a reader that answers stays lost.
-/

set_option autoImplicit false

namespace StarkOne.NfcRecovery
open StarkOne.Machine StarkOne.Link StarkOne.Pn532 StarkOne.NfcDumping StarkOne.NfcPollMachine
  StarkOne.NfcTask StarkOne.NfcTaskSteps StarkOne.Type2Tag

def listed (e : NfcExchange) : Bool := e.request.code = cmdListPassive && e.reply.isOk

section
variable {σ : Type}

/-- After an iteration that began with polling wanted and was answered, the module
is ready or the poll machine looks for it. -/
def Recovers (s : State σ) : Prop :=
  s.place = .asleep → s.iter.wanted = true → s.reader.log.any listed = true → Tracked s.reader

instance (s : State σ) : Decidable (Recovers s) := inferInstanceAs (Decidable (_ → _))

/-- An iteration that polls after one that did not finds the module ready. -/
def BeginsReady (s : State σ) : Label σ → Prop
  | .task _ _ => s.place = .wanted → s.wantPoll = true → s.polled = false →
      s.reader.module = .ready
  | _ => True

instance (s : State σ) : (a : Label σ) → Decidable (BeginsReady s a)
  | .task _ _ => inferInstanceAs (Decidable (_ → _))
  | .start | .stop | .writeNdef _ _ _ | .requestDump _ | .device _ => inferInstanceAs (Decidable True)

def polls : Place → Bool
  | .write | .dump | .writing | .dumping | .polling => true
  | .asleep | .field | .wanted | .idle => false

structure Inv (s : State σ) : Prop where
  tracked : s.polled = true → Tracked s.reader
  polls : polls s.place = true → s.polled = true
  idle : s.place = .idle → s.polled = false
  writing : s.place = .writing → s.reader.module = .ready
  quiet : s.place = .field ∨ s.place = .wanted ∨ s.polled = false →
    ∀ e ∈ s.reader.log, NoList e.request

theorem Inv.recovers {s : State σ} (h : Inv s) : Recovers s := by
  intro _ _ hl
  obtain ⟨e,he,hl⟩ := List.any_eq_true.mp hl
  refine h.tracked (by_contra fun hp => ?_)
  have hn := h.quiet (Or.inr (Or.inr (Bool.eq_false_iff.mpr hp))) e he
  exact hn (of_decide_eq_true (Bool.and_eq_true_iff.mp hl).1)

variable {dev : σ → (q : Command) → Reply q × σ} {s t : State σ}

theorem inv_outside (hp : t.place ≠ .idle) (hq : NfcRecovery.polls t.place = false)
    (ht : t.polled = true → Tracked t.reader)
    (hl : t.place = .field ∨ t.place = .wanted ∨ t.polled = false →
      ∀ e ∈ t.reader.log, NoList e.request) : Inv t where
  tracked := ht
  polls h := Bool.noConfusion (hq.symm.trans h)
  idle h := absurd h hp
  writing h := by
    rw [h] at hq
    exact Bool.noConfusion hq
  quiet := hl

theorem inv_wake (h : Inv s) : Inv (wake s) :=
  inv_outside (by simp [wake]) rfl h.tracked (fun _ => List.forall_mem_nil _)

theorem inv_field (h : Inv s) (hp : s.place = .field) (want : Bool) (r : Reader σ)
    (hr : (if s.reader.poll.state ≠ .recovering then applyField dev s.reader want
      else some s.reader) = some r) : Inv { s with reader := r, place := .wanted } := by
  have hq := h.quiet (Or.inl hp)
  refine inv_outside (by simp) rfl (fun hpol => ?_) (fun _ e he => ?_)
  · have ht := h.tracked hpol
    split at hr
    · exact applyField_tracked ht ‹_› hr
    · exact Option.some.inj hr ▸ ht
  · split at hr
    · exact ((applyField_grows (allows_noList (by decide)) hr).mem he).elim (hq e) id
    · obtain rfl := Option.some.inj hr
      exact hq e he

theorem inv_branch (h : Inv s) (hp : s.place = .wanted)
    (hg : s.wantPoll = true → s.polled = false → s.reader.module = .ready) (now : ℕ) :
    Inv (branch s now) := by
  have hq := h.quiet (Or.inr (Or.inl hp))
  unfold branch
  by_cases hw : s.wantPoll = true
  · rw [if_pos hw]
    refine ⟨fun _ => ?_,fun _ => rfl,fun hi => Place.noConfusion hi,
      fun hi => Place.noConfusion hi,fun _ => hq⟩
    cases hpol : s.polled
    · exact Or.inl (hg hw hpol)
    · exact h.tracked hpol
  · rw [if_neg hw]
    refine ⟨fun hi => Bool.noConfusion hi,fun hi => ?_,fun _ => rfl,fun hi => ?_,fun _ => hq⟩
    · dsimp only at hi
      split_ifs at hi <;> exact Bool.noConfusion hi
    · dsimp only at hi
      split_ifs at hi

theorem inv_idle (h : Inv s) (hp : s.place = .idle) (answered : Bool) (r : Reader σ)
    (hr : idleOnce dev s.reader answered = some r) :
    Inv { s with reader := r, place := .asleep } := by
  have hn := h.idle hp
  refine inv_outside (by simp) rfl (fun hpol => Bool.noConfusion (hn.symm.trans hpol)) ?_
  intro _ e he
  exact ((idleOnce_grows (allows_noList (by decide)) hr).mem he).elim
    (h.quiet (Or.inr (Or.inr hn)) e) id

theorem inv_polling (h : Inv s) (hp : NfcRecovery.polls s.place = true)
    (hr : Tracked s.reader → Tracked t.reader) (hpol : t.polled = s.polled)
    (ht : NfcRecovery.polls t.place = true ∨ t.place = .asleep)
    (hw : t.place = .writing → t.reader.module = .ready) : Inv t where
  tracked _ := hr (h.tracked (h.polls hp))
  polls _ := hpol.trans (h.polls hp)
  idle hi := by rw [hi] at ht; simp [NfcRecovery.polls] at ht
  writing := hw
  quiet := by
    rintro (hi | hi | hi)
    · rw [hi] at ht
      simp [NfcRecovery.polls] at ht
    · rw [hi] at ht
      simp [NfcRecovery.polls] at ht
    · exact Bool.noConfusion (hi.symm.trans (hpol.trans (h.polls hp)))

theorem inv_chooseWrite (h : Inv s) (hp : s.place = .write) : Inv (chooseWrite s) := by
  have hp' : NfcRecovery.polls s.place = true := by rw [hp]; rfl
  unfold chooseWrite
  split
  · split
    · refine inv_polling h hp' id rfl (Or.inl rfl) (fun _ => ?_)
      have hr := h.tracked (h.polls hp')
      exact hr.resolve_right (of_decide_eq_true (Bool.and_eq_true_iff.mp ‹_›).2)
    · exact inv_polling h hp' id rfl (Or.inl rfl) (fun hi => Place.noConfusion hi)
  · exact inv_polling h hp' id rfl (Or.inl rfl) (fun hi => Place.noConfusion hi)

theorem inv_chooseDump (h : Inv s) (hp : s.place = .dump) : Inv (chooseDump s) := by
  have hp' : NfcRecovery.polls s.place = true := by rw [hp]; rfl
  unfold chooseDump
  split
  · split
    · exact inv_polling h hp' id rfl (Or.inl rfl) (fun hi => Place.noConfusion hi)
    · exact inv_polling h hp' id rfl (Or.inl rfl) (fun hi => Place.noConfusion hi)
  · exact inv_polling h hp' id rfl (Or.inl rfl) (fun hi => Place.noConfusion hi)

theorem inv_writeOnce (h : Inv s) (hp : s.place = .writing) (w : WriteRequest)
    (ht : writeOnce dev s w = some t) : Inv t := by
  obtain ⟨⟨out,r⟩,hd,rfl⟩ := Option.map_eq_some_iff.mp ht
  obtain ⟨d',log,rfl,-⟩ := drive_spec hd
  exact inv_polling h (by rw [hp]; rfl) (fun _ => Or.inl (h.writing hp)) rfl (Or.inl rfl)
    (fun hi => Place.noConfusion hi)

theorem inv_dumpOnce (h : Inv s) (hp : s.place = .dumping) (d : DumpRequest)
    (ht : dumpOnce dev s d = some t) : Inv t := by
  have hp' : NfcRecovery.polls s.place = true := by rw [hp]; rfl
  unfold dumpOnce at ht
  split at ht
  · obtain rfl := Option.some.inj ht
    exact inv_polling h hp' id rfl (Or.inr rfl) (fun hi => Place.noConfusion hi)
  · obtain ⟨⟨out,r⟩,hd,rfl⟩ := Option.map_eq_some_iff.mp ht
    obtain ⟨d',log,rfl,-⟩ := drive_spec hd
    exact inv_polling h hp' id rfl (Or.inr rfl) (fun hi => Place.noConfusion hi)

theorem inv_pollOnce (h : Inv s) (hp : s.place = .polling) (r : Reader σ)
    (hr : pollOnce dev s.reader s.now = some r) :
    Inv { s with reader := r, place := .asleep } :=
  inv_polling h (by rw [hp]; rfl) (fun ht => pollOnce_tracked ht hr) rfl (Or.inr rfl)
    (fun hi => Place.noConfusion hi)

theorem inv_taskStep (h : Inv s) (now : ℕ) (answered : Bool)
    (hg : BeginsReady s (.task now answered)) (ht : taskStep dev s now answered = some t) :
    Inv t := by
  cases taskStep_does ht with
  | wake hp => exact inv_wake h
  | field hp r hr => exact inv_field h hp s.wantPoll r hr
  | branch hp => exact inv_branch h hp (hg hp) now
  | idle hp r hr => exact inv_idle h hp answered r hr
  | write hp => exact inv_chooseWrite h hp
  | dump hp => exact inv_chooseDump h hp
  | writing hp w _ _ hw => exact inv_writeOnce h hp w hw
  | dumping hp d _ _ hd => exact inv_dumpOnce h hp d hd
  | polling hp r hr => exact inv_pollOnce h hp r hr

theorem inv_call (h : Inv s) (hr : t.reader = s.reader) (hp : t.place = s.place)
    (hpol : t.polled = s.polled) : Inv t where
  tracked := by rw [hr, hpol]; exact h.tracked
  polls := by rw [hp, hpol]; exact h.polls
  idle := by rw [hp, hpol]; exact h.idle
  writing := by rw [hp, hr]; exact h.writing
  quiet := by rw [hp, hr, hpol]; exact h.quiet

theorem step_inv (a : Label σ) (h : Inv s) (hg : BeginsReady s a) (ht : step dev s a = some t) :
    Inv t := by
  cases a with
  | start =>
    obtain rfl := Option.some.inj ht
    rcases start_cases s with he | he <;> rw [he] <;> exact inv_call h rfl rfl rfl
  | stop =>
    obtain rfl := Option.some.inj ht
    rcases stop_cases s with he | he <;> rw [he] <;> exact inv_call h rfl rfl rfl
  | writeNdef uid msg len =>
    obtain rfl := Option.some.inj ht
    rcases writeNdef_cases s uid msg len with he | ⟨-,-,tag,bytes,he⟩ <;> rw [he] <;>
      exact inv_call h rfl rfl rfl
  | requestDump out =>
    obtain rfl := Option.some.inj ht
    rcases requestDump_cases s out with he | ⟨-,-,b,he⟩ <;> rw [he] <;>
      exact inv_call h rfl rfl rfl
  | device d =>
    obtain rfl := Option.some.inj ht
    exact ⟨h.tracked,h.polls,h.idle,h.writing,h.quiet⟩
  | task now answered =>
    exact inv_taskStep h now answered hg (task_cases ht)

theorem inv_booted (r : Reader σ) (hasTask : Bool) : Inv (booted r hasTask) :=
  inv_outside (by simp [booted]) rfl (fun h => Bool.noConfusion h) (fun _ => List.forall_mem_nil _)

/-- In every run whose polling begins with the module ready, the module is ready
or looked for after each iteration that was answered. -/
theorem nfc_recovers (opened : StarkErr) (d : σ) (hs : starkNfcInit dev opened d = some s)
    (as : List (Label σ)) (h : Run (step dev) BeginsReady s as t) : Recovers t := by
  obtain ⟨r,hasTask,rfl⟩ := init_booted hs
  exact (run_invariant Inv (fun _ a _ hi hg ht => step_inv a hi hg ht) as (inv_booted r hasTask)
    h).recovers

end

def bareReader (fitted : Bool) (q : Command) : Reply q × Bool :=
  if !fitted then (.error .io,fitted)
  else if q.code = cmdGetFirmware then (fit [pn532Ic,1,6,7] q,fitted)
  else if q.code = cmdListPassive then (fit [0] q,fitted)
  else (fit [] q,fitted)

def iteration (steps : ℕ) : List (Label Bool) := List.replicate steps (.task 0 false)

def bench : State Bool := booted ⟨true,[],.ready,nfcPollInit,0,false,none,[]⟩ true

theorem bench_init : starkNfcInit bareReader .ok true = some bench := rfl

/-- A reader that is there when polling starts is polled. -/
theorem nfc_recovers_ready :
    ∃ t, Run (step bareReader) BeginsReady bench (.start::iteration 6) t ∧
      (t.place = .asleep ∧ t.reader.log.any listed = true) ∧ Recovers t := by
  obtain ⟨t,ht,hp⟩ := run_witness (step bareReader) (G := BeginsReady)
    (p := fun t => t.place = .asleep ∧ t.reader.log.any listed = true)
    (s := bench) (.start::iteration 6) (by decide) (by decide)
  exact ⟨t,ht,hp,nfc_recovers .ok true bench_init _ ht⟩

/-- The reader is taken away for two idle iterations and put back, and only then
does an app start polling. -/
def lostInIdle : List (Label Bool) :=
  .device false::(iteration 4++iteration 4++[.device true,.start]++iteration 6)

/-- The reader answers the poll, and the module stays lost. -/
theorem nfc_stays_lost :
    ¬∀ (σ : Type) (dev : σ → (q : Command) → Reply q × σ) (opened : StarkErr) (d : σ)
      (s t : State σ) (as : List (Label σ)), starkNfcInit dev opened d = some s →
        Run (step dev) Free s as t → Recovers t := by
  intro h
  obtain ⟨t,ht,hn⟩ := run_witness (step bareReader) (G := Free)
    (p := fun t => ¬Recovers t) (s := bench) lostInIdle (by decide) (by decide)
  exact hn (h Bool bareReader .ok true bench t lostInIdle bench_init ht)

end StarkOne.NfcRecovery
