import StarkOne.NfcSave
import StarkOne.NfcTaskSteps

/-!
# The NFC task behind the app

The app was described against a service that holds one dump request and ends
it with one event. The NFC task is such a service: what it does between two
requests of the app, in any number of steps, the service can do as well.
-/

set_option autoImplicit false

namespace StarkOne.NfcService
open StarkOne.Machine StarkOne.Link StarkOne.Pn532 StarkOne.NfcReader StarkOne.NfcDumping
  StarkOne.NfcTask StarkOne.NfcTaskSteps
open StarkOne.UiStack (starkEventPublish)
open StarkOne.NfcSave (Phone Input NfcApp requestDump unrelated)

def labelOf : StarkNfcEvt → NfcSave.Label
  | .dumpDone => .complete true
  | .dumpFailed => .complete false
  | what => .nfc what

def Serves (pending : Bool) (events : List StarkNfcEvt) (pending' : Bool) : Prop :=
  (pending' = pending ∧ ∀ e ∈ events, unrelated e = true) ∨
  (pending = true ∧ pending' = false ∧ (events = [.dumpDone] ∨ events = [.dumpFailed]))

section
variable {σ α : Type} {dev : σ → (q : Command) → Reply q × σ} {r t : Reader σ}

def Says (r t : Reader σ) : Prop :=
  ∃ events, t.published = r.published++events ∧ ∀ e ∈ events, unrelated e = true

theorem says_same (h : t.published = r.published) : Says r t :=
  ⟨[],by rw [h, List.append_nil],List.forall_mem_nil _⟩

theorem says_publish {what : StarkNfcEvt} (h : t.published = r.published++[what])
    (hu : unrelated what = true) : Says r t :=
  ⟨[what],h,fun _ he => List.mem_singleton.mp he ▸ hu⟩

theorem drive_published {d : NfcDriver α} {a : α} (h : drive dev r d = some (a,t)) :
    t.published = r.published := by
  obtain ⟨d',log,rfl,-⟩ := drive_spec h
  rfl

theorem says_applyField {want : Bool} (h : applyField dev r want = some t) : Says r t := by
  unfold applyField at h
  split at h
  · exact says_same (by rw [← Option.some.inj h])
  obtain ⟨⟨err,u⟩,hd,rfl⟩ := Option.map_eq_some_iff.mp h
  refine says_same ?_
  rw [← drive_published hd]
  dsimp only
  split_ifs <;> rfl

theorem says_idleOnce {answered : Bool} (h : idleOnce dev r answered = some t) : Says r t := by
  unfold idleOnce at h
  dsimp only at h
  split at h
  · obtain rfl := Option.some.inj h
    exact says_publish rfl rfl
  · obtain ⟨⟨err,u⟩,hd,rfl⟩ := Option.map_eq_some_iff.mp h
    have hp := drive_published hd
    dsimp only at hp ⊢
    split_ifs
    · exact says_publish (congrArg (· ++ [StarkNfcEvt.module]) hp) rfl
    · exact says_same hp
  · exact says_same (by rw [← Option.some.inj h])

theorem release_published {found : Bool} (h : release dev found r = some t) :
    t.published = r.published := by
  unfold release at h
  split at h
  · obtain ⟨⟨u,v⟩,hd,rfl⟩ := Option.map_eq_some_iff.mp h
    exact drive_published hd
  · rw [← Option.some.inj h]

theorem says_recover {now : ℕ} (h : recover dev r now = some t) : Says r t := by
  unfold recover at h
  split at h
  · exact says_same (by rw [← Option.some.inj h])
  obtain ⟨⟨err,u⟩,hd,rfl⟩ := Option.map_eq_some_iff.mp h
  have hp := drive_published hd
  dsimp only
  split_ifs
  · exact says_publish (congrArg (· ++ [StarkNfcEvt.module]) hp) rfl
  · exact says_same hp

theorem says_pollOnce {now : ℕ} (h : pollOnce dev r now = some t) : Says r t := by
  unfold pollOnce at h
  split at h
  · exact says_recover h
  obtain ⟨⟨polled,u⟩,hd,hr⟩ := Option.bind_eq_some_iff.mp h
  have hp := drive_published hd
  dsimp only at hr
  split at hr
  · obtain ⟨⟨snap,v⟩,hread,rfl⟩ := Option.map_eq_some_iff.mp hr
    exact says_publish (congrArg (· ++ [StarkNfcEvt.tag]) ((drive_published hread).trans hp)) rfl
  · exact says_publish ((release_published hr).trans (congrArg (· ++ [StarkNfcEvt.left]) hp)) rfl
  · obtain rfl := Option.some.inj hr
    exact says_publish (congrArg (· ++ [StarkNfcEvt.module]) hp) rfl
  · exact says_same ((release_published hr).trans hp)
  · exact says_same ((release_published hr).trans hp)

end

section
variable {σ : Type} {dev : σ → (q : Command) → Reply q × σ} {s t : State σ}

def Matches (s t : State σ) : Prop :=
  ∃ events, t.reader.published = s.reader.published++events ∧
    Serves s.dump.isSome events t.dump.isSome

theorem matches_says (h : Says s.reader t.reader) (hd : t.dump = s.dump) : Matches s t := by
  obtain ⟨events,he,hu⟩ := h
  exact ⟨events,he,Or.inl ⟨by rw [hd],hu⟩⟩

theorem matches_done {d : DumpRequest} (hd : s.dump = some d) {r : Reader σ}
    (hr : r.published = s.reader.published) (err : StarkErr) (buffers : ℕ → NfcDump) :
    Matches s (dumpDone s r err buffers) := by
  refine ⟨[if err = .ok then .dumpDone else .dumpFailed],?_,Or.inr ⟨by rw [hd]; rfl,rfl,?_⟩⟩
  · exact congrArg (· ++ _) hr
  · split_ifs
    · exact Or.inl rfl
    · exact Or.inr rfl

theorem taskStep_matches {now : ℕ} {answered : Bool}
    (h : taskStep dev s now answered = some t) : Matches s t := by
  cases taskStep_does h with
  | wake hp => exact matches_says (says_same rfl) rfl
  | field hp r hr =>
    split at hr
    · exact matches_says (says_applyField hr) rfl
    · obtain rfl := Option.some.inj hr
      exact matches_says (says_same rfl) rfl
  | branch hp =>
    unfold branch
    split
    · exact matches_says (says_same rfl) rfl
    · exact matches_says (says_same rfl) rfl
  | idle hp r hr => exact matches_says (says_idleOnce hr) rfl
  | write hp =>
    unfold chooseWrite
    split
    · split
      · exact matches_says (says_same rfl) rfl
      · exact matches_says (says_same rfl) rfl
    · exact matches_says (says_same rfl) rfl
  | dump hp =>
    unfold chooseDump
    split
    · split
      · exact matches_says (says_same rfl) rfl
      · exact matches_says (says_same rfl) rfl
    · exact matches_says (says_same rfl) rfl
  | writing hp w hw _ ht =>
    obtain ⟨⟨out,r⟩,hd,rfl⟩ := Option.map_eq_some_iff.mp ht
    have hp := drive_published hd
    refine matches_says (says_publish (congrArg (· ++ _) hp) ?_) rfl
    split_ifs <;> rfl
  | dumping hp d hd _ ht =>
    unfold dumpOnce at ht
    split at ht
    · obtain rfl := Option.some.inj ht
      exact matches_done hd rfl .notFound s.buffers
    · obtain ⟨⟨out,r⟩,hr,rfl⟩ := Option.map_eq_some_iff.mp ht
      exact matches_done hd (drive_published hr) _ _
  | polling hp r hr => exact matches_says (says_pollOnce hr) rfl

def NoRequest (_ : State σ) : Label σ → Prop
  | .requestDump _ => False
  | _ => True

theorem step_matches {l : Label σ} (hl : NoRequest s l) (h : step dev s l = some t) :
    Matches s t := by
  cases l with
  | start =>
    obtain rfl := Option.some.inj h
    rcases start_cases s with he | he <;> rw [he] <;> exact matches_says (says_same rfl) rfl
  | stop =>
    obtain rfl := Option.some.inj h
    rcases stop_cases s with he | he <;> rw [he] <;> exact matches_says (says_same rfl) rfl
  | writeNdef uid msg len =>
    obtain rfl := Option.some.inj h
    rcases writeNdef_cases s uid msg len with he | ⟨-,-,tag,bytes,he⟩ <;> rw [he] <;>
      exact matches_says (says_same rfl) rfl
  | requestDump out => exact hl.elim
  | device d =>
    obtain rfl := Option.some.inj h
    exact matches_says (says_same rfl) rfl
  | task now answered => exact taskStep_matches (task_cases h)

end

theorem labelOf_unrelated {e : StarkNfcEvt} (h : unrelated e = true) : labelOf e = .nfc e := by
  cases e <;> first | rfl | cases h

theorem events_run (cap : ℕ) (events : List StarkNfcEvt) (d : Phone)
    (h : ∀ e ∈ events, unrelated e = true) :
    ∃ u, Run (NfcSave.step cap) Free d (events.map labelOf) u ∧
      u.state.pending = d.state.pending := by
  induction events generalizing d with
  | nil => exact ⟨d,rfl,rfl⟩
  | cons e rest ih =>
    have he := h e List.mem_cons_self
    obtain ⟨u,hu,hp⟩ := ih (starkEventPublish cap (.other ⟨e,0⟩) d)
      (fun x hx => h x (List.mem_cons_of_mem e hx))
    refine ⟨u,⟨trivial,_,?_,hu⟩,hp⟩
    rw [labelOf_unrelated he]
    exact if_pos he

theorem serves_run (cap : ℕ) {events : List StarkNfcEvt} {pending : Bool} {d : Phone}
    (h : Serves d.state.pending.isSome events pending) :
    ∃ u, Run (NfcSave.step cap) Free d (events.map labelOf) u ∧
      u.state.pending.isSome = pending := by
  rcases h with ⟨hp,hu⟩ | ⟨hs,hp,he⟩
  · obtain ⟨u,hr,hsame⟩ := events_run cap events d hu
    exact ⟨u,hr,by rw [hsame, hp]⟩
  · obtain ⟨n,hn⟩ := Option.isSome_iff_exists.mp hs
    have hcomplete : ∀ ok, ∃ u, NfcSave.step cap d (.complete ok) = some u ∧
        u.state.pending.isSome = pending := by
      intro ok
      simp only [NfcSave.step, hn]
      exact ⟨_,rfl,hp.symm⟩
    rcases he with rfl | rfl
    · obtain ⟨u,hu,hpu⟩ := hcomplete true
      exact ⟨u,⟨trivial,u,hu,rfl⟩,hpu⟩
    · obtain ⟨u,hu,hpu⟩ := hcomplete false
      exact ⟨u,⟨trivial,u,hu,rfl⟩,hpu⟩

/-- Between two requests of the app the service can publish what the task publishes,
and afterwards it holds a request if the task does. -/
theorem task_refines {σ : Type} {dev : σ → (q : Command) → Reply q × σ} (cap : ℕ)
    {s t : State σ} (ls : List (Label σ)) (h : Run (step dev) NoRequest s ls t) (d : Phone)
    (hd : d.state.pending.isSome = s.dump.isSome) :
    ∃ events u, t.reader.published = s.reader.published++events ∧
      Run (NfcSave.step cap) Free d (events.map labelOf) u ∧
      u.state.pending.isSome = t.dump.isSome := by
  induction ls generalizing s d with
  | nil =>
    obtain rfl := h
    exact ⟨[],d,(List.append_nil _).symm,rfl,hd⟩
  | cons l ls ih =>
    obtain ⟨hl,v,hv,hr⟩ := h
    obtain ⟨first,hpub,hs⟩ := step_matches hl hv
    rw [← hd] at hs
    obtain ⟨m,hm,hpm⟩ := serves_run cap hs
    obtain ⟨rest,u,hrest,hu,hpu⟩ := ih hr m hpm
    refine ⟨first++rest,u,?_,?_,hpu⟩
    · rw [hrest, hpub, List.append_assoc]
    · rw [List.map_append]
      exact (run_append _ _).mpr ⟨m,hm,hu⟩

/-- The task answers a request of the app as the service does for some refusal. -/
theorem request_refines {σ : Type} (s : State σ) (out : Option ℕ) (a : NfcApp)
    (ha : a.pending.isSome = s.dump.isSome) :
    ∃ refusal, ∀ i : Input, i.refusal = refusal →
      (requestDump i a).1 = (starkNfcRequestDump s out).1 ∧
      (requestDump i a).2.pending.isSome = (starkNfcRequestDump s out).2.dump.isSome := by
  have hrefused : ∀ e : Fault, starkNfcRequestDump s out = (e.code,s) →
      ∃ refusal, ∀ i : Input, i.refusal = refusal →
        (requestDump i a).1 = (starkNfcRequestDump s out).1 ∧
        (requestDump i a).2.pending.isSome = (starkNfcRequestDump s out).2.dump.isSome := by
    intro e he
    refine ⟨some e,fun i hi => ?_⟩
    rw [he]
    unfold requestDump
    rw [hi]
    exact ⟨rfl,ha⟩
  cases out with
  | none => exact hrefused .invalidArg rfl
  | some b =>
    by_cases hready : (!s.hasTask || !s.wantPoll) = true
    · exact hrefused .state (by simp only [starkNfcRequestDump, if_pos hready]; rfl)
    by_cases hbusy : (s.dump.isSome || s.write.isSome) = true
    · exact hrefused ⟨.busy,by decide⟩ (by
        simp only [starkNfcRequestDump, if_neg hready, if_pos hbusy])
    · have hnone : a.pending = none := by
        cases hp : a.pending with
        | none => rfl
        | some n =>
          rw [hp] at ha
          simp [← ha] at hbusy
      refine ⟨none,fun i hi => ?_⟩
      unfold requestDump
      rw [hi, hnone]
      simp only [starkNfcRequestDump, if_neg hready, if_neg hbusy]
      exact ⟨trivial,rfl⟩

end StarkOne.NfcService
