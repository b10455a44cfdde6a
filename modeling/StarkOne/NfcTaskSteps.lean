import StarkOne.NfcTask

/-!
# What one step of the NFC task does

How far a step can add to the exchanges of an iteration, what it makes of the
module and the poll machine, and when a call changes anything.
-/

set_option autoImplicit false

namespace StarkOne.NfcTaskSteps
open StarkOne.Link StarkOne.Pn532 StarkOne.NfcReader StarkOne.NfcDumping StarkOne.NfcPollMachine
  StarkOne.NfcTask

section
variable {σ α : Type} {dev : σ → (q : Command) → Reply q × σ} {r t : Reader σ}

theorem drive_spec {d : NfcDriver α} {a : α} (h : drive dev r d = some (a,t)) :
    ∃ d' log, t = { r with dev := d', log := r.log++log } ∧ Trace d log a := by
  obtain ⟨⟨b,d',l⟩,hs,hp⟩ := Option.map_eq_some_iff.mp h
  obtain ⟨rfl,rfl⟩ := Prod.mk.inj hp
  obtain ⟨log,hl,ht⟩ := serve_recorded dev _ _ d b hs
  dsimp only at hl ⊢
  exact ⟨d',log,by rw [hl],ht⟩

def Grows (ok : Command → Prop) (r t : Reader σ) : Prop :=
  ∃ log, t.log = r.log++log ∧ ∀ e ∈ log, ok e.request

variable {ok : Command → Prop}

theorem grows_refl (h : t.log = r.log) : Grows ok r t :=
  ⟨[],by rw [h, List.append_nil],List.forall_mem_nil _⟩

theorem Grows.trans {u : Reader σ} (h : Grows ok r t) (h' : Grows ok t u) : Grows ok r u := by
  obtain ⟨l,hl,ha⟩ := h
  obtain ⟨l',hl',ha'⟩ := h'
  exact ⟨l++l',by rw [hl', hl, List.append_assoc],List.forall_mem_append.mpr ⟨ha,ha'⟩⟩

theorem Grows.mem {e : NfcExchange} (h : Grows ok r t) (he : e ∈ t.log) :
    e ∈ r.log ∨ ok e.request := by
  obtain ⟨l,hl,ha⟩ := h
  rw [hl] at he
  exact (List.mem_append.mp he).imp_right (ha e)

theorem drive_grows {d : NfcDriver α} {a : α} (hd : Asks ok d) (h : drive dev r d = some (a,t)) :
    Grows ok r t := by
  obtain ⟨d',log,rfl,ht⟩ := drive_spec h
  exact ⟨log,rfl,asks_trace d log a hd ht⟩

def Allows (ok : Command → Prop) (codes : List UInt8) : Prop :=
  ∀ c ∈ codes, ∀ params cap, ok ⟨c,params,cap⟩

def fieldCodes : List UInt8 := [cmdGetFirmware,cmdSamConfig,cmdRfConfig]

theorem allows_noWrite {codes : List UInt8} (h : cmdDataExch ∉ codes) : Allows NoWrite codes :=
  fun _ hc => noWrite_of_code (fun he => h (he ▸ hc))

theorem allows_noList {codes : List UInt8} (h : cmdListPassive ∉ codes) : Allows NoList codes :=
  fun _ hc _ _ he => h (he ▸ hc)

theorem applyField_grows {want : Bool} (ha : Allows ok fieldCodes)
    (h : applyField dev r want = some t) : Grows ok r t := by
  unfold applyField at h
  split at h
  · exact grows_refl (by rw [← Option.some.inj h])
  obtain ⟨⟨err,u⟩,hd,rfl⟩ := Option.map_eq_some_iff.mp h
  refine (drive_grows (asks_field want (ha _ (by decide))) hd).trans (grows_refl ?_)
  dsimp only
  split_ifs <;> rfl

theorem asks_detect_allows (ha : Allows ok fieldCodes) : Asks ok pn532Detect.run :=
  asks_detect (ha _ (by decide)) (ha _ (by decide)) (ha _ (by decide))

theorem idleOnce_grows {answered : Bool} (ha : Allows ok fieldCodes)
    (h : idleOnce dev r answered = some t) : Grows ok r t := by
  unfold idleOnce at h
  dsimp only at h
  split at h
  · exact grows_refl (by rw [← Option.some.inj h]; rfl)
  · obtain ⟨⟨err,u⟩,hd,rfl⟩ := Option.map_eq_some_iff.mp h
    have hg := drive_grows (asks_detect_allows ha) hd
    refine Grows.trans hg (grows_refl ?_)
    dsimp only
    split_ifs <;> rfl
  · exact grows_refl (by rw [← Option.some.inj h])

theorem release_grows {found : Bool} (h : release dev found r = some t) : Grows NoWrite r t := by
  unfold release at h
  split at h
  · obtain ⟨⟨u,v⟩,hd,rfl⟩ := Option.map_eq_some_iff.mp h
    exact drive_grows (asks_release (noWrite_of_code (by decide))) hd
  · exact grows_refl (by rw [← Option.some.inj h])

theorem recover_grows {now : ℕ} (h : recover dev r now = some t) : Grows NoWrite r t := by
  unfold recover at h
  split at h
  · exact grows_refl (by rw [← Option.some.inj h])
  obtain ⟨⟨err,u⟩,hd,rfl⟩ := Option.map_eq_some_iff.mp h
  refine (drive_grows (asks_detect_allows (allows_noWrite (by decide))) hd).trans (grows_refl ?_)
  dsimp only
  split_ifs <;> rfl

theorem pollOnce_grows {now : ℕ} (h : pollOnce dev r now = some t) : Grows NoWrite r t := by
  unfold pollOnce at h
  split at h
  · exact recover_grows h
  obtain ⟨⟨polled,u⟩,hd,hr⟩ := Option.bind_eq_some_iff.mp h
  refine (drive_grows (asks_poll (noWrite_of_code (by decide))) hd).trans ?_
  dsimp only at hr
  split at hr
  · obtain ⟨⟨snap,v⟩,hread,rfl⟩ := Option.map_eq_some_iff.mp hr
    have hg := drive_grows (asks_read _) hread
    exact hg
  · have hg := release_grows hr
    exact hg
  · exact grows_refl (by rw [← Option.some.inj hr]; rfl)
  · have hg := release_grows hr
    exact hg
  · have hg := release_grows hr
    exact hg

def Tracked (r : Reader σ) : Prop := r.module = .ready ∨ r.poll.state = .recovering

instance (r : Reader σ) : Decidable (Tracked r) := inferInstanceAs (Decidable (_ ∨ _))

theorem release_same {found : Bool} (h : release dev found r = some t) :
    t.module = r.module ∧ t.poll = r.poll := by
  unfold release at h
  split at h
  · obtain ⟨⟨u,v⟩,hd,rfl⟩ := Option.map_eq_some_iff.mp h
    obtain ⟨d',log,rfl,-⟩ := drive_spec hd
    exact ⟨rfl,rfl⟩
  · obtain rfl := Option.some.inj h
    exact ⟨rfl,rfl⟩

theorem applyField_tracked {want : Bool} (hr : Tracked r) (hp : r.poll.state ≠ .recovering)
    (h : applyField dev r want = some t) : Tracked t := by
  have hm := hr.resolve_right hp
  unfold applyField at h
  split at h
  · exact Option.some.inj h ▸ hr
  obtain ⟨⟨err,u⟩,hd,rfl⟩ := Option.map_eq_some_iff.mp h
  obtain ⟨d',log,rfl,-⟩ := drive_spec hd
  dsimp only
  split_ifs <;> exact Or.inl hm

theorem recover_tracked {now : ℕ} (hp : r.poll.state = .recovering)
    (h : recover dev r now = some t) : Tracked t := by
  unfold recover at h
  split at h
  · exact Option.some.inj h ▸ Or.inr hp
  obtain ⟨⟨err,u⟩,hd,rfl⟩ := Option.map_eq_some_iff.mp h
  obtain ⟨d',log,rfl,-⟩ := drive_spec hd
  dsimp only
  rcases nfcPollRecovered_cases r.poll (errOf err) now hp with ⟨hb,-⟩ | ⟨hn,hs⟩
  · rw [if_pos hb]
    exact Or.inl rfl
  · rw [if_neg (by rw [hn]; decide)]
    exact Or.inr hs

/-- A poll loses the module only by starting to look for it. -/
theorem pollOnce_tracked {now : ℕ} (hr : Tracked r) (h : pollOnce dev r now = some t) :
    Tracked t := by
  unfold pollOnce at h
  split at h
  · exact recover_tracked ‹_› h
  have hm := hr.resolve_right ‹_›
  obtain ⟨⟨polled,u⟩,hd,hr⟩ := Option.bind_eq_some_iff.mp h
  obtain ⟨d',log,rfl,-⟩ := drive_spec hd
  dsimp only at hr
  split at hr
  · obtain ⟨⟨snap,v⟩,hread,rfl⟩ := Option.map_eq_some_iff.mp hr
    obtain ⟨d'',log',rfl,-⟩ := drive_spec hread
    exact Or.inl hm
  · exact Or.inl ((release_same hr).1.trans hm)
  · obtain rfl := Option.some.inj hr
    exact Or.inr ((nfcPollResult_recovering _ _ _ ‹_›).mpr ‹_›)
  · exact Or.inl ((release_same hr).1.trans hm)
  · exact Or.inl ((release_same hr).1.trans hm)

end

section
variable {σ : Type} (s : State σ)

theorem init_booted {s : State σ} {dev : σ → (q : Command) → Reply q × σ} {opened : StarkErr} {d : σ}
    (h : starkNfcInit dev opened d = some s) : ∃ r hasTask, s = booted r hasTask := by
  unfold starkNfcInit at h
  dsimp only at h
  split at h
  · exact ⟨_,_,(Option.some.inj h).symm⟩
  split at h
  · exact ⟨_,_,(Option.some.inj h).symm⟩
  obtain ⟨p,-,rfl⟩ := Option.map_eq_some_iff.mp h
  exact ⟨_,_,rfl⟩

theorem start_cases : (starkNfcStart s).2 = s ∨ (starkNfcStart s).2 = { s with wantPoll := true } := by
  unfold starkNfcStart wantPoll
  split_ifs
  · exact Or.inl rfl
  · exact Or.inl rfl
  · exact Or.inr rfl

theorem stop_cases : (starkNfcStop s).2 = s ∨
    (starkNfcStop s).2 = { s with wantPoll := false, stops := s.stops+1 } := by
  unfold starkNfcStop wantPoll
  by_cases h : (!s.hasTask) = true
  · simp [h]
  · simp [h]

theorem writeNdef_cases (uid msg : Option (List UInt8)) (len : ℕ) :
    (starkNfcWriteNdef s uid msg len).2 = s ∨
    (s.wantPoll = true ∧ s.write = none ∧ ∃ tag bytes,
      (starkNfcWriteNdef s uid msg len).2 = { s with write := some ⟨tag,bytes,s.stops⟩ }) := by
  unfold starkNfcWriteNdef
  cases uid with
  | none => exact Or.inl rfl
  | some uid =>
    dsimp only
    split_ifs with h₁ h₂ h₃
    · exact Or.inl rfl
    · exact Or.inl rfl
    · exact Or.inl rfl
    · refine Or.inr ⟨?_,Option.not_isSome_iff_eq_none.mp h₃,_,_,rfl⟩
      cases hw : s.wantPoll
      · simp [hw] at h₂
      · rfl

theorem requestDump_cases (out : Option ℕ) :
    (starkNfcRequestDump s out).2 = s ∨
    (s.wantPoll = true ∧ s.dump = none ∧ ∃ b,
      (starkNfcRequestDump s out).2 = { s with dump := some ⟨b,s.stops⟩ }) := by
  unfold starkNfcRequestDump
  cases out with
  | none => exact Or.inl rfl
  | some b =>
    dsimp only
    split_ifs with h₁ h₂
    · exact Or.inl rfl
    · exact Or.inl rfl
    · refine Or.inr ⟨?_,?_,b,rfl⟩
      · cases hw : s.wantPoll
        · simp [hw] at h₁
        · rfl
      · cases hd : s.dump
        · rfl
        · simp [hd] at h₂

theorem task_cases {s t : State σ} {dev : σ → (q : Command) → Reply q × σ} {now : ℕ}
    {answered : Bool} (h : step dev s (.task now answered) = some t) :
    taskStep dev s now answered = some t := by
  simp only [step] at h
  split at h
  · exact h
  · cases h

inductive Does (dev : σ → (q : Command) → Reply q × σ) (s : State σ) (now : ℕ) (answered : Bool) :
    State σ → Prop where
  | wake (hp : s.place = .asleep) : Does dev s now answered (wake s)
  | field (hp : s.place = .field) (r : Reader σ)
      (hr : (if s.reader.poll.state ≠ .recovering then applyField dev s.reader s.wantPoll
        else some s.reader) = some r) :
      Does dev s now answered { s with reader := r, place := .wanted }
  | branch (hp : s.place = .wanted) : Does dev s now answered (branch s now)
  | idle (hp : s.place = .idle) (r : Reader σ) (hr : idleOnce dev s.reader answered = some r) :
      Does dev s now answered { s with reader := r, place := .asleep }
  | write (hp : s.place = .write) : Does dev s now answered (chooseWrite s)
  | dump (hp : s.place = .dump) : Does dev s now answered (chooseDump s)
  | writing (hp : s.place = .writing) (w : WriteRequest) (hw : s.write = some w) (t : State σ)
      (ht : writeOnce dev s w = some t) : Does dev s now answered t
  | dumping (hp : s.place = .dumping) (d : DumpRequest) (hd : s.dump = some d) (t : State σ)
      (ht : dumpOnce dev s d = some t) : Does dev s now answered t
  | polling (hp : s.place = .polling) (r : Reader σ)
      (hr : pollOnce dev s.reader s.now = some r) :
      Does dev s now answered { s with reader := r, place := .asleep }

theorem taskStep_does {s t : State σ} {dev : σ → (q : Command) → Reply q × σ} {now : ℕ}
    {answered : Bool} (h : taskStep dev s now answered = some t) : Does dev s now answered t := by
  unfold taskStep at h
  split at h
  · exact Option.some.inj h ▸ .wake ‹_›
  · obtain ⟨r,hr,rfl⟩ := Option.map_eq_some_iff.mp h
    exact .field ‹_› r hr
  · exact Option.some.inj h ▸ .branch ‹_›
  · obtain ⟨r,hr,rfl⟩ := Option.map_eq_some_iff.mp h
    exact .idle ‹_› r hr
  · exact Option.some.inj h ▸ .write ‹_›
  · exact Option.some.inj h ▸ .dump ‹_›
  · obtain ⟨w,hw,ht⟩ := Option.bind_eq_some_iff.mp h
    exact .writing ‹_› w hw t ht
  · obtain ⟨d,hd,ht⟩ := Option.bind_eq_some_iff.mp h
    exact .dumping ‹_› d hd t ht
  · obtain ⟨r,hr,rfl⟩ := Option.map_eq_some_iff.mp h
    exact .polling ‹_› r hr

end

end StarkOne.NfcTaskSteps
