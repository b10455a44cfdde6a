import StarkOne.NfcTaskSteps
import StarkOne.NfcWriteSafety

/-!
# Requests and the sessions they were made in

A request that is accepted stays pending until the task carries it out, also
over a stop. While no stop comes between the two, the iteration that carries it
out began after the last stop before the request.
-/

set_option autoImplicit false

namespace StarkOne.NfcSession
open StarkOne.Machine StarkOne.Link StarkOne.Pn532 StarkOne.NfcDumping StarkOne.NfcWriteSafety
  StarkOne.Type2Tag StarkOne.NfcRoundTrip
  StarkOne.NfcTask StarkOne.NfcTaskSteps

section
variable {σ : Type}

/-- What the iteration carries out was accepted after the last stop before it, and
nothing else writes to a tag or fills a dump buffer. -/
structure DiesWithSession (s : State σ) : Prop where
  carried : ∀ q ∈ s.iter.carried, s.iter.stops ≤ q.stops
  writes : ∀ e ∈ s.reader.log, ∀ p data, IsWrite e p data → ∃ w, .write w ∈ s.iter.carried
  filled : ∀ b, s.buffers b ≠ s.iter.buffers b → ∃ d, .dump d ∈ s.iter.carried ∧ d.out = b

def Waiting (s : State σ) : Request → Prop
  | .write w => s.write = some w ∧ s.place ≠ .writing
  | .dump d => s.dump = some d ∧ s.place ≠ .dumping

/-- Polling starts only when no request from before the last stop is waiting. -/
def NoneLeft (s : State σ) (a : Label σ) : Prop :=
  match a with
  | .start => ∀ q, Waiting s q → s.stops ≤ q.stops
  | _ => True

instance (s : State σ) : (a : Label σ) → Decidable (NoneLeft s a)
  | .start => decidable_of_iff
      ((∀ w ∈ s.write, s.place ≠ .writing → s.stops ≤ w.stops) ∧
        ∀ d ∈ s.dump, s.place ≠ .dumping → s.stops ≤ d.stops)
      ⟨fun h q hq => match q with
        | .write w => h.1 w hq.1 hq.2
        | .dump d => h.2 d hq.1 hq.2,
      fun h => ⟨fun w hw hp => h (.write w) ⟨hw,hp⟩,fun d hd hp => h (.dump d) ⟨hd,hp⟩⟩⟩
  | .stop | .writeNdef _ _ _ | .requestDump _ | .device _ | .task _ _ => isTrue trivial

def choosing : Place → Bool
  | .write | .dump => true
  | .asleep | .field | .wanted | .idle | .writing | .dumping | .polling => false

structure Inv (s : State σ) : Prop where
  session : DiesWithSession s
  begun : s.iter.stops ≤ s.stops
  stopped : ∀ q, Waiting s q → s.wantPoll = true → s.stops ≤ q.stops
  fresh : choosing s.place = true → ∀ q, Waiting s q → s.iter.stops ≤ q.stops
  writing : s.place = .writing → ∃ w, s.write = some w ∧ .write w ∈ s.iter.carried
  dumping : s.place = .dumping → ∃ d, s.dump = some d ∧ .dump d ∈ s.iter.carried

theorem noWrite_harmless {e : NfcExchange} (h : NoWrite e.request) (p : UInt8) (data : List UInt8) :
    ¬IsWrite e p data := by
  rintro ⟨hc,tg,hp⟩
  exact h hc tg _ hp

variable {dev : σ → (q : Command) → Reply q × σ} {s t : State σ}

def between : Place → Bool
  | .writing | .dumping => false
  | .asleep | .field | .wanted | .idle | .write | .dump | .polling => true

theorem between_ne {p : Place} (h : between p = true) : p ≠ .writing ∧ p ≠ .dumping :=
  ⟨fun hp => Bool.noConfusion ((congrArg between hp).symm.trans h),
    fun hp => Bool.noConfusion ((congrArg between hp).symm.trans h)⟩

structure SameSession (s t : State σ) : Prop where
  write : t.write = s.write
  dump : t.dump = s.dump
  wantPoll : t.wantPoll = s.wantPoll
  stops : t.stops = s.stops
  buffers : t.buffers = s.buffers
  iter : t.iter = s.iter

theorem SameSession.waiting (h : SameSession s t) (hp : between s.place = true) {q : Request}
    (hq : Waiting t q) : Waiting s q := by
  cases q with
  | write w => exact ⟨h.write ▸ hq.1,(between_ne hp).1⟩
  | dump d => exact ⟨h.dump ▸ hq.1,(between_ne hp).2⟩

theorem SameSession.dies (h : SameSession s t) (hg : Grows NoWrite s.reader t.reader)
    (hs : DiesWithSession s) : DiesWithSession t where
  carried := by rw [h.iter]; exact hs.carried
  writes e he p data hw := by
    rw [h.iter]
    exact hs.writes e ((hg.mem he).resolve_right (fun hn => noWrite_harmless hn p data hw)) p data hw
  filled := by rw [h.iter, h.buffers]; exact hs.filled

theorem Inv.move (h : Inv s) (same : SameSession s t) (hg : Grows NoWrite s.reader t.reader)
    (hs : between s.place = true) (ht : between t.place = true)
    (hc : choosing t.place = true → ∀ q, Waiting s q → s.iter.stops ≤ q.stops) : Inv t where
  session := same.dies hg h.session
  begun := by rw [same.iter, same.stops]; exact h.begun
  stopped q hq hw := by
    rw [same.stops]
    exact h.stopped q (same.waiting hs hq) (same.wantPoll ▸ hw)
  fresh hch q hq := by
    rw [same.iter]
    exact hc hch q (same.waiting hs hq)
  writing hw := absurd hw (between_ne ht).1
  dumping hd := absurd hd (between_ne ht).2

theorem inv_wake (h : Inv s) (hs : between s.place = true) : Inv (wake s) where
  session := ⟨List.forall_mem_nil _,fun _ he => absurd he List.not_mem_nil,fun _ hb => absurd rfl hb⟩
  begun := le_refl _
  stopped q hq := h.stopped q (by
    cases q with
    | write w => exact ⟨hq.1,(between_ne hs).1⟩
    | dump d => exact ⟨hq.1,(between_ne hs).2⟩)
  fresh hc := Bool.noConfusion hc
  writing hw := Place.noConfusion hw
  dumping hd := Place.noConfusion hd

theorem inv_branch (h : Inv s) (hs : between s.place = true) (now : ℕ) : Inv (branch s now) := by
  unfold branch
  by_cases hw : s.wantPoll = true
  · rw [if_pos hw]
    exact h.move ⟨rfl,rfl,rfl,rfl,rfl,rfl⟩ (grows_refl rfl) hs rfl
      (fun _ q hq => h.begun.trans (h.stopped q hq hw))
  · rw [if_neg hw]
    refine h.move ⟨rfl,rfl,rfl,rfl,rfl,rfl⟩ (grows_refl rfl) hs ?_ (fun hc => ?_)
    · dsimp only
      split_ifs <;> rfl
    · dsimp only at hc
      split_ifs at hc <;> exact Bool.noConfusion hc

theorem inv_chooseWrite (h : Inv s) (hp : s.place = .write) : Inv (chooseWrite s) := by
  have hs : between s.place = true := by rw [hp]; rfl
  have hf := h.fresh (by rw [hp]; rfl)
  have hskip : Inv { s with place := .dump } :=
    h.move ⟨rfl,rfl,rfl,rfl,rfl,rfl⟩ (grows_refl rfl) hs rfl (fun _ => hf)
  unfold chooseWrite
  split
  · split
    swap
    · exact hskip
    rename_i w hw hr
    refine ⟨⟨fun q hq => ?_,fun e he p data hd => ?_,fun b hb => ?_⟩,h.begun,fun q hq => ?_,
      fun hc => Bool.noConfusion hc,fun _ => ⟨w,hw,by simp⟩,fun hd => Place.noConfusion hd⟩
    · rcases List.mem_append.mp hq with hq | hq
      · exact h.session.carried q hq
      · exact List.mem_singleton.mp hq ▸ hf (.write w) ⟨hw,(between_ne hs).1⟩
    · exact ⟨w,by simp⟩
    · obtain ⟨d,hd,hb⟩ := h.session.filled b hb
      exact ⟨d,List.mem_append_left _ hd,hb⟩
    · cases q with
      | write w' => exact absurd rfl hq.2
      | dump d => exact h.stopped (.dump d) ⟨hq.1,(between_ne hs).2⟩
  · exact hskip

theorem inv_chooseDump (h : Inv s) (hp : s.place = .dump) : Inv (chooseDump s) := by
  have hs : between s.place = true := by rw [hp]; rfl
  have hf := h.fresh (by rw [hp]; rfl)
  have hskip : Inv { s with place := .polling } :=
    h.move ⟨rfl,rfl,rfl,rfl,rfl,rfl⟩ (grows_refl rfl) hs rfl (fun _ => hf)
  unfold chooseDump
  split
  · split
    swap
    · exact hskip
    rename_i d hd hr
    refine ⟨⟨fun q hq => ?_,fun e he p data hw => ?_,fun b hb => ?_⟩,h.begun,fun q hq => ?_,
      fun hc => Bool.noConfusion hc,fun hw => Place.noConfusion hw,fun _ => ⟨d,hd,by simp⟩⟩
    · rcases List.mem_append.mp hq with hq | hq
      · exact h.session.carried q hq
      · exact List.mem_singleton.mp hq ▸ hf (.dump d) ⟨hd,(between_ne hs).2⟩
    · obtain ⟨w,hw⟩ := h.session.writes e he p data hw
      exact ⟨w,List.mem_append_left _ hw⟩
    · obtain ⟨d,hd,hb⟩ := h.session.filled b hb
      exact ⟨d,List.mem_append_left _ hd,hb⟩
    · cases q with
      | write w => exact h.stopped (.write w) ⟨hq.1,(between_ne hs).1⟩
      | dump d' => exact absurd rfl hq.2
  · exact hskip

theorem inv_writeOnce (h : Inv s) (hp : s.place = .writing) (w : WriteRequest)
    (ht : writeOnce dev s w = some t) : Inv t := by
  obtain ⟨⟨out,r⟩,-,rfl⟩ := Option.map_eq_some_iff.mp ht
  obtain ⟨w,-,hw⟩ := h.writing hp
  refine ⟨⟨h.session.carried,fun e he p data hd => ⟨w,hw⟩,h.session.filled⟩,h.begun,fun q hq => ?_,
    fun hc => Bool.noConfusion hc,fun hw => Place.noConfusion hw,fun hd => Place.noConfusion hd⟩
  cases q with
  | write w' => cases hq.1
  | dump d => exact h.stopped (.dump d) ⟨hq.1,by rw [hp]; decide⟩

theorem inv_dumpDone (h : Inv s) (hp : s.place = .dumping) {r : Reader σ} (err : StarkErr)
    {buffers : ℕ → NfcDump} (hg : Grows NoWrite s.reader r)
    (hb : ∀ b, buffers b ≠ s.buffers b → ∃ d, .dump d ∈ s.iter.carried ∧ d.out = b) :
    Inv (dumpDone s r err buffers) := by
  have hsame := SameSession.dies (s := s) (t := { s with reader := r }) ⟨rfl,rfl,rfl,rfl,rfl,rfl⟩ hg
    h.session
  refine ⟨⟨h.session.carried,hsame.writes,fun b hne => ?_⟩,h.begun,fun q hq => ?_,
    fun hc => Bool.noConfusion hc,fun hw => Place.noConfusion hw,fun hd => Place.noConfusion hd⟩
  · by_cases hold : buffers b = s.buffers b
    · exact h.session.filled b (hold ▸ hne)
    · exact hb b hold
  · cases q with
    | write w => exact h.stopped (.write w) ⟨hq.1,by rw [hp]; decide⟩
    | dump d => cases hq.1

theorem inv_dumpOnce (h : Inv s) (hp : s.place = .dumping) (d : DumpRequest) (hd : s.dump = some d)
    (ht : dumpOnce dev s d = some t) : Inv t := by
  unfold dumpOnce at ht
  split at ht
  · obtain rfl := Option.some.inj ht
    exact inv_dumpDone h hp _ (grows_refl rfl) (fun b hb => absurd rfl hb)
  · obtain ⟨⟨out,r⟩,hr,rfl⟩ := Option.map_eq_some_iff.mp ht
    refine inv_dumpDone h hp _ (drive_grows (asks_dump _) hr) (fun b hb => ?_)
    obtain ⟨d',hd',hc⟩ := h.dumping hp
    obtain rfl := Option.some.inj (hd.symm.trans hd')
    exact ⟨d,hc,by_contra fun hne => hb (Function.update_of_ne (Ne.symm hne) _ _)⟩

theorem inv_taskStep (h : Inv s) (now : ℕ) (answered : Bool)
    (ht : taskStep dev s now answered = some t) : Inv t := by
  cases taskStep_does ht with
  | wake hp => exact inv_wake h (by rw [hp]; rfl)
  | field hp r hr =>
    refine h.move ⟨rfl,rfl,rfl,rfl,rfl,rfl⟩ ?_ (by rw [hp]; rfl) rfl (fun hc => Bool.noConfusion hc)
    split at hr
    · exact applyField_grows (allows_noWrite (by decide)) hr
    · exact grows_refl (by rw [← Option.some.inj hr])
  | branch hp => exact inv_branch h (by rw [hp]; rfl) now
  | idle hp r hr =>
    exact h.move ⟨rfl,rfl,rfl,rfl,rfl,rfl⟩ (idleOnce_grows (allows_noWrite (by decide)) hr)
      (by rw [hp]; rfl) rfl (fun hc => Bool.noConfusion hc)
  | write hp => exact inv_chooseWrite h hp
  | dump hp => exact inv_chooseDump h hp
  | writing hp w _ _ hw => exact inv_writeOnce h hp w hw
  | dumping hp d hd _ hdump => exact inv_dumpOnce h hp d hd hdump
  | polling hp r hr =>
    exact h.move ⟨rfl,rfl,rfl,rfl,rfl,rfl⟩ (pollOnce_grows hr) (by rw [hp]; rfl) rfl
      (fun hc => Bool.noConfusion hc)

theorem inv_start (h : Inv s) (hg : NoneLeft s .start) : Inv { s with wantPoll := true } :=
  ⟨⟨h.session.carried,h.session.writes,h.session.filled⟩,h.begun,fun q hq _ => hg q hq,h.fresh,
    h.writing,h.dumping⟩

theorem inv_stop (h : Inv s) : Inv { s with wantPoll := false, stops := s.stops+1 } :=
  ⟨⟨h.session.carried,h.session.writes,h.session.filled⟩,h.begun.trans (Nat.le_succ _),
    fun _ _ hw => Bool.noConfusion hw,h.fresh,h.writing,h.dumping⟩

theorem inv_acceptWrite (h : Inv s) (hn : s.write = none) (w : WriteRequest)
    (hw : w.stops = s.stops) : Inv { s with write := some w } := by
  refine ⟨⟨h.session.carried,h.session.writes,h.session.filled⟩,h.begun,fun q hq hp => ?_,
    fun hc q hq => ?_,fun hi => ?_,h.dumping⟩
  · cases q with
    | write w' =>
      obtain rfl := Option.some.inj hq.1
      exact hw.ge
    | dump d => exact h.stopped (.dump d) hq hp
  · cases q with
    | write w' =>
      obtain rfl := Option.some.inj hq.1
      exact h.begun.trans hw.ge
    | dump d => exact h.fresh hc (.dump d) hq
  · obtain ⟨w',hw',-⟩ := h.writing hi
    rw [hn] at hw'
    cases hw'

theorem inv_acceptDump (h : Inv s) (hn : s.dump = none) (d : DumpRequest)
    (hd : d.stops = s.stops) : Inv { s with dump := some d } := by
  refine ⟨⟨h.session.carried,h.session.writes,h.session.filled⟩,h.begun,fun q hq hp => ?_,
    fun hc q hq => ?_,h.writing,fun hi => ?_⟩
  · cases q with
    | write w => exact h.stopped (.write w) hq hp
    | dump d' =>
      obtain rfl := Option.some.inj hq.1
      exact hd.ge
  · cases q with
    | write w => exact h.fresh hc (.write w) hq
    | dump d' =>
      obtain rfl := Option.some.inj hq.1
      exact h.begun.trans hd.ge
  · obtain ⟨d',hd',-⟩ := h.dumping hi
    rw [hn] at hd'
    cases hd'

theorem step_inv (a : Label σ) (h : Inv s) (hg : NoneLeft s a) (ht : step dev s a = some t) :
    Inv t := by
  cases a with
  | start =>
    obtain rfl := Option.some.inj ht
    rcases start_cases s with he | he <;> rw [he]
    · exact h
    · exact inv_start h hg
  | stop =>
    obtain rfl := Option.some.inj ht
    rcases stop_cases s with he | he <;> rw [he]
    · exact h
    · exact inv_stop h
  | writeNdef uid msg len =>
    obtain rfl := Option.some.inj ht
    rcases writeNdef_cases s uid msg len with he | ⟨-,hn,tag,bytes,he⟩ <;> rw [he]
    · exact h
    · exact inv_acceptWrite h hn ⟨tag,bytes,s.stops⟩ rfl
  | requestDump out =>
    obtain rfl := Option.some.inj ht
    rcases requestDump_cases s out with he | ⟨-,hn,b,he⟩ <;> rw [he]
    · exact h
    · exact inv_acceptDump h hn ⟨b,s.stops⟩ rfl
  | device d =>
    obtain rfl := Option.some.inj ht
    exact ⟨⟨h.session.carried,h.session.writes,h.session.filled⟩,h.begun,h.stopped,h.fresh,
      h.writing,h.dumping⟩
  | task now answered => exact inv_taskStep h now answered (task_cases ht)

theorem inv_booted (r : Reader σ) (hasTask : Bool) : Inv (booted r hasTask) := by
  refine ⟨⟨List.forall_mem_nil _,List.forall_mem_nil _,fun b hb => absurd rfl hb⟩,le_refl _,
    fun _ _ hw => Bool.noConfusion hw,fun hc => Bool.noConfusion hc,fun hw => Place.noConfusion hw,
    fun hd => Place.noConfusion hd⟩

/-- In every run that starts polling only when no request from before the last
stop is waiting, each request dies with its session. -/
theorem nfc_request_dies (opened : StarkErr) (d : σ) (hs : starkNfcInit dev opened d = some s)
    (as : List (Label σ)) (h : Run (step dev) NoneLeft s as t) : DiesWithSession t := by
  obtain ⟨r,hasTask,rfl⟩ := init_booted hs
  exact (run_invariant Inv (fun _ a _ hi hg ht => step_inv a hi hg ht) as (inv_booted r hasTask)
    h).session

end

def readerWith (i : Identity) (t : Tag) (q : Command) : Reply q × Tag :=
  if q.code = cmdGetFirmware then (fit [pn532Ic,1,6,7] q,t)
  else if q.code = cmdSamConfig ∨ q.code = cmdRfConfig then (fit [] q,t)
  else present i t q

def writeRequest : Label Tag := .writeNdef (some ultralight.uid) (some [0xD0,0x00,0x00]) 3

def taskSteps (n : ℕ) : List (Label Tag) := List.replicate n (.task 0 true)

def desk : State Tag := booted ⟨blank,[],.ready,NfcPollMachine.nfcPollInit,0,false,none,[]⟩ true

theorem desk_init : starkNfcInit (readerWith ultralight) .ok blank = some desk := rfl

def isWrite (e : NfcExchange) : Bool :=
  e.request.code = cmdDataExch && e.request.params.getD 1 0 = NfcType2.t2Write

/-- The request is made in the session in which it is carried out. -/
theorem nfc_request_carried :
    ∃ t, Run (step (readerWith ultralight)) NoneLeft desk
      (.start::taskSteps 6++writeRequest::taskSteps 5) t ∧
      t.reader.log.any isWrite = true ∧ DiesWithSession t := by
  obtain ⟨t,ht,hw⟩ := run_witness (step (readerWith ultralight)) (G := NoneLeft)
    (p := fun t => t.reader.log.any isWrite = true) (s := desk)
    (.start::taskSteps 6++writeRequest::taskSteps 5) (by decide) (by decide)
  exact ⟨t,ht,hw,nfc_request_dies .ok blank desk_init _ ht⟩

/-- A write is requested just before the app stops polling, and polling starts
again after an idle iteration. -/
def stopAndStart : List (Label Tag) :=
  .start::taskSteps 6++[writeRequest,.stop]++taskSteps 4++.start::taskSteps 5

/-- The second session writes to the tag for the first. -/
theorem nfc_request_survives :
    ¬∀ (σ : Type) (dev : σ → (q : Command) → Reply q × σ) (opened : StarkErr) (d : σ)
      (s t : State σ) (as : List (Label σ)), starkNfcInit dev opened d = some s →
        Run (step dev) Free s as t → DiesWithSession t := by
  intro h
  obtain ⟨t,ht,hw,q,hq,hlt⟩ := run_witness (step (readerWith ultralight)) (G := Free)
    (p := fun t => t.reader.log.any isWrite = true ∧ ∃ q ∈ t.iter.carried, q.stops < t.iter.stops)
    (s := desk) stopAndStart (by decide) (by decide)
  have hd := h Tag (readerWith ultralight) .ok blank desk t stopAndStart desk_init ht
  exact absurd (hd.carried q hq) (Nat.not_le.mpr hlt)

end StarkOne.NfcSession
