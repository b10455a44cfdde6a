import StarkOne.NfcSession
import StarkOne.NfcWriteApp

/-!
# Every write on a tag was confirmed

A dialog stays as it was opened, and so does what it offers, since the keys are
the dialog's. What the service accepts is what was confirmed, one write at a
time, and only that does the task put on a tag.
-/

set_option autoImplicit false

namespace StarkOne.NfcConfirmed
open StarkOne.Machine StarkOne.UiStack StarkOne.UiShape StarkOne.Link StarkOne.Pn532
open StarkOne.NfcType2 StarkOne.NfcReader StarkOne.NfcWriter StarkOne.NfcDumping StarkOne.NfcPollMachine
open StarkOne.NfcRoundTrip StarkOne.NfcWriteSafety StarkOne.NfcTask StarkOne.NfcTaskSteps
open StarkOne.NfcView StarkOne.NfcOffer StarkOne.NfcWriteApp
open StarkOne.UiFrames StarkOne.TextWrap StarkOne.DialogPicture

def Decent (r : StarkNfcRead) : Prop := r.tag.uid.length ∈ uidLengths ∧ r.ndefCapacity < 2^16

theorem capacity_low (buf : List UInt8) : nfcT2NdefCapacity (ccOf buf).dataBytes < 2^16 := by
  have hcc : (ccOf buf).dataBytes < 2^16 := by
    unfold ccOf nfcT2Cc
    split
    · have hb := (buf.getD 2 0).toNat_lt
      dsimp only
      omega
    · decide
  unfold nfcT2NdefCapacity
  split_ifs <;> omega

theorem findNdef_keeps (total rounds : ℕ) (out : StarkNfcRead) (avail : ℕ) :
    Gives (fun r => r.2.tag = out.tag ∧ r.2.ndefCapacity = out.ndefCapacity)
      (findNdef total rounds out avail) := by
  induction rounds generalizing out avail with
  | zero => exact trivial
  | succ rounds ih =>
    rw [findNdef]
    split
    · refine gives_bind (gives_true _) fun r _ => ?_
      obtain ⟨err,a⟩ := r
      dsimp only
      split
      · exact ⟨rfl,rfl⟩
      · exact ih { out with ndef := a.bytes } a.avail
    · refine gives_bind (gives_true _) fun r _ => ?_
      obtain ⟨err,a⟩ := r
      dsimp only
      split <;> exact ⟨rfl,rfl⟩
    · exact ⟨rfl,rfl⟩
    · exact ⟨rfl,rfl⟩

theorem readType2_keeps (out : StarkNfcRead) (hcapacity : out.ndefCapacity < 2^16) :
    Gives (fun r => r.2.tag.uid = out.tag.uid ∧ r.2.ndefCapacity < 2^16) (readType2 out) := by
  unfold readType2
  refine gives_bind (gives_true _) fun r _ => ?_
  cases r with
  | error e => exact ⟨rfl,hcapacity⟩
  | ok buf =>
    dsimp only
    split
    · exact ⟨rfl,hcapacity⟩
    split
    · exact ⟨rfl,capacity_low buf⟩
    · refine gives_mono (findNdef_keeps _ _ _ _) fun r hr => ?_
      rw [hr.1, hr.2]
      exact ⟨rfl,capacity_low buf⟩

/-- Whatever the link answers, a snapshot is of the tag that was found. -/
theorem read_decent {found : NfcTag} (h : found.uid.length ∈ uidLengths) :
    Gives Decent (nfcReaderRead found) := by
  have hclear : ∀ err (out : StarkNfcRead), out.tag.uid = found.uid → out.ndefCapacity < 2^16 →
      Decent (cleared err out) := by
    intro err out huid hcapacity
    unfold cleared Decent
    split <;> exact ⟨huid ▸ h,hcapacity⟩
  unfold nfcReaderRead
  refine gives_bind (gives_true _) fun r _ => ?_
  obtain ⟨version,err⟩ := r
  have hzero : (identified found version err).ndefCapacity < 2^16 := (by decide : 0 < 2^16)
  dsimp only
  split
  · refine gives_bind (readType2_keeps _ hzero) fun r hr => ?_
    exact gives_bind (gives_true _) fun _ _ => hclear _ _ hr.1 hr.2
  · rw [pure_bind]
    exact gives_bind (gives_true _) fun _ _ => hclear _ _ rfl hzero

theorem pollTarget_decent {r : List UInt8} {found : NfcTag} (h : pollTarget r = .ok (some found)) :
    found.uid.length ∈ uidLengths := by
  unfold pollTarget at h
  dsimp only at h
  split at h
  · cases h
  split at h
  · cases h
  rename_i hlen
  cases h
  rw [List.length_take, List.length_drop, Nat.min_eq_left (by omega)]
  simp only [uidLengths, List.mem_cons, List.not_mem_nil, or_false]
  omega

theorem poll_decent : Gives (fun r => ∀ found, r = .ok (some found) → found.uid.length ∈ uidLengths)
    nfcReaderPoll.run := by
  unfold nfcReaderPoll
  rw [ExceptT.run_bind]
  refine gives_bind (gives_true _) fun r _ => ?_
  cases r with
  | error e => exact fun _ h => by cases h
  | ok bytes => exact fun _ h => pollTarget_decent h

section
variable {σ α : Type} {dev : σ → (q : Command) → Reply q × σ} {r t u : Reader σ}

/-- No end of a write was published, and what is in view is a tag. -/
structure Tells (r t : Reader σ) : Prop where
  published : ∃ events, t.published = r.published++events ∧ ∀ e ∈ events, writeOver e = false
  snap : ∀ x, t.snap = some x → r.snap = some x ∨ Decent x

theorem tells_same (hp : t.published = r.published) (hs : t.snap = r.snap) : Tells r t :=
  ⟨⟨[],by rw [hp, List.append_nil],List.forall_mem_nil _⟩,fun _ hx => .inl (hs ▸ hx)⟩

theorem tells_gone (hp : t.published = r.published) (hs : t.snap = none) : Tells r t :=
  ⟨⟨[],by rw [hp, List.append_nil],List.forall_mem_nil _⟩,fun _ hx => by rw [hs] at hx; cases hx⟩

theorem Tells.trans (h : Tells r t) (h' : Tells t u) : Tells r u := by
  obtain ⟨⟨es,he,ha⟩,hs⟩ := h
  obtain ⟨⟨es',he',ha'⟩,hs'⟩ := h'
  refine ⟨⟨es++es',by rw [he', he, List.append_assoc],List.forall_mem_append.mpr ⟨ha,ha'⟩⟩,
    fun x hx => ?_⟩
  rcases hs' x hx with ht | hd
  · exact hs x ht
  · exact .inr hd

theorem Tells.publish (h : Tells r t) {what : StarkNfcEvt} (hw : writeOver what = false) :
    Tells r (publish t what) := by
  refine h.trans ⟨⟨[what],rfl,?_⟩,fun _ hx => .inl hx⟩
  simpa using hw

theorem drive_tells {d : NfcDriver α} {a : α} (h : drive dev r d = some (a,t)) : Tells r t := by
  obtain ⟨d',log,rfl,-⟩ := drive_spec h
  exact tells_same rfl rfl

theorem applyField_tells {want : Bool} (h : applyField dev r want = some t) : Tells r t := by
  unfold applyField at h
  split at h
  · exact tells_same (by rw [← Option.some.inj h]) (by rw [← Option.some.inj h])
  obtain ⟨⟨err,u⟩,hd,rfl⟩ := Option.map_eq_some_iff.mp h
  refine (drive_tells hd).trans ?_
  dsimp only
  split_ifs
  · exact tells_same rfl rfl
  · exact tells_same rfl rfl
  · exact tells_gone rfl rfl

theorem idleOnce_tells {answered : Bool} (h : idleOnce dev r answered = some t) : Tells r t := by
  unfold idleOnce at h
  dsimp only at h
  split at h
  · obtain rfl := Option.some.inj h
    refine Tells.publish ?_ (by rfl)
    exact tells_same rfl rfl
  · obtain ⟨⟨err,u⟩,hd,rfl⟩ := Option.map_eq_some_iff.mp h
    have hdrive : Tells r u := Tells.trans (tells_same (by rfl) (by rfl)) (drive_tells hd)
    refine hdrive.trans ?_
    dsimp only
    split_ifs
    · refine Tells.publish ?_ (by rfl)
      exact tells_same rfl rfl
    · exact tells_same rfl rfl
  · obtain rfl := Option.some.inj h
    exact tells_same rfl rfl

theorem release_tells {found : Bool} (h : release dev found r = some t) : Tells r t := by
  unfold release at h
  split at h
  · obtain ⟨⟨v,w⟩,hd,rfl⟩ := Option.map_eq_some_iff.mp h
    exact drive_tells hd
  · obtain rfl := Option.some.inj h
    exact tells_same rfl rfl

theorem recover_tells {now : ℕ} (h : recover dev r now = some t) : Tells r t := by
  unfold recover at h
  split at h
  · obtain rfl := Option.some.inj h
    exact tells_same rfl rfl
  obtain ⟨⟨err,u⟩,hd,rfl⟩ := Option.map_eq_some_iff.mp h
  refine (drive_tells hd).trans ?_
  dsimp only
  split_ifs
  · refine Tells.publish ?_ (by rfl)
    exact tells_same rfl rfl
  · exact tells_same rfl rfl

theorem nfcPollResult_tag {p : NfcPoll} {poll : Except Fault (Option NfcTag)} {now : ℕ}
    {arrived : NfcTag} (h : (nfcPollResult p poll now).1 = .tag arrived) : poll = .ok (some arrived) := by
  unfold nfcPollResult at h
  split at h
  · cases h
  cases poll with
  | error e =>
    dsimp only at h
    split at h
    · cases h
    · cases h
  | ok found =>
    cases found with
    | none =>
      dsimp only [nfcPollEmpty] at h
      split_ifs at h
    | some tag =>
      dsimp only [nfcPollFound] at h
      split at h
      · cases h
      · cases h
        rfl

theorem pollOnce_tells {now : ℕ} (h : pollOnce dev r now = some t) : Tells r t := by
  unfold pollOnce at h
  split at h
  · exact recover_tells h
  obtain ⟨⟨polled,u⟩,hd,hr⟩ := Option.bind_eq_some_iff.mp h
  obtain ⟨d',log,hu,ht⟩ := drive_spec hd
  refine (drive_tells hd).trans ?_
  dsimp only at hr
  split at hr
  · rename_i arrived he
    obtain ⟨⟨snap,v⟩,hread,rfl⟩ := Option.map_eq_some_iff.mp hr
    obtain ⟨d'',log',rfl,htrace⟩ := drive_spec hread
    have hfound := gives_trace poll_decent ht arrived (nfcPollResult_tag he)
    have hdecent := gives_trace (read_decent hfound) htrace
    refine Tells.publish ?_ (by rfl)
    refine ⟨⟨[],(List.append_nil _).symm,List.forall_mem_nil _⟩,fun x hx => ?_⟩
    cases hx
    exact .inr hdecent
  · refine Tells.trans ?_ (release_tells hr)
    refine Tells.publish ?_ (by rfl)
    exact tells_gone rfl rfl
  · obtain rfl := Option.some.inj hr
    refine Tells.publish ?_ (by rfl)
    exact tells_gone rfl rfl
  · refine Tells.trans ?_ (release_tells hr)
    exact tells_same rfl rfl
  · refine Tells.trans ?_ (release_tells hr)
    exact tells_same rfl rfl

end

/-- The exchange after these puts this data on this page for an accepted write: the tag with its UID
was selected, its container grants the page, and the data are the page of the message. -/
def Asked (accepted : List Accepted) (before : List NfcExchange) (p : UInt8) (data : List UInt8) : Prop :=
  ∃ x ∈ accepted, ∃ expect early late, expect.uid = x.uid ∧ before = early++late ∧
    Granted expect x.msg late p data

/-- The pending write is the last that was accepted, each accepted one is pending or has ended once, and
nothing else is written. -/
structure Carries {σ : Type} (accepted : List Accepted) (s : State σ) : Prop where
  pending : ∀ w, s.write = some w → ∃ x rest, accepted = x::rest ∧ w.tag.uid = x.uid ∧ w.msg = x.msg
  short : ∀ x ∈ accepted, x.msg.length ≤ nfcNdefMax
  written : ∀ before e after p data, s.reader.log = before++e::after → IsWrite e p data →
    Asked accepted before p data
  once : s.reader.published.countP writeOver+s.write.toList.length = accepted.length
  snap : ∀ r, s.reader.snap = some r → Decent r

theorem split_place {α : Type} {log more before after : List α} {e : α}
    (h : log++more = before++e::after) :
    (∃ rest, log = before++e::rest) ∨ ∃ late, before = log++late ∧ more = late++e::after := by
  rcases List.append_eq_append_iff.mp h with ⟨late,hbefore,hlate⟩ | ⟨rest,hlog,hmore⟩
  · exact .inr ⟨late,hbefore,hlate⟩
  · cases rest with
    | nil => exact .inr ⟨[],by rw [hlog, List.append_nil, List.append_nil],hmore.symm⟩
    | cons x rest =>
      obtain ⟨rfl,-⟩ := List.cons.inj hmore
      exact .inl ⟨rest,hlog⟩

theorem writer_granted {expect : NfcTag} {msg : List UInt8} (hl : msg.length ≤ nfcNdefMax)
    {log : List NfcExchange} {r : Except Fault Unit × ℕ} (h : Trace (nfcWriterWrite expect msg) log r) :
    ∀ before e after p data, log = before++e::after → IsWrite e p data →
      Granted expect msg before p data := by
  unfold nfcWriterWrite at h
  obtain ⟨l₁,l₂,out,rfl,ho,hr⟩ := (trace_bind _ _ _ _).mp h
  obtain ⟨l₃,l₄,u,rfl,hrel,rfl,rfl⟩ := (trace_bind _ _ _ _).mp hr
  obtain ⟨rel,hc,rfl⟩ := trace_release _ _ hrel
  exact (trace_writeAll expect msg hl _ _ ho rel (harmless_of_code rel _ hc (by decide))).granted

section
variable {σ : Type} {dev : σ → (q : Command) → Reply q × σ} {s t : State σ} {accepted : List Accepted}

theorem Carries.same (h : Carries accepted s) (hg : Grows NoWrite s.reader t.reader)
    (ht : Tells s.reader t.reader) (hw : t.write = s.write) : Carries accepted t where
  pending := by
    rw [hw]
    exact h.pending
  short := h.short
  written before e after p data hlog he := by
    obtain ⟨more,hmore,hnone⟩ := hg
    rw [hmore] at hlog
    rcases split_place hlog with ⟨rest,hrest⟩ | ⟨late,-,hlate⟩
    · exact h.written before e rest p data hrest he
    · have hm : e ∈ more := hlate ▸ List.mem_append_right _ List.mem_cons_self
      exact absurd he (NfcSession.noWrite_harmless (hnone e hm) p data)
  once := by
    obtain ⟨events,he,hnone⟩ := ht.published
    have hzero : events.countP writeOver = 0 := List.countP_eq_zero.mpr fun e hm => by simp [hnone e hm]
    rw [he, List.countP_append, hw, hzero]
    exact h.once
  snap r hr := by
    rcases ht.snap r hr with hold | hd
    · exact h.snap r hold
    · exact hd

theorem Carries.still (h : Carries accepted s) (hr : t.reader = s.reader) (hw : t.write = s.write) :
    Carries accepted t :=
  h.same (grows_refl (by rw [hr])) (tells_same (by rw [hr]) (by rw [hr])) hw

theorem carries_wake (h : Carries accepted s) : Carries accepted (wake s) where
  pending := h.pending
  short := h.short
  written before e after p data hlog he := by
    have hlen := congrArg List.length hlog
    simp [wake] at hlen
  once := h.once
  snap := h.snap

theorem carries_writeOnce {w : WriteRequest} (h : Carries accepted s) (hw : s.write = some w)
    (ht : writeOnce dev s w = some t) : Carries accepted t := by
  obtain ⟨⟨out,r⟩,hd,rfl⟩ := Option.map_eq_some_iff.mp ht
  obtain ⟨x,rest,haccepted,huid,hmsg⟩ := h.pending w hw
  have hmem : x ∈ accepted := haccepted ▸ List.mem_cons_self
  obtain ⟨d',log,rfl,htrace⟩ := drive_spec hd
  have hgranted := writer_granted (by rw [hmsg]; exact h.short x hmem) htrace
  have hover : writeOver (if errOf out.1 = .ok then .writeDone else .writeFailed) = true := by
    split <;> rfl
  refine ⟨fun _ hn => (by cases hn),h.short,fun before e after p data hlog he => ?_,?_,h.snap⟩
  · change s.reader.log++log = before++e::after at hlog
    rcases split_place hlog with ⟨old,hold⟩ | ⟨late,rfl,hlate⟩
    · exact h.written before e old p data hold he
    · exact ⟨x,hmem,w.tag,_,late,huid,rfl,hmsg ▸ hgranted late e after p data hlate he⟩
  · have honce := h.once
    rw [hw] at honce
    change (s.reader.published++[_]).countP writeOver+0 = _
    rw [List.countP_append, List.countP_singleton, if_pos hover]
    exact honce

theorem carries_dumpOnce {q : DumpRequest} (h : Carries accepted s) (ht : dumpOnce dev s q = some t) :
    Carries accepted t := by
  have hdone : ∀ (r : Reader σ) err buffers, Grows NoWrite s.reader r → Tells s.reader r →
      Carries accepted (dumpDone s r err buffers) := by
    intro r err buffers hg htell
    have hnone : writeOver (if err = .ok then .dumpDone else .dumpFailed) = false := by
      split <;> rfl
    exact h.same hg (Tells.publish htell hnone) rfl
  unfold dumpOnce at ht
  split at ht
  · obtain rfl := Option.some.inj ht
    exact hdone _ _ _ (grows_refl rfl) (tells_same rfl rfl)
  · obtain ⟨⟨out,r⟩,hd,rfl⟩ := Option.map_eq_some_iff.mp ht
    exact hdone _ _ _ (drive_grows (asks_dump _) hd) (drive_tells hd)

theorem carries_taskStep {now : ℕ} {answered : Bool} (h : Carries accepted s)
    (ht : taskStep dev s now answered = some t) : Carries accepted t := by
  cases taskStep_does ht with
  | wake hp => exact carries_wake h
  | field hp r hr =>
    split at hr
    · exact h.same (applyField_grows (allows_noWrite (by decide)) hr) (applyField_tells hr) rfl
    · obtain rfl := Option.some.inj hr
      exact h.still rfl rfl
  | branch hp =>
    unfold branch
    split
    · exact h.still rfl rfl
    · exact h.same (grows_refl rfl) (tells_same rfl rfl) rfl
  | idle hp r hr =>
    exact h.same (idleOnce_grows (allows_noWrite (by decide)) hr) (idleOnce_tells hr) rfl
  | write hp =>
    unfold chooseWrite
    split
    · split <;> exact h.still rfl rfl
    · exact h.still rfl rfl
  | dump hp =>
    unfold chooseDump
    split
    · split <;> exact h.still rfl rfl
    · exact h.still rfl rfl
  | writing hp w hw _ hwrite => exact carries_writeOnce h hw hwrite
  | dumping hp q hq _ hdump => exact carries_dumpOnce h hdump
  | polling hp r hr => exact h.same (pollOnce_grows hr) (pollOnce_tells hr) rfl

theorem carries_start (h : Carries accepted s) : Carries accepted (starkNfcStart s).2 := by
  rcases start_cases s with he | he
  · rwa [he]
  · rw [he]
    exact h.still rfl rfl

theorem carries_stop (h : Carries accepted s) : Carries accepted (starkNfcStop s).2 := by
  rcases stop_cases s with he | he
  · rwa [he]
  · rw [he]
    exact h.still rfl rfl

theorem carries_requestDump (out : Option ℕ) (h : Carries accepted s) :
    Carries accepted (starkNfcRequestDump s out).2 := by
  rcases requestDump_cases s out with he | ⟨-,-,b,he⟩
  · rwa [he]
  · rw [he]
    exact h.still rfl rfl

theorem writeNdef_spec (s : State σ) (uid msg : List UInt8) :
    (∃ err, starkNfcWriteNdef s (some uid) (some msg) msg.length = (err,s) ∧ err ≠ .ok) ∨
    (s.write = none ∧ msg.length ≤ nfcNdefMax ∧ ∃ w : WriteRequest, w.tag.uid = uid ∧ w.msg = msg ∧
      starkNfcWriteNdef s (some uid) (some msg) msg.length = (.ok,{ s with write := some w })) := by
  unfold starkNfcWriteNdef
  dsimp only
  split
  · exact .inl ⟨_,rfl,by decide⟩
  rename_i hargs
  split
  · exact .inl ⟨_,rfl,by decide⟩
  split
  · exact .inl ⟨_,rfl,by decide⟩
  rename_i hfree
  refine .inr ⟨Option.not_isSome_iff_eq_none.mp hfree,?_,_,rfl,?_,rfl⟩
  · omega
  · exact List.take_length

theorem Carries.accept (h : Carries accepted s) {x : Accepted} {w : WriteRequest} (hn : s.write = none)
    (hlen : x.msg.length ≤ nfcNdefMax) (huid : w.tag.uid = x.uid) (hmsg : w.msg = x.msg) :
    Carries (x::accepted) { s with write := some w } where
  pending w' hw := by
    obtain rfl := Option.some.inj hw
    exact ⟨x,accepted,rfl,huid,hmsg⟩
  short := List.forall_mem_cons.mpr ⟨hlen,h.short⟩
  written before e after p data hlog he := by
    obtain ⟨y,hy,hrest⟩ := h.written before e after p data hlog he
    exact ⟨y,List.mem_cons_of_mem _ hy,hrest⟩
  once := by
    have honce := h.once
    rw [hn] at honce
    change _+1 = _
    rw [List.length_cons, ← honce]
    rfl
  snap := h.snap

end

section
variable {σ : Type} {dev : σ → (q : Command) → Reply q × σ} {d d' : Phone σ}

/-- What an open dialog says is what is offered, and what was accepted was said. -/
structure Inv (d : Phone σ) : Prop where
  shape : Shape d
  service : Carries d.state.accepted d.state.service
  taken : ∀ r, d.state.taken = some r → Decent r
  shown : ∀ a, d.dialog.isOpen = true → d.dialog.done = some a →
    Says a d.state.offer.tag.uid d.state.offer.msg ∧ d.state.offer.tag.uid.length ∈ uidLengths
  accepted : ∀ x ∈ d.state.accepted, Says x.shown x.uid x.msg ∧ x.uid.length ∈ uidLengths

theorem Inv.update (h : Inv d) (hs : Shape d') (hd : ∀ a, d'.dialog.isOpen = true →
      d'.dialog.done = some a → d.dialog.isOpen = true ∧ d.dialog.done = some a)
    (ho : d'.state.offer = d.state.offer) (ha : d'.state.accepted = d.state.accepted)
    (hc : Carries d.state.accepted d'.state.service)
    (ht : ∀ r, d'.state.taken = some r → Decent r) : Inv d' where
  shape := hs
  service := by
    rw [ha]
    exact hc
  taken := ht
  shown a hopen hdone := by
    rw [ho]
    exact h.shown a (hd a hopen hdone).1 (hd a hopen hdone).2
  accepted := by
    rw [ha]
    exact h.accepted

structure SameWrite (s t : Desk σ) : Prop where
  taken : t.taken = s.taken
  offer : t.offer = s.offer
  service : t.service = s.service
  accepted : t.accepted = s.accepted

theorem Inv.same (h : Inv d) (hs : Shape d') (hd : ∀ a, d'.dialog.isOpen = true →
      d'.dialog.done = some a → d.dialog.isOpen = true ∧ d.dialog.done = some a)
    (hw : SameWrite d.state d'.state) : Inv d' :=
  h.update hs hd hw.offer hw.accepted (hw.service ▸ h.service) (hw.taken ▸ h.taken)

theorem Inv.beside (h : Inv d) (hs : d'.stack = d.stack) (hd : d'.dialog = d.dialog)
    (hc : d'.current = d.current) (hw : SameWrite d.state d'.state) : Inv d' := by
  refine h.same (shape_same h.shape hs hd hc) (fun a hopen hdone => ?_) hw
  rw [hd] at hopen hdone
  exact ⟨hopen,hdone⟩

theorem sameWrite_refl (s : Desk σ) : SameWrite s s := ⟨rfl,rfl,rfl,rfl⟩

theorem inv_setBusy (busy : Bool) (h : Inv d) : Inv (setBusy busy d) :=
  h.beside rfl rfl rfl ⟨rfl,rfl,rfl,rfl⟩

theorem inv_show (mode : NfcSave.Mode) (h : Inv d) : Inv { d with state := nfcShow mode d.state } := by
  refine h.beside rfl rfl rfl ?_
  cases mode <;> exact ⟨rfl,rfl,rfl,rfl⟩

theorem inv_refresh (h : Inv d) : Inv { d with state := nfcviewRefresh d.state } :=
  h.update (shape_same h.shape rfl rfl rfl) (fun _ ho hd => ⟨ho,hd⟩) rfl rfl h.service h.service.snap

theorem inv_alert (h : Inv d) : Inv (starkUiDialogAlert d).2 := by
  have hs := shape_openDialog true none h.shape
  unfold starkUiDialogAlert
  rcases openDialog_shape true none h.shape with ⟨he,-⟩ | ⟨-,he⟩
  · rw [he]
    exact h
  · rw [he] at hs ⊢
    exact h.same hs (fun a _ hdone => by cases hdone) ⟨rfl,rfl,rfl,rfl⟩

theorem inv_confirm (a : Ask) (h : Inv d) (hopen : d.dialog.isOpen = false)
    (hsaid : Says a d.state.offer.tag.uid d.state.offer.msg ∧
      d.state.offer.tag.uid.length ∈ uidLengths) : Inv (starkUiDialogConfirm a d).2 := by
  have hs := shape_openDialog false (some a) h.shape
  unfold starkUiDialogConfirm
  rcases openDialog_shape false (some a) h.shape with ⟨-,hbusy⟩ | ⟨-,he⟩
  · exact Bool.noConfusion (hopen.symm.trans hbusy)
  · rw [he] at hs ⊢
    refine ⟨hs,h.service,h.taken,fun b _ hdone => ?_,h.accepted⟩
    obtain rfl := Option.some.inj hdone
    exact hsaid

theorem inv_askWrite (i : Input) (h : Inv d) (hopen : d.dialog.isOpen = false) : Inv (askWrite i d) := by
  obtain ⟨p,he⟩ : ∃ p, nfcwriteActivate i.row d.state.taken i.stack.1 d.state.offer = p := ⟨_,rfl⟩
  obtain ⟨offer,ask⟩ := p
  unfold askWrite
  rw [he]
  dsimp only
  have hd : Inv { d with state := { d.state with offer := offer } } :=
    ⟨shape_same h.shape rfl rfl rfl,h.service,h.taken,
      fun a ho => Bool.noConfusion (hopen.symm.trans ho),h.accepted⟩
  cases ask with
  | none => exact hd
  | some a =>
    obtain ⟨⟨r,hr,htag⟩,hsaid⟩ := offered he i.stack.2.ge h.taken
    have huid : offer.tag.uid.length ∈ uidLengths := htag ▸ (h.taken r (writable_taken hr)).1
    exact inv_confirm a hd hopen ⟨hsaid,huid⟩

/-- OK hands over what the dialog said. -/
theorem inv_confirmed (a : Ask) (result : StarkDialogResult) (h : Inv d)
    (hopen : d.dialog.isOpen = false) (hsaid : Says a d.state.offer.tag.uid d.state.offer.msg ∧
      d.state.offer.tag.uid.length ∈ uidLengths) : Inv (confirmed a result d) := by
  unfold confirmed
  split
  · exact h
  dsimp only
  rcases writeNdef_spec d.state.service d.state.offer.tag.uid d.state.offer.msg with
    ⟨err,he,herr⟩ | ⟨hn,hlen,w,huid,hmsg,he⟩
  · rw [he]
    dsimp only
    rw [if_neg herr]
    exact h.beside rfl rfl rfl ⟨rfl,rfl,rfl,rfl⟩
  · rw [he]
    dsimp only
    rw [if_pos rfl]
    exact ⟨shape_same h.shape rfl rfl rfl,h.service.accept hn hlen huid hmsg,h.taken,
      fun b ho => Bool.noConfusion (hopen.symm.trans ho),List.forall_mem_cons.mpr ⟨hsaid,h.accepted⟩⟩

theorem inv_join (i : Input) (h : Inv d) : Inv (appWorkerJoin appNfc i d) := by
  unfold appWorkerJoin
  split
  · exact h
  · rename_i w hw
    have hj : Inv (appNfc.join i w d) := by
      change Inv (if i.ends then setBusy false d else d)
      split
      · exact inv_setBusy false h
      · exact h
    exact hj.beside rfl rfl rfl (sameWrite_refl _)
  · exact h.beside rfl rfl rfl (sameWrite_refl _)

theorem keeps : Keeps (appNfc : Apps NfcSave.App (Desk σ) Ask NfcSave.SaveWorker StarkNfcEvt Input)
    Inv where
  shape _ h := h.shape
  keys d dl h ho hd := h.same (by
    unfold Shape overlayOf
    rw [ho]
    exact h.shape) (fun _ hopen hdone => ⟨ho ▸ hopen,hd ▸ hdone⟩) (sameWrite_refl _)
  alert d h := inv_alert h
  close i d h ho := by
    have hc : Inv (closed d) :=
      h.same (shape_closed h.shape ho) (fun a hopen => by cases hopen) (sameWrite_refl _)
    rw [dialogExit_eq]
    split
    · rename_i a hd
      exact inv_confirmed a _ hc rfl (h.shown a ho hd)
    · exact hc
  exit i d h ho hc := by
    have hl : Inv (left d) := h.same (shape_left h.shape ho hc) (fun _ hopen hdone => ⟨hopen,hdone⟩)
      (sameWrite_refl _)
    obtain ⟨a,ha⟩ := Option.isSome_iff_exists.mp hc
    rw [onAppScreenExit_eq i ha]
    have hj := inv_join i hl
    exact hj.update (shape_same hj.shape rfl rfl rfl) (fun _ hopen hdone => ⟨hopen,hdone⟩) rfl rfl
      (carries_stop hj.service) hj.taken
  launch i a d h ho hc := by
    have hs := shape_launched appNfc i a h.shape ho hc
    rcases launch_shape appNfc i a h.shape ho hc with he | he
    · rw [he] at hs ⊢
      exact h.update hs (fun _ hopen hdone => ⟨hopen,hdone⟩) rfl rfl (carries_start h.service)
        h.service.snap
    · rw [he] at hs ⊢
      exact h.update hs (fun _ hopen hdone => ⟨hopen,hdone⟩) rfl rfl (carries_start h.service)
        h.service.snap
  last d st h := h.beside rfl rfl rfl (sameWrite_refl _)

theorem inv_nfcsaveRequest (h : Inv d) : Inv (nfcsaveRequest d) := by
  unfold nfcsaveRequest
  split
  · exact h
  split
  · exact h
  have hc := carries_requestDump (some 0) h.service
  obtain ⟨p,he⟩ : ∃ p, starkNfcRequestDump d.state.service (some 0) = p := ⟨_,rfl⟩
  obtain ⟨err,service⟩ := p
  rw [he] at hc ⊢
  dsimp only at hc ⊢
  split <;> exact h.update (shape_same h.shape rfl rfl rfl) (fun _ hopen hdone => ⟨hopen,hdone⟩)
    rfl rfl hc h.taken

theorem inv_nfcsaveEvent (what : StarkNfcEvt) (h : Inv d) : Inv (nfcsaveEvent what d) := by
  unfold nfcsaveEvent
  split
  · exact h
  split
  · exact inv_setBusy false h
  · rcases workerStart_cases NfcSave.SaveWorker.saving d with ⟨he,-⟩ | ⟨e,he⟩
    · rw [he]
      exact h.beside rfl rfl rfl (sameWrite_refl _)
    · rw [he]
      dsimp only
      rw [if_pos e.ne_ok]
      exact inv_setBusy false h
  · exact h

theorem inv_activate (i : Input) (h : Inv d) (hopen : d.dialog.isOpen = false) : Inv (activate i d) := by
  unfold activate
  split
  · exact inv_askWrite i h hopen
  · split
    · exact inv_show .write h
    split
    · exact inv_nfcsaveRequest h
    · exact h

theorem inv_menuEvent (i : Input) (e : UiEvent StarkNfcEvt) (h : Inv d)
    (hopen : d.dialog.isOpen = false) : Inv (menuEvent i e d).2 := by
  unfold menuEvent
  split
  · exact h
  · dsimp only
    split
    · exact inv_activate i h hopen
    · exact h
  · exact h
  · exact h

theorem inv_nfcEvent (i : Input) (e : UiEvent StarkNfcEvt) (h : Inv d)
    (hopen : d.dialog.isOpen = false) : Inv (nfcEvent i e d).2 := by
  unfold nfcEvent
  split
  · rename_i what
    have hr := inv_refresh (inv_nfcsaveEvent what h)
    dsimp only
    split
    · exact inv_show .view hr
    · exact hr
  · split
    · exact inv_show .view h
    · exact h
  · exact inv_menuEvent i _ h hopen

variable (cap : ℕ)

theorem inv_publish (e : UiEvent StarkNfcEvt) (h : Inv d) : Inv (starkEventPublish cap e d) :=
  h.beside rfl rfl rfl (sameWrite_refl _)

theorem inv_announce {service : State σ} (h : Inv d) (hc : Carries d.state.accepted service) :
    Inv (announce cap service d) := by
  have hd : Inv { d with state := { d.state with service := service } } :=
    h.update (shape_same h.shape rfl rfl rfl) (fun _ hopen hdone => ⟨hopen,hdone⟩) rfl rfl hc h.taken
  unfold announce
  generalize { d with state := { d.state with service := service } } = u at hd
  generalize service.reader.published.drop d.state.service.reader.published.length = events
  induction events generalizing u with
  | nil => exact hd
  | cons what events ih => exact ih _ (inv_publish cap (.other what) hd)

theorem step_inv (l : NfcWriteApp.Label σ) {t : Phone σ} (h : Inv d)
    (hs : step dev cap d l = some t) : Inv t := by
  cases l with
  | key k a =>
    obtain rfl := Option.some.inj hs
    exact inv_publish cap _ h
  | card st =>
    obtain rfl := Option.some.inj hs
    exact inv_publish cap _ (h.beside rfl rfl rfl (sameWrite_refl _))
  | fail g =>
    obtain rfl := Option.some.inj hs
    exact inv_publish cap _ h
  | device v =>
    obtain rfl := Option.some.inj hs
    exact inv_announce cap h (h.service.same (grows_refl rfl) (tells_same rfl rfl) rfl)
  | task now answered =>
    obtain ⟨s,hstep,rfl⟩ := Option.map_eq_some_iff.mp hs
    exact inv_announce cap h (carries_taskStep h.service (task_cases hstep))
  | work =>
    simp only [NfcWriteApp.step] at hs
    split at hs
    · obtain rfl := Option.some.inj hs
      exact (inv_setBusy false h).beside rfl rfl rfl (sameWrite_refl _)
    · obtain rfl := Option.some.inj hs
      exact h.beside rfl rfl rfl (sameWrite_refl _)
    · cases hs
  | dispatch i =>
    simp only [NfcWriteApp.step] at hs
    split at hs
    · cases hs
    · rename_i e rest hq
      obtain rfl := Option.some.inj hs
      have hd : Inv { d with queue := rest } := h.beside rfl rfl rfl (sameWrite_refl _)
      exact deliver_keeps keeps i e hd fun a ho _ => inv_nfcEvent i e hd ho

theorem inv_booted {s : State σ} (h : Carries [] s) : Inv (booted s) where
  shape := rfl
  service := h
  taken _ hr := by cases hr
  shown _ ho := by cases ho
  accepted := List.forall_mem_nil _

/-- Each accepted write was confirmed in a dialog that shows in full what it says: the UID of the tag,
the record and its length. It says that of one write only. Nothing else is written to a tag, and each
accepted write is still pending or has ended once. -/
structure Confirmed (d : Phone σ) : Prop where
  said : ∀ x ∈ d.state.accepted, Says x.shown x.uid x.msg
  seen : ∀ x ∈ d.state.accepted, ∀ (glyphs16 glyphs10 : ℕ → UInt8) (last : DialogView),
    last.title.length = uiDialogTitleMax → last.message.length = uiDialogMsgMax →
      let v := openView glyphs16 glyphs10 last false x.shown.title (some x.shown.message)
      cString v.title = x.shown.title ∧ cString v.message = x.shown.message ∧
        ∃ ls, Wrapped (gfxFontMono16 glyphs16) x.shown.message 264 0 ls ∧ Placed ls.length v.lay
  told : ∀ x ∈ d.state.accepted, ∀ y ∈ d.state.accepted, x.shown = y.shown →
    x.uid = y.uid ∧ x.msg = y.msg
  written : ∀ before e after p data, d.state.service.reader.log = before++e::after →
    IsWrite e p data → Asked d.state.accepted before p data
  once : d.state.service.reader.published.countP writeOver+d.state.service.write.toList.length =
    d.state.accepted.length

theorem Inv.confirmed (h : Inv d) : Confirmed d where
  said x hx := (h.accepted x hx).1
  seen x hx glyphs16 glyphs10 last hlast hlast' :=
    says_whole (h.accepted x hx).1 (h.accepted x hx).2 glyphs16 glyphs10 last hlast hlast'
  told x hx y hy hsame := says_once (h.accepted x hx).1 (hsame ▸ (h.accepted y hy).1)
  written := h.service.written
  once := h.service.once

end

def input (launch : Bool) (row : ℕ) : Input := ⟨launch,row,⟨List.replicate whatSize 0xFF,rfl⟩,true⟩

def writing (row : ℕ) : List (NfcWriteApp.Label Type2Tag.Tag) :=
  [.key .ok .short,.dispatch (input true 0)]++List.replicate 6 (.task 0 true)++
    [.dispatch (input false 0),.key .ok .short,.dispatch (input false row),
      .key .ok .short,.dispatch (input false 0),.key .ok .press,.dispatch (input false 0),
      .key .ok .short,.dispatch (input false 0)]++List.replicate 5 (.task 0 true)

end StarkOne.NfcConfirmed
