import StarkOne.NfcSave

/-!
# The busy flag of the NFC app

The flag is set with a request and cleared by the app or its worker when the
request is answered. An answer that the app does not see, because a dialog is
over it, leaves the flag set with nobody to clear it.
-/

set_option autoImplicit false

namespace StarkOne.NfcBusy
open StarkOne.Machine StarkOne.UiStack StarkOne.UiShape StarkOne.NfcSave

/-- Once the latest request is answered, the app is free or its worker saves. -/
def NotStuck (d : Phone) : Prop :=
  d.state.accepted ∈ d.state.answered → d.state.busy = false ∨ d.worker = .running .saving

instance (d : Phone) : Decidable (NotStuck d) := inferInstanceAs (Decidable (_ → _))

/-- The answer to the latest request, when the busy app has no worker that saves,
finds the app's screen on top. -/
def Seen (d : Phone) : Label → Prop
  | .dispatch _ => ∀ e ∈ d.queue.head?, completes e = some d.state.accepted →
      d.state.busy = true → d.worker ≠ .running .saving → d.stack.head? = some (.app .nfc)
  | _ => True

instance (d : Phone) : (l : Label) → Decidable (Seen d l)
  | .dispatch _ => inferInstanceAs (Decidable (∀ e ∈ d.queue.head?, _))
  | .key _ _ | .card _ | .fail _ | .nfc _ | .complete _ | .work => isTrue trivial

structure Numbered (s : NfcApp) (queue : List (UiEvent NfcEvent)) : Prop where
  answered : ∀ n ∈ s.answered, n ≤ s.accepted
  queued : ∀ e ∈ queue, ∀ n, completes e = some n → n ≤ s.accepted
  pending : ∀ n, s.pending = some n → n ≤ s.accepted

structure Inv (d : Phone) : Prop where
  shape : Shape d
  gone : d.current = none → d.state.busy = false ∧ d.worker ≠ .running .saving
  live : NotStuck d
  numbered : Numbered d.state d.queue

structure SameDump (s t : NfcApp) : Prop where
  busy : t.busy = s.busy
  pending : t.pending = s.pending
  accepted : t.accepted = s.accepted
  answered : t.answered = s.answered

variable {d d' : Phone}

theorem Inv.same (h : Inv d) (hd : Shape d') (hc : d'.current = none → d.current = none)
    (hw : d'.worker = d.worker) (hq : d'.queue = d.queue) (hs : SameDump d.state d'.state) :
    Inv d' where
  shape := hd
  gone hn := by
    rw [hs.busy, hw]
    exact h.gone (hc hn)
  live := by
    unfold NotStuck
    rw [hs.busy, hw, hs.accepted, hs.answered]
    exact h.live
  numbered := by
    obtain ⟨ha,hqd,hp⟩ := h.numbered
    exact ⟨by rw [hs.accepted, hs.answered]; exact ha,by rw [hs.accepted, hq]; exact hqd,
      by rw [hs.accepted, hs.pending]; exact hp⟩

theorem sameDump_refl (s : NfcApp) : SameDump s s := ⟨rfl,rfl,rfl,rfl⟩

theorem Inv.free (hd : Shape d') (hb : d'.state.busy = false)
    (hw : d'.current = none → d'.worker ≠ .running .saving) (hn : Numbered d'.state d'.queue) :
    Inv d' where
  shape := hd
  gone hc := ⟨hb,hw hc⟩
  live _ := Or.inl hb
  numbered := hn

theorem inv_openDialog (h : Inv d) (alert : Bool) (done : Option Confirm) :
    Inv (openDialog alert done d).2 := by
  have hs := shape_openDialog alert done h.shape
  rcases openDialog_shape alert done h.shape with ⟨he,-⟩ | ⟨-,he⟩
  · rw [he]
    exact h
  · rw [he] at hs ⊢
    exact h.same hs id rfl rfl (sameDump_refl _)

theorem inv_setMode (h : Inv d) (m : Mode) : Inv (setMode m d) :=
  h.same (shape_same h.shape rfl rfl rfl) id rfl rfl ⟨rfl,rfl,rfl,rfl⟩

theorem join_same (i : Input) (d : Phone) :
    let j := appWorkerJoin appNfc i d
    j.stack = d.stack ∧ j.dialog = d.dialog ∧ j.current = d.current ∧ j.queue = d.queue ∧
      j.worker ≠ .running .saving ∧ j.state.pending = d.state.pending ∧
      j.state.accepted = d.state.accepted ∧ j.state.answered = d.state.answered := by
  unfold appWorkerJoin
  cases hw : d.worker with
  | none => simp [hw]
  | returned => simp
  | running w => cases he : i.ends <;> simp [appNfc, setBusy, he]

theorem keeps : Keeps appNfc Inv where
  shape _ h := h.shape
  keys d dl h ho hd := h.same (by
    unfold Shape overlayOf
    rw [ho]
    exact h.shape) id rfl rfl (sameDump_refl _)
  alert d h := inv_openDialog h true none
  close i d h ho := by
    have hc : Inv (closed d) :=
      h.same (shape_closed h.shape ho) id rfl rfl (sameDump_refl _)
    rw [dialogExit_eq]
    split
    · exact hc
    · exact hc
  exit i d h ho hc := by
    obtain ⟨a,ha⟩ := Option.isSome_iff_exists.mp hc
    obtain ⟨hs,hd,hcur,hq,hw,hp,hacc,hans⟩ := join_same i (left d)
    rw [onAppScreenExit_eq i ha]
    refine Inv.free (shape_same (shape_left h.shape ho hc) hs hd hcur) rfl (fun _ => hw) ?_
    obtain ⟨h₁,h₂,h₃⟩ := h.numbered
    refine ⟨?_,?_,?_⟩
    · change ∀ n ∈ (appWorkerJoin appNfc i (left d)).state.answered,
        n ≤ (appWorkerJoin appNfc i (left d)).state.accepted
      rw [hacc, hans]
      exact h₁
    · change ∀ e ∈ (appWorkerJoin appNfc i (left d)).queue, ∀ n, completes e = some n →
        n ≤ (appWorkerJoin appNfc i (left d)).state.accepted
      rw [hacc, hq]
      exact h₂
    · change ∀ n, (appWorkerJoin appNfc i (left d)).state.pending = some n →
        n ≤ (appWorkerJoin appNfc i (left d)).state.accepted
      rw [hacc, hp]
      exact h₃
  launch i a d h ho hc := by
    have hs := shape_launched appNfc i a h.shape ho hc
    rcases launch_shape appNfc i a h.shape ho hc with he | he
    · rw [he] at hs ⊢
      exact h.same hs id rfl rfl ⟨rfl,rfl,rfl,rfl⟩
    · rw [he] at hs ⊢
      exact h.same hs (fun hn => by cases hn) rfl rfl ⟨rfl,rfl,rfl,rfl⟩
  last d st h := h.same (shape_same h.shape rfl rfl rfl) id rfl rfl (sameDump_refl _)

theorem inv_request (h : Inv d) (i : Input) (hc : d.current ≠ none) :
    Inv (nfcsaveRequest i d) := by
  obtain ⟨ha,hq,hp⟩ := h.numbered
  unfold nfcsaveRequest
  split
  · exact h
  split
  · exact h
  unfold requestDump
  cases hr : i.refusal with
  | some e =>
    dsimp only
    rw [if_pos e.ne_ok]
    exact h
  | none =>
    cases hpend : d.state.pending with
    | some n => exact h
    | none =>
      refine ⟨shape_same h.shape rfl rfl rfl,fun hn => absurd hn hc,fun hm => ?_,fun n hn => ?_,
        fun e he n hn => ?_,fun n hn => ?_⟩
      · exact absurd (ha _ hm) (Nat.not_succ_le_self _)
      · exact Nat.le_succ_of_le (ha n hn)
      · exact Nat.le_succ_of_le (hq e he n hn)
      · exact (Option.some.inj hn).ge

theorem inv_activate (h : Inv d) (i : Input) (hc : d.current ≠ none) : Inv (activate i d) := by
  unfold activate
  split
  · split
    · exact inv_openDialog h false (some .write)
    · exact h
  · exact inv_setMode h .write
  · exact inv_request h i hc
  · exact h

theorem inv_menuEvent (h : Inv d) (i : Input) (e : UiEvent NfcEvent) (hc : d.current ≠ none) :
    Inv (menuEvent i e d).2 := by
  unfold menuEvent
  split
  · exact h
  · exact inv_activate h i hc
  · exact h
  · exact h

theorem inv_nfcEvent (h : Inv d) (i : Input) (e : UiEvent NfcEvent) (hc : d.current ≠ none)
    (he : completes e = none) : Inv (nfcEvent i e d).2 := by
  unfold nfcEvent
  split
  · rename_i ev
    have hev : nfcsaveEvent ev d = d := by
      unfold nfcsaveEvent
      obtain ⟨what,n⟩ := ev
      cases what <;> first | rfl | exact ite_self _ | cases he
    rw [hev]
    dsimp only
    split
    · exact inv_setMode h .view
    · exact h
  · split
    · exact inv_setMode h .view
    · exact h
  · exact inv_menuEvent h i _ hc

theorem answer_seen (h : Inv d) (e : NfcEvent) (hc : d.current ≠ none)
    (he : unrelated e.what = false) :
    let s := nfcsaveEvent e d
    Inv s ∧ s.queue = d.queue ∧ s.state.accepted = d.state.accepted ∧
      s.state.answered = d.state.answered ∧
      (s.state.busy = false ∨ s.worker = .running .saving) := by
  have hfree : Inv (setBusy false d) :=
    Inv.free (shape_same h.shape rfl rfl rfl) rfl (fun hn => absurd hn hc)
      ⟨h.numbered.answered,h.numbered.queued,h.numbered.pending⟩
  unfold nfcsaveEvent
  by_cases hb : d.state.busy = true
  swap
  · rw [if_pos (by simpa using hb)]
    exact ⟨h,rfl,rfl,rfl,Or.inl (Bool.eq_false_iff.mpr hb)⟩
  rw [if_neg (by simpa using hb)]
  obtain ⟨what,n⟩ := e
  cases what with
  | dumpFailed => exact ⟨hfree,rfl,rfl,rfl,Or.inl rfl⟩
  | dumpDone =>
    dsimp only
    cases hcur : d.current with
    | none => exact absurd hcur hc
    | some a =>
      cases hw : d.worker with
      | running w =>
        have hs : starkAppWorkerStart .saving d = (.busy,d) := by
          simp [starkAppWorkerStart, hcur, hw]
        rw [hs]
        exact ⟨hfree,rfl,rfl,rfl,Or.inl rfl⟩
      | none =>
        have hs : starkAppWorkerStart .saving d = (.ok,{ d with worker := .running .saving }) := by
          simp [starkAppWorkerStart, hcur, hw]
        rw [hs]
        exact ⟨⟨h.shape,fun hn => absurd hn hc,fun _ => Or.inr rfl,h.numbered⟩,rfl,rfl,rfl,Or.inr rfl⟩
      | returned =>
        have hs : starkAppWorkerStart .saving d = (.ok,{ d with worker := .running .saving }) := by
          simp [starkAppWorkerStart, hcur, hw]
        rw [hs]
        exact ⟨⟨h.shape,fun hn => absurd hn hc,fun _ => Or.inr rfl,h.numbered⟩,rfl,rfl,rfl,Or.inr rfl⟩
  | tag => cases he
  | left => cases he
  | module => cases he
  | writeDone => cases he
  | writeFailed => cases he

theorem inv_note (h : Inv d) (n : ℕ) (hn : n ≤ d.state.accepted)
    (hl : n = d.state.accepted → d.state.busy = false ∨ d.worker = .running .saving) :
    Inv { d with state := { d.state with answered := n::d.state.answered } } := by
  refine ⟨shape_same h.shape rfl rfl rfl,h.gone,fun hm => ?_,fun m hm => ?_,h.numbered.queued,
    h.numbered.pending⟩
  · rcases List.mem_cons.mp hm with he | hm
    · exact hl he.symm
    · exact h.live hm
  · rcases List.mem_cons.mp hm with rfl | hm
    · exact hn
    · exact h.numbered.answered m hm

theorem inv_take (h : Inv d) {e : UiEvent NfcEvent} {rest : List (UiEvent NfcEvent)}
    (hq : d.queue = e::rest) : Inv { d with queue := rest } :=
  ⟨shape_same h.shape rfl rfl rfl,h.gone,h.live,h.numbered.answered,
    fun x hx => h.numbered.queued x (hq ▸ List.mem_cons_of_mem e hx),h.numbered.pending⟩

def OnTop (d : Phone) : Prop := d.dialog.isOpen = false ∧ d.current ≠ none

theorem onTop_iff (h : Shape d) : OnTop d ↔ d.stack.head? = some (.app .nfc) := by
  rcases shape_top h with ⟨ho,hd⟩ | ⟨ho,a,hc,hd⟩ | ⟨ho,hc,hd⟩ <;> simp [OnTop, ho, hd]
  · simp [hc]
  · simp [hc]

theorem deliver_seen (h : Shape d) (i : Input) (e : NfcEvent) (ht : OnTop d) :
    deliver appNfc i (.other e) d = (nfcEvent i (.other e) d).2 := by
  rw [deliver_other i e h, ht.1]
  cases hc : d.current with
  | none => exact absurd hc ht.2
  | some a => rfl

theorem deliver_unseen (h : Shape d) (i : Input) (e : NfcEvent) (ht : ¬OnTop d) :
    deliver appNfc i (.other e) d = d := by
  rw [deliver_other i e h]
  cases ho : d.dialog.isOpen with
  | true => rfl
  | false =>
    cases hc : d.current with
    | none => rfl
    | some a => exact absurd ⟨ho,by simp [hc]⟩ ht

theorem inv_dispatch (h : Inv d) (i : Input) {e : UiEvent NfcEvent}
    {rest : List (UiEvent NfcEvent)} (hq : d.queue = e::rest) (hg : Seen d (.dispatch i)) :
    Inv (note e (deliver appNfc i e { d with queue := rest })) := by
  have ht := inv_take h hq
  cases hcomp : completes e with
  | none =>
    rw [show note e (deliver appNfc i e { d with queue := rest }) =
      deliver appNfc i e { d with queue := rest } by simp [note, hcomp]]
    refine deliver_keeps keeps i e ht (fun a _ hc => ?_)
    exact inv_nfcEvent ht i e (by rw [hc]; exact Option.some_ne_none a) hcomp
  | some n =>
    have hn := h.numbered.queued e (by rw [hq]; exact List.mem_cons_self) n hcomp
    obtain ⟨ev,rfl,hun⟩ : ∃ ev, e = .other ev ∧ unrelated ev.what = false := by
      cases e with
      | other ev =>
        refine ⟨ev,rfl,Bool.eq_false_iff.mpr (fun hu => ?_)⟩
        simp [completes, hu] at hcomp
      | key k a => cases hcomp
      | storage st => cases hcomp
      | appFail g => cases hcomp
    simp only [note, hcomp]
    by_cases htop : OnTop { d with queue := rest }
    · rw [deliver_seen ht.shape i ev htop]
      obtain ⟨hs,-,hacc,-,hlive⟩ := answer_seen ht ev htop.2 hun
      have hall : ∀ m, Inv (setMode m (nfcsaveEvent ev { d with queue := rest })) :=
        fun m => inv_setMode hs m
      unfold nfcEvent
      dsimp only
      split
      · exact inv_note (hall .view) n (hacc ▸ hn) (fun _ => hlive)
      · exact inv_note hs n (hacc ▸ hn) (fun _ => hlive)
    · rw [deliver_unseen ht.shape i ev htop]
      refine inv_note ht n hn (fun he => ?_)
      by_contra hstuck
      obtain ⟨hb,hw⟩ := not_or.mp hstuck
      have hseen := hg (.other ev) (by rw [hq]; rfl) (by rw [hcomp, he])
        (by simpa using hb) hw
      exact htop ((onTop_iff ht.shape).mpr hseen)

theorem stuck_dispatch (h : Inv d) (i : Input) {e : UiEvent NfcEvent}
    {rest : List (UiEvent NfcEvent)} (hq : d.queue = e::rest) (hg : ¬Seen d (.dispatch i)) :
    ¬NotStuck (note e (deliver appNfc i e { d with queue := rest })) := by
  simp only [Seen, hq, List.head?_cons, Option.mem_def, Option.some.injEq, forall_eq',
    Classical.not_imp] at hg
  obtain ⟨hcomp,hb,hw,ht⟩ := hg
  have hs := (inv_take h hq).shape
  cases e with
  | other ev =>
    rw [deliver_unseen hs i ev (fun hn => ht ((onTop_iff hs).mp hn))]
    simp only [note, hcomp]
    intro hlive
    rcases hlive List.mem_cons_self with hf | hf
    · exact Bool.noConfusion (hb.symm.trans hf)
    · exact hw hf
  | key k a => cases hcomp
  | storage st => cases hcomp
  | appFail g => cases hcomp

theorem inv_publish (cap : ℕ) (h : Inv d) (e : UiEvent NfcEvent)
    (he : ∀ n, completes e = some n → n ≤ d.state.accepted) : Inv (starkEventPublish cap e d) := by
  refine ⟨shape_same h.shape rfl rfl rfl,h.gone,h.live,h.numbered.answered,fun x hx => ?_,
    h.numbered.pending⟩
  rcases mem_publish hx with hx | rfl
  · exact h.numbered.queued x hx
  · exact he

theorem inv_work (h : Inv d) {t : Phone} (cap : ℕ) (hs : step cap d .work = some t) : Inv t := by
  simp only [step] at hs
  split at hs
  · rename_i hw
    obtain rfl := Option.some.inj hs
    exact Inv.free (shape_same h.shape rfl rfl rfl) rfl (fun _ hw => by cases hw)
      ⟨h.numbered.answered,h.numbered.queued,h.numbered.pending⟩
  · rename_i hw
    obtain rfl := Option.some.inj hs
    refine ⟨shape_same h.shape rfl rfl rfl,fun hc => ⟨(h.gone hc).1,fun hw => (by cases hw)⟩,
      fun hm => ?_,h.numbered⟩
    rcases h.live hm with hb | hr
    · exact Or.inl hb
    · rw [hw] at hr
      cases hr
  · cases hs

theorem step_inv (cap : ℕ) (l : Label) {t : Phone} (h : Inv d) (hg : Seen d l)
    (hs : step cap d l = some t) : Inv t := by
  cases l with
  | key k a => exact Option.some.inj hs ▸ inv_publish cap h _ (fun n hn => by cases hn)
  | card st =>
    obtain rfl := Option.some.inj hs
    have hd : Inv { d with storage := st } :=
      h.same (shape_same h.shape rfl rfl rfl) id rfl rfl (sameDump_refl _)
    exact inv_publish cap hd _ (fun n hn => by cases hn)
  | fail g => exact Option.some.inj hs ▸ inv_publish cap h _ (fun n hn => by cases hn)
  | nfc what =>
    simp only [step] at hs
    split at hs
    · rename_i hu
      obtain rfl := Option.some.inj hs
      exact inv_publish cap h _ (fun n hn => by simp [completes, hu] at hn)
    · cases hs
  | complete ok =>
    simp only [step] at hs
    split at hs
    · rename_i n hp
      obtain rfl := Option.some.inj hs
      have hd : Inv { d with state := { d.state with pending := none } } :=
        ⟨shape_same h.shape rfl rfl rfl,h.gone,h.live,h.numbered.answered,h.numbered.queued,
          fun m hm => (by cases hm)⟩
      refine inv_publish cap hd _ (fun m hm => ?_)
      have hmn : m = n := by
        cases ok <;> simpa [completes, unrelated] using hm.symm
      exact hmn ▸ h.numbered.pending n hp
    · cases hs
  | work => exact inv_work h cap hs
  | dispatch i =>
    simp only [step] at hs
    split at hs
    · cases hs
    · rename_i e rest hq
      exact Option.some.inj hs ▸ inv_dispatch h i hq hg

theorem inv_booted : Inv booted where
  shape := rfl
  gone _ := ⟨rfl,fun hw => (by cases hw)⟩
  live hm := absurd hm List.not_mem_nil
  numbered := ⟨fun _ hn => absurd hn List.not_mem_nil,fun _ he => absurd he List.not_mem_nil,
    fun _ hn => (by cases hn)⟩

/-- The app is never stuck exactly when it sees each answer that it still needs. -/
theorem nfc_dump_busy_iff (cap : ℕ) (ls : List Label) (t : Phone)
    (h : Run (step cap) Free booted ls t) :
    (∀ before after d, ls = before++after → Run (step cap) Free booted before d → NotStuck d) ↔
      Run (step cap) Seen booted ls t := by
  refine run_guard_exact Inv NotStuck (fun d l t hi hg hs => step_inv cap l hi hg hs)
    (fun d hi => hi.live) (fun d l t hi hg hs => ?_) ls inv_booted h
  cases l with
  | dispatch i =>
    simp only [step] at hs
    split at hs
    · cases hs
    · rename_i e rest hq
      exact Option.some.inj hs ▸ stuck_dispatch hi i hq hg
  | key k a => exact absurd trivial hg
  | card st => exact absurd trivial hg
  | fail g => exact absurd trivial hg
  | nfc what => exact absurd trivial hg
  | complete ok => exact absurd trivial hg
  | work => exact absurd trivial hg

def still : Input := ⟨false,.other,false,none,false⟩

def requested : List Label :=
  [.card .mounted,.dispatch still,.key .ok .short,.dispatch { still with launch := true },
    .key .ok .short,.dispatch { still with row := .save }]

def saved : List Label :=
  requested++[.complete true,.dispatch still,.work,.work,.key .down .press,.dispatch still]

theorem nfc_dump_saved :
    ∃ t, Run (step 16) Seen booted saved t ∧ t.state.accepted = 1 ∧
      ∀ before after d, saved = before++after → Run (step 16) Free booted before d → NotStuck d := by
  obtain ⟨t,ht,ha⟩ := run_witness (step 16) (G := Seen)
    (p := fun t => t.state.accepted = 1) (s := booted) saved (by decide) (by decide)
  exact ⟨t,ht,ha,(nfc_dump_busy_iff 16 saved t (run_weaken (fun _ _ _ => trivial) saved ht)).mpr ht⟩

/-- The card is pulled while the tag is read: the alert hides the app from the end
of the dump, and its flag stays set when the alert is closed. -/
def pulled : List Label :=
  requested++[.card .removed,.dispatch still,.complete true,.dispatch still,.key .ok .press,
    .dispatch still,.key .ok .short,.dispatch still]

theorem nfc_dump_stuck :
    ¬∀ (cap : ℕ) (ls : List Label) (t : Phone), Run (step cap) Free booted ls t → NotStuck t := by
  intro h
  obtain ⟨t,ht,hn⟩ := run_witness (step 16) (G := Free)
    (p := fun t => ¬NotStuck t ∧ t.stack = [.app .nfc,.launcher]) (s := booted) pulled (by decide)
    (by decide)
  exact hn.1 (h 16 pulled t ht)

end StarkOne.NfcBusy
