import Mathlib.Data.List.Nodup
import StarkOne.EventBus

/-!
# Conservation and delivery of events

The invariant has three parts, each about its own components of the state: the
ring against the waiting events, the calls against the frame that runs, and
the handler calls against the taken events. The dispatch keeps to old events
because the ring always holds the most recent ones, so what is newer than the
call is a number of events at the end of the ring.
-/

set_option autoImplicit false

namespace StarkOne.EventDelivery
open StarkOne.RingQueue StarkOne.EventCore StarkOne.EventBus StarkOne.Machine

structure Queued (ring : RingBuffer StarkEvent) (stats : StarkEventStats)
    (accepted : List StarkEvent) (waiting : List ℕ) (dropped : List Drop)
    (taken : List Taken) (gone : ℕ) : Prop where
  total : accepted.length = gone+waiting.length
  split : gone = taken.length+dropped.length
  recent : waiting = List.range' gone waiting.length
  content : (toList ring).map some = waiting.map (fun i => accepted[i]?)
  taken_ids : taken.map Taken.id =
    (List.range gone).filter (fun i => i ∉ dropped.map Drop.id)
  dropped_lt : ∀ i ∈ dropped.map Drop.id, i < gone
  dropped_nodup : (dropped.map Drop.id).Nodup
  dropped_oldest : ∀ d ∈ dropped, d.queue.length = ring.capacity ∧ d.queue.head? = some d.id
  taken_event : ∀ t ∈ taken, accepted[t.id]? = some t.event
  published : stats.published = u32 accepted.length
  droppedStat : stats.dropped = u32 dropped.length

theorem Queued.count_eq {ring : RingBuffer StarkEvent} {stats : StarkEventStats}
    {accepted : List StarkEvent} {waiting : List ℕ} {dropped : List Drop}
    {taken : List Taken} {gone : ℕ}
    (h : Queued ring stats accepted waiting dropped taken gone) :
    ring.count = waiting.length := by
  simpa using congrArg List.length h.content

theorem getElem?_append_some {α : Type*} (l m : List α) (i : ℕ) (a : α)
    (h : l[i]? = some a) : (l++m)[i]? = some a := by
  rw [List.getElem?_append_left (List.getElem?_eq_some_iff.mp h).1, h]

theorem getElem?_concat_cases {α : Type*} {l : List α} {a b : α} {i : ℕ}
    (h : (l++[a])[i]? = some b) : l[i]? = some b ∨ i = l.length ∧ a = b := by
  rcases Nat.lt_trichotomy i l.length with hi | hi | hi
  · exact Or.inl (by rwa [List.getElem?_append_left hi] at h)
  · subst hi
    exact Or.inr ⟨rfl,by simpa using h⟩
  · rw [List.getElem?_eq_none (by simp; omega)] at h
    exact absurd h (by simp)

theorem waiting_content (accepted : List StarkEvent) (e : StarkEvent) (waiting : List ℕ)
    (h : ∀ i ∈ waiting, i < accepted.length) :
    waiting.map (fun i => (accepted++[e])[i]?) = waiting.map (fun i => accepted[i]?) := by
  apply List.map_congr_left
  intro i hi
  exact List.getElem?_append_left (h i hi)

section
variable {ring : RingBuffer StarkEvent} {stats : StarkEventStats} {accepted : List StarkEvent}
  {waiting : List ℕ} {dropped : List Drop} {taken : List Taken} {gone : ℕ}

theorem Queued.waiting_lt (h : Queued ring stats accepted waiting dropped taken gone) :
    ∀ i ∈ waiting, i < accepted.length := by
  intro i hi
  rw [h.recent] at hi
  have := (List.mem_range'_1.mp hi).2
  have := h.total
  omega

theorem Queued.waiting_cons (h : Queued ring stats accepted waiting dropped taken gone)
    (hc : 0 < ring.count) :
    waiting = gone :: List.range' (gone+1) (waiting.length-1) := by
  obtain ⟨k,hk⟩ := Nat.exists_eq_add_of_lt (h.count_eq ▸ hc)
  have hr := h.recent
  rw [show waiting.length = (waiting.length-1)+1 by omega, List.range'_succ] at hr
  exact hr

theorem Queued.waiting_take (h : Queued ring stats accepted waiting dropped taken gone)
    (hc : 0 < ring.count) : waiting.take 1 = [gone] := by
  rw [h.waiting_cons hc]
  rfl

theorem filter_range_succ (p : ℕ → Bool) (n : ℕ) :
    (List.range (n+1)).filter p = (List.range n).filter p ++ (if p n then [n] else []) := by
  rw [List.range_succ, List.filter_append]
  by_cases hp : p n = true <;> simp [hp]

theorem Queued.push (h : Queued ring stats accepted waiting dropped taken gone)
    (e : StarkEvent) (maxDepth : ℕ) (hfull : ring.count ≠ ring.capacity) :
    Queued (pushRing ring e) ⟨u32 (stats.published+1),stats.dropped,maxDepth⟩ (accepted++[e])
      (waiting++[accepted.length]) dropped taken gone where
  total := by simp [h.total]; omega
  split := h.split
  recent := by
    rw [List.length_append, List.length_singleton, List.range'_concat, ← h.recent, h.total]
    simp
  content := by
    rw [toList_pushRing, if_neg hfull, List.map_append, List.map_append, h.content,
      waiting_content accepted e waiting h.waiting_lt]
    simp
  taken_ids := h.taken_ids
  dropped_lt := h.dropped_lt
  dropped_nodup := h.dropped_nodup
  dropped_oldest := by rw [pushRing_capacity]; exact h.dropped_oldest
  taken_event := fun t ht => getElem?_append_some _ _ _ _ (h.taken_event t ht)
  published := by simp [h.published, u32_add_one]
  droppedStat := h.droppedStat

theorem Queued.overflow (h : Queued ring stats accepted waiting dropped taken gone)
    (e : StarkEvent) (maxDepth : ℕ) (hfull : ring.count = ring.capacity) :
    Queued (pushRing ring e) ⟨u32 (stats.published+1),u32 (stats.dropped+1),maxDepth⟩
      (accepted++[e]) (waiting.tail++[accepted.length]) (dropped++[⟨gone,waiting⟩])
      taken (gone+1) := by
  have hpos : 0 < ring.count := hfull ▸ Nat.zero_lt_of_lt ring.head_lt
  have hw := h.waiting_cons hpos
  have hk : 0 < waiting.length := h.count_eq ▸ hpos
  have hnew : gone ∉ dropped.map Drop.id := fun hi => (h.dropped_lt gone hi).false
  have htail : ∀ i ∈ waiting.tail, i < accepted.length :=
    fun i hi => h.waiting_lt i (List.mem_of_mem_tail hi)
  exact
    { total := by simp [h.total]; omega
      split := by simp [h.split]; omega
      recent := by
        have ht : waiting.tail = List.range' (gone+1) (waiting.length-1) := by
          rw [hw]; simp
        rw [List.length_append, List.length_singleton, List.range'_concat, List.length_tail,
          ← ht, h.total]
        congr 2
        omega
      content := by
        rw [toList_pushRing, if_pos hfull, List.map_append, List.map_append,
          waiting_content accepted e waiting.tail htail, List.map_tail, List.map_tail, h.content]
        simp
      taken_ids := by
        rw [h.taken_ids, filter_range_succ]
        simp only [List.map_append, List.map_cons, List.map_nil]
        rw [if_neg (by simp), List.append_nil]
        apply List.filter_congr
        intro i hi
        have hlt : i < gone := List.mem_range.mp hi
        simp [hlt.ne]
      dropped_lt := by
        intro i hi
        rw [List.map_append, List.mem_append] at hi
        rcases hi with hi | hi
        · exact Nat.lt_succ_of_lt (h.dropped_lt i hi)
        · simp at hi; omega
      dropped_nodup := by
        rw [List.map_append]
        exact List.nodup_append.mpr ⟨h.dropped_nodup,by simp,by
          intro a ha b hb
          simp at hb
          exact fun he => hnew (by rw [← hb, ← he]; exact ha)⟩
      dropped_oldest := by
        intro d hd
        rw [pushRing_capacity]
        rcases List.mem_append.mp hd with hd | hd
        · exact h.dropped_oldest d hd
        · rw [List.mem_singleton.mp hd]
          exact ⟨h.count_eq ▸ hfull,by rw [hw]; rfl⟩
      taken_event := fun t ht => getElem?_append_some _ _ _ _ (h.taken_event t ht)
      published := by simp [h.published, u32_add_one]
      droppedStat := by simp [h.droppedStat, u32_add_one] }

theorem Queued.take (h : Queued ring stats accepted waiting dropped taken gone)
    (registered : List StarkEventSub) (call : ℕ) (hc : 0 < ring.count) :
    Queued (advance ring) stats accepted waiting.tail dropped
      (taken++[⟨gone,oldest ring,registered,call⟩]) (gone+1) := by
  have hw := h.waiting_cons hc
  have hk : 0 < waiting.length := h.count_eq ▸ hc
  have hnew : gone ∉ dropped.map Drop.id := fun hi => (h.dropped_lt gone hi).false
  have hfirst : accepted[gone]? = some (oldest ring) := by
    have hh := congrArg List.head? h.content
    rw [toList_eq_cons ring hc, hw] at hh
    simpa using hh.symm
  exact
    { total := by simp [h.total]; omega
      split := by simp [h.split]; omega
      recent := by
        have ht : waiting.tail = List.range' (gone+1) (waiting.length-1) := by
          rw [hw]; simp
        rw [List.length_tail, ← ht]
      content := by rw [toList_advance, List.map_tail, List.map_tail, h.content]
      taken_ids := by
        rw [List.map_append, h.taken_ids, filter_range_succ, if_pos (by simpa using hnew)]
        rfl
      dropped_lt := fun i hi => Nat.lt_succ_of_lt (h.dropped_lt i hi)
      dropped_nodup := h.dropped_nodup
      dropped_oldest := h.dropped_oldest
      taken_event := by
        intro t ht
        rcases List.mem_append.mp ht with ht | ht
        · exact h.taken_event t ht
        · rw [List.mem_singleton.mp ht]
          exact hfirst
      published := h.published
      droppedStat := h.droppedStat }

end

def inHand : Pc → ℕ
  | .loop _ => 0
  | .deliver _ _ => 1

structure Running (calls : List Call) (taken : List Taken) (total : ℕ) (f : Frame) : Prop where
  call : calls[f.call]? = some ⟨false,f.begun,f.maxEvents,none⟩
  start : f.start = u32 f.begun
  begun_le : f.begun ≤ total
  count : (takenBy taken f.call).length = f.delivered+inHand f.pc
  bound : f.delivered+inHand f.pc ≤ f.maxEvents

def Frames (dispatching : Bool) (P : Frame → Prop) : List Frame → Prop
  | [] => dispatching = false
  | [f] => dispatching = true ∧ P f
  | _ => False

structure Called (dispatching : Bool) (stack : List Frame) (calls : List Call)
    (taken : List Taken) (total : ℕ) : Prop where
  frames : Frames dispatching (Running calls taken total) stack
  bounded : ∀ i c, calls[i]? = some c → (takenBy taken i).length ≤ c.maxEvents
  returned : ∀ i c n, calls[i]? = some c → c.result = some n → (takenBy taken i).length = n
  nested : ∀ c ∈ calls, c.nested = true → c.result = some 0
  old : ∀ t ∈ taken, ∃ c, calls[t.call]? = some c ∧ t.id < c.begun

theorem takenBy_append (taken : List Taken) (t : Taken) (i : ℕ) :
    (takenBy (taken++[t]) i).length = (takenBy taken i).length+(if t.call = i then 1 else 0) := by
  by_cases h : t.call = i <;> simp [takenBy, h]

section
variable {dispatching : Bool} {stack : List Frame} {calls : List Call} {taken : List Taken}
  {total : ℕ}

theorem Called.takenBy_new (h : Called dispatching stack calls taken total) :
    takenBy taken calls.length = [] := by
  rw [takenBy, List.filter_eq_nil_iff]
  intro t ht
  obtain ⟨c,hc,_⟩ := h.old t ht
  have := (List.getElem?_eq_some_iff.mp hc).1
  simp
  omega

theorem Called.grow (h : Called dispatching stack calls taken total) (total' : ℕ)
    (hle : total ≤ total') : Called dispatching stack calls taken total' := by
  refine { h with frames := ?_ }
  match stack, h.frames with
  | [], hf => exact hf
  | [f], hf => exact ⟨hf.1,{ hf.2 with begun_le := hf.2.begun_le.trans hle }⟩

theorem Called.newCall (h : Called dispatching stack calls taken total) (c : Call)
    (hn : c.nested = true → c.result = some 0) (hr : ∀ n, c.result = some n → n = 0) :
    Called dispatching stack (calls++[c]) taken total where
  frames := by
    match stack, h.frames with
    | [], hf => exact hf
    | [f], hf =>
      exact ⟨hf.1,{ hf.2 with call := getElem?_append_some _ _ _ _ hf.2.call }⟩
  bounded := by
    intro i c' hi
    rcases getElem?_concat_cases hi with hi | ⟨rfl,rfl⟩
    · exact h.bounded i c' hi
    · rw [h.takenBy_new]; exact Nat.zero_le _
  returned := by
    intro i c' n hi hn'
    rcases getElem?_concat_cases hi with hi | ⟨rfl,rfl⟩
    · exact h.returned i c' n hi hn'
    · rw [h.takenBy_new, hr n hn']; rfl
  nested := by
    intro c' hc'
    rcases List.mem_append.mp hc' with hc' | hc'
    · exact h.nested c' hc'
    · rw [List.mem_singleton.mp hc']; exact hn
  old := fun t ht => by
    obtain ⟨c',hc',hlt⟩ := h.old t ht
    exact ⟨c',getElem?_append_some _ _ _ _ hc',hlt⟩

theorem Called.enter (h : Called false [] calls taken total) (maxEvents : ℕ) :
    Called true [⟨u32 total,maxEvents,0,.loop true,calls.length,total⟩]
      (calls++[⟨false,total,maxEvents,none⟩]) taken total := by
  have hc := h.newCall ⟨false,total,maxEvents,none⟩ (by simp) (by simp)
  exact
    { hc with
      frames := ⟨rfl,
        { call := by simp
          start := rfl
          begun_le := le_refl _
          count := by rw [h.takenBy_new]; rfl
          bound := Nat.zero_le _ }⟩ }

theorem Called.move {f : Frame} (h : Called true [f] calls taken total) (delivered : ℕ) (pc : Pc)
    (hd : delivered+inHand pc = f.delivered+inHand f.pc) :
    Called true [{ f with delivered := delivered, pc := pc }] calls taken total := by
  have hf := h.frames.2
  exact
    { h with
      frames := ⟨rfl,
        { call := hf.call
          start := hf.start
          begun_le := hf.begun_le
          count := by rw [hf.count, hd]
          bound := by simpa [hd] using hf.bound }⟩ }

theorem Called.take {f : Frame} (h : Called true [f] calls taken total) (t : Taken) (pc : Pc)
    (hpc : inHand f.pc = 0) (hpc' : inHand pc = 1) (hlt : f.delivered < f.maxEvents)
    (ht : t.call = f.call) (hold : t.id < f.begun) :
    Called true [{ f with pc := pc }] calls (taken++[t]) total := by
  have hf := h.frames.2
  have hcall : ∀ i c, calls[i]? = some c → t.call = i → c = ⟨false,f.begun,f.maxEvents,none⟩ := by
    intro i c hi he
    rw [← he, ht, hf.call] at hi
    exact (Option.some.inj hi).symm
  have hcount := hf.count
  exact
    { frames := ⟨rfl,
        { call := hf.call
          start := hf.start
          begun_le := hf.begun_le
          count := by rw [takenBy_append, if_pos ht, hcount, hpc, hpc']
          bound := by simp only [hpc']; omega }⟩
      bounded := by
        intro i c hi
        rw [takenBy_append]
        split
        · rename_i he
          rw [hcall i c hi he, ← he, ht, hcount, hpc]
          exact hlt
        · exact h.bounded i c hi
      returned := by
        intro i c n hi hn
        rw [takenBy_append]
        split
        · rename_i he
          rw [hcall i c hi he] at hn
          exact absurd hn (by simp)
        · exact h.returned i c n hi hn
      nested := h.nested
      old := by
        intro u hu
        rcases List.mem_append.mp hu with hu | hu
        · exact h.old u hu
        · rw [List.mem_singleton.mp hu, ht]
          exact ⟨_,hf.call,hold⟩ }

theorem Called.leave {f : Frame} (h : Called true [f] calls taken total)
    (hpc : inHand f.pc = 0) :
    Called false [] (calls.modify f.call (fun c => { c with result := some f.delivered }))
      taken total := by
  have hf := h.frames.2
  have hget : ∀ i c, (calls.modify f.call (fun c => { c with result := some f.delivered }))[i]? =
      some c → calls[i]? = some c ∨
        i = f.call ∧ c = ⟨false,f.begun,f.maxEvents,some f.delivered⟩ := by
    intro i c hi
    by_cases he : f.call = i
    · subst he
      rw [List.getElem?_modify_eq, hf.call] at hi
      exact Or.inr ⟨rfl,(Option.some.inj hi).symm⟩
    · rw [List.getElem?_modify_ne _ _ he] at hi
      exact Or.inl hi
  exact
    { frames := rfl
      bounded := by
        intro i c hi
        rcases hget i c hi with hi | ⟨rfl,rfl⟩
        · exact h.bounded i c hi
        · exact (h.bounded f.call _ hf.call : _ ≤ f.maxEvents)
      returned := by
        intro i c n hi hn
        rcases hget i c hi with hi | ⟨rfl,rfl⟩
        · exact h.returned i c n hi hn
        · rw [hf.count, hpc]
          exact Option.some.inj hn
      nested := by
        intro c hc hn
        obtain ⟨i,hi⟩ := List.mem_iff_getElem?.mp hc
        rcases hget i c hi with hi | ⟨rfl,rfl⟩
        · exact h.nested c (List.mem_iff_getElem?.mpr ⟨i,hi⟩) hn
        · exact absurd hn (by simp)
      old := by
        intro t ht
        obtain ⟨c,hc,hlt⟩ := h.old t ht
        by_cases he : f.call = t.call
        · rw [← he, hf.call] at hc
          rw [← Option.some.inj hc] at hlt
          exact ⟨⟨false,f.begun,f.maxEvents,some f.delivered⟩,
            by rw [← he, List.getElem?_modify_eq, hf.call]; rfl,hlt⟩
        · exact ⟨c,by rw [List.getElem?_modify_ne _ _ he]; exact hc,hlt⟩ }

end

structure Inv (s : Sys) : Prop where
  queued : ∃ gone, Queued s.bus.ring s.bus.stats s.accepted s.waiting s.dropped s.taken gone
  called : Called s.bus.dispatching s.stack s.calls s.taken s.accepted.length
  registered : s.registered = s.bus.subs
  handled : s.handled ++ pending s.stack = s.taken.flatMap deliveries

theorem boot_inv (storage : ℕ → StarkEvent) (capacity : ℕ) (bus : StarkEventCore)
    (h : starkEventCoreInit storage capacity = .ok bus) :
    Inv (boot bus) ∧ bus.ring.capacity = capacity := by
  unfold starkEventCoreInit at h
  split at h
  · cases h
  · cases h
    refine ⟨⟨⟨0,?_⟩,?_,rfl,rfl⟩,rfl⟩
    · exact
        { total := rfl, split := rfl, recent := rfl, content := rfl, taken_ids := rfl
          dropped_lt := by simp [boot]
          dropped_nodup := List.nodup_nil
          dropped_oldest := by simp [boot]
          taken_event := by simp [boot]
          published := rfl, droppedStat := rfl }
    · exact
        { frames := rfl
          bounded := by simp [boot]
          returned := by simp [boot]
          nested := by simp [boot]
          old := by simp [boot] }

theorem publish_inv (s : Sys) (e : Option StarkEvent) (h : Inv s) : Inv (publish s e) := by
  rcases publish_cases s.bus e with hr | ⟨ev,maxDepth,rfl,_,hr⟩
  · simpa [publish, hr] using h
  obtain ⟨gone,hq⟩ := h.queued
  have hc := h.called.grow (s.accepted++[ev]).length (by simp)
  by_cases hfull : s.bus.ring.count = s.bus.ring.capacity
  · have hpos : 0 < s.bus.ring.count := hfull ▸ Nat.zero_lt_of_lt s.bus.ring.head_lt
    have hdrop : (s.waiting.take 1).map (fun i => (⟨i,s.waiting⟩ : Drop)) =
        [⟨gone,s.waiting⟩] := by
      rw [hq.waiting_take hpos]
      rfl
    simp only [publish, hr, hfull, if_true, hdrop]
    exact ⟨⟨gone+1,hq.overflow ev maxDepth hfull⟩,hc,h.registered,h.handled⟩
  · simp only [publish, hr, hfull, if_false, List.append_nil]
    exact ⟨⟨gone,hq.push ev maxDepth hfull⟩,hc,h.registered,h.handled⟩

theorem subscribe_inv (s : Sys) (typeMask : ℕ) (fn : Option ℕ) (ctx : ℕ) (h : Inv s) :
    Inv (subscribe s typeMask fn ctx) := by
  rcases subscribe_cases s.bus typeMask fn ctx with ⟨err,herr,hr⟩ | ⟨f,hl,rfl,hr⟩
  · have hs : subscribe s typeMask fn ctx = s := by
      simp only [subscribe, hr]
      cases err <;> first | rfl | exact absurd rfl herr
    rw [hs]
    exact h
  · simp only [subscribe, hr]
    exact ⟨h.queued,h.called,by rw [h.registered],h.handled⟩

theorem dispatch_inv (s : Sys) (maxEvents : ℕ) (h : Inv s) : Inv (dispatch s maxEvents) := by
  have hrefused : Inv { s with
      calls := s.calls ++ [⟨!s.stack.isEmpty,s.accepted.length,maxEvents,some 0⟩] } :=
    ⟨h.queued,h.called.newCall _ (fun _ => rfl) (by simp),h.registered,h.handled⟩
  unfold dispatch
  split
  · exact hrefused
  cases hd : s.bus.dispatching with
  | true => simpa [dispatchEnter, hd] using hrefused
  | false =>
    obtain ⟨gone,hq⟩ := h.queued
    have hc := h.called
    rw [hd] at hc
    have hstack : s.stack = [] := by
      have hf := hc.frames
      match hs : s.stack with
      | [] => rfl
      | [f] => rw [hs] at hf; exact absurd hf.1 (by simp)
      | f::f'::rest => rw [hs] at hf; exact hf.elim
    rw [hstack] at hc
    simp only [dispatchEnter, hd, hstack, hq.published, List.isEmpty_nil, Bool.not_true]
    exact ⟨⟨gone,hq⟩,hc.enter maxEvents,h.registered,by simpa [hstack, pending] using h.handled⟩

/-- While a call lasts less than `2^32` publishes, what it may take is older
than the call. -/
theorem take_old {s : Sys} {f : Frame} {gone : ℕ}
    (hq : Queued s.bus.ring s.bus.stats s.accepted s.waiting s.dropped s.taken gone)
    (hf : Running s.calls s.taken s.accepted.length f)
    (ht : s.accepted.length-f.begun < 2^32)
    (hmore : s.bus.ring.count > sub32 s.bus.stats.published f.start) : gone < f.begun := by
  rw [hq.published, hf.start, sub32_u32 _ _ hf.begun_le ht, hq.count_eq] at hmore
  have := hq.total
  have := hf.begun_le
  omega

theorem step_inv (s t : Sys) (h : Inv s) (htimely : ∀ f ∈ s.stack, s.accepted.length-f.begun < 2^32)
    (hstep : step s = some t) : Inv t := by
  obtain ⟨gone,hq⟩ := h.queued
  have hc := h.called
  have hh := h.handled
  match hs : s.stack with
  | [] => simp [step, hs] at hstep
  | f::f'::rest => rw [hs] at hc; exact hc.frames.elim
  | [f] =>
    rw [hs] at hc hh
    have hd : s.bus.dispatching = true := hc.frames.1
    rw [hd] at hc
    have hf := hc.frames.2
    match hpc : f.pc with
    | .loop more =>
      simp only [step, hs, hpc] at hstep
      split at hstep
      · rename_i hgo
        have hlt : f.delivered < f.maxEvents := by simpa using (Bool.and_eq_true_iff.mp hgo).2
        by_cases hm : s.bus.ring.count > sub32 s.bus.stats.published f.start
        · have hpos : 0 < s.bus.ring.count := Nat.zero_lt_of_lt hm
          have hold := take_old hq hf (htimely f (by simp [hs])) hm
          have htake : (s.waiting.take 1).map
              (fun i => (⟨i,oldest s.bus.ring,s.registered,f.call⟩ : Taken)) =
              [⟨gone,oldest s.bus.ring,s.registered,f.call⟩] := by
            rw [hq.waiting_take hpos]
            rfl
          simp only [dispatchTake, hm, if_true, htake] at hstep
          cases hstep
          refine ⟨⟨gone+1,hq.take s.registered f.call hpos⟩,?_,h.registered,?_⟩
          · simpa only [hd] using hc.take _ (.deliver (oldest s.bus.ring) s.bus.subs)
              (by rw [hpc]; rfl) rfl hlt rfl hold
          · simp only [pending, hpc, List.append_nil] at hh
            simp [pending, deliveries, hh, h.registered]
        · simp only [dispatchTake, hm, if_false] at hstep
          cases hstep
          refine ⟨⟨gone,hq⟩,?_,h.registered,?_⟩
          · simpa only [hd] using hc.move f.delivered (.loop false) (by rw [hpc]; rfl)
          · simpa [pending, hpc] using hh
      · cases hstep
        refine ⟨⟨gone,hq⟩,hc.leave (by rw [hpc]; rfl),h.registered,?_⟩
        simpa [finish, pending, hpc] using hh
    | .deliver e (sub::subs) =>
      simp only [step, hs, hpc] at hstep
      cases hstep
      refine ⟨⟨gone,hq⟩,?_,h.registered,?_⟩
      · simpa only [hd] using hc.move f.delivered (.deliver e subs) (by rw [hpc]; rfl)
      · by_cases hw : wants e sub = true <;> simpa [pending, hpc, hw] using hh
    | .deliver e [] =>
      simp only [step, hs, hpc] at hstep
      cases hstep
      refine ⟨⟨gone,hq⟩,?_,h.registered,?_⟩
      · simpa only [hd] using hc.move (f.delivered+1) (.loop true) (by rw [hpc]; rfl)
      · simpa [pending, hpc] using hh

theorem act_inv (s : Sys) (a : Action) (t : Sys) (h : Inv s) (ht : Timely s a)
    (hact : act s a = some t) : Inv t := by
  cases a with
  | publish e => cases hact; exact publish_inv s e h
  | subscribe typeMask fn ctx => cases hact; exact subscribe_inv s typeMask fn ctx h
  | dispatch maxEvents => cases hact; exact dispatch_inv s maxEvents h
  | step => exact step_inv s t h ht hact

section
variable {ring : RingBuffer StarkEvent} {stats : StarkEventStats} {accepted : List StarkEvent}
  {waiting : List ℕ} {dropped : List Drop} {taken : List Taken} {gone : ℕ}

theorem Queued.order (h : Queued ring stats accepted waiting dropped taken gone) :
    taken.map Taken.id ++ waiting =
      (List.range accepted.length).filter (fun i => i ∉ dropped.map Drop.id) := by
  have hw : waiting.filter (fun i => i ∉ dropped.map Drop.id) = waiting := by
    rw [List.filter_eq_self]
    intro i hi
    rw [h.recent] at hi
    have hge := (List.mem_range'_1.mp hi).1
    exact decide_eq_true (fun hd => absurd (h.dropped_lt i hd) (by omega))
  rw [h.total, List.range_add, List.filter_append, ← h.taken_ids]
  congr 1
  conv_lhs => rw [← hw, h.recent]
  rw [List.range'_eq_map_range]

theorem Queued.fate (h : Queued ring stats accepted waiting dropped taken gone) (i : ℕ)
    (hi : i < accepted.length) :
    waiting.count i+(taken.map Taken.id).count i+(dropped.map Drop.id).count i = 1 := by
  have hn : (taken.map Taken.id ++ waiting).Nodup := by
    rw [h.order]
    exact List.nodup_range.filter _
  have hc : (taken.map Taken.id ++ waiting).count i =
      (taken.map Taken.id).count i+waiting.count i := List.count_append
  by_cases hd : i ∈ dropped.map Drop.id
  · have hz : i ∉ taken.map Taken.id ++ waiting := by
      rw [h.order]
      simp only [List.mem_filter, decide_eq_true_eq, not_and, not_not]
      exact fun _ => hd
    rw [List.count_eq_zero.mpr hz] at hc
    have := List.nodup_iff_count_eq_one.mp h.dropped_nodup i hd
    omega
  · have hm : i ∈ taken.map Taken.id ++ waiting := by
      rw [h.order]
      exact List.mem_filter.mpr ⟨List.mem_range.mpr hi,decide_eq_true hd⟩
    rw [List.nodup_iff_count_eq_one.mp hn i hm] at hc
    have := List.count_eq_zero.mpr hd
    omega

end

/-- Whatever tasks and handlers do between the sections of a dispatch, no
accepted event is lost but the oldest of a full ring, none is taken twice or
by a call that began before it, and each goes to its subscribers in order. -/
theorem event_bus_delivery (storage : ℕ → StarkEvent) (capacity : ℕ) (bus : StarkEventCore)
    (hb : starkEventCoreInit storage capacity = .ok bus) (acts : List Action) (s : Sys)
    (h : Run act Timely (boot bus) acts s) : Delivery s := by
  have hs := run_invariant Inv act_inv acts (boot_inv storage capacity bus hb).1 h
  obtain ⟨gone,hq⟩ := hs.queued
  exact
    { queued := hq.content
      ordered := hq.order
      one_fate := hq.fate
      dropped_oldest := hq.dropped_oldest
      taken_event := hq.taken_event
      taken_old := hs.called.old
      taken_bound := hs.called.bounded
      returned := hs.called.returned
      nested := hs.called.nested
      handled := hs.handled
      counters := by
        rw [hq.published, hq.droppedStat, hq.total, hq.split, hq.count_eq]
        unfold u32
        omega }

def singleBus : StarkEventCore :=
  { ring := empty (fun _ => ⟨evtTick,0,.none⟩) 1 (by decide)
    subs := []
    subs_le := by decide
    dispatching := false
    stats := ⟨0,0,0⟩ }

def overflowRun : List Action :=
  [.subscribe (evtMask evtTick) (some 7) 0, .publish (some ⟨evtTick,0,.none⟩),
    .publish (some ⟨evtTick,5,.none⟩), .dispatch 3, .step, .dispatch 3, .step, .step]

/-- The first event is dropped and the second reaches the subscriber. -/
theorem event_bus_delivery_overflow :
    ∃ s, follow act (boot singleBus) overflowRun = some s ∧ Delivery s ∧
      (follow act (boot singleBus) overflowRun).map
        (fun s => (s.dropped.map Drop.id,s.handled.length)) = some ([0],1) := by
  have hr : ∃ s, follow act (boot singleBus) overflowRun = some s :=
    Option.isSome_iff_exists.mp (by decide)
  obtain ⟨s,hs⟩ := hr
  exact ⟨s,hs,event_bus_delivery _ 1 _ rfl _ _ (run_of_follow _ (by decide) hs),by decide⟩

end StarkOne.EventDelivery
