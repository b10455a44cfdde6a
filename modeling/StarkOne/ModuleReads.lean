import StarkOne.ModuleTick
import StarkOne.RunningCheck

/-!
# What a slot's entry is taken from

Of the last read only a hash is kept. A polling step can remove an entry after
a second failed probe, give up on a new chip, or take the content of two reads
that look the same; and a disturbance that is over in the next round leaves a
known entry alone.
-/

set_option autoImplicit false

namespace StarkOne.ModuleReads
open StarkOne.Machine StarkOne.ModuleFormat StarkOne.ModuleBus StarkOne.ModuleLeases
open StarkOne.ModuleConflicts StarkOne.ModuleTick

def hashStep (h : UInt32) (b : UInt8) : UInt32 := (h ^^^ b.toUInt32)*16777619

theorem prime_mul_injective : Function.Injective fun x : UInt32 => x*16777619 := by
  intro x y h
  have hone : (16777619 : UInt32)*899433627 = 1 := by decide
  have hback := congrArg (· * 899433627) h
  dsimp only at hback
  rwa [UInt32.mul_assoc, UInt32.mul_assoc, hone, UInt32.mul_one, UInt32.mul_one] at hback

theorem hashStep_inj {h h' : UInt32} {b b' : UInt8} (hs : hashStep h b = hashStep h' b') :
    h ^^^ b.toUInt32 = h' ^^^ b'.toUInt32 := by
  unfold hashStep at hs
  exact prime_mul_injective hs

theorem hashStep_telling : RunningCheck.Telling hashStep where
  state := fun b _ _ h => (UInt32.xor_left_inj b.toUInt32).mp (hashStep_inj h)
  element := fun s _ _ h => UInt8.toUInt32_inj.mp ((UInt32.xor_right_inj s).mp (hashStep_inj h))

/-- Two reads that differ in one byte are told apart. -/
theorem hash32_set (bytes : List UInt8) {i : ℕ} {b : UInt8} (hi : i < bytes.length)
    (h : hash32 (bytes.set i b) = hash32 bytes) : bytes[i]? = some b :=
  hashStep_telling.foldl_set bytes i b _ hi h

def Gave (a : Answer) (content : List UInt8) : Prop :=
  a.probe = .ok ∧ a.read = .ok ∧ a.raw.take moduleDescSize = content

structure Remembers (s : ModuleSlot) (polls : List Answer) : Prop where
  seen : s.seen = true → ∃ b rest content, polls = b::rest ∧ Gave b content ∧
    s.seenHash = hash32 content
  misses : s.misses ≠ 0 → ∃ b rest, polls = b::rest ∧ b.probe ≠ .ok

theorem accept_remembers (s : ModuleSlot) (raw : List UInt8) : (accept s raw).seen = s.seen ∧
    (accept s raw).seenHash = s.seenHash ∧ (accept s raw).misses = s.misses := by
  unfold accept makeGeneric
  cases moduleDescParse raw with
  | error why => exact ⟨rfl,rfl,rfl⟩
  | ok d =>
    dsimp only
    split <;> exact ⟨rfl,rfl,rfl⟩

theorem accept_entry {s t : ModuleSlot} (h : s.e.slot = t.e.slot) (raw : List UInt8) :
    (accept s raw).e = (accept t raw).e := by
  unfold accept makeGeneric
  rw [h]
  cases moduleDescParse raw with
  | error why => rfl
  | ok d =>
    dsimp only
    split <;> rfl

theorem apply_remembers (s : ModuleSlot) (a : Answer) (polls : List Answer) :
    Remembers (apply s a.probe a.read a.raw).1 (a::polls) := by
  unfold apply
  dsimp only
  generalize (if s.misses < moduleMissLimit then s.misses+1 else s.misses) = misses
  generalize (if s.readErrors < moduleReadLimit then s.readErrors+1 else s.readErrors) = errors
  by_cases hp : a.probe ≠ .ok
  · rw [if_pos hp]
    split
    · exact ⟨fun h => (by cases h),fun _ => ⟨a,polls,rfl,hp⟩⟩
    · exact ⟨fun h => (by cases h),fun _ => ⟨a,polls,rfl,hp⟩⟩
  rw [if_neg hp]
  by_cases hr : a.read ≠ .ok
  · rw [if_pos hr]
    split
    · exact ⟨fun h => (by cases h),fun h => absurd rfl h⟩
    · exact ⟨fun h => (by cases h),fun h => absurd rfl h⟩
  rw [if_neg hr]
  have hgave : Gave a (a.raw.take moduleDescSize) := ⟨not_not.mp hp,not_not.mp hr,rfl⟩
  split
  · exact ⟨fun _ => ⟨a,polls,_,rfl,hgave,rfl⟩,fun h => absurd rfl h⟩
  · obtain ⟨-,hhash,hmisses⟩ := accept_remembers { s with
      misses := 0, readErrors := 0, seen := true, accepted := true,
      seenHash := hash32 (a.raw.take moduleDescSize),
      acceptedHash := hash32 (a.raw.take moduleDescSize) } a.raw
    exact ⟨fun _ => ⟨a,polls,_,rfl,hgave,hhash⟩,fun h => absurd hmisses h⟩

inductive Takes (s : ModuleSlot) (polls : List Answer) (a : Answer) : ModuleEntry → Prop where
  | same : Takes s polls a s.e
  | removed (b : Answer) (rest : List Answer) (hpolls : polls = b::rest) (hb : b.probe ≠ .ok)
      (ha : a.probe ≠ .ok) : Takes s polls a (clearedEntry s.e.slot)
  | unread (hp : a.probe = .ok) (hr : a.read ≠ .ok) (habsent : s.e.state = .absent) :
      Takes s polls a { clearedEntry s.e.slot with state := .generic, why := .truncated }
  | content (b : Answer) (rest : List Answer) (content : List UInt8) (hpolls : polls = b::rest)
      (hb : Gave b content) (ha : Gave a content) : Takes s polls a (accept s a.raw).e

/-- Two reads of one content come after each other when they look the same. -/
def Told (polls : List Answer) (a : Answer) : Prop :=
  ∀ b rest old new, polls = b::rest → Gave b old → Gave a new → hash32 new = hash32 old → new = old

theorem told_of_set {polls : List Answer} {a : Answer}
    (h : ∀ b rest old new, polls = b::rest → Gave b old → Gave a new → ∃ i byte, new = old.set i byte) :
    Told polls a := by
  intro b rest old new hpolls hold hnew hhash
  obtain ⟨i,byte,rfl⟩ := h b rest old new hpolls hold hnew
  by_cases hi : i < old.length
  · have hbyte := hash32_set old hi hhash
    rw [List.getElem?_eq_getElem hi] at hbyte
    rw [← Option.some.inj hbyte, List.set_getElem_self]
  · exact List.set_eq_of_length_le (Nat.le_of_not_lt hi)

theorem apply_takes {s : ModuleSlot} {polls : List Answer} (h : Remembers s polls) {a : Answer}
    (htold : Told polls a) : Takes s polls a (apply s a.probe a.read a.raw).1.e := by
  unfold apply
  dsimp only
  generalize hcount : (if s.misses < moduleMissLimit then s.misses+1 else s.misses) = misses
  generalize (if s.readErrors < moduleReadLimit then s.readErrors+1 else s.readErrors) = errors
  by_cases hp : a.probe ≠ .ok
  · rw [if_pos hp]
    split
    · exact .same
    · rename_i hgo
      rw [Bool.or_eq_true, not_or, decide_eq_true_eq] at hgo
      have hmisses : s.misses ≠ 0 := by
        intro hzero
        rw [hzero] at hcount
        exact hgo.1 (hcount ▸ by decide)
      obtain ⟨b,rest,hpolls,hb⟩ := h.misses hmisses
      exact .removed b rest hpolls hb hp
  rw [if_neg hp]
  by_cases hr : a.read ≠ .ok
  · rw [if_pos hr]
    split
    · exact .same
    · rename_i hgo
      rw [Bool.or_eq_true, not_or, decide_eq_true_eq] at hgo
      exact .unread (not_not.mp hp) hr (not_not.mp hgo.1)
  rw [if_neg hr]
  have hgave : Gave a (a.raw.take moduleDescSize) := ⟨not_not.mp hp,not_not.mp hr,rfl⟩
  split
  · exact .same
  · rename_i hgo
    rw [Bool.or_eq_true, not_or, Bool.not_eq_true', Bool.not_eq_false, Bool.and_eq_true,
      decide_eq_true_eq] at hgo
    obtain ⟨b,rest,old,hpolls,hb,hold⟩ := h.seen hgo.1.1
    have hsame := htold b rest old _ hpolls hb hgave (hgo.1.2.trans hold)
    have hentry : ∀ t : ModuleSlot, t.e.slot = s.e.slot → Takes s polls a (accept t a.raw).e := by
      intro t ht
      rw [accept_entry ht]
      exact .content b rest old hpolls hb (hsame ▸ hgave)
    exact hentry _ rfl

/-- A failed probe, a failed read, or a content, that the round before did not have. -/
inductive Passing (polls : List Answer) (a : Answer) : Prop where
  | probe (ha : a.probe ≠ .ok) (hbefore : ∀ b rest, polls = b::rest → b.probe = .ok)
  | read (hp : a.probe = .ok) (hr : a.read ≠ .ok)
  | content (content : List UInt8) (ha : Gave a content)
      (hbefore : ∀ b rest, polls = b::rest → ¬Gave b content)

theorem Takes.passing {s : ModuleSlot} {polls : List Answer} {a : Answer} {e : ModuleEntry}
    (h : Takes s polls a e) (hknown : s.e.state ≠ .absent) (hpassing : Passing polls a) : e = s.e := by
  cases h with
  | same => rfl
  | removed b rest hpolls hb ha =>
    cases hpassing with
    | probe _ hbefore => exact absurd (hbefore b rest hpolls) hb
    | read hp => exact absurd hp ha
    | content _ hgave => exact absurd hgave.1 ha
  | unread _ _ habsent => exact absurd habsent hknown
  | content b rest content hpolls hb ha =>
    cases hpassing with
    | probe hfail => exact absurd ha.1 hfail
    | read _ hr => exact absurd ha.2.1 hr
    | content other hother hbefore =>
      have hsame : other = content := hother.2.2.symm.trans ha.2.2
      exact absurd hb (hsame ▸ hbefore b rest hpolls)

structure Unpolled (s t : ModuleSlot) : Prop where
  restated : Restated s t
  seen : t.seen = s.seen
  seenHash : t.seenHash = s.seenHash
  misses : t.misses = s.misses

theorem unpolled_refl (s : ModuleSlot) : Unpolled s s := ⟨restated_refl s,rfl,rfl,rfl⟩

theorem unpolled_trans {s t u : ModuleSlot} (h : Unpolled s t) (g : Unpolled t u) : Unpolled s u :=
  ⟨restated_trans h.restated g.restated,g.seen.trans h.seen,g.seenHash.trans h.seenHash,
    g.misses.trans h.misses⟩

theorem Unpolled.remembers {s t : ModuleSlot} {polls : List Answer} (h : Unpolled s t)
    (hs : Remembers s polls) : Remembers t polls := by
  constructor
  · rw [h.seen, h.seenHash]
    exact hs.seen
  · rw [h.misses]
    exact hs.misses

theorem resolvePair_unpolled (r : (ℕ → ModuleSlot) × UInt32) (p : ℕ × ℕ) (k : ℕ) :
    Unpolled (r.1 k) ((resolvePair r p).1 k) := by
  refine ⟨resolvePair_restated r p k,?_,?_,?_⟩
  all_goals
    unfold resolvePair
    dsimp only
    split
    · dsimp only
      split
      · rename_i hk
        rw [hk]
        rfl
      · split
        · rename_i hk
          rw [hk]
          rfl
        · rfl
    · rfl

theorem resolvePairs_unpolled (ps : List (ℕ × ℕ)) (r : (ℕ → ModuleSlot) × UInt32) (k : ℕ) :
    Unpolled (r.1 k) ((ps.foldl resolvePair r).1 k) := by
  induction ps generalizing r with
  | nil => exact unpolled_refl _
  | cons p ps ih => exact unpolled_trans (resolvePair_unpolled r p k) (ih (resolvePair r p))

theorem recompute_unpolled (c : ModuleCore) (k : ℕ) : Unpolled (c.slot k) ((recompute c).1.slot k) := by
  refine unpolled_trans ?_ (resolvePairs_unpolled (slotPairs c.n) _ k)
  dsimp only
  split
  · unfold presumeKnown
    split
    · exact ⟨restated_valid ‹_› rfl rfl,rfl,rfl,rfl⟩
    · exact unpolled_refl _
  · exact unpolled_refl _

theorem update_unpolled (c : ModuleCore) (i k : ℕ) {u : ModuleSlot} (h : Unpolled (c.slot i) u) :
    Unpolled (c.slot k) (Function.update c.slot i u k) := by
  by_cases hk : k = i
  · subst k
    rw [Function.update_self]
    exact h
  · rw [Function.update_of_ne hk]
    exact unpolled_refl _

def polled (s : State) : Act → Option (ℕ × Answer)
  | .scan probe read raw => s.round.map fun r => (r.1,⟨probe,read,raw⟩)
  | _ => none

/-- A step works on the slot it polls, and leaves every other slot alone. -/
theorem slot_step {s t : State} {act : Act} (h : step s act = some t) (k : ℕ) :
    (∃ a, polled s act = some (k,a) ∧
      (t.core.slot k = (apply (s.core.slot k) a.probe a.read a.raw).1 ∨
        t.core.slot k = revoke (apply (s.core.slot k) a.probe a.read a.raw).1)) ∨
    ((∀ a, polled s act ≠ some (k,a)) ∧ Unpolled (s.core.slot k) (t.core.slot k)) := by
  cases act with
  | tick =>
    unfold step at h
    dsimp only at h
    split at h
    · cases h
      exact .inr ⟨fun a ha => (by cases ha),unpolled_refl _⟩
    · cases h
  | scan probe read raw =>
    unfold step at h
    dsimp only at h
    split at h
    · cases h
    rename_i i changed hr
    split at h
    · cases h
    cases h
    have hpolled : polled s (.scan probe read raw) = some (i,⟨probe,read,raw⟩) := by
      unfold polled
      rw [hr]
      rfl
    by_cases hk : k = i
    · subst k
      refine .inl ⟨_,hpolled,?_⟩
      unfold tickSlot
      split
      · rename_i u hu
        exact .inr (by rw [hu]; exact Function.update_self _ _ _)
      · rename_i u hu
        exact .inl (by rw [hu]; exact Function.update_self _ _ _)
    · refine .inr ⟨fun a ha => ?_,?_⟩
      · rw [hpolled] at ha
        exact hk (Prod.mk.inj (Option.some.inj ha)).1.symm
      · unfold tickSlot
        split
        · exact (Function.update_of_ne hk _ s.core.slot) ▸ unpolled_refl _
        · exact (Function.update_of_ne hk _ s.core.slot) ▸ unpolled_refl _
  | settle =>
    unfold step at h
    dsimp only at h
    split at h
    · cases h
    split at h
    · cases h
    cases h
    refine .inr ⟨fun a ha => (by cases ha),?_⟩
    unfold tickEnd
    split
    · exact recompute_unpolled s.core k
    · exact unpolled_refl _
  | claim slot caps owner out =>
    refine .inr ⟨fun a ha => (by cases ha),?_⟩
    unfold step at h
    dsimp only at h
    split at h
    · rename_i l d hc
      cases h
      obtain ⟨-,-,-,-,-,rfl⟩ := claim_ok hc
      exact update_unpolled s.core slot k ⟨⟨rfl,rfl,fun _ => rfl⟩,rfl,rfl,rfl⟩
    · rename_i e d hc
      cases h
      rw [claim_error hc]
      exact unpolled_refl _
  | release l =>
    cases h
    refine .inr ⟨fun a ha => (by cases ha),?_⟩
    dsimp only
    unfold moduleCoreRelease
    split
    · exact unpolled_refl _
    · rename_i i hi
      exact update_unpolled s.core i k ⟨⟨rfl,rfl,fun _ => rfl⟩,rfl,rfl,rfl⟩
  | confirm caps present =>
    cases h
    exact .inr ⟨fun a ha => (by cases ha),recompute_unpolled { s.core with
      confirmed := if present then s.core.confirmed ||| caps else s.core.confirmed &&& ~~~caps } k⟩
  | provide kind name caps =>
    cases h
    refine .inr ⟨fun a ha => (by cases ha),?_⟩
    dsimp only
    unfold moduleCoreProvide
    split <;> exact unpolled_refl _
  | list max =>
    cases h
    exact .inr ⟨fun a ha => (by cases ha),unpolled_refl _⟩

structure Polled where
  state : State
  polls : ℕ → List Answer

def pollsAfter (w : Polled) (act : Act) : ℕ → List Answer :=
  match polled w.state act with
  | some (i,a) => Function.update w.polls i (a::w.polls i)
  | none => w.polls

def poll (w : Polled) (act : Act) : Option Polled :=
  (step w.state act).map fun t => ⟨t,pollsAfter w act⟩

def pollStart (wires : ℕ → ModuleWiring) (n : ℕ) : Polled := ⟨start wires n,fun _ => []⟩

theorem remembers_step (w : Polled) (act : Act) (v : Polled)
    (h : ∀ k, Remembers (w.state.core.slot k) (w.polls k)) (hv : poll w act = some v) (k : ℕ) :
    Remembers (v.state.core.slot k) (v.polls k) := by
  obtain ⟨t,ht,rfl⟩ := Option.map_eq_some_iff.mp hv
  dsimp only
  unfold pollsAfter
  rcases slot_step ht k with ⟨a,ha,hslot⟩ | ⟨hother,hslot⟩
  · have hnew := apply_remembers (w.state.core.slot k) a (w.polls k)
    rw [ha]
    dsimp only
    rw [Function.update_self]
    rcases hslot with hslot | hslot
    · rw [hslot]
      exact hnew
    · rw [hslot]
      exact ⟨hnew.seen,hnew.misses⟩
  · have hold := hslot.remembers (h k)
    cases hpolled : polled w.state act with
    | none => exact hold
    | some r =>
      have hk : k ≠ r.1 := fun hk => hother r.2 (hk ▸ hpolled)
      dsimp only
      rw [Function.update_of_ne hk]
      exact hold

/-- In every run in which a slot's next read is told from its last, a slot's entry changes only by a
second failed probe, by a failed read of a new chip or to the content of two reads, and nothing that
passes within a round changes a known one; other steps judge its state at most. -/
theorem entries_confirmed (wires : ℕ → ModuleWiring) (n : ℕ) (acts : List Act) (w : Polled)
    (h : Run poll Free (pollStart wires n) acts w) {act : Act} {v : Polled} (hv : poll w act = some v)
    (htold : ∀ k a, polled w.state act = some (k,a) → Told (w.polls k) a) (k : ℕ) :
    (∀ a, polled w.state act = some (k,a) →
      Takes (w.state.core.slot k) (w.polls k) a (v.state.core.slot k).e ∧
      ((w.state.core.slot k).e.state ≠ .absent → Passing (w.polls k) a →
        (v.state.core.slot k).e = (w.state.core.slot k).e)) ∧
    ((∀ a, polled w.state act ≠ some (k,a)) →
      Restated (w.state.core.slot k) (v.state.core.slot k)) := by
  have hinv := run_invariant (fun w : Polled => ∀ k, Remembers (w.state.core.slot k) (w.polls k))
    (fun w a v hi _ h => remembers_step w a v hi h) acts
    (fun k => ⟨fun h => (by cases h),fun h => absurd rfl h⟩) h
  obtain ⟨t,ht,rfl⟩ := Option.map_eq_some_iff.mp hv
  rcases slot_step ht k with ⟨a,ha,hslot⟩ | ⟨hother,hslot⟩
  · refine ⟨fun b hb => ?_,fun hnone => absurd ha (hnone a)⟩
    obtain rfl : a = b := (Prod.mk.inj (Option.some.inj (ha.symm.trans hb))).2
    have htakes := apply_takes (hinv k) (htold k a ha)
    have hentry : (t.core.slot k).e =
        (apply (w.state.core.slot k) a.probe a.read a.raw).1.e := by
      rcases hslot with hslot | hslot
      · rw [hslot]
      · rw [hslot]
        rfl
    dsimp only
    rw [hentry]
    exact ⟨htakes,fun hknown hpassing => htakes.passing hknown hpassing⟩
  · exact ⟨fun a ha => absurd ha (hother a),fun _ => hslot.restated⟩

def onceRun : List Act := [.tick,.scan .ok .ok readerChip,.scan .timeout .state [],.settle,.tick]

theorem entries_confirmed_reader : ∃ w v, Run poll Free (pollStart benchWires 2) onceRun w ∧
    poll w (.scan .ok .ok readerChip) = some v ∧
    Takes (w.state.core.slot 0) (w.polls 0) ⟨.ok,.ok,readerChip⟩ (v.state.core.slot 0).e ∧
    (v.state.core.slot 0).e.state = .known := by
  obtain ⟨w,hw,hpolls,hround,hknown⟩ := run_witness poll (G := Free) (s := pollStart benchWires 2)
    (p := fun w => (w.polls 0).map Answer.raw = [readerChip] ∧ w.state.round = some (0,0) ∧
      (poll w (.scan .ok .ok readerChip)).map (fun v => (v.state.core.slot 0).e.state) = some .known)
    onceRun (by decide +kernel) (by decide +kernel)
  obtain ⟨v,hv,hstate⟩ := Option.map_eq_some_iff.mp hknown
  have hpolled : polled w.state (.scan .ok .ok readerChip) = some (0,⟨.ok,.ok,readerChip⟩) := by
    unfold polled
    rw [hround]
    rfl
  have htold : ∀ k a, polled w.state (.scan .ok .ok readerChip) = some (k,a) →
      Told (w.polls k) a := by
    intro k a ha
    rw [hpolled] at ha
    cases ha
    refine told_of_set fun b rest old new hrest hb hnew => ⟨old.length,0,?_⟩
    rw [hrest] at hpolls
    rw [List.set_eq_of_length_le (le_refl _), ← hnew.2.2, ← hb.2.2, (List.cons.inj hpolls).1]
  exact ⟨w,v,hw,hv,((entries_confirmed benchWires 2 onceRun w hw hv htold 0).1 _ hpolled).1,hstate⟩

/-! Two modules whose descriptors have one hash. -/

def nfcChip : List UInt8 :=
  [83,77,1,0,19,0,2,0,4,0,0,0,83,78,80,0,0,0,0,0,0,0,0,0,0,0,0,0,0,0,224,168]

def spiChip : List UInt8 :=
  [83,77,1,0,20,0,2,0,8,0,0,0,66,73,72,0,0,0,0,0,0,0,0,0,0,0,0,0,0,0,169,102]

def swapRun : List Act := [.tick,.scan .ok .ok nfcChip,.scan .timeout .state [],.settle,.tick]

/-- The second one is known from its first read. -/
theorem entries_unconfirmed : ∃ w v, Run poll Free (pollStart benchWires 2) swapRun w ∧
    poll w (.scan .ok .ok spiChip) = some v ∧
    polled w.state (.scan .ok .ok spiChip) = some (0,⟨.ok,.ok,spiChip⟩) ∧
    (w.polls 0).map Answer.raw = [nfcChip] ∧ (v.state.core.slot 0).e.id = 20 ∧
    ¬Takes (w.state.core.slot 0) (w.polls 0) ⟨.ok,.ok,spiChip⟩ (v.state.core.slot 0).e := by
  obtain ⟨w,hw,hpolls,hround,hbefore,hafter⟩ := run_witness poll (G := Free)
    (s := pollStart benchWires 2)
    (p := fun w => (w.polls 0).map Answer.raw = [nfcChip] ∧ w.state.round = some (0,0) ∧
      (w.state.core.slot 0).e.id = 0 ∧
      (poll w (.scan .ok .ok spiChip)).map (fun v => (v.state.core.slot 0).e.id) = some 20)
    swapRun (by decide +kernel) (by decide +kernel)
  obtain ⟨v,hv,hid⟩ := Option.map_eq_some_iff.mp hafter
  have hpolled : polled w.state (.scan .ok .ok spiChip) = some (0,⟨.ok,.ok,spiChip⟩) := by
    unfold polled
    rw [hround]
    rfl
  refine ⟨w,v,hw,hv,hpolled,hpolls,hid,fun htakes => ?_⟩
  generalize (v.state.core.slot 0).e = e at htakes hid
  cases htakes with
  | same =>
    rw [hbefore] at hid
    cases hid
  | removed _ _ _ _ ha => exact ha rfl
  | unread _ hr => exact hr rfl
  | content b rest content hrest hb ha =>
    rw [hrest] at hpolls
    have hraw : b.raw = nfcChip := (List.cons.inj hpolls).1
    have hsame : nfcChip.take moduleDescSize = spiChip.take moduleDescSize := by
      rw [← hraw, hb.2.2, ← ha.2.2]
    exact absurd hsame (by decide)

end StarkOne.ModuleReads
