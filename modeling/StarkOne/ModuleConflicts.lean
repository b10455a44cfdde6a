import StarkOne.ModuleLeases

/-!
# Conflicts between modules

A slot holds the descriptor it accepted last, when that one is supported. Two
descriptors clash when both modules cannot be served on one bus. Between two
polling rounds the states of the slots and the effective capabilities follow
from the descriptors alone.
-/

set_option autoImplicit false

namespace StarkOne.ModuleConflicts
open StarkOne.Machine StarkOne.ModuleFormat StarkOne.ModuleBus StarkOne.ModuleLeases

def described (probe read : StarkErr) (raw : List UInt8) : Option ModuleDesc :=
  if probe ≠ .ok ∨ read ≠ .ok then none
  else match moduleDescParse raw with
    | .error _ => none
    | .ok d => if moduleDescCapsSupported d.caps then some d else none

/-- The core together with the supported descriptor each slot holds. -/
structure Watched where
  state : State
  holds : ℕ → Option ModuleDesc

/-- Only a polling step that changes an entry changes what the slot holds. -/
def heldAfter (w : Watched) (a : Act) : ℕ → Option ModuleDesc :=
  match changes w.state a, a with
  | some (i,_), .scan probe read raw => Function.update w.holds i (described probe read raw)
  | _, _ => w.holds

def watch (w : Watched) (a : Act) : Option Watched :=
  (step w.state a).map fun t => ⟨t,heldAfter w a⟩

def watchStart (wires : ℕ → ModuleWiring) (n : ℕ) : Watched := ⟨start wires n,fun _ => none⟩

theorem run_watch {s t : State} (as : List Act) (h : Run step Free s as t)
    (holds : ℕ → Option ModuleDesc) : ∃ holds', Run watch Free ⟨s,holds⟩ as ⟨t,holds'⟩ := by
  induction as generalizing s holds with
  | nil => exact ⟨holds,congrArg (Watched.mk · holds) h⟩
  | cons a as ih =>
    obtain ⟨-,u,hu,hr⟩ := h
    obtain ⟨holds',hr'⟩ := ih hr (heldAfter ⟨s,holds⟩ a)
    exact ⟨holds',trivial,_,by unfold watch; rw [hu]; rfl,hr'⟩

/-- Both declare one exclusive capability, or they are the same module and one does. -/
def Clash (d e : ModuleDesc) : Prop :=
  d.caps &&& e.caps &&& capsExclusive ≠ 0 ∨
    d.id = e.id ∧ (d.caps ||| e.caps) &&& capsExclusive ≠ 0

theorem clash_comm (d e : ModuleDesc) : Clash d e ↔ Clash e d := by
  unfold Clash
  rw [UInt32.and_comm d.caps, UInt32.or_comm d.caps, eq_comm (a := d.id)]

def Agrees (s : ModuleSlot) : Option ModuleDesc → Prop
  | none => s.valid = false ∧ s.e.state ≠ .conflict
  | some d => s.valid = true ∧ s.e.id = d.id ∧ s.e.declared = d.caps

theorem agrees_same {s t : ModuleSlot} {o : Option ModuleDesc} (ho : Agrees s o)
    (h : t.e = s.e ∧ t.valid = s.valid) : Agrees t o := by
  cases o with
  | none =>
    unfold Agrees
    rw [h.1, h.2]
    exact ho
  | some d =>
    unfold Agrees
    rw [h.1, h.2]
    exact ho

theorem accept_agrees (s : ModuleSlot) (raw : List UInt8) :
    Agrees (accept s raw) (described .ok .ok raw) := by
  unfold accept described
  rw [if_neg (by decide)]
  cases moduleDescParse raw with
  | error why => exact ⟨rfl,fun h => by cases h⟩
  | ok d =>
    dsimp only
    split
    · exact ⟨rfl,rfl,rfl⟩
    · exact ⟨rfl,fun h => by cases h⟩

theorem apply_agrees (s : ModuleSlot) (probe read : StarkErr) (raw : List UInt8)
    (h : (apply s probe read raw).2 = true) :
    Agrees (apply s probe read raw).1 (described probe read raw) := by
  obtain ⟨t,⟨hp,hslot⟩ | ⟨hp,hr,hslot⟩ | ⟨rfl,rfl,hslot⟩⟩ := apply_updated h
  · rw [hslot, described, if_pos (.inl hp)]
    exact ⟨rfl,fun h => by cases h⟩
  · rw [hslot, described, if_pos (.inr hr)]
    exact ⟨rfl,fun h => by cases h⟩
  · rw [hslot]
    exact accept_agrees t raw

def Rivals (n : ℕ) (holds : ℕ → Option ModuleDesc) (i j : ℕ) (d e : ModuleDesc) : Prop :=
  i < n ∧ j < n ∧ i ≠ j ∧ holds i = some d ∧ holds j = some e ∧ Clash d e

def Has (caps : UInt32) (k : ℕ) : Prop := caps.toBitVec.getLsbD k = true

/-- States and capabilities are what the descriptors held make them. -/
structure Exact (c : ModuleCore) (holds : ℕ → Option ModuleDesc) : Prop where
  conflict : ∀ i < c.n, (c.slot i).e.state = .conflict ↔ ∃ j d e, Rivals c.n holds i j d e
  caps : ∀ k, Has c.caps k ↔ Has c.confirmed k ∧ Has capsKnown k ∧ ¬ Has capsWiring k ∧
    ¬ ∃ i j d e, Rivals c.n holds i j d e ∧ Has ((d.caps ||| e.caps) &&& capsExclusive) k

theorem presumeKnown_agrees {s : ModuleSlot} {o : Option ModuleDesc} (ho : Agrees s o) :
    Agrees (presumeKnown s) o ∧ (presumeKnown s).e.state ≠ .conflict := by
  unfold presumeKnown
  cases o with
  | none =>
    rw [ho.1, if_neg (by decide)]
    exact ⟨ho,ho.2⟩
  | some d =>
    rw [ho.1, if_pos rfl]
    exact ⟨⟨rfl,ho.2.1,ho.2.2⟩,fun h => by cases h⟩

theorem clashing_iff {slot : ℕ → ModuleSlot} {holds : ℕ → Option ModuleDesc}
    (h : ∀ i, Agrees (slot i) (holds i)) (p : ℕ × ℕ) :
    Clashing slot p ↔ ∃ d e, holds p.1 = some d ∧ holds p.2 = some e ∧ Clash d e := by
  have h1 := h p.1
  have h2 := h p.2
  unfold Clashing
  cases hd : holds p.1 with
  | none =>
    rw [hd] at h1
    simp [h1.1]
  | some d =>
    rw [hd] at h1
    cases he : holds p.2 with
    | none =>
      rw [he] at h2
      simp [h2.1]
    | some e =>
      rw [he] at h2
      unfold overlap Clash
      rw [h1.1, h1.2.1, h1.2.2, h2.1, h2.2.1, h2.2.2]
      simp

theorem resolvePairs_withheld (ps : List (ℕ × ℕ)) (r : (ℕ → ModuleSlot) × UInt32) (k : ℕ) :
    Has (ps.foldl resolvePair r).2 k ↔ Has r.2 k ∨ ∃ p ∈ ps, Clashing r.1 p ∧
      Has (((r.1 p.1).e.declared ||| (r.1 p.2).e.declared) &&& capsExclusive) k := by
  induction ps generalizing r with
  | nil => simp
  | cons q ps ih =>
    have hq : Has (resolvePair r q).2 k ↔ Has r.2 k ∨ Clashing r.1 q ∧
        Has (((r.1 q.1).e.declared ||| (r.1 q.2).e.declared) &&& capsExclusive) k := by
      unfold resolvePair Clashing
      dsimp only
      split
      · rename_i hc
        rw [and_iff_right hc]
        unfold Has
        rw [UInt32.toBitVec_or, BitVec.getLsbD_or, Bool.or_eq_true]
      · rename_i hc
        exact ⟨.inl,fun h => h.resolve_right fun h => hc h.1⟩
    rw [List.foldl_cons, ih, hq, or_assoc]
    simp only [resolvePair_clashing, List.exists_mem_cons_iff, (resolvePair_judged r q _).declared]

theorem rivals_comm {n i j : ℕ} {holds : ℕ → Option ModuleDesc} {d e : ModuleDesc}
    (h : Rivals n holds i j d e) : Rivals n holds j i e d :=
  ⟨h.2.1,h.1,h.2.2.1.symm,h.2.2.2.2.1,h.2.2.2.1,(clash_comm d e).mp h.2.2.2.2.2⟩

/-- The clashing pairs of slots, each found once with its lower slot first. -/
theorem pairs_iff {n : ℕ} {slot : ℕ → ModuleSlot} {holds : ℕ → Option ModuleDesc}
    (h : ∀ i, Agrees (slot i) (holds i)) (P : ℕ → ℕ → UInt32 → Prop)
    (hP : ∀ i j m, P i j m → P j i m) :
    (∃ p ∈ slotPairs n, Clashing slot p ∧ P p.1 p.2 ((slot p.1).e.declared ||| (slot p.2).e.declared)) ↔
      ∃ i j d e, Rivals n holds i j d e ∧ P i j (d.caps ||| e.caps) := by
  have hdeclared : ∀ i d, holds i = some d → (slot i).e.declared = d.caps := by
    intro i d hd
    have := h i
    rw [hd] at this
    exact this.2.2
  constructor
  · rintro ⟨⟨i,j⟩,hp,hc,hm⟩
    obtain ⟨d,e,hd,he,hde⟩ := (clashing_iff h _).mp hc
    obtain ⟨hij,hj⟩ := mem_slotPairs.mp hp
    rw [hdeclared _ d hd, hdeclared _ e he] at hm
    exact ⟨i,j,d,e,⟨hij.trans hj,hj,hij.ne,hd,he,hde⟩,hm⟩
  · rintro ⟨i,j,d,e,⟨hi,hj,hij,hd,he,hde⟩,hm⟩
    rcases Nat.lt_or_gt_of_ne hij with hlt | hlt
    · refine ⟨(i,j),mem_slotPairs.mpr ⟨hlt,hj⟩,(clashing_iff h _).mpr ⟨d,e,hd,he,hde⟩,?_⟩
      rw [hdeclared i d hd, hdeclared j e he]
      exact hm
    · refine ⟨(j,i),mem_slotPairs.mpr ⟨hlt,hi⟩,
        (clashing_iff h _).mpr ⟨e,d,he,hd,(clash_comm d e).mp hde⟩,?_⟩
      rw [hdeclared i d hd, hdeclared j e he, UInt32.or_comm]
      exact hP i j _ hm

theorem presumed_agrees {c : ModuleCore} {holds : ℕ → Option ModuleDesc}
    (h : ∀ i, Agrees (c.slot i) (holds i)) (i : ℕ) :
    Agrees (if i < c.n then presumeKnown (c.slot i) else c.slot i) (holds i) := by
  split
  · exact (presumeKnown_agrees (h i)).1
  · exact h i

theorem recompute_conflict (c : ModuleCore) {holds : ℕ → Option ModuleDesc}
    (h : ∀ i, Agrees (c.slot i) (holds i)) (k : ℕ) (hk : k < c.n ∨ holds k = none) :
    ((recompute c).1.slot k).e.state = .conflict ↔ ∃ j d e, Rivals c.n holds k j d e := by
  have hcalm : (if k < c.n then presumeKnown (c.slot k) else c.slot k).e.state ≠ .conflict := by
    by_cases hn : k < c.n
    · rw [if_pos hn]
      exact (presumeKnown_agrees (h k)).2
    · rw [if_neg hn]
      have := h k
      rw [hk.resolve_left hn] at this
      exact this.2
  have hfold := resolvePairs_state (slotPairs c.n)
    (fun i => if i < c.n then presumeKnown (c.slot i) else c.slot i,0) k
  have hpairs := pairs_iff (n := c.n) (presumed_agrees h)
    (fun i j _ => k = i ∨ k = j) fun i j m => Or.symm
  rw [or_iff_right hcalm] at hfold
  refine hfold.trans ?_
  simp only [and_comm (a := k = _ ∨ k = _)]
  rw [hpairs]
  constructor
  · rintro ⟨i,j,d,e,hr,rfl | rfl⟩
    · exact ⟨j,d,e,hr⟩
    · exact ⟨i,e,d,rivals_comm hr⟩
  · rintro ⟨j,d,e,hr⟩
    exact ⟨k,j,d,e,hr,.inl rfl⟩

theorem recompute_caps (c : ModuleCore) {holds : ℕ → Option ModuleDesc}
    (h : ∀ i, Agrees (c.slot i) (holds i)) (k : ℕ) :
    Has (recompute c).1.caps k ↔ Has c.confirmed k ∧ Has capsKnown k ∧ ¬ Has capsWiring k ∧
      ¬ ∃ i j d e, Rivals c.n holds i j d e ∧ Has ((d.caps ||| e.caps) &&& capsExclusive) k := by
  have hfold := resolvePairs_withheld (slotPairs c.n)
    (fun i => if i < c.n then presumeKnown (c.slot i) else c.slot i,0) k
  have hpairs := pairs_iff (n := c.n) (presumed_agrees h) (fun _ _ m => Has (m &&& capsExclusive) k)
    fun i j m hm => hm
  have hzero : ¬ Has 0 k := by
    unfold Has
    simp
  rw [or_iff_right hzero, hpairs] at hfold
  rw [← hfold]
  show Has (c.confirmed &&& ~~~(resolveConflicts c).2 &&& capsKnown &&& ~~~capsWiring) k ↔ _
  have hbits : ∀ a b, Has (a &&& ~~~b) k ↔ Has a k ∧ ¬ Has b k := by
    intro a b
    unfold Has
    rw [UInt32.toBitVec_and, UInt32.toBitVec_not, BitVec.getLsbD_and, BitVec.getLsbD_not,
      Bool.and_eq_true, Bool.and_eq_true, Bool.not_eq_true', Bool.not_eq_true, decide_eq_true_eq]
    exact ⟨fun ⟨ha,_,hb⟩ => ⟨ha,hb⟩,fun ⟨ha,hb⟩ => ⟨ha,BitVec.lt_of_getLsbD ha,hb⟩⟩
  have hand : ∀ a b, Has (a &&& b) k ↔ Has a k ∧ Has b k := by
    intro a b
    unfold Has
    rw [UInt32.toBitVec_and, BitVec.getLsbD_and, Bool.and_eq_true]
  rw [hbits, hand, hbits]
  show _ ↔ Has c.confirmed k ∧ Has capsKnown k ∧ ¬ Has capsWiring k ∧
    ¬ Has (resolveConflicts c).2 k
  constructor
  · rintro ⟨⟨⟨h1,h2⟩,h3⟩,h4⟩
    exact ⟨h1,h3,h4,h2⟩
  · rintro ⟨h1,h3,h4,h2⟩
    exact ⟨⟨⟨h1,h2⟩,h3⟩,h4⟩

/-- A judgement makes states and capabilities exact, whatever they were before. -/
theorem recompute_exact (c : ModuleCore) {holds : ℕ → Option ModuleDesc}
    (h : ∀ i, Agrees (c.slot i) (holds i)) :
    (∀ i, Agrees ((recompute c).1.slot i) (holds i)) ∧ Exact (recompute c).1 holds := by
  refine ⟨fun i => ?_,fun i hi => recompute_conflict c h i (.inl hi),recompute_caps c h⟩
  have hj := resolvePairs_judged (slotPairs c.n)
    (fun i => if i < c.n then presumeKnown (c.slot i) else c.slot i,0) i
  have ha := presumed_agrees h i
  cases ho : holds i with
  | none =>
    rw [ho] at ha
    refine ⟨hj.valid.trans ha.1,fun hc => ?_⟩
    obtain ⟨j,d,e,-,-,-,hd,-⟩ := (recompute_conflict c h i (.inr ho)).mp hc
    rw [ho] at hd
    cases hd
  | some d =>
    rw [ho] at ha
    exact ⟨hj.valid.trans ha.1,hj.id.trans ha.2.1,hj.declared.trans ha.2.2⟩

theorem exact_same {c d : ModuleCore} {holds : ℕ → Option ModuleDesc} (hc : Exact c holds)
    (h : SameEntries c d) : Exact d holds := by
  refine ⟨fun i hi => ?_,fun k => ?_⟩
  · rw [(h.slot i).1, h.n]
    exact hc.conflict i (h.n ▸ hi)
  · rw [h.caps, h.confirmed, h.n]
    exact hc.caps k

/-- Entries always say what the slots hold, and are judged exactly once nothing is pending. -/
structure WatchInv (w : Watched) : Prop where
  agrees : ∀ i, Agrees (w.state.core.slot i) (w.holds i)
  exact : Quiet w.state → Exact w.state.core w.holds

theorem watchInv_start (wires : ℕ → ModuleWiring) (n : ℕ) : WatchInv (watchStart wires n) where
  agrees := fun _ => ⟨rfl,fun h => by cases h⟩
  exact := by
    refine fun _ => ⟨fun i _ => ⟨fun h => (by cases h),?_⟩,fun k => ⟨fun h => ?_,fun h => ?_⟩⟩
    · rintro ⟨j,d,e,-,-,-,hd,-⟩
      cases hd
    · simp [Has, watchStart, start, moduleCoreInit] at h
    · simp [Has, watchStart, start, moduleCoreInit] at h

theorem changes_some {s : State} {a : Act} {i : ℕ} {u : ModuleSlot} (h : changes s a = some (i,u)) :
    ∃ probe read raw, a = .scan probe read raw ∧
      apply (s.core.slot i) probe read raw = (u,true) := by
  cases a with
  | scan probe read raw =>
    obtain ⟨r,-,hr⟩ := Option.bind_eq_some_iff.mp h
    split at hr
    · rename_i v hv
      cases hr
      exact ⟨probe,read,raw,rfl,hv⟩
    · cases hr
  | _ => cases h

theorem watchInv_step (w : Watched) (a : Act) (v : Watched) (hi : WatchInv w)
    (h : watch w a = some v) : WatchInv v := by
  obtain ⟨t,ht,rfl⟩ := Option.map_eq_some_iff.mp h
  cases step_touches ht with
  | none hchange hsame hquiet =>
    have hheld : heldAfter w a = w.holds := by
      unfold heldAfter
      rw [hchange]
    rw [hheld]
    exact ⟨fun i => agrees_same (hi.agrees i) (hsame.slot i),
      fun hq => exact_same (hi.exact (hquiet hq)) hsame⟩
  | entry i u hchange hloud hcore =>
    obtain ⟨probe,read,raw,rfl,happly⟩ := changes_some hchange
    have hheld : heldAfter w (.scan probe read raw) =
        Function.update w.holds i (described probe read raw) := by
      unfold heldAfter
      rw [hchange]
    rw [hheld]
    refine ⟨fun k => ?_,fun hq => absurd hq hloud⟩
    dsimp only
    rw [hcore]
    dsimp only
    by_cases hk : k = i
    · subst k
      have hu := apply_agrees (w.state.core.slot i) probe read raw (by rw [happly])
      rw [happly] at hu
      rw [Function.update_self, Function.update_self]
      exact agrees_same hu ⟨rfl,rfl⟩
    · rw [Function.update_of_ne hk, Function.update_of_ne hk]
      exact hi.agrees k
  | all confirmed hchange hcore =>
    have hheld : heldAfter w a = w.holds := by
      unfold heldAfter
      rw [hchange]
    obtain ⟨hagrees,hexact⟩ := recompute_exact { w.state.core with confirmed := confirmed } hi.agrees
    rw [hheld, ← hcore] at *
    exact ⟨hagrees,fun _ => hexact⟩

/-- Between two polling rounds a slot is in conflict exactly when the descriptor it holds
clashes with that of another slot, and the capabilities are those confirmed and known, no
wiring, less the exclusive ones that clashing slots declare. -/
theorem conflicts_exact (wires : ℕ → ModuleWiring) (n : ℕ) (as : List Act) (s : State)
    (h : Run step Free (start wires n) as s) (hround : s.round = none) :
    ∃ holds, Run watch Free (watchStart wires n) as ⟨s,holds⟩ ∧ Exact s.core holds := by
  obtain ⟨holds,hw⟩ := run_watch as h fun _ => none
  have hi := run_invariant WatchInv (fun s a t hi _ h => watchInv_step s a t hi h) as
    (watchInv_start wires n) hw
  exact ⟨holds,hw,hi.exact (.inl hround)⟩

def readerChip : List UInt8 :=
  [83,77,1,0,19,0,1,0,4,0,0,0,78,70,67,0,0,0,0,0,0,0,0,0,0,0,0,0,0,0,180,190]

def rivalRun : List Act :=
  [.tick,.scan .ok .ok readerChip,.scan .ok .ok readerChip,.settle,.tick,.scan .ok .ok readerChip,
    .confirm capNfc true,.scan .ok .ok readerChip,.settle]

theorem conflicts_exact_rivals : ∃ s holds, Run watch Free (watchStart benchWires 2) rivalRun ⟨s,holds⟩ ∧
    (s.core.slot 0).e.state = .conflict ∧ s.core.confirmed = capNfc ∧ s.core.caps = 0 ∧
      Exact s.core holds := by
  obtain ⟨s,hs,hround,hstate,hconfirmed,hcaps⟩ := run_witness step (G := Free)
    (s := start benchWires 2) (p := fun s => s.round = none ∧ (s.core.slot 0).e.state = .conflict ∧
      s.core.confirmed = capNfc ∧ s.core.caps = 0) rivalRun (by decide +kernel) (by decide +kernel)
  obtain ⟨holds,hw,hexact⟩ := conflicts_exact benchWires 2 rivalRun s hs hround
  exact ⟨s,holds,hw,hstate,hconfirmed,hcaps,hexact⟩

end StarkOne.ModuleConflicts
