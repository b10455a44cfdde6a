import StarkOne.ModuleConflicts

/-!
# What a polling round reports

A round works through the slots and returns the mask of those whose entry
changed. The entries are judged again only after the mask is complete, so a
slot that keeps its module can change without being in the mask.
-/

set_option autoImplicit false

namespace StarkOne.ModuleTick
open StarkOne.Machine StarkOne.ModuleFormat StarkOne.ModuleBus StarkOne.ModuleLeases
open StarkOne.ModuleConflicts

/-- The answers of a slot's chip in a round. -/
structure Answer where
  probe : StarkErr
  read : StarkErr
  raw : List UInt8

section
variable (bus : ℕ → Answer)

def scan (r : ModuleCore × ℕ) (i : ℕ) : ModuleCore × ℕ :=
  let (core,b) := tickSlot r.1 i (bus i).probe (bus i).read (bus i).raw
  (core,if b then r.2 ||| 1 <<< i else r.2)

/-- The core after the round, and the mask of the slots whose entry changed. -/
def moduleCoreTick (c : ModuleCore) : ModuleCore × ℕ :=
  let r := (List.range c.n).foldl (scan bus) (c,0)
  (tickEnd r.1 r.2,r.2)

def scanAct (i : ℕ) : Act := .scan (bus i).probe (bus i).read (bus i).raw

def worked (c : ModuleCore) (i : ℕ) : ModuleSlot × Bool :=
  apply (c.slot i) (bus i).probe (bus i).read (bus i).raw

def afterWork (c : ModuleCore) (i : ℕ) : ModuleSlot :=
  if (worked bus c i).2 then revoke (worked bus c i).1 else (worked bus c i).1

structure Scanned (c : ModuleCore) (m : ℕ) (r : ModuleCore × ℕ) : Prop where
  n : r.1.n = c.n
  confirmed : r.1.confirmed = c.confirmed
  caps : r.1.caps = c.caps
  slot : ∀ k, r.1.slot k = if k < m then afterWork bus c k else c.slot k
  mask : ∀ k, r.2.testBit k = (decide (k < m) && (worked bus c k).2)

theorem scanned_zero (c : ModuleCore) : Scanned bus c 0 (c,0) where
  n := rfl
  confirmed := rfl
  caps := rfl
  slot := fun k => by rw [if_neg (Nat.not_lt_zero k)]
  mask := fun k => by simp

variable {bus}

theorem scan_scanned {c : ModuleCore} {m : ℕ} {r : ModuleCore × ℕ} (h : Scanned bus c m r) :
    Scanned bus c (m+1) (scan bus r m) := by
  have hm : r.1.slot m = c.slot m := by rw [h.slot, if_neg (Nat.lt_irrefl m)]
  have hscan : scan bus r m = ({ r.1 with slot := Function.update r.1.slot m (afterWork bus c m) },
      if (worked bus c m).2 then r.2 ||| 1 <<< m else r.2) := by
    unfold scan tickSlot afterWork worked
    rw [hm]
    obtain ⟨s,b⟩ := apply (c.slot m) (bus m).probe (bus m).read (bus m).raw
    cases b <;> rfl
  rw [hscan]
  refine ⟨h.n,h.confirmed,h.caps,fun k => ?_,fun k => ?_⟩
  · by_cases hk : k = m
    · subst k
      rw [if_pos (Nat.lt_succ_self m)]
      exact Function.update_self _ _ _
    · rw [show (if k < m+1 then afterWork bus c k else c.slot k) =
        if k < m then afterWork bus c k else c.slot k from if_congr (by omega) rfl rfl, ← h.slot]
      exact Function.update_of_ne hk _ _
  · have hbit : (r.2 ||| 1 <<< m).testBit k = (r.2.testBit k || decide (m = k)) := by
      rw [Nat.testBit_or, Nat.one_shiftLeft, Nat.testBit_two_pow]
    have hlt : decide (k < m+1) = (decide (k < m) || decide (m = k)) := by
      rw [← Bool.decide_or]
      exact decide_eq_decide.mpr (by omega)
    dsimp only
    by_cases hk : m = k
    · subst k
      cases hw : (worked bus c m).2
      · rw [if_neg (by decide), h.mask, hw, Bool.and_false, Bool.and_false]
      · rw [if_pos rfl, hbit, decide_eq_true (Nat.lt_succ_self m)]
        simp
    · split
      · rw [hbit, h.mask, hlt, decide_eq_false hk, Bool.or_false, Bool.or_false]
      · rw [h.mask, hlt, decide_eq_false hk, Bool.or_false]

theorem scanned_range (bus : ℕ → Answer) (c : ModuleCore) (m : ℕ) :
    Scanned bus c m ((List.range m).foldl (scan bus) (c,0)) := by
  induction m with
  | zero => exact scanned_zero bus c
  | succ m ih =>
    rw [List.range_succ, List.foldl_append]
    exact scan_scanned ih

theorem round_scans {s : State} (m : ℕ) (hm : m ≤ s.core.n) :
    Run step Free { s with round := some (0,0) } ((List.range m).map (scanAct bus))
      { s with
        core := ((List.range m).foldl (scan bus) (s.core,0)).1
        round := some (m,((List.range m).foldl (scan bus) (s.core,0)).2) } := by
  induction m with
  | zero => rfl
  | succ m ih =>
    rw [List.range_succ, List.map_append, List.foldl_append]
    refine (run_append _ _).mpr ⟨_,ih (Nat.le_of_succ_le hm),trivial,_,?_,rfl⟩
    have hn := (scanned_range bus s.core m).n
    unfold scanAct step
    dsimp only
    rw [if_neg (by omega)]
    rfl

theorem round_run {s : State} (hround : s.round = none) :
    Run step Free s (.tick::(List.range s.core.n).map (scanAct bus)++[.settle])
      { s with core := (moduleCoreTick bus s.core).1 } := by
  refine ⟨trivial,{ s with round := some (0,0) },?_,(run_append _ _).mpr
    ⟨_,round_scans s.core.n (Nat.le_refl _),trivial,_,?_,rfl⟩⟩
  · unfold step
    rw [hround]
  · have hn := (scanned_range bus s.core s.core.n).n
    unfold step
    dsimp only
    rw [if_neg (by omega), ← hround]
    rfl

end

/-- The slot's module is removed, replaced or found in this round. -/
def turnsOver (s : ModuleSlot) (a : Answer) : Bool :=
  if a.probe ≠ .ok then s.e.state ≠ .absent && moduleMissLimit ≤ s.misses+1
  else if a.read ≠ .ok then s.e.state = .absent && moduleReadLimit ≤ s.readErrors+1
  else
    let h := hash32 (a.raw.take moduleDescSize)
    s.seen && h = s.seenHash && !(s.accepted && h = s.acceptedHash)

theorem counted_lt (n limit : ℕ) :
    decide ((if n < limit then n+1 else n) < limit) = !decide (limit ≤ n+1) := by
  rw [← decide_not]
  exact decide_eq_decide.mpr (by split <;> omega)

theorem apply_turnsOver (s : ModuleSlot) (a : Answer) :
    (apply s a.probe a.read a.raw).2 = turnsOver s a := by
  unfold apply turnsOver
  by_cases hp : a.probe ≠ .ok
  · rw [if_pos hp, if_pos hp]
    dsimp only
    rw [apply_ite Prod.snd, counted_lt]
    by_cases hs : s.e.state = .absent <;> by_cases hm : moduleMissLimit ≤ s.misses+1 <;> simp [hs, hm]
  · rw [if_neg hp, if_neg hp]
    by_cases hr : a.read ≠ .ok
    · rw [if_pos hr, if_pos hr]
      dsimp only
      rw [apply_ite Prod.snd, counted_lt]
      by_cases hs : s.e.state = .absent <;> by_cases hm : moduleReadLimit ≤ s.readErrors+1 <;>
        simp [hs, hm]
    · rw [if_neg hr, if_neg hr]
      dsimp only
      rw [apply_ite Prod.snd]
      cases s.seen <;> cases s.accepted <;> simp

def holdsNext (c : ModuleCore) (holds : ℕ → Option ModuleDesc) (bus : ℕ → Answer) (i : ℕ) :
    Option ModuleDesc :=
  if turnsOver (c.slot i) (bus i) then described (bus i).probe (bus i).read (bus i).raw
  else holds i

def Rivalled (n : ℕ) (holds : ℕ → Option ModuleDesc) (i : ℕ) : Prop :=
  ∃ j d e, Rivals n holds i j d e

structure Restated (s t : ModuleSlot) : Prop where
  entry : t.e = { s.e with state := t.e.state }
  valid : t.valid = s.valid
  state : s.valid = false → t.e.state = s.e.state

theorem restated_refl (s : ModuleSlot) : Restated s s := ⟨rfl,rfl,fun _ => rfl⟩

theorem restated_trans {s t u : ModuleSlot} (h : Restated s t) (g : Restated t u) :
    Restated s u where
  entry := by
    rw [g.entry, h.entry]
  valid := g.valid.trans h.valid
  state := fun hv => (g.state (h.valid.trans hv)).trans (h.state hv)

theorem restated_valid {s t : ModuleSlot} (hv : s.valid = true)
    (he : t.e = { s.e with state := t.e.state }) (ht : t.valid = s.valid) : Restated s t := by
  refine ⟨he,ht,fun h => ?_⟩
  rw [hv] at h
  cases h

theorem resolvePair_restated (r : (ℕ → ModuleSlot) × UInt32) (p : ℕ × ℕ) (k : ℕ) :
    Restated (r.1 k) ((resolvePair r p).1 k) := by
  unfold resolvePair
  dsimp only
  split
  · rename_i hp
    have hvalid := Bool.and_eq_true_iff.mp (Bool.and_eq_true_iff.mp hp).1
    dsimp only
    split
    · rename_i hk
      subst hk
      exact restated_valid hvalid.1 rfl rfl
    · split
      · rename_i hk
        subst hk
        exact restated_valid hvalid.2 rfl rfl
      · exact restated_refl _
  · exact restated_refl _

theorem resolvePairs_restated (ps : List (ℕ × ℕ)) (r : (ℕ → ModuleSlot) × UInt32) (k : ℕ) :
    Restated (r.1 k) ((ps.foldl resolvePair r).1 k) := by
  induction ps generalizing r with
  | nil => exact restated_refl _
  | cons p ps ih => exact restated_trans (resolvePair_restated r p k) (ih (resolvePair r p))

theorem recompute_restated (c : ModuleCore) (k : ℕ) :
    Restated (c.slot k) ((recompute c).1.slot k) := by
  refine restated_trans ?_ (resolvePairs_restated (slotPairs c.n) _ k)
  dsimp only
  split
  · unfold presumeKnown
    split
    · exact restated_valid ‹_› rfl rfl
    · exact restated_refl _
  · exact restated_refl _

def Judgeable (s : ModuleSlot) : Prop := s.valid = true → s.e.state = .known ∨ s.e.state = .conflict

theorem resolvePair_judgeable {r : (ℕ → ModuleSlot) × UInt32} (p : ℕ × ℕ)
    (h : ∀ i, Judgeable (r.1 i)) (k : ℕ) : Judgeable ((resolvePair r p).1 k) := by
  unfold resolvePair
  dsimp only
  split
  · dsimp only
    split
    · exact fun _ => .inr rfl
    · split
      · exact fun _ => .inr rfl
      · exact h k
  · exact h k

theorem resolvePairs_judgeable (ps : List (ℕ × ℕ)) {r : (ℕ → ModuleSlot) × UInt32}
    (h : ∀ i, Judgeable (r.1 i)) (k : ℕ) : Judgeable ((ps.foldl resolvePair r).1 k) := by
  induction ps generalizing r with
  | nil => exact h k
  | cons p ps ih => exact ih (resolvePair_judgeable p h)

theorem recompute_judgeable (c : ModuleCore) (h : ∀ i, Judgeable (c.slot i)) (k : ℕ) :
    Judgeable ((recompute c).1.slot k) := by
  refine resolvePairs_judgeable (slotPairs c.n) (fun i => ?_) k
  dsimp only
  split
  · unfold presumeKnown
    split
    · exact fun _ => .inl rfl
    · exact h i
  · exact h i

theorem accept_judgeable (s : ModuleSlot) (raw : List UInt8) : Judgeable (accept s raw) := by
  unfold accept makeGeneric
  split
  · exact fun h => by cases h
  · dsimp only
    split
    · exact fun _ => .inl rfl
    · exact fun h => by cases h

/-- A turnover clears the entry or fills it anew. -/
theorem apply_judgeable (s : ModuleSlot) (probe read : StarkErr) (raw : List UInt8)
    (h : (apply s probe read raw).2 = true) : Judgeable (apply s probe read raw).1 := by
  obtain ⟨t,⟨-,hslot⟩ | ⟨-,-,hslot⟩ | ⟨-,-,hslot⟩⟩ := apply_updated h
  · rw [hslot]
    exact fun hv => by cases hv
  · rw [hslot]
    exact fun hv => by cases hv
  · rw [hslot]
    exact accept_judgeable t raw

theorem judgeable_step (s : State) (a : Act) (t : State) (hi : ∀ i, Judgeable (s.core.slot i))
    (h : step s a = some t) (i : ℕ) : Judgeable (t.core.slot i) := by
  cases step_touches h with
  | none hchange hsame =>
    unfold Judgeable
    rw [(hsame.slot i).1, (hsame.slot i).2]
    exact hi i
  | entry k u hchange hloud hcore =>
    obtain ⟨probe,read,raw,-,happly⟩ := changes_some hchange
    rw [hcore]
    dsimp only
    by_cases hk : i = k
    · subst k
      rw [Function.update_self]
      have hu := apply_judgeable (s.core.slot i) probe read raw (by rw [happly])
      rw [happly] at hu
      exact hu
    · rw [Function.update_of_ne hk]
      exact hi i
  | all confirmed hchange hcore =>
    rw [hcore]
    exact recompute_judgeable { s.core with confirmed := confirmed } hi i

theorem worked_agrees {c : ModuleCore} {holds : ℕ → Option ModuleDesc} {bus : ℕ → Answer}
    (h : ∀ i, Agrees (c.slot i) (holds i)) (i : ℕ) :
    Agrees (afterWork bus c i) (holdsNext c holds bus i) := by
  unfold afterWork holdsNext
  rw [← apply_turnsOver]
  cases hw : (worked bus c i).2 with
  | false =>
    have hw' : (apply (c.slot i) (bus i).probe (bus i).read (bus i).raw).2 = false := hw
    rw [hw', if_neg (by decide), if_neg (by decide)]
    exact agrees_same (h i) ((apply_keeps _ _ _ _).entry hw)
  | true =>
    have hw' : (apply (c.slot i) (bus i).probe (bus i).read (bus i).raw).2 = true := hw
    rw [hw', if_pos rfl, if_pos rfl]
    exact agrees_same (apply_agrees _ _ _ _ hw) ⟨rfl,rfl⟩

theorem worked_judgeable {c : ModuleCore} {bus : ℕ → Answer} (h : ∀ i, Judgeable (c.slot i)) (i : ℕ) :
    Judgeable (afterWork bus c i) := by
  unfold afterWork
  cases hw : (worked bus c i).2 with
  | false =>
    rw [if_neg (by decide)]
    obtain ⟨he,hv⟩ := (apply_keeps _ _ _ _).entry hw
    unfold Judgeable worked
    rw [he, hv]
    exact h i
  | true =>
    rw [if_pos rfl]
    exact apply_judgeable _ _ _ _ hw

theorem rivalled_congr {n : ℕ} {holds holds' : ℕ → Option ModuleDesc}
    (h : ∀ i < n, holds i = holds' i) (i : ℕ) : Rivalled n holds i ↔ Rivalled n holds' i := by
  refine exists_congr fun j => exists_congr fun d => exists_congr fun e => ?_
  unfold Rivals
  constructor
  · rintro ⟨hi,hj,hij,hd,he,hc⟩
    exact ⟨hi,hj,hij,(h i hi).symm.trans hd,(h j hj).symm.trans he,hc⟩
  · rintro ⟨hi,hj,hij,hd,he,hc⟩
    exact ⟨hi,hj,hij,(h i hi).trans hd,(h j hj).trans he,hc⟩

section
variable {c : ModuleCore} {holds : ℕ → Option ModuleDesc} (bus : ℕ → Answer)

theorem tick_mask (c : ModuleCore) {i : ℕ} (hi : i < c.n) :
    (moduleCoreTick bus c).2.testBit i = turnsOver (c.slot i) (bus i) := by
  show ((List.range c.n).foldl (scan bus) (c,0)).2.testBit i = _
  rw [(scanned_range bus c c.n).mask, decide_eq_true hi, Bool.true_and]
  exact apply_turnsOver _ _

theorem tick_calm (c : ModuleCore) (h : ∀ i < c.n, turnsOver (c.slot i) (bus i) = false) (i : ℕ) :
    ((moduleCoreTick bus c).1.slot i).e = (c.slot i).e := by
  have hs := scanned_range bus c c.n
  have hmask : ((List.range c.n).foldl (scan bus) (c,0)).2 = 0 := by
    refine Nat.eq_of_testBit_eq fun k => ?_
    rw [hs.mask, Nat.zero_testBit]
    by_cases hk : k < c.n
    · rw [decide_eq_true hk, Bool.true_and]
      exact (apply_turnsOver _ _).trans (h k hk)
    · rw [decide_eq_false hk, Bool.false_and]
  show ((tickEnd _ _).slot i).e = _
  unfold tickEnd
  rw [hmask, if_neg (by decide), hs.slot]
  split
  · rename_i hi
    have hw : (worked bus c i).2 = false := (apply_turnsOver _ _).trans (h i hi)
    unfold afterWork
    rw [hw, if_neg (by decide)]
    exact ((apply_keeps _ _ _ _).entry hw).1
  · rfl

theorem tick_judged (ha : ∀ i, Agrees (c.slot i) (holds i)) {k : ℕ} (hk : k < c.n)
    (hturn : turnsOver (c.slot k) (bus k) = true) {i : ℕ} (hi : i < c.n) :
    (((moduleCoreTick bus c).1.slot i).e.state = .conflict ↔
      Rivalled c.n (holdsNext c holds bus) i) ∧
    Restated (afterWork bus c i) ((moduleCoreTick bus c).1.slot i) ∧
    ((∀ i, Judgeable (c.slot i)) → Judgeable ((moduleCoreTick bus c).1.slot i)) := by
  have hs := scanned_range bus c c.n
  let r := (List.range c.n).foldl (scan bus) (c,0)
  have hbit : r.2.testBit k = true := (tick_mask bus c hk).trans hturn
  have hmask : r.2 ≠ 0 := by
    intro h0
    rw [h0, Nat.zero_testBit] at hbit
    cases hbit
  have htick : (moduleCoreTick bus c).1 = (recompute r.1).1 := if_pos hmask
  let now : ℕ → Option ModuleDesc := fun i => if i < c.n then holdsNext c holds bus i else holds i
  have hnow : ∀ i, Agrees (r.1.slot i) (now i) := by
    intro i
    rw [hs.slot]
    by_cases hi : i < c.n
    · rw [if_pos hi, show now i = holdsNext c holds bus i from if_pos hi]
      exact worked_agrees ha i
    · rw [if_neg hi, show now i = holds i from if_neg hi]
      exact ha i
  have hn : r.1.n = c.n := hs.n
  rw [htick]
  refine ⟨?_,?_,fun hj => ?_⟩
  · rw [recompute_conflict r.1 hnow i (.inl (hn ▸ hi)), hn]
    exact rivalled_congr (fun i hi => if_pos hi) i
  · have hre := recompute_restated r.1 i
    rw [hs.slot, if_pos hi] at hre
    exact hre
  · refine recompute_judgeable r.1 (fun i => ?_) i
    rw [hs.slot]
    split
    · exact worked_judgeable hj i
    · exact hj i

/-- A slot that keeps its module changes just when it gains its first rival or loses its last. -/
theorem kept_unchanged (ha : ∀ i, Agrees (c.slot i) (holds i)) (hj : ∀ i, Judgeable (c.slot i))
    (hx : Exact c holds) {k : ℕ} (hk : k < c.n) (hturn : turnsOver (c.slot k) (bus k) = true)
    {i : ℕ} (hi : i < c.n) (hkeep : turnsOver (c.slot i) (bus i) = false) :
    ((moduleCoreTick bus c).1.slot i).e = (c.slot i).e ↔
      (Rivalled c.n holds i ↔ Rivalled c.n (holdsNext c holds bus) i) := by
  obtain ⟨hafter,hre,hjudge⟩ := tick_judged bus ha hk hturn hi
  have hw : (worked bus c i).2 = false := (apply_turnsOver _ _).trans hkeep
  have hkept : (afterWork bus c i).e = (c.slot i).e ∧ (afterWork bus c i).valid = (c.slot i).valid := by
    unfold afterWork
    rw [hw, if_neg (by decide)]
    exact (apply_keeps _ _ _ _).entry hw
  have hentry := hre.entry
  rw [hkept.1] at hentry
  have hbefore : (c.slot i).e.state = .conflict ↔ Rivalled c.n holds i := hx.conflict i hi
  rw [← hbefore, ← hafter]
  constructor
  · intro he
    rw [he]
  · intro hiff
    have hstate : ((moduleCoreTick bus c).1.slot i).e.state = (c.slot i).e.state := by
      cases hv : (c.slot i).valid with
      | false =>
        rw [hre.state (hkept.2.trans hv), hkept.1]
      | true =>
        have hbefore := hj i hv
        have hnow := hjudge hj (hre.valid.trans (hkept.2.trans hv))
        rcases hbefore with hb | hb <;> rcases hnow with hn | hn
        · exact hn.trans hb.symm
        · rw [hb] at hiff
          cases hiff.mpr hn
        · rw [hn] at hiff
          cases hiff.mp hb
        · exact hn.trans hb.symm
    rw [hentry, hstate]

end

theorem judgeable_start (wires : ℕ → ModuleWiring) (n i : ℕ) :
    Judgeable ((start wires n).core.slot i) := fun h => by cases h

theorem judgeable_watch (w : Watched) (a : Act) (v : Watched)
    (hi : ∀ i, Judgeable (w.state.core.slot i)) (h : watch w a = some v) (i : ℕ) :
    Judgeable (v.state.core.slot i) := by
  obtain ⟨t,ht,rfl⟩ := Option.map_eq_some_iff.mp h
  exact judgeable_step _ _ _ hi ht i

/-- A round is taken by the machine in one piece, and its mask has every slot whose entry
changes just when no slot that keeps its module gains its first rival or loses its last. -/
theorem tick_reports (wires : ℕ → ModuleWiring) (n : ℕ) (as : List Act) (s : State)
    (holds : ℕ → Option ModuleDesc) (h : Run watch Free (watchStart wires n) as ⟨s,holds⟩)
    (hround : s.round = none) (bus : ℕ → Answer) :
    Run step Free s (.tick::(List.range s.core.n).map (scanAct bus)++[.settle])
      { s with core := (moduleCoreTick bus s.core).1 } ∧
    ((∀ i < s.core.n, ((moduleCoreTick bus s.core).1.slot i).e ≠ (s.core.slot i).e →
        (moduleCoreTick bus s.core).2.testBit i = true) ↔
      ∀ i < s.core.n, turnsOver (s.core.slot i) (bus i) = false →
        (Rivalled s.core.n holds i ↔ Rivalled s.core.n (holdsNext s.core holds bus) i)) := by
  have hi := run_invariant WatchInv (fun s a t hi _ h => watchInv_step s a t hi h) as
    (watchInv_start wires n) h
  have hj := run_invariant (fun w : Watched => ∀ i, Judgeable (w.state.core.slot i))
    (fun w a v hi _ h => judgeable_watch w a v hi h) as (judgeable_start wires n) h
  have hx := hi.exact (.inl hround)
  refine ⟨round_run hround,?_⟩
  by_cases hcalm : ∀ i < s.core.n, turnsOver (s.core.slot i) (bus i) = false
  · refine iff_of_true (fun i _ hne => absurd (tick_calm bus s.core hcalm i) hne) fun i _ _ => ?_
    refine rivalled_congr (fun j hj => ?_) i
    unfold holdsNext
    rw [hcalm j hj, if_neg (by decide)]
  · simp only [not_forall, Bool.not_eq_false] at hcalm
    obtain ⟨k,hk,hturn⟩ := hcalm
    refine forall_congr' fun i => forall_congr' fun hlt => ?_
    rw [tick_mask bus s.core hlt]
    cases ht : turnsOver (s.core.slot i) (bus i) with
    | true => exact iff_of_true (fun _ => rfl) fun h => by cases h
    | false =>
      rw [← kept_unchanged bus hi.agrees hj hx hk hturn hlt ht]
      constructor
      · exact fun h _ => Classical.byContradiction fun hne => (by cases h hne)
      · exact fun h hne => absurd (h rfl) hne

def foundRun : List Act :=
  [.tick,.scan .ok .ok readerChip,.scan .timeout .state [],.settle,.tick,.scan .ok .ok readerChip,
    .scan .timeout .state [],.settle]

def secondRun : List Act :=
  foundRun++[.tick,.scan .ok .ok readerChip,.scan .ok .ok readerChip,.settle]

def readerBus : ℕ → Answer := fun _ => ⟨.ok,.ok,readerChip⟩

def readRun : List Act := [.tick,.scan .ok .ok readerChip,.scan .ok .ok readerChip,.settle]

theorem tick_reports_pair : ∃ s holds,
    Run watch Free (watchStart benchWires 2) readRun ⟨s,holds⟩ ∧ s.core.n = 2 ∧
    (moduleCoreTick readerBus s.core).2 = 3 ∧
    ∀ i < s.core.n, ((moduleCoreTick readerBus s.core).1.slot i).e ≠ (s.core.slot i).e →
      (moduleCoreTick readerBus s.core).2.testBit i = true := by
  obtain ⟨s,hs,hround,hn,hmask,hturn⟩ := run_witness step (G := Free) (s := start benchWires 2)
    (p := fun s => s.round = none ∧ s.core.n = 2 ∧ (moduleCoreTick readerBus s.core).2 = 3 ∧
      ∀ i < s.core.n, turnsOver (s.core.slot i) (readerBus i) = true) readRun
    (by decide +kernel) (by decide +kernel)
  obtain ⟨holds,hw⟩ := run_watch readRun hs fun _ => none
  refine ⟨s,holds,hw,hn,hmask,?_⟩
  refine (tick_reports benchWires 2 readRun s holds hw hround readerBus).2.mpr fun i hi hkeep => ?_
  rw [hturn i hi] at hkeep
  cases hkeep

/-- The first slot goes into conflict and is not in the mask. -/
theorem tick_misses_peer : ∃ s : State, Run step Free (start benchWires 2) secondRun s ∧
    s.round = none ∧ (moduleCoreTick readerBus s.core).2 = 2 ∧
    (s.core.slot 0).e.state = .known ∧
    ((moduleCoreTick readerBus s.core).1.slot 0).e.state = .conflict := by
  obtain ⟨s,hs,h⟩ := run_witness step (G := Free) (s := start benchWires 2)
    (p := fun s => s.round = none ∧ (moduleCoreTick readerBus s.core).2 = 2 ∧
      (s.core.slot 0).e.state = .known ∧
      ((moduleCoreTick readerBus s.core).1.slot 0).e.state = .conflict) secondRun
    (by decide +kernel) (by decide +kernel)
  exact ⟨s,hs,h⟩

end StarkOne.ModuleTick
