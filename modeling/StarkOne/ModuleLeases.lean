import StarkOne.Machine
import StarkOne.ModuleBus

/-!
# Module leases

A polling round goes slot by slot and frees the lock in between, so claims and
releases fall between its steps. A slot is either kept as it was for its
holder or every lease on it goes stale, and the number of revocations tells
the leases of one slot apart.
-/

set_option autoImplicit false

namespace StarkOne.ModuleLeases
open StarkOne.Machine
open StarkOne.StoragePath (CStr)
open StarkOne.ModuleFormat StarkOne.ModuleBus

/-- A lease handed out, with what was claimed and the revocations of its slot by then. -/
structure Grant where
  lease : ModuleLease
  caps : UInt32
  since : ℕ

/-- A polling round under way has its next slot and the mask of changes so far. -/
structure State where
  core : ModuleCore
  round : Option (ℕ × ℕ)
  grants : List Grant

inductive Act where
  | tick
  | scan (probe read : StarkErr) (raw : List UInt8)
  | settle
  | claim (slot : ℕ) (caps : UInt32) (owner : Option CStr) (out : Bool)
  | release (l : Option ModuleLease)
  | confirm (caps : UInt32) (present : Bool)
  | provide (kind : ModuleKind) (name : CStr) (caps : UInt32)
  | list (max : ℕ)

def start (wires : ℕ → ModuleWiring) (n : ℕ) : State := ⟨moduleCoreInit wires n,none,[]⟩

def step (s : State) : Act → Option State
  | .tick => match s.round with
    | none => some { s with round := some (0,0) }
    | some _ => none
  | .scan probe read raw => match s.round with
    | none => none
    | some (i,changed) =>
      if s.core.n ≤ i then none
      else
        let (core,b) := tickSlot s.core i probe read raw
        some { s with
          core := core, round := some (i+1,if b then changed ||| 1 <<< i else changed) }
  | .settle => match s.round with
    | none => none
    | some (i,changed) =>
      if i < s.core.n then none
      else some { s with core := tickEnd s.core changed, round := none }
  | .claim slot caps owner out => match moduleCoreClaim s.core slot caps owner out with
    | (.ok l,core) => some { s with
        core := core, grants := s.grants++[⟨l,caps,(s.core.slot slot).revocations⟩] }
    | (.error _,core) => some { s with core := core }
  | .release l => some { s with core := moduleCoreRelease s.core l }
  | .confirm caps present => some { s with core := (moduleCoreConfirm s.core caps present).1 }
  | .provide kind name caps => some { s with core := moduleCoreProvide s.core kind name caps }
  | .list _ => some s

structure Evolves (s t : ModuleSlot) : Prop where
  wire : t.wire = s.wire
  fate : t.revocations = s.revocations ∧ t.owner = s.owner ∧ t.claimed = s.claimed ∧
      (s.e.state = .known → t.e.state = .known) ∨
    s.revocations < t.revocations ∧ t.owner = none
  sound : (s.e.state = .known → s.valid = true) → t.e.state = .known → t.valid = true

theorem evolves_refl (s : ModuleSlot) : Evolves s s :=
  ⟨rfl,.inl ⟨rfl,rfl,rfl,id⟩,id⟩

theorem evolves_trans {s t u : ModuleSlot} (h : Evolves s t) (g : Evolves t u) : Evolves s u := by
  refine ⟨g.wire.trans h.wire,?_,fun hs => g.sound (h.sound hs)⟩
  rcases h.fate with ⟨hr,ho,hc,hk⟩ | ⟨hr,ho⟩ <;> rcases g.fate with ⟨gr,go,gc,gk⟩ | ⟨gr,go⟩
  · exact .inl ⟨gr.trans hr,go.trans ho,gc.trans hc,fun h => gk (hk h)⟩
  · exact .inr ⟨hr ▸ gr,go⟩
  · exact .inr ⟨gr ▸ hr,go.trans ho⟩
  · exact .inr ⟨hr.trans gr,go⟩

theorem revoke_evolves (s : ModuleSlot) : Evolves s (revoke s) :=
  ⟨rfl,.inr ⟨Nat.lt_succ_self _,rfl⟩,id⟩

/-- The bus work of a slot touches neither its claim nor its wiring, and an entry that
it reports unchanged is unchanged. -/
structure Keeps (s : ModuleSlot) (r : ModuleSlot × Bool) : Prop where
  wire : r.1.wire = s.wire
  owner : r.1.owner = s.owner
  claimed : r.1.claimed = s.claimed
  revocations : r.1.revocations = s.revocations
  entry : r.2 = false → r.1.e = s.e ∧ r.1.valid = s.valid
  sound : (s.e.state = .known → s.valid = true) → r.1.e.state = .known → r.1.valid = true

theorem accept_keeps (s : ModuleSlot) (raw : List UInt8) : Keeps s (accept s raw,true) := by
  unfold accept makeGeneric
  split
  · exact ⟨rfl,rfl,rfl,rfl,fun h => (by cases h),fun _ h => (by cases h)⟩
  · dsimp only
    split
    · exact ⟨rfl,rfl,rfl,rfl,fun h => (by cases h),fun _ _ => rfl⟩
    · exact ⟨rfl,rfl,rfl,rfl,fun h => (by cases h),fun _ h => (by cases h)⟩

theorem apply_keeps (s : ModuleSlot) (probe read : StarkErr) (raw : List UInt8) :
    Keeps s (apply s probe read raw) := by
  unfold apply
  dsimp only
  generalize (if s.misses < moduleMissLimit then s.misses+1 else s.misses) = misses
  generalize (if s.readErrors < moduleReadLimit then s.readErrors+1 else s.readErrors) = errors
  split
  · split
    · exact ⟨rfl,rfl,rfl,rfl,fun _ => ⟨rfl,rfl⟩,id⟩
    · exact ⟨rfl,rfl,rfl,rfl,fun h => (by cases h),fun _ h => (by cases h)⟩
  · split
    · split
      · exact ⟨rfl,rfl,rfl,rfl,fun _ => ⟨rfl,rfl⟩,id⟩
      · exact ⟨rfl,rfl,rfl,rfl,fun h => (by cases h),fun _ h => (by cases h)⟩
    · split
      · exact ⟨rfl,rfl,rfl,rfl,fun _ => ⟨rfl,rfl⟩,id⟩
      · obtain ⟨h1,h2,h3,h4,h5,h6⟩ := accept_keeps
          { s with
            misses := 0, readErrors := 0, seen := true, accepted := true,
            seenHash := hash32 (raw.take moduleDescSize),
            acceptedHash := hash32 (raw.take moduleDescSize) } raw
        exact ⟨h1,h2,h3,h4,h5,h6⟩

theorem tickSlot_evolves (c : ModuleCore) (i : ℕ) (probe read : StarkErr) (raw : List UInt8)
    (j : ℕ) : Evolves (c.slot j) ((tickSlot c i probe read raw).1.slot j) := by
  have hk := apply_keeps (c.slot i) probe read raw
  unfold tickSlot
  by_cases hj : j = i
  · subst j
    split
    · rename_i t ht
      rw [ht] at hk
      dsimp only
      rw [Function.update_self]
      exact ⟨hk.wire,.inr ⟨Nat.lt_succ_of_le (Nat.le_of_eq hk.revocations.symm),rfl⟩,hk.sound⟩
    · rename_i t ht
      rw [ht] at hk
      dsimp only
      rw [Function.update_self]
      obtain ⟨he,-⟩ := hk.entry rfl
      exact ⟨hk.wire,.inl ⟨hk.revocations,hk.owner,hk.claimed,fun h => he ▸ h⟩,hk.sound⟩
  · split <;> dsimp only <;> rw [Function.update_of_ne hj] <;> exact evolves_refl _

structure Judged (s t : ModuleSlot) : Prop where
  evolves : Evolves s t
  valid : t.valid = s.valid
  declared : t.e.declared = s.e.declared
  id : t.e.id = s.e.id
  conflict : s.e.state = .conflict → t.e.state = .conflict

theorem judged_refl (s : ModuleSlot) : Judged s s := ⟨evolves_refl s,rfl,rfl,rfl,id⟩

theorem judged_trans {s t u : ModuleSlot} (h : Judged s t) (g : Judged t u) : Judged s u :=
  ⟨evolves_trans h.evolves g.evolves,g.valid.trans h.valid,g.declared.trans h.declared,
    g.id.trans h.id,fun hs => g.conflict (h.conflict hs)⟩

theorem withConflict_judged (s : ModuleSlot) : Judged s (withConflict s) :=
  ⟨⟨rfl,.inr ⟨Nat.lt_succ_self _,rfl⟩,fun _ h => (by cases h)⟩,rfl,rfl,rfl,fun _ => rfl⟩

theorem presumeKnown_evolves (s : ModuleSlot) : Evolves s (presumeKnown s) := by
  unfold presumeKnown
  split
  · rename_i hv
    exact ⟨rfl,.inl ⟨rfl,rfl,rfl,fun _ => rfl⟩,fun _ _ => hv⟩
  · exact evolves_refl s

theorem resolvePair_judged (r : (ℕ → ModuleSlot) × UInt32) (p : ℕ × ℕ) (k : ℕ) :
    Judged (r.1 k) ((resolvePair r p).1 k) := by
  unfold resolvePair
  dsimp only
  split
  · dsimp only
    split
    · rename_i hk
      exact hk ▸ withConflict_judged _
    · split
      · rename_i hk
        exact hk ▸ withConflict_judged _
      · exact judged_refl _
  · exact judged_refl _

theorem resolvePairs_judged (ps : List (ℕ × ℕ)) (r : (ℕ → ModuleSlot) × UInt32) (k : ℕ) :
    Judged (r.1 k) ((ps.foldl resolvePair r).1 k) := by
  induction ps generalizing r with
  | nil => exact judged_refl _
  | cons p ps ih => exact judged_trans (resolvePair_judged r p k) (ih (resolvePair r p))

theorem overlap_judged {a b a' b' : ModuleSlot} (ha : Judged a a') (hb : Judged b b') :
    overlap a' b' = overlap a b := by
  unfold overlap
  rw [ha.declared, hb.declared, ha.id, hb.id]

theorem overlap_comm (a b : ModuleSlot) : overlap a b = overlap b a := by
  unfold overlap
  simp only [UInt32.or_comm a.e.declared, UInt32.and_comm a.e.declared, eq_comm (a := a.e.id)]

/-- Both slots hold a supported descriptor, and the descriptors exclude each other. -/
def Clashing (slot : ℕ → ModuleSlot) (p : ℕ × ℕ) : Prop :=
  ((slot p.1).valid && (slot p.2).valid && overlap (slot p.1) (slot p.2)) = true

theorem resolvePair_clashing (r : (ℕ → ModuleSlot) × UInt32) (p q : ℕ × ℕ) :
    Clashing (resolvePair r q).1 p ↔ Clashing r.1 p := by
  have h1 := resolvePair_judged r q p.1
  have h2 := resolvePair_judged r q p.2
  unfold Clashing
  rw [h1.valid, h2.valid, overlap_judged h1 h2]

theorem resolvePair_state (r : (ℕ → ModuleSlot) × UInt32) (p : ℕ × ℕ) (k : ℕ) :
    ((resolvePair r p).1 k).e.state = .conflict ↔
      (r.1 k).e.state = .conflict ∨ (k = p.1 ∨ k = p.2) ∧ Clashing r.1 p := by
  unfold resolvePair Clashing
  dsimp only
  split
  · rename_i hp
    dsimp only
    by_cases h1 : k = p.1
    · rw [if_pos h1]
      exact iff_of_true rfl (.inr ⟨.inl h1,hp⟩)
    · rw [if_neg h1]
      by_cases h2 : k = p.2
      · rw [if_pos h2]
        exact iff_of_true rfl (.inr ⟨.inr h2,hp⟩)
      · rw [if_neg h2]
        exact ⟨.inl,fun h => h.resolve_right fun h => h.1.elim h1 h2⟩
  · rename_i hp
    exact ⟨.inl,fun h => h.resolve_right fun h => hp h.2⟩

theorem resolvePairs_state (ps : List (ℕ × ℕ)) (r : (ℕ → ModuleSlot) × UInt32) (k : ℕ) :
    ((ps.foldl resolvePair r).1 k).e.state = .conflict ↔
      (r.1 k).e.state = .conflict ∨ ∃ p ∈ ps, (k = p.1 ∨ k = p.2) ∧ Clashing r.1 p := by
  induction ps generalizing r with
  | nil => simp
  | cons q ps ih =>
    rw [List.foldl_cons, ih, resolvePair_state, or_assoc]
    simp only [resolvePair_clashing, List.exists_mem_cons_iff]

/-- No slot that a claim can find known overlaps another one. -/
def Settled (c : ModuleCore) : Prop :=
  ∀ i j, i < c.n → j < c.n → i ≠ j → (c.slot i).valid = true → (c.slot j).valid = true →
    overlap (c.slot i) (c.slot j) = true → (c.slot i).e.state = .conflict

theorem mem_slotPairs {n i j : ℕ} : (i,j) ∈ slotPairs n ↔ i < j ∧ j < n := by
  unfold slotPairs
  simp only [List.mem_flatMap, List.mem_range, List.mem_map, List.mem_range'_1, Prod.mk.injEq]
  constructor
  · rintro ⟨_,hi,_,hj,rfl,rfl⟩
    omega
  · rintro ⟨hij,hj⟩
    exact ⟨i,hij.trans hj,j,by omega,rfl,rfl⟩

theorem resolveConflicts_evolves (c : ModuleCore) (k : ℕ) :
    Evolves (c.slot k) ((resolveConflicts c).1 k) := by
  apply evolves_trans _ (resolvePairs_judged (slotPairs c.n) _ k).evolves
  dsimp only
  split
  · exact presumeKnown_evolves _
  · exact evolves_refl _

theorem resolveConflicts_settled (c : ModuleCore) :
    Settled { c with slot := (resolveConflicts c).1 } := by
  intro i j hi hj hij hvi hvj ho
  dsimp only at hi hj hvi hvj ho ⊢
  have hJ := resolvePairs_judged (slotPairs c.n)
    (fun i => if i < c.n then presumeKnown (c.slot i) else c.slot i,0)
  have hvi' := (hJ i).valid.symm.trans hvi
  have hvj' := (hJ j).valid.symm.trans hvj
  have ho' := (overlap_judged (hJ i) (hJ j)).symm.trans ho
  apply (resolvePairs_state _ _ i).mpr
  right
  rcases Nat.lt_or_gt_of_ne hij with hlt | hlt
  · exact ⟨(i,j),mem_slotPairs.mpr ⟨hlt,hj⟩,.inl rfl,by unfold Clashing; rw [hvi', hvj', ho']; rfl⟩
  · rw [overlap_comm] at ho'
    exact ⟨(j,i),mem_slotPairs.mpr ⟨hlt,hi⟩,.inr rfl,by unfold Clashing; rw [hvi', hvj', ho']; rfl⟩

theorem recompute_evolves (c : ModuleCore) (k : ℕ) :
    Evolves (c.slot k) ((recompute c).1.slot k) := resolveConflicts_evolves c k

theorem tickEnd_evolves (c : ModuleCore) (changed k : ℕ) :
    Evolves (c.slot k) ((tickEnd c changed).slot k) := by
  unfold tickEnd
  split
  · exact recompute_evolves c k
  · exact evolves_refl _

theorem confirm_evolves (c : ModuleCore) (caps : UInt32) (present : Bool) (k : ℕ) :
    Evolves (c.slot k) ((moduleCoreConfirm c caps present).1.slot k) :=
  recompute_evolves _ k

theorem release_evolves (c : ModuleCore) (l : Option ModuleLease) (k : ℕ) :
    Evolves (c.slot k) ((moduleCoreRelease c l).slot k) := by
  unfold moduleCoreRelease
  split
  · exact evolves_refl _
  · rename_i i _
    dsimp only
    by_cases hk : k = i
    · subst k
      rw [Function.update_self]
      exact revoke_evolves _
    · rw [Function.update_of_ne hk]
      exact evolves_refl _

theorem leased_eq_some {c : ModuleCore} {l : Option ModuleLease} {i : ℕ} :
    leased c l = some i ↔
      ∃ m, l = some m ∧ m.slot = i ∧ i < c.n ∧ (c.slot i).owner ≠ none ∧ (c.slot i).gen = m.gen := by
  cases l with
  | none => simp [leased]
  | some m =>
    simp only [leased, Option.bind_some, Option.some.injEq]
    split
    · rename_i hn
      simp only [reduceCtorEq, false_iff, not_exists]
      rintro _ ⟨rfl,rfl,hlt,-⟩
      exact absurd hlt (Nat.not_lt.mpr hn)
    · rename_i hn
      split
      · rename_i h
        constructor
        · intro hi
          cases hi
          exact ⟨m,rfl,rfl,Nat.not_le.mp hn,h⟩
        · rintro ⟨_,rfl,rfl,-⟩
          rfl
      · rename_i h
        simp only [reduceCtorEq, false_iff, not_exists]
        rintro _ ⟨rfl,rfl,-,hh⟩
        exact h hh

def holding (s : ModuleSlot) (owner : Option CStr) (caps : UInt32) : ModuleSlot :=
  { s with owner := owner, claimed := caps }

theorem claim_ok {c d : ModuleCore} {slot : ℕ} {caps : UInt32} {owner : Option CStr} {out : Bool}
    {l : ModuleLease} (h : moduleCoreClaim c slot caps owner out = (.ok l,d)) :
    slot < c.n ∧ owner ≠ none ∧ (c.slot slot).owner = none ∧ (c.slot slot).e.state = .known ∧
      l = ⟨slot,(c.slot slot).gen⟩ ∧
      d = { c with slot := Function.update c.slot slot (holding (c.slot slot) owner caps) } := by
  unfold moduleCoreClaim at h
  split at h
  · cases h
  rename_i harg
  simp only [Bool.or_eq_true, decide_eq_true_eq, not_or, Nat.not_le] at harg
  dsimp only at h
  split at h
  · cases h
  rename_i hstate
  split at h
  · cases h
  split at h
  · cases h
  rename_i hfree
  cases h
  exact ⟨harg.1.1.1.1,harg.1.1.1.2,not_not.mp hfree,not_not.mp hstate,rfl,rfl⟩

theorem claim_error {c d : ModuleCore} {slot : ℕ} {caps : UInt32} {owner : Option CStr} {out : Bool}
    {e : Fault} (h : moduleCoreClaim c slot caps owner out = (.error e,d)) : d = c := by
  unfold moduleCoreClaim at h
  dsimp only at h
  split at h
  · exact (Prod.mk.inj h).2.symm
  split at h
  · exact (Prod.mk.inj h).2.symm
  split at h
  · exact (Prod.mk.inj h).2.symm
  split at h
  · exact (Prod.mk.inj h).2.symm
  · cases h

/-- A step hands out one lease on a free slot, or every slot evolves under the leases there are. -/
theorem step_cases {s t : State} {a : Act} (h : step s a = some t) :
    t.core.n = s.core.n ∧
    ((t.grants = s.grants ∧ ∀ k, Evolves (s.core.slot k) (t.core.slot k)) ∨
      ∃ i caps owner, i < s.core.n ∧ owner ≠ none ∧ (s.core.slot i).owner = none ∧
        (s.core.slot i).e.state = .known ∧
        t.core.slot = Function.update s.core.slot i (holding (s.core.slot i) owner caps) ∧
        t.grants = s.grants++[⟨⟨i,(s.core.slot i).gen⟩,caps,(s.core.slot i).revocations⟩]) := by
  cases a with
  | tick =>
    unfold step at h
    dsimp only at h
    split at h
    · cases h
      exact ⟨rfl,.inl ⟨rfl,fun k => evolves_refl _⟩⟩
    · cases h
  | scan probe read raw =>
    unfold step at h
    dsimp only at h
    split at h
    · cases h
    rename_i i changed _
    split at h
    · cases h
    cases h
    refine ⟨?_,.inl ⟨rfl,fun k => tickSlot_evolves s.core i probe read raw k⟩⟩
    dsimp only [tickSlot]
    split <;> rfl
  | settle =>
    unfold step at h
    dsimp only at h
    split at h
    · cases h
    rename_i i changed _
    split at h
    · cases h
    cases h
    refine ⟨?_,.inl ⟨rfl,fun k => tickEnd_evolves s.core changed k⟩⟩
    dsimp only [tickEnd]
    split <;> rfl
  | claim slot caps owner out =>
    unfold step at h
    dsimp only at h
    split at h
    · rename_i l d hc
      cases h
      obtain ⟨hn,ho,hf,hk,rfl,rfl⟩ := claim_ok hc
      exact ⟨rfl,.inr ⟨slot,caps,owner,hn,ho,hf,hk,rfl,rfl⟩⟩
    · rename_i e d hc
      cases h
      rw [claim_error hc]
      exact ⟨rfl,.inl ⟨rfl,fun k => evolves_refl _⟩⟩
  | release l =>
    cases h
    refine ⟨?_,.inl ⟨rfl,fun k => release_evolves s.core l k⟩⟩
    dsimp only [moduleCoreRelease]
    split <;> rfl
  | confirm caps present =>
    cases h
    exact ⟨rfl,.inl ⟨rfl,fun k => confirm_evolves s.core caps present k⟩⟩
  | provide kind name caps =>
    cases h
    dsimp only [moduleCoreProvide]
    split <;> exact ⟨rfl,.inl ⟨rfl,fun k => evolves_refl _⟩⟩
  | list max =>
    cases h
    exact ⟨rfl,.inl ⟨rfl,fun k => evolves_refl _⟩⟩

/-- The slot has moved on since the grant, or still holds it. -/
def Traces (s : ModuleSlot) (g : Grant) : Prop :=
  g.since < s.revocations ∨ g.since = s.revocations ∧ s.owner ≠ none ∧ s.claimed = g.caps

theorem traces_evolves {s t : ModuleSlot} {g : Grant} (h : Evolves s t) (hg : Traces s g) :
    Traces t g := by
  rcases h.fate with ⟨hr,ho,hc,-⟩ | ⟨hr,-⟩
  · rcases hg with hg | ⟨hg,hn,hcaps⟩
    · exact .inl (hr ▸ hg)
    · exact .inr ⟨hg.trans hr.symm,ho ▸ hn,hc.trans hcaps⟩
  · rcases hg with hg | ⟨hg,-,-⟩
    · exact .inl (hg.trans hr)
    · exact .inl (hg ▸ hr)

structure Inv (wires : ℕ → ModuleWiring) (s : State) : Prop where
  wire : ∀ i, (s.core.slot i).wire = wires i
  held : ∀ i, (s.core.slot i).owner ≠ none → (s.core.slot i).e.state = .known
  sound : ∀ i, (s.core.slot i).e.state = .known → (s.core.slot i).valid = true
  past : ∀ g ∈ s.grants, g.lease.slot < s.core.n ∧ g.lease.gen = u32 g.since ∧
    Traces (s.core.slot g.lease.slot) g
  apart : s.grants.Pairwise fun a b => a.lease.slot = b.lease.slot → a.since ≠ b.since

theorem inv_start (wires : ℕ → ModuleWiring) (n : ℕ) : Inv wires (start wires n) where
  wire := fun _ => rfl
  held := fun _ h => absurd rfl h
  sound := fun _ h => (by cases h)
  past := fun _ h => (by cases h)
  apart := .nil

theorem inv_step {wires : ℕ → ModuleWiring} (s : State) (a : Act) (t : State) (hi : Inv wires s)
    (h : step s a = some t) : Inv wires t := by
  obtain ⟨hn,⟨hg,he⟩ | ⟨i,caps,owner,hlt,ho,hf,hk,hslot,hg⟩⟩ := step_cases h
  · refine ⟨fun k => (he k).wire.trans (hi.wire k),fun k hk => ?_,
      fun k => (he k).sound (hi.sound k),fun g hgm => ?_,hg ▸ hi.apart⟩
    · rcases (he k).fate with ⟨-,ho,-,hs⟩ | ⟨-,ho⟩
      · exact hs (hi.held k (ho ▸ hk))
      · exact absurd ho hk
    · obtain ⟨h1,h2,h3⟩ := hi.past g (hg ▸ hgm)
      exact ⟨hn ▸ h1,h2,traces_evolves (he _) h3⟩
  · have hsame : ∀ k, k ≠ i → t.core.slot k = s.core.slot k := by
      intro k hki
      rw [hslot, Function.update_of_ne hki]
    have hnew : t.core.slot i = holding (s.core.slot i) owner caps := by
      rw [hslot, Function.update_self]
    refine ⟨fun k => ?_,fun k hk' => ?_,fun k hk' => ?_,fun g hgm => ?_,?_⟩
    · by_cases hki : k = i
      · rw [hki, hnew]
        exact hi.wire i
      · rw [hsame k hki]
        exact hi.wire k
    · by_cases hki : k = i
      · rw [hki, hnew]
        exact hk
      · rw [hsame k hki] at hk' ⊢
        exact hi.held k hk'
    · by_cases hki : k = i
      · rw [hki, hnew] at hk' ⊢
        exact hi.sound i hk'
      · rw [hsame k hki] at hk' ⊢
        exact hi.sound k hk'
    · rw [hg] at hgm
      rcases List.mem_append.mp hgm with hgm | hgm
      · obtain ⟨h1,h2,h3⟩ := hi.past g hgm
        refine ⟨hn ▸ h1,h2,?_⟩
        by_cases hki : g.lease.slot = i
        · rw [hki, hnew]
          rw [hki] at h3
          rcases h3 with h3 | ⟨-,h3,-⟩
          · exact .inl h3
          · exact absurd hf h3
        · rw [hsame _ hki]
          exact h3
      · rw [List.mem_singleton.mp hgm]
        refine ⟨hn ▸ hlt,rfl,?_⟩
        dsimp only
        rw [hnew]
        exact .inr ⟨rfl,ho,rfl⟩
    · rw [hg]
      apply List.pairwise_append.mpr
      refine ⟨hi.apart,List.pairwise_singleton _ _,fun a ha b hb hab => ?_⟩
      rw [List.mem_singleton.mp hb] at hab ⊢
      obtain ⟨-,-,h3⟩ := hi.past a ha
      rw [hab] at h3
      rcases h3 with h3 | ⟨-,h3,-⟩
      · exact Nat.ne_of_lt h3
      · exact absurd hf h3

structure SameEntries (c d : ModuleCore) : Prop where
  n : d.n = c.n
  confirmed : d.confirmed = c.confirmed
  caps : d.caps = c.caps
  slot : ∀ k, (d.slot k).e = (c.slot k).e ∧ (d.slot k).valid = (c.slot k).valid

theorem sameEntries_refl (c : ModuleCore) : SameEntries c c := ⟨rfl,rfl,rfl,fun _ => ⟨rfl,rfl⟩⟩

theorem sameEntries_update (c : ModuleCore) (i : ℕ) (u : ModuleSlot)
    (hu : u.e = (c.slot i).e ∧ u.valid = (c.slot i).valid) :
    SameEntries c { c with slot := Function.update c.slot i u } := by
  refine ⟨rfl,rfl,rfl,fun k => ?_⟩
  dsimp only
  by_cases hk : k = i
  · subst k
    rw [Function.update_self]
    exact hu
  · rw [Function.update_of_ne hk]
    exact ⟨rfl,rfl⟩

theorem sameEntries_claim {c d : ModuleCore} {slot : ℕ} {caps : UInt32} {owner : Option CStr}
    {out : Bool} {r : Except Fault ModuleLease} (h : moduleCoreClaim c slot caps owner out = (r,d)) :
    SameEntries c d := by
  cases r with
  | ok l =>
    obtain ⟨-,-,-,-,-,rfl⟩ := claim_ok h
    exact sameEntries_update _ _ _ ⟨rfl,rfl⟩
  | error e =>
    rw [claim_error h]
    exact sameEntries_refl c

theorem sameEntries_release (c : ModuleCore) (l : Option ModuleLease) :
    SameEntries c (moduleCoreRelease c l) := by
  unfold moduleCoreRelease
  split
  · exact sameEntries_refl c
  · exact sameEntries_update _ _ _ ⟨rfl,rfl⟩

theorem sameEntries_provide (c : ModuleCore) (kind : ModuleKind) (name : CStr) (caps : UInt32) :
    SameEntries c (moduleCoreProvide c kind name caps) := by
  unfold moduleCoreProvide
  split
  · exact ⟨rfl,rfl,rfl,fun _ => ⟨rfl,rfl⟩⟩
  · exact sameEntries_refl c

/-- No change is pending: either no round is under way, or it has changed nothing so far. -/
def Quiet (s : State) : Prop := s.round = none ∨ ∃ i, s.round = some (i,0)

theorem mask_ne_zero (changed i : ℕ) : changed ||| 1 <<< i ≠ 0 := by
  intro h
  have := Nat.or_eq_zero_iff.mp h
  rw [Nat.shiftLeft_eq, Nat.one_mul] at this
  exact absurd this.2 (Nat.two_pow_pos i).ne'

def changes (s : State) : Act → Option (ℕ × ModuleSlot)
  | .scan probe read raw => s.round.bind fun r => match apply (s.core.slot r.1) probe read raw with
    | (u,true) => some (r.1,u)
    | (_,false) => none
  | _ => none

/-- A step leaves all entries alone, changes one and leaves a note for the end of the
round, or judges all of them again. -/
inductive Touches (s t : State) (a : Act) : Prop
  | none (hchange : changes s a = .none) (hsame : SameEntries s.core t.core)
      (hquiet : Quiet t → Quiet s)
  | entry (i : ℕ) (u : ModuleSlot) (hchange : changes s a = some (i,u)) (hloud : ¬ Quiet t)
      (hcore : t.core = { s.core with slot := Function.update s.core.slot i (revoke u) })
  | all (confirmed : UInt32) (hchange : changes s a = .none)
      (hcore : t.core = (recompute { s.core with confirmed := confirmed }).1)

theorem step_touches {s t : State} {a : Act} (h : step s a = some t) : Touches s t a := by
  cases a with
  | tick =>
    unfold step at h
    dsimp only at h
    split at h
    · rename_i hr
      cases h
      exact .none rfl (sameEntries_refl _) fun _ => .inl hr
    · cases h
  | scan probe read raw =>
    unfold step at h
    dsimp only at h
    split at h
    · cases h
    rename_i i changed hr
    split at h
    · cases h
    cases h
    have hk := apply_keeps (s.core.slot i) probe read raw
    have hchange : changes s (.scan probe read raw) =
        match apply (s.core.slot i) probe read raw with
        | (u,true) => some (i,u)
        | (_,false) => none := by
      unfold changes
      rw [hr]
      rfl
    unfold tickSlot
    split
    · rename_i u hu
      rw [hu] at hchange
      refine .entry i u hchange ?_ rfl
      rintro (hq | ⟨j,hq⟩)
      · cases hq
      · exact mask_ne_zero changed i (Prod.mk.inj (Option.some.inj hq)).2
    · rename_i u hu
      rw [hu] at hchange hk
      refine .none hchange (sameEntries_update _ _ _ (hk.entry rfl)) ?_
      rintro (hq | ⟨j,hq⟩)
      · cases hq
      · obtain rfl : changed = 0 := (Prod.mk.inj (Option.some.inj hq)).2
        exact .inr ⟨i,hr⟩
  | settle =>
    unfold step at h
    dsimp only at h
    split at h
    · cases h
    rename_i i changed hr
    split at h
    · cases h
    cases h
    unfold tickEnd
    split
    · exact .all s.core.confirmed rfl rfl
    · rename_i hzero
      rw [ne_eq, not_not] at hzero
      exact .none rfl (sameEntries_refl _) fun _ => .inr ⟨i,hzero ▸ hr⟩
  | claim slot caps owner out =>
    unfold step at h
    dsimp only at h
    split at h
    · rename_i l d hc
      cases h
      exact .none rfl (sameEntries_claim hc) id
    · rename_i e d hc
      cases h
      exact .none rfl (sameEntries_claim hc) id
  | release l =>
    cases h
    exact .none rfl (sameEntries_release s.core l) id
  | confirm caps present =>
    cases h
    exact .all _ rfl rfl
  | provide kind name caps =>
    cases h
    exact .none rfl (sameEntries_provide s.core kind name caps) id
  | list max =>
    cases h
    exact .none rfl (sameEntries_refl _) id

theorem settled_of_same {c d : ModuleCore} (hc : Settled c) (h : SameEntries c d) : Settled d := by
  intro i j hi hj hij hvi hvj ho
  rw [(h.slot i).1]
  rw [(h.slot i).2] at hvi
  rw [(h.slot j).2] at hvj
  apply hc i j (h.n ▸ hi) (h.n ▸ hj) hij hvi hvj
  unfold overlap at ho ⊢
  rwa [(h.slot i).1, (h.slot j).1] at ho

theorem settled_step (s : State) (a : Act) (t : State) (hi : Quiet s → Settled s.core)
    (h : step s a = some t) : Quiet t → Settled t.core := by
  intro hq
  cases step_touches h with
  | none hchange hsame hquiet => exact settled_of_same (hi (hquiet hq)) hsame
  | entry i u hchange hloud hcore => exact absurd hq hloud
  | all confirmed hchange hcore =>
    rw [hcore]
    exact resolveConflicts_settled _

theorem revocations_step (s : State) (a : Act) (t : State) (h : step s a = some t) (k : ℕ) :
    (s.core.slot k).revocations ≤ (t.core.slot k).revocations := by
  obtain ⟨-,⟨-,he⟩ | ⟨i,caps,owner,-,-,-,-,hslot,-⟩⟩ := step_cases h
  · rcases (he k).fate with ⟨hr,-⟩ | ⟨hr,-⟩
    · exact Nat.le_of_eq hr.symm
    · exact Nat.le_of_lt hr
  · rw [hslot]
    by_cases hk : k = i
    · subst k
      rw [Function.update_self]
      exact Nat.le_refl _
    · rw [Function.update_of_ne hk]

theorem core_run {s t : State} (as : List Act) (h : Run step Free s as t) :
    t.core.n = s.core.n ∧ ∀ k, (s.core.slot k).revocations ≤ (t.core.slot k).revocations := by
  apply run_invariant (fun t => t.core.n = s.core.n ∧
    ∀ k, (s.core.slot k).revocations ≤ (t.core.slot k).revocations) _ as ⟨rfl,fun k => le_rfl⟩ h
  rintro u a v ⟨hn,hr⟩ - hv
  exact ⟨(step_cases hv).1.trans hn,fun k => (hr k).trans (revocations_step u a v hv k)⟩

/-- A grant stays listed, and a slot never loses count of it. -/
theorem grants_run {s t : State} (as : List Act) (h : Run step Free s as t) :
    ∀ g ∈ s.grants, g ∈ t.grants := by
  apply run_invariant (fun t => ∀ g ∈ s.grants, g ∈ t.grants) _ as (fun g hg => hg) h
  rintro u a v hu - hv g hg
  obtain ⟨-,⟨hsame,-⟩ | ⟨i,caps,owner,-,-,-,-,-,hnew⟩⟩ := step_cases hv
  · exact hsame ▸ hu g hg
  · rw [hnew]
    exact List.mem_append_left _ (hu g hg)

def Valid (s : State) (g : Grant) : Prop := moduleCoreLeaseValid s.core (some g.lease) = true

theorem valid_iff {wires : ℕ → ModuleWiring} {s : State} (hi : Inv wires s) {g : Grant}
    (hg : g ∈ s.grants) (hc : (s.core.slot g.lease.slot).revocations < 2^32) :
    Valid s g ↔ g.since = (s.core.slot g.lease.slot).revocations := by
  obtain ⟨hn,hgen,htr⟩ := hi.past g hg
  unfold Valid moduleCoreLeaseValid
  rw [Option.isSome_iff_exists]
  constructor
  · rintro ⟨i,h⟩
    obtain ⟨_,hm,rfl,-,-,heq⟩ := leased_eq_some.mp h
    obtain rfl := Option.some.inj hm
    have hsince : g.since ≤ (s.core.slot g.lease.slot).revocations := by
      rcases htr with h | ⟨h,-⟩
      · exact Nat.le_of_lt h
      · exact Nat.le_of_eq h
    rw [ModuleSlot.gen, hgen, u32, u32, Nat.mod_eq_of_lt hc,
      Nat.mod_eq_of_lt (Nat.lt_of_le_of_lt hsince hc)] at heq
    exact heq.symm
  · intro h
    rcases htr with hlt | ⟨-,ho,-⟩
    · exact absurd h (Nat.ne_of_lt hlt)
    · exact ⟨_,leased_eq_some.mpr ⟨_,rfl,rfl,hn,ho,by rw [ModuleSlot.gen, hgen, h]⟩⟩

theorem release_stale {c : ModuleCore} {l : Option ModuleLease}
    (h : moduleCoreLeaseValid c l = false) : moduleCoreRelease c l = c := by
  unfold moduleCoreLeaseValid at h
  unfold moduleCoreRelease
  rw [Option.isSome_eq_false_iff, Option.isNone_iff_eq_none] at h
  rw [h]

/-- In every reachable state at most one lease of a slot is valid, a stale one stays
stale and its release changes nothing, and a valid one gives the lines it was
claimed for, on a known slot that overlaps no other between two rounds. -/
theorem leases_exclusive (wires : ℕ → ModuleWiring) (n : ℕ) (as bs : List Act) (s t : State)
    (hs : Run step Free (start wires n) as s) (ht : Run step Free s bs t)
    (hc : ∀ i < t.core.n, (t.core.slot i).revocations < 2^32) :
    (s.grants.Pairwise fun a b => a.lease.slot = b.lease.slot → ¬ (Valid s a ∧ Valid s b)) ∧
    (∀ g ∈ s.grants, ¬ Valid s g → ¬ Valid t g) ∧
    (∀ l, moduleCoreLeaseValid s.core l = false → moduleCoreRelease s.core l = s.core) ∧
    (∀ g ∈ s.grants, Valid s g → moduleCoreLeasePins s.core (some g.lease) =
      .ok (claimedPins (wires g.lease.slot) g.caps)) ∧
    (s.round = none → ∀ g ∈ s.grants, Valid s g →
      (s.core.slot g.lease.slot).e.state = .known ∧
      ∀ j < s.core.n, j ≠ g.lease.slot → (s.core.slot j).valid = true →
        overlap (s.core.slot g.lease.slot) (s.core.slot j) = false) := by
  have hi := run_invariant (Inv wires) (fun s a t hi _ h => inv_step s a t hi h) as
    (inv_start wires n) hs
  have hj := run_invariant (Inv wires) (fun s a t hi _ h => inv_step s a t hi h) bs hi ht
  have hsettled := run_invariant (fun s => Quiet s → Settled s.core)
    (fun s a t hi _ h => settled_step s a t hi h) as
    (fun _ i j _ _ _ hv => (by cases hv)) hs
  obtain ⟨hn,hmono⟩ := core_run bs ht
  have hct : ∀ g ∈ t.grants, (t.core.slot g.lease.slot).revocations < 2^32 :=
    fun g hg => hc _ (hj.past g hg).1
  have hcs : ∀ g ∈ s.grants, (s.core.slot g.lease.slot).revocations < 2^32 :=
    fun g hg => Nat.lt_of_le_of_lt (hmono _) (hct g (grants_run bs ht g hg))
  have hheld : ∀ g ∈ s.grants, Valid s g → (s.core.slot g.lease.slot).owner ≠ none ∧
      (s.core.slot g.lease.slot).claimed = g.caps := by
    intro g hg hv
    have hsince := (valid_iff hi hg (hcs g hg)).mp hv
    rcases (hi.past g hg).2.2 with h | ⟨-,h⟩
    · exact absurd hsince (Nat.ne_of_lt h)
    · exact h
  refine ⟨?_,?_,fun l h => release_stale h,?_,?_⟩
  · apply hi.apart.imp_of_mem
    rintro a b ha hb hab hslot ⟨hva,hvb⟩
    have h1 := (valid_iff hi ha (hcs a ha)).mp hva
    have h2 := (valid_iff hi hb (hcs b hb)).mp hvb
    rw [hslot] at h1
    exact hab hslot (h1.trans h2.symm)
  · intro g hg hv hvt
    have hgt := grants_run bs ht g hg
    rw [valid_iff hi hg (hcs g hg)] at hv
    rw [valid_iff hj hgt (hct g hgt)] at hvt
    rcases (hi.past g hg).2.2 with h | ⟨h,-⟩
    · exact absurd hvt (Nat.ne_of_lt (Nat.lt_of_lt_of_le h (hmono _)))
    · exact hv h
  · intro g hg hv
    obtain ⟨hslot,-⟩ := hi.past g hg
    obtain ⟨-,hclaimed⟩ := hheld g hg hv
    obtain ⟨i,h⟩ := Option.isSome_iff_exists.mp hv
    obtain ⟨_,hm,rfl,-⟩ := leased_eq_some.mp h
    obtain rfl := Option.some.inj hm
    unfold moduleCoreLeasePins
    rw [h]
    dsimp only
    rw [hi.wire, hclaimed]
  · intro hr g hg hv
    obtain ⟨hslot,-⟩ := hi.past g hg
    obtain ⟨howner,-⟩ := hheld g hg hv
    have hknown := hi.held _ howner
    refine ⟨hknown,fun j hj hne hvj => ?_⟩
    by_contra ho
    have hconflict := hsettled (.inl hr) _ j hslot hj hne.symm (hi.sound _ hknown) hvj
      (by simpa using ho)
    rw [hknown] at hconflict
    cases hconflict

def benchWires : ℕ → ModuleWiring
  | 0 => ⟨0x50,10,11,12⟩
  | _ => ⟨0x51,20,21,22⟩

def benchChip : List UInt8 :=
  [0x53,0x4D,1,0,0x12,0,1,0,0x18,0,0,0,0x53,0x50,0x49,0,0,0,0,0,0,0,0,0,0,0,0,0,0,0,214,120]

def claimRun : List Act :=
  [.tick,.scan .ok .ok benchChip,.scan .io .ok [],.settle,.tick,.scan .ok .ok benchChip,
    .scan .io .ok [],.settle,.claim 0 capModSpi (some "a".toList) true]

theorem leases_exclusive_claimed : ∃ s, Run step Free (start benchWires 2) claimRun s ∧
    s.grants.length = 1 ∧ ∀ g ∈ s.grants, Valid s g ∧
      moduleCoreLeasePins s.core (some g.lease) = .ok (claimedPins (benchWires g.lease.slot) g.caps) := by
  obtain ⟨s,hs,hlen,hv,hc⟩ := run_witness step (G := Free) (s := start benchWires 2)
    (p := fun s => s.grants.length = 1 ∧
      (∀ g ∈ s.grants, moduleCoreLeaseValid s.core (some g.lease) = true) ∧
      ∀ i < s.core.n, (s.core.slot i).revocations < 2^32) claimRun (by decide +kernel)
    (by decide +kernel)
  exact ⟨s,hs,hlen,fun g hg => ⟨hv g hg,
    (leases_exclusive benchWires 2 claimRun [] s s hs rfl hc).2.2.2.1 g hg (hv g hg)⟩⟩

end StarkOne.ModuleLeases
