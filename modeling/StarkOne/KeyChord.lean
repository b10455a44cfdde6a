import StarkOne.KeySteps

/-!
# The chord

A chord is latched from the update after which OK and BACK are both down to
the one after which both are up. While it is latched neither of them gives
rise to SHORT or LONG, and no other chord is formed.
-/

set_option autoImplicit false

namespace StarkOne.KeyChord
open StarkOne.UiStack (StarkKey StarkKeyAction)
open StarkOne.KeyInput StarkOne.KeySteps

def isChord (a : InputAction) : Bool := a.action = .chord

section
variable {maxOut : ℕ} {c : InputCore} {x : Sample}

theorem quiet_step {k : StarkKey} {t : InputCoreTiming} {raw : Bool} {now : UInt32}
    {st st' : InputKeyState} {acts : List InputAction} (h : KeyStep k t true raw now st acts st') :
    ∀ a ∈ acts, a.action ≠ .short ∧ a.action ≠ .long := by
  have hlong : longDue t true st now = false := rfl
  cases h with
  | idle => exact fun a ha => by cases ha
  | press =>
    intro a ha
    rw [List.mem_singleton.mp ha]
    exact ⟨StarkKeyAction.noConfusion,StarkKeyAction.noConfusion⟩
  | release =>
    intro a ha
    rw [hlong] at ha
    rw [List.mem_singleton.mp ha]
    exact ⟨StarkKeyAction.noConfusion,StarkKeyAction.noConfusion⟩
  | held =>
    intro a ha
    have ha := (heldActions_perm k t true st now).mem_iff.mp ha
    rw [hlong, if_neg Bool.false_ne_true, List.nil_append] at ha
    split at ha
    · rw [List.mem_singleton.mp ha]
      exact ⟨StarkKeyAction.noConfusion,StarkKeyAction.noConfusion⟩
    · cases ha

theorem latched_quiet (h : c.chord = true) :
    ∀ a ∈ (record maxOut c x).out, chordKey a.key = true → a.action ≠ .short ∧ a.action ≠ .long := by
  intro a ha hkey
  obtain ⟨acts,hup,hout⟩ := record_spec maxOut c x
  rw [hout] at ha
  rcases List.mem_append.mp (List.mem_of_mem_take ha) with ha | ha
  · obtain ⟨k,-,ha⟩ := List.mem_flatMap.mp ha
    have hstep := hup.keys k
    have hq : quiet c k = true := by
      rw [← (hstep.key a ha).1, quiet, h, hkey]
      rfl
    rw [hq] at hstep
    exact quiet_step hstep a ha
  · rw [h] at ha
    cases ha

theorem record_chord (maxOut : ℕ) (c : InputCore) (x : Sample) : (record maxOut c x).after.chord =
    if c.chord then !bothUp (record maxOut c x).after else bothDown (record maxOut c x).after := by
  obtain ⟨acts,hup,-⟩ := record_spec maxOut c x
  exact hup.chord

theorem record_count (h : inputCoreMaxActions ≤ maxOut) :
    (record maxOut c x).out.countP isChord =
      if !c.chord && bothDown (record maxOut c x).after then 1 else 0 := by
  obtain ⟨acts,hup,hout⟩ := record_spec maxOut c x
  have hkeys : (starkKeys.flatMap acts).countP isChord = 0 := by
    rw [List.countP_eq_zero]
    intro a ha hc
    obtain ⟨k,-,ha⟩ := List.mem_flatMap.mp ha
    exact ((hup.keys k).key a ha).2 (of_decide_eq_true hc)
  rw [hout, List.take_of_length_le (Nat.le_trans hup.length h), allActions, List.countP_append, hkeys]
  split <;> rfl

theorem record_chord_mem (h : ∃ a ∈ (record maxOut c x).out, a.action = .chord) :
    c.chord = false ∧ (record maxOut c x).after.chord = true := by
  obtain ⟨a,ha,hc⟩ := h
  obtain ⟨acts,hup,hout⟩ := record_spec maxOut c x
  rw [hout] at ha
  rcases List.mem_append.mp (List.mem_of_mem_take ha) with ha | ha
  · obtain ⟨k,-,ha⟩ := List.mem_flatMap.mp ha
    exact absurd hc ((hup.keys k).key a ha).2
  · split at ha
    · rename_i hfire
      rw [Bool.and_eq_true, Bool.not_eq_true'] at hfire
      refine ⟨hfire.1,?_⟩
      rw [hup.chord, hfire.1, if_neg Bool.false_ne_true]
      exact hfire.2
    · cases ha

theorem core_latched (xs : List Sample) : ∀ c : InputCore, c.chord = true →
    (∀ m ∈ records maxOut c xs, bothUp m.after = false) → (core maxOut c xs).chord = true := by
  induction xs with
  | nil => exact fun _ h _ => h
  | cons x xs ih =>
    intro c h hup
    refine ih _ ?_ fun m hm => hup m (List.mem_cons_of_mem _ hm)
    rw [record_chord, h, if_pos rfl, hup _ List.mem_cons_self]
    rfl

/-- Until both keys are up again a latched chord is followed by no other. -/
theorem latched_count (xs : List Sample) : ∀ c : InputCore, c.chord = true →
    (∀ m ∈ (records maxOut c xs).dropLast, bothUp m.after = false) →
    ((records maxOut c xs).flatMap Record.out).countP isChord = 0 := by
  induction xs with
  | nil => exact fun _ _ _ => rfl
  | cons x xs ih =>
    intro c h hup
    have hnone : (record maxOut c x).out.countP isChord = 0 := by
      rw [List.countP_eq_zero]
      intro a ha hc
      have := (record_chord_mem ⟨a,ha,of_decide_eq_true hc⟩).1
      rw [h] at this
      cases this
    rw [records, List.flatMap_cons, List.countP_append, hnone, Nat.zero_add]
    cases xs with
    | nil => rfl
    | cons y ys =>
      rw [records, records, List.dropLast_cons_cons] at hup
      refine ih _ ?_ fun m hm => hup m (List.mem_cons_of_mem _ hm)
      rw [record_chord, h, if_pos rfl, hup _ List.mem_cons_self]
      rfl

/-- From both keys up to both keys up there is one chord if the keys were both down. -/
theorem span_count (hmax : inputCoreMaxActions ≤ maxOut) (xs : List Sample) :
    ∀ c : InputCore, c.chord = false →
      (∀ m ∈ (records maxOut c xs).dropLast, bothUp m.after = false) →
      ((records maxOut c xs).flatMap Record.out).countP isChord =
        if (records maxOut c xs).any fun m => bothDown m.after then 1 else 0 := by
  induction xs with
  | nil => exact fun _ _ _ => rfl
  | cons x xs ih =>
    intro c h hup
    have hcount := record_count hmax (c := c) (x := x)
    have hchord := record_chord maxOut c x
    rw [h] at hcount hchord
    rw [records, List.flatMap_cons, List.countP_append, List.any_cons, hcount, Bool.not_false,
      Bool.true_and]
    have hrest : ∀ m ∈ (records maxOut (record maxOut c x).after xs).dropLast,
        bothUp m.after = false := by
      intro m hm
      cases xs with
      | nil => cases hm
      | cons y ys =>
        rw [records, records, List.dropLast_cons_cons] at hup
        exact hup m (List.mem_cons_of_mem _ hm)
    cases hdown : bothDown (record maxOut c x).after with
    | true =>
      rw [latched_count xs _ (hchord.trans hdown) hrest]
      rfl
    | false =>
      rw [ih _ (hchord.trans hdown) hrest, Bool.false_or]
      simp

theorem up_unlatched (h : bothUp (record maxOut c x).after = true) :
    (record maxOut c x).after.chord = false := by
  rw [record_chord, h]
  simp only [bothUp, Bool.and_eq_true, Bool.not_eq_true'] at h
  simp [bothDown, h.1]

end

/-- The updates from a chord on while it is latched: none of them leaves both keys up. -/
structure Latched (rs pre : List Record) (r : Record) (mid : List Record) (s : Record)
    (post : List Record) : Prop where
  records : rs = pre++r::(mid++s::post)
  fired : ∃ a ∈ r.out, a.action = .chord
  down : ∀ m ∈ mid, bothUp m.after = false

/-- A stretch of updates that starts with both keys up, and until its end not again. -/
structure Span (rs pre span post : List Record) : Prop where
  records : rs = pre++(span++post)
  start : ∀ r, pre.getLast? = some r → bothUp r.after = true
  down : ∀ m ∈ span.dropLast, bothUp m.after = false

def Suppressed (k : StarkKey) (s : Record) : Prop :=
  ∀ a ∈ s.out, a.key = k → a.action ≠ .short ∧ a.action ≠ .long

theorem up_of_pressed {c : InputCore} {k : StarkKey} (hk : chordKey k = true)
    (h : (c.key k).pressed = true) : bothUp c = false := by
  cases k with
  | ok => simp [bothUp, h]
  | back => simp [bothUp, h]
  | up | down | left | right => cases hk

theorem latched_suppressed {maxOut : ℕ} {c : InputCore} {xs : List Sample}
    {pre mid post : List Record} {r s : Record} {k : StarkKey}
    (h : Latched (records maxOut c xs) pre r mid s post) (hk : chordKey k = true) :
    Suppressed k s := by
  obtain ⟨ys,zs,-,-,hr,hrest⟩ := records_split h.records
  obtain ⟨ms,ws,-,hmid,hs,-⟩ := records_split hrest.symm
  have hfired := h.fired
  rw [hr] at hfired
  have hchord := (record_chord_mem hfired).2
  rw [← hr] at hchord
  have hlatched := core_latched ms r.after hchord fun m hm => h.down m (hmid ▸ hm)
  intro a ha hak
  rw [hs] at ha
  exact latched_quiet hlatched a ha (hak ▸ hk)

/-- In every sequence of samples: from a chord on OK and BACK give rise to no SHORT and no LONG up
to the update that leaves both up, so none of their presses does that was down then or began since;
and from both up to both up there is one chord if the keys were both down. -/
theorem chord_suppresses {t : Option InputCoreTiming} {c : InputCore} (hinit : inputCoreInit t = .ok c)
    (maxOut : ℕ) (xs : List Sample) :
    (∀ pre r mid s post, Latched (records maxOut c xs) pre r mid s post →
      ∀ k, chordKey k = true → Suppressed k s) ∧
    (∀ pre r mid s post k, records maxOut c xs = pre++r::(mid++s::post) →
      (∃ a ∈ r.out, a.action = .chord) → chordKey k = true → (r.after.key k).pressed = true →
      (∀ m ∈ mid, (m.after.key k).pressed = true) → Suppressed k s) ∧
    (∀ pre r early p late s post k, Latched (records maxOut c xs) pre r early p (late++s::post) →
      chordKey k = true → (p.before.key k).pressed = false → (p.after.key k).pressed = true →
      (∀ m ∈ late, (m.after.key k).pressed = true) → Suppressed k s) ∧
    (∀ pre span post, Span (records maxOut c xs) pre span post → inputCoreMaxActions ≤ maxOut →
      (span.flatMap Record.out).countP isChord =
        if span.any fun m => bothDown m.after then 1 else 0) := by
  refine ⟨fun pre r mid s post h k hk => latched_suppressed h hk,?_,?_,?_⟩
  · intro pre r mid s post k hrec hfired hk _ hmid
    exact latched_suppressed ⟨hrec,hfired,fun m hm => up_of_pressed hk (hmid m hm)⟩ hk
  · intro pre r early p late s post k h hk _ hp hlate
    have hlatched : Latched (records maxOut c xs) pre r (early++p::late) s post := by
      refine ⟨?_,h.fired,fun m hm => ?_⟩
      · rw [h.records, List.append_assoc]
        rfl
      · rcases List.mem_append.mp hm with hm | hm
        · exact h.down m hm
        · rcases List.mem_cons.mp hm with rfl | hm
          · exact up_of_pressed hk hp
          · exact up_of_pressed hk (hlate m hm)
    exact latched_suppressed hlatched hk
  · intro pre span post h hmax
    obtain ⟨ys,zs,-,hpre,hrest⟩ := records_cut h.records
    obtain ⟨ms,ws,-,hspan,-⟩ := records_cut hrest.symm
    rw [hspan]
    refine span_count hmax ms _ ?_ (hspan ▸ h.down)
    have hstart := h.start
    rw [hpre] at hstart
    rcases List.eq_nil_or_concat' ys with rfl | ⟨ys,x,rfl⟩
    · rw [(init_released hinit).2]
      rfl
    · obtain ⟨hlast,hcore⟩ := records_last c ys x
      rw [hcore]
      exact up_unlatched (hstart _ hlast)

/-- OK is held and BACK follows, goes, and comes again before both go. -/
def pairSamples : List Sample :=
  [⟨0x10,0⟩,⟨0x10,30⟩,⟨0x30,40⟩,⟨0x30,70⟩,⟨0x10,80⟩,⟨0x10,110⟩,⟨0x30,120⟩,⟨0x30,150⟩,⟨0x00,160⟩,
    ⟨0x00,190⟩]

def pair : List Record := records inputCoreMaxActions (released defaultTiming) pairSamples

/-- A single chord, after which neither the key that was held nor the one that came again gives
rise to a SHORT where both go. -/
theorem chord_suppresses_pair : ∃ r early p late s,
    pair = pair.take 3++r::((early++p::late)++s::[]) ∧ (∃ a ∈ r.out, a.action = .chord) ∧
    (p.before.key .back).pressed = false ∧ (p.after.key .back).pressed = true ∧
    (s.before.key .ok).pressed = true ∧ (s.after.key .ok).pressed = false ∧ Suppressed .ok p ∧
    Suppressed .ok s ∧ Suppressed .back s ∧ ((pair.drop 1).flatMap Record.out).countP isChord = 1 := by
  obtain ⟨hlatched,hheld,hlater,hcount⟩ :=
    chord_suppresses (show inputCoreInit none = .ok (released defaultTiming) from rfl)
      inputCoreMaxActions pairSamples
  have hsplit : pair = pair.take 3++pair[3]::((pair[4]::pair[5]::pair[6]::[])++pair[7]::
      ([pair[8]]++pair[9]::[])) := rfl
  have hfired : ∃ a ∈ pair[3].out, a.action = .chord := by decide
  have hshape : Latched pair (pair.take 3) pair[3] [pair[4],pair[5],pair[6]] pair[7]
      ([pair[8]]++pair[9]::[]) := ⟨hsplit,hfired,by decide⟩
  refine ⟨pair[3],[pair[4],pair[5],pair[6]],pair[7],[pair[8]],pair[9],hsplit,hfired,by decide,by decide,
    by decide,by decide,?_,?_,?_,?_⟩
  · exact hlatched _ _ _ _ _ hshape .ok rfl
  · exact hheld _ _ ([pair[4],pair[5],pair[6]]++pair[7]::[pair[8]]) _ [] .ok hsplit hfired rfl
      (by decide) (by decide)
  · exact hlater _ _ _ _ [pair[8]] pair[9] [] .back hshape rfl (by decide) (by decide) (by decide)
  · exact (hcount (pair.take 1) (pair.drop 1) [] ⟨rfl,fun r hr => (by cases hr; decide),by decide⟩
      (Nat.le_refl _)).trans (if_pos (by decide))

end StarkOne.KeyChord
