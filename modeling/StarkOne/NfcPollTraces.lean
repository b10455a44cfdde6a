import StarkOne.NfcPollMachine

/-!
# Traces of the poll machine

A history holds the inputs of the poll machine with the events it answered,
newest first. What a history says about the tag, the empty polls and the errors
in a row is read off it alone; the machine's fields agree with it throughout.
-/

set_option autoImplicit false

namespace StarkOne.NfcPollTraces
open StarkOne.NfcReader StarkOne.NfcPollMachine

inductive Input where
  | poll (result : Except Fault (Option NfcTag)) (nowMs : ℕ)
  | recovered (err : StarkErr) (nowMs : ℕ)

def feed (p : NfcPoll) : Input → NfcPollEvent × NfcPoll
  | .poll result nowMs => nfcPollResult p result nowMs
  | .recovered err nowMs => nfcPollRecovered p err nowMs

abbrev Step : Type := Input × NfcPollEvent

def run : List Input → NfcPoll → List Step → NfcPoll × List Step
  | [], p, h => (p,h)
  | i::is, p, h => run is (feed p i).2 ((i,(feed p i).1)::h)

def lastMove : List Step → Option NfcPollEvent
  | [] => none
  | (_,.none)::h | (_,.back)::h => lastMove h
  | (_,e)::_ => some e

/-- The reader was lost and is not back. -/
def deaf : List Step → Bool
  | [] => false
  | (_,.lost)::_ => true
  | (_,.back)::_ => false
  | _::h => deaf h

def empties : List Step → ℕ
  | [] => 0
  | (.poll (.ok none) _,_)::h => empties h+1
  | (.poll (.ok (some _)) _,_)::_ => 0
  | _::h => empties h

/-- The polls in a row that failed, since the reader was last found. -/
def errorRow : List Step → ℕ
  | [] => 0
  | (.poll (.error _) _,_)::h => errorRow h+1
  | (.poll (.ok _) _,_)::_ => 0
  | (.recovered _ _,.back)::_ => 0
  | (.recovered _ _,_)::h => errorRow h

structure Answers (h : List Step) (i : Input) (e : NfcPollEvent) : Prop where
  tag : ∀ t, e = .tag t → (∃ now, i = .poll (.ok (some t)) now) ∧
    ∀ u, lastMove h = some (.tag u) → t.uid ≠ u.uid
  left : e = .left → (∃ now, i = .poll (.ok none) now) ∧ empties ((i,e)::h) = nfcPollMisses
  lost : e = .lost ↔ deaf h = false ∧ errorRow ((i,e)::h) = nfcPollErrors
  quiet : deaf h = true → e = .none ∨ e = .back
  back : e = .back → deaf h = true ∧ ∃ now, i = .recovered .ok now

def Lawful : List Step → Prop
  | [] => True
  | (i,e)::h => Answers h i e ∧ Lawful h

/-- The machine's fields are what the history says. -/
structure Agrees (p : NfcPoll) (h : List Step) : Prop where
  present : p.state = .present → ∃ t, lastMove h = some (.tag t) ∧ t.uid = p.uid
  absent : p.state ≠ .present → ∀ t, lastMove h ≠ some (.tag t)
  deaf : deaf h = true ↔ p.state = .recovering
  misses : p.state = .present → p.misses = empties h ∧ p.misses < nfcPollMisses
  errors : p.state ≠ .recovering → p.errors = errorRow h ∧ p.errors < nfcPollErrors

section
variable {p : NfcPoll} {h : List Step}

theorem Agrees.quiet (ha : Agrees p h) {i : Input} {q : NfcPoll}
    (hs : q.state = p.state) (hu : q.uid = p.uid)
    (hm : q.state = .present → q.misses = empties ((i,.none)::h) ∧ q.misses < nfcPollMisses)
    (he : q.state ≠ .recovering → q.errors = errorRow ((i,.none)::h) ∧ q.errors < nfcPollErrors) :
    Agrees q ((i,.none)::h) where
  present := by
    rw [hs, hu]
    exact ha.present
  absent := by
    rw [hs]
    exact ha.absent
  deaf := by
    rw [hs]
    exact ha.deaf
  misses := hm
  errors := he

theorem answers_quiet {i : Input} (ha : Agrees p h)
    (hr : p.state ≠ .recovering → errorRow ((i,.none)::h) ≠ nfcPollErrors) :
    Answers h i .none where
  tag := fun t ht => by cases ht
  left := fun hl => by cases hl
  lost := ⟨fun hl => (by cases hl),fun ⟨hd,hrow⟩ => by
    refine absurd hrow (hr fun hs => ?_)
    rw [ha.deaf.mpr hs] at hd
    cases hd⟩
  quiet := fun _ => .inl rfl
  back := fun hb => by cases hb

theorem misses_pos : 0 < nfcPollMisses := by decide

theorem errors_pos : 0 < nfcPollErrors := by decide

theorem deaf_false (ha : Agrees p h) (hs : p.state ≠ .recovering) : deaf h = false :=
  Bool.eq_false_iff.mpr fun hd => hs (ha.deaf.mp hd)

theorem error_step (ha : Agrees p h) (hs : p.state ≠ .recovering) (f : Fault) (now : ℕ) :
    Answers h (.poll (.error f) now) (nfcPollResult p (.error f) now).1 ∧
    Agrees (nfcPollResult p (.error f) now).2
      ((.poll (.error f) now,(nfcPollResult p (.error f) now).1)::h) := by
  obtain ⟨hrow,hlt⟩ := ha.errors hs
  simp only [nfcPollResult, if_neg hs]
  split
  · rename_i hge
    have hthird : p.errors+1 = nfcPollErrors := by omega
    constructor
    · exact {
        tag := fun t ht => by cases ht
        left := fun hl => by cases hl
        lost := iff_of_true rfl ⟨deaf_false ha hs,(congrArg (·+1) hrow).symm.trans hthird⟩
        quiet := fun hd => absurd (ha.deaf.mp hd) hs
        back := fun hb => by cases hb }
    · exact {
        present := fun hp => by cases hp
        absent := fun _ t ht => by cases ht
        deaf := iff_of_true rfl rfl
        misses := fun hp => by cases hp
        errors := fun hr => absurd rfl hr }
  · rename_i hge
    have hmore : p.errors+1 = errorRow ((.poll (.error f) now,.none)::h) := congrArg (·+1) hrow
    refine ⟨answers_quiet ha fun _ => by omega,ha.quiet rfl rfl ha.misses fun _ => ?_⟩
    exact ⟨hmore,Nat.not_le.mp hge⟩

theorem found_step (ha : Agrees p h) (hs : p.state ≠ .recovering) (t : NfcTag) (now : ℕ) :
    Answers h (.poll (.ok (some t)) now) (nfcPollFound p t).1 ∧
    Agrees (nfcPollFound p t).2 ((.poll (.ok (some t)) now,(nfcPollFound p t).1)::h) := by
  simp only [nfcPollFound]
  split
  · refine ⟨answers_quiet ha fun _ => Nat.ne_of_lt errors_pos,ha.quiet rfl rfl ?_ ?_⟩
    · exact fun _ => ⟨rfl,misses_pos⟩
    · exact fun _ => ⟨rfl,errors_pos⟩
  · rename_i hnew
    constructor
    · exact {
        tag := by
          rintro t' ht
          obtain rfl : t = t' := NfcPollEvent.tag.inj ht
          refine ⟨⟨now,rfl⟩,fun u hu huid => hnew ?_⟩
          by_cases hp : p.state = .present
          · obtain ⟨v,hv,hpuid⟩ := ha.present hp
            rw [hu] at hv
            cases hv
            exact ⟨hp,(huid.trans hpuid).symm⟩
          · exact absurd hu (ha.absent hp u)
        left := fun hl => by cases hl
        lost := iff_of_false (by simp) fun hlost => by cases hlost.2
        quiet := fun hd => absurd (ha.deaf.mp hd) hs
        back := fun hb => by cases hb }
    · exact {
        present := fun _ => ⟨t,rfl,rfl⟩
        absent := fun hp => absurd rfl hp
        deaf := iff_of_false (by rw [show deaf (_::h) = deaf h from rfl, deaf_false ha hs]; simp)
          (by simp)
        misses := fun _ => ⟨rfl,misses_pos⟩
        errors := fun _ => ⟨rfl,errors_pos⟩ }

theorem empty_step (ha : Agrees p h) (hs : p.state ≠ .recovering) (now : ℕ) :
    Answers h (.poll (.ok none) now) (nfcPollEmpty p).1 ∧
    Agrees (nfcPollEmpty p).2 ((.poll (.ok none) now,(nfcPollEmpty p).1)::h) := by
  simp only [nfcPollEmpty]
  split
  · rename_i hp
    obtain ⟨hmiss,hlt⟩ := ha.misses hp
    split
    · rename_i hge
      have hlast : p.misses+1 = nfcPollMisses := by
        have : nfcPollMisses = 2 := rfl
        omega
      constructor
      · exact {
          tag := fun t ht => by cases ht
          left := fun _ => ⟨⟨now,rfl⟩,(congrArg (·+1) hmiss).symm.trans hlast⟩
          lost := iff_of_false (by simp) fun hlost => by cases hlost.2
          quiet := fun hd => absurd (ha.deaf.mp hd) hs
          back := fun hb => by cases hb }
      · exact {
          present := fun hp => by cases hp
          absent := fun _ t ht => by cases ht
          deaf := iff_of_false (by rw [show deaf (_::h) = deaf h from rfl, deaf_false ha hs]; simp)
            (by simp [nfcPollInit])
          misses := fun hp => by cases hp
          errors := fun _ => ⟨rfl,by decide⟩ }
    · rename_i hge
      refine ⟨answers_quiet ha fun _ => Nat.ne_of_lt errors_pos,ha.quiet rfl rfl ?_ ?_⟩
      · exact fun _ => ⟨congrArg (·+1) hmiss,Nat.not_le.mp hge⟩
      · exact fun _ => ⟨rfl,errors_pos⟩
  · rename_i hp
    refine ⟨answers_quiet ha fun _ => Nat.ne_of_lt errors_pos,ha.quiet rfl rfl ?_ ?_⟩
    · exact fun hp' => absurd hp' hp
    · exact fun _ => ⟨rfl,errors_pos⟩

theorem poll_step (ha : Agrees p h) (result : Except Fault (Option NfcTag)) (now : ℕ) :
    Answers h (.poll result now) (nfcPollResult p result now).1 ∧
    Agrees (nfcPollResult p result now).2 ((.poll result now,(nfcPollResult p result now).1)::h) := by
  by_cases hs : p.state = .recovering
  · simp only [nfcPollResult, if_pos hs]
    refine ⟨answers_quiet ha fun h => absurd hs h,ha.quiet rfl rfl ?_ fun h => absurd hs h⟩
    intro hp
    rw [hs] at hp
    cases hp
  · cases result with
    | error f => exact error_step ha hs f now
    | ok found =>
      simp only [nfcPollResult, if_neg hs]
      cases found with
      | some t => exact found_step ha hs t now
      | none => exact empty_step ha hs now

theorem recovered_step (ha : Agrees p h) (err : StarkErr) (now : ℕ) :
    Answers h (.recovered err now) (nfcPollRecovered p err now).1 ∧
    Agrees (nfcPollRecovered p err now).2
      ((.recovered err now,(nfcPollRecovered p err now).1)::h) := by
  unfold nfcPollRecovered
  by_cases hs : p.state = .recovering
  · rw [if_neg (not_not.mpr hs)]
    split
    · refine ⟨answers_quiet ha fun h => absurd hs h,ha.quiet rfl rfl ?_ fun h => absurd hs h⟩
      intro hp
      rw [show p.state = .present from hp] at hs
      cases hs
    · rename_i hok
      constructor
      · exact {
          tag := fun t ht => by cases ht
          left := fun hl => by cases hl
          lost := iff_of_false (by simp) fun hlost => by
            have hd := hlost.1
            rw [ha.deaf.mpr hs] at hd
            cases hd
          quiet := fun _ => .inr rfl
          back := fun _ => ⟨ha.deaf.mpr hs,now,by rw [not_not.mp hok]⟩ }
      · exact {
          present := fun hp => by cases hp
          absent := fun _ => ha.absent (by rw [hs]; decide)
          deaf := iff_of_false (by simp [deaf]) (by simp [nfcPollInit])
          misses := fun hp => by cases hp
          errors := fun _ => ⟨rfl,by decide⟩ }
  · rw [if_pos hs]
    have herrors := ha.errors hs
    refine ⟨answers_quiet ha fun _ => ?_,ha.quiet rfl rfl ha.misses fun _ => herrors⟩
    have hrow : errorRow ((.recovered err now,.none)::h) = errorRow h := rfl
    omega

theorem feed_step (ha : Agrees p h) (i : Input) :
    Answers h i (feed p i).1 ∧ Agrees (feed p i).2 ((i,(feed p i).1)::h) := by
  cases i with
  | poll result now => exact poll_step ha result now
  | recovered err now => exact recovered_step ha err now

theorem run_lawful (is : List Input) (ha : Agrees p h) (hl : Lawful h) :
    Agrees (run is p h).1 (run is p h).2 ∧ Lawful (run is p h).2 := by
  induction is generalizing p h with
  | nil => exact ⟨ha,hl⟩
  | cons i is ih =>
    obtain ⟨hans,hnext⟩ := feed_step ha i
    exact ih hnext ⟨hans,hl⟩

end

theorem agrees_init : Agrees nfcPollInit [] where
  present := fun hp => by cases hp
  absent := fun _ t ht => by cases ht
  deaf := iff_of_false (by decide) (by decide)
  misses := fun hp => by cases hp
  errors := fun _ => ⟨rfl,by decide⟩

/-- Over any sequence of inputs the machine is present just when its last move was an
arrival, and every event it emits is the one its history calls for. -/
theorem poll_traces (is : List Input) :
    ((run is nfcPollInit []).1.state = .present ↔
      ∃ t, lastMove (run is nfcPollInit []).2 = some (.tag t)) ∧
    Lawful (run is nfcPollInit []).2 := by
  obtain ⟨ha,hl⟩ := run_lawful is agrees_init trivial
  refine ⟨⟨fun hp => ?_,fun ⟨t,ht⟩ => ?_⟩,hl⟩
  · obtain ⟨t,ht,-⟩ := ha.present hp
    exact ⟨t,ht⟩
  · exact Classical.byContradiction fun hp => ha.absent hp t ht

end StarkOne.NfcPollTraces
