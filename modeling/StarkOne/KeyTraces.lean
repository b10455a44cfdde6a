import Mathlib.Data.UInt
import StarkOne.KeySteps

/-!
# The actions of a key

Between PRESS and RELEASE a key gives repeats and one LONG, and behind RELEASE
comes SHORT unless LONG came before. The next repeat is kept as the time since
the press, and must not pass the end of the clock.
-/

set_option autoImplicit false

namespace StarkOne.KeyTraces
open StarkOne.UiStack (StarkKey StarkKeyAction)
open StarkOne.KeyInput StarkOne.KeySteps

structure Event where
  time : ℕ
  quiet : Bool
  action : StarkKeyAction

def isRepeat (e : Event) : Bool := e.action = .repeated
def isLong (e : Event) : Bool := e.action = .long
def isPress (e : Event) : Bool := e.action = .press

def events (k : StarkKey) (r : Record) : List Event :=
  (r.out.filter fun a => a.key = k ∧ a.action ≠ .chord).map fun a =>
    ⟨r.sample.now,quiet r.before k,a.action⟩

def trace (k : StarkKey) (rs : List Record) : List Event := rs.flatMap (events k)

/-- A press and what came since: repeats, each not before its time, and at most one LONG. -/
structure Opened (k : StarkKey) (t : InputCoreTiming) (start : Event) (held : List Event) : Prop where
  press : start.action = .press
  kinds : ∀ e ∈ held, e.action = .repeated ∨ e.action = .long
  once : held.countP isLong ≤ 1
  direction : ∀ e ∈ held, e.action = .repeated → keyRepeats k = true
  paced : ∀ n e, (held.filter isRepeat)[n]? = some e →
    start.time+t.repeatDelayMs.toNat+n*t.repeatIntervalMs.toNat ≤ e.time

structure Press where
  start : Event
  held : List Event
  release : Event
  short : List Event

def Press.events (p : Press) : List Event := p.start::p.held++p.release::p.short

structure Press.Lawful (k : StarkKey) (t : InputCoreTiming) (p : Press) : Prop where
  opened : Opened k t p.start p.held
  release : p.release.action = .release
  short : ∀ e ∈ p.short, e.action = .short
  atMost : p.short.length ≤ 1
  one : p.release.quiet = false → p.held.countP isLong+p.short.length = 1

def Law (k : StarkKey) (t : InputCoreTiming) (tr : List Event) : Prop :=
  ∃ (presses : List Press) (last : List Event), tr = presses.flatMap Press.events++last ∧
    (∀ p ∈ presses, p.Lawful k t) ∧ (last = [] ∨ ∃ start held, last = start::held ∧ Opened k t start held)

def pressTime (k : StarkKey) (rs : List Record) : Option ℕ :=
  ((trace k rs).filter isPress).getLast?.map Event.time

def Brief (k : StarkKey) (limit : ℕ) (rs : List Record) : Prop :=
  ∀ pre r post, rs = pre++r::post → (r.before.key k).pressed = true → ∀ T, pressTime k pre = some T →
    r.sample.now < T+limit

/-- The time of the repeat after this one does not pass the end of the clock. -/
def Fits (t : InputCoreTiming) (st : InputKeyState) (now : UInt32) : Prop :=
  st.nextRepeat.toNat+t.repeatIntervalMs.toNat < 2^32 ∧
    (st.nextRepeat.toNat+t.repeatIntervalMs.toNat ≤ (now-st.pressedAt).toNat →
      (now-st.pressedAt).toNat+t.repeatIntervalMs.toNat < 2^32)

def RepeatFits (k : StarkKey) (r : Record) : Prop :=
  let st := r.before.key k
  let now := UInt32.ofNat r.sample.now
  st.pressed = true →
    ¬(rawLevel r.sample.rawBitmap k = false ∧
      stable r.before.t (sampled st (rawLevel r.sample.rawBitmap k) now) now) →
    repeatDue k st now = true → Fits r.before.t st now

/-- What the state of a key that is down says about its press. -/
structure Down (k : StarkKey) (t : InputCoreTiming) (st : InputKeyState) (start : Event)
    (held : List Event) : Prop where
  opened : Opened k t start held
  pressedAt : st.pressedAt = UInt32.ofNat start.time
  next : t.repeatDelayMs.toNat+(held.filter isRepeat).length*t.repeatIntervalMs.toNat ≤
    st.nextRepeat.toNat
  long : held.countP isLong = if st.longSent then 1 else 0

def Traced (k : StarkKey) (t : InputCoreTiming) (st : InputKeyState) (tr : List Event) (now : ℕ) : Prop :=
  ∃ presses : List Press, (∀ p ∈ presses, p.Lawful k t) ∧
    if st.pressed then ∃ start held, tr = presses.flatMap Press.events++start::held ∧
      Down k t st start held ∧ start.time ≤ now
    else tr = presses.flatMap Press.events

theorem Traced.law {k : StarkKey} {t : InputCoreTiming} {st : InputKeyState} {tr : List Event} {now : ℕ}
    (h : Traced k t st tr now) : Law k t tr := by
  obtain ⟨presses,hlawful,hlast⟩ := h
  split at hlast
  · obtain ⟨start,held,htr,hdown,-⟩ := hlast
    exact ⟨presses,start::held,htr,hlawful,.inr ⟨start,held,rfl,hdown.opened⟩⟩
  · exact ⟨presses,[],hlast.trans (List.append_nil _).symm,hlawful,.inl rfl⟩

section
variable {k : StarkKey} {t : InputCoreTiming} {q raw : Bool} {st st' : InputKeyState}
  {acts : List InputAction} {tr : List Event} {now T : ℕ}

theorem held_toNat {start : ℕ} (hstart : start ≤ now) (hat : st.pressedAt = UInt32.ofNat start) :
    (UInt32.ofNat now-st.pressedAt).toNat = (now-start) % 2^32 := by
  rw [hat, ← UInt32.ofNat_sub hstart, UInt32.toNat_ofNat']

theorem repeat_paced {start : ℕ} (hstart : start ≤ now) (hat : st.pressedAt = UInt32.ofNat start)
    {m : ℕ} (hm : m ≤ st.nextRepeat.toNat) (hdue : repeatDue k st (UInt32.ofNat now) = true) :
    start+m ≤ now := by
  have hle := UInt32.le_iff_toNat_le.mp (of_decide_eq_true (Bool.and_eq_true_iff.mp hdue).2)
  rw [held_toNat hstart hat] at hle
  have := Nat.mod_le (now-start) (2^32)
  omega

theorem next_paced {m : UInt32} (hdue : repeatDue k st m = true) (hfits : Fits t st m) :
    st.nextRepeat.toNat+t.repeatIntervalMs.toNat ≤ (repeated t st m).nextRepeat.toNat := by
  have hle := UInt32.le_iff_toNat_le.mp (of_decide_eq_true (Bool.and_eq_true_iff.mp hdue).2)
  have hint := UInt16.toNat_toUInt32 t.repeatIntervalMs
  have hnext : (st.nextRepeat+t.repeatIntervalMs.toUInt32).toNat =
      st.nextRepeat.toNat+t.repeatIntervalMs.toNat := by
    rw [UInt32.toNat_add, hint, Nat.mod_eq_of_lt hfits.1]
  unfold repeated
  dsimp only
  split
  · rename_i hlate
    rw [UInt32.le_iff_toNat_le, hnext] at hlate
    rw [UInt32.toNat_add, hint, Nat.mod_eq_of_lt (hfits.2 hlate)]
    exact Nat.add_le_add_right hle _
  · exact Nat.le_of_eq hnext.symm

theorem Opened.append_long {start e : Event} {held : List Event} (h : Opened k t start held)
    (he : e.action = .long) (hnone : held.countP isLong = 0) : Opened k t start (held++[e]) := by
  have hrep : isRepeat e = false := by
    rw [isRepeat, he]
    rfl
  refine ⟨h.press,fun f hf => ?_,?_,fun f hf hr => ?_,?_⟩
  · rcases List.mem_append.mp hf with hf | hf
    · exact h.kinds f hf
    · exact .inr (List.mem_singleton.mp hf ▸ he)
  · rw [List.countP_append, hnone, Nat.zero_add]
    exact List.countP_le_length
  · rcases List.mem_append.mp hf with hf | hf
    · exact h.direction f hf hr
    · rw [List.mem_singleton.mp hf, he] at hr
      cases hr
  · rw [List.filter_append, List.filter_cons_of_neg (by rw [hrep]; exact Bool.false_ne_true),
      List.filter_nil, List.append_nil]
    exact h.paced

theorem Opened.append_repeat {start e : Event} {held : List Event} (h : Opened k t start held)
    (he : e.action = .repeated) (hk : keyRepeats k = true)
    (hpaced : start.time+t.repeatDelayMs.toNat+
      (held.filter isRepeat).length*t.repeatIntervalMs.toNat ≤ e.time) :
    Opened k t start (held++[e]) := by
  have hrep : isRepeat e = true := by
    rw [isRepeat, he]
    rfl
  have hlong : isLong e = false := by
    rw [isLong, he]
    rfl
  refine ⟨h.press,fun f hf => ?_,?_,fun f hf hr => ?_,fun n f hf => ?_⟩
  · rcases List.mem_append.mp hf with hf | hf
    · exact h.kinds f hf
    · exact .inl (List.mem_singleton.mp hf ▸ he)
  · rw [List.countP_append, List.countP_cons_of_neg (by rw [hlong]; exact Bool.false_ne_true)]
    exact h.once
  · exact hk
  · rw [List.filter_append, List.filter_cons_of_pos hrep, List.filter_nil] at hf
    by_cases hn : n < (held.filter isRepeat).length
    · rw [List.getElem?_append_left hn] at hf
      exact h.paced n f hf
    · rw [List.getElem?_append_right (Nat.not_lt.mp hn)] at hf
      have hzero : n-(held.filter isRepeat).length = 0 := by
        by_contra hne
        rw [List.getElem?_singleton, if_neg hne] at hf
        cases hf
      rw [hzero] at hf
      cases hf
      rw [show n = (held.filter isRepeat).length by omega]
      exact hpaced

theorem Down.congr {start : Event} {held : List Event} (h : Down k t st start held)
    (hat : st'.pressedAt = st.pressedAt) (hnext : st'.nextRepeat = st.nextRepeat)
    (hlong : st'.longSent = st.longSent) : Down k t st' start held :=
  ⟨h.opened,hat.trans h.pressedAt,hnext ▸ h.next,hlong ▸ h.long⟩

theorem Down.append_long {start : Event} {held : List Event} (h : Down k t st start held)
    (hdue : longDue t q st (UInt32.ofNat now) = true) :
    Down k t { st with longSent := true } start (held++[⟨now,q,.long⟩]) := by
  have hsent : st.longSent = false := by
    unfold longDue at hdue
    rw [Bool.and_eq_true, Bool.and_eq_true, Bool.not_eq_true', Bool.not_eq_true'] at hdue
    exact hdue.1.2
  have hnone : held.countP isLong = 0 := by
    rw [h.long, hsent]
    rfl
  refine ⟨h.opened.append_long rfl hnone,h.pressedAt,?_,?_⟩
  · rw [List.filter_append]
    simpa [isRepeat] using h.next
  · rw [List.countP_append, hnone]
    rfl

theorem Down.append_repeat {start : Event} {held : List Event} (h : Down k t st start held)
    (hstart : start.time ≤ now) (hdue : repeatDue k st (UInt32.ofNat now) = true)
    (hfits : Fits t st (UInt32.ofNat now)) :
    Down k t (repeated t st (UInt32.ofNat now)) start (held++[⟨now,q,.repeated⟩]) := by
  have hk := (Bool.and_eq_true_iff.mp hdue).1
  have hpaced := repeat_paced hstart h.pressedAt h.next hdue
  have hnext := next_paced hdue hfits
  rw [← Nat.add_assoc] at hpaced
  refine ⟨h.opened.append_repeat rfl hk hpaced,h.pressedAt,?_,?_⟩
  · rw [List.filter_append, List.length_append]
    have hone : ([⟨now,q,.repeated⟩] : List Event).filter isRepeat = [⟨now,q,.repeated⟩] := rfl
    rw [hone, List.length_singleton, Nat.add_mul, Nat.one_mul]
    have := h.next
    omega
  · rw [List.countP_append, h.long]
    rfl

theorem Down.held {start : Event} {held : List Event} (h : Down k t st start held)
    (hstart : start.time ≤ now)
    (hfits : repeatDue k st (UInt32.ofNat now) = true → Fits t st (UInt32.ofNat now)) :
    Down k t { (if repeatDue k st (UInt32.ofNat now) then
        repeated t (sampled st raw (UInt32.ofNat now)) (UInt32.ofNat now)
      else sampled st raw (UInt32.ofNat now)) with
        longSent := st.longSent || longDue t q st (UInt32.ofNat now) } start
      (held++(heldActions k t q st (UInt32.ofNat now)).map fun a => ⟨now,q,a.action⟩) := by
  have hsame : (repeated t (sampled st raw (UInt32.ofNat now)) (UInt32.ofNat now)).nextRepeat =
      (repeated t st (UInt32.ofNat now)).nextRepeat := by
    unfold repeated
    rw [sampled_nextRepeat, sampled_pressedAt]
  unfold heldActions
  cases hlong : longDue t q st (UInt32.ofNat now) with
  | false =>
    rw [Bool.or_false]
    cases hrep : repeatDue k st (UInt32.ofNat now) with
    | false =>
      have hnone : Down k t { sampled st raw (UInt32.ofNat now) with longSent := st.longSent } start
          held := h.congr sampled_pressedAt sampled_nextRepeat rfl
      rwa [← List.append_nil held] at hnone
    | true =>
      exact (h.append_repeat (q := q) hstart hrep (hfits hrep)).congr sampled_pressedAt hsame rfl
  | true =>
    rw [Bool.or_true]
    have hl := h.append_long hlong
    cases hrep : repeatDue k st (UInt32.ofNat now) with
    | false => exact hl.congr sampled_pressedAt sampled_nextRepeat rfl
    | true =>
      have hb := hfits hrep
      by_cases hearly : st.nextRepeat < t.longMs.toUInt32
      · rw [decide_eq_true hearly]
        have hr := (h.append_repeat (q := q) hstart hrep hb).append_long hlong
        rw [List.append_assoc] at hr
        exact hr.congr sampled_pressedAt hsame rfl
      · rw [decide_eq_false hearly]
        have hr := hl.append_repeat (q := q) hstart hrep hb
        rw [List.append_assoc] at hr
        exact hr.congr sampled_pressedAt hsame rfl

def completed (t : InputCoreTiming) (q : Bool) (st : InputKeyState) (now : ℕ)
    (start : Event) (held : List Event) : Press where
  start := start
  held := held++if longDue t q st (UInt32.ofNat now) then [⟨now,q,.long⟩] else []
  release := ⟨now,q,.release⟩
  short := if !q && !(st.longSent || longDue t q st (UInt32.ofNat now)) then [⟨now,q,.short⟩] else []

theorem Down.release {start : Event} {held : List Event} (h : Down k t st start held) :
    (completed t q st now start held).Lawful k t := by
  cases hlong : longDue t q st (UInt32.ofNat now) with
  | false =>
    refine ⟨?_,rfl,fun e he => ?_,?_,fun hq => ?_⟩
    · simpa only [completed, hlong, Bool.false_eq_true, if_false, List.append_nil] using h.opened
    · simp only [completed] at he
      split at he
      · exact congrArg Event.action (List.mem_singleton.mp he)
      · cases he
    · simp only [completed]
      split <;> simp
    · obtain rfl : q = false := hq
      simp only [completed, hlong, Bool.false_eq_true, if_false, List.append_nil, h.long,
        Bool.or_false, Bool.not_false, Bool.true_and]
      cases st.longSent <;> rfl
  | true =>
    have hl := h.append_long hlong
    refine ⟨?_,rfl,fun e he => ?_,?_,fun _ => ?_⟩
    · simpa only [completed, hlong, if_true] using hl.opened
    · simp only [completed, hlong, Bool.or_true, Bool.not_true, Bool.and_false] at he
      cases he
    · simp only [completed, hlong, Bool.or_true, Bool.not_true, Bool.and_false]
      exact Nat.zero_le _
    · simp only [completed, hlong, Bool.or_true, Bool.not_true, Bool.and_false, if_true]
      rw [hl.long]
      rfl

theorem completed_events {start : Event} {held : List Event} :
    (completed t q st now start held).events = start::held++
      ((if longDue t q st (UInt32.ofNat now) then ([⟨k,.long,0⟩] : List InputAction) else [])++
        (⟨k,.release,0⟩ : InputAction)::
          (if !q && !(st.longSent || longDue t q st (UInt32.ofNat now)) then
            ([⟨k,.short,0⟩] : List InputAction) else [])).map fun a => (⟨now,q,a.action⟩ : Event) := by
  unfold Press.events completed
  rw [List.map_append, List.map_cons, ← List.append_assoc]
  congr 1
  · cases longDue t q st (UInt32.ofNat now) <;> simp
  · cases (!q && !(st.longSent || longDue t q st (UInt32.ofNat now))) <;> rfl

theorem traced_step (h : Traced k t st tr T) (hT : T ≤ now)
    (hstep : KeyStep k t q raw (UInt32.ofNat now) st acts st')
    (hfits : st.pressed = true →
      ¬(raw = false ∧ stable t (sampled st raw (UInt32.ofNat now)) (UInt32.ofNat now)) →
      repeatDue k st (UInt32.ofNat now) = true → Fits t st (UInt32.ofNat now)) :
    Traced k t st' (tr++acts.map fun a => ⟨now,q,a.action⟩) now := by
  obtain ⟨presses,hlawful,hlast⟩ := h
  cases hstep with
  | idle hup =>
    rw [hup, if_neg Bool.false_ne_true] at hlast
    refine ⟨presses,hlawful,?_⟩
    rw [sampled_pressed, hup, if_neg Bool.false_ne_true, hlast]
    exact List.append_nil _
  | press hup =>
    rw [hup, if_neg Bool.false_ne_true] at hlast
    refine ⟨presses,hlawful,⟨now,q,.press⟩,[],by rw [hlast]; rfl,⟨⟨rfl,fun e he => ?_,Nat.zero_le _,
      fun e he => ?_,fun n e he => ?_⟩,rfl,?_,rfl⟩,Nat.le_refl _⟩
    · cases he
    · cases he
    · cases he
    · show t.repeatDelayMs.toNat+0*_ ≤ t.repeatDelayMs.toUInt32.toNat
      rw [UInt16.toNat_toUInt32, Nat.zero_mul]
      exact Nat.le_refl _
  | release hdown =>
    rw [hdown, if_pos rfl] at hlast
    obtain ⟨start,held,htr,hpress,-⟩ := hlast
    refine ⟨presses++[completed t q st now start held],fun p hp => ?_,?_⟩
    · rcases List.mem_append.mp hp with hp | hp
      · exact hlawful p hp
      · rw [List.mem_singleton.mp hp]
        exact hpress.release
    · rw [if_neg Bool.false_ne_true, htr, List.flatMap_append, List.flatMap_singleton,
        completed_events, List.append_assoc]
  | held hdown hno =>
    rw [hdown, if_pos rfl] at hlast
    obtain ⟨start,held,htr,hpress,hstart⟩ := hlast
    have hstart : start.time ≤ now := Nat.le_trans hstart hT
    have hdown' : (if repeatDue k st (UInt32.ofNat now) then
        repeated t (sampled st raw (UInt32.ofNat now)) (UInt32.ofNat now)
      else sampled st raw (UInt32.ofNat now)).pressed = true := by
      cases repeatDue k st (UInt32.ofNat now) <;> exact sampled_pressed.trans hdown
    refine ⟨presses,hlawful,?_⟩
    rw [if_pos hdown']
    refine ⟨start,_,?_,hpress.held hstart (hfits hdown hno),hstart⟩
    rw [htr, List.append_assoc]
    rfl

end

theorem Traced.mono {k : StarkKey} {t : InputCoreTiming} {st : InputKeyState} {tr : List Event}
    {now T : ℕ} (h : Traced k t st tr now) (hT : now ≤ T) : Traced k t st tr T := by
  obtain ⟨presses,hlawful,hlast⟩ := h
  refine ⟨presses,hlawful,?_⟩
  split at hlast
  · rename_i hdown
    obtain ⟨start,held,htr,hpress,hstart⟩ := hlast
    rw [if_pos hdown]
    exact ⟨start,held,htr,hpress,Nat.le_trans hstart hT⟩
  · rename_i hup
    rw [if_neg hup]
    exact hlast

theorem record_key {maxOut : ℕ} (hmax : inputCoreMaxActions ≤ maxOut) (c : InputCore) (x : Sample)
    (k : StarkKey) : ∃ acts, KeyStep k c.t (quiet c k) (rawLevel x.rawBitmap k) (UInt32.ofNat x.now)
      (c.key k) acts ((record maxOut c x).after.key k) ∧
      events k (record maxOut c x) = acts.map fun a => ⟨x.now,quiet c k,a.action⟩ := by
  obtain ⟨acts,hup,hout⟩ := record_spec maxOut c x
  rw [List.take_of_length_le (Nat.le_trans hup.length hmax)] at hout
  refine ⟨acts k,hup.keys k,?_⟩
  rw [events, hout, hup.of_key]
  rfl

/-- The trace of a key in every run in which each repeat has a time for the next. -/
theorem records_traced {t : InputCoreTiming} {maxOut : ℕ} (hmax : inputCoreMaxActions ≤ maxOut)
    (k : StarkKey) {xs : List Sample} : (xs.Pairwise fun x y => x.now ≤ y.now) →
    (∀ r ∈ records maxOut (released t) xs, RepeatFits k r) → ∀ T, (∀ x ∈ xs, x.now ≤ T) →
      Traced k t ((core maxOut (released t) xs).key k) (trace k (records maxOut (released t) xs)) T := by
  induction xs using List.reverseRecOn with
  | nil => exact fun _ _ _ _ => ⟨[],fun p hp => (by cases hp),rfl⟩
  | append_singleton ys x ih =>
    intro hmono hfits T hT
    obtain ⟨hys,-,hlast⟩ := List.pairwise_append.mp hmono
    rw [records_append] at hfits ⊢
    have hbefore := ih hys (fun r hr => hfits r (List.mem_append_left _ hr)) x.now fun y hy =>
      hlast y hy x (List.mem_singleton.mpr rfl)
    have hlastFits := hfits (record maxOut (core maxOut (released t) ys) x)
      (List.mem_append_right _ List.mem_cons_self)
    obtain ⟨acts,hstep,hacts⟩ := record_key hmax (core maxOut (released t) ys) x k
    have htime : (record maxOut (core maxOut (released t) ys) x).before.t = t := core_timing ys _
    rw [core_timing] at hstep
    unfold RepeatFits at hlastFits
    rw [htime] at hlastFits
    have hafter := traced_step hbefore (Nat.le_refl _) hstep hlastFits
    rw [← hacts] at hafter
    have hone : (records maxOut (core maxOut (released t) ys) [x]).flatMap (events k) =
        events k (record maxOut (core maxOut (released t) ys) x) := List.flatMap_singleton _ _
    rw [core_append, trace, List.flatMap_append, hone]
    exact hafter.mono (hT x (by simp))

theorem repeats_count {k : StarkKey} {t : InputCoreTiming} {q raw : Bool} {now : UInt32}
    {st st' : InputKeyState} {acts : List InputAction} (h : KeyStep k t q raw now st acts st') (n : ℕ) :
    (acts.map fun a => (⟨n,q,a.action⟩ : Event)).countP isRepeat ≤ 1 := by
  have hcount : ∀ l : List InputAction, (l.map fun a => (⟨n,q,a.action⟩ : Event)).countP isRepeat =
      l.countP fun a => a.action = .repeated := fun l => by
    rw [List.countP_map]
    rfl
  rw [hcount]
  cases h with
  | idle => exact Nat.zero_le _
  | press => exact Nat.zero_le _
  | release =>
    rw [List.countP_append, List.countP_cons]
    split <;> split <;> simp
  | held =>
    rw [(heldActions_perm k t q st now).countP_eq, List.countP_append]
    cases longDue t q st now <;> cases repeatDue k st now <;> simp

/-- In every run in which each repeat has a time for the next the actions of every key are lawful,
with at most one repeat of a key and no more than the maximum of actions in an update. -/
theorem key_traces {t : Option InputCoreTiming} {c : InputCore} (hinit : inputCoreInit t = .ok c)
    {maxOut : ℕ} (hmax : inputCoreMaxActions ≤ maxOut) {xs : List Sample}
    (hmono : xs.Pairwise fun x y => x.now ≤ y.now)
    (hfits : ∀ r ∈ records maxOut c xs, ∀ k, RepeatFits k r) :
    (∀ k, Law k c.t (trace k (records maxOut c xs))) ∧
      ∀ r ∈ records maxOut c xs, (∀ k, (events k r).countP isRepeat ≤ 1) ∧
        r.out.length ≤ inputCoreMaxActions := by
  obtain ⟨-,rfl⟩ := init_released hinit
  constructor
  · intro k
    obtain ⟨T,hT⟩ : ∃ T, ∀ x ∈ xs, x.now ≤ T :=
      ⟨(xs.map Sample.now).max?.getD 0,fun x hx => List.le_max?_getD_of_mem (List.mem_map_of_mem hx)⟩
    exact (records_traced hmax k hmono (fun r hr => hfits r hr k) T hT).law
  · intro r hr
    obtain ⟨pre,post,hrec⟩ := List.append_of_mem hr
    obtain ⟨ys,-,-,-,hr,-⟩ := records_split hrec
    rw [hr]
    constructor
    · intro k
      obtain ⟨acts,hstep,hacts⟩ := record_key hmax (core maxOut _ ys) r.sample k
      rw [hacts]
      exact repeats_count hstep _
    · obtain ⟨acts,hup,hout⟩ := record_spec maxOut (core maxOut _ ys) r.sample
      rw [hout]
      exact Nat.le_trans (List.length_take_le' ..) hup.length

instance (t : InputCoreTiming) (st : InputKeyState) (now : UInt32) : Decidable (stable t st now) :=
  inferInstanceAs (Decidable (_ ≤ _))

instance (t : InputCoreTiming) (st : InputKeyState) (now : UInt32) : Decidable (Fits t st now) :=
  inferInstanceAs (Decidable (_ ∧ _))

instance (k : StarkKey) (r : Record) : Decidable (RepeatFits k r) :=
  inferInstanceAs (Decidable (_ → _))

def upRecords : List Record := records inputCoreMaxActions (released defaultTiming)
  [⟨0x01,0⟩,⟨0x01,20⟩,⟨0x01,420⟩,⟨0x00,425⟩,⟨0x00,450⟩]

theorem key_traces_up : (∀ k, Law k defaultTiming (trace k upRecords)) ∧
    ∀ r ∈ upRecords, (∀ k, (events k r).countP isRepeat ≤ 1) ∧ r.out.length ≤ inputCoreMaxActions := by
  have hfits : ∀ r ∈ upRecords, ∀ k ∈ starkKeys, RepeatFits k r := by decide
  exact key_traces (show inputCoreInit none = .ok (released defaultTiming) from rfl) (Nat.le_refl _)
    (by decide) fun r hr k => hfits r hr k (by cases k <;> decide)

/-! A key that is held to the end of the clock. -/

def endTiming : InputCoreTiming := ⟨0,1,1,65535⟩

def dueSamples (n : ℕ) : List Sample :=
  ⟨0x01,0⟩::(List.range n).map fun j => ⟨0x01,1+j*65535⟩

def endSamples : List Sample := dueSamples 65537++[⟨0x01,2^32-65534⟩]

structure Repeating (n : ℕ) (st : InputKeyState) (tr : List Event) : Prop where
  pressed : st.pressed = true
  pressedAt : st.pressedAt = 0
  next : st.nextRepeat = UInt32.ofNat (1+n*65535)
  trace : ∃ held, tr = ⟨0,false,.press⟩::held ∧ (∀ e ∈ held, e.action = .repeated ∨ e.action = .long) ∧
    (held.filter isRepeat).length = n

theorem due_step {k : StarkKey} {t : InputCoreTiming} {q : Bool} {now : UInt32}
    {st st' : InputKeyState} {acts : List InputAction} (h : KeyStep k t q true now st acts st')
    (hdown : st.pressed = true) (hdue : repeatDue k st now = true) :
    acts = heldActions k t q st now ∧ st'.pressed = true ∧ st'.pressedAt = st.pressedAt ∧
      st'.nextRepeat = (repeated t st now).nextRepeat := by
  cases h with
  | idle hup => exact absurd (hup.symm.trans hdown) Bool.false_ne_true
  | press hup => exact absurd (hup.symm.trans hdown) Bool.false_ne_true
  | release _ hraw => cases hraw
  | held =>
    rw [if_pos hdue]
    refine ⟨rfl,sampled_pressed.trans hdown,sampled_pressedAt,?_⟩
    unfold repeated
    rw [sampled_nextRepeat, sampled_pressedAt]

theorem heldActions_due {k : StarkKey} {t : InputCoreTiming} {q : Bool} {st : InputKeyState}
    {now : UInt32} (hdue : repeatDue k st now = true) (n : ℕ) :
    (∀ a ∈ heldActions k t q st now, a.action = .repeated ∨ a.action = .long) ∧
      (((heldActions k t q st now).map fun a => (⟨n,q,a.action⟩ : Event)).filter isRepeat) =
        [⟨n,q,.repeated⟩] := by
  unfold heldActions
  rw [hdue, Bool.and_true]
  cases longDue t q st now with
  | false => exact ⟨by simp,rfl⟩
  | true =>
    cases decide (st.nextRepeat < t.longMs.toUInt32) with
    | false => exact ⟨by simp,rfl⟩
    | true => exact ⟨by simp,rfl⟩

theorem Repeating.due {n now : ℕ} {q : Bool} {st st' : InputKeyState} {tr : List Event}
    {acts : List InputAction} (h : Repeating n st tr)
    (hstep : KeyStep .up endTiming q true (UInt32.ofNat now) st acts st')
    (hdue : st.nextRepeat ≤ UInt32.ofNat now) :
    st'.pressed = true ∧ st'.pressedAt = 0 ∧
      st'.nextRepeat = (repeated endTiming st (UInt32.ofNat now)).nextRepeat ∧
      ∃ held last, tr++acts.map (fun a => ⟨now,q,a.action⟩) = ⟨0,false,.press⟩::(held++last) ∧
        (∀ e ∈ held++last, e.action = .repeated ∨ e.action = .long) ∧
        (held.filter isRepeat).length = n ∧ last.filter isRepeat = [⟨now,q,.repeated⟩] := by
  obtain ⟨held,htr,hkinds,hcount⟩ := h.trace
  have hrep : repeatDue .up st (UInt32.ofNat now) = true := by
    refine Bool.and_eq_true_iff.mpr ⟨rfl,decide_eq_true ?_⟩
    rwa [h.pressedAt, UInt32.sub_zero]
  obtain ⟨rfl,hdown,hat,hnext⟩ := due_step hstep h.pressed hrep
  obtain ⟨hacts,hone⟩ := heldActions_due (t := endTiming) (q := q) hrep now
  refine ⟨hdown,hat.trans h.pressedAt,hnext,held,_,by rw [htr]; rfl,fun e he => ?_,hcount,hone⟩
  rcases List.mem_append.mp he with he | he
  · exact hkinds e he
  · obtain ⟨a,ha,rfl⟩ := List.mem_map.mp he
    exact hacts a ha

theorem endTiming_interval : endTiming.repeatIntervalMs.toUInt32 = UInt32.ofNat 65535 := by decide

theorem repeated_due {n : ℕ} {st : InputKeyState} (hat : st.pressedAt = 0)
    (hnext : st.nextRepeat = UInt32.ofNat (1+n*65535)) :
    (repeated endTiming st (UInt32.ofNat (1+n*65535))).nextRepeat =
      UInt32.ofNat (1+(n+1)*65535) := by
  have hadd : UInt32.ofNat (1+(n+1)*65535) =
      UInt32.ofNat (1+n*65535)+endTiming.repeatIntervalMs.toUInt32 := by
    rw [endTiming_interval, ← UInt32.ofNat_add]
    exact congrArg _ (by omega)
  unfold repeated
  dsimp only
  rw [hat, hnext, UInt32.sub_zero, hadd, ite_self]

theorem dueSamples_succ (n : ℕ) : dueSamples (n+1) = dueSamples n++[⟨0x01,1+n*65535⟩] := by
  rw [dueSamples, List.range_succ, List.map_append]
  rfl

theorem up_level : rawLevel 0x01 .up = true := by decide

theorem dueSamples_repeating (n : ℕ) : Repeating n
    ((core inputCoreMaxActions (released endTiming) (dueSamples n)).key .up)
    (trace .up (records inputCoreMaxActions (released endTiming) (dueSamples n))) := by
  induction n with
  | zero => exact ⟨rfl,rfl,rfl,[],rfl,fun e he => (by cases he),rfl⟩
  | succ n ih =>
    obtain ⟨acts,hstep,hacts⟩ := record_key (Nat.le_refl inputCoreMaxActions)
      (core inputCoreMaxActions (released endTiming) (dueSamples n)) ⟨0x01,1+n*65535⟩ .up
    change KeyStep .up _ _ (rawLevel 0x01 .up) (UInt32.ofNat (1+n*65535)) _ _ _ at hstep
    rw [core_timing, up_level] at hstep
    obtain ⟨hdown,hat,hnext,held,last,htr,hkinds,hcount,hone⟩ :=
      ih.due hstep (UInt32.le_of_eq ih.next)
    rw [dueSamples_succ, records_append, core_append, trace, List.flatMap_append]
    refine ⟨hdown,hat,hnext.trans (repeated_due ih.pressedAt ih.next),held++last,?_,hkinds,?_⟩
    · rw [← htr, ← hacts]
      exact congrArg _ (List.flatMap_singleton _ _)
    · rw [List.filter_append, List.length_append, hcount, hone]
      rfl

theorem endSamples_time : ∀ x ∈ endSamples, x.now < 2^32 := by
  intro x hx
  rcases List.mem_append.mp hx with hx | hx
  · rcases List.mem_cons.mp hx with rfl | hx
    · exact Nat.two_pow_pos 32
    · obtain ⟨j,hj,rfl⟩ := List.mem_map.mp hx
      have := List.mem_range.mp hj
      show 1+j*65535 < 2^32
      omega
  · rw [List.mem_singleton.mp hx]
    show 2^32-65534 < 2^32
    omega

theorem endSamples_mono : endSamples.Pairwise fun x y => x.now ≤ y.now := by
  refine List.pairwise_append.mpr ⟨List.pairwise_cons.mpr ⟨fun _ _ => Nat.zero_le _,?_⟩,
    List.pairwise_singleton _ _,fun x hx y hy => ?_⟩
  · rw [List.pairwise_map]
    refine List.pairwise_le_range.imp fun {i j} h => ?_
    show 1+i*65535 ≤ 1+j*65535
    omega
  · rw [List.mem_singleton.mp hy]
    rcases List.mem_cons.mp hx with rfl | hx
    · exact Nat.zero_le _
    · obtain ⟨j,hj,rfl⟩ := List.mem_map.mp hx
      have := List.mem_range.mp hj
      show 1+j*65535 ≤ 2^32-65534
      omega

theorem Law.opened {k : StarkKey} {t : InputCoreTiming} {start : Event} {held : List Event}
    (h : Law k t (start::held)) (hstart : start.action = .press)
    (hkinds : ∀ e ∈ held, e.action = .repeated ∨ e.action = .long) : Opened k t start held := by
  obtain ⟨presses,last,htr,hlawful,hlast⟩ := h
  cases presses with
  | nil =>
    rcases hlast with rfl | ⟨start',held',rfl,hopened⟩
    · cases htr
    · obtain ⟨rfl,rfl⟩ := List.cons.inj htr
      exact hopened
  | cons p presses =>
    have hmem : p.release ∈ start::held := by
      rw [htr]
      simp [Press.events]
    have hrelease := (hlawful p List.mem_cons_self).release
    rcases List.mem_cons.mp hmem with h | h
    · rw [h, hstart] at hrelease
      cases hrelease
    · rcases hkinds _ h with h | h
      · rw [h] at hrelease
        cases hrelease
      · rw [h] at hrelease
        cases hrelease

/-- The press is shorter than the clock, and yet a repeat comes right behind the last one. -/
theorem key_traces_end : inputCoreInit (some endTiming) = .ok (released endTiming) ∧
    (endSamples.Pairwise fun x y => x.now ≤ y.now) ∧
    (∀ k, Brief k (2^32) (records inputCoreMaxActions (released endTiming) endSamples)) ∧
    ¬Law .up endTiming (trace .up (records inputCoreMaxActions (released endTiming) endSamples)) := by
  refine ⟨rfl,endSamples_mono,fun k pre r post hrec _ T _ => ?_,fun hlaw => ?_⟩
  · obtain ⟨ys,zs,hxs,-⟩ := records_split hrec
    have := endSamples_time r.sample (by rw [hxs]; simp)
    omega
  · have hrun := dueSamples_repeating 65537
    obtain ⟨acts,hstep,hacts⟩ := record_key (Nat.le_refl inputCoreMaxActions)
      (core inputCoreMaxActions (released endTiming) (dueSamples 65537)) ⟨0x01,2^32-65534⟩ .up
    change KeyStep .up _ _ (rawLevel 0x01 .up) (UInt32.ofNat (2^32-65534)) _ _ _ at hstep
    rw [core_timing, up_level] at hstep
    have hzero : UInt32.ofNat (1+65537*65535) = 0 := by decide
    obtain ⟨-,-,-,held,last,htr,hkinds,hcount,hone⟩ :=
      hrun.due hstep (by rw [hrun.next, hzero]; exact UInt32.le_iff_toNat_le.mpr (Nat.zero_le _))
    have hend : trace .up (records inputCoreMaxActions (released endTiming) endSamples) =
        ⟨0,false,.press⟩::(held++last) := by
      rw [endSamples, records_append, trace, List.flatMap_append, ← htr, ← hacts]
      exact congrArg _ (List.flatMap_singleton _ _)
    rw [hend] at hlaw
    have hpaced := (hlaw.opened rfl hkinds).paced 65537
    rw [List.filter_append, hone, List.getElem?_append_right (Nat.le_of_eq hcount), hcount] at hpaced
    have hle : 0+1+65537*65535 ≤ 2^32-65534 := hpaced _ rfl
    omega

end StarkOne.KeyTraces
