import StarkOne.Machine
import StarkOne.OneShot
import StarkOne.StarkErr

/-!
# The buzzer

The tone sequencer: a sequence of notes stepped by a one-shot timer whose late
callbacks are told apart from the current one by the clock. Requests and
callbacks hold one mutex, so each of them is one step of the machine; what
it reads of the clock on the way comes with its label.
-/

set_option autoImplicit false

namespace StarkOne.Buzzer
open StarkOne.Machine StarkOne.OneShot

def maxNotes : ℕ := 16
def buzzerMinHz : ℕ := 200
def buzzerMaxHz : ℕ := 10000
def buzzerMaxMs : ℕ := 10000
def clickHz : ℕ := 2000
def slackUs : ℕ := 200

def buzzerVolumeMax : ℕ := 3

def buzzerVolumeDuty (level : ℕ) : ℕ :=
  if level ≤ buzzerVolumeMax then [0,5,15,50].getD level 0 else 0

/-- A rest has frequency 0. -/
structure Note where
  hz : UInt16
  ms : UInt16
  deriving DecidableEq

def Note.us (n : Note) : ℕ := n.ms.toNat*1000

structure Pwm where
  freq : ℕ
  duty : ℕ
  deriving DecidableEq

structure Playing where
  serial : ℕ
  note : Note
  since : ℕ
  deriving DecidableEq

/-- The buzzer's statics, the PWM channel, the timer and the clock. The number of
notes started, the note that plays and the notes callbacks have ended are
recorded beside them. -/
structure World where
  ready : Bool
  hasPin : Bool
  duty : ℕ
  seq : List Note
  next : ℕ
  deadline : ℕ
  pwm : Pwm
  timer : Timer ℕ
  now : ℕ
  started : ℕ
  current : Option Playing
  ended : List (Playing × ℕ)

def boot : World where
  ready := false
  hasPin := false
  duty := 50
  seq := []
  next := 0
  deadline := 0
  pwm := ⟨0,0⟩
  timer := ⟨none,[]⟩
  now := 0
  started := 0
  current := none
  ended := []

def sound (hz : ℕ) (w : World) : World :=
  if !w.hasPin then w
  else if hz = 0 ∨ w.duty = 0 then { w with pwm := { w.pwm with duty := 0 } }
  else { w with pwm := ⟨hz,w.duty⟩ }

/-- The deadline is taken at `clock`; the arming itself happens at `arm`, and its result
is dropped. -/
def stepLocked (clock arm : ℕ) (w : World) : World :=
  match w.seq[w.next]? with
  | none => { sound 0 w with current := none }
  | some note =>
    { sound note.hz.toNat w with
      next := w.next+1
      deadline := clock+note.us
      timer := w.timer.startOnce (arm+note.us) w.started
      started := w.started+1
      current := some ⟨w.started,note,clock⟩ }

def onTimer (check clock arm : ℕ) (w : World) : World :=
  if check+slackUs ≥ w.deadline then
    { stepLocked clock arm w with ended := w.current.toList.map (fun c => (c,check))++w.ended }
  else w

def noteOk (n : Note) : Bool :=
  n.ms.toNat ≥ 1 && n.ms.toNat ≤ buzzerMaxMs &&
    (n.hz.toNat = 0 || (n.hz.toNat ≥ buzzerMinHz && n.hz.toNat ≤ buzzerMaxHz))

/-- The pin is negative on a board without a buzzer; the other arguments are what the PWM
and timer calls return. -/
def buzzerInit (pin : ℤ) (pwmInit dutyErr create : StarkErr) (w : World) : StarkErr × World :=
  if w.ready then (.state,w)
  else
    let w := { w with hasPin := decide (pin ≥ 0) }
    if w.hasPin ∧ pwmInit ≠ .ok then (pwmInit,w)
    else
      let w := if w.hasPin then { w with pwm := { w.pwm with freq := clickHz } } else w
      if w.hasPin ∧ dutyErr ≠ .ok then (dutyErr,w)
      else
        let w := if w.hasPin then { w with pwm := { w.pwm with duty := 0 } } else w
        if create ≠ .ok then (create,w) else (.ok,{ w with ready := true })

def buzzerPlay (notes : List Note) (clock arm : ℕ) (w : World) : StarkErr × World :=
  if !w.ready then (.state,w)
  else if notes.length = 0 ∨ notes.length > maxNotes then (.invalidArg,w)
  else if !notes.all noteOk then (.invalidArg,w)
  else (.ok,stepLocked clock arm { w with timer := w.timer.stop, seq := notes, next := 0 })

def buzzerTone (hz ms : UInt16) (clock arm : ℕ) (w : World) : StarkErr × World :=
  if hz = 0 then (.invalidArg,w) else buzzerPlay [⟨hz,ms⟩] clock arm w

def buzzerSetVolume (level : ℕ) (w : World) : StarkErr × World :=
  if level > buzzerVolumeMax then (.invalidArg,w)
  else (.ok,{ w with duty := buzzerVolumeDuty level })

def buzzerStop (w : World) : World :=
  if !w.ready then w
  else { sound 0 { w with timer := w.timer.stop, seq := [], next := 0 } with current := none }

/-- `expire` is the timer going off; `callback` runs the one of the arming named. -/
inductive Action where
  | tick (us : ℕ)
  | expire
  | callback (tag check clock arm : ℕ)
  | init (pin : ℤ) (pwmInit dutyErr create : StarkErr)
  | play (notes : List Note) (clock arm : ℕ)
  | tone (hz ms : UInt16) (clock arm : ℕ)
  | setVolume (level : ℕ)
  | stop

def step (w : World) : Action → Option World
  | .tick us => some { w with now := w.now+us }
  | .expire => (w.timer.expire w.now).map (fun t => { w with timer := t })
  | .callback tag check clock arm =>
    if w.now ≤ check ∧ check ≤ clock ∧ clock ≤ arm then
      (w.timer.deliver tag).map (fun t =>
        { onTimer check clock arm { w with timer := t } with now := arm })
    else none
  | .init pin pwmInit dutyErr create => some (buzzerInit pin pwmInit dutyErr create w).2
  | .play notes clock arm =>
    if w.now ≤ clock ∧ clock ≤ arm then
      some { (buzzerPlay notes clock arm w).2 with now := arm }
    else none
  | .tone hz ms clock arm =>
    if w.now ≤ clock ∧ clock ≤ arm then
      some { (buzzerTone hz ms clock arm w).2 with now := arm }
    else none
  | .setVolume level => some (buzzerSetVolume level w).2
  | .stop => some (buzzerStop w)

def Action.driven : Action → Bool
  | .expire => true
  | .callback .. => true
  | _ => false

def Action.request : Action → Bool
  | .play .. => true
  | .tone .. => true
  | .stop => true
  | _ => false

/-- A callback does not pass for the current one while the timer is armed and another
note is left to start. -/
def Undisturbed (w : World) : Action → Prop
  | .callback _ check _ _ =>
    w.timer.armed.isSome → w.next < w.seq.length → check+slackUs < w.deadline
  | _ => True

instance (w : World) (a : Action) : Decidable (Undisturbed w a) := by
  cases a <;> unfold Undisturbed <;> infer_instance

/-- The note that plays has the timer armed for its end, or its own callback, due by
now, waits to run. -/
def Attended (w : World) : Prop :=
  ∀ c ∈ w.current, w.timer.Due c.serial w.deadline w.now

structure Sound (w : World) : Prop where
  silent : w.current = none → w.pwm.duty = 0
  mute : w.hasPin = false → w.pwm.duty = 0
  early : w.ready = false → w.current = none ∧ w.timer = ⟨none,[]⟩
  fresh : w.timer.All (· < w.started)
  since : ∀ c ∈ w.current, w.deadline = c.since+c.note.us
  full : ∀ e ∈ w.ended, e.1.since+e.1.note.us ≤ e.2+slackUs

def remaining (w : World) : ℕ := 3*(w.seq.length-w.next)+w.timer.load

theorem sound_frame (hz : ℕ) (w : World) : sound hz w = { w with pwm := (sound hz w).pwm } := by
  unfold sound
  split_ifs <;> rfl

theorem sound_pinless (hz : ℕ) {w : World} (h : w.hasPin = false) : sound hz w = w := by
  simp [sound, h]

theorem sound_rest {w : World} (h : w.hasPin = false → w.pwm.duty = 0) :
    (sound 0 w).pwm.duty = 0 := by
  cases hp : w.hasPin with
  | false => rw [sound_pinless 0 hp, h hp]
  | true => simp [sound, hp]

theorem stepLocked_cases (clock arm : ℕ) (w : World) :
    (w.seq.length ≤ w.next ∧ stepLocked clock arm w = { sound 0 w with current := none }) ∨
    ∃ note, w.next < w.seq.length ∧ stepLocked clock arm w =
      { sound note.hz.toNat w with
        next := w.next+1
        deadline := clock+note.us
        timer := w.timer.startOnce (arm+note.us) w.started
        started := w.started+1
        current := some ⟨w.started,note,clock⟩ } := by
  unfold stepLocked
  split
  · rename_i hn
    exact Or.inl ⟨List.getElem?_eq_none_iff.mp hn,rfl⟩
  · rename_i note hn
    obtain ⟨hlt,-⟩ := List.getElem?_eq_some_iff.mp hn
    exact Or.inr ⟨note,hlt,rfl⟩

theorem onTimer_pass (check clock arm : ℕ) {w : World} (h : w.deadline ≤ check+slackUs) :
    onTimer check clock arm w = { stepLocked clock arm w with
      ended := w.current.toList.map (fun c => (c,check))++w.ended } :=
  if_pos h

theorem onTimer_stale (check clock arm : ℕ) {w : World} (h : check+slackUs < w.deadline) :
    onTimer check clock arm w = w :=
  if_neg (Nat.not_le.mpr h)

theorem Sound.later {w : World} (h : Sound w) (now : ℕ) : Sound { w with now := now } :=
  ⟨h.silent,h.mute,h.early,h.fresh,h.since,h.full⟩

theorem Sound.withTimer {w : World} (h : Sound w) {t : Timer ℕ} (ht : t.All (· < w.started))
    (hr : w.ready = true) : Sound { w with timer := t } :=
  ⟨h.silent,h.mute,fun hn => absurd (hr.symm.trans hn) Bool.noConfusion,ht,h.since,h.full⟩

theorem Sound.ready_of_timer {w : World} (h : Sound w) (ht : w.timer ≠ ⟨none,[]⟩) :
    w.ready = true :=
  (Bool.eq_false_or_eq_true w.ready).resolve_right (fun hr => ht (h.early hr).2)

theorem Sound.stepLocked {w : World} (h : Sound w) (hr : w.ready = true) (clock arm : ℕ) :
    Sound (stepLocked clock arm w) := by
  rcases stepLocked_cases clock arm w with ⟨-,hs⟩ | ⟨note,-,hs⟩
  · rw [hs, sound_frame]
    refine ⟨fun _ => sound_rest h.mute,fun _ => sound_rest h.mute,
      fun hn => ⟨rfl,(h.early hn).2⟩,h.fresh,fun c hc => absurd hc (Option.not_mem_none c),h.full⟩
  · rw [hs, sound_frame]
    refine ⟨fun hn => absurd hn (Option.some_ne_none _),fun hp => ?_,
      fun hn => absurd (hr.symm.trans hn) Bool.noConfusion,
      (h.fresh.mono fun k hk => Nat.lt_succ_of_lt hk).startOnce _ (Nat.lt_succ_self _),?_,h.full⟩
    · have hp' : w.hasPin = false := hp
      rw [sound_pinless _ hp']
      exact h.mute hp'
    · intro c hc
      rw [Option.mem_some_iff] at hc
      exact hc ▸ rfl

theorem Sound.onTimer {w : World} (h : Sound w) (hr : w.ready = true) (check clock arm : ℕ) :
    Sound (onTimer check clock arm w) := by
  rcases Nat.lt_or_ge (check+slackUs) w.deadline with hstale | hpass
  · rwa [onTimer_stale check clock arm hstale]
  · rw [onTimer_pass check clock arm hpass]
    have hs := h.stepLocked hr clock arm
    refine ⟨hs.silent,hs.mute,hs.early,hs.fresh,hs.since,fun e he => ?_⟩
    rcases List.mem_append.mp he with hc | he
    · obtain ⟨c,hm,rfl⟩ := List.mem_map.mp hc
      -- the note that ends had the deadline the clock was held against
      have hd := h.since c (Option.mem_toList.mp hm)
      dsimp only
      omega
    · exact h.full e he

theorem buzzerPlay_cases (notes : List Note) (clock arm : ℕ) (w : World) :
    (buzzerPlay notes clock arm w).2 = w ∨
    (w.ready = true ∧ 0 < notes.length ∧ (buzzerPlay notes clock arm w).2 =
      stepLocked clock arm { w with timer := w.timer.stop, seq := notes, next := 0 }) := by
  unfold buzzerPlay
  split_ifs with hr hn hk
  · exact Or.inl rfl
  · exact Or.inl rfl
  · exact Or.inl rfl
  · exact Or.inr ⟨by simpa using hr,by omega,rfl⟩

theorem buzzerTone_cases (hz ms : UInt16) (clock arm : ℕ) (w : World) :
    (buzzerTone hz ms clock arm w).2 = w ∨
    (buzzerTone hz ms clock arm w).2 = (buzzerPlay [⟨hz,ms⟩] clock arm w).2 := by
  unfold buzzerTone
  split_ifs
  · exact Or.inl rfl
  · exact Or.inr rfl

theorem Sound.replaced {w : World} (h : Sound w) (hr : w.ready = true) (notes : List Note) :
    Sound { w with timer := w.timer.stop, seq := notes, next := 0 } :=
  ⟨h.silent,h.mute,fun hn => absurd (hr.symm.trans hn) Bool.noConfusion,h.fresh.stop,h.since,h.full⟩

theorem Sound.play {w : World} (h : Sound w) (notes : List Note) (clock arm : ℕ) :
    Sound (buzzerPlay notes clock arm w).2 := by
  rcases buzzerPlay_cases notes clock arm w with hp | ⟨hr,-,hp⟩
  · rwa [hp]
  · rw [hp]
    exact (h.replaced hr notes).stepLocked hr clock arm

theorem Sound.tone {w : World} (h : Sound w) (hz ms : UInt16) (clock arm : ℕ) :
    Sound (buzzerTone hz ms clock arm w).2 := by
  rcases buzzerTone_cases hz ms clock arm w with ht | ht
  · rwa [ht]
  · rw [ht]
    exact h.play _ clock arm

theorem Sound.stop {w : World} (h : Sound w) : Sound (buzzerStop w) := by
  unfold buzzerStop
  split_ifs with hr
  · exact h
  · have hs := h.replaced (by simpa using hr) []
    rw [sound_frame]
    exact ⟨fun _ => sound_rest hs.mute,fun _ => sound_rest hs.mute,fun hn => ⟨rfl,(hs.early hn).2⟩,
      hs.fresh,fun c hc => absurd hc (Option.not_mem_none c),hs.full⟩

theorem buzzerInit_cases (pin : ℤ) (pwmInit dutyErr create : StarkErr) (w : World) :
    (buzzerInit pin pwmInit dutyErr create w).2 = w ∨
    (w.ready = false ∧ ∃ ready hasPin pwm, (pwm.duty = w.pwm.duty ∨ pwm.duty = 0) ∧
      (buzzerInit pin pwmInit dutyErr create w).2 =
        { w with ready := ready, hasPin := hasPin, pwm := pwm }) := by
  unfold buzzerInit
  split
  · exact Or.inl rfl
  · rename_i hr
    refine Or.inr ⟨by simpa using hr,?_⟩
    cases hp : decide (pin ≥ 0) <;> dsimp only <;> split_ifs <;>
      refine ⟨_,_,_,?_,rfl⟩
    all_goals first | exact Or.inl rfl | exact Or.inr rfl

theorem Sound.init {w : World} (h : Sound w) (pin : ℤ) (pwmInit dutyErr create : StarkErr) :
    Sound (buzzerInit pin pwmInit dutyErr create w).2 := by
  rcases buzzerInit_cases pin pwmInit dutyErr create w with hi | ⟨hr,ready,hasPin,pwm,hd,hi⟩
  · rwa [hi]
  · have hq := h.early hr
    have hz : pwm.duty = 0 := by
      rcases hd with hd | hd
      · rw [hd]
        exact h.silent hq.1
      · exact hd
    rw [hi]
    exact ⟨fun _ => hz,fun _ => hz,fun _ => hq,h.fresh,h.since,h.full⟩

theorem callback_cases {w v : World} {tag check clock arm : ℕ}
    (h : step w (.callback tag check clock arm) = some v) :
    w.now ≤ check ∧ check ≤ clock ∧ clock ≤ arm ∧ ∃ t, w.timer.deliver tag = some t ∧
      v = { onTimer check clock arm { w with timer := t } with now := arm } := by
  dsimp only [step] at h
  split at h
  · rename_i ht
    obtain ⟨t,hd,rfl⟩ := Option.map_eq_some_iff.mp h
    exact ⟨ht.1,ht.2.1,ht.2.2,t,hd,rfl⟩
  · cases h

theorem step_sound {w v : World} {a : Action} (h : Sound w) (hs : step w a = some v) :
    Sound v := by
  cases a with
  | tick us =>
    obtain rfl := Option.some.inj hs
    exact h.later _
  | expire =>
    obtain ⟨t,ht,rfl⟩ := Option.map_eq_some_iff.mp hs
    have hr := h.ready_of_timer (fun he => by rw [he] at ht; cases ht)
    exact h.withTimer (h.fresh.expire ht) hr
  | callback tag check clock arm =>
    obtain ⟨-,-,-,t,ht,rfl⟩ := callback_cases hs
    have hr := h.ready_of_timer (fun he => by rw [he] at ht; cases ht)
    have hd := h.withTimer (h.fresh.deliver ht) hr
    exact (hd.onTimer hr check clock arm).later arm
  | init pin pwmInit dutyErr create =>
    obtain rfl := Option.some.inj hs
    exact h.init pin pwmInit dutyErr create
  | play notes clock arm =>
    obtain ⟨-,hv⟩ := Option.ite_none_right_eq_some.mp hs
    obtain rfl := Option.some.inj hv
    exact (h.play notes clock arm).later arm
  | tone hz ms clock arm =>
    obtain ⟨-,hv⟩ := Option.ite_none_right_eq_some.mp hs
    obtain rfl := Option.some.inj hv
    exact (h.tone hz ms clock arm).later arm
  | setVolume level =>
    obtain rfl := Option.some.inj hs
    unfold buzzerSetVolume
    split
    · exact h
    · exact ⟨h.silent,h.mute,h.early,h.fresh,h.since,h.full⟩
  | stop =>
    obtain rfl := Option.some.inj hs
    exact h.stop

theorem attended_stepLocked {w : World} (ha : w.timer.armed = none) {clock arm : ℕ}
    (hc : clock ≤ arm) (now : ℕ) : Attended { stepLocked clock arm w with now := now } := by
  rcases stepLocked_cases clock arm w with ⟨-,hs⟩ | ⟨note,-,hs⟩
  · rw [hs]
    exact fun c hc => absurd hc (Option.not_mem_none c)
  · rw [hs]
    intro c hm
    have hc' := Option.mem_some_iff.mp hm
    left
    refine ⟨⟨arm+note.us,w.started⟩,?_,by rw [← hc'],Nat.add_le_add_right hc _⟩
    exact congrArg Timer.armed (Timer.startOnce_idle ha _ _)

theorem attended_play {w : World} (h : Attended w) (notes : List Note) {clock arm : ℕ}
    (hn : w.now ≤ arm) (hc : clock ≤ arm) :
    Attended { (buzzerPlay notes clock arm w).2 with now := arm } := by
  rcases buzzerPlay_cases notes clock arm w with hp | ⟨-,-,hp⟩
  · rw [hp]
    exact fun c hm => (h c hm).later hn
  · rw [hp]
    exact attended_stepLocked rfl hc arm

/-- The invariant's step: an undisturbed step leaves the note that plays attended. -/
theorem step_attended {w v : World} {a : Action} (h : Attended w)
    (hg : Undisturbed w a) (hs : step w a = some v) : Attended v := by
  cases a with
  | tick us =>
    obtain rfl := Option.some.inj hs
    exact fun c hc => (h c hc).later (Nat.le_add_right _ _)
  | expire =>
    obtain ⟨t,ht,rfl⟩ := Option.map_eq_some_iff.mp hs
    exact fun c hc => (h c hc).expire ht
  | callback tag check clock arm =>
    obtain ⟨hn,hcc,hca,t,ht,rfl⟩ := callback_cases hs
    have htt := Timer.deliver_cases ht
    rcases Nat.lt_or_ge (check+slackUs) w.deadline with hstale | hpass
    · rw [onTimer_stale check clock arm (w := { w with timer := t }) hstale]
      intro c hc
      have hlt : w.now < w.deadline := by omega
      exact ((h c hc).deliver ht hlt).later (Nat.le_trans (Nat.le_trans hn hcc) hca)
    · rw [onTimer_pass check clock arm (w := { w with timer := t }) hpass]
      by_cases hlen : w.next < w.seq.length
      · -- another note is left, so the timer was disarmed and takes the arming
        have hidle : w.timer.armed = none := by
          by_contra hne
          have := hg (Option.isSome_iff_ne_none.mpr hne) hlen
          omega
        exact attended_stepLocked (htt.2 ▸ hidle) hca arm
      · rcases stepLocked_cases clock arm { w with timer := t } with ⟨-,hst⟩ | ⟨note,hlt,-⟩
        · rw [hst]
          exact fun c hc => absurd hc (Option.not_mem_none c)
        · exact absurd hlt hlen
  | init pin pwmInit dutyErr create =>
    obtain rfl := Option.some.inj hs
    rcases buzzerInit_cases pin pwmInit dutyErr create w with hi | ⟨-,ready,hasPin,pwm,-,hi⟩
    · rwa [hi]
    · rw [hi]
      exact h
  | play notes clock arm =>
    obtain ⟨⟨hn,hc⟩,hv⟩ := Option.ite_none_right_eq_some.mp hs
    obtain rfl := Option.some.inj hv
    exact attended_play h notes (Nat.le_trans hn hc) hc
  | tone hz ms clock arm =>
    obtain ⟨⟨hn,hc⟩,hv⟩ := Option.ite_none_right_eq_some.mp hs
    obtain rfl := Option.some.inj hv
    rcases buzzerTone_cases hz ms clock arm w with ht | ht
    · rw [ht]
      exact fun c hm => (h c hm).later (Nat.le_trans hn hc)
    · rw [ht]
      exact attended_play h _ (Nat.le_trans hn hc) hc
  | setVolume level =>
    obtain rfl := Option.some.inj hs
    unfold buzzerSetVolume
    split <;> exact h
  | stop =>
    obtain rfl := Option.some.inj hs
    unfold buzzerStop
    split
    · exact h
    · exact fun c hc => absurd hc (Option.not_mem_none c)

/-- A disturbed step starts a note whose arming is refused, so nothing will end it. -/
theorem step_disturbed {w v : World} {a : Action} (hw : Sound w) (hg : ¬Undisturbed w a)
    (hs : step w a = some v) : ¬Attended v := by
  cases a with
  | callback tag check clock arm =>
    obtain ⟨-,-,-,t,ht,rfl⟩ := callback_cases hs
    have htt := Timer.deliver_cases ht
    simp only [Undisturbed, Classical.not_imp, Nat.not_lt] at hg
    obtain ⟨harm,hlen,hpass⟩ := hg
    obtain ⟨a,ha⟩ := Option.isSome_iff_exists.mp harm
    rw [onTimer_pass check clock arm (w := { w with timer := t }) hpass]
    rcases stepLocked_cases clock arm { w with timer := t } with ⟨hle,-⟩ | ⟨note,-,hst⟩
    · exact absurd hlen (Nat.not_lt.mpr hle)
    · rw [hst]
      intro hatt
      have hdue := hatt ⟨w.started,note,clock⟩ rfl
      have hta : t.armed = some a := by
        rw [htt.2]
        exact ha
      dsimp only at hdue
      rw [Timer.startOnce_armed hta] at hdue
      exact (hw.fresh.deliver ht).not_due (Nat.lt_irrefl _) _ _ hdue
  | _ => exact absurd trivial hg

theorem remaining_stepLocked (clock arm : ℕ) (w : World) :
    remaining (stepLocked clock arm w) ≤ remaining w := by
  rcases stepLocked_cases clock arm w with ⟨-,hs⟩ | ⟨note,hlt,hs⟩
  · rw [hs, sound_frame]
    exact Nat.le_refl _
  · have hl := w.timer.load_startOnce (arm+note.us) w.started
    rw [hs, sound_frame]
    simp only [remaining]
    omega

/-- The timer's own steps use up what remains, and nothing but a request adds to it. -/
theorem step_remaining {w v : World} {a : Action} (hr : a.request = false)
    (hs : step w a = some v) : remaining v+(if a.driven then 1 else 0) ≤ remaining w := by
  cases a with
  | tick us =>
    obtain rfl := Option.some.inj hs
    exact Nat.le_refl _
  | expire =>
    obtain ⟨t,ht,rfl⟩ := Option.map_eq_some_iff.mp hs
    have hl := Timer.load_expire ht
    simp only [remaining, Action.driven, if_true]
    omega
  | callback tag check clock arm =>
    obtain ⟨-,-,-,t,ht,rfl⟩ := callback_cases hs
    have hl := Timer.load_deliver ht
    have hle : remaining (onTimer check clock arm { w with timer := t }) ≤
        remaining { w with timer := t } := by
      rcases Nat.lt_or_ge (check+slackUs) w.deadline with hstale | hpass
      · exact Nat.le_of_eq (congrArg remaining (onTimer_stale check clock arm hstale))
      · rw [onTimer_pass check clock arm (w := { w with timer := t }) hpass]
        exact remaining_stepLocked clock arm _
    simp only [remaining, Action.driven, if_true] at hle ⊢
    omega
  | init pin pwmInit dutyErr create =>
    obtain rfl := Option.some.inj hs
    rcases buzzerInit_cases pin pwmInit dutyErr create w with hi | ⟨-,ready,hasPin,pwm,-,hi⟩ <;>
      rw [hi] <;> exact Nat.le_refl _
  | setVolume level =>
    obtain rfl := Option.some.inj hs
    unfold buzzerSetVolume
    split <;> exact Nat.le_refl _
  | play notes clock arm => cases hr
  | tone hz ms clock arm => cases hr
  | stop => cases hr

/-- An endless run that nobody's request interrupts, in which an armed timer goes off and
a dispatched callback runs, sooner or later. -/
structure Unreplaced (w : ℕ → World) (a : ℕ → Action) : Prop where
  steps : ∀ i, step (w i) (a i) = some (w (i+1))
  undisturbed : ∀ i, Undisturbed (w i) (a i)
  unreplaced : ∀ i, (a i).request = false
  works : ∀ i, (w i).timer.armed ≠ none ∨ (w i).timer.waiting ≠ [] →
    ∃ j, i ≤ j ∧ (a j).driven = true

theorem sound_boot : Sound boot where
  silent _ := rfl
  mute _ := rfl
  early _ := ⟨rfl,rfl⟩
  fresh := ⟨fun a ha => absurd ha (Option.not_mem_none a),fun _ hk => absurd hk List.not_mem_nil⟩
  since c hc := absurd hc (Option.not_mem_none c)
  full _ he := absurd he List.not_mem_nil

theorem attended_boot : Attended boot := fun c hc => absurd hc (Option.not_mem_none c)

theorem unreplaced_ends {w : ℕ → World} {a : ℕ → Action} (h : Unreplaced w a) (hs : Sound (w 0))
    (ha : Attended (w 0)) : ∃ n, ∀ i, n ≤ i → (w i).current = none ∧ (w i).pwm.duty = 0 := by
  have hall : ∀ i, Sound (w i) ∧ Attended (w i) := by
    intro i
    induction i with
    | zero => exact ⟨hs,ha⟩
    | succ i ih =>
      exact ⟨step_sound ih.1 (h.steps i),step_attended ih.2 (h.undisturbed i) (h.steps i)⟩
  refine endless_quiet remaining Action.driven (fun v => v.current = none ∧ v.pwm.duty = 0)
    (fun i => step_remaining (h.unreplaced i) (h.steps i)) (fun i hq => h.works i ?_)
  cases hc : (w i).current with
  | none => exact absurd ⟨hc,(hall i).1.silent hc⟩ hq
  | some c => exact ((hall i).2 c hc).held

/-- Callbacks never end a note early by more than the slack. The note that plays is
attended throughout exactly when no callback disturbs the timer, and then a sequence
that is not replaced ends in silence. -/
theorem never_sticks (as : List Action) (t : World) (h : Run step Free boot as t) :
    (∀ e ∈ t.ended, e.1.since+e.1.note.us ≤ e.2+slackUs) ∧
    ((∀ bs cs u, as = bs++cs → Run step Free boot bs u → Attended u) ↔
      Run step Undisturbed boot as t) ∧
    (Run step Undisturbed boot as t → ∀ (w : ℕ → World) (a : ℕ → Action), w 0 = t →
      Unreplaced w a → ∃ n, ∀ i, n ≤ i → (w i).current = none ∧ (w i).pwm.duty = 0) := by
  have hsound : Sound t :=
    run_invariant Sound (fun _ _ _ hs _ hst => step_sound hs hst) as sound_boot h
  have hkeep : ∀ s a u, Sound s ∧ Attended s → Undisturbed s a → step s a = some u →
      Sound u ∧ Attended u :=
    fun s a u hs hg hst => ⟨step_sound hs.1 hst,step_attended hs.2 hg hst⟩
  refine ⟨hsound.full,?_,fun hu w a h0 hw => ?_⟩
  · exact run_guard_exact (fun s => Sound s ∧ Attended s) Attended hkeep (fun _ hs => hs.2)
      (fun s a u hs hg hst => step_disturbed hs.1 hg hst) as ⟨sound_boot,attended_boot⟩ h
  · have hatt :=
      run_invariant (fun s => Sound s ∧ Attended s) hkeep as ⟨sound_boot,attended_boot⟩ hu
    subst h0
    exact unreplaced_ends hw hatt.1 hatt.2

def beep : Note := ⟨1000,1⟩
def chirp : Note := ⟨2000,1⟩

/-- A callback delayed into the last 200 µs of a newer note starts the one after it while
the timer is still armed for the old end. -/
def lateCallback : List Action :=
  [.init 5 .ok .ok .ok, .play [beep] 0 0, .tick 1000, .expire, .play [beep,chirp] 1000 1000,
    .callback 0 1900 1900 1900, .tick 100, .expire, .callback 1 2000 2000 2000]

/-- The second note sounds with the timer disarmed and no callback to come. -/
theorem buzzer_sticks : ∃ t, Run step Free boot lateCallback t ∧ ¬Attended t ∧
    t.pwm = ⟨2000,50⟩ ∧ t.timer = ⟨none,[]⟩ := by
  obtain ⟨t,hr,hc,hp,ht⟩ := run_witness step (G := Free)
    (p := fun t => t.current.isSome ∧ t.pwm = ⟨2000,50⟩ ∧ t.timer = ⟨none,[]⟩)
    (s := boot) lateCallback (by decide) (by decide)
  obtain ⟨c,hc⟩ := Option.isSome_iff_exists.mp hc
  refine ⟨t,hr,fun ha => ?_,hp,ht⟩
  have hheld := (ha c hc).held
  rw [ht] at hheld
  simp at hheld

def trillAction : ℕ → Action
  | 0 => .tick 1000
  | 1 => .expire
  | 2 => .callback 0 1000 1000 1000
  | 3 => .tick 1000
  | 4 => .expire
  | 5 => .callback 1 2000 2000 2000
  | _ => .tick 0

def trilling : World := (buzzerPlay [beep,chirp] 0 0 (buzzerInit 5 .ok .ok .ok boot).2).2

def trillAt : ℕ → World
  | 0 => trilling
  | i+1 => (step (trillAt i) (trillAction i)).getD boot

/-- Two notes, one after the other, and then silence. -/
theorem trill_ends :
    Run step Undisturbed boot [.init 5 .ok .ok .ok,.play [beep,chirp] 0 0] trilling ∧
    trilling.pwm = ⟨1000,50⟩ ∧ (trillAt 3).pwm = ⟨2000,50⟩ ∧
    ∃ n, ∀ i, n ≤ i → (trillAt i).current = none ∧ (trillAt i).pwm.duty = 0 := by
  have hrun : Run step Undisturbed boot [.init 5 .ok .ok .ok,.play [beep,chirp] 0 0] trilling :=
    ⟨trivial,_,rfl,trivial,_,rfl,rfl⟩
  have hquiet : ∀ i, (trillAt (i+6)).timer = ⟨none,[]⟩ := by
    intro i
    induction i with
    | zero => decide
    | succ i ih => exact ih
  have hfree := run_weaken (H := Free) (fun _ _ _ => trivial) _ hrun
  refine ⟨hrun,by decide,by decide,(never_sticks _ trilling hfree).2.2 hrun
    trillAt trillAction rfl ⟨fun i => ?_,fun i => ?_,fun i => ?_,fun i hb => ?_⟩⟩
  · rcases i with _ | _ | _ | _ | _ | _ | i <;> rfl
  · rcases i with _ | _ | _ | _ | _ | _ | i
    · trivial
    · trivial
    · exact fun harm => absurd harm (by decide)
    · trivial
    · trivial
    · exact fun harm => absurd harm (by decide)
    · trivial
  · rcases i with _ | _ | _ | _ | _ | _ | i <;> rfl
  · rcases Nat.lt_or_ge 5 i with hi | hi
    · rw [show i = i-6+6 by omega, hquiet] at hb
      simp at hb
    · exact ⟨5,hi,rfl⟩

end StarkOne.Buzzer
