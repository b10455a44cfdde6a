import StarkOne.KeyInput

/-!
# What one update does

An update treats the keys one by one, and each in one of four ways: nothing
changes, a press is taken, a release is taken, or the key is held. The actions
of the keys follow each other, and a chord comes last.
-/

set_option autoImplicit false

namespace StarkOne.KeySteps
open StarkOne.UiStack (StarkKey StarkKeyAction)
open StarkOne.KeyInput

def emitAll (s : Sink) : List InputAction → Sink
  | [] => s
  | a::acts => emitAll (emit s a.key a.action a.count) acts

theorem emitAll_append (acts rest : List InputAction) :
    ∀ s, emitAll s (acts++rest) = emitAll (emitAll s acts) rest := by
  induction acts with
  | nil => exact fun _ => rfl
  | cons a acts ih => exact fun s => ih _

theorem emitAll_out (acts : List InputAction) : ∀ s : Sink, s.out.length ≤ s.max →
    (emitAll s acts).out = (s.out++acts).take s.max := by
  induction acts with
  | nil =>
    intro s h
    rw [List.append_nil, List.take_of_length_le h]
    rfl
  | cons a acts ih =>
    intro s h
    rw [emitAll]
    unfold emit
    by_cases hroom : s.out.length < s.max
    · rw [if_pos hroom, ih _ (by rw [List.length_append]; exact hroom), List.append_assoc]
      rfl
    · rw [if_neg hroom, ih s h, List.take_append_of_le_length (by omega),
        List.take_append_of_le_length (by omega)]

def stable (t : InputCoreTiming) (st : InputKeyState) (now : UInt32) : Prop :=
  t.debounceMs.toUInt32 ≤ now-st.rawSince

def longDue (t : InputCoreTiming) (quiet : Bool) (st : InputKeyState) (now : UInt32) : Bool :=
  !quiet && !st.longSent && t.longMs.toUInt32 ≤ now-st.pressedAt

def repeatDue (k : StarkKey) (st : InputKeyState) (now : UInt32) : Bool :=
  keyRepeats k && st.nextRepeat ≤ now-st.pressedAt

def repeated (t : InputCoreTiming) (st : InputKeyState) (now : UInt32) : InputKeyState :=
  { st with
    repeats := if st.repeats < 255 then st.repeats+1 else st.repeats
    nextRepeat := if st.nextRepeat+t.repeatIntervalMs.toUInt32 ≤ now-st.pressedAt then
        now-st.pressedAt+t.repeatIntervalMs.toUInt32
      else st.nextRepeat+t.repeatIntervalMs.toUInt32 }

/-- LONG and a repeat in the order in which they fell due. -/
def heldActions (k : StarkKey) (t : InputCoreTiming) (quiet : Bool) (st : InputKeyState)
    (now : UInt32) : List InputAction :=
  if longDue t quiet st now && repeatDue k st now && decide (st.nextRepeat < t.longMs.toUInt32) then
    [⟨k,.repeated,(repeated t st now).repeats⟩,⟨k,.long,0⟩]
  else (if longDue t quiet st now then [⟨k,.long,0⟩] else [])++
    if repeatDue k st now then [⟨k,.repeated,(repeated t st now).repeats⟩] else []

inductive KeyStep (k : StarkKey) (t : InputCoreTiming) (quiet raw : Bool) (now : UInt32) :
    InputKeyState → List InputAction → InputKeyState → Prop where
  | idle (st : InputKeyState) (hup : st.pressed = false)
      (hno : ¬(raw = true ∧ stable t (sampled st raw now) now)) :
      KeyStep k t quiet raw now st [] (sampled st raw now)
  | press (st : InputKeyState) (hup : st.pressed = false) (hraw : raw = true)
      (hstable : stable t (sampled st raw now) now) :
      KeyStep k t quiet raw now st [⟨k,.press,0⟩] { sampled st raw now with
        pressed := true, pressedAt := now, nextRepeat := t.repeatDelayMs.toUInt32, repeats := 0,
        longSent := false }
  | release (st : InputKeyState) (hdown : st.pressed = true) (hraw : raw = false)
      (hstable : stable t (sampled st raw now) now) :
      KeyStep k t quiet raw now st
        ((if longDue t quiet st now then [⟨k,.long,0⟩] else [])++⟨k,.release,0⟩::
          (if !quiet && !(st.longSent || longDue t quiet st now) then [⟨k,.short,0⟩] else []))
        { sampled st raw now with pressed := false, longSent := st.longSent || longDue t quiet st now }
  | held (st : InputKeyState) (hdown : st.pressed = true)
      (hno : ¬(raw = false ∧ stable t (sampled st raw now) now)) :
      KeyStep k t quiet raw now st (heldActions k t quiet st now)
        { (if repeatDue k st now then repeated t (sampled st raw now) now else sampled st raw now) with
          longSent := st.longSent || longDue t quiet st now }

section
variable {t : InputCoreTiming} {st : InputKeyState} {raw : Bool} {now : UInt32}

theorem sampled_pressed : (sampled st raw now).pressed = st.pressed := by
  unfold sampled
  split <;> rfl

theorem sampled_pressedAt : (sampled st raw now).pressedAt = st.pressedAt := by
  unfold sampled
  split <;> rfl

theorem sampled_nextRepeat : (sampled st raw now).nextRepeat = st.nextRepeat := by
  unfold sampled
  split <;> rfl

theorem sampled_repeats : (sampled st raw now).repeats = st.repeats := by
  unfold sampled
  split <;> rfl

theorem sampled_longSent : (sampled st raw now).longSent = st.longSent := by
  unfold sampled
  split <;> rfl

theorem sampled_raw : (sampled st raw now).raw = raw := by
  unfold sampled
  split
  · rfl
  · rename_i h
    exact (not_not.mp h).symm

end

theorem emitRepeat_eq (s : Sink) (k : StarkKey) (st : InputKeyState) (now : UInt32)
    (t : InputCoreTiming) : emitRepeat s k st (now-st.pressedAt) t.repeatIntervalMs =
      (emit s k .repeated (repeated t st now).repeats,repeated t st now) := by
  unfold emitRepeat repeated
  by_cases hcount : st.repeats < 255
  · simp only [hcount, if_true]
    split <;> rfl
  · simp only [hcount, if_false]
    split <;> rfl

theorem KeyStep.raw_eq {k : StarkKey} {t : InputCoreTiming} {quiet raw : Bool} {now : UInt32}
    {st st' : InputKeyState} {acts : List InputAction} (h : KeyStep k t quiet raw now st acts st') :
    st'.raw = raw ∧ st'.rawSince = (sampled st raw now).rawSince := by
  cases h with
  | idle => exact ⟨sampled_raw,rfl⟩
  | press => exact ⟨sampled_raw,rfl⟩
  | release => exact ⟨sampled_raw,rfl⟩
  | held =>
    cases repeatDue k st now with
    | true => exact ⟨sampled_raw,rfl⟩
    | false => exact ⟨sampled_raw,rfl⟩

theorem KeyStep.down_of {k : StarkKey} {t : InputCoreTiming} {quiet raw : Bool} {now : UInt32}
    {st st' : InputKeyState} {acts : List InputAction} (h : KeyStep k t quiet raw now st acts st')
    (hdown : st'.pressed = true) : raw = true ∨ st.pressed = true := by
  cases h with
  | idle hup =>
    rw [sampled_pressed] at hdown
    exact .inr hdown
  | press _ hraw => exact .inl hraw
  | release => cases hdown
  | held hst => exact .inr hst

theorem updateKey_step (k : StarkKey) (st : InputKeyState) (raw : Bool) (now : UInt32)
    (t : InputCoreTiming) (quiet : Bool) : ∃ acts st',
      (∀ s, updateKey s k st raw now t quiet = (emitAll s acts,st')) ∧
      KeyStep k t quiet raw now st acts st' := by
  have hquiet : (!quiet && !(sampled st raw now).longSent &&
      decide (t.longMs.toUInt32 ≤ now-(sampled st raw now).pressedAt)) = longDue t quiet st now := by
    rw [sampled_longSent, sampled_pressedAt]
    rfl
  have hsent : (sampled st raw now).longSent = st.longSent := sampled_longSent
  cases hst : st.pressed with
  | false =>
    by_cases hpress : raw = true ∧ stable t (sampled st raw now) now
    · refine ⟨[⟨k,.press,0⟩],_,fun s => ?_,.press st hst hpress.1 hpress.2⟩
      have hgo : (raw && decide (t.debounceMs.toUInt32 ≤ now-(sampled st raw now).rawSince)) = true := by
        rw [hpress.1, Bool.true_and, decide_eq_true_eq]
        exact hpress.1 ▸ hpress.2
      simp only [updateKey, sampled_pressed, hst, Bool.not_false, if_true, hgo]
      rfl
    · refine ⟨[],_,fun s => ?_,.idle st hst hpress⟩
      have hgo : (raw && decide (t.debounceMs.toUInt32 ≤ now-(sampled st raw now).rawSince)) = false := by
        rw [Bool.and_eq_false_iff, decide_eq_false_iff_not]
        by_cases hr : raw = true
        · exact .inr fun h => hpress ⟨hr,h⟩
        · exact .inl (Bool.eq_false_iff.mpr hr)
      simp only [updateKey, sampled_pressed, hst, Bool.not_false, if_true, hgo, Bool.false_eq_true,
        if_false]
      rfl
  | true =>
    by_cases hrel : raw = false ∧ stable t (sampled st raw now) now
    · refine ⟨_,_,fun s => ?_,.release st hst hrel.1 hrel.2⟩
      have hgo : (!raw && decide (t.debounceMs.toUInt32 ≤ now-(sampled st raw now).rawSince)) = true := by
        rw [hrel.1, Bool.not_false, Bool.true_and, decide_eq_true_eq]
        exact hrel.1 ▸ hrel.2
      simp only [updateKey, sampled_pressed, hst, Bool.not_true, Bool.false_eq_true, if_false, hgo,
        if_true, hquiet]
      by_cases hlong : longDue t quiet st now = true
      · simp only [hlong, if_true, emitLong, Bool.not_true, Bool.and_false, Bool.or_true]
        rfl
      · simp only [hlong, Bool.false_eq_true, if_false, Bool.or_false, sampled_longSent]
        by_cases hshort : (!quiet && !st.longSent) = true
        · rw [if_pos hshort, if_pos hshort]
          simp [emitAll, ← hsent]
        · rw [if_neg hshort, if_neg hshort]
          simp [emitAll, ← hsent]
    · have hgo :
          (!raw && decide (t.debounceMs.toUInt32 ≤ now-(sampled st raw now).rawSince)) = false := by
        rw [Bool.and_eq_false_iff, decide_eq_false_iff_not]
        by_cases hr : raw = false
        · exact .inr fun h => hrel ⟨hr,h⟩
        · exact .inl (by rw [Bool.not_eq_false] at hr; rw [hr]; rfl)
      have hrepeat : (keyRepeats k && decide ((sampled st raw now).nextRepeat ≤
          now-(sampled st raw now).pressedAt)) = repeatDue k st now := by
        rw [sampled_nextRepeat, sampled_pressedAt]
        rfl
      have hafter : ∀ s, updateKey s k st raw now t quiet =
          if longDue t quiet st now && repeatDue k st now &&
              decide ((sampled st raw now).nextRepeat < t.longMs.toUInt32) then
            emitLong (emitRepeat s k (sampled st raw now) (now-(sampled st raw now).pressedAt)
              t.repeatIntervalMs).1 k (emitRepeat s k (sampled st raw now)
                (now-(sampled st raw now).pressedAt) t.repeatIntervalMs).2
          else
            let r := if longDue t quiet st now then emitLong s k (sampled st raw now)
              else (s,sampled st raw now)
            if repeatDue k st now then emitRepeat r.1 k r.2 (now-(sampled st raw now).pressedAt)
              t.repeatIntervalMs else r := by
        intro s
        simp only [updateKey, sampled_pressed, hst, Bool.not_true, Bool.false_eq_true, if_false, hgo,
          hquiet, hrepeat]
      have hsame : (repeated t (sampled st raw now) now).repeats = (repeated t st now).repeats := by
        unfold repeated
        rw [sampled_repeats]
      refine ⟨_,_,fun s => ?_,.held st hst hrel⟩
      rw [hafter s]
      unfold heldActions
      rw [← hsame, sampled_nextRepeat]
      cases hlong : longDue t quiet st now with
      | false =>
        rw [Bool.or_false, ← hsent]
        cases hrep : repeatDue k st now with
        | false => rfl
        | true => exact emitRepeat_eq s k (sampled st raw now) now t
      | true =>
        rw [Bool.or_true]
        cases hrep : repeatDue k st now with
        | false => rfl
        | true =>
          by_cases hearly : st.nextRepeat < t.longMs.toUInt32
          · rw [decide_eq_true hearly, emitRepeat_eq]
            rfl
          · rw [decide_eq_false hearly]
            exact emitRepeat_eq (emitLong s k (sampled st raw now)).1 k
              (emitLong s k (sampled st raw now)).2 now t

theorem heldActions_perm (k : StarkKey) (t : InputCoreTiming) (quiet : Bool) (st : InputKeyState)
    (now : UInt32) : List.Perm (heldActions k t quiet st now)
      ((if longDue t quiet st now then [⟨k,.long,0⟩] else [])++
        if repeatDue k st now then [⟨k,.repeated,(repeated t st now).repeats⟩] else []) := by
  unfold heldActions
  split
  · rename_i h
    rw [Bool.and_eq_true, Bool.and_eq_true] at h
    rw [h.1.1, h.1.2]
    exact List.Perm.swap _ _ _
  · exact List.Perm.refl _

theorem KeyStep.length {k : StarkKey} {t : InputCoreTiming} {quiet raw : Bool} {now : UInt32}
    {st st' : InputKeyState} {acts : List InputAction} (h : KeyStep k t quiet raw now st acts st') :
    acts.length ≤ 2 := by
  cases h with
  | idle => exact Nat.zero_le _
  | press => exact Nat.le_succ _
  | release =>
    cases longDue t quiet st now with
    | true => simp
    | false =>
      rw [if_neg Bool.false_ne_true]
      split <;> simp
  | held =>
    rw [(heldActions_perm k t quiet st now).length_eq, List.length_append]
    split <;> split <;> simp

theorem KeyStep.key {k : StarkKey} {t : InputCoreTiming} {quiet raw : Bool} {now : UInt32}
    {st st' : InputKeyState} {acts : List InputAction} (h : KeyStep k t quiet raw now st acts st') :
    ∀ a ∈ acts, a.key = k ∧ a.action ≠ .chord := by
  have hlong : ∀ {c : Bool} {a}, a ∈ (if c then [⟨k,.long,0⟩] else [] : List InputAction) →
      a.key = k ∧ a.action ≠ .chord := by
    intro c a ha
    cases c with
    | true => rw [List.mem_singleton.mp ha]; exact ⟨rfl,StarkKeyAction.noConfusion⟩
    | false => cases ha
  cases h with
  | idle => exact fun a ha => by cases ha
  | press =>
    intro a ha
    rw [List.mem_singleton.mp ha]
    exact ⟨rfl,StarkKeyAction.noConfusion⟩
  | release =>
    intro a ha
    rcases List.mem_append.mp ha with ha | ha
    · exact hlong ha
    rcases List.mem_cons.mp ha with rfl | ha
    · exact ⟨rfl,StarkKeyAction.noConfusion⟩
    · split at ha
      · rw [List.mem_singleton.mp ha]
        exact ⟨rfl,StarkKeyAction.noConfusion⟩
      · cases ha
  | held =>
    intro a ha
    rcases List.mem_append.mp ((heldActions_perm k t quiet st now).mem_iff.mp ha) with ha | ha
    · exact hlong ha
    · split at ha
      · rw [List.mem_singleton.mp ha]
        exact ⟨rfl,StarkKeyAction.noConfusion⟩
      · cases ha

def bothDown (c : InputCore) : Bool := (c.key .ok).pressed && (c.key .back).pressed
def bothUp (c : InputCore) : Bool := !(c.key .ok).pressed && !(c.key .back).pressed

def quiet (c : InputCore) (k : StarkKey) : Bool := c.chord && chordKey k

structure Updated (c : InputCore) (rawBitmap : UInt8) (now : UInt32)
    (acts : StarkKey → List InputAction) (after : InputCore) : Prop where
  keys : ∀ k, KeyStep k c.t (quiet c k) (rawLevel rawBitmap k) now (c.key k) (acts k) (after.key k)
  timing : after.t = c.t
  chord : after.chord = if c.chord then !bothUp after else bothDown after

/-- All actions of an update: those of the keys, in their order, and then the chord's. -/
def allActions (c : InputCore) (acts : StarkKey → List InputAction) (after : InputCore) :
    List InputAction :=
  starkKeys.flatMap acts++if !c.chord && bothDown after then [⟨.ok,.chord,0⟩] else []

theorem updateKeys_eq {c : InputCore} {rawBitmap : UInt8} {now : UInt32}
    {acts : StarkKey → List InputAction} {after : StarkKey → InputKeyState}
    (h : ∀ k s, updateKey s k (c.key k) (rawLevel rawBitmap k) now c.t (quiet c k) =
      (emitAll s (acts k),after k)) (ks : List StarkKey) :
    ∀ s key, (∀ k ∈ ks, key k = c.key k) → ks.Nodup →
      updateKeys rawBitmap now c ks (s,key) =
        (emitAll s (ks.flatMap acts),fun k => if k ∈ ks then after k else key k) := by
  induction ks with
  | nil =>
    intro s key _ _
    rfl
  | cons k ks ih =>
    intro s key hkey hnodup
    obtain ⟨hk,hks⟩ := List.nodup_cons.mp hnodup
    have hstep := h k s
    rw [updateKeys, hkey k List.mem_cons_self, show (c.chord && chordKey k) = quiet c k from rfl, hstep]
    rw [ih _ _ ?_ hks, List.flatMap_cons, emitAll_append]
    · congr 1
      funext j
      by_cases hj : j = k
      · rw [hj, if_neg hk, if_pos rfl, if_pos List.mem_cons_self]
      · simp only [List.mem_cons, hj, false_or, if_false]
    · intro j hj
      rw [if_neg (fun he : j = k => hk (he ▸ hj)), hkey j (List.mem_cons_of_mem _ hj)]

/-- What the array holds after an update are the first of its actions. -/
theorem update_spec (c : InputCore) (rawBitmap : UInt8) (now : UInt32) :
    ∃ acts after, Updated c rawBitmap now acts after ∧ ∀ maxOut,
      inputCoreUpdate c rawBitmap now maxOut = ((allActions c acts after).take maxOut,after) := by
  choose acts key hkeys hsteps using fun k =>
    updateKey_step k (c.key k) (rawLevel rawBitmap k) now c.t (quiet c k)
  have hall := updateKeys_eq hkeys starkKeys
  have hevery : (fun k => if k ∈ starkKeys then key k else c.key k) = key := by
    funext k
    rw [if_pos (by cases k <;> decide)]
  refine ⟨acts,⟨key,c.t,if c.chord then !bothUp ⟨key,c.t,false⟩ else bothDown ⟨key,c.t,false⟩⟩,
    ⟨hsteps,rfl,rfl⟩,fun maxOut => ?_⟩
  have hkeysOut : (emitAll ⟨maxOut,[]⟩ (starkKeys.flatMap acts)).out =
      (starkKeys.flatMap acts).take maxOut := emitAll_out _ ⟨maxOut,[]⟩ (Nat.zero_le _)
  have hchordOut : (emit (emitAll ⟨maxOut,[]⟩ (starkKeys.flatMap acts)) .ok .chord 0).out =
      (starkKeys.flatMap acts++[(⟨.ok,.chord,0⟩ : InputAction)]).take maxOut := by
    have h := emitAll_out (starkKeys.flatMap acts++[⟨.ok,.chord,0⟩]) ⟨maxOut,[]⟩ (Nat.zero_le _)
    rw [emitAll_append] at h
    exact h
  unfold inputCoreUpdate
  rw [hall _ _ (fun _ _ => rfl) (by decide), hevery]
  simp only [allActions, bothDown, bothUp]
  rcases Bool.eq_false_or_eq_true c.chord with hc | hc <;>
    rcases Bool.eq_false_or_eq_true (key .ok).pressed with ho | ho <;>
    rcases Bool.eq_false_or_eq_true (key .back).pressed with hb | hb <;>
    simp [hc, ho, hb, hkeysOut, hchordOut]

theorem KeyStep.unique {k : StarkKey} {t : InputCoreTiming} {quiet raw : Bool} {now : UInt32}
    {st st₁ st₂ : InputKeyState} {acts₁ acts₂ : List InputAction}
    (h₁ : KeyStep k t quiet raw now st acts₁ st₁) (h₂ : KeyStep k t quiet raw now st acts₂ st₂) :
    acts₁ = acts₂ ∧ st₁ = st₂ := by
  have hclash : st.pressed = false → st.pressed = true → False :=
    fun hf ht => Bool.false_ne_true (hf.symm.trans ht)
  cases h₁ with
  | idle hup hno =>
    cases h₂ with
    | idle => exact ⟨rfl,rfl⟩
    | press _ hraw hstable => exact absurd ⟨hraw,hstable⟩ hno
    | release hdown => exact (hclash hup hdown).elim
    | held hdown => exact (hclash hup hdown).elim
  | press hup hraw hstable =>
    cases h₂ with
    | idle _ hno => exact absurd ⟨hraw,hstable⟩ hno
    | press => exact ⟨rfl,rfl⟩
    | release hdown => exact (hclash hup hdown).elim
    | held hdown => exact (hclash hup hdown).elim
  | release hdown hraw hstable =>
    cases h₂ with
    | idle hup => exact (hclash hup hdown).elim
    | press hup => exact (hclash hup hdown).elim
    | release => exact ⟨rfl,rfl⟩
    | held _ hno => exact absurd ⟨hraw,hstable⟩ hno
  | held hdown hno =>
    cases h₂ with
    | idle hup => exact (hclash hup hdown).elim
    | press hup => exact (hclash hup hdown).elim
    | release _ hraw hstable => exact absurd ⟨hraw,hstable⟩ hno
    | held => exact ⟨rfl,rfl⟩

theorem flatMap_filter {acts : StarkKey → List InputAction}
    (h : ∀ k, ∀ a ∈ acts k, a.key = k ∧ a.action ≠ .chord) (k : StarkKey) (ks : List StarkKey) :
    ks.Nodup → (ks.flatMap acts).filter (fun a => a.key = k ∧ a.action ≠ .chord) =
      if k ∈ ks then acts k else [] := by
  induction ks with
  | nil => exact fun _ => rfl
  | cons j ks ih =>
    intro hnodup
    obtain ⟨hj,hks⟩ := List.nodup_cons.mp hnodup
    rw [List.flatMap_cons, List.filter_append, ih hks]
    by_cases hjk : j = k
    · subst hjk
      rw [if_neg hj, if_pos List.mem_cons_self, List.append_nil, List.filter_eq_self]
      exact fun a ha => decide_eq_true (h j a ha)
    · have hnone : (acts j).filter (fun a => a.key = k ∧ a.action ≠ .chord) = [] := by
        rw [List.filter_eq_nil_iff]
        intro a ha hc
        exact hjk ((h j a ha).1.symm.trans (of_decide_eq_true hc).1)
      rw [hnone, List.nil_append]
      simp only [List.mem_cons, Ne.symm hjk, false_or]

section
variable {c after : InputCore} {rawBitmap : UInt8} {now : UInt32} {acts : StarkKey → List InputAction}

theorem Updated.of_key (h : Updated c rawBitmap now acts after) (k : StarkKey) :
    (allActions c acts after).filter (fun a => a.key = k ∧ a.action ≠ .chord) = acts k := by
  have hkeys := flatMap_filter (fun k => (h.keys k).key) k starkKeys (by decide)
  rw [if_pos (by cases k <;> decide)] at hkeys
  rw [allActions, List.filter_append, hkeys]
  split <;> simp

theorem Updated.length (h : Updated c rawBitmap now acts after) :
    (allActions c acts after).length ≤ inputCoreMaxActions := by
  have hmax : inputCoreMaxActions = 13 := rfl
  have hkeys := fun k => (h.keys k).length
  have hup := hkeys .up
  have hdown := hkeys .down
  have hleft := hkeys .left
  have hright := hkeys .right
  have hok := hkeys .ok
  have hback := hkeys .back
  have hchord :
      (if !c.chord && bothDown after then [(⟨.ok,.chord,0⟩ : InputAction)] else []).length ≤ 1 := by
    split <;> simp
  simp only [allActions, starkKeys, List.flatMap_cons, List.flatMap_nil, List.append_nil,
    List.length_append]
  omega

end

def released (t : InputCoreTiming) : InputCore := ⟨fun _ => ⟨false,false,0,0,0,0,false⟩,t,false⟩

theorem init_released {t : Option InputCoreTiming} {c : InputCore} (h : inputCoreInit t = .ok c) :
    inputCoreTimingValid (t.getD defaultTiming) = true ∧ c = released (t.getD defaultTiming) := by
  unfold inputCoreInit at h
  dsimp only at h
  cases hv : inputCoreTimingValid (t.getD defaultTiming) with
  | false =>
    rw [hv] at h
    cases h
  | true =>
    rw [hv] at h
    cases h
    exact ⟨rfl,rfl⟩

structure Sample where
  rawBitmap : UInt8
  now : ℕ

/-- An update: its sample, the states around it and what the array holds. -/
structure Record where
  before : InputCore
  sample : Sample
  out : List InputAction
  after : InputCore

def record (maxOut : ℕ) (c : InputCore) (x : Sample) : Record :=
  let u := inputCoreUpdate c x.rawBitmap (UInt32.ofNat x.now) maxOut
  ⟨c,x,u.1,u.2⟩

def records (maxOut : ℕ) : InputCore → List Sample → List Record
  | _, [] => []
  | c, x::xs => record maxOut c x::records maxOut (record maxOut c x).after xs

def core (maxOut : ℕ) : InputCore → List Sample → InputCore
  | c, [] => c
  | c, x::xs => core maxOut (record maxOut c x).after xs

theorem record_spec (maxOut : ℕ) (c : InputCore) (x : Sample) : ∃ acts,
    Updated c x.rawBitmap (UInt32.ofNat x.now) acts (record maxOut c x).after ∧
    (record maxOut c x).out = (allActions c acts (record maxOut c x).after).take maxOut := by
  obtain ⟨acts,after,h,hout⟩ := update_spec c x.rawBitmap (UInt32.ofNat x.now)
  have hafter : (record maxOut c x).after = after := congrArg Prod.snd (hout maxOut)
  rw [hafter]
  exact ⟨acts,h,congrArg Prod.fst (hout maxOut)⟩

section
variable {maxOut : ℕ}

theorem Updated.mem {c after : InputCore} {rawBitmap : UInt8} {now : UInt32}
    {acts : StarkKey → List InputAction} (h : Updated c rawBitmap now acts after) {a : InputAction}
    (ha : a ∈ (allActions c acts after).take maxOut) (hc : a.action ≠ .chord) : a ∈ acts a.key := by
  rw [← h.of_key a.key]
  exact List.mem_filter.mpr ⟨List.mem_of_mem_take ha,decide_eq_true ⟨rfl,hc⟩⟩

theorem core_timing (xs : List Sample) : ∀ c, (core maxOut c xs).t = c.t := by
  induction xs with
  | nil => exact fun _ => rfl
  | cons x xs ih =>
    intro c
    obtain ⟨acts,h,-⟩ := record_spec maxOut c x
    exact (ih _).trans h.timing

theorem records_append (xs ys : List Sample) : ∀ c, records maxOut c (xs++ys) =
    records maxOut c xs++records maxOut (core maxOut c xs) ys := by
  induction xs with
  | nil => exact fun _ => rfl
  | cons x xs ih => exact fun c => congrArg _ (ih _)

theorem records_sample (xs : List Sample) : ∀ c, (records maxOut c xs).map Record.sample = xs := by
  induction xs with
  | nil => exact fun _ => rfl
  | cons x xs ih => exact fun c => congrArg _ (ih _)

theorem core_append (xs ys : List Sample) : ∀ c, core maxOut c (xs++ys) =
    core maxOut (core maxOut c xs) ys := by
  induction xs with
  | nil => exact fun _ => rfl
  | cons x xs ih => exact fun c => ih _

theorem records_cut {pre rest : List Record} : ∀ {c : InputCore} {xs : List Sample},
    records maxOut c xs = pre++rest → ∃ ys zs, xs = ys++zs ∧ pre = records maxOut c ys ∧
      rest = records maxOut (core maxOut c ys) zs := by
  induction pre with
  | nil => exact fun {_ xs} h => ⟨[],xs,rfl,rfl,h.symm⟩
  | cons q pre ih =>
    intro c xs h
    cases xs with
    | nil => cases h
    | cons x xs =>
      obtain ⟨hq,hrest⟩ := List.cons.inj h
      obtain ⟨ys,zs,hxs,hpre,hrest⟩ := ih hrest
      subst hq
      exact ⟨x::ys,zs,congrArg _ hxs,congrArg _ hpre,hrest⟩

theorem records_split {pre : List Record} {r : Record} {post : List Record} {c : InputCore}
    {xs : List Sample} (h : records maxOut c xs = pre++r::post) :
    ∃ ys zs, xs = ys++r.sample::zs ∧ pre = records maxOut c ys ∧
      r = record maxOut (core maxOut c ys) r.sample ∧ post = records maxOut r.after zs := by
  obtain ⟨ys,zs,hxs,hpre,hrest⟩ := records_cut h
  cases zs with
  | nil => cases hrest
  | cons x zs =>
    obtain ⟨rfl,hpost⟩ := List.cons.inj hrest
    exact ⟨ys,zs,hxs,hpre,rfl,hpost⟩

theorem records_last (c : InputCore) (ys : List Sample) (x : Sample) :
    (records maxOut c (ys++[x])).getLast? = some (record maxOut (core maxOut c ys) x) ∧
      core maxOut c (ys++[x]) = (record maxOut (core maxOut c ys) x).after := by
  rw [records_append, core_append]
  exact ⟨List.getLast?_concat,rfl⟩

end

end StarkOne.KeySteps
