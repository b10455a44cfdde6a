import Mathlib.Data.UInt
import StarkOne.KeySteps

/-!
# Stable levels and the wrapping clock

A press or release is taken when the level was the new one for the debounce
time. The time of the last change of a level counts only while the level is
not the one taken, and the time of a press only while the key is down, so no
time has a meaning of its own: only differences are looked at.
-/

set_option autoImplicit false

namespace StarkOne.KeyClock
open StarkOne.UiStack (StarkKey StarkKeyAction)
open StarkOne.KeyInput StarkOne.KeySteps

def level (k : StarkKey) (r : Record) : Bool := rawLevel r.sample.rawBitmap k

def Since (k : StarkKey) (rs : List Record) (st : InputKeyState) : Prop :=
  ∃ early s late, rs = early++s::late ∧ (∀ m ∈ s::late, level k m = st.raw) ∧
    st.rawSince = UInt32.ofNat s.sample.now

section
variable {maxOut : ℕ} {c : InputCore} {k : StarkKey}

theorem sampled_since {rs : List Record} {st : InputKeyState} {r : Record}
    (hold : st.raw = true ∨ st.pressed = true → Since k rs st)
    (hnew : level k r = true ∨ st.pressed = true) :
    Since k (rs++[r]) (sampled st (level k r) (UInt32.ofNat r.sample.now)) := by
  by_cases hsame : level k r = st.raw
  · obtain ⟨early,s,late,hrs,hlevel,hsince⟩ := hold (hsame ▸ hnew)
    have hst : sampled st (level k r) (UInt32.ofNat r.sample.now) = st := by
      unfold sampled
      rw [if_neg (not_not.mpr hsame)]
    rw [hst]
    refine ⟨early,s,late++[r],by rw [hrs, List.append_assoc]; rfl,fun m hm => ?_,hsince⟩
    rw [← List.cons_append] at hm
    rcases List.mem_append.mp hm with hm | hm
    · exact hlevel m hm
    · rw [List.mem_singleton.mp hm]
      exact hsame
  · refine ⟨rs,r,[],rfl,fun m hm => ?_,?_⟩
    · rw [List.mem_singleton.mp hm, sampled_raw]
    · unfold sampled
      rw [if_pos hsame]

theorem core_since {t : InputCoreTiming} {ys : List Sample} :
    ((core maxOut (released t) ys).key k).raw = true ∨
      ((core maxOut (released t) ys).key k).pressed = true →
    Since k (records maxOut (released t) ys) ((core maxOut (released t) ys).key k) := by
  induction ys using List.reverseRecOn with
  | nil =>
    rintro (h | h)
    · cases h
    · cases h
  | append_singleton ys x ih =>
    intro hdown
    rw [core_append] at hdown ⊢
    rw [records_append]
    obtain ⟨acts,hup,-⟩ := record_spec maxOut (core maxOut (released t) ys) x
    have hstep := hup.keys k
    obtain ⟨hraw,hsince⟩ := hstep.raw_eq
    have hnew : rawLevel x.rawBitmap k = true ∨
        ((core maxOut (released t) ys).key k).pressed = true := by
      rcases hdown with h | h
      · exact .inl (hraw.symm.trans h)
      · exact hstep.down_of h
    obtain ⟨early,s,late,hrs,hlevel,hs⟩ := sampled_since
      (r := record maxOut (core maxOut (released t) ys) x) ih hnew
    refine ⟨early,s,late,hrs,fun m hm => ?_,hsince.trans hs⟩
    exact (hlevel m hm).trans (sampled_raw.trans hraw.symm)

theorem elapsed {a b : ℕ} {d : UInt16} (hab : a ≤ b)
    (h : d.toUInt32 ≤ UInt32.ofNat b-UInt32.ofNat a) : a+d.toNat ≤ b := by
  have hle := UInt32.le_iff_toNat_le.mp h
  rw [UInt16.toNat_toUInt32, ← UInt32.ofNat_sub hab, UInt32.toNat_ofNat'] at hle
  have := Nat.mod_le (b-a) (2^32)
  omega

theorem taken_stable {t : InputCoreTiming} {ys : List Sample} {x : Sample}
    (hmono : ∀ y ∈ ys, y.now ≤ x.now)
    (hnew : rawLevel x.rawBitmap k = true ∨ ((core maxOut (released t) ys).key k).pressed = true)
    (hstable : stable t (sampled ((core maxOut (released t) ys).key k) (rawLevel x.rawBitmap k)
      (UInt32.ofNat x.now)) (UInt32.ofNat x.now)) :
    ∃ early s late, records maxOut (released t) (ys++[x]) = early++s::late ∧
      (∀ m ∈ s::late, level k m = rawLevel x.rawBitmap k) ∧
      s.sample.now+t.debounceMs.toNat ≤ x.now := by
  rw [records_append]
  obtain ⟨early,s,late,hrs,hlevel,hs⟩ := sampled_since
    (r := record maxOut (core maxOut (released t) ys) x) core_since hnew
  refine ⟨early,s,late,hrs,fun m hm => (hlevel m hm).trans sampled_raw,?_⟩
  have hmem : s.sample ∈ ys++[x] := by
    have hin : s ∈ records maxOut (released t) (ys++[x]) := by
      rw [records_append]
      exact hrs.symm ▸ List.mem_append_right early List.mem_cons_self
    have := List.mem_map_of_mem (f := Record.sample) hin
    rwa [records_sample] at this
  have hnow : s.sample.now ≤ x.now := by
    rcases List.mem_append.mp hmem with hs | hs
    · exact hmono _ hs
    · exact Nat.le_of_eq (congrArg Sample.now (List.mem_singleton.mp hs))
  refine elapsed hnow ?_
  rw [← hs]
  exact hstable

theorem taken_step {t : InputCoreTiming} {quiet raw : Bool} {now : UInt32}
    {st st' : InputKeyState} {acts : List InputAction} (h : KeyStep k t quiet raw now st acts st')
    {a : InputAction} (ha : a ∈ acts) {lvl : Bool}
    (hact : a.action = if lvl then .press else .release) :
    raw = lvl ∧ (raw = true ∨ st.pressed = true) ∧ stable t (sampled st raw now) now := by
  have hlong : ∀ {b : Bool}, a ∈ (if b then [⟨k,.long,0⟩] else [] : List InputAction) → False := by
    intro b ha
    cases b with
    | true =>
      rw [List.mem_singleton.mp ha] at hact
      cases lvl <;> cases hact
    | false => cases ha
  cases h with
  | idle => cases ha
  | press _ hraw hstable =>
    rw [List.mem_singleton.mp ha] at hact
    cases lvl with
    | true => exact ⟨hraw,.inl hraw,hstable⟩
    | false => cases hact
  | release hdown hraw hstable =>
    rcases List.mem_append.mp ha with ha | ha
    · exact (hlong ha).elim
    rcases List.mem_cons.mp ha with rfl | ha
    · cases lvl with
      | true => cases hact
      | false => exact ⟨hraw,.inr hdown,hstable⟩
    · split at ha
      · rw [List.mem_singleton.mp ha] at hact
        cases lvl <;> cases hact
      · cases ha
  | held =>
    rcases List.mem_append.mp ((heldActions_perm k t quiet st now).mem_iff.mp ha) with ha | ha
    · exact (hlong ha).elim
    · split at ha
      · rw [List.mem_singleton.mp ha] at hact
        cases lvl <;> cases hact
      · cases ha

theorem debounced {t : InputCoreTiming} {xs : List Sample}
    (hmono : xs.Pairwise fun x y => x.now ≤ y.now) {pre post : List Record} {r : Record}
    (hrec : records maxOut (released t) xs = pre++r::post) {a : InputAction} (ha : a ∈ r.out)
    {lvl : Bool} (hact : a.action = if lvl then .press else .release) :
    ∃ early s late, pre++[r] = early++s::late ∧ (∀ m ∈ s::late, level a.key m = lvl) ∧
      s.sample.now+t.debounceMs.toNat ≤ r.sample.now := by
  obtain ⟨ys,zs,hxs,hpre,hr,-⟩ := records_split hrec
  obtain ⟨acts,hup,hout⟩ := record_spec maxOut (core maxOut (released t) ys) r.sample
  rw [← hr] at hup hout
  rw [hout] at ha
  have hchord : a.action ≠ .chord := by
    rw [hact]
    cases lvl <;> exact StarkKeyAction.noConfusion
  have hstep := hup.keys a.key
  rw [core_timing] at hstep
  obtain ⟨hraw,hnew,hstable⟩ := taken_step hstep (hup.mem ha hchord) hact
  have hbefore : ∀ y ∈ ys, y.now ≤ r.sample.now := by
    rw [hxs] at hmono
    exact fun y hy => (List.pairwise_append.mp hmono).2.2 y hy _ List.mem_cons_self
  obtain ⟨early,s,late,hrs,hlevel,hdeb⟩ := taken_stable hbefore hnew hstable
  refine ⟨early,s,late,?_,fun m hm => (hlevel m hm).trans hraw,hdeb⟩
  rw [← hrs, records_append, hpre]
  exact congrArg (fun q => _++[q]) hr

end

structure Shifted (d : UInt32) (st ahead : InputKeyState) : Prop where
  raw : ahead.raw = st.raw
  pressed : ahead.pressed = st.pressed
  nextRepeat : ahead.nextRepeat = st.nextRepeat
  repeats : ahead.repeats = st.repeats
  longSent : ahead.longSent = st.longSent
  since : st.raw ≠ st.pressed → ahead.rawSince = st.rawSince+d
  pressedAt : st.pressed = true → ahead.pressedAt = st.pressedAt+d

section
variable {d : UInt32} {st ahead : InputKeyState} {k : StarkKey} {t : InputCoreTiming}
  {quiet raw : Bool} {now : UInt32}

theorem sub_ahead (a b d : UInt32) : a+d-(b+d) = a-b := add_sub_add_right_eq_sub a b d

theorem Shifted.sampled (h : Shifted d st ahead) :
    Shifted d (sampled st raw now) (sampled ahead raw (now+d)) := by
  unfold KeyInput.sampled
  rw [h.raw]
  by_cases hne : raw ≠ st.raw
  · rw [if_pos hne, if_pos hne]
    exact ⟨rfl,h.pressed,h.nextRepeat,h.repeats,h.longSent,fun _ => rfl,h.pressedAt⟩
  · rw [if_neg hne, if_neg hne]
    exact h

theorem Shifted.stable (h : Shifted d st ahead) (hne : raw ≠ st.pressed) :
    KeySteps.stable t (KeyInput.sampled ahead raw (now+d)) (now+d) ↔
      KeySteps.stable t (KeyInput.sampled st raw now) now := by
  unfold KeySteps.stable
  rw [h.sampled.since (by rw [sampled_raw, sampled_pressed]; exact hne), sub_ahead]

theorem Shifted.longDue (h : Shifted d st ahead) (hdown : st.pressed = true) :
    longDue t quiet ahead (now+d) = longDue t quiet st now := by
  unfold KeySteps.longDue
  rw [h.longSent, h.pressedAt hdown, sub_ahead]

theorem Shifted.repeatDue (h : Shifted d st ahead) (hdown : st.pressed = true) :
    repeatDue k ahead (now+d) = repeatDue k st now := by
  unfold KeySteps.repeatDue
  rw [h.nextRepeat, h.pressedAt hdown, sub_ahead]

theorem Shifted.repeated (h : Shifted d st ahead) (hdown : st.pressed = true) :
    Shifted d (repeated t st now) (repeated t ahead (now+d)) := by
  refine ⟨h.raw,h.pressed,?_,?_,h.longSent,h.since,h.pressedAt⟩
  · unfold KeySteps.repeated
    rw [h.nextRepeat, h.pressedAt hdown, sub_ahead]
  · unfold KeySteps.repeated
    rw [h.repeats]

theorem Shifted.step {st' : InputKeyState} {acts : List InputAction} (h : Shifted d st ahead)
    (hstep : KeyStep k t quiet raw now st acts st') :
    ∃ ahead', KeyStep k t quiet raw (now+d) ahead acts ahead' ∧ Shifted d st' ahead' := by
  have hsame : ∀ lvl, st.pressed = !lvl → (raw = lvl ∧
      KeySteps.stable t (KeyInput.sampled ahead raw (now+d)) (now+d) ↔
        raw = lvl ∧ KeySteps.stable t (KeyInput.sampled st raw now) now) := by
    intro lvl hst
    refine and_congr_right fun hraw => h.stable ?_
    rw [hraw, hst]
    cases lvl <;> exact Bool.noConfusion
  have hsampled : Shifted d (KeyInput.sampled st raw now) (KeyInput.sampled ahead raw (now+d)) :=
    h.sampled
  cases hstep with
  | idle hup hno =>
    refine ⟨_,.idle ahead (h.pressed.trans hup) ?_,hsampled⟩
    rwa [hsame true hup]
  | press hup hraw hstable =>
    refine ⟨_,.press ahead (h.pressed.trans hup) hraw ((hsame true hup).mpr ⟨hraw,hstable⟩).2,?_⟩
    refine ⟨hsampled.raw,rfl,rfl,rfl,rfl,fun hne => ?_,fun _ => rfl⟩
    exact absurd (sampled_raw.trans hraw) hne
  | release hdown hraw hstable =>
    have hgo : KeyStep k t quiet raw (now+d) ahead _ _ := .release ahead (h.pressed.trans hdown) hraw
      ((hsame false hdown).mpr ⟨hraw,hstable⟩).2
    rw [h.longDue hdown, h.longSent] at hgo
    refine ⟨_,hgo,hsampled.raw,rfl,hsampled.nextRepeat,hsampled.repeats,rfl,fun hne => ?_,?_⟩
    · exact absurd (sampled_raw.trans hraw) hne
    · exact fun hfalse => by cases hfalse
  | held hdown hno =>
    have hgo : KeyStep k t quiet raw (now+d) ahead _ _ := .held ahead (h.pressed.trans hdown)
      (by rwa [hsame false hdown])
    have hacts : heldActions k t quiet ahead (now+d) = heldActions k t quiet st now := by
      unfold heldActions
      rw [h.longDue hdown, h.repeatDue hdown, (h.repeated hdown).repeats, h.nextRepeat]
    rw [hacts, h.longDue hdown, h.longSent, h.repeatDue hdown] at hgo
    refine ⟨_,hgo,?_⟩
    have hrepeated : Shifted d (KeySteps.repeated t (KeyInput.sampled st raw now) now)
        (KeySteps.repeated t (KeyInput.sampled ahead raw (now+d)) (now+d)) :=
      hsampled.repeated (sampled_pressed.trans hdown)
    split
    · exact ⟨hrepeated.raw,hrepeated.pressed,hrepeated.nextRepeat,hrepeated.repeats,rfl,
        hrepeated.since,hrepeated.pressedAt⟩
    · exact ⟨hsampled.raw,hsampled.pressed,hsampled.nextRepeat,hsampled.repeats,rfl,hsampled.since,
        hsampled.pressedAt⟩

end

structure ShiftedCore (d : UInt32) (c ahead : InputCore) : Prop where
  key : ∀ k, Shifted d (c.key k) (ahead.key k)
  timing : ahead.t = c.t
  chord : ahead.chord = c.chord

/-- An update gives the same actions by both clocks. -/
theorem ShiftedCore.update {d : UInt32} {c ahead : InputCore} (h : ShiftedCore d c ahead)
    (rawBitmap : UInt8) (now : UInt32) (maxOut : ℕ) :
    (inputCoreUpdate ahead rawBitmap (now+d) maxOut).1 = (inputCoreUpdate c rawBitmap now maxOut).1 ∧
      ShiftedCore d (inputCoreUpdate c rawBitmap now maxOut).2
        (inputCoreUpdate ahead rawBitmap (now+d) maxOut).2 := by
  obtain ⟨acts,after,hup,hout⟩ := update_spec c rawBitmap now
  obtain ⟨acts',after',hup',hout'⟩ := update_spec ahead rawBitmap (now+d)
  have hquiet : ∀ k, quiet ahead k = quiet c k := fun k => by rw [quiet, h.chord, quiet]
  have hboth : ∀ k, acts' k = acts k ∧ Shifted d (after.key k) (after'.key k) := by
    intro k
    obtain ⟨st,hst,hshift⟩ := (h.key k).step (hup.keys k)
    have hkey := hup'.keys k
    rw [h.timing, hquiet] at hkey
    obtain ⟨hacts,hafter⟩ := hst.unique hkey
    exact ⟨hacts.symm,hafter ▸ hshift⟩
  have hacts : acts' = acts := funext fun k => (hboth k).1
  have hdown : bothDown after' = bothDown after := by
    rw [bothDown, (hboth .ok).2.pressed, (hboth .back).2.pressed, bothDown]
  have hups : bothUp after' = bothUp after := by
    rw [bothUp, (hboth .ok).2.pressed, (hboth .back).2.pressed, bothUp]
  rw [hout, hout']
  refine ⟨?_,fun k => (hboth k).2,?_,?_⟩
  · rw [allActions, hacts, hdown, h.chord, allActions]
  · rw [hup.timing, hup'.timing, h.timing]
  · rw [hup.chord, hup'.chord, h.chord, hups, hdown]

def later (d : ℕ) (x : Sample) : Sample := ⟨x.rawBitmap,x.now+d⟩

theorem records_later {maxOut : ℕ} (d : ℕ) (xs : List Sample) : ∀ {c ahead : InputCore},
    ShiftedCore (UInt32.ofNat d) c ahead →
      (records maxOut ahead (xs.map (later d))).map Record.out =
      (records maxOut c xs).map Record.out := by
  induction xs with
  | nil => exact fun _ => rfl
  | cons x xs ih =>
    intro c ahead h
    have hup := h.update x.rawBitmap (UInt32.ofNat x.now) maxOut
    rw [← UInt32.ofNat_add] at hup
    rw [List.map_cons, records, records, List.map_cons, List.map_cons]
    exact congrArg₂ List.cons hup.1 (ih hup.2)

theorem released_shifted (d : UInt32) (t : InputCoreTiming) :
    ShiftedCore d (released t) (released t) :=
  ⟨fun _ => ⟨rfl,rfl,rfl,rfl,rfl,fun h => absurd rfl h,fun h => by cases h⟩,rfl,rfl⟩

/-- In every run whose times do not decrease a press or release was there in every sample of the
debounce time, and the actions stay the same when the clock is set forward by any amount, also over
its wrap. -/
theorem clock_free {t : Option InputCoreTiming} {c : InputCore} (hinit : inputCoreInit t = .ok c)
    (maxOut : ℕ) {xs : List Sample} (hmono : xs.Pairwise fun x y => x.now ≤ y.now) :
    (∀ pre r post, records maxOut c xs = pre++r::post → ∀ a ∈ r.out, ∀ lvl,
      a.action = (if lvl then .press else .release) →
      ∃ early s late, pre++[r] = early++s::late ∧ (∀ m ∈ s::late, level a.key m = lvl) ∧
        s.sample.now+c.t.debounceMs.toNat ≤ r.sample.now) ∧
    ∀ d, (records maxOut c (xs.map (later d))).map Record.out =
      (records maxOut c xs).map Record.out := by
  obtain ⟨-,rfl⟩ := init_released hinit
  exact ⟨fun pre r post hrec a ha lvl hact => debounced hmono hrec ha hact,
    fun d => records_later d xs (released_shifted _ _)⟩

/-- A press over the wrap of the clock is the press at its start. -/
theorem clock_free_wrap :
    (records inputCoreMaxActions (released defaultTiming)
      ([⟨0x01,0⟩,⟨0x01,20⟩,⟨0x00,30⟩,⟨0x00,60⟩].map (later (2^32-25)))).map Record.out =
    [[],[⟨.up,.press,0⟩],[],[⟨.up,.release,0⟩,⟨.up,.short,0⟩]] :=
  ((clock_free (show inputCoreInit none = .ok (released defaultTiming) from rfl) inputCoreMaxActions
    (by decide)).2 (2^32-25)).trans (by decide)

end StarkOne.KeyClock
