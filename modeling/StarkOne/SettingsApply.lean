import StarkOne.Buzzer
import StarkOne.EventCore
import StarkOne.KeyInput
import StarkOne.Mirror
import StarkOne.Settings

/-!
# Settings in the services

A setting that changes is announced on the event bus, among whatever else is
published there, and the handler applies its value to the service that owns it.
The values are always such that the service accepts them.
-/

set_option autoImplicit false

namespace StarkOne.SettingsApply
open StarkOne.Machine StarkOne.RingQueue StarkOne.EventCore StarkOne.Mirror StarkOne.KeyInput
open StarkOne.Settings hiding kRepeat kVolume step
open StarkOne.StoragePath (CStr)
open StarkOne.Buzzer (buzzerVolumeDuty buzzerVolumeMax)

def sysSetting : ℕ := 3

structure RepeatConfig where
  delay : UInt16
  interval : UInt16
  delay_range : 150 ≤ delay ∧ delay ≤ 1000
  interval_range : 40 ≤ interval ∧ interval ≤ 500

def kRepeat (c : RepeatConfig) : List (UInt16 × UInt16) := [(600,180),(c.delay,c.interval),(250,60)]

inductive EspLogLevel where
  | error
  | warn
  | info
  | debug
  deriving DecidableEq, Repr

def kLevel : List EspLogLevel := [.error,.warn,.info,.debug]

structure Board where
  hasBacklight : Bool
  inputStarted : Bool
  repeats : RepeatConfig

structure Services where
  backlight : Option UInt8
  duty : ℕ
  timing : Option InputCoreTiming
  levels : CStr → EspLogLevel

/-- `hal` is what the hardware answers; that the display is not ready is one of its answers. -/
def starkDisplaySetBacklight (b : Board) (hal : StarkErr) (pct : UInt8) (s : Services) :
    StarkErr × Services :=
  if !b.hasBacklight then (.ok,s)
  else if hal ≠ .ok then (hal,s)
  else (.ok,{ s with backlight := some (min pct 100) })

def starkBuzzerSetVolume (level : UInt8) (s : Services) : StarkErr × Services :=
  if buzzerVolumeMax < level.toNat then (.invalidArg,s)
  else (.ok,{ s with duty := buzzerVolumeDuty level.toNat })

/-- The timing is taken over with the next sample of the keys. -/
def starkInputSetTiming (b : Board) (delay interval : UInt16) (s : Services) : StarkErr × Services :=
  let t : InputCoreTiming := ⟨20,500,delay,interval⟩
  if !inputCoreTimingValid t then (.invalidArg,s)
  else if !b.inputStarted then (.state,s)
  else (.ok,{ s with timing := some t })

/-- The documented effect of `esp_log_level_set`: a level for `*` is one for every tag. -/
def starkLogSetLevel (tag : CStr) (level : EspLogLevel) (levels : CStr → EspLogLevel) :
    CStr → EspLogLevel :=
  if tag = "*".toList then fun _ => level else Function.update levels tag level

/-- The lines of the keys are debug lines, shown with those of information. -/
def applyLogLevel (level : EspLogLevel) (s : Services) : Services :=
  let keys := if level = .info ∨ level = .debug then .debug else level
  { s with
    levels := starkLogSetLevel "key".toList keys (starkLogSetLevel "*".toList level s.levels) }

def apply (b : Board) (hal : StarkErr) (key : StarkSetting) (v : UInt8) (s : Services) :
    Option (StarkErr × Services) :=
  match key with
  | .brightness => some (starkDisplaySetBacklight b hal v s)
  | .volume => some (starkBuzzerSetVolume v s)
  | .repeatRate => ((kRepeat b.repeats)[v.toNat]?).map fun p => starkInputSetTiming b p.1 p.2 s
  | .logLevel => (kLevel[v.toNat]?).map fun level => (.ok,applyLogLevel level s)

/-- The lost events are noted: those that the full bus gave up, and those whose setting was refused. -/
structure Desk where
  store : Store
  core : SettingsCore
  bus : RingBuffer StarkEvent
  services : Services
  lost : List StarkEvent

def keyArg : StarkSetting → ℤ
  | .brightness => 0
  | .volume => 1
  | .repeatRate => 2
  | .logLevel => 3

def settingEvent (key : StarkSetting) (ts : ℕ) : StarkEvent :=
  ⟨evtSystem,ts,.system sysSetting (keyArg key)⟩

def settingOf (e : StarkEvent) : Option StarkSetting :=
  match e.payload with
  | .system id arg =>
    if e.type = evtSystem ∧ id = sysSetting then starkSettings.find? fun k => keyArg k = arg else none
  | _ => none

def publish (e : StarkEvent) (d : Desk) : Desk :=
  { d with
    bus := pushRing d.bus e
    lost := d.lost++givenUp (d.bus.count = d.bus.capacity) (toList d.bus) }

def onChanged (ts : ℕ) (d : Desk) : Hook → Desk
  | .changed key _ => publish (settingEvent key ts) d
  | .invalid _ _ => d

def starkSettingsSet (key : Option StarkSetting) (value : UInt8) (ts : ℕ) (d : Desk) :
    StarkErr × Desk :=
  let (r,core,hooks) := settingsCoreSet d.core key value
  ((match r with
    | .ok _ => .ok
    | .error e => e.code),hooks.foldl (onChanged ts) { d with core := core })

def onSetting (b : Board) (hal : StarkErr) (e : StarkEvent) (d : Desk) : Option Desk :=
  match settingOf e with
  | none => some d
  | some key => (apply b hal key (d.core.value key) d.services).map fun r =>
    { d with services := r.2, lost := if r.1 ≠ .ok then d.lost++[e] else d.lost }

inductive Act where
  | set (key : Option StarkSetting) (value : UInt8) (ts : ℕ)
  | commit (f : StoreFaults)
  | publish (e : StarkEvent)
  | deliver (hal : StarkErr)

def step (b : Board) (d : Desk) : Act → Option Desk
  | .set key value ts => some (starkSettingsSet key value ts d).2
  | .commit f =>
    let (_,store,core) := settingsCoreCommit f d.store d.core
    some { d with store := store, core := core }
  | .publish e => some (publish e d)
  | .deliver hal =>
    if d.bus.count = 0 then none
    else onSetting b hal (oldest d.bus) { d with bus := advance d.bus }

def applyAll (b : Board) (hal : StarkErr) : List StarkSetting → Desk → Option Desk
  | [], d => some d
  | key::keys, d => (onSetting b hal (settingEvent key 0) d).bind (applyAll b hal keys)

def boot (b : Board) (f : StoreFaults) (hal : StarkErr) (s : Store) (hasStore : Bool) (capacity : ℕ)
    (h : 0 < capacity) (services : Services) : Option Desk :=
  let (store,core,_) := settingsCoreLoad f s hasStore
  applyAll b hal starkSettings
    ⟨store,core,empty (fun _ => ⟨0,0,.none⟩) capacity h,services,[]⟩

def Applied (b : Board) (s : Services) (v : UInt8) : StarkSetting → Prop
  | .brightness => b.hasBacklight = true → s.backlight = some (min v 100)
  | .volume => s.duty = buzzerVolumeDuty v.toNat
  | .repeatRate => b.inputStarted = true → ∃ p, (kRepeat b.repeats)[v.toNat]? = some p ∧
      s.timing = some ⟨20,500,p.1,p.2⟩
  | .logLevel => ∃ level, kLevel[v.toNat]? = some level ∧ s.levels = (applyLogLevel level s).levels

theorem valid_le {key : StarkSetting} {v : UInt8} (h : settingsValid (some key) v = true) :
    v.toNat ≤ (kDesc key).max.toNat := by
  unfold settingsValid settingsDesc at h
  simp only [Option.map_some, Bool.and_eq_true, decide_eq_true_eq] at h
  exact UInt8.le_iff_toNat_le.mp h.1.2

theorem kRepeat_valid (c : RepeatConfig) : ∀ p ∈ kRepeat c,
    inputCoreTimingValid ⟨20,500,p.1,p.2⟩ = true := by
  have hdelay := UInt16.le_iff_toNat_le.mp c.delay_range.1
  have h150 : (150 : UInt16).toNat = 150 := rfl
  have hconfig : inputCoreTimingValid ⟨20,500,c.delay,c.interval⟩ = true := by
    have h20 : (20 : UInt16) ≤ c.delay := by
      rw [UInt16.le_iff_toNat_le]
      exact Nat.le_trans (by decide) hdelay
    unfold inputCoreTimingValid inputRepeatMinMs
    simp only [Bool.and_eq_true, decide_eq_true_eq]
    exact ⟨⟨c.interval_range.1,h20⟩,by decide⟩
  unfold kRepeat
  simp only [List.forall_mem_cons]
  exact ⟨by decide,hconfig,by decide,List.forall_mem_nil _⟩

theorem levels_forget (level : EspLogLevel) (s s' : Services) :
    (applyLogLevel level s).levels = (applyLogLevel level s').levels := rfl

variable {b : Board} (hal : StarkErr)

theorem applied_of_same {s s' : Services} {w : UInt8} {j : StarkSetting} (h : Applied b s w j)
    (hlight : j = .brightness → s'.backlight = s.backlight) (hduty : j = .volume → s'.duty = s.duty)
    (htiming : j = .repeatRate → s'.timing = s.timing) (hlevels : j = .logLevel → s'.levels = s.levels) :
    Applied b s' w j := by
  cases j with
  | brightness => exact fun hb => (hlight rfl).trans (h hb)
  | volume => exact (hduty rfl).trans h
  | repeatRate =>
    intro hb
    obtain ⟨p,hp,ht⟩ := h hb
    exact ⟨p,hp,(htiming rfl).trans ht⟩
  | logLevel =>
    obtain ⟨level,hlevel,hall⟩ := h
    exact ⟨level,hlevel,(hlevels rfl).trans (hall.trans (levels_forget level s s'))⟩

/-- A valid value is applied unless the hardware fails or the keys are not sampled, and it
changes nothing for the other settings. -/
theorem apply_valid {key : StarkSetting} {v : UInt8} (h : settingsValid (some key) v = true)
    (s : Services) : ∃ r, apply b hal key v s = some r ∧ (r.1 = .ok → Applied b r.2 v key) ∧
      (r.1 ≠ .ok → r.1 = hal ∨ b.inputStarted = false) ∧
      ∀ j w, j ≠ key → Applied b s w j → Applied b r.2 w j := by
  cases key with
  | brightness =>
    refine ⟨_,rfl,?_⟩
    unfold starkDisplaySetBacklight
    split
    · rename_i hno
      rw [Bool.not_eq_eq_eq_not, Bool.not_true] at hno
      refine ⟨fun _ hb => ?_,fun hne => absurd rfl hne,fun _ _ _ ha => ha⟩
      rw [hno] at hb
      cases hb
    split
    · rename_i hfail
      exact ⟨fun hok => absurd hok hfail,fun _ => .inl rfl,fun _ _ _ ha => ha⟩
    · exact ⟨fun _ _ => rfl,fun hne => absurd rfl hne,fun j w hj ha =>
        applied_of_same ha (fun he => absurd he hj) (fun _ => rfl) (fun _ => rfl) fun _ => rfl⟩
  | volume =>
    refine ⟨_,rfl,?_⟩
    have hle : v.toNat ≤ buzzerVolumeMax := valid_le h
    unfold starkBuzzerSetVolume
    rw [if_neg (Nat.not_lt.mpr hle)]
    exact ⟨fun _ => rfl,fun hne => absurd rfl hne,fun j w hj ha =>
      applied_of_same ha (fun _ => rfl) (fun he => absurd he hj) (fun _ => rfl) fun _ => rfl⟩
  | repeatRate =>
    obtain ⟨p,hp⟩ : ∃ p, (kRepeat b.repeats)[v.toNat]? = some p :=
      ⟨_,List.getElem?_eq_getElem (Nat.lt_succ_of_le (valid_le h))⟩
    have hpreset := kRepeat_valid b.repeats p (List.mem_of_getElem? hp)
    refine ⟨starkInputSetTiming b p.1 p.2 s,by rw [apply, hp]; rfl,?_⟩
    unfold starkInputSetTiming
    dsimp only
    rw [hpreset]
    cases hstarted : b.inputStarted with
    | false =>
      refine ⟨fun _ hb => ?_,fun _ => .inr rfl,fun _ _ _ ha => ha⟩
      rw [hstarted] at hb
      cases hb
    | true =>
      exact ⟨fun _ _ => ⟨p,hp,rfl⟩,fun hne => absurd rfl hne,fun j w hj ha =>
        applied_of_same ha (fun _ => rfl) (fun _ => rfl) (fun he => absurd he hj) fun _ => rfl⟩
  | logLevel =>
    obtain ⟨level,hlevel⟩ : ∃ level, kLevel[v.toNat]? = some level :=
      ⟨_,List.getElem?_eq_getElem (Nat.lt_succ_of_le (valid_le h))⟩
    refine ⟨(.ok,applyLogLevel level s),by rw [apply, hlevel]; rfl,?_⟩
    exact ⟨fun _ => ⟨level,hlevel,rfl⟩,fun hne => absurd rfl hne,fun j w hj ha =>
      applied_of_same ha (fun _ => rfl) (fun _ => rfl) (fun _ => rfl) fun he => absurd he hj⟩

def Notice (key : StarkSetting) (e : StarkEvent) : Prop := settingOf e = some key

theorem settingOf_event (key : StarkSetting) (ts : ℕ) : settingOf (settingEvent key ts) = some key := by
  cases key <;> rfl

/-- Each service has the value of its setting, or an event about it waits, or one was lost. -/
structure Served (b : Board) (d : Desk) : Prop where
  core : Inv d.store d.core
  whole : Whole d.store
  mirrored : Mirrored (fun k => Applied b d.services (d.core.value k) k) Notice (toList d.bus) d.lost

variable {d d' : Desk}

theorem publish_queue (e : StarkEvent) (d : Desk) :
    toList (publish e d).bus = offered (d.bus.count = d.bus.capacity) (toList d.bus) e := by
  unfold publish offered
  rw [toList_pushRing]
  by_cases h : d.bus.count = d.bus.capacity
  · rw [if_pos h, if_pos (decide_eq_true h)]
  · rw [if_neg h, if_neg (by simpa using h)]

theorem Served.publish (h : Served b d) (e : StarkEvent) : Served b (publish e d) := by
  refine ⟨h.core,h.whole,?_⟩
  rw [publish_queue]
  exact h.mirrored.offer _ fun _ hs => .inl hs

theorem Served.set (h : Served b d) (key : Option StarkSetting) (value : UInt8) (ts : ℕ) :
    Served b (starkSettingsSet key value ts d).2 := by
  have hcore := set_inv d.store d.core key value h.core
  unfold starkSettingsSet
  unfold settingsCoreSet at hcore ⊢
  cases key with
  | none => exact h
  | some k =>
    dsimp only at hcore ⊢
    split
    · exact h
    split
    · rename_i hvalid hne
      rw [if_neg hvalid, if_pos hne] at hcore
      refine ⟨hcore,h.whole,?_⟩
      show Mirrored _ Notice (toList (SettingsApply.publish (settingEvent k ts) { d with core := _ }).bus) _
      rw [publish_queue]
      refine h.mirrored.offer _ fun j hj => ?_
      by_cases hjk : j = k
      · subst hjk
        exact .inr (settingOf_event j ts)
      · left
        show Applied b d.services (Function.update d.core.value k value j) j
        rw [Function.update_of_ne hjk]
        exact hj
    · exact h

/-- The handler is never at a loss, and applies the setting unless it is refused. -/
theorem onSetting_mirrored {e : StarkEvent} {queue : List StarkEvent} (hcore : Inv d.store d.core)
    (hm : Mirrored (fun k => Applied b d.services (d.core.value k) k) Notice (e::queue) d.lost) :
    ∃ services lost, onSetting b hal e d = some { d with services := services, lost := lost } ∧
      Mirrored (fun k => Applied b services (d.core.value k) k) Notice queue lost := by
  unfold onSetting
  cases hof : settingOf e with
  | none =>
    refine ⟨d.services,d.lost,rfl,hm.take (fun k hk => ?_) fun _ hs => hs⟩
    rw [Notice, hof] at hk
    cases hk
  | some key =>
    obtain ⟨r,hr,hok,-,hothers⟩ := apply_valid (b := b) hal (hcore.valid key) d.services
    dsimp only
    rw [hr]
    refine ⟨r.2,if r.1 ≠ .ok then d.lost++[e] else d.lost,rfl,?_⟩
    have hkeep : ∀ k, k ≠ key → Applied b d.services (d.core.value k) k →
        Applied b r.2 (d.core.value k) k := fun k hk => hothers k _ hk
    by_cases hdone : r.1 = .ok
    · rw [if_neg (not_not.mpr hdone)]
      refine hm.take (fun k hk => ?_) fun k hs => ?_
      · obtain rfl : key = k := Option.some.inj (hof.symm.trans hk)
        exact hok hdone
      · by_cases hk : k = key
        · subst hk
          exact hok hdone
        · exact hkeep k hk hs
    · rw [if_pos hdone]
      intro k
      rcases hm.lose k with hs | hrest
      · by_cases hk : k = key
        · subst hk
          exact .inr (.inr ⟨e,List.mem_append_right _ (List.mem_singleton_self e),hof⟩)
        · exact .inl (hkeep k hk hs)
      · exact .inr hrest

theorem applyAll_mirrored (keys : List StarkSetting) (hcore : Inv d.store d.core)
    {queue : List StarkEvent}
    (hm : Mirrored (fun k => Applied b d.services (d.core.value k) k) Notice
      (keys.map (settingEvent · 0)++queue) d.lost) :
    ∃ services lost, applyAll b hal keys d = some { d with services := services, lost := lost } ∧
      Mirrored (fun k => Applied b services (d.core.value k) k) Notice queue lost := by
  induction keys generalizing d with
  | nil => exact ⟨d.services,d.lost,rfl,hm⟩
  | cons key keys ih =>
    obtain ⟨services,lost,hon,hrest⟩ := onSetting_mirrored hal hcore hm
    obtain ⟨services',lost',hall,hend⟩ :=
      ih (d := { d with services := services, lost := lost }) hcore hrest
    exact ⟨services',lost',by rw [applyAll, hon]; exact hall,hend⟩

theorem deliver_served (h : Served b d) (hne : d.bus.count ≠ 0) (hal : StarkErr) :
    ∃ t, step b d (.deliver hal) = some t ∧ Served b t := by
  obtain ⟨services,lost,hon,hm⟩ := onSetting_mirrored (b := b) hal
    (d := { d with bus := advance d.bus }) h.core
    (by rw [← toList_eq_cons d.bus (Nat.pos_of_ne_zero hne)]; exact h.mirrored)
  refine ⟨{ d with bus := advance d.bus, services := services, lost := lost },?_,h.core,h.whole,hm⟩
  rw [step, if_neg hne]
  exact hon

theorem step_served {a : Act} (h : Served b d) (hs : step b d a = some d') : Served b d' := by
  cases a with
  | set key value ts =>
    cases hs
    exact h.set key value ts
  | commit f =>
    obtain ⟨hwhole,hcore,hvalue,-⟩ := commit_inv f d.store d.core h.whole h.core
      (t := (settingsCoreCommit f d.store d.core).2.1) (d := (settingsCoreCommit f d.store d.core).2.2) rfl
    cases hs
    refine ⟨hcore,hwhole,?_⟩
    show Mirrored (fun k => Applied b d.services ((settingsCoreCommit f d.store d.core).2.2.value k) k) _ _ _
    rw [hvalue]
    exact h.mirrored
  | publish e =>
    cases hs
    exact h.publish e
  | deliver hal =>
    have hne : d.bus.count ≠ 0 := by
      intro hzero
      rw [step, if_pos hzero] at hs
      cases hs
    obtain ⟨t,ht,hserved⟩ := deliver_served h hne hal
    obtain rfl := Option.some.inj (ht.symm.trans hs)
    exact hserved

theorem boot_served {f : StoreFaults} {s : Store} (hs : Whole s) (hasStore : Bool) (capacity : ℕ)
    (hc : 0 < capacity) (services : Services) :
    ∃ t, boot b f hal s hasStore capacity hc services = some t ∧ Served b t := by
  obtain ⟨hwhole,hcore⟩ := load_inv f s hasStore hs (t := (settingsCoreLoad f s hasStore).1)
    (c := (settingsCoreLoad f s hasStore).2.1) rfl
  have hall : Mirrored (fun k => Applied b services ((settingsCoreLoad f s hasStore).2.1.value k) k)
      Notice (starkSettings.map (settingEvent · 0)++[]) [] := by
    intro k
    refine .inr (.inl ⟨settingEvent k 0,?_,settingOf_event k 0⟩)
    rw [List.append_nil]
    exact List.mem_map_of_mem (mem_starkSettings k)
  obtain ⟨services',lost,happly,hm⟩ := applyAll_mirrored hal (d := ⟨_,_,
    empty (fun _ => ⟨0,0,.none⟩) capacity hc,services,[]⟩) starkSettings hcore hall
  exact ⟨_,happly,hcore,hwhole,hm⟩

/-- In every run the service of each setting has its value, unless an event about the setting is
still on the bus or was lost: given up by the full bus, or refused by the service. The handler can
always go on, and with nothing lost and nothing on the bus every service is right. -/
theorem settings_reach_services (b : Board) (f : StoreFaults) (hal : StarkErr) (s : Store)
    (hs : s schemaKey ≠ none ∨ ∀ key, s key = none) (hasStore : Bool) (capacity : ℕ)
    (hc : 0 < capacity) (services : Services) :
    ∃ d, boot b f hal s hasStore capacity hc services = some d ∧ ∀ as t, Run (step b) Free d as t →
      (∀ k, Applied b t.services (t.core.value k) k ∨ (∃ e ∈ toList t.bus, settingOf e = some k) ∨
        ∃ e ∈ t.lost, settingOf e = some k) ∧
      (t.bus.count ≠ 0 → ∀ hal, (step b t (.deliver hal)).isSome) ∧
      (t.lost = [] → toList t.bus = [] → ∀ k, Applied b t.services (t.core.value k) k) := by
  have hwhole : Whole s := fun hnone k => (hs.resolve_left fun h => h hnone) _
  obtain ⟨d,hd,hserved⟩ := boot_served (b := b) hal (f := f) hwhole hasStore capacity hc services
  refine ⟨d,hd,fun as t hrun => ?_⟩
  have ht : Served b t := run_invariant (Served b) (fun _ _ _ hi _ h => step_served hi h) as hserved hrun
  refine ⟨ht.mirrored,fun hne hal => ?_,fun hlost hbus k => ?_⟩
  · obtain ⟨u,hu,-⟩ := deliver_served ht hne hal
    rw [hu]
    rfl
  · have hm := ht.mirrored
    rw [hlost, hbus] at hm
    exact hm.settled k

def desk : Board := ⟨true,true,⟨400,120,by decide,by decide⟩⟩

def turnedDown : List Act :=
  [.publish ⟨evtKey,1,.key 0 0 0⟩,.set (some .volume) 1 2,.deliver .ok,.deliver .ok]

theorem settings_reach_services_turned : ∃ d t : Desk, Run (step desk) Free d turnedDown t ∧
    (t.core.value .volume = 1 ∧ t.services.duty = 5 ∧ t.lost = []) ∧
    ∀ k, Applied desk t.services (t.core.value k) k := by
  obtain ⟨d,hd,hall⟩ := settings_reach_services desk ⟨fun _ => none,fun _ => none,none,nofun⟩ .ok
    (fun _ => none) (.inr fun _ => rfl) true 4 (by decide) ⟨none,50,none,fun _ => .info⟩
  have hrun : ((boot desk ⟨fun _ => none,fun _ => none,none,nofun⟩ .ok (fun _ => none) true 4
      (by decide) ⟨none,50,none,fun _ => .info⟩).bind fun d => follow (step desk) d turnedDown).any
      (fun t => decide (t.core.value .volume = 1 ∧ t.services.duty = 5 ∧ t.lost = [] ∧
        toList t.bus = [])) = true := by
    decide +kernel
  rw [hd, Option.bind_some] at hrun
  obtain ⟨t,ht,hseen⟩ := (Option.any_eq_true _ _).mp hrun
  obtain ⟨hvolume,hduty,hlost,hbus⟩ := of_decide_eq_true hseen
  have hfree := run_free turnedDown ht
  exact ⟨d,t,hfree,⟨hvolume,hduty,hlost⟩,(hall turnedDown t hfree).2.2 hlost hbus⟩

end StarkOne.SettingsApply
