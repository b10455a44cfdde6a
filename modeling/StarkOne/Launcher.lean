import StarkOne.AppCatalog
import StarkOne.EventCore
import StarkOne.IrLoad
import StarkOne.MenuFrames
import StarkOne.Mirror
import StarkOne.ModuleConflicts

/-!
# From the modules to the launcher

The reader comes and goes, the module service works out which capabilities there
are, and the launcher offers the apps that have theirs. Each only announces on the
bus that there is news; whoever takes the announcement looks, and acts on what it
saw in a step of its own.
-/

set_option autoImplicit false

namespace StarkOne.Launcher
open StarkOne.Machine StarkOne.RingQueue StarkOne.EventCore StarkOne.Mirror
open StarkOne.ModuleFormat StarkOne.ModuleBus StarkOne.ModuleConflicts
open StarkOne.MenuModel StarkOne.MenuScreen StarkOne.MenuFrames StarkOne.AppCatalog
open StarkOne.StoragePath (CStr)
open StarkOne.IrNames (strcmp)
open StarkOne.IrLoad (bytesOf)
open StarkOne.UiStack (StarkKey StarkKeyAction)

def sysNfc : ℕ := 5
def sysModule : ℕ := 6
def nfcEvtModule : ℤ := 3

structure AppInfo where
  id : CStr
  capsRequired : UInt32
  icon : Option (ℕ → UInt8)

/-- The registry, and whether the board has an infrared transceiver. -/
structure Rig where
  apps : List (StarkApp AppInfo)
  fitted : Bool

/-- The handler of the bus has taken an announcement, or has looked. -/
inductive Handler where
  | idle
  | toldReader
  | sawReader (ready : Bool)
  | toldModule
  | sawCaps (caps : UInt32)
  deriving DecidableEq

/-- How far the start of the bridge is on the main task. -/
inductive Boot where
  | infrared
  | reader
  | seen (ready : Bool)
  | done
  deriving DecidableEq

/-- Who has changed something and not announced it yet is counted, and the events given up by the
full bus are noted. -/
structure Bridge where
  ready : Bool
  readerOwes : ℕ
  modules : Watched
  moduleOwes : ℕ
  bus : RingBuffer StarkEvent
  lost : List StarkEvent
  boot : Boot
  handler : Handler
  caps : UInt32
  launcher : UiMenu Unit
  current : Option (StarkApp AppInfo)

def publish (e : StarkEvent) (b : Bridge) : Bridge :=
  { b with
    bus := pushRing b.bus e
    lost := b.lost++givenUp (b.bus.count = b.bus.capacity) (toList b.bus) }

def readerEvent (ts : ℕ) : StarkEvent := ⟨evtSystem,ts,.system sysNfc nfcEvtModule⟩
def moduleEvent (ts : ℕ) : StarkEvent := ⟨evtSystem,ts,.system sysModule 0⟩

def announces (s : ModuleLeases.State) : ModuleLeases.Act → Bool
  | .settle => s.round.any fun r => r.2 ≠ 0
  | .confirm caps present => (moduleCoreConfirm s.core caps present).2
  | _ => false

def moduleStep (a : ModuleLeases.Act) (b : Bridge) : Option Bridge :=
  (watch b.modules a).map fun w => { b with
    modules := w
    moduleOwes := if announces b.modules.state a then b.moduleOwes+1 else b.moduleOwes }

def starkAppAvailable (caps : UInt32) (app : StarkApp AppInfo) : Bool :=
  app.rest.capsRequired &&& ~~~caps = 0

def launcherRows (apps : List (StarkApp AppInfo)) : List (AppCatalogRow AppInfo) :=
  appCatalogLayout (appCatalogSort apps apps.length) (2*apps.length)

def launcherItem (caps : UInt32) (row : AppCatalogRow AppInfo) : UiMenuItem :=
  match row.app with
  | none => ⟨row.header.map bytesOf,false,true,none⟩
  | some app => ⟨app.title.map bytesOf,!starkAppAvailable caps app,false,app.rest.icon⟩

def setDisabled (caps : UInt32) (row : AppCatalogRow AppInfo) (it : UiMenuItem) : UiMenuItem :=
  match row.app with
  | none => it
  | some app => { it with disabled := !starkAppAvailable caps app }

/-- With an app open the selection is left alone until it leaves. -/
def starkAppSetCaps (rig : Rig) (caps : UInt32) (b : Bridge) : Bridge :=
  if caps = b.caps then b
  else
    let m := withItems b.launcher
      (List.zipWith (setDisabled caps) (launcherRows rig.apps) b.launcher.items)
    { b with caps := caps, launcher := if b.current.isNone then uiMenuRefresh m else m }

def appCatalogFind (apps : List (StarkApp AppInfo)) (id : CStr) : Option (StarkApp AppInfo) :=
  apps.find? fun a => strcmp a.rest.id id = .eq

/-- What the app's callbacks and the screen stack answer at a start. -/
structure Start where
  onStart : StarkErr
  screen : Bool
  push : StarkErr

def starkAppLaunch (rig : Rig) (id : CStr) (s : Start) (b : Bridge) : StarkErr × Bridge :=
  match appCatalogFind rig.apps id with
  | none => (.notFound,b)
  | some app =>
    if b.current.isSome then (.busy,b)
    else if !starkAppAvailable b.caps app then (.notSupported,b)
    else if s.onStart ≠ .ok then (s.onStart,b)
    else if !s.screen then (.state,b)
    else if s.push ≠ .ok then (s.push,b)
    else (.ok,{ b with current := some app })

def rowApp (rig : Rig) (i : ℕ) : Option (StarkApp AppInfo) := (launcherRows rig.apps)[i]?.bind (·.app)

def onLauncherActivate (rig : Rig) (i : ℕ) (s : Start) (b : Bridge) : Bridge :=
  match rowApp rig i with
  | none => b
  | some app => (starkAppLaunch rig app.rest.id s b).2

def onAppScreenExit (b : Bridge) : Bridge :=
  { b with current := none, launcher := uiMenuRefresh b.launcher }

def launcherCalls : MenuCalls Unit := ⟨none,none,true⟩

def launcherKey (rig : Rig) (key : StarkKey) (action : StarkKeyAction) (s : Start) (b : Bridge) :
    Bridge :=
  let r := menuEvent launcherCalls b.launcher key action
  let b := { b with launcher := r.menu }
  match r.activated with
  | none => b
  | some i => onLauncherActivate rig i s b

inductive News where
  | reader
  | module
  deriving DecidableEq

def newsOf (e : StarkEvent) : Option News :=
  match e.payload with
  | .system id arg =>
    if e.type ≠ evtSystem then none
    else if id = sysNfc ∧ arg = nfcEvtModule then some .reader
    else if id = sysModule then some .module
    else none
  | _ => none

def onSystem (e : StarkEvent) (b : Bridge) : Bridge :=
  match newsOf e with
  | some .reader => { b with handler := .toldReader }
  | some .module => { b with handler := .toldModule }
  | none => b

inductive Act where
  | module (a : ModuleLeases.Act)
  | reader (ready : Bool)
  | readerTells (ts : ℕ)
  | moduleTells (ts : ℕ)
  | publish (e : StarkEvent)
  | boot
  | deliver
  | handle
  | key (key : StarkKey) (action : StarkKeyAction) (s : Start)
  | exit

def bootStep (rig : Rig) (b : Bridge) : Option Bridge :=
  match b.boot with
  | .infrared => moduleStep (.confirm (capIrTx ||| capIrRx) rig.fitted) { b with boot := .reader }
  | .reader => some { b with boot := .seen b.ready }
  | .seen ready => moduleStep (.confirm capNfc ready) { b with boot := .done }
  | .done => none

def handle (rig : Rig) (b : Bridge) : Option Bridge :=
  match b.handler with
  | .idle => none
  | .toldReader => some { b with handler := .sawReader b.ready }
  | .sawReader ready => moduleStep (.confirm capNfc ready) { b with handler := .idle }
  | .toldModule => some { b with handler := .sawCaps b.modules.state.core.caps }
  | .sawCaps caps => some (starkAppSetCaps rig caps { b with handler := .idle })

/-- Only the bridge confirms capabilities. The launcher gets keys while no app runs, and nothing
else happens on its task while the handler is at work. -/
def step (rig : Rig) (b : Bridge) : Act → Option Bridge
  | .module (.confirm _ _) => none
  | .module a => moduleStep a b
  | .reader ready => some { b with ready := ready, readerOwes := b.readerOwes+1 }
  | .readerTells ts =>
    if b.readerOwes = 0 then none
    else some (publish (readerEvent ts) { b with readerOwes := b.readerOwes-1 })
  | .moduleTells ts =>
    if b.moduleOwes = 0 then none
    else some (publish (moduleEvent ts) { b with moduleOwes := b.moduleOwes-1 })
  | .publish e => some (publish e b)
  | .boot => bootStep rig b
  | .deliver =>
    if b.handler ≠ .idle ∨ b.bus.count = 0 then none
    else some (onSystem (oldest b.bus) { b with bus := advance b.bus })
  | .handle => handle rig b
  | .key key action s =>
    if b.handler ≠ .idle ∨ b.current.isSome = true then none else some (launcherKey rig key action s b)
  | .exit =>
    if b.handler ≠ .idle ∨ b.current.isNone = true then none else some (onAppScreenExit b)

/-- The module service has polled twice before the bridge starts. -/
def start (rig : Rig) (w : Watched) (ready : Bool) (capacity : ℕ) (h : 0 < capacity) : Bridge where
  ready := ready
  readerOwes := 0
  modules := w
  moduleOwes := 0
  bus := empty (fun _ => ⟨0,0,.none⟩) capacity h
  lost := []
  boot := .infrared
  handler := .idle
  caps := 0
  launcher := uiMenuInit ((launcherRows rig.apps).map (launcherItem 0)) ()
  current := none

def polls : ModuleLeases.Act → Bool
  | .tick => true
  | .scan _ _ _ => true
  | .settle => true
  | _ => false

def Boot.looked : Boot → Bool
  | .seen _ => true
  | _ => false

/-- While the main task has looked at the reader and not said so yet, no news of the reader is taken. -/
def Unraced (b : Bridge) : Act → Prop
  | .deliver => b.boot.looked = true → newsOf (oldest b.bus) ≠ some .reader
  | _ => True

instance (b : Bridge) : ∀ a, Decidable (Unraced b a)
  | .deliver => inferInstanceAs (Decidable (b.boot.looked = true → newsOf (oldest b.bus) ≠ some .reader))
  | .module _ => isTrue trivial
  | .reader _ => isTrue trivial
  | .readerTells _ => isTrue trivial
  | .moduleTells _ => isTrue trivial
  | .publish _ => isTrue trivial
  | .boot => isTrue trivial
  | .handle => isTrue trivial
  | .key _ _ _ => isTrue trivial
  | .exit => isTrue trivial

def present (fitted ready : Bool) : UInt32 :=
  (if fitted then capIrTx ||| capIrRx else 0) ||| (if ready then capNfc else 0)

theorem present_nfc (fitted r ready : Bool) :
    (if ready then present fitted r ||| capNfc else present fitted r &&& ~~~capNfc) =
      present fitted ready := by
  revert fitted r ready
  decide

theorem present_infrared (r fitted : Bool) :
    (if fitted then present false r ||| (capIrTx ||| capIrRx)
      else present false r &&& ~~~(capIrTx ||| capIrRx)) = present fitted r := by
  revert fitted r
  decide

theorem available_iff {caps : UInt32} {app : StarkApp AppInfo} :
    starkAppAvailable caps app = true ↔ ∀ k, Has app.rest.capsRequired k → Has caps k := by
  unfold starkAppAvailable Has
  rw [decide_eq_true_eq, ← UInt32.toBitVec_inj, UInt32.toBitVec_and, UInt32.toBitVec_not]
  constructor
  · intro h k hk
    have hbit := congrArg (BitVec.getLsbD · k) h
    simp only [BitVec.getLsbD_and, BitVec.getLsbD_not, hk, Bool.true_and] at hbit
    have hlt : k < 32 := BitVec.lt_of_getLsbD hk
    simpa [hlt] using hbit
  · intro h
    apply BitVec.eq_of_getLsbD_eq
    intro k hlt
    cases hk : app.rest.capsRequired.toBitVec.getLsbD k with
    | false => simp [hk]
    | true => simp [h k hk]

def confirmedAfter : ModuleLeases.Act → UInt32 → UInt32
  | .confirm caps ready, confirmed => if ready then confirmed ||| caps else confirmed &&& ~~~caps
  | _, confirmed => confirmed

theorem module_step_caps {s t : ModuleLeases.State} {a : ModuleLeases.Act}
    (h : ModuleLeases.step s a = some t) :
    t.core.confirmed = confirmedAfter a s.core.confirmed ∧
      (announces s a = false → t.core.caps = s.core.caps) := by
  cases a with
  | tick =>
    rw [ModuleLeases.step] at h
    split at h
    · cases h
      exact ⟨rfl,fun _ => rfl⟩
    · cases h
  | scan probe read raw =>
    rw [ModuleLeases.step] at h
    split at h
    · cases h
    split at h
    · cases h
    cases h
    refine ⟨?_,fun _ => ?_⟩
    all_goals
      dsimp only [tickSlot]
      split <;> rfl
  | settle =>
    rw [ModuleLeases.step] at h
    split at h
    · cases h
    rename_i i changed hround
    split at h
    · cases h
    cases h
    unfold announces tickEnd
    rw [hround]
    by_cases hchanged : changed = 0
    · subst hchanged
      exact ⟨rfl,fun _ => rfl⟩
    · rw [if_pos hchanged]
      exact ⟨rfl,fun hno => absurd hno (by simpa using hchanged)⟩
  | claim slot caps owner out =>
    rw [ModuleLeases.step] at h
    cases hc : moduleCoreClaim s.core slot caps owner out with
    | mk r core =>
      have hsame := ModuleLeases.sameEntries_claim hc
      rw [hc] at h
      cases r with
      | ok l =>
        cases h
        exact ⟨hsame.confirmed,fun _ => hsame.caps⟩
      | error e =>
        cases h
        exact ⟨hsame.confirmed,fun _ => hsame.caps⟩
  | release l =>
    cases h
    have hsame := ModuleLeases.sameEntries_release s.core l
    exact ⟨hsame.confirmed,fun _ => hsame.caps⟩
  | confirm caps ready =>
    cases h
    refine ⟨rfl,fun hno => ?_⟩
    exact not_not.mp (of_decide_eq_false hno)
  | provide kind name caps =>
    cases h
    have hsame := ModuleLeases.sameEntries_provide s.core kind name caps
    exact ⟨hsame.confirmed,fun _ => hsame.caps⟩
  | list max =>
    cases h
    exact ⟨rfl,fun _ => rfl⟩

theorem moduleStep_spec {a : ModuleLeases.Act} {b t : Bridge} (hs : moduleStep a b = some t)
    (hi : WatchInv b.modules) : ∃ w owes, t = { b with modules := w, moduleOwes := owes } ∧
      WatchInv w ∧ w.state.core.confirmed = confirmedAfter a b.modules.state.core.confirmed ∧
      (0 < owes ∨ owes = b.moduleOwes ∧ w.state.core.caps = b.modules.state.core.caps) := by
  obtain ⟨w,hw,rfl⟩ := Option.map_eq_some_iff.mp hs
  refine ⟨w,_,rfl,watchInv_step _ _ _ hi hw,?_⟩
  obtain ⟨s,hstep,rfl⟩ := Option.map_eq_some_iff.mp hw
  obtain ⟨hconfirmed,hcaps⟩ := module_step_caps hstep
  refine ⟨hconfirmed,?_⟩
  cases hannounce : announces b.modules.state a with
  | true => exact .inl (Nat.succ_pos _)
  | false => exact .inr ⟨rfl,hcaps hannounce⟩

section
variable {rig : Rig}

theorem launcherRows_from (apps : List (StarkApp AppInfo)) : launcherRows apps =
    Grouping.rowsFrom categoryOf headerRow appRow none (appCatalogSort apps apps.length) :=
  layoutLoop_rows none [] _ (by rw [(sort_perm (le_refl apps.length)).length_eq, List.length_nil,
    Nat.zero_add])

theorem launcherRows_length (apps : List (StarkApp AppInfo)) :
    (launcherRows apps).length ≤ 2*apps.length := by
  have hrows := Grouping.rowsFrom_length categoryOf headerRow appRow none (appCatalogSort apps apps.length)
  rw [← launcherRows_from, (sort_perm (le_refl apps.length)).length_eq] at hrows
  exact hrows

/-- Every app has a row, and every row that is not a header has an app. -/
theorem rowApp_iff {app : StarkApp AppInfo} : (∃ i, rowApp rig i = some app) ↔ app ∈ rig.apps := by
  have hitems : (launcherRows rig.apps).filterMap AppCatalogRow.app =
      appCatalogSort rig.apps rig.apps.length := by
    have hhead : ∀ c, (headerRow c : AppCatalogRow AppInfo).app = none := fun _ => rfl
    rw [launcherRows_from]
    exact Grouping.rowsFrom_items hhead (fun _ => rfl) none _
  rw [← (sort_perm (le_refl rig.apps.length)).mem_iff, ← hitems, List.mem_filterMap]
  constructor
  · rintro ⟨i,hi⟩
    obtain ⟨row,hrow,happ⟩ := Option.bind_eq_some_iff.mp hi
    exact ⟨row,List.mem_of_getElem? hrow,happ⟩
  · rintro ⟨row,hrow,happ⟩
    obtain ⟨i,hi⟩ := List.mem_iff_getElem?.mp hrow
    exact ⟨i,Option.bind_eq_some_iff.mpr ⟨row,hi,happ⟩⟩

theorem itemEnabled_iff {caps : UInt32} {i : ℕ} :
    itemEnabled ((launcherRows rig.apps).map (launcherItem caps)) i = true ↔
      ∃ app, rowApp rig i = some app ∧ starkAppAvailable caps app = true := by
  unfold itemEnabled rowApp
  rw [List.getElem?_map]
  cases hrow : (launcherRows rig.apps)[i]? with
  | none => simp
  | some row =>
    cases happ : row.app with
    | none => simp [launcherItem, happ]
    | some app => simp [launcherItem, happ]

theorem setDisabled_item (caps caps' : UInt32) (row : AppCatalogRow AppInfo) :
    setDisabled caps' row (launcherItem caps row) = launcherItem caps' row := by
  unfold setDisabled launcherItem
  cases row.app <;> rfl

theorem setDisabled_items (caps caps' : UInt32) (rows : List (AppCatalogRow AppInfo)) :
    List.zipWith (setDisabled caps') rows (rows.map (launcherItem caps)) =
      rows.map (launcherItem caps') := by
  induction rows with
  | nil => rfl
  | cons row rows ih =>
    rw [List.map_cons, List.zipWith_cons_cons, setDisabled_item, ih]
    rfl

end

inductive Link where
  | boot
  | reader
  | caps

def Notice : Link → StarkEvent → Prop
  | .boot, e => newsOf e = some .reader
  | .reader, e => newsOf e = some .reader
  | .caps, e => newsOf e = some .module

def Right (rig : Rig) (b : Bridge) : Link → Prop
  | .boot => 0 < b.readerOwes ∨ ∀ ready, b.boot = .seen ready → ready = b.ready
  | .reader => 0 < b.readerOwes ∨
    match b.handler with
    | .toldReader => True
    | .sawReader ready => ready = b.ready
    | _ => b.boot = .done → b.modules.state.core.confirmed = present rig.fitted b.ready
  | .caps => 0 < b.moduleOwes ∨
    match b.handler with
    | .toldModule => True
    | .sawCaps caps => caps = b.modules.state.core.caps
    | _ => b.caps = b.modules.state.core.caps

structure Offers (rig : Rig) (caps : UInt32) (m : UiMenu Unit) (current : Option (StarkApp AppInfo)) :
    Prop where
  items : m.items = (launcherRows rig.apps).map (launcherItem caps)
  framed : Framed m
  seated : current = none → Seated m
  running : ∀ app ∈ current, ∃ shown, rowApp rig m.model.sel = some shown ∧ shown.rest.id = app.rest.id

structure Kept (rig : Rig) (b : Bridge) : Prop where
  watched : WatchInv b.modules
  confirmed : ∃ ready,
    b.modules.state.core.confirmed = present (rig.fitted && b.boot ≠ .infrared) ready
  mirrored : Mirrored (Right rig b) Notice (toList b.bus) b.lost

section
variable {rig : Rig} {b t : Bridge} {caps : UInt32} {m : UiMenu Unit}

theorem Offers.setCaps (h : Offers rig b.caps b.launcher b.current) (caps : UInt32) :
    ∃ m, starkAppSetCaps rig caps b = { b with caps := caps, launcher := m } ∧
      Offers rig caps m b.current := by
  unfold starkAppSetCaps
  split
  · rename_i hsame
    subst hsame
    exact ⟨b.launcher,rfl,h⟩
  have hitems : List.zipWith (setDisabled caps) (launcherRows rig.apps) b.launcher.items =
      (launcherRows rig.apps).map (launcherItem caps) := by
    rw [h.items, setDisabled_items]
  have hlen : ((launcherRows rig.apps).map (launcherItem caps)).length = b.launcher.items.length := by
    rw [h.items, List.length_map, List.length_map]
  have hframed := h.framed.withItems hlen b.launcher.state
  rw [hitems]
  refine ⟨_,rfl,?_⟩
  cases hc : b.current with
  | none =>
    have hseated := refresh_seated hframed
    exact ⟨refresh_items _,hseated.toFramed,fun _ => hseated,fun app happ => by cases happ⟩
  | some app =>
    exact ⟨rfl,hframed,fun hno => (by cases hno),fun app happ => h.running app (hc ▸ happ)⟩

theorem find_id {apps : List (StarkApp AppInfo)} {id : CStr} {app : StarkApp AppInfo}
    (h : appCatalogFind apps id = some app) : app.rest.id = id := by
  have hsame := List.find?_some h
  exact (cmpStr_eq (a := some app.rest.id) (b := some id)).mp (of_decide_eq_true hsame)

theorem find_self {apps : List (StarkApp AppInfo)} (hids : (apps.map (·.rest.id)).Nodup)
    {app : StarkApp AppInfo} (happ : app ∈ apps) : appCatalogFind apps app.rest.id = some app := by
  cases hfind : appCatalogFind apps app.rest.id with
  | none =>
    have hno := List.find?_eq_none.mp hfind app happ
    have hsame := (cmpStr_eq (a := some app.rest.id) (b := some app.rest.id)).mpr rfl
    exact absurd (decide_eq_true hsame) hno
  | some a =>
    have ha := List.mem_of_find?_eq_some hfind
    rw [List.inj_on_of_nodup_map hids ha happ (find_id hfind)]

theorem launch_cases (rig : Rig) (id : CStr) (s : Start) (b : Bridge) :
    (starkAppLaunch rig id s b).2 = b ∨ ∃ app, appCatalogFind rig.apps id = some app ∧
      (starkAppLaunch rig id s b).2 = { b with current := some app } := by
  unfold starkAppLaunch
  cases appCatalogFind rig.apps id with
  | none => exact .inl rfl
  | some app =>
    dsimp only
    split_ifs
    · exact .inl rfl
    · exact .inl rfl
    · exact .inl rfl
    · exact .inl rfl
    · exact .inl rfl
    · exact .inr ⟨app,rfl,rfl⟩

theorem Offers.activate (h : Offers rig b.caps b.launcher b.current) (s : Start) :
    ∃ current, onLauncherActivate rig b.launcher.model.sel s b = { b with current := current } ∧
      Offers rig b.caps b.launcher current := by
  unfold onLauncherActivate
  cases hshown : rowApp rig b.launcher.model.sel with
  | none => exact ⟨b.current,rfl,h⟩
  | some shown =>
    dsimp only
    rcases launch_cases rig shown.rest.id s b with hsame | ⟨app,hfind,hnew⟩
    · exact ⟨b.current,hsame,h⟩
    · refine ⟨some app,hnew,h.items,h.framed,fun hno => (by cases hno),fun a ha => ?_⟩
      obtain rfl := Option.some.inj ha
      exact ⟨shown,hshown,(find_id hfind).symm⟩

theorem Offers.key (h : Offers rig b.caps b.launcher b.current) (hidle : b.current = none)
    (key : StarkKey) (action : StarkKeyAction) (s : Start) :
    ∃ m current, launcherKey rig key action s b = { b with launcher := m, current := current } ∧
      Offers rig b.caps m current := by
  obtain ⟨hitems,hactivated⟩ := menuEvent_activated launcherCalls b.launcher key action
  have hshown : ∀ glyphs,
      Shown launcherCalls glyphs b.launcher (menuEvent launcherCalls b.launcher key action) :=
    fun _ => menuEvent_shown (fun _ hadjust => by cases hadjust) (h.seated hidle) key action
  have hseated : Seated (menuEvent launcherCalls b.launcher key action).menu :=
    (hshown (fun _ => 0)).seated
  have hkept : Offers rig b.caps (menuEvent launcherCalls b.launcher key action).menu none :=
    ⟨hitems.trans h.items,hseated.toFramed,fun _ => hseated,fun app happ => by cases happ⟩
  unfold launcherKey
  cases hi : (menuEvent launcherCalls b.launcher key action).activated with
  | none =>
    refine ⟨(menuEvent launcherCalls b.launcher key action).menu,b.current,?_,hidle ▸ hkept⟩
    dsimp only
    rw [hi]
  | some i =>
    obtain ⟨hmenu,rfl,-⟩ := hactivated i hi
    obtain ⟨current,hcurrent,hoffers⟩ := h.activate s
    refine ⟨b.launcher,current,?_,hoffers⟩
    dsimp only
    rw [hi, hmenu]
    exact hcurrent

theorem Offers.exit (h : Offers rig b.caps b.launcher b.current) :
    Offers rig b.caps (uiMenuRefresh b.launcher) none := by
  have hseated := refresh_seated h.framed
  exact ⟨(refresh_items _).trans h.items,hseated.toFramed,fun _ => hseated,fun app happ => by cases happ⟩

theorem moduleStep_offers {a : ModuleLeases.Act} (h : Offers rig b.caps b.launcher b.current)
    (hs : moduleStep a b = some t) : Offers rig t.caps t.launcher t.current := by
  obtain ⟨w,-,rfl⟩ := Option.map_eq_some_iff.mp hs
  exact h

theorem start_offers (hn : rig.apps.length < 2^31) (w : Watched) (ready : Bool) (capacity : ℕ)
    (hc : 0 < capacity) : Offers rig 0 (start rig w ready capacity hc).launcher none := by
  have hlen := launcherRows_length rig.apps
  have hseated := init_seated ((launcherRows rig.apps).map (launcherItem 0))
    (by rw [List.length_map]; omega) ()
  exact ⟨rfl,hseated.toFramed,fun _ => hseated,fun app happ => by cases happ⟩

theorem step_offers {a : Act} (h : Offers rig b.caps b.launcher b.current)
    (hs : step rig b a = some t) : Offers rig t.caps t.launcher t.current := by
  cases a with
  | module a =>
    cases a with
    | confirm caps ready => cases hs
    | _ => exact moduleStep_offers h hs
  | reader ready =>
    cases hs
    exact h
  | readerTells ts =>
    rw [step] at hs
    split at hs
    · cases hs
    · cases hs
      exact h
  | moduleTells ts =>
    rw [step] at hs
    split at hs
    · cases hs
    · cases hs
      exact h
  | publish e =>
    cases hs
    exact h
  | boot =>
    rw [step, bootStep] at hs
    split at hs
    · exact moduleStep_offers (b := { b with boot := .reader }) h hs
    · cases hs
      exact h
    · exact moduleStep_offers (b := { b with boot := .done }) h hs
    · cases hs
  | deliver =>
    rw [step] at hs
    split at hs
    · cases hs
    cases hs
    unfold onSystem
    split
    · exact h
    · exact h
    · exact h
  | handle =>
    rw [step, handle] at hs
    split at hs
    · cases hs
    · cases hs
      exact h
    · exact moduleStep_offers (b := { b with handler := .idle }) h hs
    · cases hs
      exact h
    · rename_i caps _
      cases hs
      obtain ⟨m,hset,hoffers⟩ := Offers.setCaps (b := { b with handler := .idle }) h caps
      rw [hset]
      exact hoffers
  | key key action s =>
    rw [step] at hs
    split at hs
    · cases hs
    rename_i hgo
    rw [not_or, Option.not_isSome_iff_eq_none] at hgo
    cases hs
    obtain ⟨m,current,hkey,hoffers⟩ := h.key hgo.2 key action s
    rw [hkey]
    exact hoffers
  | exit =>
    rw [step] at hs
    split at hs
    · cases hs
    · cases hs
      exact h.exit

theorem publish_queue (e : StarkEvent) (b : Bridge) :
    toList (publish e b).bus = offered (b.bus.count = b.bus.capacity) (toList b.bus) e := by
  unfold publish offered
  rw [toList_pushRing]
  by_cases h : b.bus.count = b.bus.capacity
  · rw [if_pos h, if_pos (decide_eq_true h)]
  · rw [if_neg h, if_neg (by simpa using h)]

theorem Kept.publish {u : Bridge} (h : Kept rig b) (e : StarkEvent)
    (hmodules : u.modules = b.modules) (hboot : u.boot = b.boot) (hbus : u.bus = b.bus)
    (hlost : u.lost = b.lost)
    (hright : ∀ k, Right rig b k → Right rig (publish e u) k ∨ Notice k e) :
    Kept rig (publish e u) := by
  refine ⟨hmodules ▸ h.watched,?_,?_⟩
  · show ∃ ready, u.modules.state.core.confirmed = present (rig.fitted && u.boot ≠ .infrared) ready
    rw [hmodules, hboot]
    exact h.confirmed
  · have hm := h.mirrored.offer (u.bus.count = u.bus.capacity) hright
    rw [publish_queue]
    show Mirrored _ Notice _ (u.lost++_)
    rw [hlost, hbus]
    rw [hbus] at hm
    exact hm

theorem capsRight_module {w : Watched} {owes : ℕ} (h : Right rig b .caps)
    (howes : 0 < owes ∨ owes = b.moduleOwes ∧ w.state.core.caps = b.modules.state.core.caps) :
    Right rig { b with modules := w, moduleOwes := owes } .caps := by
  rcases howes with hpos | ⟨rfl,hcaps⟩
  · exact .inl hpos
  · unfold Right at h ⊢
    dsimp only at h ⊢
    rw [hcaps]
    exact h

theorem kept_module {a : ModuleLeases.Act} (h : Kept rig b)
    (ha : confirmedAfter a b.modules.state.core.confirmed = b.modules.state.core.confirmed)
    (hs : moduleStep a b = some t) : Kept rig t := by
  obtain ⟨w,owes,rfl,hwatched,hconfirmed,howes⟩ := moduleStep_spec hs h.watched
  rw [ha] at hconfirmed
  refine ⟨hwatched,?_,h.mirrored.mono fun k hk => ?_⟩
  · dsimp only
    rw [hconfirmed]
    exact h.confirmed
  · cases k with
    | boot => exact hk
    | reader =>
      unfold Right at hk ⊢
      dsimp only at hk ⊢
      rw [hconfirmed]
      exact hk
    | caps => exact capsRight_module hk howes

theorem confirm_reader {fitted ready r : Bool} (hwatched : WatchInv b.modules)
    (hconfirmed : b.modules.state.core.confirmed = present fitted r)
    (hs : moduleStep (.confirm capNfc ready) b = some t) : ∃ w owes,
      t = { b with modules := w, moduleOwes := owes } ∧ WatchInv w ∧
      w.state.core.confirmed = present fitted ready ∧
      (0 < owes ∨ owes = b.moduleOwes ∧ w.state.core.caps = b.modules.state.core.caps) := by
  obtain ⟨w,owes,ht,hw,hafter,howes⟩ := moduleStep_spec hs hwatched
  refine ⟨w,owes,ht,hw,?_,howes⟩
  rw [hafter, hconfirmed]
  exact present_nfc fitted r ready

theorem kept_handle (ho : Offers rig b.caps b.launcher b.current) (h : Kept rig b)
    (hs : handle rig b = some t) : Kept rig t := by
  unfold handle at hs
  split at hs
  · cases hs
  · rename_i htold
    cases hs
    refine ⟨h.watched,h.confirmed,h.mirrored.mono fun k hk => ?_⟩
    unfold Right at hk ⊢
    rw [htold] at hk
    cases k with
    | boot => exact hk
    | reader => exact .inr rfl
    | caps => exact hk
  · rename_i ready hsaw
    obtain ⟨r,hr⟩ := h.confirmed
    obtain ⟨w,owes,rfl,hw,hconfirmed,howes⟩ :=
      confirm_reader (b := { b with handler := .idle }) h.watched hr hs
    refine ⟨hw,⟨ready,hconfirmed⟩,h.mirrored.mono fun k hk => ?_⟩
    cases k with
    | boot => exact hk
    | reader =>
      unfold Right at hk ⊢
      rw [hsaw] at hk
      refine hk.imp_right fun hready hdone => ?_
      dsimp only at hready hdone ⊢
      rw [hconfirmed, hready, hdone]
      simp
    | caps =>
      refine capsRight_module (b := { b with handler := .idle }) ?_ howes
      unfold Right at hk ⊢
      rw [hsaw] at hk
      exact hk
  · rename_i htold
    cases hs
    refine ⟨h.watched,h.confirmed,h.mirrored.mono fun k hk => ?_⟩
    unfold Right at hk ⊢
    rw [htold] at hk
    cases k with
    | boot => exact hk
    | reader => exact hk
    | caps => exact .inr rfl
  · rename_i caps hsaw
    cases hs
    obtain ⟨m,hset,-⟩ := Offers.setCaps (b := { b with handler := .idle }) ho caps
    rw [hset]
    refine ⟨h.watched,h.confirmed,h.mirrored.mono fun k hk => ?_⟩
    unfold Right at hk ⊢
    rw [hsaw] at hk
    cases k with
    | boot => exact hk
    | reader => exact hk
    | caps => exact hk

/-- As long as the main task is not done, only what the handler has seen must be right. -/
theorem readerRight_early {w : Watched} {owes : ℕ} {boot : Boot} (h : Right rig b .reader)
    (hearly : boot ≠ .done) :
    Right rig { b with boot := boot, modules := w, moduleOwes := owes } .reader := by
  refine h.imp_right fun hright => ?_
  dsimp only at hright ⊢
  split
  · trivial
  · rename_i hsaw
    rw [hsaw] at hright
    exact hright
  · exact fun hdone => absurd hdone hearly

/-- The main task says what it has seen; had the reader changed since, that would be announced. -/
theorem kept_boot (h : Kept rig b) (hs : bootStep rig b = some t) : Kept rig t := by
  obtain ⟨r,hr⟩ := h.confirmed
  unfold bootStep at hs
  split at hs
  · rename_i hboot
    obtain ⟨w,owes,rfl,hw,hafter,howes⟩ := moduleStep_spec hs h.watched
    have hnone : present (rig.fitted && b.boot ≠ .infrared) r = present false r := by
      rw [hboot]
      simp
    refine ⟨hw,⟨r,?_⟩,h.mirrored.mono fun k hk => ?_⟩
    · rw [hafter]
      dsimp only
      rw [hr, hnone]
      exact (present_infrared r rig.fitted).trans (by simp)
    · cases k with
      | boot => exact hk.imp_right fun _ ready hno => (by cases hno)
      | reader => exact readerRight_early (b := b) hk (by simp)
      | caps => exact capsRight_module (b := { b with boot := .reader }) hk howes
  · rename_i hboot
    cases hs
    have hsame : present (rig.fitted && b.boot ≠ .infrared) r = present rig.fitted r := by
      rw [hboot]
      simp
    refine ⟨h.watched,⟨r,(hr.trans hsame).trans (by simp)⟩,h.mirrored.mono fun k hk => ?_⟩
    cases k with
    | boot =>
      refine .inr fun ready hseen => ?_
      cases hseen
      rfl
    | reader => exact readerRight_early (b := b) hk (by simp)
    | caps => exact hk
  · rename_i ready hboot
    obtain ⟨w,owes,rfl,hw,hconfirmed,howes⟩ :=
      confirm_reader (b := { b with boot := .done }) h.watched hr hs
    have hsame : present (rig.fitted && b.boot ≠ .infrared) ready = present rig.fitted ready := by
      rw [hboot]
      simp
    rw [hsame] at hconfirmed
    refine ⟨hw,⟨ready,hconfirmed.trans (by simp)⟩,fun k => ?_⟩
    cases k with
    | boot => exact .inl (.inr fun _ hno => by cases hno)
    | reader =>
      -- What the handler has seen is right by itself, what the main task saw by its own invariant.
      rcases h.mirrored .reader with hk | hnews
      swap
      · exact .inr hnews
      rcases h.mirrored .boot with hseen | hnews
      swap
      · exact .inr hnews
      refine .inl ?_
      rcases hseen with hpos | hseen
      · exact .inl hpos
      refine hk.imp_right fun hright => ?_
      dsimp only at hright ⊢
      split
      · trivial
      · rename_i hsaw
        rw [hsaw] at hright
        exact hright
      · intro
        rw [hconfirmed, hseen ready hboot]
    | caps => exact (h.mirrored .caps).imp_left fun hk =>
        capsRight_module (b := { b with boot := .done }) hk howes
  · cases hs

theorem kept_deliver (h : Kept rig b) (hguard : b.boot.looked = true →
      newsOf (oldest b.bus) ≠ some .reader) (hidle : b.handler = .idle) (hne : b.bus.count ≠ 0) :
    Kept rig (onSystem (oldest b.bus) { b with bus := advance b.bus }) := by
  have hm := h.mirrored
  rw [toList_eq_cons b.bus (Nat.pos_of_ne_zero hne)] at hm
  unfold onSystem
  split
  · rename_i hnews
    refine ⟨h.watched,h.confirmed,hm.take (fun k hk => ?_) fun k hk => ?_⟩
    · cases k with
      | boot => exact .inr fun ready hseen => absurd hnews (hguard (congrArg Boot.looked hseen))
      | reader => exact .inr trivial
      | caps =>
        rw [Notice, hnews] at hk
        cases hk
    · cases k with
      | boot => exact hk
      | reader => exact .inr trivial
      | caps =>
        unfold Right at hk ⊢
        rw [hidle] at hk
        exact hk
  · rename_i hnews
    refine ⟨h.watched,h.confirmed,hm.take (fun k hk => ?_) fun k hk => ?_⟩
    · cases k with
      | boot =>
        rw [Notice, hnews] at hk
        cases hk
      | reader =>
        rw [Notice, hnews] at hk
        cases hk
      | caps => exact .inr trivial
    · cases k with
      | boot => exact hk
      | reader =>
        unfold Right at hk ⊢
        rw [hidle] at hk
        exact hk
      | caps => exact .inr trivial
  · rename_i hnone
    refine ⟨h.watched,h.confirmed,hm.take (fun k hk => ?_) fun k hk => ?_⟩
    · cases k with
      | boot =>
        rw [Notice, hnone] at hk
        cases hk
      | reader =>
        rw [Notice, hnone] at hk
        cases hk
      | caps =>
        rw [Notice, hnone] at hk
        cases hk
    · cases k with
      | boot => exact hk
      | reader => exact hk
      | caps => exact hk

theorem step_kept {a : Act} (ho : Offers rig b.caps b.launcher b.current) (h : Kept rig b)
    (hg : Unraced b a) (hs : step rig b a = some t) : Kept rig t := by
  cases a with
  | module a =>
    cases a with
    | confirm caps ready => cases hs
    | _ => exact kept_module h rfl hs
  | reader ready =>
    cases hs
    refine ⟨h.watched,h.confirmed,h.mirrored.mono fun k hk => ?_⟩
    cases k with
    | boot => exact .inl (Nat.succ_pos _)
    | reader => exact .inl (Nat.succ_pos _)
    | caps => exact hk
  | readerTells ts =>
    rw [step] at hs
    split at hs
    · cases hs
    cases hs
    refine h.publish _ rfl rfl rfl rfl fun k hk => ?_
    cases k with
    | boot => exact .inr rfl
    | reader => exact .inr rfl
    | caps => exact .inl hk
  | moduleTells ts =>
    rw [step] at hs
    split at hs
    · cases hs
    cases hs
    refine h.publish _ rfl rfl rfl rfl fun k hk => ?_
    cases k with
    | boot => exact .inl hk
    | reader => exact .inl hk
    | caps => exact .inr rfl
  | publish e =>
    cases hs
    refine h.publish e rfl rfl rfl rfl fun k hk => .inl ?_
    cases k with
    | boot => exact hk
    | reader => exact hk
    | caps => exact hk
  | boot => exact kept_boot h hs
  | deliver =>
    rw [step] at hs
    split at hs
    · cases hs
    rename_i hgo
    rw [not_or, not_not] at hgo
    cases hs
    exact kept_deliver h hg hgo.1 hgo.2
  | handle => exact kept_handle ho h hs
  | key key action s =>
    rw [step] at hs
    split at hs
    · cases hs
    rename_i hgo
    rw [not_or, Option.not_isSome_iff_eq_none] at hgo
    cases hs
    obtain ⟨m,current,hkey,-⟩ := ho.key hgo.2 key action s
    rw [hkey]
    refine ⟨h.watched,h.confirmed,h.mirrored.mono fun k hk => ?_⟩
    cases k with
    | boot => exact hk
    | reader => exact hk
    | caps => exact hk
  | exit =>
    rw [step] at hs
    split at hs
    · cases hs
    cases hs
    refine ⟨h.watched,h.confirmed,h.mirrored.mono fun k hk => ?_⟩
    cases k with
    | boot => exact hk
    | reader => exact hk
    | caps => exact hk

theorem polls_none {w v : Watched} (as : List ModuleLeases.Act) (hpolls : ∀ a ∈ as, polls a = true)
    (hi : WatchInv w) (hw : w.state.core.confirmed = 0 ∧ w.state.core.caps = 0)
    (h : Run watch Free w as v) :
    WatchInv v ∧ v.state.core.confirmed = 0 ∧ v.state.core.caps = 0 := by
  induction as generalizing w with
  | nil => exact h ▸ ⟨hi,hw⟩
  | cons a as ih =>
    obtain ⟨-,u,hu,hrest⟩ := h
    refine ih (fun c hc => hpolls c (List.mem_cons_of_mem _ hc)) (watchInv_step _ _ _ hi hu) ?_ hrest
    obtain ⟨s,hs,rfl⟩ := Option.map_eq_some_iff.mp hu
    have ha := hpolls a List.mem_cons_self
    obtain ⟨hconfirmed,-⟩ := module_step_caps hs
    have hsame : s.core.confirmed = 0 := by
      rw [hconfirmed]
      cases a with
      | confirm caps ready => cases ha
      | _ => exact hw.1
    refine ⟨hsame,?_⟩
    cases ModuleLeases.step_touches hs with
    | none hchange hsame hquiet => exact hsame.caps.trans hw.2
    | entry i u hchange hloud hcore =>
      rw [hcore]
      exact hw.2
    | all confirmed hchange hcore =>
      rw [hcore] at hsame ⊢
      have hzero : confirmed = 0 := hsame
      unfold recompute
      dsimp only
      rw [hzero]
      simp

theorem start_kept {w : Watched} (hw : WatchInv w)
    (hnone : w.state.core.confirmed = 0 ∧ w.state.core.caps = 0) (ready : Bool) (capacity : ℕ)
    (hc : 0 < capacity) : Kept rig (start rig w ready capacity hc) := by
  refine ⟨hw,⟨false,?_⟩,mirrored_start fun k => ?_⟩
  · show w.state.core.confirmed = _
    rw [hnone.1]
    simp [start, present]
  · cases k with
    | boot => exact .inr fun _ hno => by cases hno
    | reader => exact .inr fun hno => by cases hno
    | caps => exact .inr hnone.2.symm

/-- There is news that has not reached its end: it is owed, waits on the bus, was lost there, or
is being handled. -/
def Underway (b : Bridge) : News → Prop
  | .reader => 0 < b.readerOwes ∨ b.handler = .toldReader ∨ (∃ ready, b.handler = .sawReader ready) ∨
      ∃ e, (e ∈ toList b.bus ∨ e ∈ b.lost) ∧ newsOf e = some .reader
  | .module => 0 < b.moduleOwes ∨ b.handler = .toldModule ∨ (∃ caps, b.handler = .sawCaps caps) ∨
      ∃ e, (e ∈ toList b.bus ∨ e ∈ b.lost) ∧ newsOf e = some .module

theorem underway_notice {k : Link} (h : (∃ e ∈ toList b.bus, Notice k e) ∨ ∃ e ∈ b.lost, Notice k e) :
    ∃ e, (e ∈ toList b.bus ∨ e ∈ b.lost) ∧ Notice k e := by
  rcases h with ⟨e,he,hn⟩ | ⟨e,he,hn⟩
  · exact ⟨e,.inl he,hn⟩
  · exact ⟨e,.inr he,hn⟩

theorem Kept.caps_or (h : Kept rig b) : b.caps = b.modules.state.core.caps ∨ Underway b .module := by
  rcases h.mirrored .caps with hright | hnews
  · unfold Right at hright
    rcases hright with hpos | hright
    · exact .inr (.inl hpos)
    split at hright
    · rename_i htold
      exact .inr (.inr (.inl htold))
    · rename_i caps hsaw
      exact .inr (.inr (.inr (.inl ⟨caps,hsaw⟩)))
    · exact .inl hright
  · exact .inr (.inr (.inr (.inr (underway_notice hnews))))

theorem Kept.confirmed_or (h : Kept rig b) (hdone : b.boot = .done) :
    b.modules.state.core.confirmed = present rig.fitted b.ready ∨ Underway b .reader := by
  rcases h.mirrored .reader with hright | hnews
  · unfold Right at hright
    rcases hright with hpos | hright
    · exact .inr (.inl hpos)
    split at hright
    · rename_i htold
      exact .inr (.inr (.inl htold))
    · rename_i ready hsaw
      exact .inr (.inr (.inr (.inl ⟨ready,hsaw⟩)))
    · exact .inl (hright hdone)
  · exact .inr (.inr (.inr (.inr (underway_notice hnews))))

theorem run_kept (hn : rig.apps.length < 2^31) {wires : ℕ → ModuleWiring} {n : ℕ}
    {as : List ModuleLeases.Act} (hpolls : ∀ a ∈ as, polls a = true) {w : Watched}
    (hw : Run watch Free (watchStart wires n) as w) {ready : Bool} {capacity : ℕ} {hc : 0 < capacity}
    {bs : List Act} (h : Run (step rig) Unraced (start rig w ready capacity hc) bs t) :
    Offers rig t.caps t.launcher t.current ∧ Kept rig t := by
  obtain ⟨hwatched,hnone⟩ := polls_none as hpolls (watchInv_start wires n) ⟨rfl,rfl⟩ hw
  exact run_invariant (fun b => Offers rig b.caps b.launcher b.current ∧ Kept rig b)
    (fun _ _ _ hi hg hs => ⟨step_offers hi.1 hs,step_kept hi.1 hi.2 hg hs⟩) bs
    ⟨start_offers hn w ready capacity hc,start_kept hwatched hnone ready capacity hc⟩ h

end

/-- In every run the launcher offers exactly the apps whose capabilities it knows of, what it knows is
what the module service has unless news of that is under way, and the same between the service and the
reader. With no news under way and no polling round, an app is offered exactly if the board and the
reader have what it needs and no two modules exclude each other over it. -/
theorem launcher_follows_modules (rig : Rig) (hn : rig.apps.length < 2^31) (wires : ℕ → ModuleWiring)
    (n : ℕ) (as : List ModuleLeases.Act) (hpolls : ∀ a ∈ as, polls a = true) (w : Watched)
    (hw : Run watch Free (watchStart wires n) as w) (ready : Bool) (capacity : ℕ) (hc : 0 < capacity)
    (bs : List Act) (t : Bridge)
    (h : Run (step rig) Unraced (start rig w ready capacity hc) bs t) :
    (∀ i, itemEnabled t.launcher.items i = true ↔
      ∃ app, rowApp rig i = some app ∧ starkAppAvailable t.caps app = true) ∧
    (t.caps = t.modules.state.core.caps ∨ Underway t .module) ∧
    (t.boot = .done →
      t.modules.state.core.confirmed = present rig.fitted t.ready ∨ Underway t .reader) ∧
    (t.boot = .done → t.modules.state.round = none → ¬Underway t .reader → ¬Underway t .module →
      ∀ i app, rowApp rig i = some app → (itemEnabled t.launcher.items i = true ↔
        ∀ k, Has app.rest.capsRequired k →
          Has (present rig.fitted t.ready) k ∧ Has capsKnown k ∧ ¬Has capsWiring k ∧
            ¬∃ i j d e, Rivals t.modules.state.core.n t.modules.holds i j d e ∧
              Has ((d.caps ||| e.caps) &&& capsExclusive) k)) := by
  obtain ⟨hoffers,hk⟩ := run_kept hn hpolls hw h
  have henabled : ∀ i, itemEnabled t.launcher.items i = true ↔
      ∃ app, rowApp rig i = some app ∧ starkAppAvailable t.caps app = true := by
    intro i
    rw [hoffers.items]
    exact itemEnabled_iff
  refine ⟨henabled,hk.caps_or,hk.confirmed_or,fun hdone hround hreader hmodule i app happ => ?_⟩
  have hcaps := hk.caps_or.resolve_right hmodule
  have hconfirmed := (hk.confirmed_or hdone).resolve_right hreader
  have hexact := (hk.watched.exact (.inl hround)).caps
  have hrow : (∃ a, rowApp rig i = some a ∧ starkAppAvailable t.caps a = true) ↔
      starkAppAvailable t.caps app = true := by
    rw [happ]
    exact ⟨fun ⟨a,ha,hav⟩ => Option.some.inj ha ▸ hav,fun hav => ⟨app,rfl,hav⟩⟩
  rw [henabled i, hrow, available_iff, hcaps]
  refine forall_congr' fun k => imp_congr_right fun _ => ?_
  rw [hexact k, hconfirmed]

def bench : Rig :=
  ⟨[⟨some "Tags".toList,some "Lab".toList,"nfc".toList,capNfc,none⟩,
    ⟨some "About".toList,some "System".toList,"about".toList,0,none⟩],true⟩

def silent : Watched := watchStart ModuleLeases.benchWires 2

/-- The reader appears before the main task is done. -/
def appears : List Act :=
  [.boot,.reader true,.boot,.boot,.readerTells 1,.moduleTells 2,.deliver,.handle,.handle,
    .moduleTells 3,.deliver,.handle,.handle,.deliver,.handle,.handle]

theorem launcher_follows_modules_appears : ∃ t : Bridge,
    Run (step bench) Unraced (start bench silent false 4 (by decide)) appears t ∧
    t.ready = true ∧ itemEnabled t.launcher.items 1 = true ∧
    ¬∃ i j d e, Rivals t.modules.state.core.n t.modules.holds i j d e ∧
      Has ((d.caps ||| e.caps) &&& capsExclusive) 2 := by
  obtain ⟨t,hrun,hready,henabled,happ,hdone,hround,hidle,hreader,hmodule,hbus,hlost⟩ :=
    run_witness (step bench) (G := Unraced) (s := start bench silent false 4 (by decide))
      (p := fun t => t.ready = true ∧ itemEnabled t.launcher.items 1 = true ∧
        (rowApp bench 1).isSome = true ∧ t.boot = .done ∧ t.modules.state.round = none ∧
        t.handler = .idle ∧ t.readerOwes = 0 ∧ t.moduleOwes = 0 ∧ toList t.bus = [] ∧ t.lost = [])
      appears (by decide +kernel) (by decide +kernel)
  obtain ⟨app,happ⟩ := Option.isSome_iff_exists.mp happ
  have hneeds : app.rest.capsRequired = capNfc := by
    have hrow : (rowApp bench 1).map (·.rest.capsRequired) = some capNfc := by decide +kernel
    rw [happ] at hrow
    exact Option.some.inj hrow
  have hall := (launcher_follows_modules bench (by decide) ModuleLeases.benchWires 2 []
    (List.forall_mem_nil _) silent rfl false 4 (by decide) appears t hrun).2.2.2 hdone hround
    (by simp [Underway, hreader, hidle, hbus, hlost]) (by simp [Underway, hmodule, hidle, hbus, hlost])
    1 app happ
  have hbit : Has app.rest.capsRequired 2 := by
    rw [hneeds]
    unfold Has
    decide
  exact ⟨t,hrun,hready,henabled,(hall.mp henabled 2 hbit).2.2.2⟩

/-- The main task has looked at the reader, which then appears: its news is handled before the main
task says that there is none, and the app is not offered though all is quiet. -/
theorem reader_overlooked : ∃ t : Bridge,
    Run (step bench) Free (start bench silent false 4 (by decide))
      [.boot,.boot,.reader true,.readerTells 1,.deliver,.handle,.handle,.boot,.moduleTells 2,
        .moduleTells 3,.moduleTells 4,.deliver,.handle,.handle,.deliver,.handle,.handle,.deliver,
        .handle,.handle] t ∧
    t.ready = true ∧ t.readerOwes = 0 ∧ t.moduleOwes = 0 ∧ t.boot = .done ∧ t.handler = .idle ∧
      toList t.bus = [] ∧ t.lost = [] ∧ itemEnabled t.launcher.items 1 = false := by
  apply run_witness
  · decide +kernel
  · decide +kernel

/-- While no app runs the launcher has a selection exactly if some app has its capabilities, it is such
an app, in view, and a short press of OK starts it. While an app runs its row stays selected. -/
theorem launcher_selection (rig : Rig) (hn : rig.apps.length < 2^31) (w : Watched) (ready : Bool)
    (capacity : ℕ) (hc : 0 < capacity) (bs : List Act) (t : Bridge)
    (h : Run (step rig) Free (start rig w ready capacity hc) bs t) :
    (t.current = none →
      (t.launcher.model.hasSel = true ↔ ∃ app ∈ rig.apps, starkAppAvailable t.caps app = true) ∧
      InView t.launcher t.launcher.model.sel ∧
      (t.launcher.model.hasSel = true → ∃ app, rowApp rig t.launcher.model.sel = some app ∧
        starkAppAvailable t.caps app = true ∧
        ((rig.apps.map (·.rest.id)).Nodup → t.handler = .idle →
          step rig t (.key .ok .short ⟨.ok,true,.ok⟩) = some { t with current := some app }))) ∧
    ∀ app ∈ t.current, ∃ shown, rowApp rig t.launcher.model.sel = some shown ∧
      shown.rest.id = app.rest.id := by
  have ho : Offers rig t.caps t.launcher t.current :=
    run_invariant (fun b => Offers rig b.caps b.launcher b.current)
      (fun _ _ _ hi _ hs => step_offers hi hs) bs (start_offers hn w ready capacity hc) h
  refine ⟨fun hcurrent => ?_,ho.running⟩
  have hseated := ho.seated hcurrent
  have hselection := hseated.selection
  have hselected := hseated.selected
  simp only [ho.items, itemEnabled_iff] at hselection hselected
  refine ⟨hselection.trans ⟨?_,?_⟩,hseated.inView,fun hsel => ?_⟩
  · rintro ⟨i,-,app,happ,hav⟩
    exact ⟨app,rowApp_iff.mp ⟨i,happ⟩,hav⟩
  · rintro ⟨app,happ,hav⟩
    obtain ⟨i,hi⟩ := rowApp_iff.mpr happ
    refine ⟨i,?_,app,hi,hav⟩
    obtain ⟨row,hrow,-⟩ := Option.bind_eq_some_iff.mp hi
    rw [List.length_map]
    exact (List.getElem?_eq_some_iff.mp hrow).1
  · obtain ⟨app,happ,hav⟩ := hselected hsel
    refine ⟨app,happ,hav,fun hids hidle => ?_⟩
    have hfind := find_self hids (rowApp_iff.mp ⟨_,happ⟩)
    have hgo : ¬(t.handler ≠ .idle ∨ t.current.isSome = true) := by
      rw [hidle, hcurrent]
      simp
    have hok : menuEvent launcherCalls t.launcher .ok .short =
        { ignored t.launcher with activated := some t.launcher.model.sel } := by
      simp [menuEvent, hsel, launcherCalls]
    have hlaunch : starkAppLaunch rig app.rest.id ⟨.ok,true,.ok⟩ t =
        (.ok,{ t with current := some app }) := by
      unfold starkAppLaunch
      rw [hfind]
      simp [hcurrent, hav]
    rw [step, if_neg hgo]
    unfold launcherKey
    rw [hok]
    show some (onLauncherActivate rig t.launcher.model.sel ⟨.ok,true,.ok⟩ t) = _
    unfold onLauncherActivate
    rw [happ]
    dsimp only
    rw [hlaunch]

def under : List Act :=
  appears++[.key .up .press ⟨.ok,true,.ok⟩,.key .ok .short ⟨.ok,true,.ok⟩,.reader false,.readerTells 4,
    .deliver,.handle,.handle,.moduleTells 5,.deliver,.handle,.handle]

theorem launcher_selection_under : ∃ t : Bridge,
    Run (step bench) Free (start bench silent false 4 (by decide)) under t ∧ t.caps &&& capNfc = 0 ∧
    ∃ app ∈ t.current, ∃ shown, rowApp bench t.launcher.model.sel = some shown ∧
      shown.rest.id = app.rest.id := by
  obtain ⟨t,hrun,hcaps,hcurrent⟩ := run_witness (step bench) (G := Free)
    (s := start bench silent false 4 (by decide))
    (p := fun t => t.caps &&& capNfc = 0 ∧ t.current.isSome = true) under (by decide +kernel)
    (by decide +kernel)
  obtain ⟨app,happ⟩ := Option.isSome_iff_exists.mp hcurrent
  exact ⟨t,hrun,hcaps,app,happ,(launcher_selection bench (by decide) silent false 4 (by decide) under t
    hrun).2 app happ⟩

end StarkOne.Launcher
