import Mathlib.Data.UInt
import StarkOne.Machine
import StarkOne.StarkErr
import StarkOne.StoragePath
import StarkOne.WriteBack

/-!
# Settings

Four settings live in memory and in a store of bytes under short keys. A
schema key tells a new store from one that was written before. Every store
operation may fail, and one that fails leaves the store alone.
-/

set_option autoImplicit false

namespace StarkOne.Settings
open StarkOne.Machine StarkOne.WriteBack
open StarkOne.StoragePath (CStr)

inductive StarkSetting where
  | brightness
  | volume
  | repeatRate
  | logLevel
  deriving DecidableEq, Repr

def starkSettings : List StarkSetting := [.brightness,.volume,.repeatRate,.logLevel]

structure StarkSettingDesc where
  name : CStr
  key : CStr
  min : UInt8
  max : UInt8
  step : UInt8
  default : UInt8
  labels : Option (List CStr)

def kVolume : List CStr := ["Off".toList,"Low".toList,"Medium".toList,"High".toList]
def kRepeat : List CStr := ["Slow".toList,"Normal".toList,"Fast".toList]
def kLoglvl : List CStr := ["Error".toList,"Warn".toList,"Info".toList,"Debug".toList]

def kDesc : StarkSetting → StarkSettingDesc
  | .brightness => ⟨"brightness".toList,"bright".toList,10,100,10,100,none⟩
  | .volume => ⟨"volume".toList,"volume".toList,0,3,1,3,some kVolume⟩
  | .repeatRate => ⟨"repeat".toList,"repeat".toList,0,2,1,1,some kRepeat⟩
  | .logLevel => ⟨"loglvl".toList,"loglvl".toList,0,3,1,2,some kLoglvl⟩

/-- A key out of range is no setting. -/
def settingsDesc (key : Option StarkSetting) : Option StarkSettingDesc := key.map kDesc

def settingsValid (key : Option StarkSetting) (value : UInt8) : Bool :=
  match settingsDesc key with
  | none => false
  | some d => d.min ≤ value && value ≤ d.max && (value.toNat-d.min.toNat) % d.step.toNat = 0

def settingsSchema : UInt8 := 1
def schemaKey : CStr := "schema".toList
def storeKey (k : StarkSetting) : CStr := (kDesc k).key

abbrev Store := CStr → Option UInt8

/-- The store operations that fail. A read says that there is no such key only of a key
that is not there. -/
structure StoreFaults where
  get : CStr → Option Fault
  set : CStr → Option Fault
  commit : Option Fault
  truthful : ∀ key, get key ≠ some .notFound

def getU8 (f : StoreFaults) (s : Store) (key : CStr) : Except Fault UInt8 :=
  match f.get key, s key with
  | some e, _ => .error e
  | none, none => .error .notFound
  | none, some v => .ok v

inductive SettingsSource where
  | nvs
  | defaults
  | ram
  deriving DecidableEq, Repr

/-- Without a store the settings are kept in memory only. -/
structure SettingsCore where
  value : StarkSetting → UInt8
  dirty : StarkSetting → Bool
  schemaDirty : Bool
  store : Bool
  source : SettingsSource

inductive Hook where
  | changed (key : StarkSetting) (value : UInt8)
  | invalid (key : StarkSetting) (value : UInt8)
  deriving DecidableEq, Repr

/-- How many keys were written, the store behind it and the core behind it. -/
def settingsCoreCommit (f : StoreFaults) (s : Store) (c : SettingsCore) :
    Except Fault ℕ × Store × SettingsCore :=
  if !c.store then (.error .io,s,c)
  else match if c.schemaDirty then put f.set s schemaKey settingsSchema else .ok s with
    | .error e => (.error e,s,c)
    | .ok s => match flush f.set storeKey c.value c.dirty starkSettings 0 s with
      | (.error e,s) => (.error e,s,c)
      | (.ok n,s) =>
        if n = 0 && !c.schemaDirty then (.ok 0,s,c)
        else match f.commit with
          | some e => (.error e,s,c)
          | none => (.ok n,s,{ c with schemaDirty := false, dirty := fun _ => false })

def loadKey (f : StoreFaults) (s : Store) (k : StarkSetting) : UInt8 × Bool × List Hook :=
  match getU8 f s (storeKey k) with
  | .ok v =>
    if settingsValid (some k) v then (v,false,[])
    else ((kDesc k).default,true,[.invalid k v])
  | .error e =>
    if e ≠ .notFound then ((kDesc k).default,true,[.invalid k 0])
    else ((kDesc k).default,false,[])

def settingsCoreLoad (f : StoreFaults) (s : Store) (store : Bool) :
    Store × SettingsCore × List Hook :=
  let c : SettingsCore :=
    { value := fun k => (kDesc k).default, dirty := fun _ => false, schemaDirty := false,
      store := store, source := .ram }
  if !store then (s,c,[])
  else match getU8 f s schemaKey with
    | .error e =>
      if e = .notFound then
        -- a failure here is retried at the next commit
        let (_,s,c) := settingsCoreCommit f s { c with source := .defaults, schemaDirty := true }
        (s,c,[])
      else (s,{ c with store := false },[])
    | .ok _ =>
      (s,
        { c with
          source := .nvs, value := fun k => (loadKey f s k).1, dirty := fun k => (loadKey f s k).2.1 },
        starkSettings.flatMap fun k => (loadKey f s k).2.2)

def settingsCoreSet (c : SettingsCore) (key : Option StarkSetting) (value : UInt8) :
    Except Fault Unit × SettingsCore × List Hook :=
  match key with
  | none => (.error .invalidArg,c,[])
  | some k =>
    if !settingsValid (some k) value then (.error .invalidArg,c,[])
    else if c.value k ≠ value then
      (.ok (),
        { c with value := Function.update c.value k value, dirty := Function.update c.dirty k true },
        [.changed k value])
    else (.ok (),c,[])

def settingsCoreRestore (c : SettingsCore) : SettingsCore × List Hook :=
  starkSettings.foldl
    (fun r k =>
      let (_,c,hooks) := settingsCoreSet r.1 (some k) (kDesc k).default
      (c,r.2++hooks))
    (c,[])

structure State where
  store : Store
  core : Option SettingsCore

inductive Act where
  | load (f : StoreFaults) (store : Bool)
  | set (key : Option StarkSetting) (value : UInt8)
  | restore
  | commit (f : StoreFaults)

def step (s : State) : Act → Option State
  | .load f store =>
    let (store,c,_) := settingsCoreLoad f s.store store
    some ⟨store,some c⟩
  | .set key value => s.core.map fun c => { s with core := some (settingsCoreSet c key value).2.1 }
  | .restore => s.core.map fun c => { s with core := some (settingsCoreRestore c).1 }
  | .commit f => s.core.map fun c =>
    let (_,store,c) := settingsCoreCommit f s.store c
    ⟨store,some c⟩

def found (s : Store) (k : StarkSetting) : UInt8 := (s (storeKey k)).getD (kDesc k).default

theorem storeKey_injective : Function.Injective storeKey := by
  intro j k h
  cases j <;> cases k <;> first | rfl | (revert h; decide)

theorem storeKey_ne_schema (k : StarkSetting) : storeKey k ≠ schemaKey := by
  cases k <;> decide

theorem mem_starkSettings (k : StarkSetting) : k ∈ starkSettings := by
  cases k <;> decide

theorem default_valid (k : StarkSetting) : settingsValid (some k) (kDesc k).default = true := by
  cases k <;> decide

/-- A store without the schema key holds no settings. -/
def Whole (s : Store) : Prop := s schemaKey = none → ∀ k, s (storeKey k) = none

/-- A core's values are valid, and what is not marked is what a load finds. -/
structure Inv (s : Store) (c : SettingsCore) : Prop where
  valid : ∀ k, settingsValid (some k) (c.value k) = true
  schema : c.store = true → c.schemaDirty = false → s schemaKey ≠ none
  clean : c.store = true → ∀ k, c.dirty k = false → found s k = c.value k

def schemaPut (f : StoreFaults) (s : Store) (c : SettingsCore) : Except Fault Store :=
  if c.schemaDirty then put f.set s schemaKey settingsSchema else .ok s

theorem schemaPut_ok {f : StoreFaults} {s t : Store} {c : SettingsCore} (hi : Inv s c)
    (hc : c.store = true) (h : schemaPut f s c = .ok t) :
    t schemaKey ≠ none ∧ ∀ k, t (storeKey k) = s (storeKey k) := by
  unfold schemaPut at h
  split at h
  · rw [put_ok h]
    refine ⟨?_,fun k => Function.update_of_ne (storeKey_ne_schema k) _ _⟩
    rw [Function.update_self]
    simp
  · rename_i hd
    obtain rfl := Except.ok.inj h
    exact ⟨hi.schema hc (Bool.eq_false_of_not_eq_true hd),fun k => rfl⟩

theorem flushed (f : StoreFaults) (s : Store) (c : SettingsCore) (hs : s schemaKey ≠ none) :
    (flush f.set storeKey c.value c.dirty starkSettings 0 s).2 schemaKey ≠ none ∧
    (∀ k, c.dirty k = false →
      (flush f.set storeKey c.value c.dirty starkSettings 0 s).2 (storeKey k) = s (storeKey k)) ∧
    ∀ n, (flush f.set storeKey c.value c.dirty starkSettings 0 s).1 = .ok n →
      n = (starkSettings.filter c.dirty).length ∧ ∀ k, c.dirty k = true →
        (flush f.set storeKey c.value c.dirty starkSettings 0 s).2 (storeKey k) = some (c.value k) := by
  refine ⟨flush_present _ _ _ _ hs,fun k hk => flush_other _ _ _ _ fun j _ hj hjk => ?_,
    fun n hn => ⟨?_,fun k hk => flush_ok storeKey_injective _ _ n _ hn k (mem_starkSettings k) hk⟩⟩
  · rw [storeKey_injective hjk, hk] at hj
    cases hj
  · rw [flush_count _ _ _ _ hn, Nat.zero_add]

inductive Commits (f : StoreFaults) (s : Store) (c : SettingsCore) :
    Except Fault ℕ × Store × SettingsCore → Prop
  | refused (e : Fault) : Commits f s c (.error e,s,c)
  | partly (e : Fault) (t : Store) (hschema : t schemaKey ≠ none)
      (hother : ∀ k, c.dirty k = false → t (storeKey k) = s (storeKey k)) :
      Commits f s c (.error e,t,c)
  | done (n : ℕ) (t : Store) (d : SettingsCore) (hschema : t schemaKey ≠ none)
      (hother : ∀ k, c.dirty k = false → t (storeKey k) = s (storeKey k))
      (hwritten : ∀ k, c.dirty k = true → t (storeKey k) = some (c.value k))
      (hn : n = (starkSettings.filter c.dirty).length)
      (hd : d = { c with schemaDirty := false, dirty := fun _ => false }) (hc : c.store = true) :
      Commits f s c (.ok n,t,d)

theorem commit_commits (f : StoreFaults) (s : Store) (c : SettingsCore) (hi : Inv s c) :
    Commits f s c (settingsCoreCommit f s c) := by
  unfold settingsCoreCommit
  split
  · exact .refused _
  · rename_i hstore
    have hc : c.store = true := by simpa using hstore
    split
    · exact .refused _
    · rename_i t ht
      obtain ⟨hschema,hsame⟩ := schemaPut_ok hi hc ht
      obtain ⟨hpresent,hother,hok⟩ := flushed f t c hschema
      split
      · rename_i e u hu
        rw [hu] at hpresent hother
        exact .partly e u hpresent fun k hk => (hother k hk).trans (hsame k)
      · rename_i n u hu
        rw [hu] at hpresent hother hok
        obtain ⟨hn,hwritten⟩ := hok n rfl
        split
        · rename_i hnothing
          simp only [Bool.and_eq_true, decide_eq_true_eq, Bool.not_eq_true'] at hnothing
          obtain ⟨rfl,hsd⟩ := hnothing
          have hclean : ∀ k, c.dirty k = false := by
            intro k
            have hnil := List.length_eq_zero_iff.mp hn.symm
            simpa using List.filter_eq_nil_iff.mp hnil k (mem_starkSettings k)
          refine .done 0 u c hpresent (fun k hk => (hother k hk).trans (hsame k)) hwritten hn ?_ hc
          rw [← show c.dirty = fun _ => false from funext hclean, ← hsd]
        · split
          · exact .partly _ u hpresent fun k hk => (hother k hk).trans (hsame k)
          · exact .done n u _ hpresent (fun k hk => (hother k hk).trans (hsame k)) hwritten hn rfl hc

theorem found_eq {s t : Store} {k : StarkSetting} (h : t (storeKey k) = s (storeKey k)) :
    found t k = found s k := by
  unfold found
  rw [h]

/-- After a commit the core still fits the store, and after a successful one a load finds
every value. -/
theorem commit_inv (f : StoreFaults) (s : Store) (c : SettingsCore) (hw : Whole s) (hi : Inv s c)
    {r : Except Fault ℕ} {t : Store} {d : SettingsCore} (h : settingsCoreCommit f s c = (r,t,d)) :
    Whole t ∧ Inv t d ∧ d.value = c.value ∧
      (∀ e, r = .error e → d = c) ∧
      ∀ n, r = .ok n → n = (starkSettings.filter c.dirty).length ∧ t schemaKey ≠ none ∧
        ∀ k, d.dirty k = false ∧ found t k = c.value k := by
  have hcases := commit_commits f s c hi
  rw [h] at hcases
  cases hcases with
  | refused e => exact ⟨hw,hi,rfl,fun _ _ => rfl,fun n h => (by cases h)⟩
  | partly e _ hschema hother =>
    refine ⟨fun h => absurd h hschema,⟨hi.valid,fun _ _ => hschema,fun hc k hk => ?_⟩,rfl,
      fun _ _ => rfl,fun n h => (by cases h)⟩
    exact (found_eq (hother k hk)).trans (hi.clean hc k hk)
  | done n _ _ hschema hother hwritten hn hd hc =>
    have hfound : ∀ k, found t k = c.value k := by
      intro k
      by_cases hk : c.dirty k = true
      · unfold found
        rw [hwritten k hk]
        rfl
      · rw [Bool.not_eq_true] at hk
        exact (found_eq (hother k hk)).trans (hi.clean hc k hk)
    subst hd
    refine ⟨fun h => absurd h hschema,⟨hi.valid,fun _ _ => hschema,fun _ k _ => hfound k⟩,rfl,
      fun e h => (by cases h),fun m hm => ?_⟩
    cases hm
    exact ⟨hn,hschema,fun k => ⟨rfl,hfound k⟩⟩

theorem getU8_missing {f : StoreFaults} {s : Store} {key : CStr}
    (h : getU8 f s key = .error .notFound) : s key = none := by
  have htruthful := f.truthful key
  unfold getU8 at h
  split at h
  · rename_i e v he
    rw [he, Except.error.inj h] at htruthful
    exact absurd rfl htruthful
  · rename_i hs
    exact hs
  · cases h

theorem getU8_ok {f : StoreFaults} {s : Store} {key : CStr} {v : UInt8}
    (h : getU8 f s key = .ok v) : s key = some v := by
  unfold getU8 at h
  split at h
  · cases h
  · cases h
  · rename_i w _ hs
    rw [hs, Except.ok.inj h]

theorem loadKey_spec (f : StoreFaults) (s : Store) (k : StarkSetting) :
    settingsValid (some k) (loadKey f s k).1 = true ∧
      ((loadKey f s k).2.1 = false → found s k = (loadKey f s k).1) := by
  unfold loadKey found
  split
  · rename_i v hv
    split
    · rename_i hvalid
      exact ⟨hvalid,fun _ => by rw [getU8_ok hv]; rfl⟩
    · exact ⟨default_valid k,fun h => (by cases h)⟩
  · rename_i e he
    split
    · exact ⟨default_valid k,fun h => (by cases h)⟩
    · rename_i hnot
      rw [not_not] at hnot
      subst hnot
      exact ⟨default_valid k,fun _ => by rw [getU8_missing he]; rfl⟩

theorem load_inv (f : StoreFaults) (s : Store) (store : Bool) (hw : Whole s) {t : Store}
    {c : SettingsCore} {hooks : List Hook} (h : settingsCoreLoad f s store = (t,c,hooks)) :
    Whole t ∧ Inv t c := by
  unfold settingsCoreLoad at h
  dsimp only at h
  split at h
  · rename_i hstore
    cases h
    have hno : ¬ store = true := by simpa using hstore
    exact ⟨hw,default_valid,fun hc => absurd hc hno,fun hc => absurd hc hno⟩
  · split at h
    · rename_i e he
      split at h
      · -- a new store: nothing is found, and the schema key is pending
        rename_i hnot
        have hnone := hw (getU8_missing (hnot ▸ he))
        have hi : Inv s ⟨fun k => (kDesc k).default,fun _ => false,true,store,.defaults⟩ := by
          refine ⟨default_valid,fun _ h => (by cases h),fun _ k _ => ?_⟩
          unfold found
          rw [hnone k]
          rfl
        obtain ⟨hwt,hit,-⟩ := commit_inv f s _ hw hi (Prod.mk.eta (p := settingsCoreCommit f s _)).symm
        cases h
        exact ⟨hwt,hit⟩
      · cases h
        exact ⟨hw,default_valid,fun hc => (by cases hc),fun hc => (by cases hc)⟩
    · rename_i v hv
      cases h
      refine ⟨hw,fun k => (loadKey_spec f s k).1,fun _ _ => ?_,fun _ k hk => (loadKey_spec f s k).2 hk⟩
      rw [getU8_ok hv]
      simp

theorem set_inv (s : Store) (c : SettingsCore) (key : Option StarkSetting) (value : UInt8)
    (hi : Inv s c) : Inv s (settingsCoreSet c key value).2.1 := by
  unfold settingsCoreSet
  cases key with
  | none => exact hi
  | some k =>
    dsimp only
    split
    · exact hi
    · rename_i hvalid
      split
      · refine ⟨fun j => ?_,hi.schema,fun hc j hj => ?_⟩
        · dsimp only
          by_cases hjk : j = k
          · rw [hjk, Function.update_self]
            simpa using hvalid
          · rw [Function.update_of_ne hjk]
            exact hi.valid j
        · dsimp only at hj ⊢
          by_cases hjk : j = k
          · rw [hjk, Function.update_self] at hj
            cases hj
          · rw [Function.update_of_ne hjk] at hj ⊢
            exact hi.clean hc j hj
      · exact hi

theorem restore_inv (s : Store) (c : SettingsCore) (hi : Inv s c) :
    Inv s (settingsCoreRestore c).1 := by
  have hfold : ∀ ks : List StarkSetting, ∀ r : SettingsCore × List Hook, Inv s r.1 →
      Inv s (ks.foldl (fun r k =>
        let (_,c,hooks) := settingsCoreSet r.1 (some k) (kDesc k).default
        (c,r.2++hooks)) r).1 := by
    intro ks
    induction ks with
    | nil => exact fun r hr => hr
    | cons k ks ih => exact fun r hr => ih _ (set_inv s r.1 (some k) _ hr)
  exact hfold starkSettings (c,[]) hi

structure StateInv (s : State) : Prop where
  whole : Whole s.store
  core : ∀ c, s.core = some c → Inv s.store c

theorem stateInv_step (s : State) (a : Act) (t : State) (hi : StateInv s) (h : step s a = some t) :
    StateInv t := by
  cases a with
  | load f store =>
    cases h
    obtain ⟨hw,hc⟩ := load_inv f s.store store hi.whole (t := (settingsCoreLoad f s.store store).1)
      (c := (settingsCoreLoad f s.store store).2.1) rfl
    exact ⟨hw,fun c h => Option.some.inj h ▸ hc⟩
  | set key value =>
    obtain ⟨c,hc,rfl⟩ := Option.map_eq_some_iff.mp h
    exact ⟨hi.whole,fun d hd => Option.some.inj hd ▸ set_inv s.store c key value (hi.core c hc)⟩
  | restore =>
    obtain ⟨c,hc,rfl⟩ := Option.map_eq_some_iff.mp h
    exact ⟨hi.whole,fun d hd => Option.some.inj hd ▸ restore_inv s.store c (hi.core c hc)⟩
  | commit f =>
    obtain ⟨c,hc,rfl⟩ := Option.map_eq_some_iff.mp h
    obtain ⟨hw,hd,-⟩ := commit_inv f s.store c hi.whole (hi.core c hc)
      (t := (settingsCoreCommit f s.store c).2.1) (d := (settingsCoreCommit f s.store c).2.2) rfl
    exact ⟨hw,fun d h => Option.some.inj h ▸ hd⟩

theorem load_found (f : StoreFaults) (s : Store) (hreads : ∀ key, f.get key = none)
    (hschema : s schemaKey ≠ none) (hvalid : ∀ k, settingsValid (some k) (found s k) = true) :
    (settingsCoreLoad f s true).2.1.value = found s := by
  obtain ⟨v,hv⟩ := Option.ne_none_iff_exists'.mp hschema
  have hget : getU8 f s schemaKey = .ok v := by
    unfold getU8
    rw [hreads, hv]
  unfold settingsCoreLoad
  rw [hget]
  funext k
  show (loadKey f s k).1 = found s k
  have hk := hvalid k
  unfold loadKey getU8
  unfold found at hk ⊢
  rw [hreads]
  cases hs : s (storeKey k) with
  | none => rfl
  | some w =>
    rw [hs] at hk
    exact congrArg Prod.fst (if_pos hk)

/-- Whenever a commit succeeds, a fresh load gives the values it was made with. -/
def Durable (s : Store) (c : SettingsCore) : Prop :=
  ∀ f n t d, settingsCoreCommit f s c = (.ok n,t,d) → d.value = c.value ∧
    ∀ g, (∀ key, g.get key = none) → (settingsCoreLoad g t true).2.1.value = c.value

theorem durable_of_inv {s : State} (hi : StateInv s) {c : SettingsCore} (hc : s.core = some c) :
    Durable s.store c := by
  intro f n t d h
  obtain ⟨-,-,hvalue,-,hok⟩ := commit_inv f s.store c hi.whole (hi.core c hc) h
  obtain ⟨-,hschema,hfound⟩ := hok n rfl
  have hsame : found t = c.value := funext fun k => (hfound k).2
  refine ⟨hvalue,fun g hg => ?_⟩
  rw [load_found g t hg hschema (hsame ▸ (hi.core c hc).valid), hsame]

/-- In every run the values in memory are valid, a commit that succeeds makes them what a
fresh load gives, and one that fails changes nothing in memory, so that a later one does. -/
theorem settings_durable (store : Store)
    (hstart : store schemaKey ≠ none ∨ ∀ key, store key = none) (as : List Act) (s : State)
    (h : Run step Free ⟨store,none⟩ as s) (c : SettingsCore) (hc : s.core = some c) :
    (∀ k, settingsValid (some k) (c.value k) = true) ∧ Durable s.store c ∧
    ∀ f e t d, settingsCoreCommit f s.store c = (.error e,t,d) → d = c ∧
      ∀ bs u b, Run step Free ⟨t,some d⟩ bs u → u.core = some b → Durable u.store b := by
  have hi := run_invariant StateInv (fun s a t hi _ h => stateInv_step s a t hi h) as
    ⟨fun hnone k => (hstart.resolve_left fun h => h hnone) _,fun c hc => (by cases hc)⟩ h
  refine ⟨(hi.core c hc).valid,durable_of_inv hi hc,fun f e t d hcommit => ?_⟩
  obtain ⟨hw,hd,-,herr,-⟩ := commit_inv f s.store c hi.whole (hi.core c hc) hcommit
  refine ⟨herr e rfl,fun bs u b hu hb => ?_⟩
  have hj := run_invariant StateInv (fun s a t hi _ h => stateInv_step s a t hi h) bs
    ⟨hw,fun c hc => Option.some.inj hc ▸ hd⟩ hu
  exact durable_of_inv hj hb

def shakyRun : List Act :=
  [.load ⟨fun _ => none,fun _ => some .io,none,fun _ h => (by cases h)⟩ true,
    .set (some .brightness) 40,.set (some .volume) 1,
    .commit ⟨fun _ => none,fun key => if key = storeKey .volume then some .io else none,none,
      fun _ h => (by cases h)⟩]

theorem settings_durable_shaky : ∃ s c, Run step Free ⟨fun _ => none,none⟩ shakyRun s ∧
    s.core = some c ∧ c.value .brightness = 40 ∧ s.store (storeKey .brightness) = some 40 ∧
    c.dirty .brightness = true ∧ Durable s.store c := by
  obtain ⟨s,hs,hp⟩ := run_witness step (G := Free) (s := ⟨fun _ => none,none⟩)
    (p := fun s => (s.core.any fun c => c.value .brightness = 40 &&
      s.store (storeKey .brightness) = some 40 && c.dirty .brightness) = true)
    shakyRun (by decide +kernel) (by decide +kernel)
  obtain ⟨c,hc,hseen⟩ := (Option.any_eq_true _ _).mp hp
  simp only [Bool.and_eq_true, decide_eq_true_eq] at hseen
  exact ⟨s,c,hs,hc,hseen.1.1,hseen.1.2,hseen.2,
    (settings_durable _ (.inr fun _ => rfl) shakyRun s hs c hc).2.1⟩

end StarkOne.Settings
