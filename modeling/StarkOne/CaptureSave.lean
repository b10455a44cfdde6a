import Mathlib.Data.List.Basic
import StarkOne.IrNames
import StarkOne.Machine
import StarkOne.NumberedNames

/-!
# Saving captures under the next number

Both apps number their captures upwards from what a listing shows, and open
the next name later, on the card that is mounted by then. A save is a run of
locked calls, between which the card may go and another one come.
-/

set_option autoImplicit false

namespace StarkOne.CaptureSave
open StarkOne.Machine StarkOne.NumberedNames
open StarkOne.IrCodec StarkOne.IrRaw StarkOne.IrNames
open StarkOne.StoragePath (CStr tmpSuffix storageNameValid)

def irPattern : Pattern where
  head := "ir_".toList
  tail := ".ir".toList
  width := 4
  low := by decide

def nfcPattern : Pattern where
  head := "nfc_".toList
  tail := ".nfc".toList
  width := 4
  low := by decide

def nfcDumpNameMax : ℕ := 10000

def nfcDumpNameScan (highest : ℕ) (name : CStr) : ℕ := scan nfcPattern.number highest name

def nfcDumpNameNext (highest len : ℕ) : Except Fault CStr :=
  if len < 13 then .error .invalidArg
  else if nfcDumpNameMax ≤ highest+1 then .error .noSpace
  else .ok ("nfc_".toList++padded 4 (decimal (highest+1))++".nfc".toList)

def saveNameLen : ℕ := 16

inductive Saver where
  | ir (signal : IrSignal)
  | nfc (chunks : ℕ)

namespace Saver

def pattern : Saver → Pattern
  | .ir _ => irPattern
  | .nfc _ => nfcPattern

def highest : Saver → List CStr → ℕ
  | .ir _, listed => listed.foldl irNamesScan 0
  | .nfc _, listed => listed.foldl nfcDumpNameScan 0

def nextName : Saver → ℕ → Except Fault CStr
  | .ir _, highest => irNamesNext highest saveNameLen
  | .nfc _, highest => nfcDumpNameNext highest saveNameLen

def refused : Saver → Bool
  | .ir signal => irRawFormat signal irRawTextMax = []
  | .nfc _ => false

def chunks : Saver → ℕ
  | .ir _ => 1
  | .nfc n => n

end Saver

inductive Stage where
  | list
  | create (name : CStr) (listed : List CStr)
  | write (name : CStr) (generation left : ℕ)
  | close (name : CStr) (generation : ℕ)

/-- An open for an atomic write, with the directory that it meets. -/
structure Opening where
  saver : Saver
  name : CStr
  listed : List CStr
  present : List CStr

/-- The captures directory of the mounted card, and the worker of the running app. -/
structure Phone where
  card : Option (List CStr)
  generation : ℕ
  worker : Option (Saver × Stage)
  opened : List Opening

inductive Act where
  | remove
  | mount (names : List CStr)
  | save (saver : Saver)
  | list (ok : Bool) (seen : List CStr)
  | create (ok : Bool)
  | write (ok : Bool)
  | close (calls : ℕ) (io : Bool)

/-- The directory ignores the case of names. -/
def touch (name : CStr) (names : List CStr) : List CStr :=
  if names.any (fun n => lower n = lower name) then names else names++[name]

def unlink (name : CStr) (names : List CStr) : List CStr :=
  names.filter fun n => lower n ≠ lower name

def ended (d : Phone) : Phone := { d with worker := none }

def goOn (v : Saver) (stage : Stage) (d : Phone) : Phone := { d with worker := some (v,stage) }

def afterChunk (name : CStr) (generation : ℕ) : ℕ → Stage
  | 0 => .close name generation
  | left+1 => .write name generation (left+1)

/-- A listing shows names of the directory, less those whose `stat` fails, those behind a read
error and those that no open would take. -/
def listing (v : Saver) (seen : List CStr) (d : Phone) : Phone :=
  let listed := seen.filter storageNameValid
  match v.nextName (v.highest listed) with
  | .error _ => ended d
  | .ok name => if v.refused then ended d else goOn v (.create name listed) d

def creating (v : Saver) (name : CStr) (listed names : List CStr) (ok : Bool) (d : Phone) : Phone :=
  let d := { d with opened := ⟨v,name,listed,names⟩::d.opened }
  if ok then goOn v (afterChunk name d.generation v.chunks)
    { d with card := some (touch (name++tmpSuffix) names) }
  else ended d

/-- The names after a close whose first `calls` calls succeed: sync, close, the removal of the
old file and the renaming. After an I/O error the partial copy stays. -/
def closing (name : CStr) (calls : ℕ) (io : Bool) (names : List CStr) : List CStr :=
  let tmp := name++tmpSuffix
  let names := if 3 ≤ calls then unlink name names else names
  if 4 ≤ calls then unlink tmp names++[name]
  else if io then names
  else unlink tmp names

def current (d : Phone) (generation : ℕ) : Option (List CStr) :=
  if d.generation = generation then d.card else none

def step (d : Phone) : Act → Option Phone
  | .remove => some { d with card := none }
  | .mount names =>
    match d.card with
    | none => some { d with card := some names, generation := d.generation+1 }
    | some _ => none
  | .save v =>
    match d.worker with
    | none => some (goOn v .list d)
    | some _ => none
  | .list ok seen =>
    match d.worker, d.card with
    | some (_,.list), none => some (ended d)
    | some (v,.list), some names =>
      if !ok then some (ended d)
      else if seen.Sublist names then some (listing v seen d)
      else none
    | _, _ => none
  | .create ok =>
    match d.worker, d.card with
    | some (_,.create _ _), none => some (ended d)
    | some (v,.create name listed), some names => some (creating v name listed names ok d)
    | _, _ => none
  | .write ok =>
    match d.worker with
    | some (v,.write name generation left) =>
      match current d generation with
      | none => some (ended d)
      | some names =>
        if ok then some (goOn v (afterChunk name generation (left-1)) d)
        else some (ended { d with card := some (unlink (name++tmpSuffix) names) })
    | _ => none
  | .close calls io =>
    match d.worker with
    | some (_,.close name generation) =>
      match current d generation with
      | none => some (ended d)
      | some names => some (ended { d with card := some (closing name calls io names) })
    | _ => none

def booted : Phone := ⟨none,0,none,[]⟩

def Opening.Fresh (r : Opening) : Prop := ∀ q ∈ r.present, lower q ≠ lower r.name

def Clashes (p : Pattern) (listed present : List CStr) : Prop :=
  ∃ q ∈ present, ∃ m, p.number (lower q) = some m ∧ 0 < m ∧
    (m = 1 ∨ ∃ l ∈ listed, p.number l = some (m-1)) ∧
    ∀ l ∈ listed, ∀ k, p.number l = some k → k < m

/-- An open meets no file that the listing did not count. -/
def Counted (d : Phone) : Act → Prop
  | .create _ => ∀ v name listed names, d.worker = some (v,.create name listed) →
      d.card = some names → ¬Clashes v.pattern listed names
  | _ => True

section numbering

theorem irNameNumber_eq (name : CStr) : irNameNumber name = irPattern.number name := by
  have hvalue : ∀ digits : CStr,
      digits.foldl (fun n c => n*10+(c.toNat - '0'.toNat)) 0 = value digits := by
    intro digits
    rw [value, Nat.ofDigitChars_eq_foldl]
    simp only [Nat.mul_comm]
  have hpattern : irPattern.number name =
      if name.length ≠ 10 || name.take 3 ≠ "ir_".toList || name.drop 7 ≠ ".ir".toList then none
      else if ((name.drop 3).take 4).all (fun c => '0' ≤ c && c ≤ '9') then
        some (value ((name.drop 3).take 4))
      else none := rfl
  rw [hpattern, ← hvalue, irNameNumber]

theorem irNamesScan_eq (highest : ℕ) (name : CStr) :
    irNamesScan highest name = scan irPattern.number highest name := by
  cases h : irPattern.number name with
  | none => simp only [irNamesScan, scan, irNameNumber_eq, h]
  | some n => simp only [irNamesScan, scan, irNameNumber_eq, h]

theorem Saver.highest_eq (v : Saver) (listed : List CStr) :
    v.highest listed = listed.foldl (scan v.pattern.number) 0 := by
  cases v with
  | ir signal =>
    have hscan : irNamesScan = scan irPattern.number := by
      funext highest name
      exact irNamesScan_eq highest name
    show listed.foldl irNamesScan 0 = _
    rw [hscan]
    rfl
  | nfc chunks => rfl

theorem Saver.width (v : Saver) : v.pattern.width = 4 := by
  cases v <;> rfl

theorem Saver.nextName_ok {v : Saver} {highest : ℕ} {name : CStr}
    (h : v.nextName highest = .ok name) : highest+1 < 10^v.pattern.width ∧
      name = v.pattern.name (highest+1) := by
  cases v with
  | ir signal =>
    dsimp only [nextName, irNamesNext] at h
    rw [if_neg (show ¬saveNameLen < 11 by decide)] at h
    split at h
    · cases h
    · rename_i hlt
      exact ⟨Nat.not_le.mp hlt,(Except.ok.inj h).symm⟩
  | nfc chunks =>
    dsimp only [nextName, nfcDumpNameNext] at h
    rw [if_neg (show ¬saveNameLen < 13 by decide)] at h
    split at h
    · cases h
    · rename_i hlt
      exact ⟨Nat.not_le.mp hlt,(Except.ok.inj h).symm⟩

theorem fresh_iff {v : Saver} {listed present : List CStr} {name : CStr}
    (h : v.nextName (v.highest listed) = .ok name) :
    (∀ q ∈ present, lower q ≠ lower name) ↔ ¬Clashes v.pattern listed present := by
  obtain ⟨hlt,rfl⟩ := Saver.nextName_ok h
  have hw : 0 < v.pattern.width := by
    rw [v.width]
    decide
  have htop := le_foldl_scan v.pattern.number listed 0
  have hone := foldl_scan_cases v.pattern.number listed 0
  rw [← v.highest_eq] at htop hone
  constructor
  · rintro hfresh ⟨q,hq,m,hm,hpos,hbelow,habove⟩
    refine hfresh q hq ((Pattern.lower_eq_iff hw hlt q).mpr ?_)
    rw [hm]
    have hle : m ≤ v.highest listed+1 := by
      rcases hbelow with rfl | ⟨l,hl,hn⟩
      · omega
      · have := htop l hl _ hn
        omega
    have hge : v.highest listed+1 ≤ m := by
      rcases hone with h0 | ⟨l,hl,hn⟩
      · omega
      · exact habove l hl _ hn
    exact congrArg some (Nat.le_antisymm hle hge)
  · intro hclear q hq heq
    refine hclear ⟨q,hq,_,(Pattern.lower_eq_iff hw hlt q).mp heq,Nat.succ_pos _,?_,?_⟩
    · rcases hone with h0 | ⟨l,hl,hn⟩
      · exact Or.inl (by rw [h0])
      · exact Or.inr ⟨l,hl,hn⟩
    · intro l hl k hk
      exact Nat.lt_succ_of_le (htop l hl k hk)

theorem clear_of_listed {p : Pattern} {listed present : List CStr}
    (h : ∀ q ∈ present, ∀ m, p.number (lower q) = some m → q ∈ listed ∧ lower q = q) :
    ¬Clashes p listed present := by
  rintro ⟨q,hq,m,hm,-,-,habove⟩
  obtain ⟨hl,hlow⟩ := h q hq m hm
  rw [hlow] at hm
  exact Nat.lt_irrefl m (habove q hl m hm)

end numbering

section runs

def Named (d : Phone) : Prop :=
  ∀ v name listed, d.worker = some (v,.create name listed) →
    v.nextName (v.highest listed) = .ok name

def AllFresh (d : Phone) : Prop := ∀ r ∈ d.opened, r.Fresh

theorem named_ended (d : Phone) : Named (ended d) := fun _ _ _ h => by cases h

theorem named_goOn {v : Saver} {stage : Stage} (d : Phone)
    (hs : ∀ name listed, stage ≠ .create name listed) : Named (goOn v stage d) := by
  intro w name listed h
  exact absurd (Prod.mk.inj (Option.some.inj h)).2 (hs name listed)

theorem afterChunk_ne (name : CStr) (generation left : ℕ) (other : CStr) (listed : List CStr) :
    afterChunk name generation left ≠ .create other listed := by
  cases left <;> exact nofun

theorem listing_named (v : Saver) (seen : List CStr) (d : Phone) : Named (listing v seen d) := by
  unfold listing
  dsimp only
  split
  · exact named_ended d
  · rename_i name hname
    split
    · exact named_ended d
    · intro w other listed h
      cases h
      exact hname

theorem listing_opened (v : Saver) (seen : List CStr) (d : Phone) :
    (listing v seen d).opened = d.opened := by
  unfold listing
  dsimp only
  split
  · rfl
  · split <;> rfl

theorem creating_named (v : Saver) (name : CStr) (listed names : List CStr) (ok : Bool)
    (d : Phone) : Named (creating v name listed names ok d) := by
  unfold creating
  dsimp only
  split
  · exact named_goOn _ (afterChunk_ne _ _ _)
  · exact named_ended _

theorem creating_opened (v : Saver) (name : CStr) (listed names : List CStr) (ok : Bool)
    (d : Phone) : (creating v name listed names ok d).opened = ⟨v,name,listed,names⟩::d.opened := by
  unfold creating
  dsimp only
  split <;> rfl

/-- Only an open of a mounted card adds to the history. -/
theorem step_cases {d t : Phone} {a : Act} (hn : Named d) (h : step d a = some t) :
    Named t ∧ (t.opened = d.opened ∨ ∃ ok v name listed names, a = .create ok ∧
      d.worker = some (v,.create name listed) ∧ d.card = some names ∧
      t.opened = ⟨v,name,listed,names⟩::d.opened) := by
  cases a with
  | remove =>
    cases h
    exact ⟨hn,Or.inl rfl⟩
  | mount names =>
    dsimp only [step] at h
    split at h
    · cases h
      exact ⟨hn,Or.inl rfl⟩
    · cases h
  | save v =>
    dsimp only [step] at h
    split at h
    · cases h
      exact ⟨named_goOn d nofun,Or.inl rfl⟩
    · cases h
  | list ok seen =>
    dsimp only [step] at h
    split at h
    · cases h
      exact ⟨named_ended d,Or.inl rfl⟩
    · split at h
      · cases h
        exact ⟨named_ended d,Or.inl rfl⟩
      split at h
      · cases h
        exact ⟨listing_named _ seen d,Or.inl (listing_opened _ seen d)⟩
      · cases h
    · cases h
  | create ok =>
    dsimp only [step] at h
    split at h
    · cases h
      exact ⟨named_ended d,Or.inl rfl⟩
    · rename_i v name listed names hworker hcard
      cases h
      exact ⟨creating_named v name listed names ok d,
        Or.inr ⟨ok,v,name,listed,names,rfl,hworker,hcard,creating_opened _ _ _ _ _ _⟩⟩
    · cases h
  | write ok =>
    dsimp only [step] at h
    split at h
    · split at h
      · cases h
        exact ⟨named_ended d,Or.inl rfl⟩
      split at h
      · cases h
        exact ⟨named_goOn d (afterChunk_ne _ _ _),Or.inl rfl⟩
      · cases h
        exact ⟨named_ended _,Or.inl rfl⟩
    · cases h
  | close calls io =>
    dsimp only [step] at h
    split at h
    · split at h
      · cases h
        exact ⟨named_ended d,Or.inl rfl⟩
      · cases h
        exact ⟨named_ended _,Or.inl rfl⟩
    · cases h

theorem step_inv {d t : Phone} {a : Act} (hd : Named d ∧ AllFresh d) (hg : Counted d a)
    (h : step d a = some t) : Named t ∧ AllFresh t := by
  obtain ⟨hn,hopened⟩ := step_cases hd.1 h
  refine ⟨hn,?_⟩
  rcases hopened with heq | ⟨ok,v,name,listed,names,rfl,hworker,hcard,heq⟩
  · rw [AllFresh, heq]
    exact hd.2
  · intro r hr
    rw [heq] at hr
    rcases List.mem_cons.mp hr with rfl | hr
    · exact (fresh_iff (hd.1 v name listed hworker)).mpr (hg v name listed names hworker hcard)
    · exact hd.2 r hr

/-- The first open that meets a file out of the count meets it under the name it opens. -/
theorem step_bad {d t : Phone} {a : Act} (hd : Named d) (hg : ¬Counted d a)
    (h : step d a = some t) : ¬AllFresh t := by
  cases a with
  | create ok =>
    simp only [Counted, not_forall, not_not] at hg
    obtain ⟨v,name,listed,names,hworker,hcard,hclash⟩ := hg
    simp only [step, hworker, hcard] at h
    cases h
    intro hall
    have hfresh := hall ⟨v,name,listed,names⟩ (by
      rw [creating_opened]
      exact List.mem_cons_self)
    exact (fresh_iff (hd v name listed hworker)).mp hfresh hclash
  | _ => exact absurd trivial hg

/-- No save ever opens the name of a file that is there, exactly in the runs whose opens meet
no file that the listing did not count. -/
theorem saves_fresh_iff (as : List Act) (t : Phone) (h : Run step Free booted as t) :
    (∀ bs cs u, as = bs++cs → Run step Free booted bs u → AllFresh u) ↔
      Run step Counted booted as t := by
  refine run_guard_exact (fun d => Named d ∧ AllFresh d) AllFresh
    (fun s a u hs hg hu => step_inv hs hg hu) (fun s hs => hs.2)
    (fun s a u hs hg hu => step_bad hs.1 hg hu) as ⟨?_,?_⟩ h
  · exact fun _ _ _ h => by cases h
  · exact fun _ h => by cases h

def blip : IrSignal := ⟨[560],38000,noFrame⟩

def savedNames (seen : List CStr) : List Act :=
  [.mount seen,.save (.ir blip),.list true seen,.create true,.write true,.close 4 false]

/-- On a card with one capture of the app's own the next number is free. -/
theorem saves_fresh_second : ∃ t, Run step Free booted (savedNames ["ir_0001.ir".toList]) t ∧
    t.card = some ["ir_0001.ir".toList,"ir_0002.ir".toList] ∧ AllFresh t := by
  have hclear : ¬Clashes irPattern ["ir_0001.ir".toList] ["ir_0001.ir".toList] := by
    apply clear_of_listed
    intro q hq _ _
    rw [List.mem_singleton.mp hq]
    exact ⟨List.mem_cons_self,by decide⟩
  have hrun : Run step Counted booted (savedNames ["ir_0001.ir".toList]) _ :=
    ⟨trivial,_,rfl,trivial,_,rfl,trivial,_,rfl,
      fun v name listed names hw hc => (by cases hw; cases hc; exact hclear),_,rfl,
      trivial,_,rfl,trivial,_,rfl,rfl⟩
  have hfree := run_weaken (H := Free) (fun _ _ _ => trivial) _ hrun
  exact ⟨_,hfree,by decide,(saves_fresh_iff _ _ hfree).mpr hrun _ [] _ (by simp) hfree⟩

/-- A capture in capital letters is not counted, and its file is replaced. -/
theorem save_replaces : ∃ t, Run step Free booted (savedNames ["IR_0001.IR".toList]) t ∧
    t.card = some ["ir_0001.ir".toList] ∧ ¬AllFresh t := by
  refine ⟨_,⟨trivial,_,rfl,trivial,_,rfl,trivial,_,rfl,trivial,_,rfl,trivial,_,rfl,
    trivial,_,rfl,rfl⟩,by decide,fun h => ?_⟩
  exact h _ List.mem_cons_self "IR_0001.IR".toList (by decide) (by decide)

end runs

end StarkOne.CaptureSave
