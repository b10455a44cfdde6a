import StarkOne.Grouping
import StarkOne.IrNames

/-!
# The launcher's catalogue

Apps are sorted by where their category first appears in the registry, and
then by title. The rows of the launcher have a header where the category
changes; the sort has left the apps of a category next to one another.
-/

set_option autoImplicit false

namespace StarkOne.AppCatalog
open StarkOne.StoragePath (CStr)
open StarkOne.IrNames (strcmp)
open StarkOne.Grouping

variable {α : Type}

structure StarkApp (α : Type) where
  title : Option CStr
  category : Option CStr
  rest : α

def cmpStr (a b : Option CStr) : Ordering := strcmp (a.getD []) (b.getD [])

def rank (apps : List (StarkApp α)) (category : Option CStr) : ℕ :=
  apps.findIdx fun a => cmpStr a.category category = .eq

def stays (apps : List (StarkApp α)) (prev app : StarkApp α) : Bool :=
  let r := rank apps app.category
  let rp := rank apps prev.category
  rp < r || (rp = r && (cmpStr prev.title app.title).isLE)

/-- The apps written already, the last of them first: those that do not stay move up by one. -/
def insertApp (apps : List (StarkApp α)) (app : StarkApp α) : List (StarkApp α) → List (StarkApp α)
  | [] => [app]
  | prev::before => if stays apps prev app then app::prev::before
      else prev::insertApp apps app before

def appCatalogSort (apps : List (StarkApp α)) (max : ℕ) : List (StarkApp α) :=
  let count := if apps.length < max then apps.length else max
  ((apps.take count).foldl (fun out app => insertApp apps app out) []).reverse

structure AppCatalogRow (α : Type) where
  header : Option CStr
  app : Option (StarkApp α)

def headerRow (cat : CStr) : AppCatalogRow α := ⟨some cat,none⟩
def appRow (app : StarkApp α) : AppCatalogRow α := ⟨none,some app⟩

def categoryOf (app : StarkApp α) : CStr := app.category.getD []

def layoutLoop (max : ℕ) (prev : Option (StarkApp α)) (rows : List (AppCatalogRow α)) :
    List (StarkApp α) → List (AppCatalogRow α)
  | [] => rows
  | app::sorted =>
    if max ≤ rows.length then rows
    else
      let cat := categoryOf app
      if prev.all fun p => cmpStr p.category (some cat) ≠ .eq then
        let rows := rows++[headerRow cat]
        if rows.length = max then rows
        else layoutLoop max (some app) (rows++[appRow app]) sorted
      else layoutLoop max (some app) (rows++[appRow app]) sorted

def appCatalogLayout (sorted : List (StarkApp α)) (max : ℕ) : List (AppCatalogRow α) :=
  layoutLoop max none [] sorted

theorem strcmp_compareLex (a b : CStr) :
    strcmp a b = List.compareLex (compareOn Char.toNat) a b := by
  induction a generalizing b with
  | nil => cases b <;> rfl
  | cons x a ih =>
    cases b with
    | nil => rfl
    | cons y b =>
      rw [List.compareLex_cons_cons, ← ih]
      rfl

theorem cmpStr_eq {a b : Option CStr} : cmpStr a b = .eq ↔ a.getD [] = b.getD [] := by
  have hchar : Std.LawfulEqCmp (compareOn Char.toNat) :=
    { compare_self := Std.ReflCmp.compare_self
      eq_of_compare := fun h => Char.toNat_inj.mp (Nat.compare_eq_eq.mp h) }
  rw [cmpStr, strcmp_compareLex]
  exact Std.LawfulEqCmp.compare_eq_iff_eq

theorem cmpStr_total (a b : Option CStr) : (cmpStr a b).isLE ∨ (cmpStr b a).isLE := by
  simp only [cmpStr, strcmp_compareLex]
  by_cases h : (List.compareLex (compareOn Char.toNat) (a.getD []) (b.getD [])).isLE
  · exact .inl h
  · right
    rw [Std.OrientedCmp.lt_of_not_isLE h]
    rfl

theorem cmpStr_trans {a b c : Option CStr} (hab : (cmpStr a b).isLE) (hbc : (cmpStr b c).isLE) :
    (cmpStr a c).isLE := by
  simp only [cmpStr, strcmp_compareLex] at hab hbc ⊢
  exact Std.TransCmp.isLE_trans hab hbc

section
variable {apps : List (StarkApp α)} {a b c : StarkApp α}

theorem stays_iff : stays apps a b = true ↔ rank apps a.category < rank apps b.category ∨
    rank apps a.category = rank apps b.category ∧ (cmpStr a.title b.title).isLE := by
  simp [stays]

theorem stays_total (a b : StarkApp α) : stays apps a b = true ∨ stays apps b a = true := by
  rw [stays_iff, stays_iff]
  have htitle := cmpStr_total a.title b.title
  rcases Nat.lt_trichotomy (rank apps a.category) (rank apps b.category) with hlt | heq | hgt
  · exact .inl (.inl hlt)
  · exact htitle.imp (fun h => .inr ⟨heq,h⟩) fun h => .inr ⟨heq.symm,h⟩
  · exact .inr (.inl hgt)

theorem stays_trans (hab : stays apps a b = true) (hbc : stays apps b c = true) :
    stays apps a c = true := by
  rw [stays_iff] at hab hbc ⊢
  rcases hab with hab | ⟨hab,htitle⟩ <;> rcases hbc with hbc | ⟨hbc,htitle'⟩
  · exact .inl (hab.trans hbc)
  · exact .inl (hbc ▸ hab)
  · exact .inl (hab ▸ hbc)
  · exact .inr ⟨hab.trans hbc,cmpStr_trans htitle htitle'⟩

end

def sameKey (apps : List (StarkApp α)) (a b : StarkApp α) : Bool :=
  rank apps a.category = rank apps b.category && cmpStr a.title b.title = .eq

def later (apps : List (StarkApp α)) (a b : StarkApp α) : Prop := stays apps b a = true

instance (apps : List (StarkApp α)) : DecidableRel (later apps) :=
  fun a b => inferInstanceAs (Decidable (stays apps b a = true))

instance (apps : List (StarkApp α)) : Std.Total (later apps) := ⟨fun a b => stays_total b a⟩

instance (apps : List (StarkApp α)) : IsTrans (StarkApp α) (later apps) :=
  ⟨fun _ _ _ hab hbc => stays_trans hbc hab⟩

theorem insertApp_ordered (apps : List (StarkApp α)) (app : StarkApp α) (out : List (StarkApp α)) :
    insertApp apps app out = out.orderedInsert (later apps) app := by
  induction out with
  | nil => rfl
  | cons prev before ih =>
    rw [insertApp, List.orderedInsert_cons, ih]
    rfl

theorem sort_insertion (apps : List (StarkApp α)) {max : ℕ} (h : apps.length ≤ max) :
    appCatalogSort apps max = (apps.reverse.insertionSort (later apps)).reverse := by
  have hcount : (if apps.length < max then apps.length else max) = apps.length := by
    split <;> omega
  unfold appCatalogSort
  dsimp only
  simp only [hcount, List.take_length, insertApp_ordered, List.foldl_eq_foldr_reverse]
  rfl

section
variable {apps : List (StarkApp α)} {max : ℕ}

theorem sort_perm (h : apps.length ≤ max) : (appCatalogSort apps max).Perm apps := by
  rw [sort_insertion apps h]
  exact (List.reverse_perm _).trans ((List.perm_insertionSort _ _).trans (List.reverse_perm _))

theorem sort_pairwise (h : apps.length ≤ max) :
    (appCatalogSort apps max).Pairwise fun a b => stays apps a b = true := by
  rw [sort_insertion apps h, List.pairwise_reverse]
  exact List.pairwise_insertionSort (later apps) _

theorem sort_stable (h : apps.length ≤ max) (a : StarkApp α) :
    (appCatalogSort apps max).filter (sameKey apps a) = apps.filter (sameKey apps a) := by
  rw [sort_insertion apps h, List.filter_reverse, filter_insertionSort, List.filter_reverse,
    List.reverse_reverse]
  intro b c hb hc
  simp only [sameKey, Bool.and_eq_true, decide_eq_true_eq, cmpStr_eq] at hb hc
  refine stays_iff.mpr (.inr ⟨hc.1.symm.trans hb.1,?_⟩)
  rw [cmpStr_eq.mpr (hc.2.symm.trans hb.2)]
  rfl

end

/-- With two rows for each app the rows are never full. -/
theorem layoutLoop_rows {max : ℕ} (prev : Option (StarkApp α)) (rows : List (AppCatalogRow α))
    (sorted : List (StarkApp α)) (h : rows.length+2*sorted.length ≤ max) :
    layoutLoop max prev rows sorted =
      rows++rowsFrom categoryOf headerRow appRow (prev.map categoryOf) sorted := by
  induction sorted generalizing prev rows with
  | nil => exact (List.append_nil rows).symm
  | cons app sorted ih =>
    rw [List.length_cons] at h
    have hfresh : (prev.all fun p => cmpStr p.category (some (categoryOf app)) ≠ .eq) = true ↔
        ¬prev.map categoryOf = some (categoryOf app) := by
      cases prev with
      | none => simp
      | some p => simp [cmpStr_eq, categoryOf]
    unfold layoutLoop rowsFrom
    rw [if_neg (by omega)]
    dsimp only
    by_cases hsame : prev.map categoryOf = some (categoryOf app)
    · rw [if_neg fun hc => hfresh.mp hc hsame, if_pos hsame, ih _ _ (by simp; omega)]
      simp
    · rw [if_pos (hfresh.mpr hsame), if_neg hsame, if_neg (by simp; omega), ih _ _ (by simp; omega)]
      simp

def categories (apps : List (StarkApp α)) : Set CStr := {c | ∃ a ∈ apps, categoryOf a = c}

theorem rank_found {apps : List (StarkApp α)} {c : CStr} (h : c ∈ categories apps) :
    ∃ a, apps[rank apps (some c)]? = some a ∧ categoryOf a = c := by
  obtain ⟨b,hb,hc⟩ := h
  have hlt : rank apps (some c) < apps.length :=
    List.findIdx_lt_length_of_exists ⟨b,hb,decide_eq_true (cmpStr_eq.mpr hc)⟩
  have hsame := List.findIdx_getElem (w := hlt)
  exact ⟨apps[rank apps (some c)],List.getElem?_eq_getElem hlt,cmpStr_eq.mp (of_decide_eq_true hsame)⟩

theorem rank_injOn (apps : List (StarkApp α)) :
    Set.InjOn (fun c => rank apps (some c)) (categories apps) := by
  intro c hc d hd hcd
  obtain ⟨a,ha,hac⟩ := rank_found hc
  obtain ⟨b,hb,hbd⟩ := rank_found hd
  have hsame : some a = some b := by
    rw [← ha, ← hb]
    exact congrArg (fun k => apps[k]?) hcd
  rw [← hac, ← hbd, Option.some.inj hsame]

/-- The catalogue is the apps in order, grouped by category under their headers. -/
theorem catalogue_grouped (apps : List (StarkApp α)) {max : ℕ} (h : apps.length ≤ max) :
    (appCatalogSort apps max).Perm apps ∧
    ((appCatalogSort apps max).Pairwise fun a b => rank apps a.category < rank apps b.category ∨
      rank apps a.category = rank apps b.category ∧ (cmpStr a.title b.title).isLE) ∧
    (∀ a, (appCatalogSort apps max).filter (sameKey apps a) = apps.filter (sameKey apps a)) ∧
    (appCatalogLayout (appCatalogSort apps max) (2*apps.length)).filterMap AppCatalogRow.app =
      appCatalogSort apps max ∧
    (appCatalogLayout (appCatalogSort apps max) (2*apps.length)).length ≤ 2*apps.length ∧
    ∃ cats : List CStr, cats.Nodup ∧ (∀ c, c ∈ cats ↔ ∃ a ∈ apps, categoryOf a = c) ∧
      appCatalogLayout (appCatalogSort apps max) (2*apps.length) = cats.flatMap fun c =>
        headerRow c::((appCatalogSort apps max).filter fun a => categoryOf a = c).map appRow := by
  have hperm := sort_perm h
  have hsorted := (sort_pairwise h).imp fun hab => stays_iff.mp hab
  have hrows : appCatalogLayout (appCatalogSort apps max) (2*apps.length) =
      rowsFrom categoryOf headerRow appRow none (appCatalogSort apps max) :=
    layoutLoop_rows none [] _ (by rw [hperm.length_eq, List.length_nil, Nat.zero_add])
  have hkeys : ∀ a ∈ appCatalogSort apps max, categoryOf a ∈ categories apps :=
    fun a ha => ⟨a,hperm.mem_iff.mp ha,rfl⟩
  have hranks : (appCatalogSort apps max).Pairwise fun a b =>
      rank apps (some (categoryOf a)) ≤ rank apps (some (categoryOf b)) :=
    hsorted.imp fun hab => hab.elim Nat.le_of_lt fun heq => heq.1.le
  have hheads := headsFrom_pairwise (rank_injOn apps) hkeys hranks none
  refine ⟨hperm,hsorted,sort_stable h,?_,?_,headsFrom categoryOf none (appCatalogSort apps max),
    ?_,?_,?_⟩
  · have hhead : ∀ c, (headerRow c : AppCatalogRow α).app = none := fun _ => rfl
    rw [hrows]
    exact rowsFrom_items hhead (fun _ => rfl) none _
  · rw [hrows, ← hperm.length_eq]
    exact rowsFrom_length categoryOf headerRow appRow none _
  · refine hheads.imp fun {c d} (hlt : rank apps (some c) < rank apps (some d)) (heq : c = d) => ?_
    rw [heq] at hlt
    exact lt_irrefl _ hlt
  · intro c
    constructor
    · intro hc
      obtain ⟨a,ha,hac⟩ := headsFrom_mem hc
      exact ⟨a,hperm.mem_iff.mp ha,hac⟩
    · rintro ⟨a,ha,rfl⟩
      exact (mem_headsFrom (hperm.mem_iff.mpr ha)).resolve_left (by simp)
  · rw [hrows, rowsFrom_groups (rank_injOn apps) hkeys hranks (by simp)]
    simp

def registry : List (StarkApp ℕ) :=
  [⟨some "Same".toList,some "Lab".toList,1⟩,⟨some "About".toList,none,2⟩,
    ⟨some "Same".toList,some "Lab".toList,3⟩,⟨some "Buzzer Test".toList,some "Lab".toList,4⟩]

theorem catalogue_grouped_registry :
    ((appCatalogLayout (appCatalogSort registry 4) 8).map fun row =>
      (row.header,row.app.map (·.rest))) =
      [(some "Lab".toList,none),(none,some 4),(none,some 1),(none,some 3),
       (some [],none),(none,some 2)] ∧
    (appCatalogLayout (appCatalogSort registry 4) 8).length ≤ 8 :=
  ⟨by decide +kernel,(@catalogue_grouped ℕ registry 4 (by decide)).2.2.2.2.1⟩

end StarkOne.AppCatalog
