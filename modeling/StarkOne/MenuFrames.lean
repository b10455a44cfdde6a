import StarkOne.MenuScreen

/-!
# A menu in the frames of the screen stack

Every key of a menu, and every change of its items that is followed by a refresh,
invalidates all that it changes on the screen, so the menu on the panel is the
menu in the memory, with a selection that can be selected and can be seen.
-/

set_option autoImplicit false

namespace StarkOne.MenuFrames
open StarkOne.Raster StarkOne.Gfx StarkOne.DisplayBands StarkOne.DisplayRender
open StarkOne.UiDamage StarkOne.UiFrames StarkOne.MenuModel StarkOne.MenuScreen StarkOne.Machine
open StarkOne.UiStack (StarkKey StarkKeyAction)

section
variable {σ : Type}

/-- An adjustment changes the value of its own row at most, and none if it says so. -/
def Contained (calls : MenuCalls σ) : Prop :=
  ∀ adjust, calls.adjust = some adjust → ∀ value, calls.value = some value → ∀ i dir s j,
    j ≠ i ∨ (adjust i dir s).1 = false → value j (adjust i dir s).2 = value j s

structure Framed (m : UiMenu σ) : Prop where
  count : m.model.count = m.items.length
  visible : m.model.visible = visibleRows
  enabled : m.model.enabled = some (itemEnabled m.items)
  bounded : m.items.length < 2^32
  rows : m.model.visible < m.model.count → m.model.top+m.model.visible ≤ m.model.count
  first : m.model.top ≤ m.model.sel
  last : m.model.sel < m.model.top+m.model.visible
  listed : m.model.hasSel = true → m.model.sel < m.items.length

structure Seated (m : UiMenu σ) : Prop extends Framed m where
  selection : m.model.hasSel = true ↔ ∃ i < m.items.length, itemEnabled m.items i = true
  selected : m.model.hasSel = true → itemEnabled m.items m.model.sel = true

variable {calls : MenuCalls σ} {glyphs : ℕ → UInt8} {m m' : UiMenu σ}

theorem Framed.isEnabled (h : Framed m) (i : ℕ) : isEnabled m.model i = itemEnabled m.items i := by
  unfold MenuModel.isEnabled
  rw [h.enabled]

theorem Framed.inView (h : Framed m) : InView m m.model.sel :=
  ⟨h.first,h.visible ▸ h.last⟩

theorem Seated.keep (h : Seated m) (hitems : m'.items = m.items) (hmodel : m'.model = m.model) :
    Seated m' := by
  obtain ⟨items,model,state⟩ := m
  obtain ⟨items',model',state'⟩ := m'
  obtain rfl := hitems
  obtain rfl := hmodel
  exact ⟨⟨h.count,h.visible,h.enabled,h.bounded,h.rows,h.first,h.last,h.listed⟩,h.selection,h.selected⟩

theorem Framed.small (h : Framed m) : m.model.count < 2^32 := by
  rw [h.count]
  exact h.bounded

def Selects (m : UiMenu σ) (sel top : ℕ) : Prop :=
  Framed { m with model := { m.model with sel := sel, top := top } } ∧ sel < m.items.length ∧
    itemEnabled m.items sel = true

theorem Selects.seated {sel top : ℕ} (h : Selects m sel top) (hsel : m.model.hasSel = true) :
    Seated { m with model := { m.model with sel := sel, top := top } } :=
  ⟨h.1,⟨fun _ => ⟨sel,h.2⟩,fun _ => hsel⟩,fun _ => h.2.2⟩

theorem Framed.follow (h : Framed m) {i : ℕ} (hi : i < m.model.count)
    (hen : MenuModel.isEnabled m.model i = true) : ∃ top,
      follow { m.model with sel := i } = { m.model with sel := i, top := top } ∧ Selects m i top := by
  have hshown : 0 < m.model.visible := by
    rw [h.visible]
    decide
  have hlt : i < m.items.length := by
    rw [← h.count]
    exact hi
  obtain ⟨top,htop,hwindow⟩ :=
    follow_spec (m := { m.model with sel := i }) h.small hshown h.rows (.inl hi)
  exact ⟨top,htop,⟨h.count,h.visible,h.enabled,h.bounded,hwindow.rows,hwindow.first,hwindow.last,
    fun _ => hlt⟩,hlt,h.isEnabled i ▸ hen⟩

def Moves (m : UiMenu σ) (r : UiMenuModel × Bool) : Prop :=
  r = (m.model,false) ∨ ∃ sel top, r = ({ m.model with sel := sel, top := top },true) ∧
    m.model.hasSel = true ∧ Selects m sel top

theorem Framed.move (h : Framed m) (delta : ℤ) : Moves m (uiMenuModelMove m.model delta) := by
  unfold uiMenuModelMove
  split
  · exact .inl rfl
  · rename_i hgo
    rw [Bool.not_eq_true, Bool.or_eq_false_iff, Bool.not_eq_false'] at hgo
    have hpos : 0 < m.model.count := by
      rw [h.count]
      exact Nat.zero_lt_of_lt (h.listed hgo.1)
    split
    · rename_i i hi
      obtain ⟨hlt,hen⟩ := moveSteps_spec hpos _ _ hi
      obtain ⟨top,htop,hselects⟩ := h.follow hlt hen
      rw [htop]
      exact .inr ⟨i,top,rfl,hgo.1,hselects⟩
    · exact .inl rfl

theorem Framed.page (h : Framed m) (dir : ℤ) : Moves m (uiMenuModelPage m.model dir) := by
  unfold uiMenuModelPage
  split
  · exact .inl rfl
  · rename_i hgo
    rw [Bool.not_eq_true, Bool.or_eq_false_iff, Bool.not_eq_false'] at hgo
    have hsel : m.model.sel < m.model.count := by
      rw [h.count]
      exact h.listed hgo.1
    have htarget := pageTarget_lt h.small hsel dir
    dsimp only
    split
    · exact .inl rfl
    · rename_i hne
      obtain ⟨hlt,hen⟩ := pagePick_spec htarget dir (not_or.mp hne).1
      obtain ⟨top,htop,hselects⟩ := h.follow hlt hen
      rw [htop]
      exact .inr ⟨_,top,rfl,hgo.1,hselects⟩

theorem init_seated (items : List UiMenuItem) (hitems : items.length < 2^32) (state : σ) :
    Seated (uiMenuInit items state) := by
  obtain ⟨hplaced,hcount,hvisible,henabled,-⟩ := init_placed hitems visibleRows (some (itemEnabled items))
  have hen : ∀ i, isEnabled (uiMenuModelInit items.length visibleRows (some (itemEnabled items))) i =
      itemEnabled items i := by
    intro i
    unfold MenuModel.isEnabled
    rw [henabled]
  have hselection := hplaced.selection
  have hselected := hplaced.selected
  rw [hcount, hen] at hselected
  simp only [hcount, hen] at hselection
  exact ⟨⟨hcount,hvisible.trans (by decide),henabled,hitems,hplaced.rows,hplaced.first,hplaced.last,
    fun h => (hselected h).1⟩,hselection,fun h => (hselected h).2⟩

def refreshed (m : UiMenu σ) (items : List UiMenuItem) (state : σ) : UiMenu σ :=
  uiMenuRefresh (withItems { m with state := state } items)

theorem refresh_seated (h : Framed m) : Seated (uiMenuRefresh m) := by
  have hinit := init_seated m.items h.bounded m.state
  unfold uiMenuRefresh
  cases hsel : m.model.hasSel with
  | false =>
    simp only [Bool.false_and, Bool.false_eq_true, if_false]
    exact hinit
  | true =>
    cases hen : itemEnabled m.items m.model.sel with
    | true =>
      simp only [Bool.not_true, Bool.and_false, Bool.false_eq_true, if_false, if_true]
      exact ⟨h,⟨fun _ => ⟨_,h.listed hsel,hen⟩,fun _ => hsel⟩,fun _ => hen⟩
    | false =>
      simp only [Bool.not_false, Bool.and_true, if_true]
      rcases h.move 1 with hstay | ⟨sel,top,hmoved,-,hselects⟩
      · rw [hstay]
        exact hinit
      · rw [hmoved]
        exact hselects.seated hsel

theorem Framed.withItems (h : Framed m) {items : List UiMenuItem} (hlen : items.length = m.items.length)
    (state : σ) : Framed (withItems { m with state := state } items) :=
  ⟨h.count.trans hlen.symm,h.visible,rfl,hlen ▸ h.bounded,h.rows,h.first,h.last,
    fun hsel => hlen ▸ h.listed hsel⟩

theorem refreshed_seated (h : Framed m) {items : List UiMenuItem} (hlen : items.length = m.items.length)
    (state : σ) : Seated (refreshed m items state) := refresh_seated (h.withItems hlen state)

/-- What a reaction to a key must be: the menu stays in order, and all that changes on the screen is
in the areas. -/
structure Shown (calls : MenuCalls σ) (glyphs : ℕ → UInt8) (m : UiMenu σ) (r : Reaction σ) : Prop where
  seated : Seated r.menu
  areas : ∀ area ∈ r.areas, area = listRect ∨ ∃ i, InView m i ∧ area = rowRect m i
  covered : ∀ a b, (screen displayW displayH).Has a b → uiContentRect.window.Has a b →
    look (menuRender calls glyphs r.menu) a b = look (menuRender calls glyphs m) a b ∨
      ∃ area ∈ r.areas, area.window.Has a b

theorem shown_same (h : Seated m) {r : Reaction σ} (hm : r.menu = m) (hareas : r.areas = []) :
    Shown calls glyphs m r := by
  refine ⟨hm ▸ h,?_,fun _ _ _ _ => .inl (by rw [hm])⟩
  rw [hareas]
  exact List.forall_mem_nil _

theorem selectionChanged_shown (h : Seated m) {sel top : ℕ}
    (h' : Seated { m with model := { m.model with sel := sel, top := top } }) :
    Shown calls glyphs m (selectionChanged { m with model := { m.model with sel := sel, top := top } }
      m.model.sel m.model.top) := by
  unfold selectionChanged
  by_cases htop : top = m.model.top
  · subst htop
    have hsame : ¬({ m.model with sel := sel } : UiMenuModel).top ≠ m.model.top := fun hne => hne rfl
    have hdiffer : Differ calls [m.model.sel,sel] m { m with model := { m.model with sel := sel } } := by
      refine ⟨rfl,rfl,?_,?_⟩
      · simp only [List.forall_mem_cons]
        exact ⟨h.inView,⟨h'.first,h.visible ▸ h'.last⟩,List.forall_mem_nil _⟩
      · intro i hi
        simp only [List.mem_cons, List.not_mem_nil, or_false, not_or] at hi
        refine ⟨?_,rfl⟩
        unfold MenuScreen.selected
        simp [Ne.symm hi.1, Ne.symm hi.2]
    dsimp only
    rw [if_neg hsame]
    refine ⟨h',?_,fun a b hab _ => ?_⟩
    · simp only [List.forall_mem_cons]
      refine ⟨.inr ⟨_,h.inView,hdiffer.rowRect _⟩,
        .inr ⟨_,hdiffer.view sel (by simp),hdiffer.rowRect _⟩,List.forall_mem_nil _⟩
    · by_cases hout : ∀ i ∈ [m.model.sel,sel], ¬(rowRect m i).window.Has a b
      · exact .inl (hdiffer.look hab hout)
      · right
        push Not at hout
        obtain ⟨i,hi,hin⟩ := hout
        rw [← hdiffer.rowRect i] at hin
        rcases List.mem_cons.mp hi with rfl | hi
        · exact ⟨_,List.mem_cons_self,hin⟩
        · rw [List.mem_singleton.mp hi] at hin
          exact ⟨_,List.mem_cons_of_mem _ List.mem_cons_self,hin⟩
  · dsimp only
    rw [if_pos htop]
    exact ⟨h',List.forall_mem_singleton.mpr (.inl rfl),
      fun a b hab hcontent => .inr ⟨_,List.mem_singleton_self _,hcontent⟩⟩

theorem vertical_shown (h : Seated m) (delta : ℤ) : Shown calls glyphs m (vertical m delta) := by
  unfold vertical
  rcases h.move delta with hstay | ⟨sel,top,hmoved,hsel,hselects⟩
  · rw [hstay]
    exact shown_same h rfl rfl
  · rw [hmoved]
    exact selectionChanged_shown h (hselects.seated hsel)

theorem horizontal_shown (hcalls : Contained calls) (h : Seated m) (dir : ℤ) :
    Shown calls glyphs m (horizontal calls m dir) := by
  unfold horizontal
  cases hadjust : calls.adjust with
  | none =>
    dsimp only
    rcases h.page dir with hstay | ⟨sel,top,hmoved,hsel,hselects⟩
    · rw [hstay]
      exact shown_same h rfl rfl
    · rw [hmoved]
      exact selectionChanged_shown h (hselects.seated hsel)
  | some adjust =>
    dsimp only
    split
    swap
    · exact shown_same h rfl rfl
    -- The menu afterwards differs at most in the value of the row selected.
    have hdiffer : ∀ rows, (∀ i ∈ rows, InView m i) →
        (∀ j, j ∉ rows → j ≠ m.model.sel ∨ (adjust m.model.sel dir m.state).1 = false) →
        Differ calls rows m { m with state := (adjust m.model.sel dir m.state).2 } := by
      refine fun rows hview hrows => ⟨rfl,rfl,hview,fun j hj => ⟨rfl,?_⟩⟩
      cases hvalue : calls.value with
      | none => rfl
      | some value => exact hcalls adjust hadjust value hvalue _ _ _ _ (hrows j hj)
    have hseated : Seated { m with state := (adjust m.model.sel dir m.state).2 } := h.keep rfl rfl
    split
    · have hrow := hdiffer [m.model.sel] (List.forall_mem_singleton.mpr h.inView)
        fun j hj => .inl fun hsame => hj (hsame ▸ List.mem_singleton_self _)
      refine ⟨hseated,List.forall_mem_singleton.mpr (.inr ⟨_,h.inView,rfl⟩),fun a b hab _ => ?_⟩
      by_cases hin : (rowRect m m.model.sel).window.Has a b
      · exact .inr ⟨_,List.mem_singleton_self _,hin⟩
      · exact .inl (hrow.look hab (List.forall_mem_singleton.mpr hin))
    · rename_i hno
      have hnone := hdiffer [] (List.forall_mem_nil _) fun j _ => .inr (Bool.not_eq_true _ ▸ hno)
      exact ⟨hseated,List.forall_mem_nil _,fun a b hab _ => .inl (hnone.look hab (List.forall_mem_nil _))⟩

/-- All that a key changes on the screen is invalidated. -/
theorem menuEvent_shown (hcalls : Contained calls) (h : Seated m) (key : StarkKey)
    (action : StarkKeyAction) : Shown calls glyphs m (menuEvent calls m key action) := by
  have hsame : ∀ r : Reaction σ, r.menu = m → r.areas = [] → Shown calls glyphs m r :=
    fun _ hm hareas => shown_same h hm hareas
  unfold menuEvent
  dsimp only
  cases key with
  | up =>
    dsimp only
    split
    · exact vertical_shown h _
    · exact hsame _ rfl rfl
  | down =>
    dsimp only
    split
    · exact vertical_shown h _
    · exact hsame _ rfl rfl
  | left =>
    dsimp only
    split
    · exact horizontal_shown hcalls h _
    · exact hsame _ rfl rfl
  | right =>
    dsimp only
    split
    · exact horizontal_shown hcalls h _
    · exact hsame _ rfl rfl
  | ok =>
    dsimp only
    split_ifs
    all_goals exact hsame _ rfl rfl
  | back => exact hsame _ rfl rfl

@[simp] theorem refresh_items (m : UiMenu σ) : (uiMenuRefresh m).items = m.items := by
  unfold uiMenuRefresh
  dsimp only
  split_ifs
  all_goals rfl

theorem menuEvent_activated (calls : MenuCalls σ) (m : UiMenu σ) (key : StarkKey)
    (action : StarkKeyAction) : (menuEvent calls m key action).menu.items = m.items ∧
      ∀ i, (menuEvent calls m key action).activated = some i →
        (menuEvent calls m key action).menu = m ∧ i = m.model.sel ∧ m.model.hasSel = true := by
  have hnone : ∀ r : Reaction σ, r.menu.items = m.items → r.activated = none →
      r.menu.items = m.items ∧ ∀ i, r.activated = some i →
        r.menu = m ∧ i = m.model.sel ∧ m.model.hasSel = true := by
    intro r hitems hactivated
    refine ⟨hitems,fun i hi => ?_⟩
    rw [hactivated] at hi
    cases hi
  have hvertical : ∀ delta, (vertical m delta).menu.items = m.items ∧
      (vertical m delta).activated = none := by
    intro delta
    unfold vertical
    dsimp only
    split
    · exact ⟨rfl,rfl⟩
    · exact ⟨rfl,rfl⟩
  have hhorizontal : ∀ dir, (horizontal calls m dir).menu.items = m.items ∧
      (horizontal calls m dir).activated = none := by
    intro dir
    unfold horizontal
    dsimp only
    repeat' split
    all_goals exact ⟨rfl,rfl⟩
  unfold menuEvent
  dsimp only
  cases key with
  | up =>
    dsimp only
    split
    · exact hnone _ (hvertical _).1 (hvertical _).2
    · exact hnone _ rfl rfl
  | down =>
    dsimp only
    split
    · exact hnone _ (hvertical _).1 (hvertical _).2
    · exact hnone _ rfl rfl
  | left =>
    dsimp only
    split
    · exact hnone _ (hhorizontal _).1 (hhorizontal _).2
    · exact hnone _ rfl rfl
  | right =>
    dsimp only
    split
    · exact hnone _ (hhorizontal _).1 (hhorizontal _).2
    · exact hnone _ rfl rfl
  | ok =>
    dsimp only
    split
    · exact hnone _ rfl rfl
    split
    · exact hnone _ rfl rfl
    · rename_i hsel
      refine ⟨rfl,fun i hi => ?_⟩
      rw [Bool.not_eq_true, Bool.not_eq_false'] at hsel
      dsimp only at hi
      split at hi
      · exact ⟨rfl,(Option.some.inj hi).symm,hsel⟩
      · cases hi
  | back => exact hnone _ rfl rfl

theorem row_fits {hull : Box} (hscreen : screenBox ≤ hull) {i : ℕ} (hi : InView m i) :
    Fits hull (rowRect m i) := by
  obtain ⟨hlo,hhi⟩ := rowTop_bounds hi
  have hy := rowRect_y hi
  have hh := rowRect_h m i
  have hx : (rowRect m i).x.toInt = 0 := Int16.toInt_zero
  have hw : (rowRect m i).w.toInt ≤ 320 := by
    unfold rowRect
    dsimp only
    split
    · decide
    · decide
  intro _
  refine le_trans ?_ hscreen
  rw [Box.le_def]
  unfold toBox screenBox
  dsimp only
  omega

end

inductive MenuAct (σ K : Type) where
  | key (key : StarkKey) (action : StarkKeyAction)
  | refresh (items : List UiMenuItem) (state : σ)
  | ui (act : UiAct (UiMenu σ) K)

section
variable {σ K : Type} (calls : MenuCalls σ) (menu : K)

def uiAct (m : UiMenu σ) : MenuAct σ K → UiAct (UiMenu σ) K
  | .key key action =>
    let r := menuEvent calls m key action
    .update r.menu (r.areas.map fun area => (menu,area))
  | .refresh items state => .update (refreshed m items state) [(menu,listRect)]
  | .ui act => act

def menuStep [DecidableEq K] (sc : Screens (UiMenu σ) K) (glyphs : ℕ → UInt8) (bandH : Int16)
    (u : Ui (UiMenu σ) K) (a : MenuAct σ K) : Option (Ui (UiMenu σ) K) :=
  UiFrames.step sc glyphs bandH u (uiAct calls menu u.state a)

def stateAfter : UiAct (UiMenu σ) K → UiMenu σ → UiMenu σ
  | .update m _, _ => m
  | _, m => m

/-- A key goes to the top screen; a refresh keeps the number of items; nothing else moves the menu. -/
def Allowed (sc : Screens (UiMenu σ) K) (glyphs : ℕ → UInt8) (hull : Box) (u : Ui (UiMenu σ) K) :
    MenuAct σ K → Prop
  | .key _ _ => u.stack.head? = some menu
  | .refresh items _ => u.stack.head? = some menu ∧ items.length = u.state.items.length
  | .ui act => Honest sc glyphs hull u act ∧
      match act with
      | .update m _ => m.items = u.state.items ∧ m.model = u.state.model
      | _ => True

structure ShowsMenu (sc : Screens (UiMenu σ) K) (glyphs : ℕ → UInt8) : Prop where
  render : ∀ m, sc.onRender menu m = menuRender calls glyphs m
  overlay : sc.overlay menu = false
  title : ∀ m m', sc.name menu m = sc.name menu m'

variable {calls menu} {sc : Screens (UiMenu σ) K} {glyphs : ℕ → UInt8} {hull : Box}
variable {u v : Ui (UiMenu σ) K}

theorem look_clipped (r : GfxRect) {fn : RenderFn} (h : ∀ f ∈ fn, Uniform f) {a b : ℤ}
    (hab : Addressable a b) :
    look [clipped r fn] a b = if r.window.Has a b then look fn a b else none := by
  obtain ⟨p,hp⟩ := runFn_uniform h
  rw [look_draw (clipped_draw r hp) hab, look_eq hp hab.1 hab.2]
  rfl

theorem scene_congr (hshows : ShowsMenu calls menu sc glyphs) (htop : u.stack.head? = some menu)
    (m : UiMenu σ) {a b : ℤ} (hab : Addressable a b)
    (h : uiContentRect.window.Has a b →
      look (menuRender calls glyphs m) a b = look (menuRender calls glyphs u.state) a b) :
    look (renderBand sc glyphs { u with state := m }) a b = look (renderBand sc glyphs u) a b := by
  obtain ⟨rest,hstack⟩ : ∃ rest, u.stack = menu::rest := by
    cases hs : u.stack with
    | nil =>
      rw [hs] at htop
      cases htop
    | cons top rest =>
      rw [hs] at htop
      cases htop
      exact ⟨rest,rfl⟩
  have hscene : ∀ m', renderBand sc glyphs { u with state := m' } =
      uiStatusbarDraw glyphs u.storage (sc.name menu u.state)++
        [clipped uiContentRect (menuRender calls glyphs m')] := by
    intro m'
    unfold renderBand
    rw [hstack]
    dsimp only
    rw [hshows.overlay, hshows.render]
    simp only [Bool.false_eq_true, if_false, Option.getD_none, Option.elim_none, List.nil_append]
    rw [hshows.title m' u.state]
  have huniform : ∀ m', ∀ f ∈ menuRender calls glyphs m', Uniform f := fun _ => drawOps_uniform _
  have hclipped : ∀ m', ∀ f ∈ [clipped uiContentRect (menuRender calls glyphs m')], Uniform f :=
    fun m' => List.forall_mem_singleton.mpr (clipped_uniform _ (huniform m'))
  have hlook : ∀ m', look (renderBand sc glyphs { u with state := m' }) a b =
      (if uiContentRect.window.Has a b then look (menuRender calls glyphs m') a b else none).or
        (look (uiStatusbarDraw glyphs u.storage (sc.name menu u.state)) a b) := by
    intro m'
    rw [hscene, look_append (statusbar_uniform _ _ _) (hclipped m') hab,
      look_clipped _ (huniform m') hab]
  refine (hlook m).trans (Eq.trans ?_ (hlook u.state).symm)
  split
  · rename_i hin
    rw [h hin]
  · rfl

theorem uiAct_honest (hscreen : screenBox ≤ hull) (hcalls : Contained calls)
    (hshows : ShowsMenu calls menu sc glyphs) (hm : Seated u.state) {a : MenuAct σ K}
    (ha : Allowed menu sc glyphs hull u a) : Honest sc glyphs hull u (uiAct calls menu u.state a) := by
  cases a with
  | key key action =>
    have hshown : Shown calls glyphs u.state (menuEvent calls u.state key action) :=
      menuEvent_shown hcalls hm key action
    refine ⟨?_,.inr fun top htop a b hab => ?_⟩
    · intro r hr
      obtain ⟨area,harea,rfl⟩ := List.mem_map.mp hr
      rcases hshown.areas area harea with rfl | ⟨i,hi,rfl⟩
      · exact content_fits hscreen
      · exact row_fits hscreen hi
    · obtain rfl : menu = top := Option.some.inj (ha.symm.trans htop)
      by_cases hcovered : ∃ area ∈ (menuEvent calls u.state key action).areas, area.window.Has a b
      · obtain ⟨area,harea,hin⟩ := hcovered
        exact .inr ⟨_,List.mem_map_of_mem harea,rfl,hin⟩
      · exact .inl (scene_congr hshows ha _ (addressable_screen hab) fun hin =>
          (hshown.covered a b hab hin).resolve_right hcovered)
  | refresh items state =>
    refine ⟨List.forall_mem_singleton.mpr (content_fits hscreen),.inr fun top htop a b hab => ?_⟩
    obtain rfl : menu = top := Option.some.inj (ha.1.symm.trans htop)
    by_cases hin : uiContentRect.window.Has a b
    · exact .inr ⟨_,List.mem_singleton_self _,rfl,hin⟩
    · exact .inl (scene_congr hshows ha.1 _ (addressable_screen hab) fun hc => absurd hc hin)
  | ui act => exact ha.1

end

section
variable {σ K : Type} [DecidableEq K] {calls : MenuCalls σ} {menu : K} {sc : Screens (UiMenu σ) K}
variable {glyphs : ℕ → UInt8} {bandH : Int16} {hull : Box} {u v : Ui (UiMenu σ) K}

/-- A step of the stack changes the program's state only by an update. -/
theorem step_state {a : UiAct (UiMenu σ) K} (hs : UiFrames.step sc glyphs bandH u a = some v) :
    v.state = stateAfter a u.state := by
  cases a with
  | update m areas =>
    cases hs
    rfl
  | push k =>
    cases hs
    show _ = u.state
    unfold starkUiPush
    split_ifs
    all_goals rfl
  | entered =>
    rw [UiFrames.step, starkUiEntered] at hs
    split at hs
    · cases hs
      rfl
    · cases hs
  | pop =>
    cases hs
    show _ = u.state
    unfold starkUiPop
    split
    · rfl
    · rfl
  | left =>
    rw [UiFrames.step, starkUiLeft] at hs
    split at hs
    · cases hs
      rfl
    · cases hs
  | setStorage icon =>
    cases hs
    show _ = u.state
    unfold starkUiStatusSetStorage
    split
    · rfl
    · rfl
  | tick outcome =>
    rw [UiFrames.step] at hs
    split at hs
    · cases hs
      show _ = u.state
      unfold starkUiTick
      split
      · rfl
      dsimp only
      split
      · rfl
      · rfl
    · cases hs

theorem menuStep_seated (hcalls : Contained calls) (hm : Seated u.state) {a : MenuAct σ K}
    (ha : Allowed menu sc glyphs hull u a) (hs : menuStep calls menu sc glyphs bandH u a = some v) :
    Seated v.state := by
  have hstate := step_state hs
  cases a with
  | key key action =>
    have hshown : Shown calls glyphs u.state (menuEvent calls u.state key action) :=
      menuEvent_shown hcalls hm key action
    rw [hstate]
    exact hshown.seated
  | refresh items state =>
    rw [hstate]
    exact refreshed_seated hm.toFramed ha.2 state
  | ui act =>
    cases act with
    | update m areas =>
      obtain ⟨hitems,hmodel⟩ := ha.2
      rw [hstate]
      exact hm.keep hitems hmodel
    | _ => exact hstate ▸ hm

def Clean : MenuAct σ K → Prop
  | .ui act => Succeeds act
  | _ => True

theorem menuRun_lost {t : Ui (UiMenu σ) K} (as : List (MenuAct σ K)) (h : ∀ x y, u.lost x y = false)
    (hclean : ∀ a ∈ as, Clean a)
    (hrun : Run (menuStep calls menu sc glyphs bandH) (Allowed menu sc glyphs hull) u as t) :
    ∀ x y, t.lost x y = false := by
  induction as generalizing u with
  | nil => exact hrun ▸ h
  | cons a as ih =>
    obtain ⟨-,w,hw,hrest⟩ := hrun
    have ha : Succeeds (uiAct calls menu u.state a) := by
      cases a with
      | key key action => trivial
      | refresh items state => trivial
      | ui act => exact hclean _ List.mem_cons_self
    exact ih (step_lost ha h hw) (fun b hb => hclean b (List.mem_cons_of_mem _ hb)) hrest

/-- After a tick the panel shows the menu as it is, at every point whose last rendering did not fail,
and a selection that can be selected and is in the window whenever there is one. -/
theorem menu_on_screen (hull : Box) (hr : Roomy hull) (hscreen : screenBox ≤ hull)
    (bandH : Int16) (hb : 1 ≤ bandH.toInt) (calls : MenuCalls σ) (hcalls : Contained calls) (menu : K)
    (sc : Screens (UiMenu σ) K) (glyphs : ℕ → UInt8) (hshows : ShowsMenu calls menu sc glyphs)
    (items : List UiMenuItem) (hitems : items.length < 2^32) (state : σ) (before : Panel)
    (as : List (MenuAct σ K)) (outcome : GfxRect → Outcome) (t : Ui (UiMenu σ) K)
    (h : Run (menuStep calls menu sc glyphs bandH) (Allowed menu sc glyphs hull)
      (boot (uiMenuInit items state) before) (as++[.ui (.tick outcome)]) t) :
    (∀ a b, (screen displayW displayH).Has a b → t.lost a b = false →
      ∀ c, look (renderBand sc glyphs t) a b = some c → t.panel a b = c) ∧
    ((∀ a ∈ as++[.ui (.tick outcome)], Clean a) → ∀ a b, t.lost a b = false) ∧
    (t.state.model.hasSel = true ↔ ∃ i < t.state.items.length, itemEnabled t.state.items i = true) ∧
    (t.state.model.hasSel = true → itemEnabled t.state.items t.state.model.sel = true) ∧
    InView t.state t.state.model.sel := by
  have hstep : ∀ u a v, (Sound sc glyphs hull u ∧ Seated u.state) → Allowed menu sc glyphs hull u a →
      menuStep calls menu sc glyphs bandH u a = some v → Sound sc glyphs hull v ∧ Seated v.state :=
    fun u a v hu ha hs => ⟨step_sound hr hscreen hb hu.1 (uiAct_honest hscreen hcalls hshows hu.2 ha) hs,
      menuStep_seated hcalls hu.2 ha hs⟩
  have hboot : Sound sc glyphs hull (boot (uiMenuInit items state) before) ∧
      Seated (boot (K := K) (uiMenuInit items state) before).state :=
    ⟨boot_sound _ _,init_seated items hitems state⟩
  obtain ⟨-,hseated⟩ := run_invariant (fun u => Sound sc glyphs hull u ∧ Seated u.state) hstep _ hboot h
  obtain ⟨u,hu,-,v,hv,rfl⟩ := (run_append as [.ui (.tick outcome)]).mp h
  obtain ⟨hsound,-⟩ := run_invariant (fun u => Sound sc glyphs hull u ∧ Seated u.state) hstep as hboot hu
  exact ⟨fun a b hab hlost => tick_shows hr hscreen hb hsound hv hab hlost,
    fun hclean => menuRun_lost _ (fun _ _ => rfl) hclean h,hseated.selection,hseated.selected,
    hseated.inView⟩

end

def lamp (disabled : Bool) : List UiMenuItem :=
  [⟨some [0x48],false,true,none⟩,⟨some [0x41],false,false,none⟩,⟨some [0x42],disabled,false,none⟩]

def lampCalls : MenuCalls Bool :=
  ⟨some fun i on => if i = 1 then some (if on then [0x31] else [0x30]) else none,
    some fun i dir on => if i = 1 then (on != decide (0 < dir),0 < dir) else (false,on),false⟩

theorem lampCalls_contained : Contained lampCalls := by
  intro adjust hadjust value hvalue i dir on j h
  cases hadjust
  cases hvalue
  by_cases hj : j = 1
  · subst hj
    dsimp only
    by_cases hi : i = 1
    · subst hi
      rw [if_pos rfl, if_pos rfl, if_pos rfl]
      have hsame : on = decide (0 < dir) := by
        rcases h with h | h
        · exact absurd rfl h
        · simpa using h
      rw [hsame]
    · rw [if_neg hi]
  · dsimp only
    rw [if_neg hj, if_neg hj]

def lampScreens : Screens (UiMenu Bool) Unit where
  name _ _ := none
  overlay _ := false
  onRender _ m := menuRender lampCalls (fun _ => 0) m
  uniform _ _ := drawOps_uniform _

theorem menu_on_screen_lamp : ∃ t : Ui (UiMenu Bool) Unit,
    t.state.model.sel = 1 ∧ t.state.state = true ∧
      ∀ a b, (screen displayW displayH).Has a b →
        ∀ c, look (renderBand lampScreens (fun _ => 0) t) a b = some c → t.panel a b = c := by
  let good : MenuAct Bool Unit := .ui (.tick fun _ => ⟨.ok,0,fun _ _ => 0⟩)
  have hroomy : Roomy screenBox := ⟨by decide,by decide,by decide,by decide⟩
  have hshows : ShowsMenu lampCalls () lampScreens (fun _ => 0) := ⟨fun _ => rfl,rfl,fun _ _ => rfl⟩
  have hrun : ∃ t, Run (menuStep lampCalls () lampScreens (fun _ => 0) 40)
      (Allowed () lampScreens (fun _ => 0) screenBox)
      (boot (uiMenuInit (lamp false) false) fun _ _ => 0)
      ([.ui (.push ()),.ui .entered,good,.key .right .press,good,.key .down .press,
        .refresh (lamp true) true]++[good]) t ∧ t.state.model.sel = 1 ∧ t.state.state = true := by
    refine ⟨_,⟨⟨trivial,trivial⟩,_,rfl,⟨trivial,trivial⟩,_,rfl,⟨trivial,trivial⟩,_,rfl,rfl,_,rfl,
      ⟨trivial,trivial⟩,_,rfl,rfl,_,rfl,⟨rfl,rfl⟩,_,rfl,⟨trivial,trivial⟩,_,rfl,rfl⟩,?_,?_⟩
    · rfl
    · rfl
  obtain ⟨t,ht,hsel,hstate⟩ := hrun
  obtain ⟨hright,hlost,-⟩ := menu_on_screen screenBox hroomy (le_refl _) 40 (by decide) lampCalls
    lampCalls_contained () lampScreens (fun _ => 0) hshows (lamp false) (by decide) false (fun _ _ => 0)
    _ _ _ ht
  refine ⟨t,hsel,hstate,fun a b hab => hright a b hab (hlost ?_ a b)⟩
  simp only [List.forall_mem_append, List.forall_mem_cons]
  exact ⟨⟨trivial,trivial,fun _ => rfl,trivial,fun _ => rfl,trivial,trivial,List.forall_mem_nil _⟩,
    fun _ => rfl,List.forall_mem_nil _⟩

end StarkOne.MenuFrames
