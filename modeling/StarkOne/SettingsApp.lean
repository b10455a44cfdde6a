import StarkOne.MenuFrames
import StarkOne.SettingsApply

/-!
# The settings application

A menu of the settings with their values: LEFT and RIGHT go one step and stop at
the ends, OK goes on and wraps, and restoring the defaults is confirmed first.
What a key changes is on the screen with the next frame and on its way to the
service, while events, commits and other screens go on around it.
-/

set_option autoImplicit false

namespace StarkOne.SettingsApp
open StarkOne.Raster StarkOne.Gfx StarkOne.DisplayRender StarkOne.DisplayBands StarkOne.UiDamage
open StarkOne.UiFrames StarkOne.MenuModel StarkOne.MenuScreen StarkOne.MenuFrames StarkOne.Machine
open StarkOne.RingQueue StarkOne.EventCore StarkOne.WriteBack
open StarkOne.SettingsApply hiding step
open StarkOne.Settings hiding step kRepeat kVolume
open StarkOne.StoragePath (CStr)
open StarkOne.UiStack (StarkKey StarkKeyAction StarkDialogResult)

structure Owner (ρ : Type) where
  desk : Desk
  now : ℕ
  rest : ρ

def rowRestore : ℕ := 4

def ascii (s : CStr) : List UInt8 := s.map fun c => UInt8.ofNat c.toNat

def kItems : List UiMenuItem :=
  ["Brightness","Volume","Key repeat","Log level","Restore defaults"].map fun label =>
    ⟨some (ascii label.toList),false,false,none⟩

def settingAt (index : ℕ) : Option StarkSetting := starkSettings[index]?

section
variable {ρ : Type}

def ownValue (s : Owner ρ) (key : StarkSetting) : UInt8 := s.desk.core.value key

/-- The text of a value; none is the fault of a label outside its table. -/
def valueText (key : StarkSetting) (v : UInt8) : Option (List UInt8) :=
  match (kDesc key).labels with
  | some labels => labels[v.toNat-(kDesc key).min.toNat]?.map ascii
  | none => some (ascii (Nat.toDigits 10 v.toNat++['%']))

def stepped (d : StarkSettingDesc) (dir : ℤ) (wrap : Bool) (v : UInt8) : UInt8 :=
  let next := v.toNat+dir*d.step.toNat
  UInt8.ofInt
    (if d.max.toNat < next then if wrap then d.min.toNat else d.max.toNat
    else if next < d.min.toNat then d.min.toNat
    else next)

def step (index : ℕ) (dir : ℤ) (wrap : Bool) (s : Owner ρ) : Bool × Owner ρ :=
  match settingAt index with
  | none => (false,s)
  | some key =>
    let old := ownValue s key
    let v := stepped (kDesc key) dir wrap old
    let (err,desk) := starkSettingsSet (some key) v s.now s.desk
    (err = .ok && old ≠ v,{ s with desk := desk })

def adjust (index : ℕ) (dir : ℤ) (s : Owner ρ) : Bool × Owner ρ := step index dir false s

def setState (m : UiMenu (Owner ρ)) (s : Owner ρ) : UiMenu (Owner ρ) := { m with state := s }

end

inductive SettingsAct (ρ K : Type) where
  | launch
  | key (key : StarkKey) (action : StarkKeyAction)
  | confirmed (result : StarkDialogResult) (f : StoreFaults)
  | desk (act : SettingsApply.Act)
  | time (now : ℕ)
  | ui (act : UiAct (UiMenu (Owner ρ)) K)

section
variable {ρ K : Type} (b : Board) (menu : K)

def activate (i : ℕ) (r : Reaction (Owner ρ)) : UiAct (UiMenu (Owner ρ)) K :=
  let areas := r.areas.map fun area => (menu,area)
  if i = rowRestore then .update r.menu areas
  else
    let (changed,s) := step i 1 true r.menu.state
    .update (setState r.menu s) (areas++if changed then [(menu,uiContentRect)] else [])

/-- Keys and the dialog's answer come while the menu is the top screen; other tasks publish and take
events; and the other screens leave the settings and their menu alone. -/
def Allowed (sc : Screens (UiMenu (Owner ρ)) K) (glyphs : ℕ → UInt8) (hull : Box)
    (u : Ui (UiMenu (Owner ρ)) K) : SettingsAct ρ K → Prop
  | .launch => menu ∉ u.stack
  | .key _ _ => u.stack.head? = some menu
  | .confirmed _ _ => u.stack.head? = some menu
  | .desk act => ∀ key value ts, act ≠ .set key value ts
  | .ui act => Honest sc glyphs hull u act ∧
      match act with
      | .update m _ => m.items = u.state.items ∧ m.model = u.state.model ∧
          m.state.desk = u.state.state.desk
      | _ => True
  | _ => True

end

section
variable {ρ : Type}

theorem step_served {b : Board} (i : ℕ) (dir : ℤ) (wrap : Bool) {s : Owner ρ} (h : Served b s.desk) :
    Served b (step i dir wrap s).2.desk := by
  unfold step
  cases settingAt i with
  | none => exact h
  | some key => exact h.set (some key) _ s.now

end

section
variable {ρ K : Type} {b : Board} {menu : K} {sc : Screens (UiMenu (Owner ρ)) K} {glyphs : ℕ → UInt8}
variable {hull : Box} {u v : Ui (UiMenu (Owner ρ)) K}

structure Kept (b : Board) (m : UiMenu (Owner ρ)) : Prop extends Seated m where
  served : Served b m.state.desk
  items : m.items = kItems

theorem Kept.setState {m : UiMenu (Owner ρ)} (h : Kept b m) {s : Owner ρ} (hs : Served b s.desk) :
    Kept b (setState m s) :=
  ⟨h.toSeated.keep rfl rfl,hs,h.items⟩

end

end StarkOne.SettingsApp
