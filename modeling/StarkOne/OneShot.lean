import Mathlib.Data.List.Basic

/-!
# One-shot timers with late callbacks

A one-shot timer that is armed for a due time, never expires early, and refuses
a second arming while it is armed. Stopping it does not recall a callback that
was dispatched before. Each arming carries a tag, and so does its callback.
-/

set_option autoImplicit false

namespace StarkOne.OneShot

structure Arming (τ : Type*) where
  due : ℕ
  tag : τ
  deriving DecidableEq

structure Timer (τ : Type*) where
  armed : Option (Arming τ)
  waiting : List τ
  deriving DecidableEq

namespace Timer

section Operations

variable {τ : Type*}

def startOnce (t : Timer τ) (due : ℕ) (tag : τ) : Timer τ :=
  if t.armed.isSome then t else { t with armed := some ⟨due,tag⟩ }

def stop (t : Timer τ) : Timer τ := { t with armed := none }

def expire (t : Timer τ) (now : ℕ) : Option (Timer τ) :=
  match t.armed with
  | none => none
  | some a => if a.due ≤ now then some ⟨none,a.tag::t.waiting⟩ else none

def deliver [DecidableEq τ] (t : Timer τ) (tag : τ) : Option (Timer τ) :=
  if tag ∈ t.waiting then some { t with waiting := t.waiting.erase tag } else none

/-- A bound on the expiries and callbacks to come without a further arming. -/
def load (t : Timer τ) : ℕ := (if t.armed.isSome then 2 else 0)+t.waiting.length

def All (p : τ → Prop) (t : Timer τ) : Prop :=
  (∀ a ∈ t.armed, p a.tag) ∧ ∀ k ∈ t.waiting, p k

/-- Armed with this tag for the time or later, or that callback waits after it. -/
def Due (t : Timer τ) (tag : τ) (time now : ℕ) : Prop :=
  (∃ a ∈ t.armed, a.tag = tag ∧ time ≤ a.due) ∨ (tag ∈ t.waiting ∧ time ≤ now)

theorem startOnce_idle {t : Timer τ} (h : t.armed = none) (due : ℕ) (tag : τ) :
    t.startOnce due tag = { t with armed := some ⟨due,tag⟩ } := by
  simp [startOnce, h]

theorem startOnce_armed {t : Timer τ} {a : Arming τ} (h : t.armed = some a) (due : ℕ) (tag : τ) :
    t.startOnce due tag = t := by
  simp [startOnce, h]

theorem expire_cases {t u : Timer τ} {now : ℕ} (h : t.expire now = some u) :
    ∃ a, t.armed = some a ∧ a.due ≤ now ∧ u = ⟨none,a.tag::t.waiting⟩ := by
  unfold expire at h
  split at h
  · cases h
  · rename_i a ha
    split at h
    · rename_i hdue
      exact ⟨a,ha,hdue,(Option.some.inj h).symm⟩
    · cases h

theorem All.startOnce {p : τ → Prop} {t : Timer τ} (h : t.All p) (due : ℕ) {tag : τ}
    (ht : p tag) : (t.startOnce due tag).All p := by
  unfold Timer.startOnce
  split
  · exact h
  · refine ⟨fun a ha => ?_,h.2⟩
    rw [Option.mem_some_iff] at ha
    exact ha ▸ ht

theorem All.stop {p : τ → Prop} {t : Timer τ} (h : t.All p) : t.stop.All p :=
  ⟨fun a ha => absurd ha (Option.not_mem_none a),h.2⟩

theorem All.mono {p q : τ → Prop} (hpq : ∀ k, p k → q k) {t : Timer τ} (h : t.All p) :
    t.All q :=
  ⟨fun a ha => hpq _ (h.1 a ha),fun k hk => hpq k (h.2 k hk)⟩

theorem All.expire {p : τ → Prop} {t u : Timer τ} {now : ℕ} (h : t.All p)
    (hu : t.expire now = some u) : u.All p := by
  obtain ⟨a,ha,-,rfl⟩ := expire_cases hu
  refine ⟨fun b hb => absurd hb (Option.not_mem_none b),fun k hk => ?_⟩
  rcases List.mem_cons.mp hk with hka | hk
  · exact hka ▸ h.1 a ha
  · exact h.2 k hk

theorem All.not_due {p : τ → Prop} {t : Timer τ} (h : t.All p) {tag : τ} (ht : ¬p tag)
    (time now : ℕ) : ¬t.Due tag time now := by
  rintro (⟨a,ha,rfl,-⟩ | ⟨hw,-⟩)
  · exact ht (h.1 a ha)
  · exact ht (h.2 tag hw)

theorem Due.later {t : Timer τ} {tag : τ} {time now now' : ℕ} (h : t.Due tag time now)
    (hn : now ≤ now') : t.Due tag time now' :=
  Or.imp_right (fun hw => ⟨hw.1,Nat.le_trans hw.2 hn⟩) h

/-- An expiry is never early, so what was armed is due now. -/
theorem Due.expire {t u : Timer τ} {tag : τ} {time now : ℕ} (h : t.Due tag time now)
    (hu : t.expire now = some u) : u.Due tag time now := by
  obtain ⟨a,ha,hdue,rfl⟩ := expire_cases hu
  right
  rcases h with ⟨b,hb,rfl,ht⟩ | ⟨hw,ht⟩
  · rw [ha, Option.mem_some_iff] at hb
    subst hb
    exact ⟨List.mem_cons_self,Nat.le_trans ht hdue⟩
  · exact ⟨List.mem_cons_of_mem _ hw,ht⟩

theorem Due.held {t : Timer τ} {tag : τ} {time now : ℕ} (h : t.Due tag time now) :
    t.armed ≠ none ∨ t.waiting ≠ [] := by
  rcases h with ⟨a,ha,-⟩ | ⟨hw,-⟩
  · exact Or.inl (fun hn => by rw [hn] at ha; cases ha)
  · exact Or.inr (List.ne_nil_of_mem hw)

theorem load_expire {t u : Timer τ} {now : ℕ} (h : t.expire now = some u) :
    u.load+1 = t.load := by
  obtain ⟨a,ha,-,rfl⟩ := expire_cases h
  simp [load, ha]
  omega

theorem load_startOnce (t : Timer τ) (due : ℕ) (tag : τ) :
    (t.startOnce due tag).load ≤ t.load+2 := by
  cases ha : t.armed with
  | none =>
    rw [startOnce_idle ha]
    simp [load, ha, Nat.add_comm]
  | some a =>
    rw [startOnce_armed ha]
    omega

end Operations

section Delivery

variable {τ : Type*} [DecidableEq τ]

theorem deliver_cases {t u : Timer τ} {tag : τ} (h : t.deliver tag = some u) :
    tag ∈ t.waiting ∧ u = { t with waiting := t.waiting.erase tag } := by
  unfold deliver at h
  split at h
  · rename_i hw
    exact ⟨hw,(Option.some.inj h).symm⟩
  · cases h

theorem All.deliver {p : τ → Prop} {t u : Timer τ} {tag : τ} (h : t.All p)
    (hu : t.deliver tag = some u) : u.All p := by
  obtain ⟨-,rfl⟩ := deliver_cases hu
  exact ⟨h.1,fun k hk => h.2 k (List.mem_of_mem_erase hk)⟩

theorem Due.deliver {t u : Timer τ} {tag k : τ} {time now : ℕ} (h : t.Due tag time now)
    (hu : t.deliver k = some u) (hn : now < time) : u.Due tag time now := by
  obtain ⟨-,rfl⟩ := deliver_cases hu
  rcases h with ha | ⟨-,ht⟩
  · exact Or.inl ha
  · omega

theorem load_deliver {t u : Timer τ} {tag : τ} (h : t.deliver tag = some u) :
    u.load+1 = t.load := by
  obtain ⟨hw,rfl⟩ := deliver_cases h
  have hl := List.length_erase_of_mem hw
  have hpos := List.length_pos_of_mem hw
  simp only [load]
  omega

end Delivery

end Timer

end StarkOne.OneShot
