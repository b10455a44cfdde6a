import Mathlib.Data.List.Basic

/-!
# Drivers and the devices they talk to

A driver asks a device, goes on with the reply, and at last returns. A trace
is what passed over the link, with any replies at all: what holds of every
trace holds for every behaviour of the device, failures included. Against a
device with a state the same driver is run to its result. A loop that goes
round for ever is the leaf `spin`.
-/

set_option autoImplicit false

namespace StarkOne.Link

inductive Driver (Q : Type) (R : Q → Type) (α : Type) where
  | done (a : α)
  | ask (q : Q) (next : R q → Driver Q R α)
  | spin

structure Exchange (Q : Type) (R : Q → Type) where
  request : Q
  reply : R request

variable {Q : Type} {R : Q → Type} {α β ε σ : Type}

namespace Driver

def bind : Driver Q R α → (α → Driver Q R β) → Driver Q R β
  | .done a, f => f a
  | .ask q next, f => .ask q (fun r => (next r).bind f)
  | .spin, _ => .spin

instance : Monad (Driver Q R) where
  pure := .done
  bind := bind

theorem bind_done (d : Driver Q R α) : d.bind .done = d := by
  induction d with
  | done a => rfl
  | ask q next ih => exact congrArg (ask q) (funext ih)
  | spin => rfl

theorem bind_assoc {γ : Type} (d : Driver Q R α) (f : α → Driver Q R β) (g : β → Driver Q R γ) :
    (d.bind f).bind g = d.bind (fun a => (f a).bind g) := by
  induction d with
  | done a => rfl
  | ask q next ih => exact congrArg (ask q) (funext ih)
  | spin => rfl

instance : LawfulMonad (Driver Q R) :=
  LawfulMonad.mk' _ bind_done (fun _ _ => rfl) bind_assoc

end Driver

def query (q : Q) : Driver Q R (R q) := .ask q .done

/-- The driver may end with this result after exactly these exchanges. -/
def Trace : Driver Q R α → List (Exchange Q R) → α → Prop
  | .done a, log, b => log = [] ∧ a = b
  | .ask q next, log, b => ∃ r rest, log = ⟨q,r⟩::rest ∧ Trace (next r) rest b
  | .spin, _, _ => False

/-- Every request the driver can make, whatever is replied, is of this kind. -/
def Asks (ok : Q → Prop) : Driver Q R α → Prop
  | .done _ => True
  | .ask q next => ok q ∧ ∀ r, Asks ok (next r)
  | .spin => True

/-- As long as the replies are honest the driver ends, and with a result of this kind. -/
def Meets (honest : Exchange Q R → Prop) (post : α → Prop) : Driver Q R α → Prop
  | .done a => post a
  | .ask q next => ∀ r, honest ⟨q,r⟩ → Meets honest post (next r)
  | .spin => False

def serve (dev : σ → (q : Q) → R q × σ) : σ → Driver Q R α → Option (α × σ)
  | s, .done a => some (a,s)
  | s, .ask q next => serve dev (dev s q).2 (next (dev s q).1)
  | _, .spin => none

/-- If the driver ends at all, it is with a result of this kind. -/
def Gives (post : α → Prop) : Driver Q R α → Prop
  | .done a => post a
  | .ask _ next => ∀ r, Gives post (next r)
  | .spin => True

@[simp] theorem trace_pure (a b : α) (log : List (Exchange Q R)) :
    Trace (pure a : Driver Q R α) log b ↔ log = [] ∧ a = b := Iff.rfl

theorem trace_query (q : Q) (log : List (Exchange Q R)) (r : R q) :
    Trace (query q) log r ↔ log = [⟨q,r⟩] := by
  constructor
  · rintro ⟨r',rest,rfl,rfl,rfl⟩
    rfl
  · rintro rfl
    exact ⟨r,[],rfl,rfl,rfl⟩

theorem trace_bind (d : Driver Q R α) (f : α → Driver Q R β) (log : List (Exchange Q R)) (b : β) :
    Trace (d >>= f) log b ↔ ∃ l₁ l₂ a, log = l₁++l₂ ∧ Trace d l₁ a ∧ Trace (f a) l₂ b := by
  change Trace (d.bind f) log b ↔ _
  induction d generalizing log with
  | done a =>
    constructor
    · intro h
      exact ⟨[],log,a,rfl,⟨rfl,rfl⟩,h⟩
    · rintro ⟨l₁,l₂,a',rfl,⟨rfl,rfl⟩,h⟩
      exact h
  | ask q next ih =>
    constructor
    · rintro ⟨r,rest,rfl,h⟩
      obtain ⟨l₁,l₂,a,rfl,h₁,h₂⟩ := (ih r rest).mp h
      exact ⟨⟨q,r⟩::l₁,l₂,a,rfl,⟨r,l₁,rfl,h₁⟩,h₂⟩
    · rintro ⟨l₁,l₂,a,rfl,⟨r,rest,rfl,h₁⟩,h₂⟩
      exact ⟨r,rest++l₂,rfl,(ih r _).mpr ⟨rest,l₂,a,rfl,h₁,h₂⟩⟩
  | spin =>
    constructor
    · exact False.elim
    · rintro ⟨_,_,_,_,h,_⟩
      exact h

theorem asks_bind {ok : Q → Prop} {d : Driver Q R α} {f : α → Driver Q R β} (hd : Asks ok d)
    (hf : ∀ a, Asks ok (f a)) : Asks ok (d >>= f) := by
  change Asks ok (d.bind f)
  induction d with
  | done a => exact hf a
  | ask q next ih => exact ⟨hd.1,fun r => ih r (hd.2 r)⟩
  | spin => trivial

theorem asks_trace {ok : Q → Prop} (d : Driver Q R α) (log : List (Exchange Q R)) (a : α)
    (hd : Asks ok d) (h : Trace d log a) : ∀ e ∈ log, ok e.request := by
  induction d generalizing log with
  | done b =>
    obtain ⟨rfl,-⟩ := h
    exact List.forall_mem_nil _
  | ask q next ih =>
    obtain ⟨r,rest,rfl,hr⟩ := h
    exact List.forall_mem_cons.mpr ⟨hd.1,ih r rest (hd.2 r) hr⟩
  | spin => exact h.elim

theorem meets_bind {honest : Exchange Q R → Prop} {mid : α → Prop} {post : β → Prop}
    {d : Driver Q R α} {f : α → Driver Q R β} (hd : Meets honest mid d)
    (hf : ∀ a, mid a → Meets honest post (f a)) : Meets honest post (d >>= f) := by
  change Meets honest post (d.bind f)
  induction d with
  | done a => exact hf a hd
  | ask q next ih => exact fun r hr => ih r (hd r hr)
  | spin => exact hd.elim

theorem meets_mono {honest : Exchange Q R → Prop} {mid post : α → Prop} {d : Driver Q R α}
    (hd : Meets honest mid d) (h : ∀ a, mid a → post a) : Meets honest post d := by
  induction d with
  | done a => exact h a hd
  | ask q next ih => exact fun r hr => ih r (hd r hr)
  | spin => exact hd.elim

theorem gives_true (d : Driver Q R α) : Gives (fun _ => True) d := by
  induction d with
  | done a => trivial
  | ask q next ih => exact ih
  | spin => trivial

theorem gives_bind {mid : α → Prop} {post : β → Prop} {d : Driver Q R α} {f : α → Driver Q R β}
    (hd : Gives mid d) (hf : ∀ a, mid a → Gives post (f a)) : Gives post (d >>= f) := by
  change Gives post (d.bind f)
  induction d with
  | done a => exact hf a hd
  | ask q next ih => exact fun r => ih r (hd r)
  | spin => trivial

theorem gives_mono {mid post : α → Prop} {d : Driver Q R α} (hd : Gives mid d)
    (h : ∀ a, mid a → post a) : Gives post d := by
  induction d with
  | done a => exact h a hd
  | ask q next ih => exact fun r => ih r (hd r)
  | spin => trivial

theorem gives_trace {post : α → Prop} {d : Driver Q R α} (hd : Gives post d)
    {log : List (Exchange Q R)} {a : α} (h : Trace d log a) : post a := by
  induction d generalizing log with
  | done b =>
    obtain ⟨-,rfl⟩ := h
    exact hd
  | ask q next ih =>
    obtain ⟨r,rest,-,hr⟩ := h
    exact ih r (hd r) hr
  | spin => exact h.elim

/-- A driver that ends meets what holds of its traces. -/
theorem meets_of_trace {honest : Exchange Q R → Prop} {post : α → Prop} {d : Driver Q R α}
    (hd : Meets honest (fun _ => True) d)
    (h : ∀ log a, Trace d log a → (∀ e ∈ log, honest e) → post a) : Meets honest post d := by
  induction d with
  | done a => exact h [] a ⟨rfl,rfl⟩ (List.forall_mem_nil _)
  | ask q next ih =>
    refine fun r hr => ih r (hd r hr) fun log a ht hl => ?_
    exact h (⟨q,r⟩::log) a ⟨r,log,rfl,ht⟩ (List.forall_mem_cons.mpr ⟨hr,hl⟩)
  | spin => exact hd.elim

@[simp] theorem serve_pure (dev : σ → (q : Q) → R q × σ) (s : σ) (a : α) :
    serve dev s (pure a : Driver Q R α) = some (a,s) := rfl

@[simp] theorem serve_query (dev : σ → (q : Q) → R q × σ) (s : σ) (q : Q) :
    serve dev s (query q) = some (dev s q) := rfl

theorem serve_bind (dev : σ → (q : Q) → R q × σ) (s : σ) (d : Driver Q R α)
    (f : α → Driver Q R β) :
    serve dev s (d >>= f) = (serve dev s d).bind (fun p => serve dev p.2 (f p.1)) := by
  change serve dev s (d.bind f) = _
  induction d generalizing s with
  | done a => rfl
  | ask q next ih => exact ih _ _
  | spin => rfl

/-- A run against a device is one of the traces. -/
theorem trace_of_serve (dev : σ → (q : Q) → R q × σ) (s t : σ) (d : Driver Q R α) (a : α)
    (h : serve dev s d = some (a,t)) : ∃ log, Trace d log a := by
  induction d generalizing s with
  | done b => exact ⟨[],rfl,(Prod.mk.inj (Option.some.inj h)).1⟩
  | ask q next ih =>
    obtain ⟨log,hl⟩ := ih (dev s q).1 _ h
    exact ⟨⟨q,(dev s q).1⟩::log,_,log,rfl,hl⟩
  | spin => cases h

def recorded (dev : σ → (q : Q) → R q × σ) (s : σ × List (Exchange Q R)) (q : Q) :
    R q × (σ × List (Exchange Q R)) :=
  let r := dev s.1 q
  (r.1,(r.2,s.2++[⟨q,r.1⟩]))

theorem serve_recorded (dev : σ → (q : Q) → R q × σ) (s t : σ × List (Exchange Q R))
    (d : Driver Q R α) (a : α) (h : serve (recorded dev) s d = some (a,t)) :
    ∃ log, t.2 = s.2++log ∧ Trace d log a := by
  induction d generalizing s with
  | done b =>
    obtain ⟨rfl,rfl⟩ := Prod.mk.inj (Option.some.inj h)
    exact ⟨[],(List.append_nil _).symm,rfl,rfl⟩
  | ask q next ih =>
    obtain ⟨log,hl,ht⟩ := ih (dev s.1 q).1 _ h
    exact ⟨⟨q,(dev s.1 q).1⟩::log,by rw [hl]; simp [recorded],_,log,rfl,ht⟩
  | spin => cases h

abbrev Fallible (ε : Type) (Q : Type) (R : Q → Type) (α : Type) : Type :=
  ExceptT ε (Driver Q R) α

theorem trace_try (x : Fallible ε Q R α) (f : α → Fallible ε Q R β)
    (log : List (Exchange Q R)) (b : Except ε β) :
    Trace (x >>= f).run log b ↔
      (∃ e, b = .error e ∧ Trace x.run log (.error e)) ∨
      ∃ l₁ l₂ a, log = l₁++l₂ ∧ Trace x.run l₁ (.ok a) ∧ Trace (f a).run l₂ b := by
  rw [ExceptT.run_bind, trace_bind]
  constructor
  · rintro ⟨l₁,l₂,r,rfl,hx,hf⟩
    cases r with
    | error e =>
      obtain ⟨rfl,rfl⟩ := hf
      exact Or.inl ⟨e,rfl,by rwa [List.append_nil]⟩
    | ok a => exact Or.inr ⟨l₁,l₂,a,rfl,hx,hf⟩
  · rintro (⟨e,rfl,hx⟩ | ⟨l₁,l₂,a,rfl,hx,hf⟩)
    · exact ⟨log,[],.error e,(List.append_nil _).symm,hx,rfl,rfl⟩
    · exact ⟨l₁,l₂,.ok a,rfl,hx,hf⟩

theorem serve_try (dev : σ → (q : Q) → R q × σ) (s t : σ) (x : Fallible ε Q R α)
    (f : α → Fallible ε Q R β) (a : α) (h : serve dev s x.run = some (.ok a,t)) :
    serve dev s (x >>= f).run = serve dev t (f a).run := by
  rw [ExceptT.run_bind, serve_bind, h]
  rfl

theorem ends_try {honest : Exchange Q R → Prop} {x : Fallible ε Q R α}
    {f : α → Fallible ε Q R β} (hx : Meets honest (fun _ => True) x.run)
    (hf : ∀ a, Meets honest (fun _ => True) (f a).run) :
    Meets honest (fun _ => True) (x >>= f).run := by
  rw [ExceptT.run_bind]
  refine meets_bind hx (fun r _ => ?_)
  cases r with
  | error e => exact trivial
  | ok a => exact hf a

theorem asks_try {ok : Q → Prop} {x : Fallible ε Q R α} {f : α → Fallible ε Q R β}
    (hx : Asks ok x.run) (hf : ∀ a, Asks ok (f a).run) : Asks ok (x >>= f).run := by
  rw [ExceptT.run_bind]
  refine asks_bind hx (fun r => ?_)
  cases r with
  | error e => exact trivial
  | ok a => exact hf a

end StarkOne.Link
