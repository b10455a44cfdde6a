import Mathlib.Data.List.Basic

/-!
# Reading from a buffer

A reader takes elements by position and may stop with an error of its own. To
read past the end, to measure what is left from beyond it, to write more than
there is room for, or to run out of rounds is a stop of another kind, which a
safe reader never makes.
-/

set_option autoImplicit false

namespace StarkOne.BufferReader

inductive Stop (ε : Type) where
  | fault (e : ε)
  | outside
  | endless
  deriving DecidableEq

abbrev Reading (ε α : Type) := Except (Stop ε) α

section
variable {ε α β : Type}

def byteAt (buf : List β) (pos : ℕ) : Reading ε β :=
  match buf[pos]? with
  | some b => .ok b
  | none => .error .outside

def left (buf : List β) (pos : ℕ) : Reading ε ℕ :=
  if pos ≤ buf.length then .ok (buf.length-pos) else .error .outside

def stop (e : ε) : Reading ε α := .error (.fault e)

def Safe (x : Reading ε α) : Prop := ∀ s, x = .error s → ∃ e, s = .fault e

theorem bind_ok {x : Reading ε α} {f : α → Reading ε β} {b : β} :
    x.bind f = .ok b ↔ ∃ a, x = .ok a ∧ f a = .ok b := by
  cases x with
  | error s => exact ⟨fun h => (by cases h),fun ⟨a,h,_⟩ => by cases h⟩
  | ok a =>
    constructor
    · exact fun h => ⟨a,rfl,h⟩
    · rintro ⟨a',h,hf⟩
      cases h
      exact hf

theorem safe_ok (a : α) : Safe (.ok a : Reading ε α) := fun s h => by cases h

theorem safe_stop (e : ε) : Safe (stop e : Reading ε α) := by
  intro s h
  cases h
  exact ⟨e,rfl⟩

theorem Safe.bind {x : Reading ε α} {f : α → Reading ε β} (hx : Safe x)
    (hf : ∀ a, x = .ok a → Safe (f a)) : Safe (x.bind f) := by
  cases x with
  | error s =>
    intro s' h
    cases h
    exact hx s rfl
  | ok a => exact hf a rfl

theorem guard_ok {c : Prop} [Decidable c] {e : ε} {x : Reading ε α} {a : α} :
    (if c then stop e else x) = .ok a ↔ ¬c ∧ x = .ok a := by
  by_cases hc : c
  · rw [if_pos hc]
    exact ⟨fun h => (by cases h),fun h => absurd hc h.1⟩
  · rw [if_neg hc]
    exact ⟨fun h => ⟨hc,h⟩,fun h => h.2⟩

theorem Safe.guard {c : Prop} [Decidable c] {e : ε} {x : Reading ε α} (hx : ¬c → Safe x) :
    Safe (if c then stop e else x) := by
  by_cases hc : c
  · rw [if_pos hc]
    exact safe_stop e
  · rw [if_neg hc]
    exact hx hc

theorem byteAt_ok {buf : List β} {pos : ℕ} {b : β} :
    (byteAt buf pos : Reading ε β) = .ok b ↔ buf[pos]? = some b := by
  unfold byteAt
  cases buf[pos]? with
  | none => exact ⟨fun h => (by cases h),fun h => by cases h⟩
  | some c => exact ⟨fun h => (by cases h; rfl),fun h => by cases h; rfl⟩

theorem byteAt_safe {buf : List β} {pos : ℕ} (h : pos < buf.length) :
    Safe (byteAt buf pos : Reading ε β) := by
  unfold byteAt
  rw [List.getElem?_eq_getElem h]
  exact safe_ok _

theorem byteAt_lt {buf : List β} {pos : ℕ} {b : β} (h : (byteAt buf pos : Reading ε β) = .ok b) :
    pos < buf.length := by
  have := byteAt_ok.mp h
  exact (List.getElem?_eq_some_iff.mp this).1

theorem left_ok {buf : List β} {pos n : ℕ} :
    (left buf pos : Reading ε ℕ) = .ok n ↔ pos ≤ buf.length ∧ n = buf.length-pos := by
  unfold left
  split
  · rename_i h
    exact ⟨fun hn => (by cases hn; exact ⟨h,rfl⟩),fun hn => by rw [hn.2]⟩
  · rename_i h
    exact ⟨fun hn => (by cases hn),fun hn => absurd hn.1 h⟩

theorem left_safe {buf : List β} {pos : ℕ} (h : pos ≤ buf.length) :
    Safe (left buf pos : Reading ε ℕ) := by
  unfold left
  rw [if_pos h]
  exact safe_ok _

theorem byteAt_drop (ε : Type) {buf rest : List β} {pos : ℕ} {b : β} (h : buf.drop pos = b::rest) :
    (byteAt buf pos : Reading ε β) = .ok b ∧ buf.drop (pos+1) = rest := by
  constructor
  · rw [byteAt_ok, ← List.head?_drop, h]
    rfl
  · rw [← List.drop_drop, h]
    rfl

abbrev Buffer (β : Type) (n : ℕ) : Type := {l : List β // l.length = n}

def fill {n : ℕ} (buf : Buffer β n) (bytes : List β) : Reading ε (Buffer β n) :=
  if h : bytes.length ≤ n then
    .ok ⟨bytes++buf.val.drop bytes.length,
      by rw [List.length_append, List.length_drop, buf.property]; omega⟩
  else .error .outside

theorem fill_ok (ε : Type) {n : ℕ} (buf : Buffer β n) (bytes : List β) (h : bytes.length ≤ n) :
    ∃ b : Buffer β n, (fill buf bytes : Reading ε (Buffer β n)) = .ok b ∧
      b.val = bytes++buf.val.drop bytes.length :=
  ⟨_,dif_pos h,rfl⟩

def store {n : ℕ} (buf : Buffer β n) (pos : ℕ) (b : β) : Reading ε (Buffer β n) :=
  if pos < n then .ok ⟨buf.val.set pos b,by rw [List.length_set, buf.property]⟩
  else .error .outside

end

end StarkOne.BufferReader
