import Mathlib.Data.List.Basic

/-!
# Copies that follow by notices

A change of a value is announced by a notice in a queue that gives up its oldest
notice when it is full. Whoever takes a notice looks at the value as it is then.
A copy can be old only while a notice waits, or after one was lost.
-/

set_option autoImplicit false

namespace StarkOne.Mirror

variable {K E : Type*}

def offered (full : Bool) (queue : List E) (e : E) : List E := (if full then queue.tail else queue)++[e]

def givenUp (full : Bool) (queue : List E) : List E := if full then queue.take 1 else []

def Mirrored (shows : K → Prop) (notice : K → E → Prop) (queue lost : List E) : Prop :=
  ∀ k, shows k ∨ (∃ e ∈ queue, notice k e) ∨ ∃ e ∈ lost, notice k e

variable {shows shows' : K → Prop} {notice : K → E → Prop} {queue lost : List E} {e : E}

theorem mirrored_start (h : ∀ k, shows k) : Mirrored shows notice queue lost := fun k => .inl (h k)

theorem Mirrored.mono (h : Mirrored shows notice queue lost) (hk : ∀ k, shows k → shows' k) :
    Mirrored shows' notice queue lost := fun k => (h k).imp_left (hk k)

/-- A value changes, and its notice is put in the queue. -/
theorem Mirrored.offer (h : Mirrored shows notice queue lost) (full : Bool)
    (hk : ∀ k, shows k → shows' k ∨ notice k e) :
    Mirrored shows' notice (offered full queue e) (lost++givenUp full queue) := by
  have hnew : e ∈ offered full queue e := List.mem_append_right _ (List.mem_singleton_self e)
  intro k
  rcases h k with hs | ⟨x,hx,hn⟩ | ⟨x,hx,hn⟩
  · exact (hk k hs).imp_right fun hn => .inl ⟨e,hnew,hn⟩
  · cases full with
    | false => exact .inr (.inl ⟨x,List.mem_append_left _ hx,hn⟩)
    | true =>
      cases queue with
      | nil => cases hx
      | cons y rest =>
        rcases List.mem_cons.mp hx with rfl | hx
        · exact .inr (.inr ⟨x,List.mem_append_right _ List.mem_cons_self,hn⟩)
        · exact .inr (.inl ⟨x,List.mem_append_left _ hx,hn⟩)
  · exact .inr (.inr ⟨x,List.mem_append_left _ hx,hn⟩)

/-- The oldest notice is taken, and what it is about is shown again. -/
theorem Mirrored.take (h : Mirrored shows notice (e::queue) lost) (hk : ∀ k, notice k e → shows' k)
    (hkeep : ∀ k, shows k → shows' k) : Mirrored shows' notice queue lost := by
  intro k
  rcases h k with hs | ⟨x,hx,hn⟩ | hlost
  · exact .inl (hkeep k hs)
  · rcases List.mem_cons.mp hx with rfl | hx
    · exact .inl (hk k hn)
    · exact .inr (.inl ⟨x,hx,hn⟩)
  · exact .inr (.inr hlost)

theorem Mirrored.lose (h : Mirrored shows notice (e::queue) lost) :
    Mirrored shows notice queue (lost++[e]) := by
  intro k
  rcases h k with hs | ⟨x,hx,hn⟩ | ⟨x,hx,hn⟩
  · exact .inl hs
  · rcases List.mem_cons.mp hx with rfl | hx
    · exact .inr (.inr ⟨x,List.mem_append_right _ (List.mem_singleton_self x),hn⟩)
    · exact .inr (.inl ⟨x,hx,hn⟩)
  · exact .inr (.inr ⟨x,List.mem_append_left _ hx,hn⟩)

/-- Nothing waits and nothing was lost: every copy is right. -/
theorem Mirrored.settled (h : Mirrored shows notice [] []) (k : K) : shows k := by
  rcases h k with hs | ⟨x,hx,-⟩ | ⟨x,hx,-⟩
  · exact hs
  · cases hx
  · cases hx

end StarkOne.Mirror
