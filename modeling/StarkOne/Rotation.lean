import Mathlib.Data.List.Range
import Mathlib.Data.Nat.ModEq
import Mathlib.Logic.Function.Basic

/-!
# Rotating buffers

A producer fills `n` buffers in turn and hands each one over as a job; a device
carries the jobs out in order, piece by piece, reading the buffer as it goes. A
token is given for each job that is done. The memory counts as what it will be
once everything handed over has landed: no piece of a job changes that, and
filling a buffer does not either, as long as no job still reads from it.
-/

set_option autoImplicit false

namespace StarkOne.Rotation

variable {σ β ι : Type}

structure Device (σ β ι : Type) where
  size : ι → ℕ
  piece : ι → β → ℕ → σ → σ

structure Job (ι : Type) where
  what : ι
  slot : ℕ
  sent : ℕ

structure Line (σ β ι : Type) where
  mem : σ
  slots : ℕ → β
  queue : List (Job ι)
  tokens : ℕ

variable (dev : Device σ β ι)

def pieces (i : ι) (c : β) : (k n : ℕ) → σ → σ
  | _, 0, m => m
  | k, n+1, m => pieces i c (k+1) n (dev.piece i c k m)

def rest (slots : ℕ → β) (m : σ) (j : Job ι) : σ :=
  pieces dev j.what (slots j.slot) j.sent (dev.size j.what-j.sent) m

def landed (l : Line σ β ι) : σ := l.queue.foldl (rest dev l.slots) l.mem

def move (l : Line σ β ι) : Option (Line σ β ι) :=
  match l.queue with
  | [] => none
  | j::js =>
    if j.sent < dev.size j.what then
      some { l with
        mem := dev.piece j.what (l.slots j.slot) j.sent l.mem
        queue := { j with sent := j.sent+1 }::js }
    else none

def complete (l : Line σ β ι) : Option (Line σ β ι) :=
  match l.queue with
  | [] => none
  | j::js =>
    if dev.size j.what ≤ j.sent then some { l with queue := js, tokens := l.tokens+1 } else none

def fill (k : ℕ) (c : β) (l : Line σ β ι) : Line σ β ι :=
  { l with slots := Function.update l.slots k c }

def submit (i : ι) (k : ℕ) (l : Line σ β ι) : Line σ β ι :=
  { l with queue := l.queue++[⟨i,k,0⟩] }

def take (l : Line σ β ι) : Option (Line σ β ι) :=
  if 0 < l.tokens then some { l with tokens := l.tokens-1 } else none

def Unused (k : ℕ) (l : Line σ β ι) : Prop := ∀ j ∈ l.queue, j.slot ≠ k

theorem landed_move {l l' : Line σ β ι} (h : move dev l = some l') : landed dev l' = landed dev l := by
  unfold move at h
  split at h
  · cases h
  · rename_i j js hq
    split at h
    · rename_i hlt
      cases h
      have hrest : dev.size j.what-j.sent = dev.size j.what-(j.sent+1)+1 := by omega
      unfold landed
      rw [hq, List.foldl_cons, List.foldl_cons]
      congr 1
      rw [rest, rest, hrest]
      rfl
    · cases h

theorem landed_complete {l l' : Line σ β ι} (h : complete dev l = some l') :
    landed dev l' = landed dev l := by
  unfold complete at h
  split at h
  · cases h
  · rename_i j js hq
    split at h
    · rename_i hle
      cases h
      unfold landed
      rw [hq, List.foldl_cons, rest, Nat.sub_eq_zero_of_le hle]
      rfl
    · cases h

theorem landed_fill {l : Line σ β ι} {k : ℕ} (h : Unused k l) (c : β) :
    landed dev (fill k c l) = landed dev l := by
  apply List.foldl_ext
  intro m j hj
  rw [rest, rest, fill]
  dsimp only
  rw [Function.update_of_ne (h j hj)]

theorem landed_submit (i : ι) (k : ℕ) (l : Line σ β ι) :
    landed dev (submit i k l) = pieces dev i (l.slots k) 0 (dev.size i) (landed dev l) :=
  List.foldl_append

theorem landed_take {l l' : Line σ β ι} (h : take l = some l') : landed dev l' = landed dev l := by
  unfold take at h
  split at h
  · cases h
    rfl
  · cases h

/-- The device can always go on with what it has. -/
theorem device_ready {l : Line σ β ι} (h : l.queue ≠ []) :
    (move dev l).isSome ∨ (complete dev l).isSome := by
  unfold move complete
  cases hq : l.queue with
  | nil => exact absurd hq h
  | cons j js =>
    by_cases hlt : j.sent < dev.size j.what
    · exact .inl (by simp [hlt])
    · exact .inr (by simp [not_lt.mp hlt])

/-- What the device and the producer still have to do for what was handed over: a step for
each piece, one to complete the job and one to take its token back. -/
def pending (l : Line σ β ι) : ℕ :=
  (l.queue.map fun j => dev.size j.what-j.sent+2).sum+l.tokens

theorem pending_move {l l' : Line σ β ι} (h : move dev l = some l') :
    pending dev l' < pending dev l := by
  unfold move at h
  split at h
  · cases h
  · rename_i j js hq
    split at h
    · cases h
      unfold pending
      rw [hq]
      simp only [List.map_cons, List.sum_cons]
      omega
    · cases h

theorem pending_complete {l l' : Line σ β ι} (h : complete dev l = some l') :
    pending dev l' < pending dev l := by
  unfold complete at h
  split at h
  · cases h
  · rename_i j js hq
    split at h
    · cases h
      unfold pending
      rw [hq]
      simp only [List.map_cons, List.sum_cons]
      omega
    · cases h

theorem pending_take {l l' : Line σ β ι} (h : take l = some l') : pending dev l' < pending dev l := by
  unfold take at h
  split at h
  · cases h
    unfold pending
    dsimp only
    omega
  · cases h

theorem pending_submit (i : ι) (k : ℕ) (l : Line σ β ι) :
    pending dev (submit i k l) = pending dev l+dev.size i+2 := by
  unfold pending submit
  simp only [List.map_append, List.map_singleton, List.sum_append, List.sum_singleton]
  omega

def Still (l : Line σ β ι) : Prop := l.queue = [] ∧ l.tokens = 0

theorem Still.landed {l : Line σ β ι} (h : Still l) : landed dev l = l.mem := by
  unfold Rotation.landed
  rw [h.1]
  rfl

structure Rotating (n next held : ℕ) (l : Line σ β ι) : Prop where
  slots : l.queue.map Job.slot =
    (List.range' (next-l.queue.length) l.queue.length).map (· % n)
  started : l.queue.length ≤ next
  count : l.queue.length+l.tokens = held

theorem rotating_still {n : ℕ} {l : Line σ β ι} (h : Still l) : Rotating n 0 0 l := by
  obtain ⟨hq,ht⟩ := h
  refine ⟨?_,?_,?_⟩
  · rw [hq]
    rfl
  · rw [hq]
    exact Nat.zero_le _
  · rw [hq, ht]
    rfl

theorem Rotating.still {n next : ℕ} {l : Line σ β ι} (h : Rotating n next 0 l) : Still l := by
  have := h.count
  exact ⟨List.length_eq_zero_iff.mp (by omega),by omega⟩

/-- The buffer whose turn it is has been read to the end. -/
theorem Rotating.unused {n next held : ℕ} {l : Line σ β ι} (h : Rotating n next held l)
    (hn : held < n) : Unused (next % n) l := by
  intro j hj hslot
  have hmem : j.slot ∈ l.queue.map Job.slot := List.mem_map_of_mem hj
  rw [h.slots] at hmem
  obtain ⟨i,hi,hin⟩ := List.mem_map.mp hmem
  obtain ⟨hlow,hhigh⟩ := List.mem_range'_1.mp hi
  have hstarted := h.started
  have hcount := h.count
  have hmod : i % n = next % n := hin.trans hslot
  have hdvd : n ∣ next-i := (Nat.modEq_iff_dvd' (by omega)).mp hmod
  have := Nat.le_of_dvd (by omega) hdvd
  omega

theorem Rotating.move {n next held : ℕ} {l l' : Line σ β ι} (h : Rotating n next held l)
    (hm : move dev l = some l') : Rotating n next held l' := by
  obtain ⟨hslots,hstarted,hcount⟩ := h
  unfold Rotation.move at hm
  split at hm
  · cases hm
  · rename_i j js hq
    rw [hq] at hslots hstarted hcount
    split at hm
    · cases hm
      exact ⟨hslots,hstarted,hcount⟩
    · cases hm

theorem Rotating.complete {n next held : ℕ} {l l' : Line σ β ι} (h : Rotating n next held l)
    (hm : complete dev l = some l') : Rotating n next held l' := by
  obtain ⟨hslots,hstarted,hcount⟩ := h
  unfold Rotation.complete at hm
  split at hm
  · cases hm
  · rename_i j js hq
    rw [hq] at hslots hstarted hcount
    rw [List.length_cons] at hslots hstarted hcount
    split at hm
    · cases hm
      refine ⟨?_,?_,?_⟩
      · rw [List.range'_succ, List.map_cons, List.map_cons] at hslots
        have htail := (List.cons.inj hslots).2
        rwa [show next-(js.length+1)+1 = next-js.length by omega] at htail
      · dsimp only
        omega
      · dsimp only
        omega
    · cases hm

theorem Rotating.take {n next held : ℕ} {l l' : Line σ β ι} (h : Rotating n next held l)
    (hm : take l = some l') : Rotating n next (held-1) l' := by
  obtain ⟨hslots,hstarted,hcount⟩ := h
  unfold Rotation.take at hm
  split at hm
  · cases hm
    refine ⟨hslots,hstarted,?_⟩
    dsimp only
    omega
  · cases hm

theorem Rotating.fill {n next held : ℕ} {l : Line σ β ι} (h : Rotating n next held l) (k : ℕ)
    (c : β) : Rotating n next held (fill k c l) := ⟨h.slots,h.started,h.count⟩

theorem Rotating.submit {n next held : ℕ} {l : Line σ β ι} (h : Rotating n next held l) (i : ι) :
    Rotating n (next+1) (held+1) (submit i (next % n) l) := by
  obtain ⟨hslots,hstarted,hcount⟩ := h
  unfold Rotation.submit
  refine ⟨?_,?_,?_⟩
  · dsimp only
    rw [List.map_append, hslots, List.length_append, List.length_singleton, List.range'_1_concat,
      List.map_append, show next+1-(l.queue.length+1) = next-l.queue.length by omega,
      show next-l.queue.length+l.queue.length = next by omega]
    rfl
  · dsimp only
    rw [List.length_append, List.length_singleton]
    omega
  · dsimp only
    rw [List.length_append, List.length_singleton]
    omega

end StarkOne.Rotation
