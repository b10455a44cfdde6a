import StarkOne.NfcReader

/-!
# The poll machine

What the NFC task makes of each poll, of each attempt to find a lost reader
again, and of each look at the reader while no app polls.
-/

set_option autoImplicit false

namespace StarkOne.NfcPollMachine
open StarkOne.NfcReader

def nfcPollMisses : ℕ := 2
def nfcPollErrors : ℕ := 3
def nfcPollRecoverMs : ℕ := 1000
def nfcIdleMisses : ℕ := 2

inductive NfcPollState where
  | idle
  | present
  | recovering
  deriving DecidableEq, Repr

inductive NfcPollEvent where
  | none
  | tag (arrived : NfcTag)
  | left
  | lost
  | back
  deriving DecidableEq

structure NfcPoll where
  state : NfcPollState
  uid : List UInt8
  misses : ℕ
  errors : ℕ
  recoverAt : ℕ
  deriving DecidableEq

def nfcPollInit : NfcPoll := ⟨.idle,[],0,0,0⟩

def nfcPollFound (p : NfcPoll) (tag : NfcTag) : NfcPollEvent × NfcPoll :=
  let p := { p with errors := 0, misses := 0 }
  if p.state = .present ∧ p.uid = tag.uid then (.none,p)
  else (.tag tag,{ p with state := .present, uid := tag.uid })

def nfcPollEmpty (p : NfcPoll) : NfcPollEvent × NfcPoll :=
  let p := { p with errors := 0 }
  if p.state = .present then
    let p := { p with misses := p.misses+1 }
    if p.misses ≥ nfcPollMisses then (.left,nfcPollInit) else (.none,p)
  else (.none,p)

def nfcPollResult (p : NfcPoll) (poll : Except Fault (Option NfcTag)) (nowMs : ℕ) :
    NfcPollEvent × NfcPoll :=
  if p.state = .recovering then (.none,p)
  else match poll with
    | .error _ =>
      let p := { p with errors := p.errors+1 }
      if p.errors ≥ nfcPollErrors then
        (.lost,{ nfcPollInit with state := .recovering, recoverAt := u32 (nowMs+nfcPollRecoverMs) })
      else (.none,p)
    | .ok (some tag) => nfcPollFound p tag
    | .ok none => nfcPollEmpty p

/-- `(int32_t)(now_ms - p->recover_at) >= 0` while recovering. -/
def nfcPollRecoverDue (p : NfcPoll) (nowMs : ℕ) : Bool :=
  p.state = .recovering && sub32 nowMs p.recoverAt < 2^31

def nfcPollRecovered (p : NfcPoll) (err : StarkErr) (nowMs : ℕ) : NfcPollEvent × NfcPoll :=
  if p.state ≠ .recovering then (.none,p)
  else if err ≠ .ok then (.none,{ p with recoverAt := u32 (nowMs+nfcPollRecoverMs) })
  else (.back,nfcPollInit)

inductive NfcIdleAction where
  | none
  | detect
  | lost
  deriving DecidableEq, Repr

def nfcIdleStep (misses : ℕ) (answered ready : Bool) : NfcIdleAction × ℕ :=
  if answered then (if ready then .none else .detect,0)
  else if !ready then (.none,0)
  else if misses+1 < nfcIdleMisses then (.none,misses+1)
  else (.lost,0)

/-- Only a loss leaves the machine recovering, and a loss always does. -/
theorem nfcPollResult_recovering (p : NfcPoll) (poll : Except Fault (Option NfcTag)) (now : ℕ)
    (hp : p.state ≠ .recovering) :
    (nfcPollResult p poll now).2.state = .recovering ↔ (nfcPollResult p poll now).1 = .lost := by
  unfold nfcPollResult
  rw [if_neg hp]
  cases poll with
  | error e =>
    dsimp only
    split <;> simp [hp]
  | ok found =>
    cases found with
    | none =>
      simp only [nfcPollEmpty]
      split_ifs <;> simp [hp, nfcPollInit]
    | some tag =>
      simp only [nfcPollFound]
      split_ifs <;> simp [hp]

theorem nfcPollRecovered_cases (p : NfcPoll) (err : StarkErr) (now : ℕ)
    (hp : p.state = .recovering) :
    ((nfcPollRecovered p err now).1 = .back ∧ (nfcPollRecovered p err now).2 = nfcPollInit) ∨
    ((nfcPollRecovered p err now).1 = .none ∧ (nfcPollRecovered p err now).2.state = .recovering) := by
  unfold nfcPollRecovered
  rw [if_neg (not_not.mpr hp)]
  split
  · exact Or.inr ⟨rfl,hp⟩
  · exact Or.inl ⟨rfl,rfl⟩

end StarkOne.NfcPollMachine
