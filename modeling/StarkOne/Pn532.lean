import StarkOne.Link
import StarkOne.StarkErr

/-!
# PN532 commands

The requests on the link to the reader chip. A command either fails or brings
at most the `cap` bytes asked for. Detection is the one sequence of commands
that the service issues besides those for a tag.
-/

set_option autoImplicit false

namespace StarkOne.Pn532
open StarkOne.Link

structure Command where
  code : UInt8
  params : List UInt8
  cap : ℕ
  deriving DecidableEq

/-- The data of a response, which never exceeds the room given for it. -/
abbrev Reply (q : Command) : Type := Except Fault {r : List UInt8 // r.length ≤ q.cap}

abbrev NfcDriver (α : Type) : Type := Driver Command Reply α
abbrev Nfc (α : Type) : Type := Fallible Fault Command Reply α
abbrev NfcExchange : Type := Exchange Command Reply

def cmdDataExch : UInt8 := 0x40
def cmdListPassive : UInt8 := 0x4A
def cmdRelease : UInt8 := 0x52

def pn532Command (code : UInt8) (params : List UInt8) (cap : ℕ) : Nfc (List UInt8) :=
  ExceptT.mk (do
    let r ← query (R := Reply) ⟨code,params,cap⟩
    pure (r.map Subtype.val))

def cmdGetFirmware : UInt8 := 0x02
def cmdSamConfig : UInt8 := 0x14
def cmdRfConfig : UInt8 := 0x32
def pn532Ic : UInt8 := 0x32

/-- IC, version, revision; a short answer reads as IC 0. -/
def pn532Firmware : Nfc (UInt8 × UInt8 × UInt8) := do
  let r ← pn532Command cmdGetFirmware [] 4
  pure (r.getD 0 0,r.getD 1 0,r.getD 2 0)

def pn532SamNormal : Nfc Unit := do
  let _ ← pn532Command cmdSamConfig [0x01,0x14,0x01] 0
  pure ()

def pn532Field (on : Bool) : Nfc Unit := do
  let _ ← pn532Command cmdRfConfig [0x01,if on then 1 else 0] 0
  pure ()

def pn532PassiveRetries (n : UInt8) : Nfc Unit := do
  let _ ← pn532Command cmdRfConfig [0x05,0xFF,0x01,n] 0
  pure ()

def pn532Detect : Nfc Unit := do
  let (ic,_,_) ← pn532Firmware
  if ic ≠ pn532Ic then ExceptT.mk (pure (.error .notSupported))
  else do
    pn532SamNormal
    pn532PassiveRetries 1
    pn532Field false

def answer (e : NfcExchange) : Except Fault (List UInt8) := e.reply.map Subtype.val

theorem trace_command (code : UInt8) (params : List UInt8) (cap : ℕ) (log : List NfcExchange)
    (b : Except Fault (List UInt8)) :
    Trace (pn532Command code params cap).run log b ↔
      ∃ e : NfcExchange, e.request = ⟨code,params,cap⟩ ∧ log = [e] ∧ b = answer e := by
  unfold pn532Command
  rw [ExceptT.run_mk, trace_bind]
  constructor
  · rintro ⟨l₁,l₂,r,rfl,hq,rfl,rfl⟩
    exact ⟨⟨_,r⟩,rfl,by rw [(trace_query _ _ _).mp hq, List.append_nil],rfl⟩
  · rintro ⟨⟨q,r⟩,rfl,rfl,rfl⟩
    exact ⟨[⟨_,r⟩],[],r,rfl,(trace_query _ _ _).mpr rfl,rfl,rfl⟩

theorem trace_checked {α : Type} (code : UInt8) (params : List UInt8) (cap : ℕ)
    (check : List UInt8 → Except Fault α) (log : List NfcExchange) (b : Except Fault α) :
    Trace (pn532Command code params cap >>= fun r => ExceptT.mk (pure (check r))).run log b ↔
      ∃ e : NfcExchange, e.request = ⟨code,params,cap⟩ ∧ log = [e] ∧ b = (answer e).bind check := by
  rw [trace_try]
  constructor
  · rintro (⟨err,rfl,h⟩ | ⟨l₁,l₂,r,rfl,h,rfl,rfl⟩)
    · obtain ⟨e,hq,rfl,ha⟩ := (trace_command _ _ _ _ _).mp h
      exact ⟨e,hq,rfl,by rw [← ha]; rfl⟩
    · obtain ⟨e,hq,rfl,ha⟩ := (trace_command _ _ _ _ _).mp h
      exact ⟨e,hq,rfl,by rw [← ha]; rfl⟩
  · rintro ⟨e,hq,rfl,rfl⟩
    have hc := (trace_command code params cap [e] (answer e)).mpr ⟨e,hq,rfl,rfl⟩
    cases ha : answer e with
    | error err => exact Or.inl ⟨err,rfl,ha ▸ hc⟩
    | ok r => exact Or.inr ⟨[e],[],r,rfl,ha ▸ hc,rfl,rfl⟩

end StarkOne.Pn532
