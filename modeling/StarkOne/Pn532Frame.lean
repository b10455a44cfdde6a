import Mathlib.Data.UInt
import StarkOne.BufferReader
import StarkOne.StarkErr

/-!
# PN532 frames

A normal information frame is 00 00 FF LEN LCS TFI PD... DCS 00, where LEN
counts TFI and PD, LEN and LCS add up to zero, and so do TFI, PD and DCS.
-/

set_option autoImplicit false

namespace StarkOne.Pn532Frame
open StarkOne.BufferReader

def pn532DataMax : ℕ := 254
def pn532FrameOverhead : ℕ := 7
def tfiHost : UInt8 := 0xD4
def tfiChip : UInt8 := 0xD5

inductive Pn532Rx where
  | ack
  | nack
  | data
  | appError
  deriving DecidableEq, Repr

def pn532Ack : List UInt8 := [0x00,0x00,0xFF,0x00,0xFF,0x00]
def pn532Nack : List UInt8 := [0x00,0x00,0xFF,0xFF,0x00,0x00]

def hostFrame (cmd : UInt8) (params : List UInt8) : List UInt8 :=
  let len := UInt8.ofNat (params.length+2)
  let sum := params.foldl (·+·) (tfiHost+cmd)
  [0x00,0x00,0xFF,len,0-len,tfiHost,cmd]++params++[0-sum,0x00]

/-- The length of the frame and the buffer it is in; 0 when it is refused. -/
def pn532FrameBuild (cmd : UInt8) {n : ℕ} (params : Option (Buffer UInt8 n)) {cap : ℕ}
    (out : Buffer UInt8 cap) : Reading Fault (ℕ × Buffer UInt8 cap) :=
  if (0 < n && params.isNone) || pn532DataMax-2 < n || cap < n+2+pn532FrameOverhead then .ok (0,out)
  else
    (fill out (hostFrame cmd ((params.map Subtype.val).getD []))).bind fun out =>
    .ok (n+2+pn532FrameOverhead,out)

def startsWith (buf : List UInt8) : List UInt8 → ℕ → Reading Fault Bool
  | [], _ => .ok true
  | b::rest, pos => (byteAt buf pos).bind fun a =>
    if a ≠ b then .ok false else startsWith buf rest (pos+1)

def sumFrom (buf : List UInt8) : ℕ → ℕ → UInt8 → Reading Fault UInt8
  | 0, _, sum => .ok sum
  | n+1, pos, sum => (byteAt buf pos).bind fun b => sumFrom buf n (pos+1) (sum+b)

def pn532FrameParse (buf : List UInt8) (len : ℕ) : Reading Fault (Pn532Rx × Option ℕ × ℕ) :=
  if len < 6 then stop .invalidArg else
  (startsWith buf [0x00,0x00,0xFF] 0).bind fun preamble =>
  if !preamble then stop .invalidArg else
  (startsWith buf pn532Ack 0).bind fun ack =>
  if ack then .ok (.ack,none,0) else
  (startsWith buf pn532Nack 0).bind fun nack =>
  if nack then .ok (.nack,none,0) else
  (byteAt buf 3).bind fun n =>
  (byteAt buf 4).bind fun lcs =>
  if n = 0xFF ∧ lcs = 0xFF then stop .notSupported
  else if n+lcs ≠ 0 ∨ n = 0 then stop .io
  else if len < n.toNat+pn532FrameOverhead then stop .invalidArg else
  (sumFrom buf (n.toNat+1) 5 0).bind fun sum =>
  if sum ≠ 0 then stop .io else
  (byteAt buf (6+n.toNat)).bind fun post =>
  if post ≠ 0x00 then stop .invalidArg else
  (byteAt buf 5).bind fun tfi =>
  if n = 1 ∧ tfi = 0x7F then .ok (.appError,none,0)
  else .ok (.data,some 5,n.toNat)

section
variable {buf : List UInt8}

theorem startsWith_safe (bytes : List UInt8) :
    ∀ pos, pos+bytes.length ≤ buf.length → Safe (startsWith buf bytes pos) := by
  induction bytes with
  | nil => exact fun _ _ => safe_ok _
  | cons b bytes ih =>
    intro pos h
    rw [List.length_cons] at h
    apply (byteAt_safe (by omega)).bind
    intro a _
    split
    · exact safe_ok _
    · exact ih _ (by omega)

theorem startsWith_true (bytes : List UInt8) :
    ∀ pos, startsWith buf bytes pos = .ok true → ∃ rest, buf.drop pos = bytes++rest := by
  induction bytes with
  | nil => exact fun pos _ => ⟨_,rfl⟩
  | cons b bytes ih =>
    intro pos h
    obtain ⟨a,ha,hrest⟩ := bind_ok.mp h
    split at hrest
    · cases hrest
    · rename_i hab
      obtain ⟨rest,hr⟩ := ih (pos+1) hrest
      have hget := byteAt_ok.mp ha
      obtain ⟨hlt,hbuf⟩ := List.getElem?_eq_some_iff.mp hget
      rw [not_not] at hab
      exact ⟨rest,by rw [List.drop_eq_getElem_cons hlt, hr, hbuf, hab]; rfl⟩

theorem sumFrom_safe (n : ℕ) :
    ∀ pos sum, pos+n ≤ buf.length → Safe (sumFrom buf n pos sum) := by
  induction n with
  | zero => exact fun _ _ _ => safe_ok _
  | succ n ih =>
    intro pos sum h
    exact (byteAt_safe (by omega)).bind fun b _ => ih _ _ (by omega)

theorem sumFrom_ok (n : ℕ) : ∀ pos sum s, sumFrom buf n pos sum = .ok s →
    s = ((buf.drop pos).take n).foldl (·+·) sum := by
  induction n with
  | zero =>
    intro pos sum s h
    exact (Except.ok.inj h).symm
  | succ n ih =>
    intro pos sum s h
    obtain ⟨b,hb,hrest⟩ := bind_ok.mp h
    obtain ⟨hlt,hbuf⟩ := List.getElem?_eq_some_iff.mp (byteAt_ok.mp hb)
    rw [ih _ _ _ hrest, List.drop_eq_getElem_cons hlt, List.take_succ_cons, List.foldl_cons, hbuf]

theorem parse_safe {len : ℕ} (hlen : len ≤ buf.length) : Safe (pn532FrameParse buf len) := by
  have h3 : [0x00,0x00,(0xFF : UInt8)].length = 3 := rfl
  have hack : pn532Ack.length = 6 := rfl
  have hnack : pn532Nack.length = 6 := rfl
  unfold pn532FrameParse pn532FrameOverhead
  refine .guard fun h6 => (startsWith_safe _ _ (by omega)).bind fun preamble _ => ?_
  refine .guard fun _ => (startsWith_safe _ _ (by omega)).bind fun ack _ => ?_
  by_cases hack : ack = true
  · rw [if_pos hack]
    exact safe_ok _
  rw [if_neg hack]
  apply (startsWith_safe _ _ (by omega)).bind
  intro nack _
  by_cases hnack : nack = true
  · rw [if_pos hnack]
    exact safe_ok _
  rw [if_neg hnack]
  refine (byteAt_safe (by omega)).bind fun n _ => (byteAt_safe (by omega)).bind fun lcs _ => ?_
  refine .guard fun _ => .guard fun _ => .guard fun hn => ?_
  refine (sumFrom_safe _ _ _ (by omega)).bind fun sum _ => .guard fun _ => ?_
  refine (byteAt_safe (by omega)).bind fun post _ => .guard fun _ => ?_
  apply (byteAt_safe (by omega)).bind
  intro tfi _
  split <;> exact safe_ok _

/-- The buffer starts with a normal frame around this body, both checksums right. -/
def Carries (buf body : List UInt8) : Prop :=
  ∃ len lcs dcs rest, buf = [0x00,0x00,0xFF,len,lcs]++body++[dcs,0x00]++rest ∧
    len.toNat = body.length ∧ len+lcs = 0 ∧ body.foldl (·+·) 0+dcs = 0

theorem split_at {l : List UInt8} {n : ℕ} {b : UInt8} (h : l[n+1]? = some b) :
    ∃ a rest, l = l.take n++[a,b]++rest ∧ l.take (n+1) = l.take n++[a] ∧ (l.take n).length = n := by
  obtain ⟨hlt,hb⟩ := List.getElem?_eq_some_iff.mp h
  have hn : n < l.length := Nat.lt_of_succ_lt hlt
  refine ⟨l[n],l.drop (n+2),?_,List.take_succ_eq_append_getElem hn,?_⟩
  · rw [← hb, List.append_assoc]
    show l = l.take n++l[n]::l[n+1]::l.drop (n+2)
    rw [← List.drop_eq_getElem_cons hlt, ← List.drop_eq_getElem_cons hn, List.take_append_drop]
  · rw [List.length_take]
    omega

/-- What is accepted starts with an acknowledgement, or lies within the bytes given and is a
well-formed frame. -/
theorem parse_framed {len m : ℕ} {kind : Pn532Rx} {start : Option ℕ}
    (h : pn532FrameParse buf len = .ok (kind,start,m)) :
    (kind = .ack ∧ ∃ rest, buf = pn532Ack++rest) ∨ (kind = .nack ∧ ∃ rest, buf = pn532Nack++rest) ∨
    ∃ n, 0 < n ∧ n+pn532FrameOverhead ≤ len ∧ Carries buf ((buf.drop 5).take n) ∧
      (kind = .data → start = some 5 ∧ m = n) := by
  unfold pn532FrameParse at h
  obtain ⟨-,h⟩ := guard_ok.mp h
  obtain ⟨preamble,hpre,h⟩ := bind_ok.mp h
  obtain ⟨hp,h⟩ := guard_ok.mp h
  simp only [Bool.not_eq_true', Bool.not_eq_false] at hp
  subst hp
  obtain ⟨tail,htail⟩ := startsWith_true _ _ hpre
  obtain ⟨ack,hack,h⟩ := bind_ok.mp h
  by_cases hyes : ack = true
  · rw [if_pos hyes] at h
    rw [hyes] at hack
    cases h
    exact .inl ⟨rfl,startsWith_true _ _ hack⟩
  rw [if_neg hyes] at h
  obtain ⟨nack,hnack,h⟩ := bind_ok.mp h
  by_cases hyes : nack = true
  · rw [if_pos hyes] at h
    rw [hyes] at hnack
    cases h
    exact .inr (.inl ⟨rfl,startsWith_true _ _ hnack⟩)
  rw [if_neg hyes] at h
  obtain ⟨n,hn,h⟩ := bind_ok.mp h
  obtain ⟨lcs,hlcs,h⟩ := bind_ok.mp h
  obtain ⟨-,h⟩ := guard_ok.mp h
  obtain ⟨hcheck,h⟩ := guard_ok.mp h
  rw [not_or, not_not] at hcheck
  obtain ⟨hlong,h⟩ := guard_ok.mp h
  obtain ⟨sum,hsum,h⟩ := bind_ok.mp h
  obtain ⟨hzero,h⟩ := guard_ok.mp h
  rw [not_not] at hzero
  obtain ⟨post,hpost,h⟩ := bind_ok.mp h
  obtain ⟨hpost0,h⟩ := guard_ok.mp h
  rw [not_not] at hpost0
  obtain ⟨tfi,-,h⟩ := bind_ok.mp h
  have hget : ∀ i b, (byteAt buf i : Reading Fault UInt8) = .ok b → buf[i]? = some b :=
    fun i b h => byteAt_ok.mp h
  have h3 := hget 3 n hn
  have h4 := hget 4 lcs hlcs
  have hend := hget _ post hpost
  have hkind : kind = .data → start = some 5 ∧ m = n.toNat := by
    rintro rfl
    split at h
    · cases h
    · cases h
      exact ⟨rfl,rfl⟩
  rw [List.drop_zero] at htail
  subst htail
  match tail, h3, h4 with
  | _::_::body, h3, h4 =>
    cases h3
    cases h4
    have hbody : body[n.toNat+1]? = some 0 := by
      rw [← hpost0, ← hend, show 6+n.toNat = n.toNat+1+5 by omega]
      rfl
    obtain ⟨dcs,rest,hsplit,htake,hlen⟩ := split_at hbody
    have hdrop : ([0x00,0x00,0xFF]++n::lcs::body).drop 5 = body := rfl
    have hchecksum := sumFrom_ok _ _ _ _ hsum
    rw [hzero, hdrop, htake, List.foldl_append] at hchecksum
    refine .inr (.inr ⟨n.toNat,?_,by omega,?_,hkind⟩)
    · exact Nat.pos_of_ne_zero fun h0 => hcheck.2 (UInt8.toNat_inj.mp h0)
    · rw [hdrop]
      refine ⟨n,lcs,dcs,rest,?_,hlen.symm,hcheck.1,hchecksum.symm⟩
      rw [List.append_assoc, List.append_assoc, ← List.append_assoc (body.take n.toNat), ← hsplit]
      rfl

theorem parse_data {len m : ℕ} {start : Option ℕ} (h : pn532FrameParse buf len = .ok (.data,start,m)) :
    start = some 5 ∧ 0 < m ∧ m+pn532FrameOverhead ≤ len ∧ Carries buf ((buf.drop 5).take m) := by
  obtain ⟨hkind,-⟩ | ⟨hkind,-⟩ | ⟨n,hpos,hlen,hcarries,hdata⟩ := parse_framed h
  · cases hkind
  · cases hkind
  · obtain ⟨hstart,rfl⟩ := hdata rfl
    exact ⟨hstart,hpos,hlen,hcarries⟩

end

end StarkOne.Pn532Frame
