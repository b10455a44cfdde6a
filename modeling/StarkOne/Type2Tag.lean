import StarkOne.NfcWriter

/-!
# A faithful Type 2 tag

The abstract tag the drivers talk to: a memory that READ and WRITE access by
pages, a UID, and perhaps an answer to GET_VERSION. Only a selected tag
answers, and a refused command sends it back to idle. The data area is seen
through the bytes of its memory.
-/

set_option autoImplicit false

namespace StarkOne.Type2Tag
open StarkOne.Link StarkOne.Pn532 StarkOne.NfcType2 StarkOne.NfcReader StarkOne.NfcWriter

structure Identity where
  uid : List UInt8
  uid_length : uid.length = 4 ∨ uid.length = 7 ∨ uid.length = 10
  atqa : ℕ
  atqa_lt : atqa < 2^16
  version : Option (List UInt8)
  version_length : ∀ v ∈ version, v.length = 8
  /-- The status of a refused command, not the one of a tag that left. -/
  nak : UInt8
  nak_refuses : nak ≠ 0 ∧ nak &&& 0x3F ≠ statusTimeout

structure Tag where
  memory : ℕ → UInt8
  selected : Bool

def bytesAt (memory : ℕ → UInt8) (start n : ℕ) : List UInt8 :=
  (List.range n).map (fun i => memory (start+i))

def tagAnswer (i : Identity) (t : Tag) : List UInt8 → List UInt8 × Tag
  | [c,p] =>
    if c = t2Read then (0x00::bytesAt t.memory (4*p.toNat) 16,t)
    else ([i.nak],{ t with selected := false })
  | [c] =>
    match if c = t2Version then i.version else none with
    | some v => (0x00::v,t)
    | none => ([i.nak],{ t with selected := false })
  | [c,p,d₀,d₁,d₂,d₃] =>
    if c = t2Write then
      ([0x00],{ t with memory := memcpy t.memory (4*p.toNat) [d₀,d₁,d₂,d₃] 4 })
    else ([i.nak],{ t with selected := false })
  | _ => ([i.nak],{ t with selected := false })

def targetData (i : Identity) : List UInt8 :=
  [1,1,UInt8.ofNat (i.atqa/256),UInt8.ofNat i.atqa,0x00,UInt8.ofNat i.uid.length] ++ i.uid

def fit (r : List UInt8) (q : Command) : Reply q :=
  if h : r.length ≤ q.cap then .ok ⟨r,h⟩ else .error .io

def present (i : Identity) (t : Tag) (q : Command) : Reply q × Tag :=
  if q.code = cmdListPassive then (fit (targetData i) q,{ t with selected := true })
  else if q.code = cmdRelease then (fit [0x00] q,{ t with selected := false })
  else if q.code = cmdDataExch then
    if t.selected then
      let r := tagAnswer i t q.params.tail
      (fit r.1 q,r.2)
    else (fit [statusTimeout] q,t)
  else (.error .io,t)

def described (i : Identity) : NfcTag :=
  { uid := i.uid, atqa := i.atqa, sak := 0x00, tech := .unknown, pages := 0 }

section
variable {i : Identity} {t t' : Tag}

theorem serve_command (code : UInt8) (params : List UInt8) (cap : ℕ) (r : List UInt8)
    (h : present i t ⟨code,params,cap⟩ = (fit r ⟨code,params,cap⟩,t')) (hr : r.length ≤ cap) :
    serve (present i) t (pn532Command code params cap).run = some (.ok r,t') := by
  unfold pn532Command
  rw [ExceptT.run_mk, serve_bind, serve_query, h]
  simp [fit, hr, Except.map]

theorem serve_checked {α : Type} (code : UInt8) (params : List UInt8) (cap : ℕ) (r : List UInt8)
    (check : List UInt8 → Except Fault α)
    (h : present i t ⟨code,params,cap⟩ = (fit r ⟨code,params,cap⟩,t')) (hr : r.length ≤ cap) :
    serve (present i) t (pn532Command code params cap >>= fun r => ExceptT.mk (pure (check r))).run =
      some (check r,t') := by
  rw [serve_try _ _ _ _ _ _ (serve_command code params cap r h hr)]
  rfl

theorem targetData_length : (targetData i).length = 6+i.uid.length := by
  simp [targetData]
  omega

theorem pollTarget_targetData : pollTarget (targetData i) = .ok (some (described i)) := by
  have hu := i.uid_length
  have ha := i.atqa_lt
  have hl := targetData_length (i := i)
  have hn : ((targetData i).getD 5 0).toNat = i.uid.length := by
    simp only [targetData, List.cons_append, List.getD_cons_succ, List.getD_cons_zero]
    exact toNat_ofNat_lt _ (by omega)
  unfold pollTarget
  simp only [hn, hl]
  rw [if_neg (by simp [targetData]), if_neg (by omega)]
  have hq : ((targetData i).getD 2 0).toNat*256+((targetData i).getD 3 0).toNat = i.atqa := by
    simp only [targetData, List.cons_append, List.getD_cons_succ, List.getD_cons_zero]
    rw [toNat_ofNat_lt _ (by omega), UInt8.toNat_ofNat']
    omega
  rw [hq]
  simp [targetData, described]

theorem serve_poll : serve (present i) t nfcReaderPoll.run =
    some (.ok (some (described i)),{ t with selected := true }) := by
  have hu := i.uid_length
  have h := serve_checked (i := i) (t := t) cmdListPassive [0x01,0x00] 64 (targetData i) pollTarget
    rfl (by rw [targetData_length]; omega)
  rw [pollTarget_targetData] at h
  exact h

theorem serve_reselect (expect : NfcTag) (hu : expect.uid = i.uid) :
    serve (present i) t (nfcReaderReselect expect).run =
      some (.ok (),{ t with selected := true }) := by
  unfold nfcReaderReselect
  rw [serve_try _ _ _ _ _ _ serve_poll]
  simp [sameTag, described, hu]

theorem serve_release : serve (present i) t nfcReaderRelease =
    some ((),{ t with selected := false }) := by
  unfold nfcReaderRelease
  rw [serve_bind, serve_command cmdRelease [0x00] 1 [0x00] rfl (by simp)]
  rfl

theorem serve_exchange (cmd out : List UInt8) (cap : ℕ) (hs : t.selected = true)
    (hn : cmd.length ≤ 6) (hc : cap ≤ 32) (h : tagAnswer i t cmd = (0x00::out,t'))
    (ho : out.length ≤ cap) :
    serve (present i) t (nfcReaderExchange cmd cap).run = some (.ok out,t') := by
  unfold nfcReaderExchange
  rw [if_neg (by omega)]
  have hp : present i t ⟨cmdDataExch,0x01::cmd,cap+1⟩ =
      (fit (0x00::out) ⟨cmdDataExch,0x01::cmd,cap+1⟩,t') := by
    unfold present
    rw [if_neg (by decide : cmdDataExch ≠ cmdListPassive),
      if_neg (by decide : cmdDataExch ≠ cmdRelease), if_pos rfl, if_pos hs]
    simp only [List.tail_cons, h]
  exact serve_checked _ _ _ (0x00::out) exchangeStatus hp (by simpa using ho)

theorem bytesAt_length (memory : ℕ → UInt8) (start n : ℕ) :
    (bytesAt memory start n).length = n := by
  simp [bytesAt]

theorem bytesAt_getD (memory : ℕ → UInt8) (start n k : ℕ) (hk : k < n) :
    (bytesAt memory start n).getD k 0 = memory (start+k) := by
  simp [bytesAt, List.getD, List.getElem?_range hk]

theorem serve_read4 (page : ℕ) (hp : page < 256) (hs : t.selected = true) :
    serve (present i) t (read4 page).run = some (.ok (bytesAt t.memory (4*page) 16),t) := by
  have ht : tagAnswer i t (readCmd page) = (0x00::bytesAt t.memory (4*page) 16,t) := by
    simp only [tagAnswer, readCmd, if_pos, toNat_ofNat_lt page hp]
  unfold read4
  rw [serve_try _ _ _ _ _ _ (serve_exchange (readCmd page) _ 16 hs (by simp [readCmd]) (by omega) ht
    (by rw [bytesAt_length]))]
  simp [whole, bytesAt_length]

/-- A WRITE of the tag stores the page of the TLV. -/
theorem serve_write (msg : List UInt8) (page : ℕ) (hp : dataPage+page < 256)
    (hs : t.selected = true) :
    serve (present i) t (nfcReaderExchange (writeCmd msg page) 0).run = some (.ok [],
      { t with memory := memcpy t.memory (4*(dataPage+page)) (nfcT2TlvPage msg page) 4 }) := by
  refine serve_exchange _ [] 0 hs (by rw [writeCmd_length]) (by omega) ?_ (le_refl _)
  have ha : tagAnswer i t (writeCmd msg page) = ([0x00],
      ⟨memcpy t.memory (4*(UInt8.ofNat (dataPage+page)).toNat) (nfcT2TlvPage msg page) 4,
        t.selected⟩) := rfl
  rw [ha, toNat_ofNat_lt _ hp]

end

end StarkOne.Type2Tag
