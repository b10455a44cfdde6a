import StarkOne.NfcReader

/-!
# Writing an NDEF message

The tag is selected again and its container read, then the padded TLV is
written one page a WRITE and read back four pages a READ. The result carries
the number of pages written next to the error.
-/

set_option autoImplicit false

namespace StarkOne.NfcWriter
open StarkOne.Link StarkOne.Pn532 StarkOne.NfcType2 StarkOne.NfcReader

def roomFor (cc : NfcT2Cc) (len : ℕ) : Except Fault ℕ :=
  let n := nfcT2TlvSize len
  if !cc.valid || !cc.writable then .error .notSupported
  else if n = 0 ∨ n > cc.dataBytes then .error .noSpace
  else .ok (n/4)

/-- `write_all` up to its first loop: the number of pages to write. -/
def grantedPages (expect : NfcTag) (len : ℕ) : Nfc ℕ := do
  nfcReaderReselect expect
  let buf ← read4 3
  ExceptT.mk (pure (roomFor (ccOf buf) len))

def writeCmd (msg : List UInt8) (page : ℕ) : List UInt8 :=
  t2Write::UInt8.ofNat (dataPage+page)::nfcT2TlvPage msg page

def writePages (msg : List UInt8) : ℕ → ℕ → ℕ → NfcDriver (Except Fault Unit × ℕ)
  | 0, _, pages => pure (.ok (),pages)
  | todo+1, page, pages => do
    let r ← (nfcReaderExchange (writeCmd msg page) 0).run
    match r with
    | .error e => pure (.error e,pages)
    | .ok _ => writePages msg todo (page+1) (pages+1)

def sameBytes (msg buf : List UInt8) (count page : ℕ) : Bool :=
  (List.range 4).all (fun k => page+k ≥ count ||
    (buf.drop (4*k)).take 4 == nfcT2TlvPage msg (page+k))

def readBack (msg : List UInt8) (count : ℕ) : ℕ → ℕ → Nfc Unit
  | 0, page => ExceptT.mk (if page < count then .spin else pure (.ok ()))
  | rounds+1, page =>
    if page < count then do
      let buf ← read4 (dataPage+page)
      if sameBytes msg buf count page then readBack msg count rounds (page+4)
      else ExceptT.mk (pure (.error .io))
    else ExceptT.mk (pure (.ok ()))

def writeAll (expect : NfcTag) (msg : List UInt8) : NfcDriver (Except Fault Unit × ℕ) := do
  let r ← (grantedPages expect msg.length).run
  match r with
  | .error e => pure (.error e,0)
  | .ok count =>
    let (r,pages) ← writePages msg count 0 0
    match r with
    | .error e => pure (.error e,pages)
    | .ok _ =>
      let r ← (readBack msg count count 0).run
      pure (r,pages)

def nfcWriterWrite (expect : NfcTag) (msg : List UInt8) : NfcDriver (Except Fault Unit × ℕ) := do
  let out ← writeAll expect msg
  nfcReaderRelease
  pure out

def writeCommand (msg : List UInt8) (page : ℕ) : Command :=
  ⟨cmdDataExch,0x01::writeCmd msg page,1⟩

theorem roomFor_ok (cc : NfcT2Cc) (len count : ℕ) (h : roomFor cc len = .ok count) :
    cc.valid = true ∧ cc.writable = true ∧ nfcT2TlvSize len ≠ 0 ∧
      nfcT2TlvSize len ≤ cc.dataBytes ∧ count = nfcT2TlvSize len/4 := by
  unfold roomFor at h
  simp only at h
  by_cases hc : (!cc.valid || !cc.writable) = true
  · rw [if_pos hc] at h
    cases h
  rw [if_neg hc] at h
  by_cases hn : nfcT2TlvSize len = 0 ∨ nfcT2TlvSize len > cc.dataBytes
  · rw [if_pos hn] at h
    cases h
  rw [if_neg hn] at h
  obtain ⟨hv,hw⟩ : cc.valid = true ∧ cc.writable = true := by
    simpa using hc
  exact ⟨hv,hw,fun h0 => hn (Or.inl h0),by omega,(Except.ok.inj h).symm⟩

theorem writeCmd_length (msg : List UInt8) (page : ℕ) : (writeCmd msg page).length = 6 := by
  simp [writeCmd, nfcT2TlvPage_length]

/-- The write loop sends the pages one after the other, all of them if it succeeds. -/
theorem trace_writePages (msg : List UInt8) (todo page pages : ℕ) (log : List NfcExchange)
    (r : Except Fault Unit) (n : ℕ) (h : Trace (writePages msg todo page pages) log (r,n)) :
    log.map Exchange.request = (List.range' page log.length).map (writeCommand msg) ∧
      log.length ≤ todo ∧ (r = .ok () → log.length = todo ∧ n = pages+todo) := by
  induction todo generalizing page pages log with
  | zero =>
    obtain ⟨rfl,hr⟩ := h
    exact ⟨rfl,le_refl _,fun _ => ⟨rfl,(Prod.mk.inj hr).2.symm⟩⟩
  | succ todo ih =>
    rw [writePages] at h
    obtain ⟨l₁,l₂,x,rfl,hx,hr⟩ := (trace_bind _ _ _ _).mp h
    obtain ⟨e,hq,rfl,-⟩ := (trace_exchange _ _ (by rw [writeCmd_length]) (by omega) _ _).mp hx
    cases x with
    | error err =>
      obtain ⟨rfl,hr⟩ := hr
      refine ⟨by simp [hq, writeCommand],by simp,fun hok => ?_⟩
      rw [← (Prod.mk.inj hr).1] at hok
      cases hok
    | ok out =>
      obtain ⟨hm,hl,hok⟩ := ih _ _ _ hr
      refine ⟨?_,by simpa using hl,fun h => ?_⟩
      · rw [List.cons_append, List.nil_append, List.map_cons, hm, hq, List.length_cons,
          List.range'_succ, List.map_cons]
        rfl
      · obtain ⟨h₁,h₂⟩ := hok h
        exact ⟨by simp [h₁],by omega⟩

def ReadsBack (msg : List UInt8) (page : ℕ) (e : NfcExchange) : Prop :=
  ∃ q buf, e.request = readCommand q ∧ readBytes e = .ok buf ∧ q ≤ dataPage+page ∧
    dataPage+page < q+4 ∧ (buf.drop (4*(dataPage+page-q))).take 4 = nfcT2TlvPage msg page

theorem trace_readBack (msg : List UInt8) (count rounds page : ℕ) (log : List NfcExchange)
    (r : Except Fault Unit) (h : Trace (readBack msg count rounds page).run log r) :
    (∀ e ∈ log, ∃ q, e.request = readCommand q) ∧
      (r = .ok () → ∀ k, page ≤ k → k < count → ∃ e ∈ log, ReadsBack msg k e) := by
  induction rounds generalizing page log with
  | zero =>
    rw [readBack, ExceptT.run_mk] at h
    split at h
    · exact h.elim
    · obtain ⟨rfl,-⟩ := h
      exact ⟨by simp,fun _ k h₁ h₂ => absurd h₂ (by omega)⟩
  | succ rounds ih =>
    rw [readBack] at h
    split at h
    swap
    · obtain ⟨rfl,-⟩ := h
      exact ⟨by simp,fun _ k h₁ h₂ => absurd h₂ (by omega)⟩
    rcases (trace_try _ _ _ _).mp h with ⟨err,rfl,hp⟩ | ⟨l₁,l₂,buf,rfl,hp,hr⟩
    · obtain ⟨e,hq,rfl,-⟩ := trace_read4 _ _ _ hp
      exact ⟨by simp [hq],fun hok => by cases hok⟩
    obtain ⟨e,hq,rfl,hb⟩ := trace_read4 _ _ _ hp
    by_cases hs : sameBytes msg buf count page = true
    swap
    · rw [if_neg hs] at hr
      obtain ⟨rfl,rfl⟩ := hr
      exact ⟨by simp [hq],fun hok => by cases hok⟩
    rw [if_pos hs] at hr
    obtain ⟨hreads,hback⟩ := ih _ _ hr
    refine ⟨?_,fun hok k h₁ h₂ => ?_⟩
    · intro x hx
      rcases List.mem_cons.mp hx with rfl | hx
      · exact ⟨_,hq⟩
      · exact hreads x hx
    · by_cases hk : page+4 ≤ k
      · obtain ⟨x,hx,hb'⟩ := hback hok k hk h₂
        exact ⟨x,List.mem_cons_of_mem _ hx,hb'⟩
      refine ⟨e,List.mem_cons_self,dataPage+page,buf,hq,hb.symm,by omega,by omega,?_⟩
      have hall := List.all_eq_true.mp hs (k-page) (List.mem_range.mpr (by omega))
      rw [show page+(k-page) = k by omega] at hall
      rw [show dataPage+k-(dataPage+page) = k-page by omega]
      simpa [show ¬ k ≥ count by omega] using hall

end StarkOne.NfcWriter
