import StarkOne.NfcRoundTrip

/-!
# Writes stay in the tag's user memory

Whatever the link answers, a trace of the writer is a selection, the container,
pages one after the other from the data area's first, and reads. The writes
are thus counted by their place in the trace, which bounds the page number.
-/

set_option autoImplicit false

namespace StarkOne.NfcWriteSafety
open StarkOne.Link StarkOne.Pn532 StarkOne.NfcType2 StarkOne.NfcReader StarkOne.NfcWriter StarkOne.Type2Tag
  StarkOne.NfcRoundTrip

/-- The exchange is a Type 2 WRITE of `data` to page `p`, to whichever target. -/
def IsWrite (e : NfcExchange) (p : UInt8) (data : List UInt8) : Prop :=
  e.request.code = cmdDataExch ∧ ∃ tg, e.request.params = tg::t2Write::p::data

def Harmless (e : NfcExchange) : Prop := ∀ p data, ¬IsWrite e p data

theorem harmless_of_code (e : NfcExchange) (c : UInt8) (hc : e.request.code = c)
    (hne : c ≠ cmdDataExch) : Harmless e :=
  fun _ _ h => hne (hc.symm.trans h.1)

theorem harmless_read (e : NfcExchange) (q : ℕ) (hq : e.request = readCommand q) : Harmless e := by
  rintro p data ⟨-,tg,hp⟩
  rw [hq] at hp
  exact absurd (List.cons.inj (List.cons.inj hp).2).1 (by decide)

/-- What stands before a write when `sent` pages have gone out: the selection of
the expected tag and a container that grants the page. -/
structure Granted (expect : NfcTag) (msg : List UInt8) (before : List NfcExchange) (p : UInt8)
    (data : List UInt8) : Prop where
  grant : ∃ sel rd sent buf, before = sel::rd::sent ∧ Selects expect sel ∧
    rd.request = readCommand 3 ∧ readBytes rd = .ok buf ∧
    (ccOf buf).valid = true ∧ (ccOf buf).writable = true ∧
    4*(p.toNat-4)+4 ≤ (ccOf buf).dataBytes ∧
    p.toNat = 4+sent.length ∧ data = nfcT2TlvPage msg sent.length
  user : 4 ≤ p.toNat

structure WriteSafe (expect : NfcTag) (msg : List UInt8) (log : List NfcExchange)
    (r : Except Fault Unit × ℕ) : Prop where
  granted : ∀ before e after p data, log = before++e::after → IsWrite e p data →
    Granted expect msg before p data
  verified : r.1 = .ok () → ∀ k < nfcT2TlvSize msg.length/4,
    ∃ before e after, log = before++e::after ∧ ReadsBack msg k e ∧ ∀ x ∈ e::after, Harmless x

theorem trace_grantedPages (expect : NfcTag) (len : ℕ) (log : List NfcExchange)
    (r : Except Fault ℕ) (h : Trace (grantedPages expect len).run log r) :
    (∀ e ∈ log, Harmless e) ∧ ∀ count, r = .ok count → ∃ sel rd buf, log = [sel,rd] ∧
      Selects expect sel ∧ rd.request = readCommand 3 ∧ readBytes rd = .ok buf ∧
      roomFor (ccOf buf) len = .ok count := by
  unfold grantedPages at h
  rcases (trace_try _ _ _ _).mp h with ⟨err,rfl,hs⟩ | ⟨l₁,l₂,u,rfl,hs,hr⟩
  · obtain ⟨sel,hc,rfl,-⟩ := trace_reselect _ _ _ hs
    exact ⟨by simpa using harmless_of_code sel _ hc (by decide),fun _ hok => by cases hok⟩
  obtain ⟨sel,hc,rfl,hsel⟩ := trace_reselect _ _ _ hs
  have hh := harmless_of_code sel _ hc (by decide)
  rcases (trace_try _ _ _ _).mp hr with ⟨err,rfl,hb⟩ | ⟨l₃,l₄,buf,rfl,hb,rfl,rfl⟩
  · obtain ⟨rd,hq,rfl,-⟩ := trace_read4 _ _ _ hb
    exact ⟨by simpa using ⟨hh,harmless_read rd 3 hq⟩,fun _ hok => by cases hok⟩
  obtain ⟨rd,hq,rfl,hbuf⟩ := trace_read4 _ _ _ hb
  exact ⟨by simpa using ⟨hh,harmless_read rd 3 hq⟩,
    fun count hok => ⟨sel,rd,buf,rfl,hsel rfl,hq,hbuf.symm,hok⟩⟩

theorem split_middle {A B C before after : List NfcExchange} {e : NfcExchange}
    (h : A++(B++C) = before++e::after) (hA : ∀ x ∈ A, Harmless x) (hC : ∀ x ∈ C, Harmless x)
    (he : ¬Harmless e) : ∃ s t, B = s++e::t ∧ before = A++s := by
  rcases List.append_eq_append_iff.mp h with ⟨s,rfl,hs⟩ | ⟨s,rfl,hs⟩
  · rcases List.append_eq_append_iff.mp hs with ⟨t,rfl,ht⟩ | ⟨t,rfl,ht⟩
    · exact absurd (hC e (ht ▸ by simp)) he
    · cases t with
      | nil => exact absurd (hC e ((List.nil_append C ▸ ht) ▸ List.mem_cons_self)) he
      | cons x t =>
        obtain ⟨rfl,rfl⟩ := List.cons.inj ht
        exact ⟨s,t,rfl,rfl⟩
  · cases s with
    | nil =>
      cases B with
      | nil => exact absurd (hC e (by simp at hs; rw [← hs]; simp)) he
      | cons x B =>
        obtain ⟨rfl,-⟩ := List.cons.inj hs
        exact ⟨[],B,rfl,by simp⟩
    | cons x s =>
      obtain ⟨rfl,-⟩ := List.cons.inj hs
      exact absurd (hA e (by simp)) he

/-- The `i`-th exchange of the write loop writes page `i` of the TLV. -/
theorem written_page {msg : List UInt8} {B s t : List NfcExchange} {e : NfcExchange} {p : UInt8}
    {data : List UInt8}
    (hm : B.map Exchange.request = (List.range' 0 B.length).map (writeCommand msg))
    (hB : B = s++e::t) (he : IsWrite e p data) :
    p = UInt8.ofNat (dataPage+s.length) ∧ data = nfcT2TlvPage msg s.length := by
  have hi := congrArg (fun l => l[s.length]?) hm
  have hlt : s.length < B.length := by simp [hB]
  simp only [List.getElem?_map, List.getElem?_range' hlt] at hi
  rw [hB, List.getElem?_append_right (le_refl _)] at hi
  simp only [Nat.sub_self, List.getElem?_cons_zero, Option.map_some, Option.some.injEq] at hi
  obtain ⟨-,tg,hp⟩ := he
  rw [hi] at hp
  have ht := (List.cons.inj (List.cons.inj hp).2).2
  obtain ⟨hpage,hdata⟩ := List.cons.inj ht
  exact ⟨by rw [← hpage]; simp,by rw [← hdata]; simp⟩

theorem trace_writeAll (expect : NfcTag) (msg : List UInt8) (hl : msg.length ≤ nfcNdefMax)
    (log : List NfcExchange) (r : Except Fault Unit × ℕ) (h : Trace (writeAll expect msg) log r)
    (rel : NfcExchange) (hrel : Harmless rel) : WriteSafe expect msg (log++[rel]) r := by
  unfold writeAll at h
  obtain ⟨A,l₂,x,rfl,hx,hr⟩ := (trace_bind _ _ _ _).mp h
  obtain ⟨hA,hok⟩ := trace_grantedPages _ _ _ _ hx
  cases x with
  | error err =>
    obtain ⟨rfl,rfl⟩ := hr
    refine ⟨fun before e after p data hs he => ?_,fun hr => by cases hr⟩
    have hmem : e ∈ A++[]++[rel] := hs ▸ by simp
    rcases List.mem_append.mp hmem with hm | hm
    · exact absurd he (hA e (by simpa using hm) p data)
    · exact absurd he (List.mem_singleton.mp hm ▸ hrel p data)
  | ok count =>
    obtain ⟨sel,rd,buf,rfl,hsel,hq,hbuf,hroom⟩ := hok count rfl
    obtain ⟨hv,hw,-,hsize,rfl⟩ := roomFor_ok _ _ _ hroom
    obtain ⟨B,C,⟨r',n⟩,rfl,hB,hC⟩ := (trace_bind _ _ _ _).mp hr
    obtain ⟨hm,hlen,hall⟩ := trace_writePages _ _ _ _ _ _ _ hB
    -- what follows the write loop is harmless
    have htail : (∀ x ∈ C++[rel], Harmless x) ∧ (r.1 = .ok () →
        ∀ k < nfcT2TlvSize msg.length/4, ∃ e ∈ C, ReadsBack msg k e) := by
      cases r' with
      | error err =>
        obtain ⟨rfl,rfl⟩ := hC
        exact ⟨by simpa using hrel,fun hr => by cases hr⟩
      | ok u =>
        obtain ⟨l₃,l₄,b,rfl,hb,rfl,rfl⟩ := (trace_bind _ _ _ _).mp hC
        obtain ⟨hreads,hback⟩ := trace_readBack _ _ _ _ _ _ hb
        refine ⟨fun x hx => ?_,fun hr k hk => ?_⟩
        · rcases List.mem_append.mp hx with hx | hx
          · obtain ⟨q,hq⟩ := hreads x (by simpa using hx)
            exact harmless_read x q hq
          · exact List.mem_singleton.mp hx ▸ hrel
        · obtain ⟨e,he,hb⟩ := hback hr k (Nat.zero_le _) hk
          exact ⟨e,by simpa using he,hb⟩
    refine ⟨fun before e after p data hs he => ?_,fun hr k hk => ?_⟩
    · have hs' : [sel,rd]++(B++(C++[rel])) = before++e::after := by simpa using hs
      obtain ⟨s,t,hsplit,rfl⟩ := split_middle hs' hA htail.1 (fun hh => hh p data he)
      obtain ⟨rfl,rfl⟩ := written_page hm hsplit he
      have hs4 : s.length < nfcT2TlvSize msg.length/4 := by
        have : s.length < B.length := by simp [hsplit]
        omega
      have hle := (nfcT2TlvSize_pos msg.length (by unfold nfcNdefMax at hl; omega)).2
      have hh := tlvHdr_le msg.length
      have hp : (UInt8.ofNat (dataPage+s.length)).toNat = 4+s.length := by
        rw [UInt8.toNat_ofNat']
        unfold nfcNdefMax at hl
        unfold dataPage
        omega
      exact ⟨⟨sel,rd,s,buf,rfl,hsel,hq,hbuf,hv,hw,by omega,hp,rfl⟩,by omega⟩
    · obtain ⟨e,he,hb⟩ := htail.2 hr k hk
      obtain ⟨s,t,rfl⟩ := List.append_of_mem he
      refine ⟨[sel,rd]++(B++s),e,t++[rel],by simp,hb,fun x hx => htail.1 x ?_⟩
      rcases List.mem_cons.mp hx with rfl | hx
      · simp
      · rw [List.append_assoc, List.cons_append]
        exact List.mem_append_right s (List.mem_cons_of_mem e hx)

/-- Whatever the link answers, every WRITE goes to a page inside the data area
that the container of the expected tag declares, and success means that every
page of the padded TLV was read back after the last write. -/
theorem nfc_write_safe (expect : NfcTag) (msg : List UInt8) (hl : msg.length ≤ nfcNdefMax)
    (log : List NfcExchange) (r : Except Fault Unit × ℕ)
    (h : Trace (nfcWriterWrite expect msg) log r) : WriteSafe expect msg log r := by
  unfold nfcWriterWrite at h
  obtain ⟨l₁,l₂,out,rfl,ho,hr⟩ := (trace_bind _ _ _ _).mp h
  obtain ⟨l₃,l₄,u,rfl,hrel,rfl,rfl⟩ := (trace_bind _ _ _ _).mp hr
  obtain ⟨rel,hc,rfl⟩ := trace_release _ _ hrel
  exact trace_writeAll expect msg hl _ _ ho rel (harmless_of_code rel _ hc (by decide))

/-- Two pages go to a blank tag, and both are read back. -/
theorem nfc_write_safe_blank :
    ∃ log, Trace (nfcWriterWrite (described ultralight) [0xD0,0x00,0x00]) log (.ok (),2) ∧
      WriteSafe (described ultralight) [0xD0,0x00,0x00] log (.ok (),2) := by
  have hs := serve_write_all (i := ultralight) (described ultralight) [0xD0,0x00,0x00] blank rfl
    (by decide) (by decide) (by decide)
  dsimp only at hs
  rw [if_pos (by decide)] at hs
  obtain ⟨log,hlog⟩ := trace_of_serve _ _ _ _ _ hs
  exact ⟨log,hlog,nfc_write_safe _ _ (by decide) log _ hlog⟩

end StarkOne.NfcWriteSafety
