import Mathlib.Logic.Relation
import StarkOne.NfcDumping
import StarkOne.NfcRoundTrip

/-!
# Searching an area that is still being fetched

`read_type2` walks over the bytes it has, and where the walk needs more it
fetches them and walks again from the start. On the bytes a tag holds a walk
over a prefix either asks for more or ends as the walk over the whole area does.
-/

set_option autoImplicit false

namespace StarkOne.NfcTlvSearch
open StarkOne.Link StarkOne.Pn532 StarkOne.NfcType2 StarkOne.NfcReader StarkOne.NfcDumping
open StarkOne.Type2Tag StarkOne.NfcRoundTrip

section
variable {a b : ℕ → UInt8} {avail : ℕ} (total : ℕ)

theorem tlvHeader_prefix (h : ∀ j < avail, a j = b j) (pos : ℕ) :
    (∃ need, tlvHeader a avail total pos = .error (.more need)) ∨
    tlvHeader a avail total pos = tlvHeader b total total pos := by
  unfold tlvHeader
  by_cases h₁ : pos+2 > total
  · exact Or.inr (by rw [if_pos h₁, if_pos h₁])
  rw [if_neg h₁, if_neg h₁, if_neg h₁]
  by_cases h₂ : pos+2 > avail
  · exact Or.inl ⟨_,if_pos h₂⟩
  rw [if_neg h₂, h (pos+1) (by omega)]
  by_cases h₃ : b (pos+1) ≠ tlvLong
  · exact Or.inr (by rw [if_pos h₃, if_pos h₃])
  rw [if_neg h₃, if_neg h₃]
  by_cases h₄ : pos+4 > total
  · exact Or.inr (by rw [if_pos h₄, if_pos h₄])
  rw [if_neg h₄, if_neg h₄, if_neg h₄]
  by_cases h₅ : pos+4 > avail
  · exact Or.inl ⟨_,if_pos h₅⟩
  · rw [if_neg h₅, h (pos+2) (by omega), h (pos+3) (by omega)]
    exact Or.inr rfl

theorem tlvWalk_prefix (h : ∀ j < avail, a j = b j) (rounds pos : ℕ) :
    (∃ need, tlvWalk a avail total rounds pos = .more need) ∨
    tlvWalk a avail total rounds pos = tlvWalk b total total rounds pos := by
  induction rounds generalizing pos with
  | zero => exact Or.inr rfl
  | succ rounds ih =>
    rw [tlvWalk, tlvWalk]
    by_cases h₁ : pos ≥ total
    · exact Or.inr (by rw [if_pos h₁, if_pos h₁])
    rw [if_neg h₁, if_neg h₁, if_neg h₁]
    by_cases h₂ : pos ≥ avail
    · exact Or.inl ⟨_,if_pos h₂⟩
    rw [if_neg h₂, h pos (by omega)]
    by_cases h₃ : b pos = tlvNull
    · rw [if_pos h₃, if_pos h₃]
      exact ih _
    rw [if_neg h₃, if_neg h₃]
    by_cases h₄ : b pos = tlvEnd
    · exact Or.inr (by rw [if_pos h₄, if_pos h₄])
    rw [if_neg h₄, if_neg h₄]
    rcases tlvHeader_prefix total h pos with ⟨need,hm⟩ | heq
    · rw [hm]
      exact Or.inl ⟨need,rfl⟩
    rw [heq]
    cases tlvHeader b total total pos with
    | error r => exact Or.inr rfl
    | ok hv =>
      dsimp only
      by_cases h₅ : pos+hv.1+hv.2 > total
      · exact Or.inr (by rw [if_pos h₅, if_pos h₅])
      rw [if_neg h₅, if_neg h₅]
      by_cases h₆ : b pos = tlvNdef
      · exact Or.inr (by rw [if_pos h₆, if_pos h₆])
      · rw [if_neg h₆, if_neg h₆]
        exact ih _

/-- A walk over what has been fetched asks for more of the area, or it ends as
the walk over the whole area does. -/
theorem nfcT2Tlv_prefix (h : ∀ j < avail, a j = b j) :
    (∃ need, nfcT2Tlv a avail total = .more need ∧ avail < need ∧ need ≤ total) ∨
    nfcT2Tlv a avail total = nfcT2Tlv b total total := by
  rcases tlvWalk_prefix total h total 0 with ⟨need,hm⟩ | heq
  · have hin := nfcT2Tlv_inside a avail total
    rw [nfcT2Tlv, hm] at hin
    exact Or.inl ⟨need,hm,hin⟩
  · exact Or.inr heq

theorem nfcT2Tlv_whole (area : ℕ → UInt8) (need : ℕ) : nfcT2Tlv area total total ≠ .more need := by
  intro h
  have hin := nfcT2Tlv_inside area total total
  rw [h] at hin
  exact absurd hin.2 (not_le.mpr hin.1)

end

def ReadsArea (total : ℕ) (q : Command) : Prop :=
  ∃ page, q = readCommand page ∧ dataPage ≤ page ∧ 4*page < 4*dataPage+total

theorem asks_page {ok : Command → Prop} (page : ℕ) (h : ok (readCommand page)) :
    Asks ok (read4 page).run := by
  unfold read4 nfcReaderExchange
  rw [if_neg (by simp [readCmd])]
  exact asks_try (asks_checked _ _ _ _ h) (fun _ => trivial)

theorem fill_reads_area (want total rounds : ℕ) (a : Area) (hw : want ≤ total) :
    Asks (ReadsArea total) (fill want total rounds a) := by
  induction rounds generalizing a with
  | zero =>
    unfold fill
    split <;> exact trivial
  | succ rounds ih =>
    unfold fill
    split
    · refine asks_bind (asks_page _ ⟨_,rfl,Nat.le_add_right _ _,by omega⟩) (fun r => ?_)
      cases r with
      | error e => exact trivial
      | ok buf => exact ih _
    · exact trivial

/-- Whatever the tag answers, the search reads no page beyond the area. -/
theorem findNdef_reads_area (total rounds : ℕ) (out : StarkNfcRead) (avail : ℕ) :
    Asks (ReadsArea total) (findNdef total rounds out avail) := by
  induction rounds generalizing out avail with
  | zero => exact trivial
  | succ rounds ih =>
    have hin := nfcT2Tlv_inside out.ndef avail total
    unfold findNdef
    cases hv : nfcT2Tlv out.ndef avail total with
    | more need =>
      rw [hv] at hin
      refine asks_bind (fill_reads_area _ _ _ _ hin.2) (fun r => ?_)
      dsimp only
      split
      · exact trivial
      · exact ih _ _
    | found off len =>
      rw [hv] at hin
      refine asks_bind (fill_reads_area _ _ _ _ hin) (fun r => ?_)
      dsimp only
      split <;> exact trivial
    | bad => exact trivial
    | none => exact trivial

def dataArea (memory : ℕ → UInt8) (j : ℕ) : UInt8 := memory (4*dataPage+j)

def Round (i : Identity) (t : Tag) (total : ℕ) (a b : Area) : Prop :=
  ∃ need, nfcT2Tlv a.bytes a.avail total = .more need ∧ a.avail < need ∧ need ≤ total ∧
    serve (present i) t (fill need total need a) = some ((.ok,b),t)

def Concludes (area : ℕ → UInt8) (before : StarkNfcRead) (err : StarkErr) (out : StarkNfcRead) :
    NfcTlv → Prop
  | .found off len => err = .ok ∧ out.ndefPresent = true ∧ out.ndefLen = len ∧
      ∀ j < len, out.ndef j = area (off+j)
  | .none => err = .ok ∧ out.ndefPresent = before.ndefPresent ∧ out.ndefLen = before.ndefLen
  | .bad => err = .invalidArg ∧ out.ndefPresent = before.ndefPresent ∧
      out.ndefLen = before.ndefLen
  | .more _ => False

section
variable {i : Identity} {t : Tag} {total : ℕ}

theorem serve_verdict (out : StarkNfcRead) (avail rounds : ℕ) (hs : t.selected = true)
    (hunits : total%4 = 0) (htotal : total ≤ nfcNdefMax) (havail : avail ≤ total)
    (hpage : avail%4 = 0) (ha : ∀ j < avail, out.ndef j = dataArea t.memory j)
    (hend : nfcT2Tlv out.ndef avail total = nfcT2Tlv (dataArea t.memory) total total) :
    ∃ err out', serve (present i) t (findNdef total (rounds+1) out avail) = some ((err,out'),t) ∧
      Concludes (dataArea t.memory) out err out' (nfcT2Tlv (dataArea t.memory) total total) := by
  have hin := nfcT2Tlv_inside (dataArea t.memory) total total
  have hwhole := nfcT2Tlv_whole total (dataArea t.memory)
  rw [findNdef, hend]
  cases hv : nfcT2Tlv (dataArea t.memory) total total with
  | more need => exact absurd hv (hwhole need)
  | bad => exact ⟨_,_,rfl,rfl,rfl,rfl⟩
  | none => exact ⟨_,_,rfl,rfl,rfl,rfl⟩
  | found off len =>
    rw [hv] at hin
    obtain ⟨b,hb,hwant,-,-,hbytes⟩ := serve_fill (i := i) (off+len) total (off+len)
      ⟨out.ndef,avail⟩ t hs hunits htotal hin havail hpage (Nat.le_add_left _ _) ha
    dsimp only
    rw [serve_bind, hb, Option.bind_some]
    dsimp only
    rw [if_neg (by simp)]
    refine ⟨_,_,rfl,rfl,rfl,rfl,fun j hj => ?_⟩
    dsimp only [memmove]
    rw [if_pos hj]
    exact hbytes _ (by omega)

theorem serve_findNdef (rounds : ℕ) (out : StarkNfcRead) (avail : ℕ) (hs : t.selected = true)
    (hunits : total%4 = 0) (htotal : total ≤ nfcNdefMax) (havail : avail ≤ total)
    (hpage : avail%4 = 0) (ha : ∀ j < avail, out.ndef j = dataArea t.memory j)
    (hr : total < avail+rounds) :
    ∃ last err out', Relation.ReflTransGen (Round i t total) ⟨out.ndef,avail⟩ last ∧
      nfcT2Tlv last.bytes last.avail total = nfcT2Tlv (dataArea t.memory) total total ∧
      serve (present i) t (findNdef total rounds out avail) = some ((err,out'),t) ∧
      Concludes (dataArea t.memory) out err out' (nfcT2Tlv (dataArea t.memory) total total) := by
  induction rounds generalizing out avail with
  | zero => omega
  | succ rounds ih =>
    rcases nfcT2Tlv_prefix total ha with ⟨need,hv,hlt,hle⟩ | hend
    · obtain ⟨b,hb,hwant,hbtotal,hbpage,hbytes⟩ := serve_fill (i := i) need total need
        ⟨out.ndef,avail⟩ t hs hunits htotal hle havail hpage (Nat.le_add_left _ _) ha
      obtain ⟨last,err,out',hrun,hlast,hserve,hcon⟩ := ih { out with ndef := b.bytes } b.avail
        hbtotal hbpage hbytes (by omega)
      refine ⟨last,err,out',.head ⟨need,hv,hlt,hle,hb⟩ hrun,hlast,?_,?_⟩
      · rw [findNdef, hv]
        dsimp only
        rw [serve_bind, hb, Option.bind_some]
        exact hserve
      · cases hw : nfcT2Tlv (dataArea t.memory) total total <;> rw [hw] at hcon <;> exact hcon
    · obtain ⟨err,out',hserve,hcon⟩ := serve_verdict (i := i) out avail rounds hs hunits htotal
        havail hpage ha hend
      exact ⟨⟨out.ndef,avail⟩,err,out',.refl,hend,hserve,hcon⟩

end

def firstFetch (out : StarkNfcRead) (memory : ℕ → UInt8) (total : ℕ) : Area :=
  ⟨memcpy out.ndef 0 ((bytesAt memory (4*3) 16).drop 4) (min total 12),min total 12⟩

/-- The search ends, asks for nothing beyond the area, and its last walk ends as
one walk over the whole area does: in the same block, in none, or in an error. -/
theorem tlv_search_on_demand (i : Identity) (t : Tag) (out : StarkNfcRead)
    (hs : t.selected = true) (hv : (container t).valid = true)
    (hmax : (container t).dataBytes ≤ nfcNdefMax) :
    let total := (container t).dataBytes
    let verdict := nfcT2Tlv (dataArea t.memory) total total
    (∃ last err out', Relation.ReflTransGen (Round i t total) (firstFetch out t.memory total) last ∧
      nfcT2Tlv last.bytes last.avail total = verdict ∧
      serve (present i) t (readType2 out) = some ((err,out'),t) ∧
      Concludes (dataArea t.memory) out err out' verdict) ∧
    ∀ rounds out avail, Asks (ReadsArea total) (findNdef total rounds out avail) := by
  intro total verdict
  refine ⟨?_,findNdef_reads_area total⟩
  obtain ⟨units,hu,-,hdata⟩ := nfcT2Cc_dataBytes _ hv
  rw [show nfcT2Cc _ = container t from rfl] at hdata
  have hbuf : ccOf (bytesAt t.memory (4*3) 16) = container t := rfl
  let first := firstFetch out t.memory total
  have hhead : ∀ j < first.avail, first.bytes j = dataArea t.memory j :=
    head_bytes t.memory out.ndef total
  have htotal : total = 8*units := hdata
  have hfirst : first.avail = min total 12 := rfl
  obtain ⟨last,err,out',hrun,hlast,hserve,hcon⟩ := serve_findNdef (i := i) (total+1)
    { withCc out (container t) with ndef := first.bytes } first.avail hs (by omega) hmax
    (by omega) (by omega) hhead (by omega)
  refine ⟨last,err,out',hrun,hlast,?_,?_⟩
  · unfold readType2
    rw [serve_bind, serve_read4 3 (by omega) hs, Option.bind_some]
    dsimp only
    rw [hbuf, hv, if_neg (by simp), if_neg (not_lt.mpr hmax)]
    exact hserve
  · cases hw : verdict <;> rw [show nfcT2Tlv _ _ _ = _ from hw] at hcon <;> exact hcon

def lockedTag : Tag :=
  { memory := fun a => ([0xE1,0x10,0x06,0x00,0x01,0x09,0,0,0,0,0,0,0,0,0,0x03,0x02,0xD0,0x07] :
      List UInt8).getD (a-12) 0
    selected := true }

theorem tlv_search_locked : ∃ out', serve (present ultralight) lockedTag
      (readType2 (identified (described ultralight) none .ok)) = some ((.ok,out'),lockedTag) ∧
    out'.ndefPresent = true ∧ out'.ndefLen = 2 ∧ out'.ndef 0 = 0xD0 ∧ out'.ndef 1 = 0x07 := by
  obtain ⟨⟨last,err,out',-,-,hserve,hcon⟩,-⟩ := tlv_search_on_demand ultralight lockedTag
    (identified (described ultralight) none .ok) rfl (by decide) (by decide)
  have hverdict : nfcT2Tlv (dataArea lockedTag.memory) (container lockedTag).dataBytes
      (container lockedTag).dataBytes = .found 13 2 := by decide
  rw [hverdict] at hcon
  obtain ⟨rfl,hp,hl,hb⟩ := hcon
  exact ⟨out',hserve,hp,hl,hb 0 (by omega),hb 1 (by omega)⟩

end StarkOne.NfcTlvSearch
