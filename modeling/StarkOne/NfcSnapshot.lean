import StarkOne.NfcTlvSearch

/-!
# The snapshot of a tag

Every exchange may fail; a READ that comes back whole brings what the tag
holds. Against such replies the drivers end, and what they return is either the
message on the tag or nothing.
-/

set_option autoImplicit false

namespace StarkOne.NfcSnapshot
open StarkOne.Link StarkOne.Pn532 StarkOne.NfcType2 StarkOne.NfcReader StarkOne.Type2Tag
open StarkOne.NfcRoundTrip StarkOne.NfcTlvSearch

/-- A READ that comes back whole brings what the tag holds. -/
def Honest (memory : ℕ → UInt8) (e : NfcExchange) : Prop :=
  ∀ p : UInt8, e.request = readCommand p.toNat → ∀ buf, readBytes e = .ok buf →
    buf = bytesAt memory (4*p.toNat) 16

section
variable {honest : NfcExchange → Prop} {memory : ℕ → UInt8}

theorem command_ends (code : UInt8) (params : List UInt8) (cap : ℕ) :
    Meets honest (fun _ => True) (pn532Command code params cap).run := fun _ _ => trivial

theorem checked_ends {α : Type} (code : UInt8) (params : List UInt8) (cap : ℕ)
    (check : List UInt8 → Except Fault α) :
    Meets honest (fun _ => True)
      (pn532Command code params cap >>= fun r => ExceptT.mk (pure (check r))).run :=
  ends_try (command_ends _ _ _) fun _ => trivial

theorem exchange_ends (cmd : List UInt8) (cap : ℕ) :
    Meets honest (fun _ => True) (nfcReaderExchange cmd cap).run := by
  unfold nfcReaderExchange
  split
  · exact trivial
  · exact checked_ends _ _ _ _

theorem reselect_ends (expect : NfcTag) :
    Meets honest (fun _ => True) (nfcReaderReselect expect).run :=
  ends_try (checked_ends _ _ _ _) fun _ => trivial

theorem release_ends : Meets honest (fun _ => True) nfcReaderRelease :=
  meets_bind (command_ends _ _ _) fun _ _ => trivial

theorem read4_ends (page : ℕ) : Meets honest (fun _ => True) (read4 page).run :=
  ends_try (exchange_ends _ _) fun _ => trivial

theorem read4_meets (page : ℕ) (hp : page < 256) :
    Meets (Honest memory) (fun r => ∀ buf, r = .ok buf → buf = bytesAt memory (4*page) 16)
      (read4 page).run := by
  refine meets_of_trace (read4_ends page) fun log r ht hl buf hr => ?_
  obtain ⟨e,hq,rfl,hb⟩ := trace_read4 page log r ht
  have hn := toNat_ofNat_lt page hp
  have hh := hl e (by simp) (UInt8.ofNat page) (by rw [hn]; exact hq) buf (hb.symm.trans hr)
  rwa [hn] at hh

end

structure Fetched (memory : ℕ → UInt8) (total : ℕ) (a : Area) : Prop where
  bytes : ∀ j < a.avail, a.bytes j = dataArea memory j
  inside : a.avail ≤ total
  pages : a.avail%4 = 0

section
variable {memory : ℕ → UInt8} {total : ℕ}

theorem fetched_more {a : Area} (h : Fetched memory total a) (hunits : total%4 = 0) :
    Fetched memory total ⟨memcpy a.bytes a.avail (bytesAt memory (4*(dataPage+a.avail/4)) 16)
      (min (total-a.avail) 16),a.avail+min (total-a.avail) 16⟩ where
  bytes := by
    intro j hj
    have hp := h.pages
    dsimp only [memcpy] at hj ⊢
    by_cases hnew : a.avail ≤ j
    · rw [if_pos ⟨hnew,hj⟩, bytesAt_getD _ _ _ _ (by omega)]
      unfold dataArea
      congr 1
      omega
    · rw [if_neg (by omega)]
      exact h.bytes j (by omega)
  inside := by
    have hi := h.inside
    dsimp only
    omega
  pages := by
    have hi := h.inside
    have hp := h.pages
    dsimp only
    omega

theorem fill_meets (want rounds : ℕ) (a : Area) (h : Fetched memory total a)
    (hunits : total%4 = 0) (htotal : total ≤ nfcNdefMax) (hwant : want ≤ total)
    (hr : want ≤ a.avail+rounds) :
    Meets (Honest memory) (fun r => r.1 = .ok → want ≤ r.2.avail ∧ Fetched memory total r.2)
      (fill want total rounds a) := by
  unfold nfcNdefMax at htotal
  induction rounds generalizing a with
  | zero =>
    rw [fill, if_neg (by omega)]
    exact fun _ => ⟨hr,h⟩
  | succ rounds ih =>
    rw [fill]
    by_cases hlt : a.avail < want
    swap
    · rw [if_neg hlt]
      exact fun _ => ⟨not_lt.mp hlt,h⟩
    rw [if_pos hlt]
    refine meets_bind (read4_meets _ (by unfold dataPage; omega)) (fun r hread => ?_)
    cases r with
    | error e => exact fun hok => absurd hok e.ne_ok
    | ok buf =>
      rw [hread buf rfl]
      exact ih _ (fetched_more h hunits) (by dsimp only; omega)

/-- The verdict that `read_type2` reports when it meets no error. -/
theorem findNdef_meets (rounds : ℕ) (out : StarkNfcRead) (avail : ℕ)
    (h : Fetched memory total ⟨out.ndef,avail⟩) (hunits : total%4 = 0)
    (htotal : total ≤ nfcNdefMax) (hr : total < avail+rounds) :
    Meets (Honest memory)
      (fun r => r.2.tag = out.tag ∧ (r.1 = .ok → Concludes (dataArea memory) out r.1 r.2
        (nfcT2Tlv (dataArea memory) total total)))
      (findNdef total rounds out avail) := by
  induction rounds generalizing out avail with
  | zero =>
    have := h.inside
    dsimp only at this
    omega
  | succ rounds ih =>
    rw [findNdef]
    rcases nfcT2Tlv_prefix total h.bytes with ⟨need,hv,hlt,hle⟩ | hend
    · dsimp only at hv
      rw [hv]
      refine meets_bind (fill_meets need need ⟨out.ndef,avail⟩ h hunits htotal hle
        (Nat.le_add_left _ _)) (fun r hb => ?_)
      obtain ⟨err,b⟩ := r
      dsimp only at hb hlt ⊢
      by_cases herr : err = .ok
      · obtain ⟨hwant,hf⟩ := hb herr
        rw [if_neg (not_not.mpr herr)]
        refine meets_mono (ih { out with ndef := b.bytes } b.avail hf (by omega)) fun r hr => ?_
        refine ⟨hr.1,fun hok => ?_⟩
        have hcon := hr.2 hok
        cases hw : nfcT2Tlv (dataArea memory) total total <;> rw [hw] at hcon <;> exact hcon
      · rw [if_pos herr]
        exact ⟨rfl,fun hok => absurd hok herr⟩
    · dsimp only at hend
      have hin := nfcT2Tlv_inside (dataArea memory) total total
      have hwhole := nfcT2Tlv_whole total (dataArea memory)
      rw [hend]
      cases hv : nfcT2Tlv (dataArea memory) total total with
      | more need => exact absurd hv (hwhole need)
      | bad => exact ⟨rfl,fun _ => ⟨rfl,rfl,rfl⟩⟩
      | none => exact ⟨rfl,fun _ => ⟨rfl,rfl,rfl⟩⟩
      | found off len =>
        rw [hv] at hin
        refine meets_bind (fill_meets (off+len) (off+len) ⟨out.ndef,avail⟩ h hunits htotal hin
          (Nat.le_add_left _ _)) (fun r hb => ?_)
        obtain ⟨err,b⟩ := r
        dsimp only at hb ⊢
        by_cases herr : err = .ok
        · obtain ⟨hwant,hf⟩ := hb herr
          rw [if_neg (not_not.mpr herr)]
          refine ⟨rfl,fun _ => ⟨rfl,rfl,rfl,fun j hj => ?_⟩⟩
          dsimp only [memmove]
          rw [if_pos hj]
          exact hf.bytes _ (by omega)
        · rw [if_pos herr]
          exact ⟨rfl,fun hok => absurd hok herr⟩

end

/-- The message on a tag, where its container is in order and a walk finds one. -/
def ndefMessage (memory : ℕ → UInt8) : Option (List UInt8) :=
  let cc := ccOf (bytesAt memory (4*3) 16)
  if cc.valid then
    match nfcT2Tlv (dataArea memory) cc.dataBytes cc.dataBytes with
    | .found off len => some (bytesAt memory (4*dataPage+off) len)
    | _ => none
  else none

theorem shows_message {memory : ℕ → UInt8} {out : StarkNfcRead} {off : ℕ}
    (hv : (ccOf (bytesAt memory (4*3) 16)).valid = true)
    (hmax : (ccOf (bytesAt memory (4*3) 16)).dataBytes ≤ nfcNdefMax)
    (hw : nfcT2Tlv (dataArea memory) (ccOf (bytesAt memory (4*3) 16)).dataBytes
      (ccOf (bytesAt memory (4*3) 16)).dataBytes = .found off out.ndefLen)
    (hp : out.ndefPresent = true) (hb : ∀ j < out.ndefLen, out.ndef j = dataArea memory (off+j)) :
    out.ndefLen ≤ nfcNdefMax ∧ ∃ msg, ndefMessage memory = some msg ∧ Shows out msg := by
  have hin := nfcT2Tlv_inside (dataArea memory) (ccOf (bytesAt memory (4*3) 16)).dataBytes
    (ccOf (bytesAt memory (4*3) 16)).dataBytes
  rw [hw] at hin
  refine ⟨le_trans (Nat.le_add_left _ _) (le_trans hin hmax),
    bytesAt memory (4*dataPage+off) out.ndefLen,?_,hp,?_,fun j hj => ?_⟩
  · unfold ndefMessage
    simp only [hv, if_true, hw]
  · rw [bytesAt_length]
  · rw [bytesAt_length] at hj
    rw [hb j hj, bytesAt_getD _ _ _ _ hj, dataArea, Nat.add_assoc]

structure Sound (memory : ℕ → UInt8) (found : NfcTag) (out : StarkNfcRead) : Prop where
  failed : out.readErr ≠ .ok → out.ndefPresent = false ∧ out.ndefLen = 0 ∧ ∀ j, out.ndef j = 0
  identity : out.tag.uid = found.uid ∧ out.tag.atqa = found.atqa ∧ out.tag.sak = found.sak
  message : out.ndefPresent = true → out.readErr = .ok ∧ out.ndefLen ≤ nfcNdefMax ∧
    ∃ msg, ndefMessage memory = some msg ∧ Shows out msg

section
variable {memory : ℕ → UInt8}

theorem readType2_meets (out : StarkNfcRead) (hout : out.ndefPresent = false) :
    Meets (Honest memory)
      (fun r => (r.2.tag.uid = out.tag.uid ∧ r.2.tag.atqa = out.tag.atqa ∧
          r.2.tag.sak = out.tag.sak) ∧
        (r.1 = .ok → r.2.ndefPresent = true → r.2.ndefLen ≤ nfcNdefMax ∧
          ∃ msg, ndefMessage memory = some msg ∧ Shows r.2 msg))
      (readType2 out) := by
  unfold readType2
  refine meets_bind (read4_meets 3 (by omega)) (fun r hread => ?_)
  cases r with
  | error e => exact ⟨⟨rfl,rfl,rfl⟩,fun hok => absurd hok e.ne_ok⟩
  | ok buf =>
    rw [hread buf rfl]
    dsimp only
    by_cases hv : (ccOf (bytesAt memory (4*3) 16)).valid = true
    swap
    · rw [if_pos (by simpa using hv)]
      exact ⟨⟨rfl,rfl,rfl⟩,fun _ hp => absurd (hout.symm.trans hp) (by decide)⟩
    rw [if_neg (by simp [hv])]
    by_cases hmax : (ccOf (bytesAt memory (4*3) 16)).dataBytes > nfcNdefMax
    · rw [if_pos hmax]
      exact ⟨⟨rfl,rfl,rfl⟩,fun hok => by cases hok⟩
    rw [if_neg hmax]
    have hle := not_lt.mp hmax
    obtain ⟨units,hu,-,hdata⟩ := nfcT2Cc_dataBytes _ hv
    rw [show nfcT2Cc _ = ccOf (bytesAt memory (4*3) 16) from rfl] at hdata
    have hhead := head_bytes memory out.ndef (ccOf (bytesAt memory (4*3) 16)).dataBytes
    refine meets_mono (findNdef_meets _ _ _ ⟨hhead,?_,?_⟩ ?_ hle ?_)
      fun r hr => ⟨?_,fun hok hp => ?_⟩
    · exact Nat.min_le_left _ _
    · dsimp only
      omega
    · omega
    · omega
    · rw [hr.1]
      exact ⟨rfl,rfl,rfl⟩
    · have hcon := hr.2 hok
      cases hw : nfcT2Tlv (dataArea memory) (ccOf (bytesAt memory (4*3) 16)).dataBytes
          (ccOf (bytesAt memory (4*3) 16)).dataBytes with
      | more need => exact absurd hw (nfcT2Tlv_whole _ _ _)
      | bad =>
        rw [hw] at hcon
        exact absurd (hout.symm.trans (hcon.2.1.symm.trans hp)) (by decide)
      | none =>
        rw [hw] at hcon
        exact absurd (hout.symm.trans (hcon.2.1.symm.trans hp)) (by decide)
      | found off len =>
        rw [hw] at hcon
        obtain ⟨-,-,hlen,hb⟩ := hcon
        rw [← hlen] at hw hb
        exact shows_message hv hle hw hp hb

theorem readVersion_ends (found : NfcTag) :
    Meets (Honest memory) (fun _ => True) (readVersion found) := by
  unfold readVersion
  split
  · refine meets_bind (exchange_ends _ _) (fun r _ => ?_)
    cases r with
    | error e =>
      dsimp only
      split
      · exact meets_bind (reselect_ends found) (fun _ _ => trivial)
      · exact trivial
    | ok version => exact trivial
  · exact trivial

theorem cleared_sound {found : NfcTag} {out : StarkNfcRead} (err : StarkErr)
    (hid : out.tag.uid = found.uid ∧ out.tag.atqa = found.atqa ∧ out.tag.sak = found.sak)
    (hmsg : err = .ok → out.ndefPresent = true → out.ndefLen ≤ nfcNdefMax ∧
      ∃ msg, ndefMessage memory = some msg ∧ Shows out msg) :
    Sound memory found (cleared err out) := by
  unfold cleared
  by_cases herr : err = .ok
  · rw [if_neg (not_not.mpr herr)]
    exact {
      failed := fun hne => absurd herr hne
      identity := hid
      message := fun hp => ⟨herr,hmsg herr hp⟩ }
  · rw [if_pos herr]
    exact {
      failed := fun _ => ⟨rfl,rfl,fun _ => rfl⟩
      identity := hid
      message := fun hp => by cases hp }

theorem read_meets (found : NfcTag) :
    Meets (Honest memory) (Sound memory found) (nfcReaderRead found) := by
  unfold nfcReaderRead
  refine meets_bind (readVersion_ends found) (fun r _ => ?_)
  obtain ⟨version,err⟩ := r
  dsimp only
  by_cases hgo : (identified found version err).readErr = .ok ∧
      nfcTechIsType2 (identified found version err).tag.tech = true
  · rw [if_pos hgo]
    refine meets_bind (readType2_meets _ rfl) (fun r hr => ?_)
    exact meets_bind release_ends (fun _ _ => cleared_sound r.1 hr.1 hr.2)
  · rw [if_neg hgo, pure_bind]
    exact meets_bind release_ends (fun _ _ => cleared_sound _ ⟨rfl,rfl,rfl⟩
      (fun _ hp => by cases hp))

end

theorem trace_releases {α : Type} (a b : α) (log : List NfcExchange)
    (h : Trace (nfcReaderRelease >>= fun _ => pure a) log b) :
    ∃ last, log = [last] ∧ last.request = ⟨cmdRelease,[0x00],1⟩ := by
  obtain ⟨l₁,l₂,u,rfl,h₁,rfl,-⟩ := (trace_bind _ _ _ _).mp h
  unfold nfcReaderRelease at h₁
  obtain ⟨l₃,l₄,v,rfl,h₃,rfl,-⟩ := (trace_bind _ _ _ _).mp h₁
  obtain ⟨last,hq,rfl,-⟩ := (trace_command _ _ _ _ _).mp h₃
  exact ⟨last,rfl,hq⟩

/-- A read that ends badly leaves nothing behind but the tag's identity, one that
reports a message reports the tag's own, and the tag is released last. -/
theorem read_all_or_nothing (memory : ℕ → UInt8) (found : NfcTag) :
    Meets (Honest memory) (Sound memory found) (nfcReaderRead found) ∧
    ∀ log out, Trace (nfcReaderRead found) log out → ∃ before last, log = before++[last] ∧
      last.request = ⟨cmdRelease,[0x00],1⟩ := by
  refine ⟨read_meets found,fun log out h => ?_⟩
  unfold nfcReaderRead at h
  obtain ⟨l₁,l₂,⟨version,err⟩,rfl,-,h₂⟩ := (trace_bind _ _ _ _).mp h
  dsimp only at h₂
  by_cases hgo : (identified found version err).readErr = .ok ∧
      nfcTechIsType2 (identified found version err).tag.tech = true
  · rw [if_pos hgo] at h₂
    obtain ⟨l₃,l₄,r,rfl,-,h₄⟩ := (trace_bind _ _ _ _).mp h₂
    obtain ⟨last,rfl,hq⟩ := trace_releases _ _ _ h₄
    exact ⟨l₁++l₃,last,by rw [List.append_assoc],hq⟩
  · rw [if_neg hgo] at h₂
    obtain ⟨last,rfl,hq⟩ := trace_releases _ _ _ h₂
    exact ⟨l₁,last,rfl,hq⟩

end StarkOne.NfcSnapshot
