import StarkOne.NfcSnapshot

/-!
# A dump holds the pages that were read

A dump may end at any page. What it then says of the tag is true: as many pages
as it counts are the tag's, and the rest of the memory is blank.
-/

set_option autoImplicit false

namespace StarkOne.NfcDumpPages
open StarkOne.Link StarkOne.Pn532 StarkOne.NfcType2 StarkOne.NfcReader StarkOne.NfcDumping
open StarkOne.Type2Tag StarkOne.NfcRoundTrip StarkOne.NfcSnapshot

structure HoldsPages (memory : ℕ → UInt8) (n : ℕ) (out : NfcDump) : Prop where
  count : out.nPages = n
  bytes : ∀ j < 4*n, out.mem j = memory j
  blank : ∀ j, 4*n ≤ j → out.mem j = 0

structure Truthful (memory : ℕ → UInt8) (tag : NfcTag) (r : StarkErr × NfcDump) : Prop where
  same : r.2.tag = tag
  pages : HoldsPages memory r.2.nPages r.2
  bound : r.2.nPages ≤ min tag.pages nfcT2MaxPages
  whole : r.1 = .ok → r.2.nPages = min tag.pages nfcT2MaxPages

section
variable {memory : ℕ → UInt8} {pages : ℕ}

theorem holds_block {page : ℕ} {out : NfcDump} (h : HoldsPages memory page out) (hlt : page < pages) :
    HoldsPages memory (min (page+4) pages)
      { out with
        mem := memcpy out.mem (page*4) (bytesAt memory (4*page) 16) (min (pages-page) 4*4)
        nPages := page+min (pages-page) 4 } where
  count := by
    dsimp only
    omega
  bytes := by
    intro j hj
    dsimp only [memcpy]
    by_cases hnew : page*4 ≤ j
    · rw [if_pos (by omega), bytesAt_getD _ _ _ _ (by omega)]
      congr 1
      omega
    · rw [if_neg (by omega)]
      exact h.bytes j (by omega)
  blank := by
    intro j hj
    dsimp only [memcpy]
    rw [if_neg (by omega)]
    exact h.blank j (by omega)

theorem dumpRounds_meets (rounds page : ℕ) (out : NfcDump) (hp : pages ≤ nfcT2MaxPages)
    (h : HoldsPages memory (min page pages) out) (hr : pages ≤ page+4*rounds) :
    Meets (Honest memory)
      (fun r => r.2.tag = out.tag ∧ HoldsPages memory r.2.nPages r.2 ∧ r.2.nPages ≤ pages ∧
        (r.1 = .ok → r.2.nPages = pages))
      (dumpRounds pages rounds page out) := by
  unfold nfcT2MaxPages at hp
  induction rounds generalizing page out with
  | zero =>
    have hc := h.count
    rw [dumpRounds, if_neg (by omega)]
    exact ⟨rfl,by rw [hc]; exact h,hc.le.trans (Nat.min_le_right _ _),fun _ => hc.trans (by omega)⟩
  | succ rounds ih =>
    have hc := h.count
    rw [dumpRounds]
    by_cases hlt : page < pages
    swap
    · rw [if_neg hlt]
      exact ⟨rfl,by rw [hc]; exact h,hc.le.trans (Nat.min_le_right _ _),fun _ => hc.trans (by omega)⟩
    rw [if_pos hlt]
    refine meets_bind (read4_meets page (by omega)) (fun r hread => ?_)
    cases r with
    | error e =>
      exact ⟨rfl,by rw [hc]; exact h,hc.le.trans (Nat.min_le_right _ _),
        fun hok => absurd hok e.ne_ok⟩
    | ok buf =>
      rw [hread buf rfl]
      rw [Nat.min_eq_left (Nat.le_of_lt hlt)] at h
      exact ih (page+4) _ (holds_block h hlt) (by omega)

end

def brought (e : NfcExchange) : Bool := (readBytes e).isOk

/-- The READs go out in order, and each that comes back whole adds its pages. -/
theorem trace_dumpRounds (pages rounds page : ℕ) (out : NfcDump) (log : List NfcExchange)
    (r : StarkErr × NfcDump) (hout : out.nPages = min page pages)
    (h : Trace (dumpRounds pages rounds page out) log r) :
    (∀ k e, log[k]? = some e → e.request = readCommand (page+4*k)) ∧
    r.2.nPages = min (page+4*log.countP brought) pages := by
  induction rounds generalizing page out log with
  | zero =>
    rw [dumpRounds] at h
    split at h
    · exact h.elim
    · obtain ⟨rfl,rfl⟩ := h
      exact ⟨fun k e he => by simp at he,hout⟩
  | succ rounds ih =>
    rw [dumpRounds] at h
    split at h
    swap
    · obtain ⟨rfl,rfl⟩ := h
      exact ⟨fun k e he => by simp at he,hout⟩
    rename_i hlt
    obtain ⟨l₁,l₂,x,rfl,hx,hrest⟩ := (trace_bind _ _ _ _).mp h
    obtain ⟨e,hq,rfl,hb⟩ := trace_read4 page l₁ x hx
    cases x with
    | error err =>
      obtain ⟨rfl,rfl⟩ := hrest
      have hno : brought e = false := by rw [brought, ← hb]; rfl
      refine ⟨fun k e' he => ?_,?_⟩
      · cases k with
        | zero =>
          obtain rfl := Option.some.inj he
          exact hq
        | succ k => simp at he
      · rw [List.append_nil, List.countP_cons_of_neg (by simp [hno]), List.countP_nil]
        exact hout
    | ok buf =>
      have hyes : brought e = true := by rw [brought, ← hb]; rfl
      obtain ⟨hreads,hn⟩ := ih (page+4) _ l₂ (by dsimp only; omega) hrest
      refine ⟨fun k e' he => ?_,?_⟩
      · cases k with
        | zero =>
          obtain rfl := Option.some.inj he
          exact hq
        | succ k =>
          rw [hreads k e' he]
          congr 1
          omega
      · rw [hn, List.singleton_append, List.countP_cons_of_pos hyes]
        congr 1
        omega

structure Dumps (tag : NfcTag) (log : List NfcExchange) (r : StarkErr × NfcDump) : Prop where
  shape : ∃ select reads release, log = select::(reads++[release]) ∧
    select.request.code = cmdListPassive ∧ release.request.code = cmdRelease ∧
    (∀ k e, reads[k]? = some e → e.request = readCommand (4*k)) ∧
    (reads ≠ [] → Selects tag select) ∧
    r.2.nPages = min (4*reads.countP brought) (min tag.pages nfcT2MaxPages)

theorem trace_dumpPages (tag : NfcTag) (out : NfcDump) (log : List NfcExchange)
    (r : StarkErr × NfcDump) (hout : out.nPages = 0) (h : Trace (dumpPages tag out) log r) :
    ∃ select reads, log = select::reads ∧ select.request.code = cmdListPassive ∧
      (∀ k e, reads[k]? = some e → e.request = readCommand (4*k)) ∧
      (reads ≠ [] → Selects tag select) ∧
      r.2.nPages = min (4*reads.countP brought) (min tag.pages nfcT2MaxPages) := by
  unfold dumpPages at h
  obtain ⟨l₁,l₂,x,rfl,hx,hrest⟩ := (trace_bind _ _ _ _).mp h
  obtain ⟨select,hc,rfl,hsel⟩ := trace_reselect tag l₁ x hx
  have hnone : ∀ r' : StarkErr × NfcDump, r'.2 = out → l₂ = [] → r' = r →
      ∃ reads, l₂ = reads ∧ (∀ k e, reads[k]? = some e → e.request = readCommand (4*k)) ∧
        (reads ≠ [] → Selects tag select) ∧
        r.2.nPages = min (4*reads.countP brought) (min tag.pages nfcT2MaxPages) := by
    rintro r' hr rfl rfl
    exact ⟨[],rfl,fun k e he => by simp at he,fun hne => absurd rfl hne,by rw [hr, hout]; simp⟩
  cases x with
  | error err =>
    obtain ⟨reads,rfl,hreads⟩ := hnone _ rfl hrest.1 hrest.2
    exact ⟨select,l₂,rfl,hc,hreads⟩
  | ok u =>
    dsimp only at hrest
    split at hrest
    · obtain ⟨reads,rfl,hreads⟩ := hnone _ rfl hrest.1 hrest.2
      exact ⟨select,l₂,rfl,hc,hreads⟩
    · obtain ⟨hreads,hn⟩ := trace_dumpRounds _ _ 0 out l₂ r (by rw [hout]; simp) hrest
      simp only [Nat.zero_add] at hreads hn
      exact ⟨select,l₂,rfl,hc,hreads,fun _ => hsel rfl,hn⟩

theorem dumpPages_meets (memory : ℕ → UInt8) (tag : NfcTag)
    (htech : nfcTechIsType2 tag.tech = true) :
    Meets (Honest memory) (Truthful memory tag) (dumpPages tag ⟨tag,0,fun _ => 0⟩) := by
  have hblank : HoldsPages memory 0 ⟨tag,0,fun _ => 0⟩ := ⟨rfl,by simp,fun _ _ => rfl⟩
  unfold dumpPages
  refine meets_bind (reselect_ends tag) (fun r _ => ?_)
  cases r with
  | error e => exact ⟨rfl,hblank,Nat.zero_le _,fun hok => absurd hok e.ne_ok⟩
  | ok u =>
    dsimp only
    rw [if_neg (by simp [htech])]
    refine meets_mono (dumpRounds_meets _ 0 _ (Nat.min_le_right _ _)
      (by rw [Nat.zero_min]; exact hblank) (by omega)) fun r hr => ?_
    exact ⟨hr.1,hr.2.1,hr.2.2.1,hr.2.2.2⟩

/-- A dump of a Type 2 tag is true of the tag however far it came, and reads
nothing from another tag. -/
theorem dump_truthful (memory : ℕ → UInt8) (tag : NfcTag)
    (htech : nfcTechIsType2 tag.tech = true) :
    Meets (Honest memory) (Truthful memory tag) (nfcReaderDump tag) ∧
    ∀ log r, Trace (nfcReaderDump tag) log r → Dumps tag log r := by
  refine ⟨?_,fun log r h => ⟨?_⟩⟩
  · unfold nfcReaderDump
    exact meets_bind (dumpPages_meets memory tag htech) fun r hr =>
      meets_bind release_ends fun _ _ => hr
  · unfold nfcReaderDump at h
    obtain ⟨l₁,l₂,r',rfl,h₁,h₂⟩ := (trace_bind _ _ _ _).mp h
    obtain ⟨select,reads,rfl,hc,hrest⟩ := trace_dumpPages tag _ l₁ r' rfl h₁
    obtain ⟨l₃,l₄,u,rfl,h₃,rfl,rfl⟩ := (trace_bind _ _ _ _).mp h₂
    obtain ⟨last,hl,rfl⟩ := trace_release _ _ h₃
    exact ⟨select,reads,last,by simp,hc,hl,hrest⟩

def ntag213 : NfcTag := { described ultralight with tech := .ntag213, pages := 45 }

def leaving (s : Tag × ℕ) (q : Command) : Reply q × (Tag × ℕ) :=
  match s.2 with
  | 0 => (.error .io,s)
  | n+1 =>
    let r := present ultralight s.1 q
    (r.1,(r.2,n))

/-- The tag leaves after two blocks were read: the dump holds eight pages of it. -/
theorem dump_truthful_leaving :
    Meets (Honest blank.memory) (Truthful blank.memory ntag213) (nfcReaderDump ntag213) ∧
    ∃ log r, Trace (nfcReaderDump ntag213) log r ∧ (log.length = 5 ∧ r.1 = .io ∧ r.2.nPages = 8 ∧
      (List.range 32).map r.2.mem = bytesAt blank.memory 0 32) ∧ Dumps ntag213 log r := by
  obtain ⟨hmeets,hdumps⟩ := dump_truthful blank.memory ntag213 (by decide)
  obtain ⟨⟨r,t,log⟩,hserve,hseen⟩ : ∃ p,
      serve (recorded leaving) ((blank,3),[]) (nfcReaderDump ntag213) = some p ∧
        p.2.2.length = 5 ∧ p.1.1 = .io ∧ p.1.2.nPages = 8 ∧
          (List.range 32).map p.1.2.mem = bytesAt blank.memory 0 32 :=
    ⟨_,rfl,by decide +kernel⟩
  obtain ⟨log',hlog,htrace⟩ := serve_recorded leaving _ _ _ _ hserve
  obtain rfl : log = log' := hlog
  exact ⟨hmeets,log,r,htrace,hseen,hdumps log r htrace⟩

end StarkOne.NfcDumpPages
