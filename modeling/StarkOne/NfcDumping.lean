import StarkOne.NfcWriter

/-!
# Dumping a tag, and what the drivers ask for

A dump selects the tag again and reads its pages in order. Of all the drivers
only the writer asks for a WRITE, and only those that look for a tag ask the
reader to list one.
-/

set_option autoImplicit false

namespace StarkOne.NfcDumping
open StarkOne.Link StarkOne.Pn532 StarkOne.NfcType2 StarkOne.NfcReader

def nfcT2MaxPages : ℕ := 231

structure NfcDump where
  tag : NfcTag
  nPages : ℕ
  mem : ℕ → UInt8

/-- The rounds of `dump_pages` from `page` on; the buffer comes back as it is left. -/
def dumpRounds (pages : ℕ) : ℕ → ℕ → NfcDump → NfcDriver (StarkErr × NfcDump)
  | 0, page, out => if page < pages then .spin else pure (.ok,out)
  | rounds+1, page, out =>
    if page < pages then do
      let r ← (read4 page).run
      match r with
      | .error e => pure (e.code,out)
      | .ok buf =>
        let n := min (pages-page) 4
        dumpRounds pages rounds (page+4)
          { out with mem := memcpy out.mem (page*4) buf (n*4), nPages := page+n }
    else pure (.ok,out)

def dumpPages (tag : NfcTag) (out : NfcDump) : NfcDriver (StarkErr × NfcDump) := do
  let r ← (nfcReaderReselect tag).run
  match r with
  | .error e => pure (e.code,out)
  | .ok _ =>
    if !nfcTechIsType2 tag.tech then pure (.ok,out)
    else
      let pages := min tag.pages nfcT2MaxPages
      dumpRounds pages pages 0 out

def nfcReaderDump (tag : NfcTag) : NfcDriver (StarkErr × NfcDump) := do
  let r ← dumpPages tag ⟨tag,0,fun _ => 0⟩
  nfcReaderRelease
  pure r

/-- Not a Type 2 WRITE, to whichever target. -/
def NoWrite (q : Command) : Prop := q.code = cmdDataExch → ∀ tg rest, q.params ≠ tg::t2Write::rest

def NoList (q : Command) : Prop := q.code ≠ cmdListPassive

theorem noWrite_of_code {code : UInt8} (h : code ≠ cmdDataExch) (params : List UInt8) (cap : ℕ) :
    NoWrite ⟨code,params,cap⟩ :=
  fun hc => absurd hc h

section
variable {ok : Command → Prop}

theorem asks_command (code : UInt8) (params : List UInt8) (cap : ℕ) (h : ok ⟨code,params,cap⟩) :
    Asks ok (pn532Command code params cap).run := ⟨h,fun _ => trivial⟩

theorem asks_checked {α : Type} (code : UInt8) (params : List UInt8) (cap : ℕ)
    (check : List UInt8 → Except Fault α) (h : ok ⟨code,params,cap⟩) :
    Asks ok (pn532Command code params cap >>= fun r => ExceptT.mk (pure (check r))).run :=
  asks_try (asks_command code params cap h) (fun _ => trivial)

theorem asks_field (on : Bool) (h : ∀ params cap, ok ⟨cmdRfConfig,params,cap⟩) :
    Asks ok (pn532Field on).run :=
  asks_try (asks_command _ _ _ (h _ _)) (fun _ => trivial)

theorem asks_detect (hf : ∀ params cap, ok ⟨cmdGetFirmware,params,cap⟩)
    (hs : ∀ params cap, ok ⟨cmdSamConfig,params,cap⟩)
    (hr : ∀ params cap, ok ⟨cmdRfConfig,params,cap⟩) : Asks ok pn532Detect.run := by
  unfold pn532Detect
  refine asks_try (asks_try (asks_command _ _ _ (hf _ _)) (fun _ => trivial)) ?_
  rintro ⟨ic,ver,rev⟩
  dsimp only
  split
  · exact trivial
  · refine asks_try (asks_try (asks_command _ _ _ (hs _ _)) (fun _ => trivial)) (fun _ => ?_)
    refine asks_try (asks_try (asks_command _ _ _ (hr _ _)) (fun _ => trivial)) (fun _ => ?_)
    exact asks_field false hr

theorem asks_poll (h : ∀ params cap, ok ⟨cmdListPassive,params,cap⟩) : Asks ok nfcReaderPoll.run :=
  asks_checked _ _ _ _ (h _ _)

theorem asks_release (h : ∀ params cap, ok ⟨cmdRelease,params,cap⟩) : Asks ok nfcReaderRelease :=
  asks_bind (asks_command _ _ _ (h _ _)) (fun _ => trivial)

end

theorem asks_reselect (expect : NfcTag) : Asks NoWrite (nfcReaderReselect expect).run :=
  asks_try (asks_poll (noWrite_of_code (by decide))) (fun _ => trivial)

theorem asks_exchange (cmd : List UInt8) (cap : ℕ) (h : cmd.head? ≠ some t2Write) :
    Asks NoWrite (nfcReaderExchange cmd cap).run := by
  unfold nfcReaderExchange
  split
  · exact trivial
  · refine asks_checked _ _ _ _ (fun _ tg rest he => h ?_)
    rw [(List.cons.inj he).2]
    rfl

theorem asks_read4 (page : ℕ) : Asks NoWrite (read4 page).run :=
  asks_try (asks_exchange _ _ (by simp [readCmd, t2Read, t2Write])) (fun _ => trivial)

theorem asks_fill (want total rounds : ℕ) (a : Area) : Asks NoWrite (fill want total rounds a) := by
  induction rounds generalizing a with
  | zero =>
    unfold fill
    split <;> exact trivial
  | succ rounds ih =>
    unfold fill
    split
    · refine asks_bind (asks_read4 _) (fun r => ?_)
      cases r with
      | error e => exact trivial
      | ok buf => exact ih _
    · exact trivial

theorem asks_findNdef (total rounds : ℕ) (out : StarkNfcRead) (avail : ℕ) :
    Asks NoWrite (findNdef total rounds out avail) := by
  induction rounds generalizing out avail with
  | zero => exact trivial
  | succ rounds ih =>
    unfold findNdef
    split
    · refine asks_bind (asks_fill _ _ _ _) (fun ⟨err,a⟩ => ?_)
      dsimp only
      split
      · exact trivial
      · exact ih _ _
    · refine asks_bind (asks_fill _ _ _ _) (fun ⟨err,a⟩ => ?_)
      dsimp only
      split <;> exact trivial
    · exact trivial
    · exact trivial

theorem asks_readType2 (out : StarkNfcRead) : Asks NoWrite (readType2 out) := by
  unfold readType2
  refine asks_bind (asks_read4 3) (fun r => ?_)
  cases r with
  | error e => exact trivial
  | ok buf =>
    dsimp only
    split_ifs
    · exact trivial
    · exact trivial
    · exact asks_findNdef _ _ _ _

theorem asks_readVersion (found : NfcTag) : Asks NoWrite (readVersion found) := by
  unfold readVersion
  split
  · refine asks_bind (asks_exchange _ _ (by simp [t2Version, t2Write])) (fun r => ?_)
    cases r with
    | error e =>
      dsimp only
      split
      · exact asks_bind (asks_reselect found) (fun _ => trivial)
      · exact trivial
    | ok version => exact trivial
  · exact trivial

theorem asks_read (found : NfcTag) : Asks NoWrite (nfcReaderRead found) := by
  unfold nfcReaderRead
  refine asks_bind (asks_readVersion found) (fun ⟨version,err⟩ => ?_)
  have hrel := asks_release (noWrite_of_code (by decide))
  dsimp only
  split
  · exact asks_bind (asks_readType2 _) (fun _ => asks_bind hrel (fun _ => trivial))
  · exact asks_bind trivial (fun _ => asks_bind hrel (fun _ => trivial))

theorem asks_dumpRounds (pages rounds page : ℕ) (out : NfcDump) :
    Asks NoWrite (dumpRounds pages rounds page out) := by
  induction rounds generalizing page out with
  | zero =>
    unfold dumpRounds
    split <;> exact trivial
  | succ rounds ih =>
    unfold dumpRounds
    split
    · refine asks_bind (asks_read4 _) (fun r => ?_)
      cases r with
      | error e => exact trivial
      | ok buf => exact ih _ _
    · exact trivial

theorem asks_dump (tag : NfcTag) : Asks NoWrite (nfcReaderDump tag) := by
  unfold nfcReaderDump dumpPages
  refine asks_bind (asks_bind (asks_reselect tag) (fun r => ?_)) (fun out => ?_)
  · cases r with
    | error e => exact trivial
    | ok u =>
      dsimp only
      split
      · exact trivial
      · exact asks_dumpRounds _ _ _ _
  · exact asks_bind (asks_release (noWrite_of_code (by decide))) (fun _ => trivial)

end StarkOne.NfcDumping
