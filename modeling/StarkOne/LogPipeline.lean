import StarkOne.LogCapture
import StarkOne.LogContents

/-!
# From a log line to the card

Every task puts its lines into the ring, and the storage task takes them out in
rounds, each of them an append to the log file. Lines go on being logged between
two rounds, so what the files hold is told line by line: each line logged is in
an append, or is counted by the marker in its place, or still in the ring.
-/

set_option autoImplicit false

namespace StarkOne.LogPipeline
open StarkOne.Machine StarkOne.BufferReader StarkOne.WholeLines StarkOne.LogCapture
open StarkOne.StorageIo StarkOne.StorageFile StarkOne.StorageWriters StarkOne.StorageLog
open StarkOne.LogFiles StarkOne.LogSize
open StarkOne.LogContents hiding State start Act step

/-- What passes a queue that gives up its oldest: each batch is what was given up before it, and
what it hands over. -/
def Batched {α : Type} (lines : List α) (batches : List (List α × List α)) (lost held : List α) :
    Prop :=
  lines = (batches.flatMap fun b => b.1++b.2)++lost++held

section
variable {α : Type} {lines : List α} {batches : List (List α × List α)} {lost held : List α}

theorem Batched.push (h : Batched lines batches lost held) (x : α) (k : ℕ) :
    Batched (lines++[x]) batches (lost++held.take k) (held.drop k++[x]) := by
  have hheld : held.take k++(held.drop k++[x]) = held++[x] := by
    rw [← List.append_assoc, List.take_append_drop]
  unfold Batched at h ⊢
  rw [h]
  simp only [List.append_assoc, hheld]

theorem Batched.take (h : Batched lines batches lost held) (k : ℕ) :
    Batched lines (batches++[(lost,held.take k)]) [] (held.drop k) := by
  unfold Batched at h ⊢
  rw [h, List.flatMap_append]
  simp only [List.flatMap_cons, List.flatMap_nil, List.append_nil, List.append_assoc,
    List.take_append_drop]

end

def captureLineMax : ℕ := 160

/-- A text as it is captured: one that is too long is cut, and still one whole line. -/
def capturedLine (text : List UInt8) : List UInt8 :=
  let line := text.take (captureLineMax-1)
  if captureLineMax ≤ text.length then line.set (line.length-1) newline else line

def captureVprintf {cap : ℕ} (text : List UInt8) (r : LogRing cap) : Reading LogFault (LogRing cap) :=
  if text = [] then .ok r else logRingPut r (capturedLine text)

/-- The ring, the writer and the card, with what each round took and whether it was written. -/
structure Pipeline (cap : ℕ) where
  ring : LogRing cap
  w : LogWriter
  s : Files
  rounds : List (Taken × Bool)

inductive Act where
  | log (text : List UInt8)
  | round
  | mount (s : Files)
  | others (s : Files)

section
variable {cap : ℕ}

def start (buf : Buffer UInt8 cap) (limit : UInt32) (files : ℕ) (s : Files) : Pipeline cap :=
  ⟨logRingInit buf,storageLogInit limit files,s,[]⟩

def flushed (p : Pipeline cap) : List (List UInt8) := (p.rounds.filter Prod.snd).map fun r => r.1.bytes

/-- A round of `storage_log_flush`, which goes on until one takes nothing or goes wrong. -/
def flushStep (o : ℕ → Outcome) (p : Pipeline cap) : Option (Pipeline cap) :=
  match logRingTake p.ring 1024 with
  | .error _ => none
  | .ok (given,ring) =>
    let t : Taken := ⟨given.bytes,given.dropped⟩
    if t.chunk = [] ∧ dropMarker t.dropped = [] then some { p with ring := ring }
    else
      let r := flushRound o t p.w p.s
      some ⟨ring,r.2.1,r.2.2,p.rounds++[(t,decide (r.1 = .ok))]⟩

def step (o : ℕ → Outcome) (p : Pipeline cap) : Act → Option (Pipeline cap)
  | .log text =>
    match captureVprintf text p.ring with
    | .error _ => none
    | .ok ring => some { p with ring := ring }
  | .round => if p.s.mounted then flushStep o p else some p
  | .mount s => some { p with w := storageLogOnMount p.w, s := s }
  | .others s => some { p with s := s }

/-- A line ends in its only newline and fits the ring, and the writer alone changes the log
directory. -/
def Allowed (p : Pipeline cap) : Act → Prop
  | .log text => Whole newline text ∧ (capturedLine text).length ≤ cap
  | .round => True
  | .mount s => SameLogs p.s s
  | .others s => SameLogs p.s s

def loggedBy : Act → Option (List UInt8)
  | .log text => some (capturedLine text)
  | _ => none

def logged (acts : List Act) : List (List UInt8) := acts.filterMap loggedBy

theorem capturedLine_whole {text : List UInt8} (h : Whole newline text) :
    Whole newline (capturedLine text) ∧ (capturedLine text).length ≤ 159 := by
  obtain ⟨body,rfl,hbody⟩ := h
  have hmax : captureLineMax = 160 := rfl
  unfold capturedLine
  dsimp only
  rw [hmax]
  by_cases hlong : 160 ≤ (body++[newline]).length
  · rw [List.length_append, List.length_singleton] at hlong
    have htake : (body++[newline]).take 159 = body.take 159 :=
      List.take_append_of_le_length (by omega)
    have hsplit : body.take 159 = body.take 158++[body[158]] := by
      rw [List.take_succ_eq_append_getElem]
    have hlen : (body.take 158).length = 158 := List.length_take_of_le (by omega)
    rw [if_pos (by rw [List.length_append, List.length_singleton]; exact hlong)]
    show Whole newline (((body++[newline]).take 159).set _ newline) ∧
      (((body++[newline]).take 159).set _ newline).length ≤ 159
    rw [htake, hsplit, List.length_append, List.length_singleton, hlen, List.set_append_right _ _
      (by omega), hlen]
    refine ⟨⟨body.take 158,rfl,fun hin => hbody (List.mem_of_mem_take hin)⟩,?_⟩
    rw [List.length_append, hlen]
    rfl
  · rw [if_neg hlong, List.take_of_length_le (by omega)]
    exact ⟨⟨body,rfl,hbody⟩,by omega⟩

theorem scanEnd_le {r : LogRing cap} {left i e e' : ℕ} (he : e ≤ i)
    (h : scanEnd r left i e = .ok e') : e' ≤ i+left := by
  induction left generalizing i e with
  | zero =>
    obtain rfl := Except.ok.inj h
    exact he
  | succ left ih =>
    obtain ⟨c,-,h⟩ := bind_ok.mp h
    have hnext : (if c = newline then i+1 else e) ≤ i+1 := by
      split <;> omega
    have := ih hnext h
    omega

theorem copyOut_length {r : LogRing cap} {left i : ℕ} {out : List UInt8}
    (h : copyOut r left i = .ok out) : out.length = left := by
  induction left generalizing i out with
  | zero =>
    obtain rfl := Except.ok.inj h
    rfl
  | succ left ih =>
    obtain ⟨c,-,h⟩ := bind_ok.mp h
    obtain ⟨rest,hrest,h⟩ := bind_ok.mp h
    obtain rfl := Except.ok.inj h
    rw [List.length_cons, ih hrest]

theorem take_length {r r' : LogRing cap} {max : ℕ} {given : Given}
    (h : logRingTake r max = .ok (given,r')) :
    ∃ e, scanEnd r (if r.len < max then r.len else max) 0 0 = .ok e ∧ e ≤ given.bytes.length ∧
      given.bytes.length ≤ max := by
  obtain ⟨e,he,h⟩ := bind_ok.mp h
  obtain ⟨out,hout,h⟩ := bind_ok.mp h
  obtain ⟨head,-,h⟩ := bind_ok.mp h
  obtain ⟨rfl,-⟩ := Prod.mk.inj (Except.ok.inj h)
  have hlimit : (if r.len < max then r.len else max) ≤ max := by
    split <;> omega
  generalize (if r.len < max then r.len else max) = limit at he hout hlimit
  have hbound := scanEnd_le (Nat.le_refl 0) he
  refine ⟨e,he,?_⟩
  show e ≤ out.length ∧ out.length ≤ max
  rw [copyOut_length hout]
  split <;> omega

theorem take_first {r r' : LogRing cap} {held : List (List UInt8)} {max : ℕ}
    (h : Holds r held.flatten) (hwhole : ∀ line ∈ held, Whole newline line)
    (hmax : ∀ line ∈ held, line.length ≤ max) (hne : held ≠ []) {given : Given}
    (htake : logRingTake r max = .ok (given,r')) : given.bytes ≠ [] := by
  obtain ⟨line,rest,rfl⟩ := List.exists_cons_of_ne_nil hne
  have hlen := h.length
  rw [List.flatten_cons, List.length_append] at hlen
  have hline := (hwhole line List.mem_cons_self).length_pos
  have hroom := hmax line List.mem_cons_self
  obtain ⟨e,he,hle,-⟩ := take_length htake
  generalize hlimit : (if r.len < max then r.len else max) = limit at he
  have hfits : line.length ≤ limit ∧ limit ≤ r.len := by
    rw [← hlimit]
    split <;> omega
  obtain ⟨k,hk,-,hfirst⟩ := lastEnd_lines hwhole limit 0
  obtain ⟨k,rfl⟩ := Nat.exists_eq_succ_of_ne_zero (Nat.ne_of_gt (hfirst line rfl hfits.1))
  rw [holds_scanEnd h limit 0 0 (by rw [List.flatten_cons, List.length_append]; omega),
    List.drop_zero, hk, Nat.zero_add, List.take_succ_cons, List.flatten_cons,
    List.length_append] at he
  have := Except.ok.inj he
  exact List.ne_nil_of_length_pos (by omega)

theorem dropMarker_nil {d : UInt32} (h : dropMarker d = []) : d = 0 := by
  by_contra hne
  unfold dropMarker at h
  rw [if_neg hne, List.map_eq_nil_iff, List.take_eq_nil_iff] at h
  rcases h with h | h
  · cases h
  · rw [List.append_assoc, List.append_eq_nil_iff] at h
    exact absurd h.1 (by decide)

theorem flatten_nil {held : List (List UInt8)} (hwhole : ∀ line ∈ held, Whole newline line)
    (h : held.flatten = []) : held = [] := by
  cases held with
  | nil => rfl
  | cons line held =>
    have hline := (hwhole line List.mem_cons_self).length_pos
    rw [List.flatten_cons, List.append_eq_nil_iff] at h
    rw [h.1] at hline
    exact absurd hline (Nat.lt_irrefl 0)

theorem flushed_append (p : Pipeline cap) (ring : LogRing cap) (w : LogWriter) (s : Files) (t : Taken)
    (ok : Bool) : flushed (⟨ring,w,s,p.rounds++[(t,ok)]⟩ : Pipeline cap) =
      flushed p++if ok then [t.bytes] else [] := by
  unfold flushed
  rw [List.filter_append, List.map_append]
  cases ok with
  | false => rfl
  | true => rfl

structure Inv (limit : UInt32) (files : ℕ) (lines : List (List UInt8)) (p : Pipeline cap)
    (batches : List (List (List UInt8) × List (List UInt8))) (lost held : List (List UInt8)) :
    Prop where
  batched : Batched lines batches lost held
  whole : ∀ line ∈ held, Whole newline line
  short : ∀ line ∈ held, line.length ≤ 159
  rounds : p.rounds.map Prod.fst = batches.map fun b => ⟨b.2.flatten,UInt32.ofNat b.1.length⟩
  holds : Holds p.ring held.flatten
  dropped : p.ring.dropped = UInt32.ofNat lost.length
  settled : held = [] → lost = []
  files : p.w.files = files
  card : ∃ l, Sound limit (flushed p) p.w p.s l

variable {o : ℕ → Outcome} {limit : UInt32} {files : ℕ} {lines : List (List UInt8)}
  {p p' : Pipeline cap} {batches : List (List (List UInt8) × List (List UInt8))}
  {lost held : List (List UInt8)}

theorem inv_start (hcap : 0 < cap) (buf : Buffer UInt8 cap) {s : Files} (hs : Bare s) :
    Inv limit (max 1 (min files logRotateMaxFiles)) [] (start buf limit files s) [] [] [] :=
  ⟨rfl,fun _ hl => (by cases hl),fun _ hl => (by cases hl),rfl,holds_init hcap buf,rfl,fun _ => rfl,rfl,
    _,sound_start limit files hs⟩

theorem Inv.log (h : Inv limit files lines p batches lost held) {text : List UInt8}
    (htext : Whole newline text) (hfits : (capturedLine text).length ≤ cap) :
    ∃ ring lost' held', captureVprintf text p.ring = .ok ring ∧
      Inv limit files (lines++[capturedLine text]) { p with ring := ring } batches lost' held' := by
  obtain ⟨hwhole,hshort⟩ := capturedLine_whole htext
  obtain ⟨ring,k,hput,hk,hholds,hdropped⟩ := holds_put h.holds.cap_pos h.holds h.whole hfits
  have hne : text ≠ [] := List.ne_nil_of_length_pos htext.length_pos
  refine ⟨ring,lost++held.take k,held.drop k++[capturedLine text],?_,h.batched.push _ k,?_,?_,h.rounds,
    hholds,?_,fun hnil => ?_,h.files,h.card⟩
  · unfold captureVprintf
    rw [if_neg hne]
    exact hput
  · intro line hline
    rcases List.mem_append.mp hline with hline | hline
    · exact h.whole line (List.mem_of_mem_drop hline)
    · exact List.mem_singleton.mp hline ▸ hwhole
  · intro line hline
    rcases List.mem_append.mp hline with hline | hline
    · exact h.short line (List.mem_of_mem_drop hline)
    · exact List.mem_singleton.mp hline ▸ hshort
  · show ring.dropped = _
    rw [hdropped, h.dropped, List.length_append, List.length_take, Nat.min_eq_left hk, UInt32.ofNat_add]
  · exact absurd (List.append_eq_nil_iff.mp hnil).2 (List.cons_ne_nil _ _)

structure Drained (p p' : Pipeline cap) (held lost' held' : List (List UInt8)) : Prop where
  fewer : held'.length < held.length
  lost : lost' = []
  mounted : p'.s.mounted = true
  free : ∃ k, p'.s.slots k = none
  written : ∃ t, p'.rounds = p.rounds++[(t,true)]

theorem Inv.round (ho : Unfailing o) (h : Inv limit files lines p batches lost held) :
    ∃ p' batches' lost' held', flushStep o p = some p' ∧
      Inv limit files lines p' batches' lost' held' ∧
      (p.s.mounted = true → (∃ k, p.s.slots k = none) → held ≠ [] → Drained p p' held lost' held') := by
  obtain ⟨l,hl⟩ := h.card
  have hmax : ∀ line ∈ held, line.length ≤ 1024 := fun line hline =>
    (h.short line hline).trans (by decide)
  obtain ⟨ring,k,htake,hholds,hzero⟩ := holds_take h.holds h.whole hmax
  have hrest : ∀ line ∈ held.drop k, line ∈ held := fun _ hline => List.mem_of_mem_drop hline
  have hfirst : held ≠ [] → (held.take k).flatten ≠ [] := fun hne =>
    take_first h.holds h.whole hmax hne htake
  obtain ⟨-,-,-,hchunk⟩ := take_length htake
  unfold flushStep
  rw [htake]
  dsimp only
  by_cases hidle : (held.take k).flatten = [] ∧ dropMarker p.ring.dropped = []
  · have hnil : held.take k = [] :=
      flatten_nil (fun line hline => h.whole line (List.mem_of_mem_take hline)) hidle.1
    have hdrop : held.drop k = held := by
      conv_rhs => rw [← List.take_append_drop k held, hnil, List.nil_append]
    rw [hdrop] at hholds
    rw [if_pos hidle]
    exact ⟨_,batches,lost,held,rfl,⟨h.batched,h.whole,h.short,h.rounds,hholds,
      hzero.trans ((dropMarker_nil hidle.2).symm.trans h.dropped),h.settled,h.files,h.card⟩,
      fun _ _ hne => absurd hidle.1 (hfirst hne)⟩
  · rw [if_neg hidle]
    have hbytes : (⟨(held.take k).flatten,p.ring.dropped⟩ : Taken).bytes ≠ [] := fun hc =>
      hidle ((bytes_nil _).mp hc)
    obtain ⟨-,hfiles,-⟩ := flushRound_exact (t := ⟨(held.take k).flatten,p.ring.dropped⟩)
      (unfailing_truthful ho) hl.exact hl.files fun _ => unfailing_listed ho p.s
    obtain ⟨l',hok,hno⟩ := hl.round ho hchunk hbytes
    refine ⟨_,batches++[(lost,held.take k)],[],held.drop k,rfl,⟨h.batched.take k,
      fun line hline => h.whole line (hrest line hline),fun line hline => h.short line (hrest line hline),
      ?_,hholds,hzero,fun _ => rfl,hfiles.trans h.files,l',?_⟩,fun hm hfree hne => ?_⟩
    · rw [List.map_append, List.map_append, h.rounds, List.map_singleton, List.map_singleton, h.dropped]
    · rw [flushed_append]
      by_cases hdone : (flushRound o ⟨(held.take k).flatten,p.ring.dropped⟩ p.w p.s).1 = .ok
      · rw [decide_eq_true hdone]
        exact hok hdone
      · rw [decide_eq_false hdone]
        simp only [Bool.false_eq_true, if_false, List.append_nil]
        exact hno hdone
    · obtain ⟨hdone,hmounted,hfree'⟩ := hl.succeeds ho ⟨(held.take k).flatten,p.ring.dropped⟩ hm hfree
      have hsome := hfirst hne
      refine ⟨?_,rfl,hmounted,hfree',_,by rw [decide_eq_true hdone]⟩
      rw [List.length_drop]
      have hlen := List.length_pos_of_ne_nil hne
      have hpos : k ≠ 0 := by
        rintro rfl
        exact hsome rfl
      omega

/-- No step is stuck, and each keeps the account. -/
theorem Inv.step (ho : Unfailing o) (h : Inv limit files lines p batches lost held) {a : Act}
    (hg : Allowed p a) : ∃ p' batches' lost' held', step o p a = some p' ∧
      Inv limit files (lines++(loggedBy a).toList) p' batches' lost' held' := by
  cases a with
  | log text =>
    obtain ⟨ring,lost',held',hput,hinv⟩ := h.log hg.1 hg.2
    refine ⟨{ p with ring := ring },batches,lost',held',?_,hinv⟩
    unfold LogPipeline.step
    dsimp only
    rw [hput]
  | round =>
    show ∃ p' batches' lost' held', (if p.s.mounted then flushStep o p else some p) = some p' ∧
      Inv limit files (lines++[]) p' batches' lost' held'
    rw [List.append_nil]
    obtain ⟨p',batches',lost',held',hp',hinv,-⟩ := h.round ho
    by_cases hm : p.s.mounted = true
    · exact ⟨p',batches',lost',held',by rw [if_pos hm, hp'],hinv⟩
    · exact ⟨p,batches,lost,held,by rw [if_neg hm],h⟩
  | mount s =>
    have hcard := sound_step ho ⟨p.w,p.s,flushed p⟩ (.mount s) _ ⟨h.card,h.files⟩ hg rfl
    refine ⟨_,batches,lost,held,rfl,?_⟩
    show Inv limit files (lines++[]) _ batches lost held
    rw [List.append_nil]
    exact ⟨h.batched,h.whole,h.short,h.rounds,h.holds,h.dropped,h.settled,hcard.2,hcard.1⟩
  | others s =>
    have hcard := sound_step ho ⟨p.w,p.s,flushed p⟩ (.others s) _ ⟨h.card,h.files⟩ hg rfl
    refine ⟨_,batches,lost,held,rfl,?_⟩
    show Inv limit files (lines++[]) _ batches lost held
    rw [List.append_nil]
    exact ⟨h.batched,h.whole,h.short,h.rounds,h.holds,h.dropped,h.settled,hcard.2,hcard.1⟩

theorem logged_cons (a : Act) (acts : List Act) : logged (a::acts) = (loggedBy a).toList++logged acts := by
  unfold logged
  rw [List.filterMap_cons]
  cases loggedBy a with
  | none => rfl
  | some line => rfl

theorem run_inv (ho : Unfailing o) (acts : List Act) (h : Inv limit files lines p batches lost held)
    (hrun : Run (LogPipeline.step o) Allowed p acts p') :
    ∃ batches' lost' held', Inv limit files (lines++logged acts) p' batches' lost' held' := by
  induction acts generalizing p lines batches lost held with
  | nil =>
    obtain rfl := hrun
    refine ⟨batches,lost,held,?_⟩
    show Inv limit files (lines++[]) p batches lost held
    rw [List.append_nil]
    exact h
  | cons a acts ih =>
    obtain ⟨hg,u,hu,hrest⟩ := hrun
    obtain ⟨u',batches',lost',held',hu',hinv⟩ := h.step ho hg
    obtain rfl := Option.some.inj (hu.symm.trans hu')
    rw [logged_cons, ← List.append_assoc]
    exact ih hinv hrest

/-- On a mounted volume with a handle free the rounds of a flush empty the ring. -/
theorem drain (ho : Unfailing o) (h : Inv limit files lines p batches lost held)
    (hm : p.s.mounted = true) (hfree : ∃ k, p.s.slots k = none) :
    ∃ n p' batches' rs, Run (LogPipeline.step o) Allowed p (List.replicate n .round) p' ∧
      Inv limit files lines p' batches' [] [] ∧ p'.rounds = p.rounds++rs ∧ ∀ r ∈ rs, r.2 = true := by
  induction hlen : held.length using Nat.strongRecOn generalizing p batches lost held with | ind len ih =>
  subst hlen
  by_cases hne : held = []
  · subst hne
    obtain rfl := h.settled rfl
    exact ⟨0,p,batches,[],rfl,h,(List.append_nil _).symm,fun _ hr => by cases hr⟩
  · obtain ⟨u,batches',lost',held',hu,hinv,hdrained⟩ := h.round ho
    obtain ⟨hfewer,-,hm',hfree',t,ht⟩ := hdrained hm hfree hne
    obtain ⟨n,p',batches'',rs,hrun,hend,hrounds,hwritten⟩ := ih _ hfewer hinv hm' hfree' rfl
    refine ⟨n+1,p',batches'',(t,true)::rs,⟨trivial,u,(if_pos hm).trans hu,hrun⟩,hend,?_,?_⟩
    · rw [hrounds, ht, List.append_assoc]
      rfl
    · intro r hr
      rcases List.mem_cons.mp hr with rfl | hr
      · rfl
      · exact hwritten r hr

/-- Every line logged by any task, in any order with the rounds of the flushes, is in the append of a
round, or counted in its place by the marker before one, or waits in the ring; the files are the end of
what was appended; and wherever the log stands, the rounds of one flush bring all of it to the card. -/
theorem logs_reach_card (hcap : 0 < cap) (buf : Buffer UInt8 cap) (o : ℕ → Outcome) (ho : Unfailing o)
    (limit : UInt32) (files : ℕ) (s : Files) (hs : Bare s) (acts : List Act) (p : Pipeline cap)
    (h : Run (LogPipeline.step o) Allowed (start buf limit files s) acts p) :
    (∃ batches lost held, Batched (logged acts) batches lost held ∧
      p.rounds.map Prod.fst = batches.map (fun b => ⟨b.2.flatten,UInt32.ofNat b.1.length⟩) ∧
      ringText p.ring = held.flatten ∧ p.ring.dropped = UInt32.ofNat lost.length) ∧
    Tidy limit (max 1 (min files logRotateMaxFiles)) (flushed p) p.s ∧
    (∀ a, Allowed p a → (LogPipeline.step o p a).isSome) ∧
    (p.s.mounted = true → (∃ k, p.s.slots k = none) →
      ∃ n t rs batches, Run (LogPipeline.step o) Allowed p (List.replicate n .round) t ∧
        ringText t.ring = [] ∧ t.ring.dropped = 0 ∧ Batched (logged acts) batches [] [] ∧
        t.rounds.map Prod.fst = batches.map (fun b => ⟨b.2.flatten,UInt32.ofNat b.1.length⟩) ∧
        t.rounds = p.rounds++rs ∧ ∀ r ∈ rs, r.2 = true) := by
  obtain ⟨batches,lost,held,hinv⟩ := run_inv ho acts (inv_start hcap buf hs) h
  rw [List.nil_append] at hinv
  obtain ⟨l,hl⟩ := hinv.card
  refine ⟨⟨batches,lost,held,hinv.batched,hinv.rounds,hinv.holds.text,hinv.dropped⟩,
    hinv.files ▸ hl.tidy,fun a ha => ?_,fun hm hfree => ?_⟩
  · obtain ⟨p',-,-,-,hp',-⟩ := hinv.step ho ha
    rw [hp']
    rfl
  · obtain ⟨n,t,batches',rs,hrun,hend,hrounds,hwritten⟩ := drain ho hinv hm hfree
    exact ⟨n,t,rs,batches',hrun,hend.holds.text,hend.dropped,hend.batched,hend.rounds,hrounds,hwritten⟩

end

def threeLines : List Act := [.log [0x61,0x0A],.log [0x62,0x63,0x0A],.log [0x64,0x0A],.round]

theorem logs_reach_card_three : ∃ p : Pipeline 6,
    Run (step fun _ => .ok 64) Allowed (start ⟨[0,0,0,0,0,0],rfl⟩ 100 2 bareCard) threeLines p ∧
    (p.rounds.map Prod.snd = [true] ∧ (logBytes p.s).drop 28 = [0x62,0x63,0x0A,0x64,0x0A]) ∧
    ∃ batches lost held, Batched (logged threeLines) batches lost held ∧
      p.rounds.map Prod.fst = batches.map (fun b => ⟨b.2.flatten,UInt32.ofNat b.1.length⟩) ∧
      ringText p.ring = held.flatten ∧ p.ring.dropped = UInt32.ofNat lost.length := by
  have ho : Unfailing fun _ => .ok 64 := fun n => ⟨64,by decide,rfl⟩
  obtain ⟨p,hrun,hall⟩ := run_witness (step fun _ => .ok 64) (G := Free)
    (s := start ⟨[0,0,0,0,0,0],rfl⟩ 100 2 bareCard) (p := fun p : Pipeline 6 =>
      p.rounds.map Prod.snd = [true] ∧ (logBytes p.s).drop 28 = [0x62,0x63,0x0A,0x64,0x0A])
    threeLines (by decide +kernel) (by decide +kernel)
  have hwhole : ∀ body : List UInt8, newline ∉ body → Whole newline (body++[newline]) :=
    fun body hbody => ⟨body,rfl,hbody⟩
  obtain ⟨-,u,hu,-,v,hv,-,w,hw,-,x,hx,rfl⟩ := hrun
  have hallowed : Run (step fun _ => .ok 64) Allowed (start ⟨[0,0,0,0,0,0],rfl⟩ 100 2 bareCard)
      threeLines x :=
    ⟨⟨hwhole [0x61] (by decide),by decide⟩,u,hu,⟨hwhole [0x62,0x63] (by decide),by decide⟩,v,hv,
      ⟨hwhole [0x64] (by decide),by decide⟩,w,hw,trivial,x,hx,rfl⟩
  exact ⟨x,hallowed,hall,(logs_reach_card (by decide) _ _ ho 100 2 bareCard bareCard_bare threeLines x
    hallowed).1⟩

end StarkOne.LogPipeline
