import StarkOne.Pn532Bus

/-!
# A command ends

The clock of the transport is read modulo 2^32. While it goes on between two
looks at it, but not so far that it jumps over all the readings past the
deadline, a polling loop has as many rounds as there are milliseconds in its
timeout, and so the whole command ends.
-/

set_option autoImplicit false

namespace StarkOne.Pn532Command
open StarkOne.BufferReader StarkOne.Pn532Frame StarkOne.Pn532Bus

variable {σ α : Type}

/-- The time is shown modulo 2^32, a delay takes at least a millisecond, and no call takes
time back. -/
structure Clocked (io : Transport σ) (clock : σ → ℕ) : Prop where
  shows : ∀ s, (io.nowMs s).1.toNat = clock s % 2^32
  delay : ∀ s, clock s+1 ≤ clock (io.delayMs s pn532PollMs)
  now : ∀ s, clock s ≤ clock (io.nowMs s).2
  read : ∀ s n, clock s ≤ clock (io.read s n).2

/-- The device between two looks at the clock: a delay, a status byte, and perhaps a frame. -/
def Round (io : Transport σ) (len : ℕ) (s t : σ) : Prop :=
  let u := (io.read (io.delayMs (io.nowMs s).2 pn532PollMs) 1).2
  t = u ∨ t = (io.read u (1+len)).2

/-- A round never takes so long that the readings past the timeout are jumped over. -/
def Paced (io : Transport σ) (clock : σ → ℕ) (len : ℕ) (timeout : UInt32) : Prop :=
  ∀ s t, Round io len s t → clock t ≤ clock s+(2^32-timeout.toNat)

theorem round_forward {io : Transport σ} {clock : σ → ℕ} (hc : Clocked io clock) {len : ℕ} {s t : σ}
    (h : Round io len s t) : clock s+1 ≤ clock t := by
  have hnow := hc.now s
  have hdelay := hc.delay (io.nowMs s).2
  have hread := hc.read (io.delayMs (io.nowMs s).2 pn532PollMs) 1
  rcases h with rfl | rfl
  · omega
  · have := hc.read (io.read (io.delayMs (io.nowMs s).2 pn532PollMs) 1).2 (1+len)
    omega

/-- From some number of rounds on the outcome is always the same, and it is one. -/
def Settles (bound : ℕ) (f : ℕ → Outcome σ α) : Prop :=
  ∃ r, r.1 ≠ .error .endless ∧ ∀ rounds, bound ≤ rounds → f rounds = r

theorem settles_const (bound : ℕ) (r : Outcome σ α) (h : r.1 ≠ .error .endless) :
    Settles bound fun _ => r := ⟨r,h,fun _ _ => rfl⟩

theorem pollOnce_dev (io : Transport σ) (len : ℕ) (w : World σ) :
    (pollOnce io len w).2.dev = (io.read w.dev 1).2 ∨
      (pollOnce io len w).2.dev = (io.read (io.read w.dev 1).2 (1+len)).2 := by
  obtain ⟨-,-,hdev,-⟩ := busRead_spec io w 1
  unfold pollOnce
  split
  · rename_i e v hv
    rw [hv] at hdev
    exact .inl hdev
  rename_i status v hv
  rw [hv] at hdev
  split
  · exact .inl hdev
  split
  · exact .inl hdev
  rename_i cleared _
  obtain ⟨-,-,hdev',-⟩ := busRead_spec io { v with buf := cleared } (1+len)
  dsimp only at hdev hdev'
  rw [← hdev]
  split
  · rename_i e u hu
    rw [hu] at hdev'
    exact .inr hdev'
  · rename_i bytes u hu
    rw [hu] at hdev'
    split
    · exact .inr hdev'
    · exact .inr hdev'

theorem pollOnce_ends (io : Transport σ) (len : ℕ) (w : World σ) (hlen : 1+len ≤ pn532BufSize) :
    (pollOnce io len w).1 ≠ .error .endless := by
  intro h
  obtain ⟨e,he⟩ := (pollOnce_spec io len w hlen).safe _ h
  cases he

def elapsed (io : Transport σ) (start : UInt32) (s : σ) : ℕ := ((io.nowMs s).1-start).toNat

theorem elapsed_round {io : Transport σ} {clock : σ → ℕ} (hc : Clocked io clock) {len : ℕ}
    {timeout : UInt32} (hp : Paced io clock len timeout) (start : UInt32) {s t : σ}
    (h : Round io len s t) (hearly : elapsed io start s < timeout.toNat) :
    elapsed io start s+1 ≤ elapsed io start t := by
  have h1 := round_forward hc h
  have h2 := hp s t h
  have hs := hc.shows s
  have ht := hc.shows t
  have hlt := start.toNat_lt
  have hto := timeout.toNat_lt
  unfold elapsed at hearly ⊢
  rw [UInt32.toNat_sub, hs] at hearly ⊢
  rw [UInt32.toNat_sub, ht]
  omega

/-- The budget is what is left of the timeout at the next look at the clock. -/
theorem pollLoop_settles {io : Transport σ} {clock : σ → ℕ} (hc : Clocked io clock) {len : ℕ}
    {timeout : UInt32} (hp : Paced io clock len timeout) (hlen : 1+len ≤ pn532BufSize)
    (start : UInt32) (k : ℕ) (w : World σ)
    (hk : timeout.toNat ≤ elapsed io start (pollOnce io len w).2.dev+k) :
    Settles (k+1) fun rounds => pollLoop io len timeout start rounds w := by
  induction k using Nat.strongRecOn generalizing w with | ind k ih =>
  have hends := pollOnce_ends io len w hlen
  have hone : ∀ r : Outcome σ Unit, r.1 ≠ .error .endless →
      (∀ rounds, pollLoop io len timeout start (rounds+1) w = r) →
      Settles (k+1) fun rounds => pollLoop io len timeout start rounds w := by
    intro r hr hsame
    refine ⟨r,hr,fun rounds hrounds => ?_⟩
    obtain ⟨m,rfl⟩ : ∃ m, rounds = m+1 := ⟨rounds-1,by omega⟩
    exact hsame m
  cases hpoll : pollOnce io len w with
  | mk r v =>
    rw [hpoll] at hk hends
    cases r with
    | error e =>
      refine hone (.error e,v) (fun h => hends (by cases h; rfl)) fun rounds => ?_
      rw [pollLoop, hpoll]
    | ok b =>
      cases b with
      | true =>
        refine hone (.ok (),v) (fun h => by cases h) fun rounds => ?_
        rw [pollLoop, hpoll]
      | false =>
        have hnext : ∀ rounds, pollLoop io len timeout start (rounds+1) w =
            if timeout ≤ (io.nowMs v.dev).1-start then
              (stop .timeout,{ v with
                dev := (io.nowMs v.dev).2, stats := { v.stats with timeouts := v.stats.timeouts+1 } })
            else pollLoop io len timeout start rounds
              { v with dev := io.delayMs (io.nowMs v.dev).2 pn532PollMs } := by
          intro rounds
          rw [pollLoop, hpoll]
        by_cases hlate : timeout ≤ (io.nowMs v.dev).1-start
        · exact hone (stop .timeout,_) (fun h => by cases h) fun rounds =>
            (hnext rounds).trans (if_pos hlate)
        · have hearly : elapsed io start v.dev < timeout.toNat := by
            rw [UInt32.le_iff_toNat_le] at hlate
            exact Nat.not_le.mp hlate
          obtain ⟨j,rfl⟩ : ∃ j, k = j+1 := ⟨k-1,by dsimp only at hk; omega⟩
          have hround : Round io len v.dev
              (pollOnce io len { v with dev := io.delayMs (io.nowMs v.dev).2 pn532PollMs }).2.dev :=
            pollOnce_dev io len { v with dev := io.delayMs (io.nowMs v.dev).2 pn532PollMs }
          have hforward := elapsed_round hc hp start hround hearly
          obtain ⟨r,hr,hsame⟩ := ih j (Nat.lt_succ_self j)
            { v with dev := io.delayMs (io.nowMs v.dev).2 pn532PollMs } (by dsimp only at hk; omega)
          refine ⟨r,hr,fun rounds hrounds => ?_⟩
          obtain ⟨m,rfl⟩ : ∃ m, rounds = m+1 := ⟨rounds-1,by omega⟩
          exact (hnext m).trans ((if_neg hlate).trans (hsame m (by omega)))

theorem settles_mono {m n : ℕ} {f : ℕ → Outcome σ α} (hmn : m ≤ n) (h : Settles m f) : Settles n f := by
  obtain ⟨r,hr,hsame⟩ := h
  exact ⟨r,hr,fun rounds hrounds => hsame rounds (hmn.trans hrounds)⟩

theorem readReady_settles {io : Transport σ} {clock : σ → ℕ} (hc : Clocked io clock) {len : ℕ}
    {timeout : UInt32} (hp : Paced io clock len timeout) (hlen : 1+len ≤ pn532BufSize) {bound : ℕ}
    (hb : timeout.toNat < bound) (w : World σ) :
    Settles bound fun rounds => readReady io rounds len timeout w :=
  settles_mono hb (pollLoop_settles hc hp hlen _ timeout.toNat _ (Nat.le_add_left _ _))

theorem settles_then {β : Type} {bound : ℕ} {f : ℕ → Outcome σ α}
    (g : ℕ → Outcome σ α → Outcome σ β) (hf : Settles bound f)
    (hg : ∀ r, r.1 ≠ .error .endless → Settles bound fun rounds => g rounds r) :
    Settles bound fun rounds => g rounds (f rounds) := by
  obtain ⟨r,hr,hsame⟩ := hf
  obtain ⟨r',hr',hsame'⟩ := hg r hr
  refine ⟨r',hr',fun rounds hrounds => ?_⟩
  dsimp only
  rw [hsame rounds hrounds]
  exact hsame' rounds hrounds

theorem parse_ends (w : World σ) {len : ℕ} (hlen : len ≤ pn532DataMax+pn532FrameOverhead) :
    pn532FrameParse w.frame len ≠ .error .endless := by
  intro h
  have hsafe : Safe (pn532FrameParse w.frame len) := parse_safe (by rw [frame_length]; exact hlen)
  obtain ⟨e,he⟩ := hsafe _ h
  cases he

theorem acked_ends (r : Outcome σ Unit) (h : r.1 ≠ .error .endless) :
    (acked r).1 ≠ .error .endless := by
  obtain ⟨r,w⟩ := r
  unfold acked
  split
  · rename_i e v hv
    cases hv
    exact fun he => h (by cases he; rfl)
  · rename_i v hv
    cases hv
    split
    · exact fun h => by cases h
    · exact fun h => by cases h
    · exact fun h => by cases h
    · rename_i e hfault he
      have hack : pn532Ack.length ≤ pn532DataMax+pn532FrameOverhead := by decide
      exact fun h => parse_ends w hack (by rw [he]; cases h; rfl)

theorem busWrite_ends (io : Transport σ) (w : World σ) (bytes : List UInt8) :
    (busWrite io w bytes).1 ≠ .error .endless := by
  intro h
  obtain ⟨e,he⟩ := (busWrite_spec io w bytes).2 _ h
  cases he

theorem sendOnce_settles {io : Transport σ} {clock : σ → ℕ} (hc : Clocked io clock)
    (hp : Paced io clock pn532Ack.length pn532AckTimeoutMs) {bound : ℕ} (hb : 50 < bound)
    (frame : List UInt8) (w : World σ) :
    Settles bound fun rounds => sendOnce io rounds frame w := by
  have hw := busWrite_ends io w frame
  unfold sendOnce
  split
  · rename_i e v hv
    exact settles_const bound _ fun h => hw (by rw [hv]; cases h; rfl)
  · rename_i v hv
    exact settles_then (fun _ r => acked r) (readReady_settles hc hp (by decide) hb v)
      fun r hr => settles_const bound _ (acked_ends r hr)

def resent (io : Transport σ) (rounds : ℕ) (frame : List UInt8) (again : ℕ) :
    Outcome σ Unit → Outcome σ Unit
  | (.error (.fault e),w) =>
    if e = .notFound then (.error (.fault e),w)
    else sendAcked io rounds frame again
      { w with stats := { w.stats with retries := w.stats.retries+1 } }
  | r => r

theorem sendAcked_settles {io : Transport σ} {clock : σ → ℕ} (hc : Clocked io clock)
    (hp : Paced io clock pn532Ack.length pn532AckTimeoutMs) {bound : ℕ} (hb : 50 < bound)
    (frame : List UInt8) (again : ℕ) (w : World σ) :
    Settles bound fun rounds => sendAcked io rounds frame again w := by
  induction again generalizing w with
  | zero => exact sendOnce_settles hc hp hb frame w
  | succ again ih =>
    apply settles_then (fun rounds => resent io rounds frame again) (sendOnce_settles hc hp hb frame w)
    intro r hr
    unfold resent
    split
    · split
      · exact settles_const bound _ fun h => by cases h
      · exact ih _
    · exact settles_const bound _ hr

theorem received_ends (io : Transport σ) (cmd : UInt8) {cap : ℕ} (hcap : cap ≤ pn532DataMax-2)
    (resp : Buffer UInt8 cap) (r : Outcome σ Unit) (h : r.1 ≠ .error .endless) :
    (received io (cap+2+pn532FrameOverhead) cmd resp r).1 ≠ .error .endless := by
  have hmax : pn532DataMax = 254 := rfl
  obtain ⟨r,w⟩ := r
  unfold received
  split
  · rename_i e v hv
    cases hv
    exact fun he => h (by cases he; rfl)
  · rename_i v hv
    cases hv
    have hlen : cap+2+pn532FrameOverhead ≤ pn532DataMax+pn532FrameOverhead := by omega
    split
    · rename_i rx hrx
      obtain ⟨hsafe,-⟩ := answer_spec w.frame cmd rx resp (by rw [frame_length]; exact hlen) hrx
      intro he
      dsimp only at he
      cases ha : answer w.frame cmd rx resp with
      | error e =>
        rw [ha] at he hsafe
        obtain ⟨f,hf⟩ := hsafe e rfl
        cases hf
        cases he
      | ok a =>
        rw [ha] at he
        cases he
    · split
      · exact fun h => by cases h
      · split
        · exact fun h => by cases h
        · exact fun h => by cases h
    · rename_i e hfault he
      exact fun h => parse_ends w hlen (by rw [he]; cases h; rfl)

theorem receiveOnce_settles {io : Transport σ} {clock : σ → ℕ} (hc : Clocked io clock) {cap : ℕ}
    (hcap : cap ≤ pn532DataMax-2) {timeout : UInt32}
    (hp : Paced io clock (cap+2+pn532FrameOverhead) timeout) {bound : ℕ}
    (hb : timeout.toNat < bound) (cmd : UInt8) (resp : Buffer UInt8 cap) (w : World σ) :
    Settles bound fun rounds =>
      receiveOnce io rounds (cap+2+pn532FrameOverhead) cmd timeout resp w := by
  have hsize : 1+(cap+2+pn532FrameOverhead) ≤ pn532BufSize := by
    unfold pn532BufSize pn532DataMax at *
    omega
  exact settles_then (fun _ r => received io (cap+2+pn532FrameOverhead) cmd resp r)
    (readReady_settles hc hp hsize hb w)
    fun r hr => settles_const bound _ (received_ends io cmd hcap resp r hr)

def lastReceived {cap : ℕ} :
    Outcome σ (Option (Buffer UInt8 cap × ℕ)) → Outcome σ (Buffer UInt8 cap × ℕ)
  | (.error e,w) => (.error e,w)
  | (.ok (some r),w) => (.ok r,w)
  | (.ok none,w) => (stop .io,w)

def askedAgain (io : Transport σ) (rounds want : ℕ) (cmd : UInt8) (timeout : UInt32) {cap : ℕ}
    (resp : Buffer UInt8 cap) (resends : ℕ) :
    Outcome σ (Option (Buffer UInt8 cap × ℕ)) → Outcome σ (Buffer UInt8 cap × ℕ)
  | (.error e,w) => (.error e,w)
  | (.ok (some r),w) => (.ok r,w)
  | (.ok none,w) =>
    let w := { w with stats := { w.stats with naksSent := w.stats.naksSent+1 } }
    match busWrite io w pn532Nack with
    | (.error e,w) => (.error e,w)
    | (.ok _,w) => receive io rounds want cmd timeout resp resends w

theorem receive_settles {io : Transport σ} {clock : σ → ℕ} (hc : Clocked io clock) {cap : ℕ}
    (hcap : cap ≤ pn532DataMax-2) {timeout : UInt32}
    (hp : Paced io clock (cap+2+pn532FrameOverhead) timeout) {bound : ℕ}
    (hb : timeout.toNat < bound) (cmd : UInt8) (resp : Buffer UInt8 cap) (resends : ℕ) (w : World σ) :
    Settles bound fun rounds =>
      receive io rounds (cap+2+pn532FrameOverhead) cmd timeout resp resends w := by
  induction resends generalizing w with
  | zero =>
    apply settles_then (fun _ => lastReceived) (receiveOnce_settles hc hcap hp hb cmd resp w)
    intro r hr
    apply settles_const
    unfold lastReceived
    split
    · exact fun h => hr (by cases h; rfl)
    · exact fun h => by cases h
    · exact fun h => by cases h
  | succ resends ih =>
    apply settles_then
      (fun rounds => askedAgain io rounds (cap+2+pn532FrameOverhead) cmd timeout resp resends)
      (receiveOnce_settles hc hcap hp hb cmd resp w)
    intro r hr
    unfold askedAgain
    split
    · exact settles_const bound _ fun h => hr (by cases h; rfl)
    · exact settles_const bound _ fun h => by cases h
    · rename_i v
      have hw := busWrite_ends io
        { v with stats := { v.stats with naksSent := v.stats.naksSent+1 } } pn532Nack
      dsimp only at hw ⊢
      split
      · rename_i e u hu
        exact settles_const bound _ fun h => hw (by rw [hu]; cases h; rfl)
      · exact ih _

def paramBytes {n : ℕ} (params : Option (Buffer UInt8 n)) : List UInt8 :=
  (params.map Subtype.val).getD []

theorem build_spec (cmd : UInt8) {n : ℕ} (params : Option (Buffer UInt8 n)) :
    ∃ flen frame, pn532FrameBuild cmd params frameRoom = .ok (flen,frame) ∧
      (flen = 0 ∨ frame.val.take flen = hostFrame cmd (paramBytes params)) := by
  have hover : pn532FrameOverhead = 7 := rfl
  have hmax : pn532DataMax = 254 := rfl
  unfold pn532FrameBuild
  split
  · exact ⟨0,_,rfl,.inl rfl⟩
  · rename_i h
    simp only [Bool.or_eq_true, Bool.and_eq_true, decide_eq_true_eq, not_or] at h
    obtain ⟨⟨hparams,hn⟩,-⟩ := h
    have hbytes : (paramBytes params).length = n := by
      cases params with
      | some bytes => exact bytes.property
      | none =>
        rw [Option.isNone_none] at hparams
        have : n = 0 := by
          by_contra h
          exact hparams ⟨Nat.pos_of_ne_zero h,rfl⟩
        exact this.symm
    have hlen : (hostFrame cmd (paramBytes params)).length = n+2+pn532FrameOverhead := by
      simp [hostFrame, hbytes, hover]
    obtain ⟨frame,hfill,hval⟩ := fill_ok Fault frameRoom
      (hostFrame cmd (paramBytes params)) (by omega)
    refine ⟨n+2+pn532FrameOverhead,frame,?_,.inr ?_⟩
    · show (fill frameRoom (hostFrame cmd (paramBytes params))).bind _ = _
      rw [hfill]
      rfl
    · rw [hval, ← hlen, List.take_left]

/-- What a command ends in: only the data of a good answer is handed on, and not too much
is written. -/
structure Commanded (cmd : UInt8) (params : List UInt8) {cap : ℕ} (resp : Option (Buffer UInt8 cap))
    (w : World σ) (r : Reply cap × World σ) : Prop where
  inside : r.1.err ≠ .error .outside
  answered : r.1.err = .ok () → ∃ status frame data, r.2.reads.getLast? = some (status::frame) ∧
    Carries frame (tfiChip::(cmd+1)::data) ∧ data.length ≤ cap ∧ r.1.got = some data.length ∧
    r.1.resp.map Subtype.val = resp.map fun room => data++room.val.drop data.length
  refused : r.1.err ≠ .ok () → r.1.got = some 0 ∧ r.1.resp = resp
  writes : ∃ a ≤ 3, ∃ b ≤ 2, ∃ c ≤ 1, r.2.writes = w.writes++List.replicate a (hostFrame cmd params)++
    List.replicate b pn532Nack++List.replicate c pn532Ack

theorem commanded_error {cmd : UInt8} {params : List UInt8} {cap : ℕ}
    {resp : Option (Buffer UInt8 cap)} {w v : World σ} {e : Stop Fault} (he : e ≠ .outside)
    (hw : ∃ a ≤ 3, ∃ b ≤ 2, ∃ c ≤ 1, v.writes = w.writes++List.replicate a (hostFrame cmd params)++
      List.replicate b pn532Nack++List.replicate c pn532Ack) :
    Commanded cmd params resp w (⟨.error e,some 0,resp⟩,v) :=
  ⟨fun h => he (by cases h; rfl),fun h => (by cases h),fun _ => ⟨rfl,rfl⟩,hw⟩

/-- The data of the answer is in the frame that was read last, not only in the buffer. -/
theorem answers_frame {want : ℕ} {cmd : UInt8} {cap : ℕ} {resp : Buffer UInt8 cap} {w : World σ}
    {a : Buffer UInt8 cap × ℕ} (h : Answers want cmd resp w a) :
    ∃ status frame data, w.reads.getLast? = some (status::frame) ∧
      Carries frame (tfiChip::(cmd+1)::data) ∧ a.2 = data.length ∧
      a.1.val = data++resp.val.drop data.length := by
  obtain ⟨⟨status,frame,rest,hlast,hlen,hbuf⟩,⟨data,hcarries,hgot,hroom⟩,hfit⟩ := h
  refine ⟨status,frame,data,hlast,?_,hgot,hroom⟩
  have hframe : w.frame = frame++rest := by
    unfold World.frame
    rw [hbuf]
    rfl
  rw [hframe] at hcarries
  apply carries_of_append hcarries
  rw [List.length_cons, List.length_cons]
  omega

theorem commanded (io : Transport σ) (rounds : ℕ) (w : World σ) (cmd : UInt8) {n : ℕ}
    (params : Option (Buffer UInt8 n)) {cap : ℕ} (resp : Option (Buffer UInt8 cap))
    (timeout : UInt32) (hresp : cap = 0 ∨ resp.isSome) (hcap : cap ≤ pn532DataMax-2) :
    Commanded cmd (paramBytes params) resp w
      (pn532Command io rounds w cmd params resp true timeout) := by
  have hargs : (!true || (0 < cap && resp.isNone) || pn532DataMax-2 < cap) = false := by
    rcases hresp with rfl | h
    · rfl
    · cases resp with
      | none => cases h
      | some room => simpa using hcap
  obtain ⟨flen,frame,hbuild,hframe⟩ := build_spec cmd params
  unfold pn532Command
  rw [hargs, if_neg (by decide), hbuild]
  dsimp only
  split
  · exact commanded_error (fun h => by cases h) ⟨0,by decide,0,by decide,0,by decide,by simp⟩
  rename_i hflen
  rw [hframe.resolve_left hflen]
  obtain ⟨hsound,a,ha,hsent⟩ := sendAcked_spec io rounds (hostFrame cmd (paramBytes params))
    pn532Retries w
  split
  · rename_i e v hv
    rw [hv] at hsound hsent
    exact commanded_error (fun h => hsound (by rw [h]))
      ⟨a,ha,0,by decide,0,by decide,by simpa using hsent⟩
  rename_i v hv
  rw [hv] at hsent
  have hreceived := receive_spec io rounds cmd timeout hcap (respRoom resp) pn532Resends v
  obtain ⟨b,hb,c,hc,hwrites⟩ := hreceived.writes
  rw [hsent] at hwrites
  split
  · rename_i e u hu
    rw [hu] at hreceived hwrites
    exact commanded_error (fun h => hreceived.sound (by rw [h])) ⟨a,ha,b,hb,c,hc,hwrites⟩
  · rename_i room got u hu
    rw [hu] at hreceived hwrites
    obtain ⟨status,frame,data,hlast,hcarries,hgot,hroom⟩ :=
      answers_frame (hreceived.answers _ rfl)
    refine ⟨fun h => (by cases h),fun _ => ⟨status,frame,data,hlast,hcarries,?_,congrArg some hgot,?_⟩,
      fun h => absurd rfl h,⟨a,ha,b,hb,c,hc,hwrites⟩⟩
    · have hlen := congrArg List.length hroom
      rw [List.length_append, room.property] at hlen
      omega
    · cases resp with
      | none => rfl
      | some old => exact congrArg some hroom

def awaited (io : Transport σ) (rounds want : ℕ) (cmd : UInt8) (timeout : UInt32) {cap : ℕ}
    (resp : Buffer UInt8 cap) : Outcome σ Unit → Outcome σ (Buffer UInt8 cap × ℕ)
  | (.error e,w) => (.error e,w)
  | (.ok _,w) => receive io rounds want cmd timeout resp pn532Resends w

def replied {cap : ℕ} (resp : Option (Buffer UInt8 cap)) :
    Outcome σ (Buffer UInt8 cap × ℕ) → Reply cap × World σ
  | (.error e,w) => (⟨.error e,some 0,resp⟩,w)
  | (.ok (room,got),w) => (⟨.ok (),some got,resp.map fun _ => room⟩,w)

theorem command_settles {io : Transport σ} {clock : σ → ℕ} (hc : Clocked io clock) {cap : ℕ}
    (hcap : cap ≤ pn532DataMax-2) {timeout : UInt32}
    (hack : Paced io clock pn532Ack.length pn532AckTimeoutMs)
    (hp : Paced io clock (cap+2+pn532FrameOverhead) timeout) {bound : ℕ} (hb50 : 50 < bound)
    (hb : timeout.toNat < bound) (w : World σ) (cmd : UInt8) {n : ℕ}
    (params : Option (Buffer UInt8 n)) (resp : Option (Buffer UInt8 cap)) (out : Bool) :
    ∃ r : Reply cap × World σ, r.1.err ≠ .error .endless ∧
      ∀ rounds, bound ≤ rounds → pn532Command io rounds w cmd params resp out timeout = r := by
  obtain ⟨flen,frame,hbuild,-⟩ := build_spec cmd params
  by_cases hargs : (!out || (0 < cap && resp.isNone) || pn532DataMax-2 < cap) = true
  · exact ⟨(⟨stop .invalidArg,none,resp⟩,w),fun h => (by cases h),fun rounds _ => if_pos hargs⟩
  by_cases hflen : flen = 0
  · refine ⟨(⟨stop .invalidArg,some 0,resp⟩,w),fun h => (by cases h),fun rounds _ => ?_⟩
    unfold pn532Command
    rw [if_neg hargs, hbuild]
    exact if_pos hflen
  obtain ⟨r,hr,hsame⟩ := settles_then
    (fun rounds => awaited io rounds (cap+2+pn532FrameOverhead) cmd timeout (respRoom resp))
    (sendAcked_settles hc hack hb50 (frame.val.take flen) pn532Retries w) (by
      intro r hr
      unfold awaited
      split
      · exact settles_const bound _ fun h => hr (by cases h; rfl)
      · exact receive_settles hc hcap hp hb cmd _ _ _)
  have hrun : ∀ rounds, bound ≤ rounds →
      pn532Command io rounds w cmd params resp out timeout = replied resp r := by
    intro rounds hrounds
    rw [← hsame rounds hrounds]
    unfold pn532Command replied awaited
    rw [if_neg hargs, hbuild]
    dsimp only
    rw [if_neg hflen]
    cases sendAcked io rounds (frame.val.take flen) pn532Retries w with
    | mk sent v =>
      cases sent with
      | error e => rfl
      | ok _ => rfl
  refine ⟨replied resp r,fun h => ?_,hrun⟩
  obtain ⟨e | ⟨room,got⟩,v⟩ := r
  · exact hr (by cases h; rfl)
  · cases h

/-- Whatever the transport does, and whenever its clock goes on as it should, in one outcome. -/
theorem command_under_any_transport (io : Transport σ) (w : World σ) (cmd : UInt8) {n : ℕ}
    (params : Option (Buffer UInt8 n)) {cap : ℕ} (resp : Option (Buffer UInt8 cap))
    (timeout : UInt32) (hresp : cap = 0 ∨ resp.isSome) (hcap : cap ≤ pn532DataMax-2) :
    (∀ rounds, Commanded cmd (paramBytes params) resp w
      (pn532Command io rounds w cmd params resp true timeout)) ∧
    ∀ clock, Clocked io clock → Paced io clock pn532Ack.length pn532AckTimeoutMs →
      Paced io clock (cap+2+pn532FrameOverhead) timeout →
      ∃ r : Reply cap × World σ, r.1.err ≠ .error .endless ∧
        ∀ rounds, max 50 timeout.toNat < rounds →
          pn532Command io rounds w cmd params resp true timeout = r := by
  refine ⟨fun rounds => commanded io rounds w cmd params resp timeout hresp hcap,?_⟩
  intro clock hc hack hp
  obtain ⟨r,hr,hsame⟩ := command_settles hc hcap hack hp
    (by omega : 50 < max 50 timeout.toNat+1) (by omega) w cmd params resp true
  exact ⟨r,hr,fun rounds hrounds => hsame rounds hrounds⟩

/-- A chip that has every frame ready: the ACK where only that fits, else a version. -/
def prompt : Transport ℕ where
  write s _ := (.ok (),s)
  read s n :=
    let frame := if n ≤ 7 then pn532Ack else
      [0x00,0x00,0xFF,0x06,0xFA,0xD5,0x03,0x32,0x01,0x06,0x07,0xE8,0x00]
    (.ok ⟨((0x01::frame)++List.replicate n 0).take n,by
      rw [List.length_take, List.length_append, List.length_replicate]
      omega⟩,s)
  nowMs s := (UInt32.ofNat s,s)
  delayMs s ms := s+ms

theorem prompt_clocked : Clocked prompt id :=
  ⟨fun _ => rfl,fun _ => le_rfl,fun _ => le_rfl,fun _ _ => le_rfl⟩

theorem prompt_paced (len : ℕ) (timeout : UInt32) : Paced prompt id len timeout := by
  have hto := timeout.toNat_lt
  intro s t h
  have ht : t = s+1 := h.elim id id
  subst ht
  exact Nat.add_le_add_left (by omega) s

def fresh (σ : Type) (dev : σ) : World σ :=
  ⟨dev,⟨0,0,0,0,0⟩,⟨List.replicate _ 0,List.length_replicate⟩,[],[]⟩

def room4 : Buffer UInt8 4 := ⟨[0,0,0,0],rfl⟩

theorem command_under_any_transport_version :
    (Commanded 0x02 [] (some room4) (fresh ℕ 0)
      (pn532Command prompt 1 (fresh ℕ 0) 0x02 (none : Option (Buffer UInt8 0)) (some room4) true 1000)) ∧
    (∃ r : Reply 4 × World ℕ, r.1.err ≠ .error .endless ∧ ∀ rounds, max 50 1000 < rounds →
      pn532Command prompt rounds (fresh ℕ 0) 0x02 (none : Option (Buffer UInt8 0)) (some room4)
        true 1000 = r) ∧
    (pn532Command prompt 1 (fresh ℕ 0) 0x02 (none : Option (Buffer UInt8 0)) (some room4)
      true 1000).1.err = .ok () :=
  have h := command_under_any_transport prompt (fresh ℕ 0) 0x02 (none : Option (Buffer UInt8 0))
    (some room4) 1000 (.inr rfl) (by decide)
  ⟨h.1 1,h.2 id prompt_clocked (prompt_paced _ _) (prompt_paced _ _),by decide +kernel⟩

/-- A chip that acknowledges and then has no frame ready ever, and whose clock shows only even
times: whether the ACK is still to come, and half the time. -/
def silent : Transport (Bool × ℕ) where
  write s _ := (.ok (),s)
  read s n :=
    (.ok ⟨(((if s.1 then 0x01 else 0x00)::pn532Ack)++List.replicate n 0).take n,by
      rw [List.length_take, List.length_append, List.length_replicate]
      omega⟩,(s.1 && n ≤ 1,s.2))
  nowMs s := (UInt32.ofNat (2*s.2),s)
  delayMs s _ := (s.1,s.2+1)

theorem silent_clocked : Clocked silent fun s => 2*s.2 :=
  ⟨fun _ => UInt32.toNat_ofNat',fun _ => Nat.le_succ _,fun _ => le_rfl,fun _ _ => le_rfl⟩

theorem silent_poll (len : ℕ) (w : World (Bool × ℕ)) (h : w.dev.1 = false) :
    ∃ v, pollOnce silent len w = (.ok false,v) ∧ v.dev = w.dev := by
  obtain ⟨⟨b,k⟩,stats,buf,writes,reads⟩ := w
  cases h
  have hnot : ready 0x00 = false := by decide
  refine ⟨⟨(false,k),stats,buf,writes,reads++[[0x00]]⟩,?_,rfl⟩
  unfold pollOnce
  have hread : busRead silent ⟨(false,k),stats,buf,writes,reads⟩ 1 =
      (.ok ⟨[0x00],rfl⟩,⟨(false,k),stats,buf,writes,reads++[[0x00]]⟩) := rfl
  rw [hread]
  dsimp only
  rw [List.getD_cons_zero, hnot]
  rfl

/-- What is shown of an even time is never the last reading before the start comes round. -/
theorem silent_early (s t : Bool × ℕ) :
    ¬(0xFFFFFFFF : UInt32) ≤ (silent.nowMs s).1-(silent.nowMs t).1 := by
  rw [UInt32.le_iff_toNat_le, UInt32.toNat_sub, silent_clocked.shows, silent_clocked.shows]
  show ¬4294967295 ≤ _
  omega

theorem silent_loop (len : ℕ) (t : Bool × ℕ) (rounds : ℕ) (w : World (Bool × ℕ))
    (h : w.dev.1 = false) :
    (pollLoop silent len 0xFFFFFFFF (silent.nowMs t).1 rounds w).1 = .error .endless := by
  induction rounds generalizing w with
  | zero => rfl
  | succ rounds ih =>
    obtain ⟨v,hv,hdev⟩ := silent_poll len w h
    rw [pollLoop, hv]
    dsimp only
    rw [if_neg (silent_early v.dev t)]
    exact ih _ ((congrArg Prod.fst hdev).trans h)

def asked : World (Bool × ℕ) := (busWrite silent (fresh _ (true,0)) (hostFrame 0x02 [])).2

theorem silent_sent (rounds : ℕ) :
    (sendAcked silent rounds (hostFrame 0x02 []) pn532Retries (fresh _ (true,0))).1 = .error .endless ∨
      ∃ v, sendAcked silent rounds (hostFrame 0x02 []) pn532Retries (fresh _ (true,0)) = (.ok (),v) ∧
        v.dev.1 = false := by
  cases rounds with
  | zero => exact .inl rfl
  | succ rounds =>
    have hready : (pollOnce silent pn532Ack.length asked).1 = .ok true := by decide +kernel
    have hparse : pn532FrameParse (pollOnce silent pn532Ack.length asked).2.frame pn532Ack.length =
        .ok (.ack,none,0) := by decide +kernel
    have hdev : (pollOnce silent pn532Ack.length asked).2.dev.1 = false := by decide +kernel
    have hpoll : pollOnce silent pn532Ack.length asked =
        (.ok true,(pollOnce silent pn532Ack.length asked).2) := Prod.ext hready rfl
    have hwait : readReady silent (rounds+1) pn532Ack.length pn532AckTimeoutMs asked =
        (.ok (),(pollOnce silent pn532Ack.length asked).2) := by
      have hloop : readReady silent (rounds+1) pn532Ack.length pn532AckTimeoutMs asked =
          pollLoop silent pn532Ack.length pn532AckTimeoutMs (silent.nowMs asked.dev).1 (rounds+1)
            asked := rfl
      rw [hloop, pollLoop, hpoll]
    have hsend : sendOnce silent (rounds+1) (hostFrame 0x02 []) (fresh _ (true,0)) =
        (.ok (),(pollOnce silent pn532Ack.length asked).2) := by
      show acked (readReady silent (rounds+1) pn532Ack.length pn532AckTimeoutMs asked) = _
      rw [hwait]
      unfold acked
      dsimp only
      rw [hparse]
    refine .inr ⟨_,?_,hdev⟩
    unfold pn532Retries sendAcked
    rw [hsend]

/-- Each delay takes two milliseconds, and the command never ends. -/
theorem command_endless_silent :
    (∃ clock, Clocked silent clock) ∧ ∀ rounds,
      (pn532Command silent rounds (fresh _ (true,0)) 0x02 (none : Option (Buffer UInt8 0))
        (some room4) true 0xFFFFFFFF).1.err = .error .endless := by
  refine ⟨⟨_,silent_clocked⟩,fun rounds => ?_⟩
  obtain ⟨flen,frame,hbuild,hframe⟩ := build_spec 0x02 (none : Option (Buffer UInt8 0))
  have hflen : flen ≠ 0 := by
    rintro rfl
    cases hbuild
  unfold pn532Command
  rw [if_neg (by decide), hbuild]
  dsimp only
  rw [if_neg hflen, hframe.resolve_left hflen]
  have hparams : paramBytes (none : Option (Buffer UInt8 0)) = [] := rfl
  rw [hparams]
  rcases silent_sent rounds with h | ⟨v,hv,hdev⟩
  · split
    · rename_i e v hv
      rw [hv] at h
      exact h
    · rename_i v hv
      rw [hv] at h
      cases h
  · rw [hv]
    dsimp only
    have hwait : (readReady silent rounds (4+2+pn532FrameOverhead) 0xFFFFFFFF v).1 =
        .error .endless := silent_loop _ _ rounds v hdev
    have hreceive : (receive silent rounds (4+2+pn532FrameOverhead) 0x02 0xFFFFFFFF
        (respRoom (some room4)) pn532Resends v).1 = .error .endless := by
      unfold pn532Resends receive receiveOnce
      cases hw : readReady silent rounds (4+2+pn532FrameOverhead) 0xFFFFFFFF v with
      | mk r u =>
        rw [hw] at hwait
        cases hwait
        rfl
    split
    · rename_i e u hu
      rw [hu] at hreceive
      cases hreceive
      rfl
    · rename_i a b u hu
      rw [hu] at hreceive
      cases hreceive

end StarkOne.Pn532Command
