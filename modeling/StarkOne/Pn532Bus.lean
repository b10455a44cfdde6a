import StarkOne.Pn532Frame

/-!
# One command to the PN532

The chip is reached only through a transport, which may answer anything at any
call. Every read starts with a status byte whose lowest bit says that a frame
is ready; the frame follows in the same read. What is written and what is read
without an error is kept on record beside the driver.
-/

set_option autoImplicit false

namespace StarkOne.Pn532Bus
open StarkOne.BufferReader StarkOne.Pn532Frame

def pn532Retries : ℕ := 2
def pn532Resends : ℕ := 2
def pn532AckTimeoutMs : UInt32 := 50
def pn532PollMs : ℕ := 1

structure Transport (σ : Type) where
  write : σ → List UInt8 → Except Fault Unit × σ
  read : σ → (n : ℕ) → Except Fault (Buffer UInt8 n) × σ
  nowMs : σ → UInt32 × σ
  delayMs : σ → ℕ → σ

structure Pn532Stats where
  retries : UInt32
  naksSent : UInt32
  checksumErrors : UInt32
  timeouts : UInt32
  busErrors : UInt32
  deriving DecidableEq

def pn532BufSize : ℕ := 1+pn532DataMax+pn532FrameOverhead

structure World (σ : Type) where
  dev : σ
  stats : Pn532Stats
  buf : Buffer UInt8 pn532BufSize
  writes : List (List UInt8)
  reads : List (List UInt8)

abbrev Outcome (σ α : Type) : Type := Reading Fault α × World σ

variable {σ α : Type}

/-- A device that does not answer at all is no bus error. -/
def bus (w : World σ) (e : Fault) : World σ :=
  if e ≠ .notFound then { w with stats := { w.stats with busErrors := w.stats.busErrors+1 } } else w

def busWrite (io : Transport σ) (w : World σ) (bytes : List UInt8) : Outcome σ Unit :=
  match io.write w.dev bytes with
  | (.ok _,dev) => (.ok (),{ w with dev := dev, writes := w.writes++[bytes] })
  | (.error e,dev) =>
    (.error (.fault e),bus { w with dev := dev, writes := w.writes++[bytes] } e)

def busRead (io : Transport σ) (w : World σ) (n : ℕ) : Outcome σ (Buffer UInt8 n) :=
  match io.read w.dev n with
  | (.ok b,dev) => (.ok b,{ w with dev := dev, reads := w.reads++[b.val] })
  | (.error e,dev) => (.error (.fault e),bus { w with dev := dev } e)

def ready (b : UInt8) : Bool := b &&& 0x01 ≠ 0

def pollOnce (io : Transport σ) (len : ℕ) (w : World σ) : Outcome σ Bool :=
  match busRead io w 1 with
  | (.error e,w) => (.error e,w)
  | (.ok status,w) =>
    if !ready (status.val.getD 0 0) then (.ok false,w)
    else match fill w.buf (List.replicate (1+len) 0) with
      | .error e => (.error e,w)
      | .ok buf => match busRead io { w with buf := buf } (1+len) with
        | (.error e,w) => (.error e,w)
        | (.ok bytes,w) => match fill w.buf bytes.val with
          | .error e => (.error e,w)
          | .ok buf => ((byteAt buf.val 0).map ready,{ w with buf := buf })

def pollLoop (io : Transport σ) (len : ℕ) (timeout start : UInt32) : ℕ → World σ → Outcome σ Unit
  | 0, w => (.error .endless,w)
  | rounds+1, w => match pollOnce io len w with
    | (.error e,w) => (.error e,w)
    | (.ok true,w) => (.ok (),w)
    | (.ok false,w) =>
      let (now,dev) := io.nowMs w.dev
      if timeout ≤ now-start then
        (stop .timeout,
          { w with dev := dev, stats := { w.stats with timeouts := w.stats.timeouts+1 } })
      else pollLoop io len timeout start rounds { w with dev := io.delayMs dev pn532PollMs }

def readReady (io : Transport σ) (rounds len : ℕ) (timeout : UInt32) (w : World σ) :
    Outcome σ Unit :=
  let (start,dev) := io.nowMs w.dev
  pollLoop io len timeout start rounds { w with dev := dev }

def World.frame (w : World σ) : List UInt8 := w.buf.val.drop 1

/-- What is made of the wait for an ACK; anything else in its place is an error. -/
def acked : Outcome σ Unit → Outcome σ Unit
  | (.error e,w) => (.error e,w)
  | (.ok _,w) => match pn532FrameParse w.frame pn532Ack.length with
    | .ok (.ack,_) => (.ok (),w)
    | .ok _ => (stop .io,w)
    | .error (.fault _) => (stop .io,w)
    | .error e => (.error e,w)

def sendOnce (io : Transport σ) (rounds : ℕ) (frame : List UInt8) (w : World σ) : Outcome σ Unit :=
  match busWrite io w frame with
  | (.error e,w) => (.error e,w)
  | (.ok _,w) => acked (readReady io rounds pn532Ack.length pn532AckTimeoutMs w)

/-- The command is repeated so many times, but not when nothing answers. -/
def sendAcked (io : Transport σ) (rounds : ℕ) (frame : List UInt8) : ℕ → World σ → Outcome σ Unit
  | 0, w => sendOnce io rounds frame w
  | again+1, w => match sendOnce io rounds frame w with
    | (.error (.fault e),w) =>
      if e = .notFound then (.error (.fault e),w)
      else sendAcked io rounds frame again
        { w with stats := { w.stats with retries := w.stats.retries+1 } }
    | r => r

def copy (buf : List UInt8) (pos n : ℕ) : Reading Fault (List UInt8) :=
  if pos+n ≤ buf.length then .ok ((buf.drop pos).take n) else .error .outside

def answer (buf : List UInt8) (cmd : UInt8) (rx : Pn532Rx × Option ℕ × ℕ) {cap : ℕ}
    (resp : Buffer UInt8 cap) : Reading Fault (Buffer UInt8 cap × ℕ) :=
  match rx with
  | (.data,some data,dlen) =>
    if dlen < 2 then stop .io else
    (byteAt buf data).bind fun tfi =>
    if tfi ≠ tfiChip then stop .io else
    (byteAt buf (data+1)).bind fun code =>
    if code ≠ cmd+1 then stop .io else
    (copy buf (data+2) (dlen-2)).bind fun bytes =>
    (fill resp bytes).bind fun resp => .ok (resp,dlen-2)
  | (.data,none,_) => .error .outside
  | _ => stop .io

/-- What is made of the wait for a response: none if what came is corrupt. A response that
does not come at all is aborted with an ACK. -/
def received (io : Transport σ) (want : ℕ) (cmd : UInt8) {cap : ℕ} (resp : Buffer UInt8 cap) :
    Outcome σ Unit → Outcome σ (Option (Buffer UInt8 cap × ℕ))
  | (.error e,w) => (.error e,if e = .fault .timeout then (busWrite io w pn532Ack).2 else w)
  | (.ok _,w) => match pn532FrameParse w.frame want with
    | .ok rx => ((answer w.frame cmd rx resp).map some,w)
    | .error (.fault e) =>
      if e = .notSupported then (.error (.fault e),w)
      else if e = .io then
        (.ok none,{ w with stats := { w.stats with checksumErrors := w.stats.checksumErrors+1 } })
      else (.ok none,w)
    | .error e => (.error e,w)

def receiveOnce (io : Transport σ) (rounds want : ℕ) (cmd : UInt8) (timeout : UInt32) {cap : ℕ}
    (resp : Buffer UInt8 cap) (w : World σ) : Outcome σ (Option (Buffer UInt8 cap × ℕ)) :=
  received io want cmd resp (readReady io rounds want timeout w)

/-- A corrupt response is asked for again so many times. -/
def receive (io : Transport σ) (rounds want : ℕ) (cmd : UInt8) (timeout : UInt32) {cap : ℕ}
    (resp : Buffer UInt8 cap) : ℕ → World σ → Outcome σ (Buffer UInt8 cap × ℕ)
  | 0, w => match receiveOnce io rounds want cmd timeout resp w with
    | (.error e,w) => (.error e,w)
    | (.ok (some r),w) => (.ok r,w)
    | (.ok none,w) => (stop .io,w)
  | resends+1, w => match receiveOnce io rounds want cmd timeout resp w with
    | (.error e,w) => (.error e,w)
    | (.ok (some r),w) => (.ok r,w)
    | (.ok none,w) =>
      let w := { w with stats := { w.stats with naksSent := w.stats.naksSent+1 } }
      match busWrite io w pn532Nack with
      | (.error e,w) => (.error e,w)
      | (.ok _,w) => receive io rounds want cmd timeout resp resends w

/-- `got` is what is stored there, if anything is. -/
structure Reply (cap : ℕ) where
  err : Reading Fault Unit
  got : Option ℕ
  resp : Option (Buffer UInt8 cap)

def frameRoom : Buffer UInt8 (pn532DataMax+pn532FrameOverhead) :=
  ⟨List.replicate _ 0,List.length_replicate⟩

/-- No room for a response is none at all. -/
def respRoom {cap : ℕ} (resp : Option (Buffer UInt8 cap)) : Buffer UInt8 cap :=
  resp.getD ⟨List.replicate cap 0,List.length_replicate⟩

/-- `out` says whether there is a place for the length. -/
def pn532Command (io : Transport σ) (rounds : ℕ) (w : World σ) (cmd : UInt8) {n : ℕ}
    (params : Option (Buffer UInt8 n)) {cap : ℕ} (resp : Option (Buffer UInt8 cap)) (out : Bool)
    (timeout : UInt32) : Reply cap × World σ :=
  if !out || (0 < cap && resp.isNone) || pn532DataMax-2 < cap then (⟨stop .invalidArg,none,resp⟩,w)
  else match pn532FrameBuild cmd params frameRoom with
    | .error e => (⟨.error e,some 0,resp⟩,w)
    | .ok (flen,frame) =>
      if flen = 0 then (⟨stop .invalidArg,some 0,resp⟩,w)
      else match sendAcked io rounds (frame.val.take flen) pn532Retries w with
        | (.error e,w) => (⟨.error e,some 0,resp⟩,w)
        | (.ok _,w) =>
          match receive io rounds (cap+2+pn532FrameOverhead) cmd timeout (respRoom resp)
              pn532Resends w with
          | (.error e,w) => (⟨.error e,some 0,resp⟩,w)
          | (.ok (room,got),w) => (⟨.ok (),some got,resp.map fun _ => room⟩,w)

@[simp] theorem bus_writes (w : World σ) (e : Fault) : (bus w e).writes = w.writes := by
  unfold bus
  split <;> rfl

@[simp] theorem bus_reads (w : World σ) (e : Fault) : (bus w e).reads = w.reads := by
  unfold bus
  split <;> rfl

@[simp] theorem bus_dev (w : World σ) (e : Fault) : (bus w e).dev = w.dev := by
  unfold bus
  split <;> rfl

@[simp] theorem bus_buf (w : World σ) (e : Fault) : (bus w e).buf = w.buf := by
  unfold bus
  split <;> rfl

def Sound (r : Reading Fault α) : Prop := r ≠ .error .outside

theorem sound_fault (e : Fault) : Sound (.error (.fault e) : Reading Fault α) := fun h => by cases h

theorem sound_ok (a : α) : Sound (.ok a : Reading Fault α) := fun h => by cases h

theorem sound_of_safe {r : Reading Fault α} (h : Safe r) : Sound r := by
  intro ho
  obtain ⟨e,he⟩ := h _ ho
  cases he

def Holds (len : ℕ) (w : World σ) : Prop :=
  ∃ status frame rest, w.reads.getLast? = some (status::frame) ∧ frame.length = len ∧
    w.buf.val = status::frame++rest

structure Polled (len : ℕ) (w : World σ) (r : Outcome σ Bool) : Prop where
  writes : r.2.writes = w.writes
  safe : Safe r.1
  holds : r.1 = .ok true → Holds len r.2

theorem busWrite_spec (io : Transport σ) (w : World σ) (bytes : List UInt8) :
    (busWrite io w bytes).2.writes = w.writes++[bytes] ∧ Safe (busWrite io w bytes).1 := by
  unfold busWrite
  split
  · exact ⟨rfl,safe_ok _⟩
  · exact ⟨bus_writes _ _,safe_stop _⟩

theorem busRead_spec (io : Transport σ) (w : World σ) (n : ℕ) :
    (busRead io w n).2.writes = w.writes ∧ (busRead io w n).2.buf = w.buf ∧
      (busRead io w n).2.dev = (io.read w.dev n).2 ∧ Safe (busRead io w n).1 ∧
      ∀ b, (busRead io w n).1 = .ok b → (busRead io w n).2.reads = w.reads++[b.val] := by
  unfold busRead
  cases hr : io.read w.dev n with
  | mk r dev =>
    cases r with
    | ok b => exact ⟨rfl,rfl,rfl,safe_ok _,fun c hc => by cases hc; rfl⟩
    | error e =>
      exact ⟨bus_writes _ _,bus_buf _ _,bus_dev _ _,safe_stop _,fun c hc => (by cases hc)⟩

theorem pollOnce_spec (io : Transport σ) (len : ℕ) (w : World σ) (hlen : 1+len ≤ pn532BufSize) :
    Polled len w (pollOnce io len w) := by
  obtain ⟨hwrites,hbuf,-,hsafe,-⟩ := busRead_spec io w 1
  unfold pollOnce
  split
  · rename_i e v hv
    rw [hv] at hwrites hsafe
    exact ⟨hwrites,fun s hs => hsafe s (by cases hs; rfl),fun h => (by cases h)⟩
  rename_i status v hv
  rw [hv] at hwrites
  split
  · exact ⟨hwrites,safe_ok _,fun h => (by cases h)⟩
  obtain ⟨cleared,hcleared,-⟩ := fill_ok Fault v.buf (List.replicate (1+len) 0)
    (by rw [List.length_replicate]; exact hlen)
  rw [hcleared]
  dsimp only
  obtain ⟨hwrites',-,-,hsafe',hreads⟩ := busRead_spec io { v with buf := cleared } (1+len)
  split
  · rename_i e u hu
    rw [hu] at hwrites' hsafe'
    exact ⟨hwrites'.trans hwrites,fun s hs => hsafe' s (by cases hs; rfl),fun h => (by cases h)⟩
  rename_i bytes u hu
  rw [hu] at hwrites' hreads
  obtain ⟨filled,hfilled,hval⟩ := fill_ok Fault u.buf bytes.val
    (by rw [bytes.property]; exact hlen)
  rw [hfilled]
  dsimp only
  have hbyte : Safe (byteAt filled.val 0 : Reading Fault UInt8) :=
    byteAt_safe (by rw [filled.property]; decide)
  refine ⟨hwrites'.trans hwrites,?_,fun _ => ?_⟩
  · intro s hs
    cases hb : (byteAt filled.val 0 : Reading Fault UInt8) with
    | error t =>
      rw [hb] at hs hbyte
      cases hs
      exact hbyte s rfl
    | ok b =>
      rw [hb] at hs
      cases hs
  · obtain ⟨l,hl⟩ := bytes
    obtain ⟨status,frame,rfl⟩ := List.exists_cons_of_length_eq_add_one (hl.trans (Nat.add_comm 1 len))
    rw [List.length_cons] at hl
    refine ⟨status,frame,_,?_,by omega,hval⟩
    dsimp only
    rw [hreads _ rfl]
    simp

structure Waited (len : ℕ) (w : World σ) (r : Outcome σ Unit) : Prop where
  writes : r.2.writes = w.writes
  sound : Sound r.1
  holds : r.1 = .ok () → Holds len r.2

theorem pollLoop_spec (io : Transport σ) (len : ℕ) (timeout start : UInt32)
    (hlen : 1+len ≤ pn532BufSize) (rounds : ℕ) (w : World σ) :
    Waited len w (pollLoop io len timeout start rounds w) := by
  induction rounds generalizing w with
  | zero => exact ⟨rfl,fun h => (by cases h),fun h => (by cases h)⟩
  | succ rounds ih =>
    have hpoll := pollOnce_spec io len w hlen
    unfold pollLoop
    split
    · rename_i e v hv
      rw [hv] at hpoll
      exact ⟨hpoll.writes,fun h => sound_of_safe hpoll.safe (by cases h; rfl),fun h => (by cases h)⟩
    · rename_i v hv
      rw [hv] at hpoll
      exact ⟨hpoll.writes,sound_ok _,fun _ => hpoll.holds rfl⟩
    · rename_i v hv
      rw [hv] at hpoll
      dsimp only
      split
      · exact ⟨hpoll.writes,sound_fault _,fun h => (by cases h)⟩
      · have hrest := ih { v with dev := io.delayMs (io.nowMs v.dev).2 pn532PollMs }
        exact ⟨hrest.writes.trans hpoll.writes,hrest.sound,hrest.holds⟩

theorem readReady_spec (io : Transport σ) (rounds len : ℕ) (timeout : UInt32) (w : World σ)
    (hlen : 1+len ≤ pn532BufSize) : Waited len w (readReady io rounds len timeout w) := by
  have h := pollLoop_spec io len timeout (io.nowMs w.dev).1 hlen rounds
    { w with dev := (io.nowMs w.dev).2 }
  exact ⟨h.writes,h.sound,h.holds⟩

theorem frame_length (w : World σ) : w.frame.length = pn532DataMax+pn532FrameOverhead := by
  unfold World.frame
  rw [List.length_drop, w.buf.property]
  rfl

theorem sendOnce_spec (io : Transport σ) (rounds : ℕ) (frame : List UInt8) (w : World σ) :
    (sendOnce io rounds frame w).2.writes = w.writes++[frame] ∧
      Sound (sendOnce io rounds frame w).1 := by
  obtain ⟨hwrites,hsafe⟩ := busWrite_spec io w frame
  unfold sendOnce
  split
  · rename_i e v hv
    rw [hv] at hwrites hsafe
    exact ⟨hwrites,fun h => sound_of_safe hsafe (by cases h; rfl)⟩
  rename_i v hv
  rw [hv] at hwrites
  have hwait := readReady_spec io rounds pn532Ack.length pn532AckTimeoutMs v (by decide)
  unfold acked
  split
  · rename_i e u hu
    rw [hu] at hwait
    exact ⟨hwait.writes.trans hwrites,fun h => hwait.sound (by cases h; rfl)⟩
  rename_i u hu
  rw [hu] at hwait
  have hparse : Safe (pn532FrameParse u.frame pn532Ack.length) :=
    parse_safe (by rw [frame_length]; decide)
  have hw := hwait.writes.trans hwrites
  split
  · exact ⟨hw,sound_ok _⟩
  · exact ⟨hw,sound_fault _⟩
  · exact ⟨hw,sound_fault _⟩
  · rename_i e he hne
    exact ⟨hw,fun h => sound_of_safe hparse (by rw [hne]; cases h; rfl)⟩

theorem sendAcked_spec (io : Transport σ) (rounds : ℕ) (frame : List UInt8) (again : ℕ)
    (w : World σ) : Sound (sendAcked io rounds frame again w).1 ∧
      ∃ n ≤ again+1, (sendAcked io rounds frame again w).2.writes = w.writes++List.replicate n frame := by
  induction again generalizing w with
  | zero =>
    obtain ⟨hw,hs⟩ := sendOnce_spec io rounds frame w
    exact ⟨hs,1,le_rfl,hw⟩
  | succ again ih =>
    obtain ⟨hw,hs⟩ := sendOnce_spec io rounds frame w
    unfold sendAcked
    split
    · rename_i e v hv
      rw [hv] at hw hs
      split
      · exact ⟨sound_fault _,1,by omega,hw⟩
      · obtain ⟨hs',n,hn,hw'⟩ := ih { v with stats := { v.stats with retries := v.stats.retries+1 } }
        refine ⟨hs',n+1,by omega,?_⟩
        rw [hw', hw, List.replicate_succ, List.append_assoc]
        rfl
    · exact ⟨hs,1,by omega,hw⟩

theorem copy_safe {buf : List UInt8} {pos n : ℕ} (h : pos+n ≤ buf.length) : Safe (copy buf pos n) := by
  unfold copy
  rw [if_pos h]
  exact safe_ok _

/-- The data was in a frame around the answer code, and its start in the room is the data. -/
structure Answered (buf : List UInt8) (len : ℕ) (cmd : UInt8) {cap : ℕ} (resp : Buffer UInt8 cap)
    (r : Buffer UInt8 cap × ℕ) : Prop where
  frame : ∃ data, Carries buf (tfiChip::(cmd+1)::data) ∧ r.2 = data.length ∧
    r.1.val = data++resp.val.drop data.length
  room : r.2+2+pn532FrameOverhead ≤ len

theorem answer_spec (buf : List UInt8) (cmd : UInt8) (rx : Pn532Rx × Option ℕ × ℕ) {cap : ℕ}
    (resp : Buffer UInt8 cap) (hlen : cap+2+pn532FrameOverhead ≤ buf.length)
    (hrx : pn532FrameParse buf (cap+2+pn532FrameOverhead) = .ok rx) :
    Safe (answer buf cmd rx resp) ∧ ∀ r, answer buf cmd rx resp = .ok r →
      Answered buf (cap+2+pn532FrameOverhead) cmd resp r := by
  obtain ⟨kind,start,dlen⟩ := rx
  cases kind with
  | data =>
    obtain ⟨rfl,-,hroom,hcarries⟩ := parse_data hrx
    have hover : pn532FrameOverhead = 7 := rfl
    unfold answer
    dsimp only
    by_cases htwo : dlen < 2
    · rw [if_pos htwo]
      exact ⟨safe_stop _,fun r h => by cases h⟩
    rw [if_neg htwo]
    have hcopied : ∀ bytes, copy buf (5+2) (dlen-2) = .ok bytes →
        bytes = (buf.drop 7).take (dlen-2) ∧ bytes.length = dlen-2 := by
      intro bytes hb
      unfold copy at hb
      rw [if_pos (by omega)] at hb
      cases hb
      refine ⟨rfl,?_⟩
      rw [List.length_take, List.length_drop]
      omega
    constructor
    · apply (byteAt_safe (by omega)).bind
      intro tfi _
      split
      · exact safe_stop _
      apply (byteAt_safe (by omega)).bind
      intro code _
      split
      · exact safe_stop _
      apply (copy_safe (by omega)).bind
      intro bytes hb
      obtain ⟨room,hfill,-⟩ := fill_ok Fault resp bytes
        (by rw [(hcopied bytes hb).2]; omega)
      rw [hfill]
      exact safe_ok _
    · intro r h
      obtain ⟨tfi,htfi,h⟩ := bind_ok.mp h
      split at h
      · cases h
      rename_i htfi'
      obtain ⟨code,hcode,h⟩ := bind_ok.mp h
      split at h
      · cases h
      rename_i hcode'
      obtain ⟨bytes,hb,h⟩ := bind_ok.mp h
      obtain ⟨room,hr,h⟩ := bind_ok.mp h
      cases h
      obtain ⟨hbytes,hblen⟩ := hcopied bytes hb
      rw [not_not] at htfi' hcode'
      obtain ⟨room',hfill,hval⟩ := fill_ok Fault resp bytes (by rw [hblen]; omega)
      rw [hr] at hfill
      cases hfill
      refine ⟨⟨bytes,?_,hblen.symm,hval⟩,by omega⟩
      have hbody : (buf.drop 5).take dlen = tfi::code::bytes := by
        obtain ⟨m,rfl⟩ : ∃ m, dlen = m+2 := ⟨dlen-2,by omega⟩
        obtain ⟨h5,ht⟩ := List.getElem?_eq_some_iff.mp (byteAt_ok.mp htfi)
        obtain ⟨h6,hc⟩ := List.getElem?_eq_some_iff.mp (byteAt_ok.mp hcode)
        rw [List.drop_eq_getElem_cons h5, List.drop_eq_getElem_cons h6, List.take_succ_cons,
          List.take_succ_cons, ht, hc, hbytes]
        rfl
      rw [hbody, htfi', hcode'] at hcarries
      exact hcarries
  | ack => exact ⟨safe_stop _,fun r h => by cases h⟩
  | nack => exact ⟨safe_stop _,fun r h => by cases h⟩
  | appError => exact ⟨safe_stop _,fun r h => by cases h⟩

theorem carries_of_append {frame rest body : List UInt8} (h : Carries (frame++rest) body)
    (hlen : body.length+pn532FrameOverhead ≤ frame.length) : Carries frame body := by
  obtain ⟨len,lcs,dcs,tail,hsplit,hsize,hlcs,hdcs⟩ := h
  have htake := congrArg (List.take frame.length) hsplit
  rw [List.take_left, List.take_append,
        List.take_of_length_le (by simp; unfold pn532FrameOverhead at hlen; omega)] at htake
  exact ⟨len,lcs,dcs,_,htake,hsize,hlcs,hdcs⟩

def Answers (want : ℕ) (cmd : UInt8) {cap : ℕ} (resp : Buffer UInt8 cap) (w : World σ)
    (a : Buffer UInt8 cap × ℕ) : Prop := Holds want w ∧ Answered w.frame want cmd resp a

structure Tried (want : ℕ) (cmd : UInt8) {cap : ℕ} (resp : Buffer UInt8 cap) (w : World σ)
    (r : Outcome σ (Option (Buffer UInt8 cap × ℕ))) : Prop where
  sound : Sound r.1
  writes : ∃ c ≤ 1, r.2.writes = w.writes++List.replicate c pn532Ack
  kept : ∀ a, r.1 = .ok a → r.2.writes = w.writes
  answers : ∀ a, r.1 = .ok (some a) → Answers want cmd resp r.2 a

theorem receiveOnce_spec (io : Transport σ) (rounds : ℕ) (cmd : UInt8) (timeout : UInt32) {cap : ℕ}
    (hcap : cap ≤ pn532DataMax-2) (resp : Buffer UInt8 cap) (w : World σ) :
    Tried (cap+2+pn532FrameOverhead) cmd resp w
      (receiveOnce io rounds (cap+2+pn532FrameOverhead) cmd timeout resp w) := by
  have hover : pn532FrameOverhead = 7 := rfl
  have hmax : pn532DataMax = 254 := rfl
  have hsize : pn532BufSize = 262 := rfl
  have hwait := readReady_spec io rounds (cap+2+pn532FrameOverhead) timeout w (by omega)
  have hnone : ∀ v : World σ, v.writes = w.writes →
      ∃ c ≤ 1, v.writes = w.writes++List.replicate c pn532Ack :=
    fun v hv => ⟨0,by decide,hv.trans (List.append_nil _).symm⟩
  unfold receiveOnce received
  split
  · rename_i e v hv
    rw [hv] at hwait
    refine ⟨fun h => hwait.sound (by cases h; rfl),?_,fun a h => (by cases h),fun a h => (by cases h)⟩
    dsimp only
    split
    · exact ⟨1,le_rfl,(busWrite_spec io v pn532Ack).1.trans (congrArg (·++[pn532Ack]) hwait.writes)⟩
    · exact hnone v hwait.writes
  rename_i v hv
  rw [hv] at hwait
  have hlen : cap+2+pn532FrameOverhead ≤ v.frame.length := by
    rw [frame_length]
    omega
  have hparse : Safe (pn532FrameParse v.frame (cap+2+pn532FrameOverhead)) := parse_safe hlen
  have hw := hwait.writes
  split
  · rename_i rx hrx
    obtain ⟨hsafe,hanswer⟩ := answer_spec v.frame cmd rx resp hlen hrx
    cases ha : answer v.frame cmd rx resp with
    | error e =>
      rw [ha] at hsafe
      exact ⟨fun h => sound_of_safe hsafe (by cases h; rfl),hnone v hw,fun _ _ => hw,
        fun a h => by cases h⟩
    | ok r =>
      exact ⟨sound_ok _,hnone v hw,fun _ _ => hw,fun a h => by
        cases h
        exact ⟨hwait.holds rfl,hanswer r ha⟩⟩
  · split
    · exact ⟨sound_fault _,hnone v hw,fun _ _ => hw,fun a h => by cases h⟩
    · split
      · exact ⟨sound_ok _,hnone _ hw,fun _ _ => hw,fun a h => by cases h⟩
      · exact ⟨sound_ok _,hnone _ hw,fun _ _ => hw,fun a h => by cases h⟩
  · rename_i e hfault he
    exact ⟨fun h => sound_of_safe hparse (by rw [he]; cases h; rfl),hnone v hw,fun _ _ => hw,
      fun a h => by cases h⟩

structure Received (want : ℕ) (cmd : UInt8) {cap : ℕ} (resp : Buffer UInt8 cap) (resends : ℕ)
    (w : World σ) (r : Outcome σ (Buffer UInt8 cap × ℕ)) : Prop where
  sound : Sound r.1
  writes : ∃ b ≤ resends, ∃ c ≤ 1,
    r.2.writes = w.writes++List.replicate b pn532Nack++List.replicate c pn532Ack
  answers : ∀ a, r.1 = .ok a → Answers want cmd resp r.2 a

theorem received_error {want : ℕ} {cmd : UInt8} {cap : ℕ} {resp : Buffer UInt8 cap} {w v : World σ}
    {e : Stop Fault} (h : Tried want cmd resp w (.error e,v)) (resends : ℕ) :
    Received want cmd resp resends w (.error e,v) := by
  obtain ⟨c,hc,hw⟩ := h.writes
  exact ⟨fun he => h.sound (by cases he; rfl),⟨0,Nat.zero_le _,c,hc,by rw [hw]; simp⟩,
    fun a h => by cases h⟩

theorem received_some {want : ℕ} {cmd : UInt8} {cap : ℕ} {resp : Buffer UInt8 cap} {w v : World σ}
    {a : Buffer UInt8 cap × ℕ} (h : Tried want cmd resp w (.ok (some a),v)) (resends : ℕ) :
    Received want cmd resp resends w (.ok a,v) := by
  refine ⟨sound_ok _,⟨0,Nat.zero_le _,0,by decide,?_⟩,fun b hb => by cases hb; exact h.answers a rfl⟩
  rw [h.kept _ rfl]
  simp

theorem receive_spec (io : Transport σ) (rounds : ℕ) (cmd : UInt8) (timeout : UInt32) {cap : ℕ}
    (hcap : cap ≤ pn532DataMax-2) (resp : Buffer UInt8 cap) (resends : ℕ) (w : World σ) :
    Received (cap+2+pn532FrameOverhead) cmd resp resends w
      (receive io rounds (cap+2+pn532FrameOverhead) cmd timeout resp resends w) := by
  induction resends generalizing w with
  | zero =>
    have htry := receiveOnce_spec io rounds cmd timeout hcap resp w
    unfold receive
    split
    · rename_i e v hv
      exact received_error (hv ▸ htry) 0
    · rename_i a v hv
      exact received_some (hv ▸ htry) 0
    · rename_i v hv
      rw [hv] at htry
      refine ⟨sound_fault _,⟨0,le_rfl,0,by decide,?_⟩,fun a h => by cases h⟩
      dsimp only
      rw [htry.kept none rfl]
      simp
  | succ resends ih =>
    have htry := receiveOnce_spec io rounds cmd timeout hcap resp w
    unfold receive
    split
    · rename_i e v hv
      exact received_error (hv ▸ htry) _
    · rename_i a v hv
      exact received_some (hv ▸ htry) _
    · rename_i v hv
      rw [hv] at htry
      have hw := htry.kept none rfl
      obtain ⟨hnack,hsafe⟩ := busWrite_spec io
        { v with stats := { v.stats with naksSent := v.stats.naksSent+1 } } pn532Nack
      dsimp only at hnack hw ⊢
      split
      · rename_i e u hu
        rw [hu] at hnack hsafe
        refine ⟨fun h => sound_of_safe hsafe (by cases h; rfl),⟨1,by omega,0,by decide,?_⟩,
          fun a h => by cases h⟩
        rw [hnack, hw]
        simp
      · rename_i u hu
        rw [hu] at hnack
        obtain ⟨hs,⟨b,hb,c,hc,hwr⟩,ha⟩ := ih u
        refine ⟨hs,⟨b+1,by omega,c,hc,?_⟩,ha⟩
        rw [hwr, hnack, hw, List.replicate_succ]
        simp

end StarkOne.Pn532Bus
