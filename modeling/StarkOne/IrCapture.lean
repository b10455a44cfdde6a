import StarkOne.IrEncode
import StarkOne.IrListen
import StarkOne.IrSymbols
import StarkOne.IrText
import StarkOne.OverwritingRing

/-!
# Captures

The interrupt hands only the number of symbols to the task; the symbols stay in
the one buffer the receiver writes. As long as nobody arms the receiver while a
frame still waits there, every capture is that of a frame that was received, and
the app takes the captures in their order.
-/

set_option autoImplicit false

namespace StarkOne.IrCapture
open StarkOne.Machine StarkOne.RingQueue StarkOne.OverwritingRing
open StarkOne.IrCodec StarkOne.IrEncode StarkOne.IrSymbols StarkOne.IrListen StarkOne.IrTxGuard
open StarkOne.IrRaw StarkOne.IrText

def irCaptureSlots : ℕ := 4

def irRxSymbols : ℕ := irMaxDurations/2+2

structure Captures where
  ring : RingBuffer IrSignal
  dropped : ℕ

def irCaptureInit : Captures := ⟨empty (fun _ => zeroSignal) irCaptureSlots (by decide),0⟩

def irCapturePush (r : Captures) (s : IrSignal) : Captures :=
  let (ring,full) := push r.ring s
  ⟨ring,if full then u32 (r.dropped+1) else r.dropped⟩

def irCaptureTake (r : Captures) : Option (IrSignal × Captures) :=
  (take r.ring).map fun x => (x.1,{ r with ring := x.2 })

structure StarkIrStats where
  frames : ℕ
  decoded : ℕ
  unknown : ℕ
  overflows : ℕ
  dropped : ℕ
  deriving DecidableEq

/-- A received frame as a signal, unless it does not fit. -/
def captureOf (words : List ℕ) : Option IrSignal :=
  if words.length < irRxSymbols then
    (irSymbolsToTimings words).map fun timings =>
      ⟨timings,(irEncodeCarrier (irDecode timings).protocol).getD 38000,irDecode timings⟩
  else none

/-- The number of symbols of each frame that the task has yet to handle, and for the reader of the
model: the frames received, the symbols the task found for each, and the captures taken. -/
structure Receiver where
  l : Listener
  buf : ℕ → ℕ
  symbols : List ℕ
  captures : Captures
  stats : StarkIrStats
  heard : List (List ℕ)
  handled : List (List ℕ)
  taken : List IrSignal

def readWords (buf : ℕ → ℕ) (n : ℕ) : List ℕ := (List.range n).map buf

def writeWords (buf : ℕ → ℕ) (words : List ℕ) : ℕ → ℕ := fun i => words.getD i (buf i)

/-- `burst` is what the receiver writes before a frame has ended. -/
inductive Act where
  | listen (a : IrListen.Act)
  | burst (words : List ℕ)
  | frame (words : List ℕ)
  | take

def handleRx (words : List ℕ) (r : Receiver) : Receiver :=
  let stats := { r.stats with frames := u32 (r.stats.frames+1) }
  let r := { r with handled := r.handled++[words] }
  match captureOf words with
  | none => { r with stats := { stats with overflows := u32 (stats.overflows+1) } }
  | some s =>
    let stats :=
      if s.frame.protocol = .unknown then { stats with unknown := u32 (stats.unknown+1) }
      else { stats with decoded := u32 (stats.decoded+1) }
    let captures := irCapturePush r.captures s
    { r with captures := captures, stats := { stats with dropped := captures.dropped } }

section
variable (interval : ℕ)

def step (r : Receiver) : Act → Option Receiver
  | .listen .frame => none
  | .listen .taskLoad => (IrListen.step interval r.l .taskLoad).map fun l =>
    let words := readWords r.buf (r.symbols.headD 0)
    let r := { r with l := l, symbols := r.symbols.tail }
    if l.stage = .handling then handleRx words r else r
  | .listen a => (IrListen.step interval r.l a).map fun l => { r with l := l }
  | .burst words => 
    if r.l.channel = .armed then some { r with buf := writeWords r.buf words } else none
  | .frame words => (IrListen.step interval r.l .frame).map fun l =>
    { r with
      l := l
      buf := writeWords r.buf words
      symbols :=
        if r.l.ir.queue.length < IrTransmit.queueLen then r.symbols++[words.length] else r.symbols
      heard := r.heard++[words] }
  | .take => match irCaptureTake r.captures with
    | some (s,captures) => some { r with captures := captures, taken := r.taken++[s] }
    | none => some r

end

def start (fitted : Bool) (tasks t : ℕ) : Receiver :=
  ⟨IrListen.start fitted tasks t,fun _ => 0,[],irCaptureInit,⟨0,0,0,0,0⟩,[],[],[]⟩

/-- No caller arms the receiver while a frame waits for the task. -/
def Patient (r : Receiver) : Act → Prop
  | .listen (.receive _) => ¬Heard r.l.ir
  | _ => True

instance (r : Receiver) (a : Act) : Decidable (Patient r a) := by
  unfold Patient
  split
  all_goals infer_instance

/-- The message of a frame finds room, and the task takes it while listening is on. -/
def Attended (r : Receiver) : Act → Prop
  | .frame _ => r.l.ir.queue.length < IrTransmit.queueLen
  | .listen .taskLoad => r.l.on = true
  | _ => True

instance (r : Receiver) (a : Act) : Decidable (Attended r a) := by
  unfold Attended
  split
  all_goals infer_instance

theorem readWords_writeWords (buf : ℕ → ℕ) (words : List ℕ) :
    readWords (writeWords buf words) words.length = words := by
  refine List.ext_getElem ?_ fun i hi hj => ?_
  · simp [readWords]
  · simp [readWords, writeWords, hj]

/-- A frame that waits has `n` messages, one at most, and the receiver does not write then. -/
structure Waits (l : Listener) (n : ℕ) : Prop where
  count : n = l.ir.queue.count .rx+if l.ir.work = .rx ∧ l.stage = .fetched then 1 else 0
  one : l.ir.queue.count .rx+(if l.ir.work = .rx then 1 else 0) ≤ 1
  stage : l.ir.work ≠ .rx → l.stage = .fetched
  quiet : Heard l.ir → l.channel ≠ .armed

theorem heard_iff (s : IrTransmit.Ir) :
    Heard s ↔ 0 < s.queue.count .rx+if s.work = .rx then 1 else 0 := by
  unfold Heard
  rw [← List.count_pos_iff]
  split
  · rename_i hw
    simp [hw]
  · rename_i hw
    simp [hw]

theorem Waits.none (l : Listener) {n : ℕ} (h : Waits l n) (hn : ¬Heard l.ir) : n = 0 := by
  rw [heard_iff] at hn
  have hcount := h.count
  split at hcount
  · rename_i hw
    rw [if_pos hw.1] at hn
    omega
  · omega

section
variable {interval : ℕ} {l l' : Listener} {n : ℕ}

theorem Waits.ir (h : Waits l n) {a : IrTransmit.Act} {ir : IrTransmit.Ir} (ha : transmits a = true)
    (hi : IrTransmit.step interval l.ir a = some ir) : Waits { l with ir := ir } n := by
  have hcount := h.count
  have hone := h.one
  have hquiet := h.quiet
  rw [heard_iff] at hquiet
  cases IrTransmit.step_cases hi with
  | captured | dropped | handled => cases ha
  | refused | planned | early | checked | taken | claimed | filled | unsent | waited =>
    exact ⟨hcount,hone,h.stage,h.quiet⟩
  | sent c hc hroom =>
    have hsame : (l.ir.queue++[IrTransmit.Msg.tx]).count .rx = l.ir.queue.count .rx := by simp
    refine ⟨?_,?_,h.stage,?_⟩
    · exact hsame ▸ hcount
    · exact hsame ▸ hone
    · rw [heard_iff]
      exact hsame ▸ hquiet
  | receivedRx queue hw hq =>
    have hstage := h.stage (by rw [hw]; decide)
    rw [hq, hw] at hcount hone hquiet
    simp only [List.count_cons_self, reduceCtorEq, false_and, if_false, Nat.add_zero] at hcount hone hquiet
    refine ⟨?_,?_,fun hne => absurd rfl hne,?_⟩
    · rw [hcount, if_pos ⟨rfl,hstage⟩]
    · rw [if_pos rfl]
      exact hone
    · rw [heard_iff, if_pos rfl]
      exact hquiet
  | receivedTx queue hw hq =>
    have hstage := h.stage (by rw [hw]; decide)
    rw [hq, hw] at hcount hone hquiet
    have hsame : (IrTransmit.Msg.tx::queue).count .rx = queue.count .rx := by simp
    rw [hsame] at hcount hone hquiet
    refine ⟨?_,?_,fun _ => hstage,?_⟩
    · simpa using hcount
    · simpa using hone
    · rw [heard_iff]
      simpa using hquiet
  | started hw | repeated k hw | finished k done hw | cleared done hw =>
    have hstage := h.stage (by rw [hw]; exact nofun)
    rw [hw] at hcount hone hquiet
    refine ⟨?_,?_,fun _ => hstage,?_⟩
    · simpa using hcount
    · simpa using hone
    · rw [heard_iff]
      simpa using hquiet

theorem Waits.done (h : Waits l n) {ir : IrTransmit.Ir}
    (hi : IrTransmit.step interval l.ir .handled = some ir) :
    l.ir.queue.count .rx = 0 ∧ ∀ channel, Waits { l with ir := ir, stage := .fetched, channel := channel } 0 := by
  cases IrTransmit.step_cases hi with
  | handled hw =>
    have hone := h.one
    rw [if_pos hw] at hone
    have hnone : l.ir.queue.count .rx = 0 := by omega
    refine ⟨hnone,fun channel => ⟨?_,?_,fun _ => rfl,fun hheard => ?_⟩⟩
    · simp [hnone]
    · simp [hnone]
    · rw [heard_iff] at hheard
      simp [hnone] at hheard

theorem Waits.fetched (h : Waits l n) (hw : l.ir.work = .rx) (hs : l.stage = .fetched) : n = 1 := by
  have hone := h.one
  have hcount := h.count
  rw [if_pos hw] at hone
  rw [if_pos ⟨hw,hs⟩] at hcount
  omega

theorem Waits.busy (h : Waits l n) (hw : l.ir.work = .rx) (hs : l.stage ≠ .fetched) : n = 0 := by
  have hone := h.one
  have hcount := h.count
  rw [if_pos hw] at hone
  rw [if_neg fun hboth => hs hboth.2] at hcount
  omega

theorem Waits.handling (h : Waits l n) (hw : l.ir.work = .rx) {stage : Stage} (hs : stage ≠ .fetched) :
    Waits { l with stage := stage } 0 := by
  have hone := h.one
  rw [if_pos hw] at hone
  refine ⟨?_,h.one,fun hne => absurd hw hne,h.quiet⟩
  rw [if_neg fun hboth => hs hboth.2]
  show 0 = l.ir.queue.count .rx+0
  omega

theorem Waits.taskLoad (h : Waits l n) (hs : IrListen.step interval l .taskLoad = some l') :
    n = 1 ∧ Waits l' 0 := by
  have hready : l.ir.work = .rx ∧ l.stage = .fetched := by
    by_contra hne
    rw [IrListen.step, if_neg hne] at hs
    cases hs
  refine ⟨h.fetched hready.1 hready.2,?_⟩
  cases IrListen.step_cases hs with
  | wanted hw hon => exact h.handling hw (by decide)
  | dropped ir hon hi => exact (h.done hi).2 l.channel

theorem Waits.frame (h : Waits l n) (hs : IrListen.step interval l .frame = some l') :
    n = 0 ∧ Waits l' (if l.ir.queue.length < IrTransmit.queueLen then 1 else 0) := by
  cases IrListen.step_cases hs with
  | frame ir hch hi =>
    have hnone : ¬Heard l.ir := fun hheard => h.quiet hheard hch
    have hzero := h.none l hnone
    rw [heard_iff] at hnone
    refine ⟨hzero,?_⟩
    have hw : l.ir.work ≠ .rx := by
      intro hw
      rw [if_pos hw] at hnone
      omega
    rw [if_neg hw] at hnone
    have hqueue : l.ir.queue.count .rx = 0 := by omega
    cases IrTransmit.step_cases hi with
    | captured hroom =>
      rw [if_pos hroom]
      refine ⟨?_,?_,fun _ => h.stage hw,fun _ hch => by cases hch⟩
      · simp [hw, hqueue]
      · simp [hw, hqueue]
    | dropped hfull =>
      rw [if_neg (Nat.not_lt.mpr hfull)]
      refine ⟨?_,?_,fun _ => h.stage hw,fun _ hch => by cases hch⟩
      · simp [hw, hqueue]
      · simp [hw, hqueue]

theorem Waits.listen (h : Waits l n) {a : IrListen.Act} (hload : a ≠ .taskLoad) (hframe : a ≠ .frame)
    (hpatient : ∀ c, a = .receive c → ¬Heard l.ir) (hs : IrListen.step interval l a = some l') :
    Waits l' n := by
  cases IrListen.step_cases hs with
  | startUnfitted | startOn | start | refused | giveUp | loadOn | loadOff | stopUnfitted | stop | stopOff =>
    exact ⟨h.count,h.one,h.stage,h.quiet⟩
  | enable | disable =>
    exact ⟨h.count,h.one,h.stage,fun _ hch => by cases hch⟩
  | receive c hc => exact ⟨h.count,h.one,h.stage,fun hheard => absurd hheard (hpatient c rfl)⟩
  | frame => exact absurd rfl hframe
  | wanted | dropped => exact absurd rfl hload
  | again hw hon =>
    have hready : l.stage = .handling := by
      by_contra hne
      rw [IrListen.step, if_neg fun hboth => hne hboth.2] at hs
      cases hs
    rw [h.busy hw (by rw [hready]; decide)]
    exact h.handling hw (by decide)
  | left ir hon hi =>
    have hready : l.ir.work = .rx ∧ l.stage = .handling := by
      by_contra hne
      rw [IrListen.step, if_neg hne] at hs
      cases hs
    rw [h.busy hready.1 (by rw [hready.2]; decide)]
    exact (h.done hi).2 l.channel
  | rearmed ir hi =>
    have hready : l.ir.work = .rx ∧ l.stage = .arming := by
      by_contra hne
      rw [IrListen.step, if_neg hne] at hs
      cases hs
    rw [h.busy hready.1 (by rw [hready.2]; decide)]
    exact (h.done hi).2 l.arm.channel
  | ir a ir ha hi => exact h.ir ha hi

end

/-- The task finds the symbols of frames that were received, in their order. -/
structure Told (r : Receiver) : Prop where
  waits : Waits r.l r.symbols.length
  order : (r.handled++r.symbols.map (readWords r.buf)).Sublist r.heard

structure Tallied (r : Receiver) : Prop where
  recorded : ∃ lost, r.captures.dropped = u32 lost ∧
    Recorded (r.handled.filterMap captureOf) r.taken r.captures.ring lost
  slots : r.captures.ring.capacity = irCaptureSlots
  frames : r.stats.frames = u32 r.handled.length
  overflows : r.stats.overflows = u32 (r.handled.countP fun words => (captureOf words).isNone)
  unknown : r.stats.unknown =
    u32 ((r.handled.filterMap captureOf).countP fun s => s.frame.protocol = .unknown)
  decoded : r.stats.decoded =
    u32 ((r.handled.filterMap captureOf).countP fun s => s.frame.protocol ≠ .unknown)
  dropped : r.stats.dropped = r.captures.dropped

theorem u32_succ (n : ℕ) : u32 (u32 n+1) = u32 (n+1) := by
  unfold u32
  omega

theorem Tallied.handleRx {r : Receiver} (h : Tallied r) (words : List ℕ) :
    Tallied (IrCapture.handleRx words r) := by
  have hframes : u32 (r.stats.frames+1) = u32 (r.handled++[words]).length := by
    rw [h.frames, u32_succ, List.length_append, List.length_singleton]
  cases hc : captureOf words with
  | none =>
    have hmap : (r.handled++[words]).filterMap captureOf = r.handled.filterMap captureOf := by
      simp [List.filterMap_append, hc]
    unfold IrCapture.handleRx
    rw [hc]
    refine ⟨?_,h.slots,hframes,?_,?_,?_,h.dropped⟩
    · rw [hmap]
      exact h.recorded
    · rw [List.countP_append, List.countP_singleton, hc]
      show u32 (r.stats.overflows+1) = _
      rw [h.overflows, u32_succ]
      rfl
    · rw [hmap]
      exact h.unknown
    · rw [hmap]
      exact h.decoded
  | some s =>
    have hmap : (r.handled++[words]).filterMap captureOf = r.handled.filterMap captureOf++[s] := by
      simp [List.filterMap_append, hc]
    obtain ⟨lost,hdropped,hrecorded⟩ := h.recorded
    have hpush : (irCapturePush r.captures s).dropped =
        u32 (lost+(OverwritingRing.push r.captures.ring s).2.toNat) := by
      unfold irCapturePush
      cases hfull : (OverwritingRing.push r.captures.ring s).2 with
      | false => simp [hdropped, hfull]
      | true => simp [hdropped, hfull, u32_succ]
    unfold IrCapture.handleRx
    rw [hc]
    refine ⟨⟨_,hpush,?_⟩,?_,?_,?_,?_,?_,rfl⟩
    · rw [hmap]
      exact hrecorded.push s
    · exact (push_capacity _ _).trans h.slots
    · dsimp only
      split
      · exact hframes
      · exact hframes
    · rw [List.countP_append, List.countP_singleton, hc]
      dsimp only
      split
      · exact h.overflows
      · exact h.overflows
    · rw [hmap, List.countP_append, List.countP_singleton]
      dsimp only
      split
      · rename_i hproto
        rw [if_pos (by simpa using hproto)]
        show u32 (r.stats.unknown+1) = _
        rw [h.unknown, u32_succ]
      · rename_i hproto
        rw [if_neg (by simpa using hproto)]
        exact h.unknown
    · rw [hmap, List.countP_append, List.countP_singleton]
      dsimp only
      split
      · rename_i hproto
        rw [if_neg (by simpa using hproto)]
        exact h.decoded
      · rename_i hproto
        rw [if_pos (by simpa using hproto)]
        show u32 (r.stats.decoded+1) = _
        rw [h.decoded, u32_succ]

theorem handleRx_frame (words : List ℕ) (r : Receiver) :
    (handleRx words r).l = r.l ∧ (handleRx words r).buf = r.buf ∧
      (handleRx words r).symbols = r.symbols ∧ (handleRx words r).heard = r.heard ∧
      (handleRx words r).handled = r.handled++[words] := by
  unfold handleRx
  dsimp only
  split
  · exact ⟨rfl,rfl,rfl,rfl,rfl⟩
  · exact ⟨rfl,rfl,rfl,rfl,rfl⟩

section
variable {interval : ℕ} {r r' : Receiver}

inductive Takes (interval : ℕ) (r : Receiver) : Act → Receiver → Prop where
  | handled (l : Listener) (hl : IrListen.step interval r.l .taskLoad = some l) :
      Takes interval r (.listen .taskLoad)
        (handleRx (readWords r.buf (r.symbols.headD 0)) { r with l := l, symbols := r.symbols.tail })
  | missed (l : Listener) (hl : IrListen.step interval r.l .taskLoad = some l)
      (hstage : l.stage ≠ .handling) :
      Takes interval r (.listen .taskLoad) { r with l := l, symbols := r.symbols.tail }
  | listens (a : IrListen.Act) (l : Listener) (hload : a ≠ .taskLoad) (hframe : a ≠ .frame)
      (hl : IrListen.step interval r.l a = some l) : Takes interval r (.listen a) { r with l := l }
  | bursts (words : List ℕ) (hch : r.l.channel = .armed) :
      Takes interval r (.burst words) { r with buf := writeWords r.buf words }
  | hears (words : List ℕ) (l : Listener) (hl : IrListen.step interval r.l .frame = some l) :
      Takes interval r (.frame words) { r with
        l := l
        buf := writeWords r.buf words
        symbols :=
          if r.l.ir.queue.length < IrTransmit.queueLen then r.symbols++[words.length] else r.symbols
        heard := r.heard++[words] }
  | takes (s : IrSignal) (captures : Captures) (ht : irCaptureTake r.captures = some (s,captures)) :
      Takes interval r .take { r with captures := captures, taken := r.taken++[s] }
  | finds : Takes interval r .take r

theorem step_takes {a : Act} (h : step interval r a = some r') : Takes interval r a r' := by
  cases a with
  | listen a =>
    cases a with
    | frame => cases h
    | taskLoad =>
      obtain ⟨l,hl,rfl⟩ := Option.map_eq_some_iff.mp h
      dsimp only
      split
      · exact .handled l hl
      · rename_i hstage
        exact .missed l hl hstage
    | _ =>
      obtain ⟨l,hl,rfl⟩ := Option.map_eq_some_iff.mp h
      exact .listens _ l nofun nofun hl
  | burst words =>
    rw [step, Option.ite_none_right_eq_some] at h
    obtain ⟨hch,h⟩ := h
    cases h
    exact .bursts words hch
  | frame words =>
    obtain ⟨l,hl,rfl⟩ := Option.map_eq_some_iff.mp h
    exact .hears words l hl
  | take =>
    rw [step] at h
    split at h
    · rename_i s captures ht
      cases h
      exact .takes s captures ht
    · cases h
      exact .finds

theorem step_told {a : Act} (h : Told r) (hp : Patient r a) (hs : step interval r a = some r') :
    Told r' := by
  cases step_takes hs with
  | handled l hl =>
    obtain ⟨hone,hwaits⟩ := h.waits.taskLoad hl
    obtain ⟨n,hn⟩ := List.length_eq_one_iff.mp hone
    have horder := h.order
    rw [hn] at horder ⊢
    obtain ⟨hhl,hbuf,hsymbols,hheard,hhandled⟩ := handleRx_frame (readWords r.buf ([n].headD 0))
      { r with l := l, symbols := [n].tail }
    refine ⟨?_,?_⟩
    · rw [hhl, hsymbols]
      exact hwaits
    · rw [hbuf, hsymbols, hheard, hhandled]
      show (r.handled++[readWords r.buf n]++[]).Sublist r.heard
      rw [List.append_nil]
      exact horder
  | missed l hl hstage =>
    obtain ⟨hone,hwaits⟩ := h.waits.taskLoad hl
    obtain ⟨n,hn⟩ := List.length_eq_one_iff.mp hone
    have horder := h.order
    rw [hn] at horder ⊢
    refine ⟨hwaits,?_⟩
    show (r.handled++[]).Sublist r.heard
    rw [List.append_nil]
    exact (List.sublist_append_left _ _).trans horder
  | listens a l hload hframe hl =>
    exact ⟨h.waits.listen hload hframe (fun c hc => by rw [hc] at hp; exact hp) hl,h.order⟩
  | bursts words hch =>
    have hnone : r.symbols = [] :=
      List.eq_nil_of_length_eq_zero (h.waits.none r.l fun hheard => h.waits.quiet hheard hch)
    have horder := h.order
    refine ⟨h.waits,?_⟩
    rw [hnone] at horder ⊢
    exact horder
  | hears words l hl =>
    obtain ⟨hzero,hwaits⟩ := h.waits.frame hl
    have hnone := List.eq_nil_of_length_eq_zero hzero
    have horder := h.order
    rw [hnone] at horder ⊢
    rw [List.map_nil, List.append_nil] at horder
    split
    · rename_i hroom
      rw [if_pos hroom] at hwaits
      refine ⟨hwaits,?_⟩
      show (r.handled++[readWords (writeWords r.buf words) words.length]).Sublist (r.heard++[words])
      rw [readWords_writeWords]
      exact horder.append (List.Sublist.refl _)
    · rename_i hfull
      rw [if_neg hfull] at hwaits
      refine ⟨hwaits,?_⟩
      show (r.handled++[]).Sublist (r.heard++[words])
      rw [List.append_nil]
      exact horder.trans (List.sublist_append_left _ _)
  | takes s captures ht => exact ⟨h.waits,h.order⟩
  | finds => exact h

theorem step_tallied {a : Act} (h : Tallied r) (hs : step interval r a = some r') : Tallied r' := by
  cases step_takes hs with
  | handled l hl =>
    exact Tallied.handleRx (r := { r with l := l, symbols := r.symbols.tail })
      ⟨h.recorded,h.slots,h.frames,h.overflows,h.unknown,h.decoded,h.dropped⟩ _
  | missed | listens | bursts | hears =>
    exact ⟨h.recorded,h.slots,h.frames,h.overflows,h.unknown,h.decoded,h.dropped⟩
  | takes s captures ht =>
    obtain ⟨x,hx,hcaptures⟩ := Option.map_eq_some_iff.mp ht
    obtain ⟨s',ring⟩ := x
    cases hcaptures
    obtain ⟨lost,hdropped,hrecorded⟩ := h.recorded
    exact ⟨⟨lost,hdropped,hrecorded.take hx⟩,(take_some hx).2.trans h.slots,h.frames,h.overflows,
      h.unknown,h.decoded,h.dropped⟩
  | finds => exact h

/-- With each frame attended none is lost. -/
theorem step_counted {a : Act} (h : Told r) (hc : r.handled.length+r.symbols.length = r.heard.length)
    (ha : Attended r a) (hs : step interval r a = some r') :
    r'.handled.length+r'.symbols.length = r'.heard.length := by
  cases step_takes hs with
  | handled l hl =>
    obtain ⟨hone,-⟩ := h.waits.taskLoad hl
    obtain ⟨-,-,hsymbols,hheard,hhandled⟩ := handleRx_frame (readWords r.buf (r.symbols.headD 0))
      { r with l := l, symbols := r.symbols.tail }
    rw [hsymbols, hheard, hhandled, List.length_append, List.length_singleton]
    dsimp only
    rw [List.length_tail]
    omega
  | missed l hl hstage =>
    cases IrListen.step_cases hl with
    | wanted hw hon => exact absurd rfl hstage
    | dropped ir hon hi => exact Bool.noConfusion (hon.symm.trans ha)
  | hears words l hl =>
    have hroom : r.l.ir.queue.length < IrTransmit.queueLen := ha
    dsimp only
    rw [if_pos hroom, List.length_append, List.length_append, List.length_singleton, List.length_singleton]
    omega
  | listens | bursts | takes | finds => exact hc

end

theorem start_told (fitted : Bool) (tasks t : ℕ) : Told (start fitted tasks t) :=
  ⟨⟨rfl,Nat.zero_le 1,fun _ => rfl,fun hheard => by
    rw [heard_iff] at hheard
    exact absurd hheard (Nat.lt_irrefl 0)⟩,List.Sublist.refl _⟩

theorem start_tallied (fitted : Bool) (tasks t : ℕ) : Tallied (start fitted tasks t) :=
  ⟨⟨0,rfl,recorded_nil rfl⟩,rfl,rfl,rfl,rfl,rfl,rfl⟩

/-- Every capture is that of a frame that was received, each at most once and in their order; the
captures that were not taken and are not in the ring, and every kind of frame, are counted. Where each
frame is attended, every one is handled once or still waits. -/
theorem captures_are_frames (interval tasks t : ℕ) (fitted : Bool) (as : List Act) (r : Receiver)
    (h : Run (step interval) Patient (start fitted tasks t) as r) :
    r.handled.Sublist r.heard ∧ Tallied r ∧
    (Run (step interval) Attended (start fitted tasks t) as r →
      r.handled++r.symbols.map (readWords r.buf) = r.heard) := by
  have htold : Told r := run_invariant Told (fun _ _ _ hi hp hs => step_told hi hp hs) as
    (start_told fitted tasks t) h
  refine ⟨(List.sublist_append_left _ _).trans htold.order,
    run_invariant Tallied (fun _ _ _ hi _ hs => step_tallied hi hs) as (start_tallied fitted tasks t) h,
    fun hattended => htold.order.eq_of_length ?_⟩
  have hcounted : Told r ∧ r.handled.length+r.symbols.length = r.heard.length :=
    run_invariant (fun r => Told r ∧ r.handled.length+r.symbols.length = r.heard.length)
      (fun _ _ _ hi hg hs => ⟨step_told hi.1 hg.1 hs,step_counted hi.1 hi.2 hg.2 hs⟩) as
      ⟨start_told fitted tasks t,rfl⟩ (run_and as h hattended)
  rw [List.length_append, List.length_map]
  exact hcounted.2

def twoFrames : List Act :=
  [.listen (.start 0),.listen (.enable 0),.listen (.load 0),.listen (.receive 0),.burst [5,6],
    .frame [0x8064+0x00C80000],.listen (.ir .receive),.listen .taskLoad,.listen .taskArm,
    .listen .taskReceive,.frame [0x8065],.take,.listen (.ir .receive),.listen .taskLoad]

theorem captures_are_frames_two : ∃ r,
    Run (step 100) Patient (start true 1 0) twoFrames r ∧
      (r.taken.map (·.timings) = [[100,200]] ∧ r.handled.length = 2) ∧ Tallied r ∧
      r.handled++r.symbols.map (readWords r.buf) = r.heard := by
  obtain ⟨r,hr,hseen⟩ := run_witness (step 100) (G := Patient) (s := start true 1 0)
    (p := fun r => r.taken.map (·.timings) = [[100,200]] ∧ r.handled.length = 2) twoFrames
    (by decide +kernel) (by decide +kernel)
  obtain ⟨r',hr',-⟩ := run_witness (step 100) (G := Attended) (s := start true 1 0)
    (p := fun _ => True) twoFrames (by decide +kernel) (by decide +kernel)
  obtain rfl := run_functional twoFrames hr hr'
  obtain ⟨-,htallied,hall⟩ := captures_are_frames 100 1 0 true twoFrames r hr
  exact ⟨r,hr,hseen,htallied,hall hr'⟩

/-- A caller that arms the receiver while a frame waits lets the next one overwrite it. -/
theorem capture_overwritten : ∃ r, Run (step 100) Free (start true 1 0)
    [.listen (.start 0),.listen (.enable 0),.listen (.load 0),.listen (.receive 0),.frame [0x8064],
      .listen (.stop 0),.listen (.disable 0),.listen (.start 0),.listen (.enable 0),.listen (.load 0),
      .listen (.receive 0),.burst [0x8065],.listen (.ir .receive),.listen .taskLoad] r ∧
    r.heard = [[0x8064]] ∧ r.handled = [[0x8065]] :=
  run_witness (step 100) (p := fun r => r.heard = [[0x8064]] ∧ r.handled = [[0x8065]]) _
    (by decide +kernel) (by decide +kernel)

theorem mergeHalves_durations (hs : List (ℕ × ℕ)) : ∀ current run out t, Durations out →
    (∀ l, current = some l → 0 < run) → (current = none → run = 0 ∧ out = []) →
    mergeHalves current run out hs = some t → Durations t := by
  have hflush : ∀ out run t, Durations out → 0 < run → flush out run = some t → Durations t := by
    intro out run t hout hrun h
    unfold flush at h
    split at h
    · cases h
    · rename_i hfits
      simp only [Bool.or_eq_true, decide_eq_true_eq, not_or, Nat.not_lt, Nat.not_le] at hfits
      cases h
      refine ⟨?_,fun d hd => ?_⟩
      · rw [List.length_append, List.length_singleton]
        omega
      · rcases List.mem_append.mp hd with hd | hd
        · exact hout.2 d hd
        · rw [List.mem_singleton.mp hd]
          exact ⟨hrun,hfits.1⟩
  have hend : ∀ current run out t, Durations out → (∀ l : ℕ, current = some l → 0 < run) →
      (if run = 0 then some out else flush out run) = some t → Durations t := by
    intro current run out t hout _ h
    split at h
    · cases h
      exact hout
    · rename_i hrun
      exact hflush out run t hout (Nat.pos_of_ne_zero hrun) h
  induction hs with
  | nil => exact fun current run out t hout hrun _ h => hend current run out t hout hrun h
  | cons x rest ih =>
    obtain ⟨l,d⟩ := x
    intro current run out t hout hrun hfresh h
    rw [mergeHalves] at h
    split at h
    · exact hend current run out t hout hrun h
    rename_i hd
    split at h
    · rename_i hturn
      obtain ⟨out',hout',h⟩ := Option.bind_eq_some_iff.mp h
      cases current with
      | none => exact absurd rfl hturn
      | some k =>
        exact ih (some l) d out' t (hflush out run out' hout (hrun k rfl) hout')
          (fun _ _ => Nat.pos_of_ne_zero hd) (fun hnone => by cases hnone) h
    · exact ih (some l) (run+d) out t hout (fun _ _ => by omega) (fun hnone => by cases hnone) h

theorem captureOf_some {words : List ℕ} {s : IrSignal} (h : captureOf words = some s) :
    words.length < irRxSymbols ∧ irSymbolsToTimings words = some s.timings ∧
      s = ⟨s.timings,(irEncodeCarrier (irDecode s.timings).protocol).getD 38000,irDecode s.timings⟩ := by
  unfold captureOf at h
  split at h
  · rename_i hlen
    obtain ⟨timings,ht,rfl⟩ := Option.map_eq_some_iff.mp h
    exact ⟨hlen,ht,rfl⟩
  · cases h

theorem capture_inRange {words : List ℕ} {s : IrSignal} (h : captureOf words = some s)
    (hsome : s.timings ≠ []) : InRange s := by
  obtain ⟨-,ht,hs⟩ := captureOf_some h
  have hdurations : Durations s.timings :=
    mergeHalves_durations _ none 0 [] _ ⟨Nat.zero_le _,List.forall_mem_nil _⟩ nofun (fun _ => ⟨rfl,rfl⟩) ht
  have hcarrier : ∀ p, carrierMin ≤ (irEncodeCarrier p).getD 38000 ∧
      (irEncodeCarrier p).getD 38000 ≤ carrierMax := by
    intro p
    cases p <;> decide
  refine ⟨hsome,hdurations,?_,?_,?_⟩
  · rw [hs]
    exact (hcarrier _).1
  · rw [hs]
    exact (hcarrier _).2
  · rw [hs]

/-- Symbols of short signals are read back, whichever level is the mark. -/
theorem symbols_read_back {t words : List ℕ} (ht : Durations t) (hsome : t ≠ [])
    (hroom : (levelled 1 0 t).length ≤ 2*irTxSymbols) (h : irTimingsToSymbols t irTxSymbols = some words) :
    irSymbolsToTimings words = some t ∧ irSymbolsToTimings (words.map invertLevels) = some t := by
  have hpos : ∀ d ∈ t, 0 < d ∧ d ≤ 65535 := ht.2
  obtain ⟨words',hw,-,hh⟩ := toSymbols_halves t irTxSymbols hroom
  obtain rfl : words' = words := Option.some.inj (hw.symm.trans h)
  obtain ⟨tail,hsplit,htail,hflip,hlevel⟩ : ∃ tail, halvesOf words' = levelled 1 0 t++tail ∧
      Ended tail ∧ Ended (tail.map fun x => (1-x.1,x.2)) ∧ ∀ x ∈ tail, x.1 ≤ 1 := by
    rcases hh with hh | hh
    · exact ⟨[],by rw [hh, List.append_nil],.inl rfl,.inl rfl,List.forall_mem_nil _⟩
    · exact ⟨[(0,0)],hh,.inr ⟨0,rfl⟩,.inr ⟨1,rfl⟩,by decide⟩
  unfold irSymbolsToTimings
  constructor
  · rw [hsplit]
    exact merge_timings t htail 1 0 (by decide) hsome hpos ht.1
  · have hlevels : ∀ x ∈ halvesOf words', x.1 ≤ 1 := by
      rw [hsplit]
      intro x hx
      rcases List.mem_append.mp hx with hx | hx
      · exact levelled_le 1 0 (by decide) (by decide) _ x hx
      · exact hlevel x hx
    rw [invert_halves words' hlevels, hsplit, List.map_append, map_levelled (1-·) 1 0]
    exact merge_timings t hflip 0 1 (by decide) hsome hpos ht.1

theorem captureOf_again {words words' : List ℕ} {s : IrSignal} (h : captureOf words = some s)
    (hlen : words'.length < irRxSymbols) (ht : irSymbolsToTimings words' = some s.timings) :
    captureOf words' = some s := by
  obtain ⟨-,-,hs⟩ := captureOf_some h
  unfold captureOf
  rw [if_pos hlen, ht, Option.map_some, ← hs]

/-- A capture that holds anything is read back from its saved text as it was, and one that may be
sent is captured as it was by a receiver that has room for its symbols, at either level. -/
theorem capture_kept (words : List ℕ) (s : IrSignal) (h : captureOf words = some s)
    (hsome : s.timings ≠ []) :
    (irRawFormat s irRawTextMax ≠ [] ∧ irRawParse (irRawFormat s irRawTextMax) = (.ok,s)) ∧
    ∀ repeats plan, irTxCheck s repeats = .ok plan → ∃ sent,
      irTimingsToSymbols s.timings irTxSymbols = some sent ∧
      (sent.length < irRxSymbols → captureOf sent = some s ∧ captureOf (sent.map invertLevels) = some s) := by
  have hrange := capture_inRange h hsome
  refine ⟨format_parse hrange,fun repeats plan hcheck => ?_⟩
  obtain ⟨-,hlen,-,-,-,-,-,hsum⟩ := irTxCheck_limits hcheck
  have hconst : irSymbolMaxDuration = 32767 ∧ irMaxDurations = 256 ∧ irTxMaxTotalUs = 1000000 ∧
    irTxSymbols = 162 := by decide
  have htotal : s.timings.sum ≤ irTxMaxTotalUs :=
    Nat.le_trans (Nat.le_mul_of_pos_right _ (Nat.succ_pos _)) hsum
  have hroom : (levelled 1 0 s.timings).length ≤ 2*irTxSymbols := by
    have hmost := levelled_length 1 0 s.timings fun d hd => (hrange.durations.2 d hd).1
    rw [hconst.1] at hmost
    omega
  obtain ⟨sent,hsent,-,-⟩ := toSymbols_halves s.timings irTxSymbols hroom
  obtain ⟨hback,hflip⟩ := symbols_read_back hrange.durations hsome hroom hsent
  exact ⟨sent,hsent,fun hshort => ⟨captureOf_again h hshort hback,
    captureOf_again h (by rw [List.length_map]; exact hshort) hflip⟩⟩

theorem capture_kept_three :
    captureOf [0x00C88064,0x8065] = some ⟨[100,200,101],38000,noFrame⟩ ∧
    irRawParse (irRawFormat ⟨[100,200,101],38000,noFrame⟩ irRawTextMax) =
      (.ok,⟨[100,200,101],38000,noFrame⟩) ∧
    ∃ sent, irTimingsToSymbols [100,200,101] irTxSymbols = some sent ∧
      (sent.length < irRxSymbols → captureOf sent = some ⟨[100,200,101],38000,noFrame⟩) := by
  have hcapture : captureOf [0x00C88064,0x8065] = some ⟨[100,200,101],38000,noFrame⟩ := by
    decide +kernel
  obtain ⟨⟨-,htext⟩,hsend⟩ := capture_kept _ _ hcapture (by decide)
  obtain ⟨sent,hsent,hback⟩ := hsend 0 ⟨401,101,1⟩ (by decide +kernel)
  exact ⟨hcapture,htext,sent,hsent,fun hshort => (hback hshort).1⟩

end StarkOne.IrCapture
