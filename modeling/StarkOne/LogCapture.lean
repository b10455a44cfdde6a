import StarkOne.BufferReader
import StarkOne.RingQueue
import StarkOne.WholeLines

/-!
# The capture ring

A byte ring of whole lines: when it is full the oldest lines go, whole, and
are counted until the next take. Positions are sums of sizes within one
array, which a `size_t` holds; a remainder by a capacity of 0 has no value.
-/

set_option autoImplicit false

namespace StarkOne.LogCapture
open StarkOne.BufferReader StarkOne.RingQueue StarkOne.WholeLines

inductive LogFault where
  | divide
  deriving DecidableEq, Repr

def newline : UInt8 := 0x0A

structure LogRing (cap : ℕ) where
  buf : Buffer UInt8 cap
  head : ℕ
  len : ℕ
  dropped : UInt32

section
variable {cap : ℕ}

def wrapped (cap i : ℕ) : Reading LogFault ℕ := if cap = 0 then stop .divide else .ok (i % cap)

/-- `at` -/
def ringAt (r : LogRing cap) (i : ℕ) : Reading LogFault UInt8 :=
  (wrapped cap (r.head+i)).bind fun pos => byteAt r.buf.val pos

def scanLine (r : LogRing cap) : ℕ → ℕ → Reading LogFault ℕ
  | 0, n => .ok n
  | left+1, n => (ringAt r n).bind fun c => if c = newline then .ok n else scanLine r left (n+1)

def dropLine (r : LogRing cap) : Reading LogFault (LogRing cap) :=
  (scanLine r r.len 0).bind fun n =>
  let n := if n < r.len then n+1 else r.len
  (wrapped cap (r.head+n)).bind fun head =>
  .ok { r with head := head, len := r.len-n, dropped := r.dropped+1 }

def logRingInit (buf : Buffer UInt8 cap) : LogRing cap := ⟨buf,0,0,0⟩

def makeRoom (n : ℕ) : ℕ → LogRing cap → Reading LogFault (LogRing cap)
  | 0, _ => .error .endless
  | rounds+1, r => if cap-r.len < n then (dropLine r).bind (makeRoom n rounds) else .ok r

def storeBytes : List UInt8 → ℕ → LogRing cap → Reading LogFault (LogRing cap)
  | [], _, r => .ok r
  | c::s, i, r => (wrapped cap (r.head+r.len+i)).bind fun pos =>
    (store r.buf pos c).bind fun buf => storeBytes s (i+1) { r with buf := buf }

def logRingPut (r : LogRing cap) (s : List UInt8) : Reading LogFault (LogRing cap) :=
  if cap = 0 then .ok r else
  let s := if cap < s.length then s.drop (s.length-cap) else s
  (makeRoom s.length (r.len+1) r).bind fun r =>
  (storeBytes s 0 r).bind fun r => .ok { r with len := r.len+s.length }

def scanEnd (r : LogRing cap) : ℕ → ℕ → ℕ → Reading LogFault ℕ
  | 0, _, e => .ok e
  | left+1, i, e => (ringAt r i).bind fun c => scanEnd r left (i+1) (if c = newline then i+1 else e)

def copyOut (r : LogRing cap) : ℕ → ℕ → Reading LogFault (List UInt8)
  | 0, _ => .ok []
  | left+1, i => (ringAt r i).bind fun c => (copyOut r left (i+1)).bind fun out => .ok (c::out)

structure Given where
  bytes : List UInt8
  dropped : UInt32

def logRingTake (r : LogRing cap) (max : ℕ) : Reading LogFault (Given × LogRing cap) :=
  let limit := if r.len < max then r.len else max
  (scanEnd r limit 0 0).bind fun e =>
  let e := if e = 0 ∧ limit = max then limit else e
  (copyOut r e 0).bind fun out =>
  (wrapped cap (r.head+e)).bind fun head =>
  .ok (⟨out,r.dropped⟩,{ r with head := head, len := r.len-e, dropped := 0 })

inductive LogCall where
  | put (s : List UInt8)
  | take (max : ℕ)

def run : List LogCall → LogRing cap → Reading LogFault (List Given × LogRing cap)
  | [], r => .ok ([],r)
  | .put s::calls, r => (logRingPut r s).bind (run calls)
  | .take max::calls, r => (logRingTake r max).bind fun t =>
    (run calls t.2).bind fun rest => .ok (t.1::rest.1,rest.2)

def queue (r : LogRing cap) (head_lt : r.head < cap) (len_le : r.len ≤ cap) : RingBuffer UInt8 :=
  ⟨fun i => r.buf.val.getD i 0,cap,r.head,r.len,head_lt,len_le⟩

structure Holds (r : LogRing cap) (text : List UInt8) : Prop where
  head_lt : r.head < cap
  len_le : r.len ≤ cap
  text : toList (queue r head_lt len_le) = text

theorem wrapped_ok (hcap : 0 < cap) (i : ℕ) : wrapped cap i = .ok (i % cap) :=
  if_neg (Nat.pos_iff_ne_zero.mp hcap)

theorem holds_init (hcap : 0 < cap) (buf : Buffer UInt8 cap) : Holds (logRingInit buf) [] :=
  ⟨hcap,Nat.zero_le _,rfl⟩

section
variable {r : LogRing cap} {text : List UInt8}

theorem Holds.length (h : Holds r text) : text.length = r.len := by
  rw [← h.text, length_toList]
  rfl

theorem Holds.cap_pos (h : Holds r text) : 0 < cap := Nat.zero_lt_of_lt h.head_lt

theorem holds_at (h : Holds r text) {i : ℕ} (hi : i < text.length) :
    ringAt r i = .ok text[i] := by
  have hlen := h.length
  have hget := getElem?_toList (queue r h.head_lt h.len_le) (show i < r.len by omega)
  rw [h.text, List.getElem?_eq_getElem hi] at hget
  have hpos : (r.head+i) % cap < r.buf.val.length := by
    rw [r.buf.property]
    exact Nat.mod_lt _ h.cap_pos
  have hval := Option.some.inj hget
  unfold ringAt
  rw [wrapped_ok h.cap_pos]
  refine byteAt_ok.mpr ?_
  rw [List.getElem?_eq_getElem hpos, hval]
  show some _ = some (r.buf.val.getD ((r.head+i) % cap) 0)
  simp [hpos]

theorem Holds.skip (h : Holds r text) (n : ℕ) (dropped : UInt32) :
    Holds { r with head := (r.head+n) % cap, len := r.len-n, dropped := dropped } (text.drop n) where
  head_lt := Nat.mod_lt _ h.cap_pos
  len_le := Nat.le_trans (Nat.sub_le _ _) h.len_le
  text := (toList_skip (queue r h.head_lt h.len_le) n).trans (congrArg (List.drop n) h.text)

theorem holds_scanLine (h : Holds r text) : ∀ left n, n+left = text.length →
    scanLine r left n = .ok (n+(text.drop n).idxOf newline) := by
  intro left
  induction left with
  | zero =>
    intro n hn
    rw [scanLine, List.drop_of_length_le (by omega)]
    rfl
  | succ left ih =>
    intro n hn
    have hlt : n < text.length := by omega
    rw [scanLine, holds_at h hlt, List.drop_eq_getElem_cons hlt, List.idxOf_cons]
    show (if text[n] = newline then _ else scanLine r left (n+1)) = _
    by_cases hc : text[n] = newline
    · rw [if_pos hc, hc]
      simp
    · rw [if_neg hc, ih (n+1) (by omega), show (text[n] == newline) = false from beq_false_of_ne hc]
      simp only [cond_false]
      congr 1
      omega

theorem holds_dropLine {line : List UInt8} {rest : List UInt8} (h : Holds r (line++rest))
    (hline : Whole newline line) : ∃ r', dropLine r = .ok r' ∧ Holds r' rest ∧
      r'.dropped = r.dropped+1 := by
  have hlen := h.length
  have hpos := hline.length_pos
  have hidx := hline.idxOf rest
  rw [List.length_append] at hlen
  refine ⟨⟨r.buf,(r.head+line.length) % cap,r.len-line.length,r.dropped+1⟩,?_,?_,rfl⟩
  · unfold dropLine
    rw [holds_scanLine h r.len 0 (by rw [List.length_append]; omega)]
    simp only [Except.bind, List.drop_zero, Nat.zero_add]
    rw [if_pos (by omega), hidx, wrapped_ok h.cap_pos]
  · have := h.skip line.length (r.dropped+1)
    rwa [List.drop_left] at this

theorem holds_makeRoom (hcap : 0 < cap) {n : ℕ} (hn : n ≤ cap) (held : List (List UInt8)) :
    ∀ (r : LogRing cap) (rounds : ℕ), Holds r held.flatten → (∀ line ∈ held, Whole newline line) →
      r.len < rounds → ∃ r' k, makeRoom n rounds r = .ok r' ∧ k ≤ held.length ∧
        Holds r' (held.drop k).flatten ∧ r'.len+n ≤ cap ∧
        r'.dropped = r.dropped+UInt32.ofNat k := by
  induction held with
  | nil =>
    intro r rounds h _ hr
    have hlen : r.len = 0 := h.length.symm
    obtain ⟨rounds,rfl⟩ := Nat.exists_eq_succ_of_ne_zero (Nat.ne_of_gt (Nat.zero_lt_of_lt hr))
    refine ⟨r,0,?_,Nat.le_refl 0,h,by omega,(UInt32.add_zero _).symm⟩
    rw [makeRoom, if_neg (by omega)]
  | cons line held ih =>
    intro r rounds h hwhole hr
    have hline := hwhole line List.mem_cons_self
    obtain ⟨rounds,rfl⟩ := Nat.exists_eq_succ_of_ne_zero (Nat.ne_of_gt (Nat.zero_lt_of_lt hr))
    by_cases hroom : cap-r.len < n
    · obtain ⟨r₁,hdrop,hr₁,hcount⟩ := holds_dropLine h hline
      have hlen := h.length
      have hlen₁ := hr₁.length
      rw [List.flatten_cons, List.length_append] at hlen
      have hpos := hline.length_pos
      obtain ⟨r',k,hrun,hk,hholds,hfit,hdropped⟩ := ih r₁ rounds hr₁
        (fun l hl => hwhole l (List.mem_cons_of_mem _ hl)) (by omega)
      refine ⟨r',k+1,?_,Nat.succ_le_succ hk,hholds,hfit,?_⟩
      · rw [makeRoom, if_pos hroom, hdrop]
        exact hrun
      · rw [hdropped, hcount, UInt32.add_assoc, UInt32.ofNat_add, UInt32.add_comm 1]
        rfl
    · have hle := h.len_le
      refine ⟨r,0,?_,Nat.zero_le _,h,by omega,(UInt32.add_zero _).symm⟩
      rw [makeRoom, if_neg hroom]

theorem holds_store {r : LogRing cap} {text : List UInt8} (h : Holds r text) (c : UInt8)
    (hroom : r.len < cap) (hpos : (r.head+r.len) % cap < cap) :
    Holds ⟨⟨r.buf.val.set ((r.head+r.len) % cap) c,by rw [List.length_set, r.buf.property]⟩,
      r.head,r.len+1,r.dropped⟩ (text++[c]) := by
  refine ⟨h.head_lt,hroom,?_⟩
  refine Eq.trans ?_ ((toList_append (queue r h.head_lt h.len_le) c hroom).trans
    (congrArg (·++[c]) h.text))
  have hlt : (r.head+r.len) % cap < r.buf.val.length := by
    rw [r.buf.property]
    exact hpos
  unfold toList
  refine List.map_congr_left fun i _ => ?_
  show (r.buf.val.set ((r.head+r.len) % cap) c).getD ((r.head+i) % cap) 0 =
    Function.update (fun j => r.buf.val.getD j 0) ((r.head+r.len) % cap) c ((r.head+i) % cap)
  by_cases hi : (r.head+i) % cap = (r.head+r.len) % cap
  · rw [hi, Function.update_self]
    simp [hlt]
  · rw [Function.update_of_ne hi, List.getD_eq_getElem?_getD, List.getD_eq_getElem?_getD,
      List.getElem?_set_ne (Ne.symm hi)]

theorem holds_storeBytes (s : List UInt8) : ∀ (i : ℕ) (r : LogRing cap) (text : List UInt8),
    Holds { r with len := r.len+i } text → r.len+i+s.length ≤ cap →
    ∃ r', storeBytes s i r = .ok r' ∧ r'.len = r.len ∧ r'.dropped = r.dropped ∧
      Holds { r' with len := r'.len+(i+s.length) } (text++s) := by
  induction s with
  | nil =>
    intro i r text h _
    refine ⟨r,rfl,rfl,rfl,?_⟩
    rw [List.append_nil]
    exact h
  | cons c s ih =>
    intro i r text h hroom
    rw [List.length_cons] at hroom
    have hpos : (r.head+r.len+i) % cap < cap := Nat.mod_lt _ h.cap_pos
    have hstep : Holds _ (text++[c]) := holds_store h c (show r.len+i < cap by omega)
      (by rw [← Nat.add_assoc]; exact hpos)
    obtain ⟨r',hrun,hlen,hdropped,hholds⟩ := ih (i+1)
      ⟨⟨r.buf.val.set ((r.head+r.len+i) % cap) c,by rw [List.length_set, r.buf.property]⟩,
        r.head,r.len,r.dropped⟩ (text++[c]) (by simpa only [← Nat.add_assoc] using hstep)
      (by show r.len+(i+1)+s.length ≤ cap; omega)
    refine ⟨r',?_,hlen,hdropped,?_⟩
    · rw [storeBytes, wrapped_ok h.cap_pos]
      show (store r.buf _ c).bind _ = _
      rw [store, if_pos hpos]
      exact hrun
    · rw [List.append_assoc] at hholds
      rw [List.length_cons, show i+(s.length+1) = i+1+s.length by omega]
      exact hholds

theorem holds_put {r : LogRing cap} {held : List (List UInt8)} {s : List UInt8} (hcap : 0 < cap)
    (h : Holds r held.flatten) (hwhole : ∀ line ∈ held, Whole newline line) (hs : s.length ≤ cap) :
    ∃ r' k, logRingPut r s = .ok r' ∧ k ≤ held.length ∧ Holds r' (held.drop k++[s]).flatten ∧
      r'.dropped = r.dropped+UInt32.ofNat k := by
  obtain ⟨r₁,k,hroom,hk,hheld,hfit,hdropped⟩ := holds_makeRoom hcap hs held r (r.len+1) h hwhole
    (Nat.lt_succ_self _)
  obtain ⟨r₂,hstore,hlen,hsame,hholds⟩ := holds_storeBytes s 0 r₁ _ hheld hfit
  rw [Nat.zero_add] at hholds
  refine ⟨{ r₂ with len := r₂.len+s.length },k,?_,hk,?_,hsame.trans hdropped⟩
  · unfold logRingPut
    rw [if_neg (Nat.ne_of_gt hcap)]
    simp only [if_neg (Nat.not_lt.mpr hs), hroom, Except.bind, hstore]
  · rw [List.flatten_append, List.flatten_singleton]
    exact hholds

theorem holds_scanEnd {r : LogRing cap} {text : List UInt8} (h : Holds r text) :
    ∀ left i e, i+left ≤ text.length →
      scanEnd r left i e = .ok (lastEnd newline ((text.drop i).take left) i e) := by
  intro left
  induction left with
  | zero => exact fun i e _ => rfl
  | succ left ih =>
    intro i e hi
    have hlt : i < text.length := by omega
    rw [scanEnd, holds_at h hlt, List.drop_eq_getElem_cons hlt, List.take_succ_cons, lastEnd]
    exact ih (i+1) _ (by omega)

theorem holds_copyOut {r : LogRing cap} {text : List UInt8} (h : Holds r text) :
    ∀ left i, i+left ≤ text.length → copyOut r left i = .ok ((text.drop i).take left) := by
  intro left
  induction left with
  | zero => exact fun i _ => rfl
  | succ left ih =>
    intro i hi
    have hlt : i < text.length := by omega
    rw [copyOut, holds_at h hlt, List.drop_eq_getElem_cons hlt, List.take_succ_cons]
    show (copyOut r left (i+1)).bind _ = _
    rw [ih (i+1) (by omega)]
    rfl

theorem holds_take {r : LogRing cap} {held : List (List UInt8)} {max : ℕ}
    (h : Holds r held.flatten) (hwhole : ∀ line ∈ held, Whole newline line)
    (hmax : ∀ line ∈ held, line.length ≤ max) :
    ∃ r' k, logRingTake r max = .ok (⟨(held.take k).flatten,r.dropped⟩,r') ∧
      Holds r' (held.drop k).flatten ∧ r'.dropped = 0 := by
  have hlen := h.length
  generalize hlimit : (if r.len < max then r.len else max) = limit
  have hle : limit ≤ r.len := by
    rw [← hlimit]
    split <;> omega
  obtain ⟨k,hk,hkn,hfirst⟩ := lastEnd_lines hwhole limit 0
  rw [Nat.zero_add] at hk
  have hsplit : held.flatten = (held.take k).flatten++(held.drop k).flatten := by
    rw [← List.flatten_append, List.take_append_drop]
  -- Without a line the ring is empty, and with one the first fits: no piece is moved.
  have hpiece : (if (held.take k).flatten.length = 0 ∧ limit = max then limit
      else (held.take k).flatten.length) = (held.take k).flatten.length := by
    by_cases hc : (held.take k).flatten.length = 0 ∧ limit = max
    · rw [if_pos hc]
      cases held with
      | nil =>
        have hzero : r.len = 0 := hlen.symm
        omega
      | cons line held =>
        have hpos := hfirst line rfl (hc.2 ▸ hmax line List.mem_cons_self)
        obtain ⟨k,rfl⟩ := Nat.exists_eq_succ_of_ne_zero (Nat.ne_of_gt hpos)
        have hline := (hwhole line List.mem_cons_self).length_pos
        rw [List.take_succ_cons, List.flatten_cons, List.length_append] at hc
        omega
    · rw [if_neg hc]
  have hfit : (held.take k).flatten.length ≤ held.flatten.length := by
    rw [hsplit, List.length_append]
    exact Nat.le_add_right _ _
  refine ⟨⟨r.buf,(r.head+(held.take k).flatten.length) % cap,
    r.len-(held.take k).flatten.length,0⟩,k,?_,?_,rfl⟩
  · unfold logRingTake
    simp only [hlimit]
    rw [holds_scanEnd h limit 0 0 (by omega), List.drop_zero, hk]
    simp only [Except.bind]
    rw [hpiece, holds_copyOut h _ 0 (by omega), wrapped_ok h.cap_pos, List.drop_zero, hsplit,
      List.take_left]
  · have hskip := h.skip (held.take k).flatten.length 0
    rwa [hsplit, List.drop_left] at hskip

end

end

def puts : List LogCall → List (List UInt8)
  | [] => []
  | .put s::calls => s::puts calls
  | .take _::calls => puts calls

def takes : List LogCall → List ℕ
  | [] => []
  | .put _::calls => takes calls
  | .take max::calls => max::takes calls

/-- Lines end in their only newline and fit the ring, and the buffers take any line. -/
structure ByLines (cap : ℕ) (lines : List (List UInt8)) (maxes : List ℕ) : Prop where
  whole : ∀ line ∈ lines, Whole newline line
  fits : ∀ line ∈ lines, line.length ≤ cap
  room : ∀ line ∈ lines, ∀ max ∈ maxes, line.length ≤ max

def ringText {cap : ℕ} (r : LogRing cap) : List UInt8 :=
  (List.range r.len).map fun i => r.buf.val.getD ((r.head+i) % cap) 0

/-- What is handed over are lines that were put, whole and in their order, and every line put is
handed over, reported as dropped, held, or dropped and not yet reported. -/
structure Accounted {cap : ℕ} (calls : List LogCall) (given : List Given) (r : LogRing cap) :
    Prop where
  lines : ∃ ts : List (List (List UInt8)), given.map Given.bytes = ts.map List.flatten ∧
    List.Sublist ts.flatten (puts calls)
  count : (puts calls).length < 2^32 → (puts calls).length =
    (given.flatMap Given.bytes).count newline+(given.map fun g => g.dropped.toNat).sum+
      (ringText r).count newline+r.dropped.toNat

/-- What calls make of a ring that holds these lines and has lost this many. -/
structure Traced {cap : ℕ} (held : List (List UInt8)) (lost : ℕ) (lines : List (List UInt8))
    (given : List Given) (r : LogRing cap) (ts : List (List (List UInt8))) (ds : List ℕ)
    (held' : List (List UInt8)) (lost' : ℕ) : Prop where
  bytes : given.map Given.bytes = ts.map List.flatten
  drops : given.map Given.dropped = ds.map UInt32.ofNat
  holds : Holds r held'.flatten
  pending : r.dropped = UInt32.ofNat lost'
  sublist : List.Sublist (ts.flatten++held') (held++lines)
  count : held.length+lost+lines.length = ts.flatten.length+ds.sum+held'.length+lost'

theorem run_traced {cap : ℕ} (calls : List LogCall) : ∀ (r : LogRing cap) held lost,
    Holds r held.flatten → r.dropped = UInt32.ofNat lost →
    ByLines cap (held++puts calls) (takes calls) →
    ∃ given r' ts ds held' lost', run calls r = .ok (given,r') ∧
      Traced held lost (puts calls) given r' ts ds held' lost' := by
  induction calls with
  | nil =>
    intro r held lost h hlost hby
    refine ⟨[],r,[],[],held,lost,rfl,rfl,rfl,h,hlost,?_,?_⟩
    · exact List.sublist_append_left _ _
    · simp [puts]
  | cons call calls ih =>
    intro r held lost h hlost hby
    cases call with
    | put s =>
      have hwhole : ∀ line ∈ held, Whole newline line :=
        fun line hl => hby.whole line (List.mem_append_left _ hl)
      have hs : s ∈ held++puts (.put s::calls) := List.mem_append_right _ List.mem_cons_self
      obtain ⟨r₁,k,hput,hk,hheld,hdropped⟩ := holds_put h.cap_pos h hwhole (hby.fits s hs)
      have hsub : List.Sublist ((held.drop k++[s])++puts calls) (held++puts (.put s::calls)) := by
        rw [List.append_assoc]
        exact (List.drop_sublist k held).append (List.Sublist.refl _)
      have hby' : ByLines cap ((held.drop k++[s])++puts calls) (takes calls) :=
        ⟨fun l hl => hby.whole l (hsub.mem hl),fun l hl => hby.fits l (hsub.mem hl),
          fun l hl => hby.room l (hsub.mem hl)⟩
      obtain ⟨given,r',ts,ds,held',lost',hrun,ht⟩ := ih r₁ (held.drop k++[s]) (lost+k) hheld
        (by rw [hdropped, hlost, UInt32.ofNat_add]) hby'
      refine ⟨given,r',ts,ds,held',lost',?_,ht.bytes,ht.drops,ht.holds,ht.pending,
        ht.sublist.trans hsub,?_⟩
      · rw [run, hput]
        exact hrun
      · have := ht.count
        rw [List.length_append, List.length_drop, List.length_singleton] at this
        show held.length+lost+((puts calls).length+1) = _
        omega
    | take max =>
      have hwhole : ∀ line ∈ held, Whole newline line :=
        fun line hl => hby.whole line (List.mem_append_left _ hl)
      obtain ⟨r₁,k,htake,hheld,hdropped⟩ := holds_take h hwhole
        fun line hl => hby.room line (List.mem_append_left _ hl) max List.mem_cons_self
      have hsub : List.Sublist (held.drop k++puts calls) (held++puts calls) :=
        (List.drop_sublist k held).append (List.Sublist.refl _)
      have hby' : ByLines cap (held.drop k++puts calls) (takes calls) :=
        ⟨fun l hl => hby.whole l (hsub.mem hl),fun l hl => hby.fits l (hsub.mem hl),
          fun l hl m hm => hby.room l (hsub.mem hl) m (List.mem_cons_of_mem _ hm)⟩
      obtain ⟨given,r',ts,ds,held',lost',hrun,ht⟩ := ih r₁ (held.drop k) 0 hheld hdropped hby'
      refine ⟨⟨(held.take k).flatten,r.dropped⟩::given,r',held.take k::ts,lost::ds,held',lost',
        ?_,?_,?_,ht.holds,ht.pending,?_,?_⟩
      · rw [run, htake]
        show (run calls r₁).bind _ = _
        rw [hrun]
        rfl
      · exact congrArg _ ht.bytes
      · rw [List.map_cons, List.map_cons, ht.drops, hlost]
      · rw [List.flatten_cons, List.append_assoc]
        have := (List.Sublist.refl (held.take k)).append ht.sublist
        rwa [← List.append_assoc (held.take k) (held.drop k), List.take_append_drop] at this
      · have := ht.count
        rw [List.length_drop] at this
        rw [List.flatten_cons, List.length_append, List.length_take, List.sum_cons]
        show held.length+lost+(puts calls).length = _
        omega

theorem sum_toNat {ds : List ℕ} (h : ds.sum < 2^32) :
    ((ds.map UInt32.ofNat).map UInt32.toNat).sum = ds.sum := by
  induction ds with
  | nil => rfl
  | cons d ds ih =>
    rw [List.sum_cons] at h
    rw [List.map_cons, List.map_cons, List.sum_cons, ih (by omega), List.sum_cons,
      UInt32.toNat_ofNat_of_lt' (Nat.lt_of_le_of_lt (Nat.le_add_right _ _) h)]

theorem Traced.accounted {cap lost' : ℕ} {calls : List LogCall} {given : List Given}
    {r : LogRing cap} {ts : List (List (List UInt8))} {ds : List ℕ} {held' : List (List UInt8)}
    (h : Traced [] 0 (puts calls) given r ts ds held' lost')
    (hwhole : ∀ line ∈ puts calls, Whole newline line) : Accounted calls given r := by
  have hsub : List.Sublist (ts.flatten++held') (puts calls) := h.sublist
  refine ⟨⟨ts,h.bytes,(List.sublist_append_left _ _).trans hsub⟩,fun hlt => ?_⟩
  have hcount := h.count
  rw [List.length_nil, Nat.zero_add] at hcount
  have hgiven : (given.flatMap Given.bytes).count newline = ts.flatten.length := by
    rw [List.flatMap_def, h.bytes, ← List.flatten_flatten]
    exact count_lines fun line hl => hwhole line (hsub.mem (List.mem_append_left _ hl))
  have htext : ringText r = held'.flatten := h.holds.text
  have hdrops : (given.map fun g => g.dropped.toNat).sum = ds.sum := by
    rw [← sum_toNat (show ds.sum < 2^32 by omega), ← h.drops, List.map_map]
    rfl
  rw [hgiven, hdrops, htext, h.pending, UInt32.toNat_ofNat_of_lt' (show lost' < 2^32 by omega),
    count_lines fun line hl => hwhole line (hsub.mem (List.mem_append_right _ hl))]
  exact hcount

/-- Every sequence of calls ends and accounts for every line, unless it takes from a ring
without room. -/
theorem log_ring_lines {cap : ℕ} (buf : Buffer UInt8 cap) (calls : List LogCall)
    (h : ByLines cap (puts calls) (takes calls)) :
    (∃ given r, run calls (logRingInit buf) = .ok (given,r) ∧ Accounted calls given r) ↔
      cap ≠ 0 ∨ takes calls = [] := by
  constructor
  · rintro ⟨given,r,hrun,-⟩
    by_contra hno
    obtain ⟨hcap,htakes⟩ := not_or.mp hno
    rw [not_not] at hcap
    subst hcap
    cases calls with
    | nil => exact htakes rfl
    | cons call calls =>
      cases call with
      | put s =>
        have hpos := (h.whole s List.mem_cons_self).length_pos
        exact absurd (h.fits s List.mem_cons_self) (Nat.not_le.mpr hpos)
      | take max => cases max <;> cases hrun
  · intro hok
    by_cases hcap : cap = 0
    · subst hcap
      cases calls with
      | nil =>
        refine ⟨[],_,rfl,⟨⟨[],rfl,List.Sublist.refl _⟩,fun _ => rfl⟩⟩
      | cons call calls =>
        cases call with
        | put s =>
          have hpos := (h.whole s List.mem_cons_self).length_pos
          exact absurd (h.fits s List.mem_cons_self) (Nat.not_le.mpr hpos)
        | take max => exact absurd (hok.resolve_left fun h => h rfl) (List.cons_ne_nil _ _)
    · obtain ⟨given,r,ts,ds,held',lost',hrun,ht⟩ := run_traced calls (logRingInit buf) [] 0
        (holds_init (Nat.pos_of_ne_zero hcap) buf) rfl h
      exact ⟨given,r,hrun,ht.accounted h.whole⟩

theorem log_ring_lines_pair : ∃ given r,
    run [.put [0x61,0x0A],.put [0x62,0x63,0x0A],.take 4] (logRingInit ⟨[0,0,0,0],rfl⟩) =
      .ok (given,r) ∧
    Accounted [.put [0x61,0x0A],.put [0x62,0x63,0x0A],.take 4] given r := by
  have hlines : ∀ line ∈ puts [.put [0x61,0x0A],.put [0x62,0x63,0x0A],.take 4],
      Whole newline line ∧ line.length ≤ 4 := by
    intro line hline
    rcases List.mem_cons.mp hline with rfl | hline
    · exact ⟨⟨[0x61],rfl,by decide⟩,by decide⟩
    · rw [List.mem_singleton.mp hline]
      exact ⟨⟨[0x62,0x63],rfl,by decide⟩,by decide⟩
  refine (log_ring_lines _ _ ⟨fun l hl => (hlines l hl).1,fun l hl => (hlines l hl).2,
    fun l hl max hmax => ?_⟩).mpr (.inl (by decide))
  rw [List.mem_singleton.mp hmax]
  exact (hlines l hl).2

/-- Without room a take divides by 0. -/
theorem take_without_room : ByLines 0 (puts [.take 1]) (takes [.take 1]) ∧
    ¬∃ given r, run [.take 1] (logRingInit (⟨[],rfl⟩ : Buffer UInt8 0)) = .ok (given,r) ∧
      Accounted [.take 1] given r := by
  refine ⟨⟨fun l hl => (by cases hl),fun l hl => (by cases hl),fun l hl => by cases hl⟩,?_⟩
  rintro ⟨given,r,hrun,-⟩
  cases hrun

end StarkOne.LogCapture
