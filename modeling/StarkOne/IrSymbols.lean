import StarkOne.IrPulses
import StarkOne.IrTxGuard

/-!
# Symbol words of the RMT peripheral

A word holds two halves, each a level and a 15-bit duration. Timings become
halves of alternating level, a long duration several of the same level, and
reading the halves back merges equal neighbours whatever the levels stand for.
-/

set_option autoImplicit false

namespace StarkOne.IrSymbols
open StarkOne.IrCodec StarkOne.IrPulses StarkOne.IrTxGuard

def irSymbolMaxDuration : ℕ := 32767

def duration (word : ℕ) (second : Bool) : ℕ :=
  if second then word >>> 16 &&& 0x7FFF else word &&& 0x7FFF

def level (word : ℕ) (second : Bool) : ℕ :=
  if second then word >>> 31 else word >>> 15 &&& 1

def halvesOf (words : List ℕ) : List (ℕ × ℕ) :=
  words.flatMap fun w => [(level w false,duration w false),(level w true,duration w true)]

def flush (out : List ℕ) (run : ℕ) : Option (List ℕ) :=
  if 65535 < run || irMaxDurations ≤ out.length then none else some (out++[run])

/-- The first level seen is the mark; a duration of zero ends the list. -/
def mergeHalves (current : Option ℕ) (run : ℕ) (out : List ℕ) : List (ℕ × ℕ) → Option (List ℕ)
  | [] => if run = 0 then some out else flush out run
  | (l,d)::rest =>
    if d = 0 then if run = 0 then some out else flush out run
    else if l ≠ current.getD l then
      (flush out run).bind fun out => mergeHalves (some l) d out rest
    else mergeHalves (some l) (run+d) out rest

def irSymbolsToTimings (words : List ℕ) : Option (List ℕ) :=
  mergeHalves none 0 [] (halvesOf words)

structure Symbols where
  words : List ℕ
  half : Option ℕ

def putHalf (max l : ℕ) (s : Symbols) (d : ℕ) : Option Symbols :=
  match s.half with
  | none =>
    if max ≤ s.words.length then none
    else some { s with half := some (d &&& 0x7FFF ||| l <<< 15) }
  | some w => some ⟨s.words++[w ||| ((d &&& 0x7FFF) <<< 16 ||| l <<< 31)],none⟩

/-- The loop takes a piece off the duration in every round, so `d` rounds are enough. -/
def putDuration (max l : ℕ) : ℕ → Symbols → ℕ → Option Symbols
  | rounds+1, s, d =>
    if irSymbolMaxDuration < d then
      (putHalf max l s irSymbolMaxDuration).bind fun s =>
        putDuration max l rounds s (d-irSymbolMaxDuration)
    else putHalf max l s d
  | 0, s, d => putHalf max l s d

def putTimings (max l : ℕ) (s : Symbols) : List ℕ → Option Symbols
  | [] => some s
  | d::rest => (putDuration max l d s d).bind fun s => putTimings max (1-l) s rest

/-- The second half of the last word may stay zero: the end marker. -/
def irTimingsToSymbols (t : List ℕ) (max : ℕ) : Option (List ℕ) :=
  (putTimings max 1 ⟨[],none⟩ t).map fun s => s.words++s.half.toList

/-- The room for a transmission: long durations are split, and the end is marked. -/
def irTxSymbols : ℕ := irMaxDurations/2+34

def pieces : ℕ → ℕ → List ℕ
  | rounds+1, d =>
    if irSymbolMaxDuration < d then
      irSymbolMaxDuration::pieces rounds (d-irSymbolMaxDuration)
    else [d]
  | 0, d => [d]

def levelled (a b : ℕ) : List ℕ → List (ℕ × ℕ)
  | [] => []
  | d::rest => (pieces d d).map (a,·)++levelled b a rest

theorem pieces_sum (rounds d : ℕ) : (pieces rounds d).sum = d := by
  induction rounds generalizing d with
  | zero => simp [pieces]
  | succ rounds ih =>
    unfold pieces
    split
    · rename_i hd
      rw [List.sum_cons, ih]
      omega
    · simp

theorem mem_pieces (rounds d p : ℕ) (hr : d ≤ rounds+irSymbolMaxDuration) (hd : 0 < d)
    (h : p ∈ pieces rounds d) : 0 < p ∧ p ≤ irSymbolMaxDuration := by
  have hmax : irSymbolMaxDuration = 32767 := rfl
  induction rounds generalizing d with
  | zero =>
    obtain rfl := List.mem_singleton.mp h
    omega
  | succ rounds ih =>
    unfold pieces at h
    split at h
    · rcases List.mem_cons.mp h with rfl | h
      · omega
      · exact ih (d-irSymbolMaxDuration) (by omega) (by omega) h
    · obtain rfl := List.mem_singleton.mp h
      omega

theorem pieces_length (rounds d : ℕ) (hd : 0 < d) :
    irSymbolMaxDuration*(pieces rounds d).length ≤ d+(irSymbolMaxDuration-1) := by
  have hmax : irSymbolMaxDuration = 32767 := rfl
  induction rounds generalizing d with
  | zero =>
    rw [pieces, List.length_singleton]
    omega
  | succ rounds ih =>
    unfold pieces
    split
    · have := ih (d-irSymbolMaxDuration) (by omega)
      rw [List.length_cons, Nat.mul_succ]
      omega
    · rw [List.length_singleton]
      omega

theorem levelled_length (a b : ℕ) (t : List ℕ) (ht : ∀ d ∈ t, 0 < d) :
    irSymbolMaxDuration*(levelled a b t).length ≤ t.sum+(irSymbolMaxDuration-1)*t.length := by
  induction t generalizing a b with
  | nil => simp [levelled]
  | cons d rest ih =>
    have hd := pieces_length d d (ht d List.mem_cons_self)
    have hrest := ih b a fun x hx => ht x (List.mem_cons_of_mem d hx)
    rw [levelled, List.length_append, List.length_map, List.sum_cons, List.length_cons,
      Nat.mul_add, Nat.mul_add]
    omega

structure Holds (s : Symbols) (hs : List (ℕ × ℕ)) : Prop where
  halves : halvesOf s.words++s.half.toList.map (fun w => (level w false,duration w false)) = hs
  low : ∀ w ∈ s.half, w < 2^16

theorem halvesOf_append (v w : List ℕ) : halvesOf (v++w) = halvesOf v++halvesOf w :=
  List.flatMap_append

theorem halvesOf_length (words : List ℕ) : (halvesOf words).length = 2*words.length := by
  induction words with
  | nil => rfl
  | cons w words ih =>
    rw [List.length_cons, ← List.singleton_append, halvesOf_append, List.length_append, ih]
    show 2+_ = _
    omega

theorem low_mask (n : ℕ) : n &&& 0x7FFF = n % 2^15 := Nat.and_two_pow_sub_one_eq_mod n 15

theorem first_half (l d : ℕ) (hd : d ≤ irSymbolMaxDuration) :
    d &&& 0x7FFF ||| l <<< 15 = l*2^15+d := by
  have hmax : irSymbolMaxDuration = 32767 := rfl
  rw [low_mask, Nat.mod_eq_of_lt (by omega), Nat.shiftLeft_eq, Nat.or_comm,
    or_add _ _ 15 (by omega) (by omega)]

theorem second_half (w l d : ℕ) (hw : w < 2^16) (hd : d ≤ irSymbolMaxDuration) :
    w ||| ((d &&& 0x7FFF) <<< 16 ||| l <<< 31) = l*2^31+d*2^16+w := by
  have hmax : irSymbolMaxDuration = 32767 := rfl
  have hhigh : d*2^16 ||| l*2^31 = l*2^31+d*2^16 := by
    rw [Nat.or_comm, or_add _ _ 31 (by omega) (by omega)]
  rw [low_mask, Nat.mod_eq_of_lt (by omega), Nat.shiftLeft_eq, Nat.shiftLeft_eq, hhigh, Nat.or_comm,
    or_add _ _ 16 (by omega) hw]

theorem read_first (w : ℕ) : (level w false,duration w false) = (w/2^15 % 2,w % 2^15) := by
  show (w >>> 15 &&& 1,w &&& 0x7FFF) = _
  rw [low_mask, Nat.and_one_is_mod, Nat.shiftRight_eq_div_pow]

theorem read_second (w : ℕ) : (level w true,duration w true) = (w/2^31,w/2^16 % 2^15) := by
  show (w >>> 31,w >>> 16 &&& 0x7FFF) = _
  rw [low_mask, Nat.shiftRight_eq_div_pow, Nat.shiftRight_eq_div_pow]

theorem putHalf_holds {s : Symbols} {hs : List (ℕ × ℕ)} (h : Holds s hs) (max l d : ℕ)
    (hl : l ≤ 1) (hd : d ≤ irSymbolMaxDuration) (hroom : hs.length < 2*max) :
    ∃ t, putHalf max l s d = some t ∧ Holds t (hs++[(l,d)]) := by
  have hmax : irSymbolMaxDuration = 32767 := rfl
  obtain ⟨words,half⟩ := s
  obtain ⟨hh,hlow⟩ := h
  cases half with
  | none =>
    have hlen := congrArg List.length hh
    simp only [List.length_append, halvesOf_length, Option.toList_none, List.map_nil,
      List.length_nil] at hlen
    refine ⟨⟨words,some (l*2^15+d)⟩,?_,?_,?_⟩
    · unfold putHalf
      dsimp only
      rw [if_neg (by omega), first_half l d hd]
    · rw [← hh]
      show _++[(level (l*2^15+d) false,duration (l*2^15+d) false)] = _
      rw [read_first, show (l*2^15+d)/2^15 % 2 = l by omega, show (l*2^15+d) % 2^15 = d by omega]
      simp
    · intro w hw
      obtain rfl := Option.some.inj hw
      omega
  | some w =>
    have hw := hlow w rfl
    refine ⟨⟨words++[l*2^31+d*2^16+w],none⟩,?_,?_,fun v hv => by cases hv⟩
    · unfold putHalf
      dsimp only
      rw [second_half w l d hw hd]
    · rw [← hh, halvesOf_append]
      show _++[(level (l*2^31+d*2^16+w) false,duration (l*2^31+d*2^16+w) false),
        (level (l*2^31+d*2^16+w) true,duration (l*2^31+d*2^16+w) true)]++[] = _
      rw [read_first, read_second, show (l*2^31+d*2^16+w)/2^15 % 2 = w/2^15 % 2 by omega,
        show (l*2^31+d*2^16+w) % 2^15 = w % 2^15 by omega,
        show (l*2^31+d*2^16+w)/2^31 = l by omega,
        show (l*2^31+d*2^16+w)/2^16 % 2^15 = d by omega, ← read_first]
      simp

theorem putDuration_holds {s : Symbols} {hs : List (ℕ × ℕ)} (h : Holds s hs) (max l rounds d : ℕ)
    (hl : l ≤ 1) (hr : d ≤ rounds+irSymbolMaxDuration)
    (hroom : (hs++(pieces rounds d).map (l,·)).length ≤ 2*max) :
    ∃ t, putDuration max l rounds s d = some t ∧ Holds t (hs++(pieces rounds d).map (l,·)) := by
  have hmax : irSymbolMaxDuration = 32767 := rfl
  induction rounds generalizing s hs d with
  | zero =>
    rw [pieces, List.length_append, List.length_map, List.length_singleton] at hroom
    exact putHalf_holds h max l d hl (by omega) (by omega)
  | succ rounds ih =>
    unfold putDuration
    unfold pieces at hroom ⊢
    split
    · rename_i hd
      rw [if_pos hd, List.map_cons, ← List.singleton_append, ← List.append_assoc] at hroom
      have hfirst : hs.length < 2*max := by
        rw [List.length_append, List.length_append, List.length_singleton] at hroom
        omega
      obtain ⟨t,ht,hh⟩ := putHalf_holds h max l irSymbolMaxDuration hl (Nat.le_refl _) hfirst
      rw [ht, List.map_cons, ← List.singleton_append, ← List.append_assoc]
      exact ih hh (d-irSymbolMaxDuration) (by omega) hroom
    · rename_i hd
      rw [if_neg hd, List.length_append, List.length_map, List.length_singleton] at hroom
      exact putHalf_holds h max l d hl (by omega) (by omega)

theorem putTimings_holds (t : List ℕ) {s : Symbols} {hs : List (ℕ × ℕ)} (h : Holds s hs)
    (max l : ℕ) (hl : l ≤ 1) (hroom : (hs++levelled l (1-l) t).length ≤ 2*max) :
    ∃ u, putTimings max l s t = some u ∧ Holds u (hs++levelled l (1-l) t) := by
  induction t generalizing s hs l with
  | nil => exact ⟨s,rfl,by rwa [levelled, List.append_nil]⟩
  | cons d rest ih =>
    rw [levelled, ← List.append_assoc] at hroom ⊢
    have hfirst := Nat.le_trans (List.sublist_append_left _ (levelled (1-l) l rest)).length_le hroom
    obtain ⟨t,ht,hh⟩ := putDuration_holds h max l d d hl (Nat.le_add_right _ _) hfirst
    have hback : 1-(1-l) = l := by omega
    have hrest := ih hh (1-l) (by omega)
    rw [hback] at hrest
    rw [putTimings, ht]
    exact hrest hroom

theorem toSymbols_halves (t : List ℕ) (max : ℕ) (hroom : (levelled 1 0 t).length ≤ 2*max) :
    ∃ words, irTimingsToSymbols t max = some words ∧ words.length ≤ max ∧
      (halvesOf words = levelled 1 0 t ∨ halvesOf words = levelled 1 0 t++[(0,0)]) := by
  have hempty : Holds ⟨[],none⟩ [] := ⟨rfl,fun _ h => by cases h⟩
  obtain ⟨u,hu,hh,hlow⟩ := putTimings_holds t hempty max 1 (Nat.le_refl 1) (by simpa using hroom)
  obtain ⟨words,half⟩ := u
  rw [List.nil_append] at hh
  change _ = levelled 1 0 t at hh
  have hlen := congrArg List.length hh
  rw [List.length_append, halvesOf_length, List.length_map] at hlen
  refine ⟨words++half.toList,by rw [irTimingsToSymbols, hu]; rfl,?_,?_⟩
  · rw [List.length_append]
    cases half with
    | none =>
      simp only [Option.toList_none, List.length_nil] at hlen ⊢
      omega
    | some w =>
      simp only [Option.toList_some, List.length_singleton] at hlen ⊢
      omega
  · rw [halvesOf_append]
    cases half with
    | none => exact .inl hh
    | some w =>
      have hw := hlow w rfl
      right
      rw [← hh, List.append_assoc]
      show _++[(level w false,duration w false),(level w true,duration w true)] =
        _++[(level w false,duration w false),(0,0)]
      rw [read_second, Nat.div_eq_of_lt (show w < 2^31 by omega), Nat.div_eq_of_lt hw,
        Nat.zero_mod]

theorem merge_pieces (l run : ℕ) (out ps : List ℕ) (hs : List (ℕ × ℕ)) (hp : ∀ p ∈ ps, 0 < p) :
    mergeHalves (some l) run out (ps.map (l,·)++hs) = mergeHalves (some l) (run+ps.sum) out hs := by
  induction ps generalizing run with
  | nil => rfl
  | cons p ps ih =>
    have hpos := hp p List.mem_cons_self
    rw [List.map_cons, List.cons_append, mergeHalves, if_neg (by omega), if_neg (by simp),
      ih _ fun q hq => hp q (List.mem_cons_of_mem p hq), List.sum_cons, Nat.add_assoc]

theorem merge_turn (l m run d : ℕ) (out : List ℕ) (hs : List (ℕ × ℕ)) (hne : m ≠ l) (hd : 0 < d)
    (hrun : run ≤ 65535) (hroom : out.length < irMaxDurations) :
    mergeHalves (some l) run out ((pieces d d).map (m,·)++hs) =
      mergeHalves (some m) d (out++[run]) hs := by
  have hpos : ∀ p ∈ pieces d d, 0 < p := fun p hp =>
    (mem_pieces d d p (Nat.le_add_right _ _) hd hp).1
  have hsum := pieces_sum d d
  cases hps : pieces d d with
  | nil =>
    rw [hps] at hsum
    exact absurd hsum (Nat.ne_of_lt hd)
  | cons p ps =>
    rw [hps] at hpos hsum
    have hp := hpos p List.mem_cons_self
    have hflush : flush out run = some (out++[run]) := by
      unfold flush
      rw [if_neg]
      simp only [Bool.or_eq_true, decide_eq_true_eq]
      omega
    have hturn : m ≠ (some l).getD m := hne
    rw [List.map_cons, List.cons_append, mergeHalves, if_neg (by omega), if_pos hturn, hflush]
    show mergeHalves (some m) p (out++[run]) _ = _
    rw [merge_pieces m p _ ps hs fun q hq => hpos q (List.mem_cons_of_mem p hq), ← List.sum_cons, hsum]

def Ended (hs : List (ℕ × ℕ)) : Prop := hs = [] ∨ ∃ l, hs = [(l,0)]

theorem merge_ended {hs : List (ℕ × ℕ)} (he : Ended hs) (l run : ℕ) (out : List ℕ) (hpos : 0 < run)
    (hrun : run ≤ 65535) (hroom : out.length < irMaxDurations) :
    mergeHalves (some l) run out hs = some (out++[run]) := by
  have hflush : flush out run = some (out++[run]) := by
    unfold flush
    rw [if_neg]
    simp only [Bool.or_eq_true, decide_eq_true_eq]
    omega
  rcases he with rfl | ⟨m,rfl⟩
  · rw [mergeHalves, if_neg (by omega), hflush]
  · rw [mergeHalves, if_pos rfl, if_neg (by omega), hflush]

theorem merge_levelled (t : List ℕ) {hs : List (ℕ × ℕ)} (he : Ended hs) (l m run : ℕ) (out : List ℕ)
    (hne : m ≠ l) (hpos : 0 < run) (hrun : run ≤ 65535) (ht : ∀ d ∈ t, 0 < d ∧ d ≤ 65535)
    (hroom : out.length+t.length < irMaxDurations) :
    mergeHalves (some l) run out (levelled m l t++hs) = some (out++run::t) := by
  induction t generalizing l m run out with
  | nil => exact merge_ended he l run out hpos hrun hroom
  | cons d rest ih =>
    obtain ⟨hd,hd'⟩ := ht d List.mem_cons_self
    rw [List.length_cons] at hroom
    rw [levelled, List.append_assoc, merge_turn l m run d out _ hne hd hrun (by omega),
      ih m l d (out++[run]) hne.symm hd hd' (fun x hx => ht x (List.mem_cons_of_mem d hx))
        (by rw [List.length_append, List.length_singleton]; omega)]
    simp

/-- The durations are read back whichever of the two levels is the mark. -/
theorem merge_timings (t : List ℕ) {hs : List (ℕ × ℕ)} (he : Ended hs) (a b : ℕ) (hne : a ≠ b)
    (hnil : t ≠ []) (ht : ∀ d ∈ t, 0 < d ∧ d ≤ 65535) (hlen : t.length ≤ irMaxDurations) :
    mergeHalves none 0 [] (levelled a b t++hs) = some t := by
  cases t with
  | nil => exact absurd rfl hnil
  | cons d rest =>
    obtain ⟨hd,hd'⟩ := ht d List.mem_cons_self
    have hpos : ∀ p ∈ pieces d d, 0 < p := fun p hp =>
      (mem_pieces d d p (Nat.le_add_right _ _) hd hp).1
    have hfirst : mergeHalves none 0 [] (levelled a b (d::rest)++hs) =
        mergeHalves (some a) 0 [] (levelled a b (d::rest)++hs) := by
      rw [levelled]
      cases hps : pieces d d with
      | nil =>
        have hsum := pieces_sum d d
        rw [hps] at hsum
        exact absurd hsum (Nat.ne_of_lt hd)
      | cons p ps =>
        rw [List.map_cons, List.cons_append, List.cons_append, mergeHalves, mergeHalves]
        simp
    rw [hfirst, levelled, List.append_assoc, merge_pieces a 0 [] _ _ hpos, pieces_sum, Nat.zero_add]
    exact merge_levelled rest he a b d [] hne.symm hd hd'
      (fun x hx => ht x (List.mem_cons_of_mem d hx))
        (by rw [List.length_cons] at hlen; rw [List.length_nil]; omega)

def invertLevels (word : ℕ) : ℕ := word ^^^ 0x80008000

theorem invert_halves (words : List ℕ) (h : ∀ x ∈ halvesOf words, x.1 ≤ 1) :
    halvesOf (words.map invertLevels) = (halvesOf words).map fun x => (1-x.1,x.2) := by
  have hflip : ∀ l ≤ 1, l ^^^ 1 = 1-l := by decide
  induction words with
  | nil => rfl
  | cons w words ih =>
    have hrest := ih fun x hx => h x (List.mem_append_right _ hx)
    have hone := h (level w false,duration w false) (by simp [halvesOf])
    have htwo := h (level w true,duration w true) (by simp [halvesOf])
    have hword : halvesOf [invertLevels w] = (halvesOf [w]).map fun x => (1-x.1,x.2) := by
      show [(level (invertLevels w) false,duration (invertLevels w) false),
        (level (invertLevels w) true,duration (invertLevels w) true)] =
        [(1-level w false,duration w false),(1-level w true,duration w true)]
      have h1 : level (invertLevels w) false = level w false ^^^ 1 := by
        show (w ^^^ 0x80008000) >>> 15 &&& 1 = _
        rw [Nat.shiftRight_xor_distrib, Nat.and_xor_distrib_right]
        rfl
      have h2 : level (invertLevels w) true = level w true ^^^ 1 := Nat.shiftRight_xor_distrib
      have h3 : duration (invertLevels w) false = duration w false := by
        show (w ^^^ 0x80008000) &&& 0x7FFF = _
        rw [Nat.and_xor_distrib_right]
        exact Nat.xor_zero _
      have h4 : duration (invertLevels w) true = duration w true := by
        show (w ^^^ 0x80008000) >>> 16 &&& 0x7FFF = _
        rw [Nat.shiftRight_xor_distrib, Nat.and_xor_distrib_right]
        exact Nat.xor_zero _
      rw [h1, h2, h3, h4, hflip _ hone, hflip _ htwo]
    rw [List.map_cons, ← List.singleton_append, halvesOf_append, hword, hrest,
      ← List.singleton_append (l := words), halvesOf_append, List.map_append]

theorem map_levelled (f : ℕ → ℕ) (a b : ℕ) (t : List ℕ) :
    (levelled a b t).map (fun x => (f x.1,x.2)) = levelled (f a) (f b) t := by
  induction t generalizing a b with
  | nil => rfl
  | cons d rest ih =>
    rw [levelled, List.map_append, ih, List.map_map]
    rfl

theorem levelled_le (a b : ℕ) (ha : a ≤ 1) (hb : b ≤ 1) (t : List ℕ) :
    ∀ x ∈ levelled a b t, x.1 ≤ 1 := by
  induction t generalizing a b with
  | nil => exact fun x hx => by cases hx
  | cons d rest ih =>
    intro x hx
    rcases List.mem_append.mp hx with hx | hx
    · obtain ⟨p,-,rfl⟩ := List.mem_map.mp hx
      exact ha
    · exact ih b a hb ha x hx

/-- Every signal that may be transmitted fits the transmit buffer as symbol words, and is read
back from them, also by a receiver that sees the other level. -/
theorem ir_symbols_round_trip (s : IrSignal) (repeats : ℕ) (plan : IrTxPlan)
    (hu : ∀ d ∈ s.timings, d < 2^16) (h : irTxCheck s repeats = .ok plan) :
    ∃ words, irTimingsToSymbols s.timings irTxSymbols = some words ∧
      words.length ≤ irTxSymbols ∧
      irSymbolsToTimings words = some s.timings ∧
      irSymbolsToTimings (words.map invertLevels) = some s.timings := by
  obtain ⟨hodd,hlen,-,-,-,hmin,-,hsum⟩ := irTxCheck_limits h
  have hconst : irSymbolMaxDuration = 32767 ∧ irMaxDurations = 256 ∧ irTxMaxTotalUs = 1000000 ∧
    irTxMinUs = 50 ∧ irTxSymbols = 162 := by decide
  have hpos : ∀ d ∈ s.timings, 0 < d ∧ d ≤ 65535 := fun d hd => by
    have h1 := hmin d hd
    have h2 := hu d hd
    omega
  have hnil : s.timings ≠ [] := by
    intro hn
    rw [hn] at hodd
    cases hodd
  have htotal : s.timings.sum ≤ irTxMaxTotalUs :=
    Nat.le_trans (Nat.le_mul_of_pos_right _ (Nat.succ_pos _)) hsum
  have hroom : (levelled 1 0 s.timings).length ≤ 2*irTxSymbols := by
    have hmost := levelled_length 1 0 s.timings fun d hd => (hpos d hd).1
    rw [hconst.1] at hmost
    omega
  obtain ⟨words,hw,hwl,hh⟩ := toSymbols_halves s.timings irTxSymbols hroom
  obtain ⟨tail,he,htail,hle⟩ : ∃ tail, Ended (tail.map fun x => (1-x.1,x.2)) ∧
      halvesOf words = levelled 1 0 s.timings++tail ∧ Ended tail ∧ ∀ x ∈ tail, x.1 ≤ 1 := by
    rcases hh with hh | hh
    · exact ⟨[],.inl rfl,by rw [hh, List.append_nil],.inl rfl,fun x hx => by cases hx⟩
    · exact ⟨[(0,0)],.inr ⟨1,rfl⟩,hh,.inr ⟨0,rfl⟩,by decide⟩
  refine ⟨words,hw,hwl,?_,?_⟩
  · unfold irSymbolsToTimings
    rw [htail]
    exact merge_timings s.timings hle.1 1 0 (by decide) hnil hpos hlen
  · have hlevels : ∀ x ∈ halvesOf words, x.1 ≤ 1 := by
      intro x hx
      rw [htail] at hx
      rcases List.mem_append.mp hx with hx | hx
      · exact levelled_le 1 0 (by decide) (by decide) _ x hx
      · exact hle.2 x hx
    unfold irSymbolsToTimings
    rw [invert_halves words hlevels, htail, List.map_append, map_levelled (1-·) 1 0]
    exact merge_timings s.timings he 0 1 (by decide) hnil hpos hlen

/-- A signal with a duration that needs two halves, sent twice. -/
theorem ir_symbols_round_trip_split : ∃ words,
    irTimingsToSymbols [9000,40000,560] irTxSymbols = some words ∧ words.length ≤ irTxSymbols ∧
      irSymbolsToTimings words = some [9000,40000,560] ∧
      irSymbolsToTimings (words.map invertLevels) = some [9000,40000,560] :=
  ir_symbols_round_trip ⟨[9000,40000,560],38000,noFrame⟩ 1 ⟨49560,150,200⟩ (by decide) (by decide)

end StarkOne.IrSymbols
