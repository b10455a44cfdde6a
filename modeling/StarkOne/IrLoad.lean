import StarkOne.IrText
import StarkOne.StorageAtomic
import StarkOne.StorageRead

/-!
# Loading a saved signal

A load is one read into a buffer. What lies behind the part that was read
can be left out only when the parser would go on through it unmoved.
-/

set_option autoImplicit false

namespace StarkOne.IrLoad
open StarkOne.IrCodec StarkOne.IrRaw StarkOne.InodeDisk
open StarkOne.StoragePath StarkOne.StorageIo StarkOne.StorageFile StarkOne.StorageRead
open StarkOne.StorageAtomic (cardWith sdRoot captureName capturePath)

def chars (bytes : List UInt8) : CStr := bytes.map fun b => Char.ofNat b.toNat

/-- The signal `out` is only written by the parser. -/
def irappLoad (o : ℕ → Outcome) (s : Files) (name : CStr) (out : IrSignal) :
    StarkErr × IrSignal × Files :=
  match starkStorageOpen o s .captures name .read with
  | (.ok,some k,s) =>
    let (err,text,s) := starkStorageRead o s k irRawTextMax
    let (cerr,s) := starkStorageClose o s k
    if err ≠ .ok then (err,out,s)
    else if cerr ≠ .ok then (cerr,out,s)
    else
      let (err,out) := irRawParse (chars text)
      (err,out,s)
  | (err,_,s) => (err,out,s)

section lines

def start : Parsing := ⟨false,false,false,zeroSignal⟩

def wholeLines (text : CStr) : List CStr := (text.splitOn '\n').dropLast

def cutLine (text : CStr) : CStr := (text.splitOn '\n').getLastD []

def lineEnd (text : CStr) : CStr := (text.splitOn '\n').headD []

def laterLines (text : CStr) : List CStr := (text.splitOn '\n').tail

theorem splitOn_lines (text : CStr) : text.splitOn '\n' = wholeLines text++[cutLine text] := by
  rw [wholeLines, cutLine]
  have hne := List.splitOn_ne_nil '\n' text
  generalize text.splitOn '\n' = lines at hne ⊢
  obtain ⟨l,last,rfl⟩ := (List.eq_nil_or_concat lines).resolve_left hne
  simp

theorem splitOn_append (text rest : CStr) : (text++rest).splitOn '\n' =
    wholeLines text++(cutLine text++lineEnd rest)::laterLines rest := by
  induction text with
  | nil =>
    have hne := List.splitOn_ne_nil '\n' rest
    rw [List.nil_append, lineEnd, laterLines, wholeLines, cutLine]
    generalize rest.splitOn '\n' = lines at hne ⊢
    cases lines with
    | nil => exact absurd rfl hne
    | cons l lines => rfl
  | cons c text ih =>
    have hne := List.splitOn_ne_nil '\n' text
    rw [List.cons_append, List.splitOn_cons_eq_if_modifyHead, ih]
    unfold wholeLines cutLine
    rw [List.splitOn_cons_eq_if_modifyHead]
    generalize text.splitOn '\n' = lines at hne ⊢
    match lines, hne with
    | l::lines, _ =>
      split
      · rfl
      · cases lines <;> rfl

theorem parseLines_append (a b : List CStr) : ∀ s, parseLines s (a++b) =
    if (parseLines s a).1 ≠ .ok then parseLines s a else parseLines (parseLines s a).2 b := by
  induction a with
  | nil => exact fun s => rfl
  | cons line a ih =>
    intro s
    rw [List.cons_append, parseLines, parseLines]
    split
    · rfl
    · generalize parseLine s line = r
      obtain ⟨err,t⟩ := r
      dsimp only
      split
      · rfl
      · exact ih t

structure Told (s : Parsing) : Prop where
  timings : s.haveTimings = !s.out.timings.isEmpty
  headed : s.header = false → s.out.timings = []

theorem parseLine_told {s t : Parsing} {line : CStr} (hs : Told s)
    (h : parseLine s line = (.ok,t)) : Told t := by
  unfold parseLine at h
  split at h
  · cases h
    exact hs
  split at h
  · split at h
    · cases h
      exact ⟨hs.timings,fun h => by cases h⟩
    · cases h
  rename_i hheader
  split at h
  · rename_i values _ _
    generalize takeTimings [] values = r at h
    obtain ⟨err,us⟩ := r
    dsimp only at h
    split at h
    · rename_i hne
      cases h
      exact absurd rfl hne
    · cases h
      exact ⟨rfl,fun h => absurd h (by simpa using hheader)⟩
  split at h
  · split at h
    · cases h
    split at h
    · cases h
    · cases h
      exact ⟨hs.timings,hs.headed⟩
  · cases h
    exact hs

theorem parseLines_told (lines : List CStr) : ∀ s t, Told s → parseLines s lines = (.ok,t) →
    Told t := by
  induction lines with
  | nil =>
    intro s t hs h
    cases h
    exact hs
  | cons line lines ih =>
    intro s t hs h
    rw [parseLines] at h
    split at h
    · cases h
    generalize hu : parseLine s line = r at h
    obtain ⟨err,u⟩ := r
    dsimp only at h
    split at h
    · rename_i hne
      cases h
      exact absurd rfl hne
    · rename_i herr
      obtain rfl := not_not.mp herr
      exact ih u t (parseLine_told hs hu) h

theorem told_start : Told start := ⟨rfl,fun _ => rfl⟩

end lines

section cut

def carrierOf (s : Parsing) : ℕ :=
  if s.haveCarrier then s.out.carrierHz else defaultCarrier (irDecode s.out.timings).protocol

/-- The parser's state before the line that the text is cut in. -/
def atCut (text : CStr) : Parsing := (parseLines start (wholeLines text)).2

/-- The line of the cut, whole, and the lines behind it are accepted and change nothing. -/
def Unmoved (text rest : CStr) : Prop :=
  let now := (parseLines (atCut text) [cutLine text]).2
  let later := parseLines (atCut text) ((cutLine text++lineEnd rest)::laterLines rest)
  later.1 = .ok ∧ later.2.out.timings = now.out.timings ∧ carrierOf later.2 = carrierOf now

theorem irRawParse_ok {text : CStr} (h : (irRawParse text).1 = .ok) :
    ∃ s, parseLines start (text.splitOn '\n') = (.ok,s) ∧ s.header = true ∧ s.haveTimings = true ∧
      irRawParse text = (.ok,⟨s.out.timings,carrierOf s,irDecode s.out.timings⟩) := by
  unfold irRawParse at h ⊢
  rw [← start] at h ⊢
  generalize parseLines start (text.splitOn '\n') = r at h ⊢
  obtain ⟨err,s⟩ := r
  dsimp only at h ⊢
  split at h
  · rename_i hne
    exact absurd h hne
  rename_i herr
  obtain rfl := not_not.mp herr
  split at h
  · cases h
  rename_i hflags
  rw [if_neg herr, if_neg hflags]
  simp only [Bool.or_eq_true, Bool.not_eq_true', not_or, Bool.not_eq_false] at hflags
  exact ⟨s,rfl,hflags.1,hflags.2,rfl⟩

theorem irRawParse_told {text : CStr} {s : Parsing}
    (h : parseLines start (text.splitOn '\n') = (.ok,s)) (hsome : s.out.timings ≠ []) :
    irRawParse text = (.ok,⟨s.out.timings,carrierOf s,irDecode s.out.timings⟩) := by
  have htold := parseLines_told _ start s told_start h
  have htimings : s.haveTimings = true := by
    rw [htold.timings]
    simpa using hsome
  have hheader : s.header = true := by
    rw [← Bool.not_eq_false]
    exact fun hno => hsome (htold.headed hno)
  unfold irRawParse
  rw [← start, h]
  dsimp only
  rw [if_neg (by decide), if_neg (by simp [htimings, hheader])]
  rfl

/-- What is read of an accepted text is what the whole text says exactly when the rest of it
leaves the parser unmoved. -/
theorem append_parse_iff {text : CStr} (rest : CStr) (h : (irRawParse text).1 = .ok) :
    irRawParse (text++rest) = irRawParse text ↔ Unmoved text rest := by
  obtain ⟨now,hnow,-,hread,hparse⟩ := irRawParse_ok h
  have hsome : now.out.timings ≠ [] := by
    have := (parseLines_told _ start now told_start hnow).timings
    rw [hread] at this
    simpa using this
  have hwhole : (parseLines start (wholeLines text)).1 = .ok := by
    by_contra hne
    rw [splitOn_lines, parseLines_append, if_pos hne] at hnow
    exact hne (congrArg Prod.fst hnow)
  have hcut : parseLines (atCut text) [cutLine text] = (.ok,now) := by
    rw [splitOn_lines, parseLines_append, if_neg (not_not.mpr hwhole)] at hnow
    exact hnow
  have hlater : parseLines start ((text++rest).splitOn '\n') =
      parseLines (atCut text) ((cutLine text++lineEnd rest)::laterLines rest) := by
    rw [splitOn_append, parseLines_append, if_neg (not_not.mpr hwhole)]
    rfl
  unfold Unmoved
  rw [hcut, hparse]
  generalize parseLines (atCut text) ((cutLine text++lineEnd rest)::laterLines rest) = r at hlater ⊢
  obtain ⟨err,later⟩ := r
  constructor
  · intro heq
    have hok : (irRawParse (text++rest)).1 = .ok := by rw [heq]
    obtain ⟨s,hs,-,-,hfull⟩ := irRawParse_ok hok
    obtain ⟨rfl,rfl⟩ := Prod.mk.inj (hlater.symm.trans hs)
    have hsame := (Prod.mk.inj (hfull.symm.trans heq)).2
    have htimings := congrArg IrSignal.timings hsame
    have hcarrier := congrArg IrSignal.carrierHz hsame
    exact ⟨rfl,htimings,hcarrier⟩
  · rintro ⟨rfl,htimings,hcarrier⟩
    dsimp only at htimings hcarrier
    rw [irRawParse_told hlater (htimings ▸ hsome), htimings, hcarrier]

end cut

structure Served (o : ℕ → Outcome) (s : Files) (name path : CStr) (i n : ℕ) : Prop where
  opened : Openable o s .captures name path i
  read : o (s.io.calls+1) = .ok n
  closed : succeeds o (s.io.calls+2)

section load
variable {o : ℕ → Outcome} {s : Files} {name path : CStr} {i n : ℕ} {out : IrSignal}

/-- A load whose calls succeed parses what its one read took. -/
theorem load_served (out : IrSignal) (h : Served o s name path i n) :
    ∃ t, irappLoad o s name out =
      ((irRawParse (chars ((s.io.disk.data i).take (min n irRawTextMax)))).1,
        (irRawParse (chars ((s.io.disk.data i).take (min n irRawTextMax)))).2,t) := by
  obtain ⟨k,t,f,hopen,hreading,hdisk,hcalls⟩ := open_read h.opened
  obtain ⟨u,offset,hread,hreading',hcalls'⟩ := read_ok hreading irRawTextMax (hcalls ▸ h.read)
  have hclose : (starkStorageClose o u k).1 = .ok :=
    (close_read hreading').mpr (by rw [hcalls', hcalls]; exact h.closed)
  unfold irappLoad
  rw [hopen]
  dsimp only
  rw [hread]
  dsimp only
  rw [if_neg (by decide), if_neg (not_not.mpr hclose), hdisk, List.drop_zero]
  exact ⟨_,rfl⟩

theorem load_ok (h : (irappLoad o s name out).1 = .ok) : ∃ path i n, Served o s name path i n := by
  have hopened : ∃ k t, starkStorageOpen o s .captures name .read = (.ok,k,t) := by
    unfold irappLoad at h
    split at h
    · rename_i k t hopen
      exact ⟨some k,t,hopen⟩
    · rename_i err k t _ hopen
      exact ⟨k,t,hopen.trans (congrArg (·,k,t) h)⟩
  obtain ⟨k,t,hopen⟩ := hopened
  obtain ⟨path,i,hopenable⟩ := open_read_ok hopen
  obtain ⟨k,t,f,hopen,hreading,-,hcalls⟩ := open_read hopenable
  unfold irappLoad at h
  rw [hopen] at h
  dsimp only at h
  split at h
  · rename_i hne
    exact absurd h hne
  rename_i hread
  obtain ⟨n,hn⟩ := read_succeeds hreading irRawTextMax (not_not.mp hread)
  obtain ⟨u,offset,hreadOk,hreading',hcalls'⟩ := read_ok hreading irRawTextMax hn
  rw [hreadOk] at h
  dsimp only at h
  split at h
  · rename_i hne
    exact absurd h hne
  rename_i hclose
  have hclosed := (close_read hreading').mp (not_not.mp hclose)
  rw [hcalls', hcalls] at hclosed
  exact ⟨path,i,n,hopenable,hcalls ▸ hn,hclosed⟩

def LoadsWhole (o : ℕ → Outcome) (s : Files) (name : CStr) (out : IrSignal) : Prop :=
  ∀ signal t, irappLoad o s name out = (.ok,signal,t) → ∃ path bytes,
    storagePathBuild s.root .captures name false storagePathMax = .ok path ∧
    s.io.disk.content path = some bytes ∧ irRawParse (chars bytes) = (.ok,signal)

/-- Once every call succeeds, the read takes the whole file, or a part that is refused, or a
part behind which nothing moves the parser. -/
def ReadsEnough (o : ℕ → Outcome) (s : Files) (name : CStr) : Prop :=
  ∀ path i n, Served o s name path i n →
    let bytes := s.io.disk.data i
    let m := min n irRawTextMax
    bytes.length ≤ m ∨ (irRawParse (chars (bytes.take m))).1 ≠ .ok ∨
      Unmoved (chars (bytes.take m)) (chars (bytes.drop m))

theorem chars_split (bytes : List UInt8) (m : ℕ) :
    chars (bytes.take m)++chars (bytes.drop m) = chars bytes := by
  rw [chars, chars, ← List.map_append, List.take_append_drop]
  rfl

/-- A load yields what the whole file says exactly when its one read takes enough of it. -/
theorem loads_whole_iff (o : ℕ → Outcome) (s : Files) (name : CStr) (out : IrSignal) :
    LoadsWhole o s name out ↔ ReadsEnough o s name := by
  constructor
  · intro h path i n hserved
    dsimp only
    by_cases hok : (irRawParse (chars ((s.io.disk.data i).take (min n irRawTextMax)))).1 = .ok
    · refine Or.inr (Or.inr ((append_parse_iff _ hok).mp ?_))
      obtain ⟨t,hload⟩ := load_served out hserved
      rw [hok] at hload
      obtain ⟨path',bytes,hpath,hbytes,hparse⟩ := h _ t hload
      obtain rfl := Except.ok.inj (hpath.symm.trans hserved.opened.built)
      obtain rfl := Option.some.inj (hbytes.symm.trans hserved.opened.content)
      rw [chars_split, hparse, ← hok]
    · exact Or.inr (Or.inl hok)
  · intro h signal t hload
    obtain ⟨path,i,n,hserved⟩ := load_ok (congrArg Prod.fst hload)
    obtain ⟨u,hserve⟩ := load_served out hserved
    obtain ⟨hok,hrest⟩ := Prod.mk.inj (hserve.symm.trans hload)
    have hsignal := (Prod.mk.inj hrest).1
    refine ⟨path,s.io.disk.data i,hserved.opened.built,hserved.opened.content,?_⟩
    rcases h path i n hserved with hwhole | hrefused | hunmoved
    · rw [List.take_of_length_le hwhole] at hok hsignal
      rw [← hok, ← hsignal]
    · exact absurd hok hrefused
    · rw [← chars_split (s.io.disk.data i) (min n irRawTextMax),
        (append_parse_iff _ hok).mpr hunmoved, ← hok, ← hsignal]

end load

section cutShort

def longText : CStr :=
  "stark-ir 1\n#".toList++List.replicate 1600 'x'++"\n#".toList++List.replicate 161 'x'++
    "\ntimings 9000 4500 560 1690 560".toList

def bytesOf (text : CStr) : List UInt8 := text.map fun c => UInt8.ofNat c.toNat

def longCard : Files := cardWith sdRoot capturePath (bytesOf longText)

def fillsBuffer (_ : ℕ) : Outcome := .ok 4096

theorem longCard_served : Served fillsBuffer longCard captureName capturePath 0 4096 where
  opened :=
    { built := by decide
      tmp := ⟨"/sd/stark/captures/ir_0001.ir.tmp".toList,by decide⟩
      mounted := rfl
      slot := ⟨0,by decide⟩
      call := ⟨4096,rfl⟩
      inode := by decide }
  read := rfl
  closed := ⟨4096,rfl⟩

/-- A mark of 1690 microseconds is loaded as one of 16, and what follows it is lost. -/
theorem load_cuts_number :
    (∃ t, irappLoad fillsBuffer longCard captureName zeroSignal =
      (.ok,⟨[9000,4500,560,16],38000,noFrame⟩,t)) ∧
    ¬∀ o s name out, LoadsWhole o s name out := by
  have hdata : longCard.io.disk.data 0 = bytesOf longText := rfl
  have hcut : irRawParse (chars ((bytesOf longText).take (min 4096 irRawTextMax))) =
      (.ok,⟨[9000,4500,560,16],38000,noFrame⟩) := by decide +kernel
  have hfull : irRawParse (chars (bytesOf longText)) =
      (.ok,⟨[9000,4500,560,1690,560],38000,noFrame⟩) := by decide +kernel
  obtain ⟨t,hload⟩ := load_served zeroSignal longCard_served
  rw [hdata, hcut] at hload
  refine ⟨⟨t,hload⟩,fun h => ?_⟩
  obtain ⟨path,bytes,hpath,hbytes,hparse⟩ := h _ _ _ _ _ t hload
  obtain rfl := Except.ok.inj (hpath.symm.trans longCard_served.opened.built)
  obtain rfl := Option.some.inj (hbytes.symm.trans longCard_served.opened.content)
  rw [hdata, hfull] at hparse
  exact absurd hparse (by decide)

end cutShort

end StarkOne.IrLoad
