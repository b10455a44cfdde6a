import StarkOne.Pn532Frame
import StarkOne.RunningCheck

/-!
# What the checks of a frame find

Every byte of a frame is checked: the preamble and the start code by their
values, LEN by LCS, the body by DCS, and the postamble by its value. LEN is
neither 0 nor 0xFF, so that one byte does not turn it into an acknowledgement.
-/

set_option autoImplicit false

namespace StarkOne.Pn532Detection
open StarkOne.BufferReader StarkOne.Pn532Frame StarkOne.RunningCheck

theorem sum_telling : Telling fun s b : UInt8 => s+b where
  state _ _ _ h := (UInt8.add_left_inj _).mp h
  element _ _ _ h := (UInt8.add_right_inj _).mp h

section
variable {buf body : List UInt8}

theorem sumFrom_eq (n : ℕ) : ∀ pos sum, pos+n ≤ buf.length →
    sumFrom buf n pos sum = .ok (((buf.drop pos).take n).foldl (·+·) sum) := by
  induction n with
  | zero => exact fun _ _ _ => rfl
  | succ n ih =>
    intro pos sum h
    have hlt : pos < buf.length := by omega
    have hbyte : (byteAt buf pos : Reading Fault UInt8) = .ok buf[pos] :=
      byteAt_ok.mpr (List.getElem?_eq_getElem hlt)
    rw [sumFrom, hbyte, List.drop_eq_getElem_cons hlt, List.take_succ_cons, List.foldl_cons]
    exact ih (pos+1) _ (by omega)

theorem parse_carries {len : ℕ} (hbuf : Carries buf body) (hlen : body.length+pn532FrameOverhead ≤ len)
    (hne : body ≠ []) (happ : body ≠ [0x7F]) :
    pn532FrameParse buf len = .ok (.data,some 5,body.length) := by
  have hover : pn532FrameOverhead = 7 := rfl
  have hpos := List.length_pos_iff.mpr hne
  obtain ⟨n,lcs,dcs,rest,rfl,hn,hlcs,hdcs⟩ := hbuf
  have hn0 : n ≠ 0 := by
    rintro rfl
    rw [← hn] at hpos
    exact Nat.lt_irrefl _ hpos
  have hext : ¬(n = 0xFF ∧ lcs = 0xFF) := by
    rintro ⟨rfl,rfl⟩
    exact absurd hlcs (by decide)
  have hnackLen : ¬(n = 0xFF ∧ lcs = 0x00) := by
    rintro ⟨rfl,rfl⟩
    exact absurd hlcs (by decide)
  generalize hbuf : [0x00,0x00,0xFF,n,lcs]++body++[dcs,0x00]++rest = buf
  have hdrop : buf.drop 5 = body++([dcs,0x00]++rest) := by
    rw [← hbuf, List.append_assoc, List.append_assoc]
    rfl
  have hlength : buf.length = body.length+7+rest.length := by
    rw [← hbuf]
    simp only [List.length_append, List.length_cons, List.length_nil]
    omega
  have h3 : (byteAt buf 3 : Reading Fault UInt8) = .ok n := by
    rw [← hbuf]
    rfl
  have h4 : (byteAt buf 4 : Reading Fault UInt8) = .ok lcs := by
    rw [← hbuf]
    rfl
  have hpreamble : startsWith buf [0x00,0x00,0xFF] 0 = .ok true := by
    rw [← hbuf]
    rfl
  have hack : startsWith buf pn532Ack 0 = .ok false := by
    rw [← hbuf]
    exact if_pos hn0
  have hnack : startsWith buf pn532Nack 0 = .ok false := by
    rw [← hbuf]
    show (if n ≠ 0xFF then Except.ok false else if lcs ≠ 0x00 then .ok false else _) = _
    by_cases hff : n = 0xFF
    · rw [if_neg (not_not.mpr hff), if_pos fun h => hnackLen ⟨hff,h⟩]
    · rw [if_pos hff]
  have hsum : sumFrom buf (n.toNat+1) 5 0 = .ok 0 := by
    have htake : (body++([dcs,0x00]++rest)).take (body.length+1) = body++[dcs] := by
      rw [List.take_append]
      simp
    rw [sumFrom_eq _ _ _ (by omega), hdrop, hn, htake, List.foldl_append]
    exact congrArg Except.ok hdcs
  have hpost : (byteAt buf (6+n.toNat) : Reading Fault UInt8) = .ok 0x00 := by
    rw [byteAt_ok, show 6+n.toNat = 5+(body.length+1) by omega, ← List.getElem?_drop, hdrop,
      List.getElem?_append_right (by omega), show body.length+1-body.length = 1 by omega]
    rfl
  obtain ⟨tfi,after,rfl⟩ := List.exists_cons_of_ne_nil hne
  have h5 : (byteAt buf 5 : Reading Fault UInt8) = .ok tfi := by
    rw [← hbuf]
    rfl
  have happ' : ¬(n = 1 ∧ tfi = 0x7F) := by
    rintro ⟨rfl,rfl⟩
    cases after with
    | nil => exact happ rfl
    | cons b after => exact absurd hn (by simp)
  unfold pn532FrameParse
  rw [if_neg (by omega)]
  simp only [hpreamble, hack, hnack, h3, h4, Except.bind, Bool.not_true, Bool.false_eq_true, if_false]
  rw [if_neg hext, if_neg (not_or.mpr ⟨not_not.mpr hlcs,hn0⟩), if_neg (by omega)]
  simp only [hsum, hpost, h5]
  rw [if_neg (not_not.mpr rfl), if_neg (not_not.mpr rfl), if_neg happ', hn]

/-- The bytes a checksum of zero is over, and the postamble behind them. -/
theorem carries_checked (h : Carries buf body) : ∃ n lcs checked rest,
    buf = 0x00::0x00::0xFF::n::lcs::(checked++0x00::rest) ∧ checked.length = n.toNat+1 ∧
    n.toNat = body.length ∧ n+lcs = 0 ∧ checked.foldl (·+·) 0 = 0 ∧
    ∀ first, body.head? = some first → checked.head? = some first := by
  obtain ⟨n,lcs,dcs,rest,hbuf,hn,hlcs,hdcs⟩ := h
  refine ⟨n,lcs,body++[dcs],rest,?_,?_,hn,hlcs,?_,?_⟩
  · rw [hbuf]
    simp
  · rw [List.length_append, hn]
    rfl
  · rw [List.foldl_append]
    exact hdcs
  · intro first hfirst
    rw [List.head?_append, hfirst]
    rfl

/-- A frame whose body does not start with 0 is not accepted with one of its bytes replaced. -/
theorem substitution_found {len i : ℕ} {b : UInt8} {r : Pn532Rx × Option ℕ × ℕ}
    (hframe : Carries buf body) (hne : body ≠ []) (hfirst : body.head? ≠ some 0)
    (hi : i < body.length+pn532FrameOverhead) (hb : buf[i]? ≠ some b) :
    pn532FrameParse (buf.set i b) len ≠ .ok r := by
  have hover : pn532FrameOverhead = 7 := rfl
  intro h
  obtain ⟨n,lcs,checked,rest,hbuf,hlen,hn,hlcs,hsum,hhead⟩ := carries_checked hframe
  have hlength : buf.length = checked.length+6+rest.length := by
    rw [hbuf]
    simp only [List.length_append, List.length_cons]
    omega
  have hset : (buf.set i b)[i]? = some b := by
    rw [List.getElem?_set_self (by omega)]
  have hmoved : ∀ j c, (buf.set i b)[j]? = some c → buf[j]? = some c → i ≠ j := by
    rintro j c hj hc rfl
    exact hb (by rw [hc, ← hj, hset])
  have hsame : ∀ j c d, (buf.set i b)[j]? = some c → buf[j]? = some d → i ≠ j → c = d := by
    intro j c d hc hd hij
    rw [List.getElem?_set_ne hij, hd] at hc
    exact (Option.some.inj hc).symm
  have h3 : buf[3]? = some n := by rw [hbuf]; rfl
  have h4 : buf[4]? = some lcs := by rw [hbuf]; rfl
  obtain ⟨first,hfirst',h5⟩ : ∃ first : UInt8, first ≠ 0 ∧ buf[5]? = some first := by
    obtain ⟨first,after,rfl⟩ := List.exists_cons_of_ne_nil hne
    refine ⟨first,fun h => hfirst (congrArg some h),?_⟩
    rw [hbuf]
    show (checked++0x00::rest)[0]? = _
    rw [← List.head?_eq_getElem?, List.head?_append, hhead first rfl]
    rfl
  -- An acknowledgement has a 0 where the body starts; the two bytes before it are then kept.
  have hshort : ∀ {c d rest'}, buf.set i b = 0x00::0x00::0xFF::c::d::0x00::rest' → c+d = 0 := by
    intro c d rest' hacked
    rw [hacked] at hsame
    have hi5 : i = 5 := by
      by_contra h5i
      exact hfirst' (hsame 5 0 first rfl h5 h5i).symm
    rw [hsame 3 c n rfl h3 (by omega), hsame 4 d lcs rfl h4 (by omega), hlcs]
  obtain ⟨kind,start,m⟩ := r
  obtain ⟨-,rest',hack⟩ | ⟨-,rest',hnack⟩ | ⟨m',-,-,hcarries,-⟩ := parse_framed h
  · exact absurd (hshort hack) (by decide)
  · exact absurd (hshort hnack) (by decide)
  · obtain ⟨n',lcs',checked',rest',hbuf',hlen',-,hlcs',hsum',-⟩ := carries_checked hcarries
    have hbeyond : 3 ≤ i := by
      have h0 := hmoved 0 0 (by rw [hbuf']; rfl) (by rw [hbuf]; rfl)
      have h1 := hmoved 1 0 (by rw [hbuf']; rfl) (by rw [hbuf]; rfl)
      have h2 := hmoved 2 0xFF (by rw [hbuf']; rfl) (by rw [hbuf]; rfl)
      omega
    have h3' : (buf.set i b)[3]? = some n' := by rw [hbuf']; rfl
    have h4' : (buf.set i b)[4]? = some lcs' := by rw [hbuf']; rfl
    have hi3 : i ≠ 3 := by
      rintro rfl
      obtain rfl := hsame 4 lcs' lcs h4' h4 (by omega)
      exact hmoved 3 n' h3' (by rw [h3, (UInt8.add_left_inj _).mp (hlcs'.trans hlcs.symm)]) rfl
    have hi4 : i ≠ 4 := by
      rintro rfl
      obtain rfl := hsame 3 n' n h3' h3 (by omega)
      exact hmoved 4 lcs' h4' (by rw [h4, (UInt8.add_right_inj _).mp (hlcs'.trans hlcs.symm)]) rfl
    obtain rfl := hsame 3 n' n h3' h3 hi3
    obtain ⟨k,rfl⟩ := Nat.exists_eq_add_of_le' (show 5 ≤ i by omega)
    have htail : (checked++0x00::rest).set k b = checked'++0x00::rest' := by
      rw [hbuf] at hbuf'
      exact (List.cons.inj (List.cons.inj (List.cons.inj (List.cons.inj (List.cons.inj
        hbuf').2).2).2).2).2
    have hget : buf[k+5]? = (checked++0x00::rest)[k]? := by rw [hbuf]; rfl
    by_cases hk : k < checked.length
    · rw [List.set_append_left _ _ hk] at htail
      obtain ⟨hchecked,-⟩ := List.append_inj htail (by rw [List.length_set]; omega)
      rw [← hchecked] at hsum'
      refine hb ?_
      rw [hget, List.getElem?_append_left hk]
      exact sum_telling.foldl_set checked k b 0 hk (hsum'.trans hsum.symm)
    · have hend : k = checked.length := by omega
      refine hmoved (k+5) 0x00 ?_ ?_ rfl
      · rw [hbuf']
        show (checked'++0x00::rest')[k]? = _
        rw [List.getElem?_append_right (by omega), show k-checked'.length = 0 by omega]
        rfl
      · rw [hget, List.getElem?_append_right (by omega), show k-checked.length = 0 by omega]
        rfl

end

theorem hostFrame_carries (cmd : UInt8) (params rest : List UInt8)
    (hn : params.length ≤ pn532DataMax-2) :
    Carries (hostFrame cmd params++rest) (tfiHost::cmd::params) := by
  have hmax : pn532DataMax = 254 := rfl
  refine ⟨_,_,_,rest,rfl,?_,add_sub_cancel _ _,?_⟩
  · rw [UInt8.toNat_ofNat_of_lt' (by rw [show UInt8.size = 256 from rfl]; omega)]
    rfl
  · show params.foldl (·+·) (0+tfiHost+cmd)+(0-params.foldl (·+·) (tfiHost+cmd)) = 0
    rw [UInt8.zero_add]
    exact add_sub_cancel _ _

/-- A host frame is parsed as TFI, the command and the parameters, whatever follows it in the
buffer, and with any one of its bytes replaced it is not accepted. -/
theorem build_detects (cmd : UInt8) {n cap : ℕ} (params : Option (Buffer UInt8 n))
    (out : Buffer UInt8 cap) (hparams : 0 < n → params.isSome = true) (hn : n ≤ pn532DataMax-2)
    (hcap : n+2+pn532FrameOverhead ≤ cap) :
    ∃ frame : Buffer UInt8 cap,
      pn532FrameBuild cmd params out = .ok (n+2+pn532FrameOverhead,frame) ∧
      ∀ len, n+2+pn532FrameOverhead ≤ len →
        pn532FrameParse frame.val len = .ok (.data,some 5,n+2) ∧
        (frame.val.drop 5).take (n+2) = tfiHost::cmd::(params.map Subtype.val).getD [] ∧
        ∀ i < n+2+pn532FrameOverhead, ∀ b, frame.val[i]? ≠ some b → ∀ r,
          pn532FrameParse (frame.val.set i b) len ≠ .ok r := by
  have hover : pn532FrameOverhead = 7 := rfl
  generalize hbytes : (params.map Subtype.val).getD [] = bytes
  have hlength : bytes.length = n := by
    rw [← hbytes]
    cases params with
    | some bytes => exact bytes.property
    | none => exact (Nat.eq_zero_of_not_pos fun h => Bool.false_ne_true (hparams h)).symm
  have hframe : (hostFrame cmd bytes).length = n+2+pn532FrameOverhead := by
    simp [hostFrame, hlength, hover]
  have hgiven : ¬((0 < n && params.isNone) || pn532DataMax-2 < n ||
      cap < n+2+pn532FrameOverhead) = true := by
    simp only [Bool.or_eq_true, Bool.and_eq_true, decide_eq_true_eq, not_or, not_and]
    refine ⟨⟨fun hpos hnone => ?_,Nat.not_lt.mpr hn⟩,Nat.not_lt.mpr hcap⟩
    rw [Option.isNone_iff_eq_none] at hnone
    rw [hnone] at hparams
    exact Bool.false_ne_true (hparams hpos)
  obtain ⟨frame,hfill,hval⟩ := fill_ok Fault out (hostFrame cmd bytes) (by omega)
  have hcarries := hostFrame_carries cmd bytes (out.val.drop (hostFrame cmd bytes).length)
    (by omega)
  rw [← hval] at hcarries
  have hbody : (tfiHost::cmd::bytes).length = n+2 := congrArg (·+2) hlength
  refine ⟨frame,?_,fun len hlen => ⟨?_,?_,fun i hi b hb r => ?_⟩⟩
  · unfold pn532FrameBuild
    rw [if_neg hgiven, hbytes, hfill]
    rfl
  · rw [← hbody]
    exact parse_carries hcarries (by omega) (List.cons_ne_nil _ _) fun h => by cases h
  · rw [hval, ← hbody]
    show ((tfiHost::cmd::bytes)++_++_).take _ = _
    rw [List.append_assoc, List.take_left]
  · exact substitution_found hcarries (List.cons_ne_nil _ _) (by simp [tfiHost]) (by omega) hb

/-- InListPassiveTarget for one tag; a frame that asks for two after all is not accepted. -/
theorem build_detects_list :
    pn532FrameParse [0x00,0x00,0xFF,0x04,0xFC,0xD4,0x4A,0x01,0x00,0xE1,0x00,0x55] 11 =
      .ok (.data,some 5,4) ∧
    ∀ r, pn532FrameParse [0x00,0x00,0xFF,0x04,0xFC,0xD4,0x4A,0x02,0x00,0xE1,0x00,0x55] 11 ≠ .ok r := by
  obtain ⟨frame,hbuild,hparse⟩ := build_detects 0x4A (some (⟨[0x01,0x00],rfl⟩ : Buffer UInt8 2))
    ⟨List.replicate 12 0x55,rfl⟩ (fun _ => rfl) (by decide) (by decide)
  obtain ⟨hok,-,hset⟩ := hparse 11 (by decide)
  have hval : frame.val = [0x00,0x00,0xFF,0x04,0xFC,0xD4,0x4A,0x01,0x00,0xE1,0x00,0x55] :=
    (congrArg Subtype.val (Prod.mk.inj (Except.ok.inj hbuild)).2).symm
  rw [hval] at hok hset
  exact ⟨hok,hset 7 (by decide) 0x02 (by decide)⟩

end StarkOne.Pn532Detection
