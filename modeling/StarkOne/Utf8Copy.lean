import StarkOne.Utf8

/-!
# Copies that fit

A string is copied into a buffer of some capacity. What does not fit is cut
off, and a code point that the cut goes through with it.
-/

set_option autoImplicit false

namespace StarkOne.Utf8Copy
open StarkOne.Utf8

def dropConts (src : List UInt8) : ℕ → ℕ
  | 0 => 0
  | n+1 => if isCont (src.getD n 0) then dropConts src n else n+1

def fitting (cap : ℕ) (src : List UInt8) : ℕ :=
  let n := src.length
  if cap-1 < n then
    let n := cap-1
    if 0x80 ≤ src.getD n 0 && isCont (src.getD n 0) then
      let n := dropConts src n
      -- the byte that the sequence starts with
      if 0 < n && 0xC0 ≤ src.getD (n-1) 0 then n-1 else n
    else n
  else n

def uiUtf8Copy (dst : List UInt8) (cap : ℕ) (src : Option (List UInt8)) : List UInt8 × ℕ :=
  let src := src.getD []
  let n := fitting cap src
  ((src.take n++dst.drop n).set n 0,n)

theorem dropConts_spec (src : List UInt8) (n : ℕ) : dropConts src n ≤ n ∧
    (∀ k, dropConts src n ≤ k → k < n → isCont (src.getD k 0) = true) ∧
    (0 < dropConts src n → isCont (src.getD (dropConts src n-1) 0) = false) := by
  induction n with
  | zero =>
    exact ⟨Nat.le_refl _,fun k _ hk => absurd hk (Nat.not_lt_zero k),fun h => absurd h (Nat.lt_irrefl 0)⟩
  | succ n ih =>
    obtain ⟨hle,hconts,hbefore⟩ := ih
    unfold dropConts
    by_cases hcont : isCont (src.getD n 0) = true
    · rw [if_pos hcont]
      refine ⟨Nat.le_succ_of_le hle,fun k hlow hk => ?_,hbefore⟩
      rcases Nat.lt_succ_iff_lt_or_eq.mp hk with hlt | rfl
      · exact hconts k hlow hlt
      · exact hcont
    · rw [if_neg hcont]
      refine ⟨Nat.le_refl _,fun k hlow hk => absurd hk (Nat.not_lt.mpr hlow),fun _ => ?_⟩
      simpa using hcont

section
variable {src : List UInt8} {n : ℕ}

/-- A cut in front of a continuation byte goes back to the start of its code point. -/
theorem dropConts_whole (h : Valid src) (hn : n < src.length) (hcont : isCont (src.getD n 0) = true) :
    0 < dropConts src n ∧ 0xC0 ≤ src.getD (dropConts src n-1) 0 ∧
      IsGreatest {m | Whole src m ∧ m ≤ n} (dropConts src n-1) := by
  obtain ⟨hle,hconts,hbefore⟩ := dropConts_spec src n
  -- the byte at the position reached is a continuation byte too
  have hat : isCont (src.getD (dropConts src n) 0) = true := by
    rcases Nat.eq_or_lt_of_le hle with heq | hlt
    · rw [heq]
      exact hcont
    · exact hconts _ (Nat.le_refl _) hlt
  have hpos : 0 < dropConts src n := by
    rcases Nat.eq_zero_or_pos (dropConts src n) with hz | hpos
    · rw [hz, h.first] at hat
      cases hat
    · exact hpos
  have hclear := hbefore hpos
  have hlead : 0xC0 ≤ src.getD (dropConts src n-1) 0 := by
    have hat' : isCont (src.getD (dropConts src n-1+1) 0) = true := by
      rwa [Nat.sub_add_cancel hpos]
    rcases h.before hat' with hc | hlead
    · rw [hclear] at hc
      cases hc
    · exact hlead
  refine ⟨hpos,hlead,⟨(whole_iff h (by omega)).mpr hclear,by omega⟩,fun m hm => ?_⟩
  obtain ⟨hwhole,hmn⟩ := hm
  by_contra hlt
  have hno := (whole_iff h hwhole.1).mp hwhole
  have hyes : isCont (src.getD m 0) = true := by
    rcases Nat.eq_or_lt_of_le hmn with rfl | hlt'
    · exact hcont
    · exact hconts m (by omega) hlt'
  rw [hyes] at hno
  cases hno

theorem whole_length (h : Valid src) : Whole src src.length := by
  refine ⟨Nat.le_refl _,?_,?_⟩
  · rw [List.take_length]
    exact h
  · rw [List.drop_length]
    exact valid_nil

theorem fitting_greatest (h : Valid src) (cap : ℕ) :
    IsGreatest {m | Whole src m ∧ m ≤ cap-1} (fitting cap src) := by
  unfold fitting
  dsimp only
  by_cases hlong : cap-1 < src.length
  · rw [if_pos hlong]
    by_cases hcont : isCont (src.getD (cap-1) 0) = true
    · obtain ⟨hpos,hlead,hgreatest⟩ := dropConts_whole h hlong hcont
      rw [if_pos (Bool.and_eq_true_iff.mpr ⟨decide_eq_true (isCont_high hcont),hcont⟩),
        if_pos (Bool.and_eq_true_iff.mpr ⟨decide_eq_true hpos,decide_eq_true hlead⟩)]
      exact hgreatest
    · rw [if_neg fun hc => hcont (Bool.and_eq_true_iff.mp hc).2]
      exact ⟨⟨(whole_iff h hlong.le).mpr (by simpa using hcont),Nat.le_refl _⟩,fun m hm => hm.2⟩
  · rw [if_neg hlong]
    exact ⟨⟨whole_length h,Nat.not_lt.mp hlong⟩,fun m hm => hm.1.1⟩

end

/-- The copy is the longest part of the string that ends with a code point and leaves room for
the NUL, which comes right after it. -/
theorem copy_longest {src : List UInt8} (h : Valid src) {cap : ℕ} (hcap : 1 ≤ cap)
    (dst : List UInt8) (hdst : cap ≤ dst.length) :
    IsGreatest {n | Whole src n ∧ n ≤ cap-1} (uiUtf8Copy dst cap (some src)).2 ∧
      (uiUtf8Copy dst cap (some src)).2 < cap ∧
      (uiUtf8Copy dst cap (some src)).1 =
        src.take (uiUtf8Copy dst cap (some src)).2++
          0::dst.drop ((uiUtf8Copy dst cap (some src)).2+1) := by
  obtain ⟨⟨hwhole,hle⟩,-⟩ := fitting_greatest h cap
  have hlen : (src.take (fitting cap src)).length = fitting cap src := by
    rw [List.length_take, Nat.min_eq_left hwhole.1]
  refine ⟨fitting_greatest h cap,?_,?_⟩
  · show fitting cap src < cap
    omega
  · show (src.take (fitting cap src)++dst.drop (fitting cap src)).set (fitting cap src) 0 = _
    have hcons : dst.drop (fitting cap src) = dst[fitting cap src]::dst.drop (fitting cap src+1) :=
      List.drop_eq_getElem_cons (by omega)
    rw [List.set_append_right _ _ hlen.le, hlen, Nat.sub_self, hcons]
    rfl

/-- The last two bytes are one code point, for the second of which there is no room. -/
theorem copy_longest_cut : (uiUtf8Copy (List.replicate 8 0xFF) 8 (some (encode "abcdefŞ".toList))).2 = 6 ∧
    IsGreatest {n | Whole (encode "abcdefŞ".toList) n ∧ n ≤ 8-1}
      (uiUtf8Copy (List.replicate 8 0xFF) 8 (some (encode "abcdefŞ".toList))).2 :=
  ⟨by decide +kernel,
    (copy_longest ⟨"abcdefŞ".toList,rfl⟩ (by decide) (List.replicate 8 0xFF) (by decide)).1⟩

end StarkOne.Utf8Copy
