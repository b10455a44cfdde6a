import Mathlib.Data.List.Basic
import StarkOne.NumberedNames
import StarkOne.StoragePath

/-!
# Paths of files and of temporary files

A valid name is one component of a path, and the path shows the directory and
the name. A name that ends in the temporary suffix is refused, but only in
small letters, while a file system that ignores case takes ".TMP" for ".tmp".
-/

set_option autoImplicit false

namespace StarkOne.TemporaryNames
open StarkOne.NumberedNames StarkOne.StoragePath

structure Confined (root : CStr) (dir : StarkDir) (file path : CStr) : Prop where
  below : root <+: path
  parts : (path.drop root.length).splitOn '/' = [[],"stark".toList,storageDirName dir,file]
  inside : "..".toList ∉ (path.drop root.length).splitOn '/'

/-- No temporary file of an atomic write has this path, case ignored. -/
def NeverTemporary (root path : CStr) : Prop :=
  ∀ dir name outLen tmp, storagePathBuild root dir name true outLen = .ok tmp → lower tmp ≠ lower path

section
variable {root name path : CStr} {dir : StarkDir} {outLen : ℕ}

theorem storageNameValid_iff : storageNameValid name = true ↔
    (∃ c rest, name = c::rest ∧ c ≠ '.') ∧ name.length ≤ storageNameMax ∧ ¬tmpSuffix <:+ name ∧
      ∀ c ∈ name, nameChar c = true := by
  unfold storageNameValid
  rw [Bool.and_eq_true, Bool.and_eq_true, Bool.and_eq_true, decide_eq_true_eq, List.all_eq_true,
    Bool.not_eq_true', ← Bool.not_eq_true, List.isSuffixOf_iff_suffix, and_assoc, and_assoc]
  refine and_congr_left fun _ => ?_
  cases name with
  | nil => exact ⟨fun h => (by cases h),fun ⟨_,_,h,_⟩ => by cases h⟩
  | cons c rest =>
    show (c != '.') = true ↔ _
    rw [bne_iff_ne]
    constructor
    · exact fun h => ⟨c,rest,rfl,h⟩
    · rintro ⟨d,rest',heq,hd⟩
      cases heq
      exact hd

theorem separator_not_mem (h : storageNameValid name = true) : '/' ∉ name := by
  intro hmem
  exact absurd ((storageNameValid_iff.mp h).2.2.2 _ hmem) (by decide)

theorem build_confined {tmp : Bool} (h : storagePathBuild root dir name tmp outLen = .ok path) :
    Confined root dir (name++if tmp then tmpSuffix else []) path := by
  obtain ⟨hv,hpath⟩ := storagePathBuild_ok h
  obtain ⟨⟨c,rest,hname,hc⟩,-⟩ := storageNameValid_iff.mp hv
  generalize hfile : name++(if tmp then tmpSuffix else []) = file
  have hfree : '/' ∉ file := by
    rw [← hfile, List.mem_append, not_or]
    refine ⟨separator_not_mem hv,?_⟩
    cases tmp <;> decide
  have hdir : '/' ∉ storageDirName dir := by cases dir <;> decide
  have hdots : storageDirName dir ≠ "..".toList := by cases dir <;> decide
  have hjoin : path = root++[ '/'].intercalate [[],"stark".toList,storageDirName dir,file] := by
    rw [hpath, ← hfile]
    simp [List.intercalate]
  have hparts : (path.drop root.length).splitOn '/' =
      [[],"stark".toList,storageDirName dir,file] := by
    rw [hjoin, List.drop_left]
    refine List.splitOn_intercalate '/' ?_ (List.cons_ne_nil _ _)
    intro part hpart
    rcases List.mem_cons.mp hpart with rfl | hpart
    · decide
    rcases List.mem_cons.mp hpart with rfl | hpart
    · decide
    rcases List.mem_cons.mp hpart with rfl | hpart
    · exact hdir
    · rw [List.mem_singleton.mp hpart]
      exact hfree
  refine ⟨hjoin ▸ List.prefix_append _ _,hparts,?_⟩
  rw [hparts]
  simp only [List.mem_cons, List.not_mem_nil, or_false, not_or]
  refine ⟨by decide,by decide,hdots.symm,?_⟩
  rw [← hfile, hname]
  exact fun h => hc (List.cons.inj h).1.symm

theorem confined_inj {dir' : StarkDir} {file file' : CStr} (h : Confined root dir file path)
    (h' : Confined root dir' file' path) : dir' = dir ∧ file' = file := by
  have heq := h.parts.symm.trans h'.parts
  simp only [List.cons.injEq, true_and, and_true] at heq
  refine ⟨?_,heq.2.symm⟩
  have hdir := heq.1
  revert hdir
  cases dir <;> cases dir' <;> decide

theorem dot_of_toLower {c : Char} (h : c.toLower = '.') : c = '.' := by
  unfold Char.toLower at h
  split at h
  · rename_i hupper
    have hval := congrArg (fun d => d.val.toNat) h
    have hlow := UInt32.le_iff_toNat_le.mp hupper.1
    have hhigh := UInt32.le_iff_toNat_le.mp hupper.2
    simp at hval hlow hhigh
    omega
  · exact h

theorem temporary_of (h : storageNameValid name = true) (hs : tmpSuffix <:+ lower name) :
    ∃ stem, storageNameValid stem = true ∧ lower (stem++tmpSuffix) = lower name ∧
      stem.length+tmpSuffix.length = name.length := by
  obtain ⟨⟨c,rest,hname,hc⟩,hlen,-,hchars⟩ := storageNameValid_iff.mp h
  obtain ⟨low,hlow⟩ := hs
  obtain ⟨stem,ext,rfl,-,hext⟩ := List.map_eq_append_iff.mp hlow.symm
  have hextlen : ext.length = tmpSuffix.length := by
    rw [← hext, List.length_map]
  have hlower : lower tmpSuffix = tmpSuffix := by decide
  obtain ⟨c',rest',hstem⟩ : ∃ c' rest', stem = c'::rest' := by
    refine List.exists_cons_of_ne_nil ?_
    rintro rfl
    rw [List.nil_append] at hname
    rw [hname] at hext
    exact hc (dot_of_toLower (List.cons.inj hext).1)
  have hhead : c' = c := by
    rw [hstem] at hname
    exact (List.cons.inj hname).1
  rw [List.length_append] at hlen
  by_cases hstemtmp : tmpSuffix <:+ stem
  · -- The stem is refused as it is spelled, but not with its suffix in capitals.
    obtain ⟨before,hbefore⟩ := hstemtmp
    obtain ⟨d,before',hd⟩ : ∃ d before', before = d::before' := by
      refine List.exists_cons_of_ne_nil ?_
      rintro rfl
      rw [← hbefore] at hstem
      exact hc (hhead ▸ (List.cons.inj hstem).1.symm)
    have hcapital : ".TMP".toList.length = tmpSuffix.length := rfl
    have hstemlen : stem.length = before.length+tmpSuffix.length := by
      rw [← hbefore, List.length_append]
    refine ⟨before++".TMP".toList,storageNameValid_iff.mpr ⟨⟨d,before'++".TMP".toList,?_,?_⟩,?_,?_,?_⟩,
      ?_,?_⟩
    · rw [hd]
      rfl
    · rw [← hbefore, hd] at hstem
      rw [(List.cons.inj hstem).1, hhead]
      exact hc
    · rw [List.length_append]
      omega
    · intro htmp
      have := List.suffix_of_suffix_length_le htmp (List.suffix_append before ".TMP".toList) (by decide)
      exact absurd this (by decide)
    · intro x hx
      rcases List.mem_append.mp hx with hx | hx
      · exact hchars x (by rw [← hbefore]; simp [hx])
      · exact List.all_eq_true.mp (by decide : ".TMP".toList.all nameChar = true) x hx
    · simp only [lower, List.map_append, hext, ← hbefore]
      rfl
    · rw [List.length_append, List.length_append]
      omega
  · refine ⟨stem,storageNameValid_iff.mpr ⟨⟨c',rest',hstem,hhead ▸ hc⟩,by omega,hstemtmp,?_⟩,?_,?_⟩
    · exact fun x hx => hchars x (List.mem_append_left _ hx)
    · simp only [lower, List.map_append, hext]
      exact congrArg _ hlower
    · rw [List.length_append, hextlen]

/-- A name is a temporary file's, case ignored, exactly when it ends in the suffix, case ignored. -/
theorem never_temporary_iff (h : storagePathBuild root dir name false outLen = .ok path) :
    NeverTemporary root path ↔ ¬tmpSuffix <:+ lower name := by
  obtain ⟨hv,hlen,hpath⟩ := storagePathBuild_eq_ok.mp h
  rw [if_neg Bool.false_ne_true, List.append_nil] at hpath
  have hlower : lower path = lower (root++"/stark/".toList++storageDirName dir)++ '/'::lower name := by
    rw [hpath, lower, List.map_append]
    rfl
  constructor
  · intro hnever hs
    obtain ⟨stem,hstem,hsame,hlength⟩ := temporary_of hv hs
    refine hnever dir stem outLen _ (storagePathBuild_eq_ok.mpr ⟨hstem,?_,rfl⟩) ?_
    · rw [if_pos rfl]
      rw [hpath] at hlen
      simp only [List.length_append, List.length_cons] at hlen ⊢
      omega
    · rw [if_pos rfl, hlower, ← hsame, lower, List.map_append]
      rfl
  · intro hs dir' stem outLen' tmp htmp hsame
    obtain ⟨-,htmp⟩ := storagePathBuild_ok htmp
    have hend : tmpSuffix <:+ lower tmp := by
      rw [htmp, if_pos rfl, ← List.append_assoc, lower, List.map_append]
      exact List.suffix_append _ _
    rw [hsame, hlower] at hend
    exact hs ((suffix_last (by decide) _ _).mp hend)

/-- A file's path is one component below its directory, shows the directory and the name, and is
no temporary file's path, case ignored, exactly when the name does not end in the temporary suffix,
case ignored. -/
theorem paths_apart (h : storagePathBuild root dir name false outLen = .ok path) :
    Confined root dir name path ∧
    (∀ dir' name' outLen', storagePathBuild root dir' name' false outLen' = .ok path →
      dir' = dir ∧ name' = name) ∧
    (NeverTemporary root path ↔ ¬tmpSuffix <:+ lower name) := by
  have hhere := build_confined h
  rw [if_neg Bool.false_ne_true, List.append_nil] at hhere
  refine ⟨hhere,fun dir' name' outLen' h' => ?_,never_temporary_iff h⟩
  have hthere := build_confined h'
  rw [if_neg Bool.false_ne_true, List.append_nil] at hthere
  exact confined_inj hhere hthere

end

theorem paths_apart_capture : NeverTemporary "/sd".toList "/sd/stark/captures/x.bin".toList :=
  have h : storagePathBuild "/sd".toList .captures "x.bin".toList false storagePathMax =
    .ok "/sd/stark/captures/x.bin".toList := rfl
  (paths_apart h).2.2.mpr (by decide)

/-- The temporary file of "x" is the file "x.TMP". -/
theorem capital_suffix : storagePathBuild "/sd".toList .captures "x.TMP".toList false storagePathMax =
      .ok "/sd/stark/captures/x.TMP".toList ∧
    ¬NeverTemporary "/sd".toList "/sd/stark/captures/x.TMP".toList :=
  ⟨rfl,fun h => h .captures "x".toList storagePathMax "/sd/stark/captures/x.tmp".toList rfl
    (by decide)⟩

end StarkOne.TemporaryNames
