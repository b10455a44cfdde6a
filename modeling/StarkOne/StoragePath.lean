import Mathlib.Data.List.Basic
import StarkOne.StarkErr

/-!
# Names, paths and errno

A C string is the list of its characters. A path is built from a root, one of
four directories and a valid name; the temporary name of an atomic write adds
a suffix that no valid name ends in.
-/

set_option autoImplicit false

namespace StarkOne.StoragePath

abbrev CStr := List Char

def storageNameMax : ℕ := 32
def storagePathMax : ℕ := 80

inductive StarkDir where
  | captures
  | logs
  | apps
  | config
  deriving DecidableEq, Repr

def storageDirName : StarkDir → CStr
  | .captures => "captures".toList
  | .logs => "logs".toList
  | .apps => "apps".toList
  | .config => "config".toList

def tmpSuffix : CStr := ".tmp".toList

def nameChar (c : Char) : Bool :=
  ('a' ≤ c && c ≤ 'z') || ('A' ≤ c && c ≤ 'Z') || ('0' ≤ c && c ≤ '9') ||
    c == '.' || c == '_' || c == '-'

def storageNameValid (name : CStr) : Bool :=
  name.head?.any (· != '.') && name.length ≤ storageNameMax && !tmpSuffix.isSuffixOf name &&
    name.all nameChar

def storageDirPath (root : CStr) (dir : StarkDir) (outLen : ℕ) : Except Fault CStr :=
  let out := root ++ "/stark/".toList ++ storageDirName dir
  if out.length < outLen then .ok out else .error .invalidArg

def storagePathBuild (root : CStr) (dir : StarkDir) (name : CStr) (tmp : Bool) (outLen : ℕ) :
    Except Fault CStr :=
  if !storageNameValid name then .error .invalidArg
  else do
    let out ← storageDirPath root dir outLen
    let tail := '/'::name ++ (if tmp then tmpSuffix else [])
    if tail.length < outLen-out.length then .ok (out ++ tail) else .error .invalidArg

inductive Errno where
  | enospc
  | enoent
  | eexist
  | einval
  | enametoolong
  | other (code : ℕ)
  deriving DecidableEq, Repr

def storageMapErrno : Errno → StarkErr
  | .enospc => .noSpace
  | .enoent => .notFound
  | .eexist => .state
  | .einval | .enametoolong => .invalidArg
  | .other _ => .io

theorem storageMapErrno_ne_ok (e : Errno) : storageMapErrno e ≠ .ok := by
  cases e <;> exact StarkErr.noConfusion

theorem storageNameValid_tmp {name : CStr} (h : storageNameValid name = true) :
    ¬tmpSuffix <:+ name := by
  simp only [storageNameValid, Bool.and_eq_true, Bool.not_eq_true'] at h
  exact fun hs => by simp [List.isSuffixOf_iff_suffix.mpr hs] at h

theorem storagePathBuild_eq_ok {root : CStr} {dir : StarkDir} {name path : CStr} {tmp : Bool}
    {outLen : ℕ} : storagePathBuild root dir name tmp outLen = .ok path ↔
      storageNameValid name = true ∧ path.length < outLen ∧
        path = root ++ "/stark/".toList ++ storageDirName dir ++
          ('/'::name ++ (if tmp then tmpSuffix else [])) := by
  unfold storagePathBuild storageDirPath
  by_cases hv : storageNameValid name = true
  swap
  · simp [hv]
  generalize '/'::name ++ (if tmp = true then tmpSuffix else []) = tail
  generalize root ++ "/stark/".toList ++ storageDirName dir = out
  rw [hv, Bool.not_true, if_neg Bool.false_ne_true]
  by_cases hout : out.length < outLen
  · rw [if_pos hout]
    show (if tail.length < outLen-out.length then Except.ok (out++tail)
      else .error Fault.invalidArg) = _ ↔ _
    by_cases htail : tail.length < outLen-out.length
    · rw [if_pos htail]
      constructor
      · rintro h
        cases h
        exact ⟨rfl,by rw [List.length_append]; omega,rfl⟩
      · rintro ⟨-,-,rfl⟩
        rfl
    · rw [if_neg htail]
      refine ⟨fun h => (by cases h),?_⟩
      rintro ⟨-,hlen,rfl⟩
      rw [List.length_append] at hlen
      omega
  · rw [if_neg hout]
    refine ⟨fun h => (by cases h),?_⟩
    rintro ⟨-,hlen,rfl⟩
    rw [List.length_append] at hlen
    omega

/-- A built path is the root, the directory and a valid name. -/
theorem storagePathBuild_ok {root : CStr} {dir : StarkDir} {name path : CStr} {tmp : Bool}
    {outLen : ℕ} (h : storagePathBuild root dir name tmp outLen = .ok path) :
    storageNameValid name = true ∧ path = root ++ "/stark/".toList ++ storageDirName dir ++
      ('/'::name ++ (if tmp then tmpSuffix else [])) :=
  have h := storagePathBuild_eq_ok.mp h
  ⟨h.1,h.2.2⟩

theorem suffix_last {α : Type} {c : α} {suffix : List α} (hc : c ∉ suffix) (before last : List α) :
    suffix <:+ before ++ c::last ↔ suffix <:+ last := by
  constructor
  · intro h
    rcases List.suffix_or_suffix_of_suffix h (List.suffix_append before (c::last)) with h | h
    · rcases List.suffix_cons_iff.mp h with rfl | h
      · exact absurd List.mem_cons_self hc
      · exact h
    · exact absurd (h.mem List.mem_cons_self) hc
  · exact fun h => h.trans ((List.suffix_cons _ _).trans (List.suffix_append _ _))

theorem tmp_ne_final {root : CStr} {dir : StarkDir} {name path tmp : CStr} {n : ℕ}
    (hp : storagePathBuild root dir name false n = .ok path)
    (ht : storagePathBuild root dir name true n = .ok tmp) : tmp ≠ path := by
  intro h
  have h₁ := (storagePathBuild_ok hp).2
  have h₂ := (storagePathBuild_ok ht).2
  have := congrArg List.length h
  rw [h₁, h₂] at this
  simp [tmpSuffix] at this

/-- The final name of a file is no temporary name in any directory. -/
theorem final_not_tmp {root : CStr} {dir : StarkDir} {name path : CStr} {n : ℕ}
    (hp : storagePathBuild root dir name false n = .ok path) : ¬tmpSuffix <:+ path := by
  obtain ⟨hv,rfl⟩ := storagePathBuild_ok hp
  rw [if_neg Bool.false_ne_true, List.append_nil, suffix_last (by decide)]
  exact storageNameValid_tmp hv

end StarkOne.StoragePath
