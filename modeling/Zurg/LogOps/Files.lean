import Zurg.FileSystem
import Zurg.Control.Task

/-!
# Zurg.LogOps.Files — which files a log filter reads

`MakeRoot`, `ResolvePath` and `EnumerateCandidates` of `log_ops.cpp`.  What is tested against a root
passes exactly if its canonical path is below that of the root (`leavesRoot_eq_false`).
-/

namespace Zurg.LogOps

open Lib Proto

structure Root where
  enabled : Bool := false
  canonical : Path := ⟨[]⟩
  deriving DecidableEq, Repr

/-- `MakeRoot`. -/
def makeRoot (fs : FileSystem) (rootDir : String) : Option Root :=
  if rootDir = "" then some {}
  else
    match fs.weaklyCanonical (.ofString rootDir) with
    | none => none
    | some canonical => some { enabled := true, canonical := canonical }

/-- The test both `ResolvePath` and `FilterLogsToTemp` make when the root is enabled. -/
def leavesRoot (fs : FileSystem) (root : Root) (p : Path) : Bool :=
  match fs.relative p root.canonical with
  | none => true
  | some rel => rel.contains ['.', '.']

/-- `normalized` in `ResolvePath`: the canonical path, or that of the directory and the name. -/
def normalizePath (fs : FileSystem) (target : Path) : Option Path :=
  match fs.weaklyCanonical target with
  | some normalized => some normalized
  | none =>
    match fs.weaklyCanonical target.parentPath with
    | none => none
    | some parent => some (parent / ⟨target.filename⟩).lexicallyNormal

/-- `ResolvePath`. -/
def resolvePath (fs : FileSystem) (root : Root) (userPath : String) : Option Path :=
  let input := Path.ofString userPath
  let target := if !root.enabled || input.isAbsolute then input else root.canonical / input
  match normalizePath fs target with
  | none => none
  | some normalized =>
    if root.enabled && leavesRoot fs root normalized then none else some normalized

/-! ## Rotations -/

/-- What the `i`-th turn of the loop adds: `base.i`, and `stem.i.ext` if there is an extension. -/
def rotation (basePath : Path) (i : ℕ) : List Path :=
  let number := (toString i).toList
  ⟨basePath.chars ++ '.' :: number⟩ ::
    if basePath.extension = [] then []
    else [basePath.parentPath / ⟨basePath.stem ++ '.' :: number ++ basePath.extension⟩]

/-- The loop of `EnumerateCandidates`; `i` has 32 bits. -/
def rotationsFrom (basePath : Path) (depth : ℕ) : (fuel i : ℕ) → List Path → Option (List Path)
  | 0, _, _ => none
  | fuel + 1, i, candidates =>
    if i ≤ depth then
      rotationsFrom basePath depth fuel ((i + 1) % 2 ^ 32) (candidates ++ rotation basePath i)
    else some candidates

/-- `EnumerateCandidates`; `none` when its loop never ends: after `2 ^ 32` turns the counter has
taken every value. -/
def enumerateCandidates (basePath : Path) (includeRotations : Bool) (rotationDepth : ℕ) :
    Option (List Path) :=
  if !includeRotations then some [basePath]
  else
    let depth := if rotationDepth = 0 then 2 else rotationDepth
    rotationsFrom basePath depth (2 ^ 32) 1 [basePath]

/-! ## The root -/

variable {fs : FileSystem} {root : Root} {p c : Path} {rootDir userPath : String}

theorem canonical_of_makeRoot (h : makeRoot fs rootDir = some root) (hne : rootDir ≠ "") :
    root.enabled = true ∧ fs.weaklyCanonical (.ofString rootDir) = some root.canonical := by
  unfold makeRoot at h
  rw [if_neg hne] at h
  split at h
  · exact nomatch h
  · next canonical hc =>
    obtain rfl := Option.some.inj h
    exact ⟨rfl, hc⟩

theorem canonical_of_enabled (h : makeRoot fs rootDir = some root) (hon : root.enabled = true) :
    fs.weaklyCanonical (.ofString rootDir) = some root.canonical := by
  refine (canonical_of_makeRoot h ?_).2
  rintro rfl
  obtain rfl : ({} : Root) = root := Option.some.inj h
  exact nomatch hon

/-- A path that has a canonical form passes the test exactly if that is below the root. -/
theorem leavesRoot_eq_false (hfs : fs.Canonicalizes)
    (hroot : fs.weaklyCanonical root.canonical = some root.canonical) :
    leavesRoot fs root p = false ↔ ∃ c, fs.weaklyCanonical p = some c ∧ c.Below root.canonical := by
  unfold leavesRoot FileSystem.relative
  cases hc : fs.weaklyCanonical p with
  | none => simp
  | some c =>
    have hiff := Path.dotDot_notMem_iff (hfs.normal hc) (hfs.normal hroot)
    simp [hroot, ← hiff]

end Zurg.LogOps
