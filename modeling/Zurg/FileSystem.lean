import Mathlib.Algebra.Order.Ring.Int
import Zurg.Lib.Path
import Zurg.Proto

/-!
# Zurg.FileSystem — files, and what the process finds in the file system

The directory tree does not change during a call; the temp file a call creates is kept apart from
it.  Opening, creating, writing and closing may fail; a file that has been opened is read to its end.
A write that reports success has taken its bytes, but the end of what has been taken may still be in
the buffer of the stream: only closing it puts all bytes into the file, and may lose some of them.
-/

namespace Zurg

open Lib Proto

/-- Conversion to `std::int64_t`, and the result of its arithmetic. -/
def int64 (x : ℤ) : ℤ := x.bmod (2 ^ 64)

theorem int64_of_lt {n : ℕ} (h : n < 2 ^ 63) : int64 n = n := by
  rw [int64, Int.bmod_eq_of_le] <;> omega

theorem int64_add (x y : ℤ) : int64 (int64 x + y) = int64 (x + y) := Int.bmod_add_bmod

/-- The bytes of a file; `off_t` bounds their number. -/
structure File where
  bytes : Bytes
  size_lt : bytes.length < 2 ^ 63
  deriving DecidableEq, Repr

namespace File

def empty : File := ⟨[], by decide⟩

def append (f : File) (data : Bytes) : Option File :=
  if h : (f.bytes ++ data).length < 2 ^ 63 then some ⟨f.bytes ++ data, h⟩ else none

/-- What is left of a file when an operation on it has failed: at most `k` bytes from its beginning,
and not all of them. -/
def cut (f : File) (k : ℕ) : File :=
  ⟨f.bytes.take (min k (f.bytes.length - 1)), (List.length_take_le' _ _).trans_lt f.size_lt⟩

variable {f g : File} {data : Bytes} {k : ℕ}

theorem length_cut (h : f.bytes ≠ []) : (f.cut k).bytes.length < f.bytes.length := by
  have hpos := List.length_pos_iff.mpr h
  rw [cut, List.length_take]
  omega

theorem cut_prefix : (f.cut k).bytes <+: f.bytes := List.take_prefix _ _

theorem bytes_of_append (h : f.append data = some g) : g.bytes = f.bytes ++ data := by
  unfold append at h
  split_ifs at h
  rw [← Option.some.inj h]

end File

structure FileSystem where
  /-- `weakly_canonical`; `none` when it sets its error code. -/
  weaklyCanonical : Path → Option Path
  /-- `exists`, which throws when the status of the file cannot be determined. -/
  existsAt : Path → Except String Bool
  /-- What an `ifstream` reads, if it can be opened. -/
  openRead : Path → Option File
  tempDirectoryPath : Except String Path
  /-- The message of the error code `create_directories` sets. -/
  createDirectories : Path → Option String
  /-- The answers of `GenerateSuffix`. -/
  suffixes : ℕ → String
  /-- A temp file can be created. -/
  openWrite : Path → Bool
  /-- How many bytes the temp file has at most when its `n`-th write has failed, if it does. -/
  failedWrites : ℕ → Option ℕ
  /-- How many it has at most when closing it has lost some, if it does. -/
  failedClose : Option ℕ
  /-- A temp file can be opened again. -/
  reopen : Path → Bool

namespace FileSystem

variable (fs : FileSystem)

/-- `relative`: the elements of the relative path. -/
def relative (p base : Path) : Option (List (List Char)) :=
  match fs.weaklyCanonical p with
  | none => none
  | some c =>
    match fs.weaklyCanonical base with
    | none => none
    | some b => some (c.lexicallyRelative b)

/-- `weakly_canonical` gives absolute paths free of `.`, `..` and links it can resolve. -/
structure Canonicalizes : Prop where
  normal : ∀ {p c}, fs.weaklyCanonical p = some c → c.Normal
  idem : ∀ {p c}, fs.weaklyCanonical p = some c → fs.weaklyCanonical c = some c

end FileSystem

/-- An `ofstream` on a temp file. -/
structure OutStream where
  /-- The bytes taken, in the file and, at the end, in the buffer. -/
  taken : File := .empty
  /-- The number of writes attempted. -/
  writes : ℕ := 0
  good : Bool := true
  deriving DecidableEq, Repr

/-- `write`.  A write that fails leaves out at least one of the bytes taken, one that would make the
file too long its data; after it nothing is written. -/
def OutStream.write (fs : FileSystem) (out : OutStream) (data : Bytes) : OutStream :=
  if !out.good then out
  else
    match fs.failedWrites out.writes, out.taken.append data with
    | none, some all => { out with taken := all, writes := out.writes + 1 }
    | some k, some all => { taken := all.cut k, writes := out.writes + 1, good := false }
    | _, none => { out with writes := out.writes + 1, good := false }

/-- `close`, or the destructor: what is in the file then.  It writes the buffer out, and may lose
bytes then. -/
def OutStream.close (fs : FileSystem) (out : OutStream) : File :=
  if !out.good then out.taken
  else
    match fs.failedClose with
    | none => out.taken
    | some k => out.taken.cut k

namespace OutStream

variable {fs : FileSystem} {out : OutStream} {data : Bytes}

/-- What a write needs to succeed. -/
theorem good_write_iff : (out.write fs data).good = true ↔ out.good = true ∧
    fs.failedWrites out.writes = none ∧ (out.taken.bytes ++ data).length < 2 ^ 63 := by
  unfold write File.append
  by_cases hg : out.good = true
  · rw [hg, Bool.not_true, if_neg Bool.false_ne_true]
    by_cases hsize : (out.taken.bytes ++ data).length < 2 ^ 63
    · rw [dif_pos hsize]
      cases fs.failedWrites out.writes with
      | some k => exact iff_of_false Bool.false_ne_true fun h => absurd h.2.1 (by simp)
        | none => exact iff_of_true rfl ⟨rfl, rfl, hsize⟩
    · rw [dif_neg hsize]
      refine iff_of_false ?_ fun h => hsize h.2.2
      cases fs.failedWrites out.writes <;> exact Bool.false_ne_true
  · rw [Bool.eq_false_of_not_eq_true hg, Bool.not_false, if_pos rfl]
    exact iff_of_false hg fun h => Bool.false_ne_true h.1

theorem bytes_of_write (h : (out.write fs data).good = true) :
    out.good = true ∧ (out.write fs data).taken.bytes = out.taken.bytes ++ data := by
  obtain ⟨hg, hf, hsize⟩ := good_write_iff.mp h
  refine ⟨hg, ?_⟩
  have happend : out.taken.append data = some ⟨out.taken.bytes ++ data, hsize⟩ := dif_pos hsize
  simp [write, hg, hf, happend]

/-- A failed write leaves something out. -/
theorem length_of_failed {k : ℕ} (h : fs.failedWrites out.writes = some k) (hdata : data ≠ []) :
    (out.write fs data).taken.bytes.length < out.taken.bytes.length + data.length := by
  have hpos := List.length_pos_iff.mpr hdata
  unfold write
  by_cases hg : out.good = true
  · rw [hg, Bool.not_true, if_neg Bool.false_ne_true, h]
    cases ha : out.taken.append data with
    | none =>
      dsimp only
      omega
    | some all =>
      have hall := File.bytes_of_append ha
      have hne : all.bytes ≠ [] := by
        rw [hall]
        exact List.append_ne_nil_of_right_ne_nil _ hdata
      have hcut := @File.length_cut all k hne
      rw [hall, List.length_append] at hcut
      exact hcut
  · rw [Bool.eq_false_of_not_eq_true hg, Bool.not_false, if_pos rfl]
    omega

/-! ## Closing -/

theorem close_of_none (h : fs.failedClose = none) : out.close fs = out.taken := by
  rw [close, h]
  exact ite_self _

theorem close_prefix : (out.close fs).bytes <+: out.taken.bytes := by
  unfold close
  split_ifs
  · exact List.prefix_rfl
  · split
    · exact List.prefix_rfl
    · exact File.cut_prefix

/-- All bytes are in the file exactly if closing it has lost none, or there are none. -/
theorem close_iff (hg : out.good = true) :
    (out.close fs).bytes = out.taken.bytes ↔ fs.failedClose = none ∨ out.taken.bytes = [] := by
  rw [close, hg, Bool.not_true, if_neg Bool.false_ne_true]
  cases fs.failedClose with
  | none => exact iff_of_true rfl (.inl rfl)
  | some k =>
    rw [or_iff_right (by simp)]
    constructor
    · intro heq
      by_contra hne
      exact absurd (congrArg List.length heq) (File.length_cut hne).ne
    · intro hnil
      exact List.prefix_nil.mp (hnil ▸ File.cut_prefix) |>.trans hnil.symm

end OutStream

end Zurg
