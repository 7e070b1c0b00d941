import Mathlib.Data.List.Range
import Zurg.LogOps.Files

/-!
# Zurg.LogOps.Rotations — the candidates of `EnumerateCandidates`

The list the loop builds, unless it never ends (`enumerates_iff`), and the names in it: two
candidates have the same name only if the extension of the base path is the number of their
rotation (`numbered_of_duplicate`).
-/

namespace Zurg.LogOps

open Lib

/-- `std::to_string`. -/
def digits (n : ℕ) : List Char := (toString n).toList

/-- `base.n`. -/
def numbered (basePath : Path) (n : ℕ) : Path := ⟨basePath.chars ++ '.' :: digits n⟩

/-- `stem.n.ext`. -/
def rotated (basePath : Path) (n : ℕ) : Path :=
  basePath.parentPath / ⟨basePath.stem ++ '.' :: digits n ++ basePath.extension⟩

/-- The depth that is used. -/
def effectiveDepth (rotationDepth : ℕ) : ℕ := if rotationDepth = 0 then 2 else rotationDepth

variable {base : Path} {depth n m : ℕ} {p : Path} {candidates : List Path}

theorem rotation_eq (base : Path) (n : ℕ) : rotation base n =
    numbered base n :: if base.extension = [] then [] else [rotated base n] := rfl

/-! ## The list -/

theorem rotationsFrom_eq (hd : depth < 2 ^ 32 - 1) :
    ∀ {fuel i : ℕ}, i ≤ depth + 1 → depth + 2 ≤ fuel + i → ∀ acc,
      rotationsFrom base depth fuel i acc =
        some (acc ++ (List.range' i (depth + 1 - i)).flatMap (rotation base)) := by
  intro fuel
  induction fuel with
  | zero =>
    intro i hi hfuel
    omega
  | succ fuel ih =>
    intro i hi hfuel acc
    rw [rotationsFrom]
    split_ifs with hle
    · rw [Nat.mod_eq_of_lt (by omega), ih (by omega) (by omega),
        show depth + 1 - i = depth + 1 - (i + 1) + 1 by omega, List.range'_succ,
        List.flatMap_cons, List.append_assoc]
    · rw [show depth + 1 - i = 0 by omega, List.range'_zero, List.flatMap_nil, List.append_nil]

/-- With the greatest depth the counter wraps around before it exceeds it. -/
theorem rotationsFrom_eq_none (hd : 2 ^ 32 - 1 ≤ depth) :
    ∀ {fuel i : ℕ}, i < 2 ^ 32 → ∀ acc, rotationsFrom base depth fuel i acc = none := by
  intro fuel
  induction fuel with
  | zero => exact fun _ _ => rfl
  | succ fuel ih =>
    intro i hi acc
    rw [rotationsFrom, if_pos (by omega)]
    exact ih (Nat.mod_lt _ (by decide)) _

/-- What `EnumerateCandidates` returns. -/
theorem enumerateCandidates_eq (h : effectiveDepth depth < 2 ^ 32 - 1) :
    enumerateCandidates base true depth =
      some (base :: (List.range' 1 (effectiveDepth depth)).flatMap (rotation base)) := by
  have hlist : rotationsFrom base (effectiveDepth depth) (2 ^ 32) 1 [base] =
      some ([base] ++
        (List.range' 1 (effectiveDepth depth + 1 - 1)).flatMap (rotation base)) :=
    rotationsFrom_eq h (by omega) (by omega) [base]
  exact hlist

theorem enumerateCandidates_some (h : enumerateCandidates base true depth = some candidates) :
    effectiveDepth depth < 2 ^ 32 - 1 ∧
      candidates = base :: (List.range' 1 (effectiveDepth depth)).flatMap (rotation base) := by
  by_cases hd : effectiveDepth depth < 2 ^ 32 - 1
  · rw [enumerateCandidates_eq hd] at h
    exact ⟨hd, (Option.some.inj h).symm⟩
  · exact nomatch (rotationsFrom_eq_none (Nat.le_of_not_lt hd) (by decide) _).symm.trans h

/-! ## When the loop ends -/

/-- What `EnumerateCandidates` is for: its loop ends, with the base path and the names of every
rotation up to the depth, in their order and no others. -/
structure Enumerates (basePath : Path) (rotationDepth : ℕ) : Prop where
  ends : ∃ fuel,
    rotationsFrom basePath (effectiveDepth rotationDepth) fuel 1 [basePath] ≠ none
  names : enumerateCandidates basePath true rotationDepth =
    some (basePath :: (List.range' 1 (effectiveDepth rotationDepth)).flatMap fun i =>
      if basePath.extension = [] then [numbered basePath i]
      else [numbered basePath i, rotated basePath i])
  count : ∀ {candidates}, enumerateCandidates basePath true rotationDepth = some candidates →
    candidates.length = if basePath.extension = [] then 1 + effectiveDepth rotationDepth
      else 1 + 2 * effectiveDepth rotationDepth

theorem rotation_eq_names (base : Path) : rotation base = fun i =>
    if base.extension = [] then [numbered base i] else [numbered base i, rotated base i] := by
  funext i
  rw [rotation_eq]
  by_cases hext : base.extension = []
  · rw [if_pos hext, if_pos hext]
  · rw [if_neg hext, if_neg hext]

theorem length_rotation (base : Path) (i : ℕ) :
    (rotation base i).length = if base.extension = [] then 1 else 2 := by
  rw [rotation_eq_names]
  split_ifs
  · rfl
  · rfl

theorem length_candidates (base : Path) (depth : ℕ) :
    (base :: (List.range' 1 depth).flatMap (rotation base)).length =
      if base.extension = [] then 1 + depth else 1 + 2 * depth := by
  have hsum : ((List.range' 1 depth).map fun i => (rotation base i).length).sum =
      depth * if base.extension = [] then 1 else 2 := by
    simp only [length_rotation, List.map_const', List.sum_replicate_nat, List.length_range']
  rw [List.length_cons, List.length_flatMap, hsum]
  split_ifs
  · omega
  · omega

theorem effectiveDepth_lt_iff (hd : depth < 2 ^ 32) :
    effectiveDepth depth < 2 ^ 32 - 1 ↔ depth ≠ 2 ^ 32 - 1 := by
  unfold effectiveDepth
  split_ifs <;> omega

/-- **The loop ends, with every candidate, unless the depth is the greatest number of its counter.**
That one its counter cannot exceed. -/
theorem enumerates_iff (base : Path) (hd : depth < 2 ^ 32) :
    Enumerates base depth ↔ depth ≠ 2 ^ 32 - 1 := by
  rw [← effectiveDepth_lt_iff hd]
  constructor
  · rintro ⟨⟨fuel, hends⟩, -, -⟩
    by_contra hmax
    exact hends (rotationsFrom_eq_none (Nat.le_of_not_lt hmax) (by decide) _)
  · intro hlt
    have hnames : enumerateCandidates base true depth =
        some (base :: (List.range' 1 (effectiveDepth depth)).flatMap (rotation base)) :=
      enumerateCandidates_eq hlt
    refine ⟨⟨2 ^ 32, ?_⟩, ?_, ?_⟩
    · rw [rotationsFrom_eq hlt (by omega) (by omega)]
      exact Option.some_ne_none _
    · rw [← rotation_eq_names]
      exact hnames
    · intro candidates hcandidates
      obtain rfl := Option.some.inj (hcandidates.symm.trans hnames)
      exact length_candidates base _

/-- Two rotations of a log with an extension. -/
theorem enumerates_iff_agentLog : Enumerates (.ofString "/var/log/agent.log") 2 :=
  (enumerates_iff _ (by decide)).mpr (by decide)

/-- With the depth 4294967295 no number of turns ends the loop. -/
theorem enumerate_never_ends :
    (∀ fuel, rotationsFrom (.ofString "/var/log/agent.log") (effectiveDepth 4294967295) fuel 1
      [.ofString "/var/log/agent.log"] = none) ∧
    ¬ ∀ (base : Path) (depth : ℕ), depth < 2 ^ 32 → Enumerates base depth := by
  have hnone : ∀ fuel, rotationsFrom (.ofString "/var/log/agent.log") (effectiveDepth 4294967295)
      fuel 1 [.ofString "/var/log/agent.log"] = none := by
    intro fuel
    exact rotationsFrom_eq_none (by decide) (by decide) _
  refine ⟨hnone, ?_⟩
  intro h
  obtain ⟨fuel, hends⟩ := (h (.ofString "/var/log/agent.log") 4294967295 (by decide)).ends
  exact hends (hnone fuel)

/-! ## Names -/

theorem digits_eq (n : ℕ) : digits n = Nat.toDigits 10 n := Nat.toList_repr

theorem digits_injective (h : digits n = digits m) : n = m := by
  rw [digits_eq, digits_eq] at h
  calc n = Nat.ofDigitChars 10 (Nat.toDigits 10 n) 0 := Nat.ofDigitChars_ten_toDigits.symm
    _ = Nat.ofDigitChars 10 (Nat.toDigits 10 m) 0 := by rw [h]
    _ = m := Nat.ofDigitChars_ten_toDigits

theorem notMem_digits {c : Char} (hc : c.isDigit = false) : c ∉ digits n := by
  intro h
  rw [digits_eq] at h
  exact nomatch hc.symm.trans (Nat.isDigit_of_mem_toDigits (by decide) (by decide) h)

theorem filename_numbered (base : Path) (n : ℕ) :
    (numbered base n).filename = base.filename ++ '.' :: digits n :=
  Path.filename_append (by simpa using notMem_digits (by decide))

theorem slash_notMem_name (base : Path) (n : ℕ) :
    '/' ∉ base.stem ++ '.' :: digits n ++ base.extension := by
  have hname := base.slash_notMem_filename
  rw [← Path.stem_append_extension, List.mem_append, not_or] at hname
  have hdigits : '/' ∉ digits n := notMem_digits (by decide)
  simp [hname.1, hname.2, hdigits]

theorem filename_rotated (base : Path) (n : ℕ) :
    (rotated base n).filename = base.stem ++ '.' :: digits n ++ base.extension :=
  Path.filename_div (slash_notMem_name base n)

theorem numbered_injective (h : numbered base n = numbered base m) : n = m := by
  have hchars := congrArg Path.chars h
  simp only [numbered, List.append_cancel_left_eq, List.cons.injEq, true_and] at hchars
  exact digits_injective hchars

theorem rotated_injective (h : rotated base n = rotated base m) : n = m := by
  have hname := congrArg Path.filename h
  rw [filename_rotated, filename_rotated, List.append_cancel_right_eq, List.append_cancel_left_eq,
    List.cons.injEq] at hname
  exact digits_injective hname.2

/-- `base.n` and `stem.m.ext` are one name only if the extension is that number. -/
theorem extension_of_numbered_eq_rotated (hext : base.extension ≠ [])
    (h : numbered base n = rotated base m) : n = m ∧ base.extension = '.' :: digits n := by
  obtain ⟨e, he, hdot⟩ := base.extension_cases.resolve_left hext
  have hname := congrArg Path.filename h
  rw [filename_numbered, filename_rotated, ← Path.stem_append_extension, he] at hname
  simp only [List.append_assoc, List.cons_append, List.append_cancel_left_eq, List.cons.injEq,
    true_and] at hname
  have hdigits : '.' ∉ digits n := notMem_digits (by decide)
  obtain ⟨rfl, -, hn⟩ := (List.append_cons_inj_of_notMem hdot hdigits).mp hname
  exact ⟨digits_injective hn, by rw [he, hn]⟩

theorem ne_numbered (base : Path) (n : ℕ) : base ≠ numbered base n := by
  intro h
  have hlen := congrArg (List.length ∘ Path.chars) h
  simp [numbered] at hlen

theorem ne_rotated (base : Path) (n : ℕ) : base ≠ rotated base n := by
  intro h
  have hlen := congrArg (List.length ∘ Path.filename) h
  simp only [Function.comp_apply, filename_rotated, ← base.stem_append_extension,
    List.length_append, List.length_cons] at hlen
  omega

theorem mem_rotation : p ∈ rotation base n ↔
    p = numbered base n ∨ base.extension ≠ [] ∧ p = rotated base n := by
  rw [rotation_eq]
  by_cases hext : base.extension = [] <;> simp [hext]

/-- The file a rotating sink keeps its `n`-th rotation in: `stem.n.ext`, or `name.n`. -/
def sinkFile (basePath : Path) (n : ℕ) : Path :=
  if n = 0 then basePath
  else if basePath.extension = [] then numbered basePath n
  else rotated basePath n

/-- The candidates have the files of a rotating sink up to the depth. -/
theorem sinkFile_mem_iff : sinkFile base n ∈
    base :: (List.range' 1 depth).flatMap (rotation base) ↔ n ≤ depth := by
  have hmem : ∀ {p}, p ∈ base :: (List.range' 1 depth).flatMap (rotation base) ↔
      p = base ∨ ∃ m, (1 ≤ m ∧ m ≤ depth) ∧ p ∈ rotation base m := by
    intro p
    have hrange : ∀ m, m ∈ List.range' 1 depth ↔ 1 ≤ m ∧ m ≤ depth := by
      intro m
      rw [List.mem_range'_1]
      omega
    simp only [List.mem_cons, List.mem_flatMap, hrange]
  rw [hmem]
  unfold sinkFile
  split_ifs with hn hext
  · exact iff_of_true (.inl rfl) (by omega)
  · constructor
    · rintro (h | ⟨m, hm, h⟩)
      · exact absurd h.symm (ne_numbered base n)
      · rcases mem_rotation.mp h with h | ⟨hext', -⟩
        · exact numbered_injective h ▸ hm.2
        · exact absurd hext hext'
    · exact fun h => .inr ⟨n, ⟨by omega, h⟩, mem_rotation.mpr (.inl rfl)⟩
  · constructor
    · rintro (h | ⟨m, hm, h⟩)
      · exact absurd h.symm (ne_rotated base n)
      · rcases mem_rotation.mp h with h | ⟨-, h⟩
        · exact (extension_of_numbered_eq_rotated hext h.symm).1 ▸ hm.2
        · exact rotated_injective h ▸ hm.2
    · exact fun h => .inr ⟨n, ⟨by omega, h⟩, mem_rotation.mpr (.inr ⟨hext, rfl⟩)⟩

/-- Two candidates of `EnumerateCandidates`, one after the other. -/
theorem pairwise_candidates (base : Path) (depth : ℕ) :
    (base :: (List.range' 1 depth).flatMap (rotation base)).Pairwise fun p q => p = q →
      ∃ n, 1 ≤ n ∧ n ≤ depth ∧ base.extension = '.' :: digits n ∧ p = numbered base n := by
  refine List.pairwise_cons.mpr ⟨fun p hp heq => ?_, List.pairwise_flatMap.mpr ⟨?_, ?_⟩⟩
  · obtain ⟨n, -, hp⟩ := List.mem_flatMap.mp hp
    subst heq
    rcases mem_rotation.mp hp with hp | ⟨-, hp⟩
    · exact absurd hp (ne_numbered base n)
    · exact absurd hp (ne_rotated base n)
  · intro n hn
    rw [List.mem_range'_1] at hn
    rw [rotation_eq]
    by_cases hext : base.extension = []
    · rw [if_pos hext]
      exact List.pairwise_singleton _ _
    · rw [if_neg hext, List.pairwise_pair]
      intro heq
      exact ⟨n, hn.1, by omega, (extension_of_numbered_eq_rotated hext heq).2, rfl⟩
  · refine List.pairwise_iff_forall_sublist.mpr fun {n m} hsub p hp q hq heq => ?_
    have hlt : n < m := by
      have hsorted : [n, m].Pairwise (· < ·) :=
        List.Pairwise.sublist hsub List.pairwise_lt_range'
      simpa using hsorted
    subst heq
    rcases mem_rotation.mp hp with rfl | ⟨hext, rfl⟩ <;>
      rcases mem_rotation.mp hq with hq | ⟨hext', hq⟩
    · exact absurd (numbered_injective hq) (Nat.ne_of_lt hlt)
    · exact absurd (extension_of_numbered_eq_rotated hext' hq).1 (Nat.ne_of_lt hlt)
    · exact absurd (extension_of_numbered_eq_rotated hext hq.symm).1.symm (Nat.ne_of_lt hlt)
    · exact absurd (rotated_injective hq) (Nat.ne_of_lt hlt)

/-- A candidate that occurs twice is a rotation of a path whose extension is its number. -/
theorem numbered_of_duplicate (h : [p, p].Sublist
    (base :: (List.range' 1 depth).flatMap (rotation base))) :
    ∃ n, 1 ≤ n ∧ n ≤ depth ∧ base.extension = '.' :: digits n ∧ p = numbered base n :=
  List.pairwise_iff_forall_sublist.mp (pairwise_candidates base depth) h rfl

end Zurg.LogOps
