import Mathlib.Data.List.Duplicate
import Zurg.LogOps.Correct
import Zurg.LogOps.Rotations

/-!
# Zurg.LogOps.Sources — which files are counted

`FilterLogsToTemp` lists the canonical path of each candidate it uses and does not ask whether it
has listed it before.  So a file is counted twice if two candidates lead to it: by their names
(`numbered_of_duplicate`), or by links (`source_files_nodup_iff`).  Otherwise each of its lines is
written and counted once (`lines_once`).
-/

namespace Zurg.LogOps

open Lib Proto Grpc TempFile
open Control (LogOptions)

/-- The file that a candidate adds to `source_files`. -/
def usedFile (fs : FileSystem) (root : Root) (candidate : Path) : Option Path :=
  match fs.weaklyCanonical candidate with
  | none => none
  | some canonical =>
    if fs.existsAt canonical = .ok true ∧ (root.enabled && leavesRoot fs root canonical) = false then
      some canonical
    else none

/-- No two of the candidates lead to one file that is used. -/
structure FilesApart (fs : FileSystem) (root : Root) (base : Path) (depth : ℕ)
    (candidates : List Path) : Prop where
  /-- The extension is not the number of a rotation that is used and a candidate twice. -/
  numbers : ∀ n, 1 ≤ n → n ≤ depth → base.extension = '.' :: digits n →
    2 ≤ candidates.count (numbered base n) → usedFile fs root (numbered base n) = none
  /-- Links and other spellings. -/
  links : ∀ p ∈ candidates, ∀ q ∈ candidates, p ≠ q → usedFile fs root p = usedFile fs root q →
    usedFile fs root p = none

variable {fs : FileSystem} {root : Root} {opts : LogOptions} {spec : LogFilterSpec}
  {base : Path} {depth : ℕ} {candidates entered : List Path}

/-! ## The list -/

theorem sourceFiles_filterLine (st : FilterState) (line : Bytes) :
    (filterLine fs spec st line).1.metrics.sourceFiles = st.metrics.sourceFiles := by
  unfold filterLine
  dsimp only
  split_ifs <;> rfl

theorem sourceFiles_filterCandidate (st : FilterState) (candidate : Path) :
    (filterCandidate fs root spec st candidate).1.metrics.sourceFiles =
      st.metrics.sourceFiles ++ (usedFile fs root candidate).toList.map Path.string := by
  unfold filterCandidate usedFile
  cases hc : fs.weaklyCanonical candidate with
  | none => simp
  | some canonical =>
    match he : fs.existsAt canonical with
    | .error what => simp [he]
    | .ok false => simp [he]
    | .ok true =>
      cases ho : root.enabled && leavesRoot fs root canonical with
      | true => simp [he, ho]
      | false =>
        simp only [he, ho, Bool.false_eq_true, if_false, and_self, if_true]
        cases fs.openRead canonical with
        | none => rfl
        | some file =>
          exact forEach_invariant (f := filterLine fs spec)
            (P := fun s => s.metrics.sourceFiles = st.metrics.sourceFiles ++ [canonical.string])
            (fun s line hs => (sourceFiles_filterLine s line).trans hs) rfl

theorem string_injective : Function.Injective Path.string := by
  intro p q h
  cases p
  cases q
  exact congrArg Zurg.Lib.Path.mk (String.ofList_injective h)

/-- A loop that is left is left with an error. -/
theorem error_of_filterLine (st : FilterState) (line : Bytes) :
    LoopPost (fun _ => True) (fun _ status => status.ok = false)
      (filterLine fs spec st line) := by
  unfold filterLine
  dsimp only
  split_ifs <;> trivial

theorem error_of_filterCandidate (st : FilterState) (candidate : Path) :
    LoopPost (fun _ => True) (fun _ r => r ≠ .ok .success)
      (filterCandidate fs root spec st candidate) := by
  unfold filterCandidate
  split
  · trivial
  · split
    · exact nofun
    · trivial
    · split_ifs
      · trivial
      · dsimp only
        split
        · trivial
        · refine (forEach_post (I := fun _ _ => True) (fun _ line s _ => error_of_filterLine s line)
            [] trivial).map fun s status hs => ?_
          rintro heq
          obtain rfl := Except.ok.inj heq
          exact nomatch hs

/-- What `FilterLogsToTemp` lists: the files of the candidates it comes to. -/
theorem sourceFiles_filterLogsToTemp (fs : FileSystem) (root : Root) (opts : LogOptions)
    (spec : LogFilterSpec) (candidates : List Path) : ∃ entered, entered <+: candidates ∧
      ((filterLogsToTemp fs root opts spec candidates).result = .ok .success →
        entered = candidates) ∧
      (filterLogsToTemp fs root opts spec candidates).metrics.sourceFiles =
        (entered.filterMap (usedFile fs root)).map Path.string := by
  rcases filterLogsToTemp_cases fs root opts spec candidates with
    ⟨msg, tempPath, heq⟩ | ⟨tempPath, -, heq⟩
  · rw [heq]
    exact ⟨[], List.nil_prefix, nofun, rfl⟩
  · rw [heq]
    let start : FilterState := { metrics := { tempPath := tempPath } }
    have hlist : (forEach (filterCandidate fs root spec) start candidates).1.metrics.sourceFiles =
        [] ++ (reached (filterCandidate fs root spec) start candidates).flatMap
          fun candidate => (usedFile fs root candidate).toList.map Path.string :=
      forEach_collect (g := fun st : FilterState => st.metrics.sourceFiles)
        sourceFiles_filterCandidate start candidates
    have hleft : LoopPost (fun _ => True) (fun _ r => r ≠ .ok .success)
        (forEach (filterCandidate fs root spec) start candidates) :=
      forEach_post (I := fun _ _ => True)
        (fun _ candidate s _ => error_of_filterCandidate s candidate) [] trivial
    refine ⟨reached (filterCandidate fs root spec) start candidates, reached_prefix _ _,
      fun hok => reached_of_ended ?_, hlist.trans ?_⟩
    · unfold filterTo at hok
      dsimp only at hok
      match hr : forEach (filterCandidate fs root spec) start candidates with
      | (s, none) => rfl
      | (s, some r) =>
        rw [hr] at hleft hok
        exact absurd hok hleft
    · rw [List.nil_append, ← List.map_flatMap, List.filterMap_eq_flatMap_toList]

/-! ## No file twice -/

theorem nodup_iff_filesApart (hcand : enumerateCandidates base true depth = some candidates)
    (hentered : entered <+: candidates) : (entered.filterMap (usedFile fs root)).Nodup ↔
      FilesApart fs root base (effectiveDepth depth) entered := by
  have hapart : (entered.filterMap (usedFile fs root)).Nodup ↔ entered.Pairwise fun p q =>
      ∀ b, usedFile fs root p = some b → ∀ b', usedFile fs root q = some b' → b ≠ b' :=
    List.pairwise_filterMap
  rw [hapart]
  constructor
  · intro hpair
    constructor
    · intro n _ _ _ hcount
      have htwice := List.duplicate_iff_sublist.mp (List.duplicate_iff_two_le_count.mpr hcount)
      refine Option.eq_none_iff_forall_ne_some.mpr fun c hc => ?_
      exact List.pairwise_iff_forall_sublist.mp hpair htwice c hc c hc rfl
    · intro p hp q hq hne hsame
      have : Std.Symm fun p q => ∀ b, usedFile fs root p = some b →
          ∀ b', usedFile fs root q = some b' → b ≠ b' :=
        ⟨fun _ _ h b hb b' hb' heq => h b' hb' b hb heq.symm⟩
      refine Option.eq_none_iff_forall_ne_some.mpr fun c hc => ?_
      exact hpair.forall hp hq hne c hc c (hsame ▸ hc) rfl
  · intro h
    refine List.pairwise_iff_forall_sublist.mpr fun {p q} hsub c hc c' hc' heq => ?_
    subst heq
    by_cases hpq : p = q
    · subst hpq
      have hcount := List.duplicate_iff_two_le_count.mp (List.duplicate_iff_sublist.mpr hsub)
      obtain ⟨-, rfl⟩ := enumerateCandidates_some hcand
      obtain ⟨n, hn, hn', hext, rfl⟩ := numbered_of_duplicate (hsub.trans hentered.sublist)
      exact nomatch (h.numbers n hn hn' hext hcount).symm.trans hc
    · have hnone := h.links p (hsub.subset (by simp)) q (hsub.subset (by simp)) hpq
        (hc.trans hc'.symm)
      exact nomatch hnone.symm.trans hc

/-- **No log file is counted twice** exactly if no two candidates lead to one file. -/
theorem source_files_nodup_iff (fs : FileSystem) (root : Root) (opts : LogOptions)
    (spec : LogFilterSpec) (hcand : enumerateCandidates base true depth = some candidates) :
    ∃ entered, entered <+: candidates ∧
      ((filterLogsToTemp fs root opts spec candidates).result = .ok .success →
        entered = candidates) ∧
      (filterLogsToTemp fs root opts spec candidates).metrics.sourceFiles =
        (entered.filterMap (usedFile fs root)).map Path.string ∧
      ((filterLogsToTemp fs root opts spec candidates).metrics.sourceFiles.Nodup ↔
        FilesApart fs root base (effectiveDepth depth) entered) := by
  obtain ⟨entered, hpre, hok, hlist⟩ := sourceFiles_filterLogsToTemp fs root opts spec candidates
  refine ⟨entered, hpre, hok, hlist, ?_⟩
  rw [hlist, List.nodup_map_iff string_injective]
  exact nodup_iff_filesApart hcand hpre

/-! ## No line twice -/

/-- The lines of a file, if it opens. -/
def contentLines (fs : FileSystem) (file : Path) : List Bytes :=
  match fs.openRead file with
  | none => []
  | some content => lines content.bytes

/-- A candidate has the lines of the file it adds to `source_files`. -/
theorem fileLines_eq (hfs : fs.Canonicalizes)
    (hroot : root.enabled = true → fs.weaklyCanonical root.canonical = some root.canonical)
    (candidate : Path) :
    fileLines fs root candidate =
      (usedFile fs root candidate).toList.flatMap (contentLines fs) := by
  unfold fileLines usedFile
  cases hc : fs.weaklyCanonical candidate with
  | none => rfl
  | some c =>
    simp only [insideRoot_iff hfs hroot hc]
    split_ifs
    · rw [Option.toList_some, List.flatMap_singleton]
      rfl
    · rfl

/-- The lines that match are those of the files used. -/
theorem reference_eq (hfs : fs.Canonicalizes)
    (hroot : root.enabled = true → fs.weaklyCanonical root.canonical = some root.canonical) :
    reference fs root spec candidates =
      ((candidates.filterMap (usedFile fs root)).flatMap (contentLines fs)).filter
        (Matches spec) := by
  rw [reference, funext (fileLines_eq hfs hroot), List.filterMap_eq_flatMap_toList,
    List.flatMap_assoc]

/-- **No line is counted twice**: if no two candidates lead to one file, a filtering that ends with
OK has written, and counted, the lines of different files, those of each file once. -/
theorem lines_once (hfs : fs.Canonicalizes)
    (hroot : root.enabled = true → fs.weaklyCanonical root.canonical = some root.canonical)
    (hcand : enumerateCandidates base true depth = some candidates)
    (hapart : FilesApart fs root base (effectiveDepth depth) candidates)
    (hok : (filterLogsToTemp fs root opts spec candidates).result = .ok .success) :
    ∃ (files : List Path) (found : List Bytes) (out : OutStream), files.Nodup ∧
      found = (files.flatMap (contentLines fs)).filter (Matches spec) ∧
      (filterLogsToTemp fs root opts spec candidates).metrics.sourceFiles =
        files.map Path.string ∧
      out.taken.bytes = render found ∧
      (filterLogsToTemp fs root opts spec candidates).tempFile = some (out.close fs) ∧
      (filterLogsToTemp fs root opts spec candidates).metrics.totalSize = (render found).length ∧
      (filterLogsToTemp fs root opts spec candidates).metrics.totalLines = found.length := by
  obtain ⟨entered, hpre, hall, hlist⟩ := sourceFiles_filterLogsToTemp fs root opts spec candidates
  rw [hall hok] at hlist
  rcases filterLogsToTemp_cases fs root opts spec candidates with
    ⟨msg, tempPath, heq⟩ | ⟨tempPath, -, heq⟩
  · rw [heq] at hok
    exact nomatch hok
  · rw [heq] at hok hlist ⊢
    obtain ⟨out, -, hbytes, htemp, hsize, hlines⟩ := wrote_filterTo hfs hroot hok rfl
    rw [hbytes] at hsize
    exact ⟨_, _, out, (nodup_iff_filesApart hcand List.prefix_rfl).mpr hapart,
      reference_eq hfs hroot, hlist, hbytes, htemp, hsize, hlines⟩

/-- A log and its first rotation. -/
theorem source_files_nodup_iff_sampleFs : ∃ candidates,
    enumerateCandidates (.ofString "/var/log/agent.log") true 1 = some candidates ∧
    (filterLogsToTemp sampleFs {} {} {} candidates).metrics.sourceFiles =
      ["/var/log/agent.log"] ∧
    ∃ entered, (filterLogsToTemp sampleFs {} {} {} candidates).metrics.sourceFiles.Nodup ↔
      FilesApart sampleFs {} (.ofString "/var/log/agent.log") 1 entered := by
  have hcand : enumerateCandidates (.ofString "/var/log/agent.log") true 1 = some _ :=
    enumerateCandidates_eq (by decide)
  obtain ⟨entered, -, -, -, hiff⟩ := source_files_nodup_iff sampleFs {} {} {} hcand
  exact ⟨_, hcand, by decide +kernel, entered, hiff⟩

/-- A log whose extension is a number, with the rotation of that number. -/
def numberedFs : FileSystem where
  weaklyCanonical p := some p
  existsAt p := .ok (p = .ofString "/var/log/agent.3.3")
  openRead _ := none
  tempDirectoryPath := .ok (.ofString "/tmp")
  createDirectories _ := none
  suffixes _ := "0123456789abcdef"
  openWrite _ := true
  failedWrites _ := none
  failedClose := none
  reopen _ := true

/-- The third rotation of `agent.3` is `agent.3.3` in both schemes. -/
theorem source_files_twice : ¬ ∀ fs root opts spec base depth candidates,
    enumerateCandidates base true depth = some candidates →
    (filterLogsToTemp fs root opts spec candidates).metrics.sourceFiles.Nodup := by
  intro hall
  have hcand : enumerateCandidates (.ofString "/var/log/agent.3") true 3 = some _ :=
    enumerateCandidates_eq (by decide)
  have h := hall numberedFs {} {} {} _ _ _ hcand
  exact absurd h (by decide +kernel)

end Zurg.LogOps
