import Mathlib.Data.Set.Insert
import Zurg.LogOps.Filter
import Zurg.Tasks.Pcap

/-!
# Zurg.Tasks.Cleanup — what becomes of temp files

The files that `StreamLogFilter` and `PcapTask::Run` create and remove, in order, and what that
leaves on the disk.  Whatever fails, a call that returns has removed its temp file if it is to; only
the exception of `exists` in `FilterLogsToTemp` passes the removal by (`temp_files_removed_iff`).
-/

namespace Zurg.Tasks

open Lib Proto Grpc TempFile PcapOps LogOps
open Control (LogOptions)

/-! ## Files on the disk -/

/-- What is done to the files of a directory. -/
inductive FileOp
  | create (p : Path)
  | remove (p : Path)
  deriving DecidableEq, Repr

namespace FileOp

def path : FileOp → Path
  | create p => p
  | remove p => p

/-- A file that is removed is gone. -/
def apply (disk : Set Path) : FileOp → Set Path
  | create p => insert p disk
  | remove p => disk \ {p}

end FileOp

/-- The files that there are afterwards. -/
def after (disk : Set Path) (ops : List FileOp) : Set Path := ops.foldl FileOp.apply disk

/-- What `exists` does not find is not there. -/
def Agrees (fs : FileSystem) (disk : Set Path) : Prop :=
  ∀ p, fs.existsAt p = .ok false → p ∉ disk

/-- A call leaves nothing behind, if it is to clean up, and takes nothing else away. -/
structure Clean (cleanup : Bool) (disk : Set Path) (ops : List FileOp) : Prop where
  removed : cleanup = true → ∀ p, FileOp.create p ∈ ops → p ∉ after disk ops
  kept : cleanup = false → ∀ p, FileOp.remove p ∉ ops
  others : ∀ pre, pre <+: ops → disk ⊆ after disk pre

variable {disk : Set Path} {ops : List FileOp} {p q : Path} {cleanup created : Bool} {k : ℕ}

/-- What other files are concerned by does not touch a file. -/
theorem mem_after_iff_of_ne (h : ∀ op ∈ ops, op.path ≠ q) : q ∈ after disk ops ↔ q ∈ disk := by
  induction ops generalizing disk with
  | nil => exact Iff.rfl
  | cons op ops ih =>
    have hne := h op List.mem_cons_self
    have hstep : q ∈ op.apply disk ↔ q ∈ disk := by
      cases op with
      | create p => exact Set.mem_insert_iff.trans (or_iff_right fun heq => hne heq.symm)
      | remove p => exact ⟨fun hq => hq.1, fun hq => ⟨hq, fun heq => hne heq.symm⟩⟩
    exact (ih fun op hop => h op (List.mem_cons_of_mem _ hop)).trans hstep

/-! ## One temp file -/

/-- A temp file is created, or could not be, and then removed so many times. -/
def tempOps (p : Path) (created : Bool) (removals : ℕ) : List FileOp :=
  (if created then [.create p] else []) ++ List.replicate removals (.remove p)

theorem path_of_mem_tempOps {op : FileOp} (h : op ∈ tempOps p created k) : op.path = p := by
  rcases List.mem_append.mp h with h | h
  · split_ifs at h
    · rw [List.mem_singleton.mp h]
      rfl
    · exact absurd h List.not_mem_nil
  · rw [List.eq_of_mem_replicate h]
    rfl

theorem create_mem_tempOps : .create q ∈ tempOps p created k ↔ created = true ∧ q = p := by
  cases created <;> simp [tempOps]

theorem remove_mem_tempOps : .remove q ∈ tempOps p created k ↔ k ≠ 0 ∧ q = p := by
  cases created <;> simp [tempOps]

theorem mem_after_removals : p ∈ after disk (List.replicate k (.remove p)) ↔ k = 0 ∧ p ∈ disk := by
  induction k generalizing disk with
  | zero => simp [after]
  | succ k ih =>
    rw [List.replicate_succ]
    have hrest : p ∈ after (disk \ {p}) (List.replicate k (.remove p)) ↔
        k = 0 ∧ p ∈ disk \ {p} := ih
    refine hrest.trans ?_
    simp

/-- The temp file is there if it has been created and not removed. -/
theorem mem_after_tempOps (hp : p ∉ disk) :
    p ∈ after disk (tempOps p created k) ↔ created = true ∧ k = 0 := by
  unfold tempOps after
  rw [List.foldl_append]
  refine mem_after_removals.trans ?_
  cases created with
  | false => simp [hp]
  | true => simp [FileOp.apply]

/-- **One temp file**: the call is clean if and only if it has been removed when it is to be. -/
theorem clean_tempOps_iff (hp : p ∉ disk) (hkept : cleanup = false → k = 0) :
    Clean cleanup disk (tempOps p created k) ↔ (cleanup = true → created = true → k ≠ 0) := by
  constructor
  · intro h hon hcreated hzero
    exact h.removed hon p (create_mem_tempOps.mpr ⟨hcreated, rfl⟩)
      ((mem_after_tempOps hp).mpr ⟨hcreated, hzero⟩)
  · intro h
    refine ⟨fun hon q hq => ?_, fun hoff q hq => ?_, fun pre hpre q hq => ?_⟩
    · obtain ⟨hcreated, rfl⟩ := create_mem_tempOps.mp hq
      rw [mem_after_tempOps hp]
      exact fun hleft => h hon hcreated hleft.2
    · exact (remove_mem_tempOps.mp hq).1 (hkept hoff)
    · refine (mem_after_iff_of_ne fun op hop heq => hp ?_).mpr hq
      rw [← path_of_mem_tempOps (hpre.subset hop), heq]
      exact hq

/-! ## What the code does -/

variable (fs : FileSystem) (root : Root) (opts : LogOptions) (spec : LogFilterSpec)

/-- What `StreamLogFilter` filters, if it comes to `FilterLogsToTemp`. -/
def filterInput (onChunk : Option LogChunkConsumer) (eof : Option LogFilterEof) :
    Option (LogChunkConsumer × Root × List Path) :=
  match eof, onChunk with
  | some _, some onChunk =>
    if spec.compress ∨ opts.basePath = "" then none
    else
      match makeRoot fs opts.logRoot with
      | none => none
      | some root =>
        match resolvePath fs root opts.basePath with
        | none => none
        | some base =>
          match enumerateCandidates base opts.includeRotations opts.rotationScanDepth with
          | none => none
          | some candidates => some (onChunk, root, candidates)
  | _, _ => none

/-- `if (!metrics.temp_path.empty() && opts.cleanup_temp_file)`, and `remove`. -/
def removeFailed (tempPath : Path) : List FileOp :=
  if tempPath ≠ ⟨[]⟩ ∧ opts.cleanupTempFile = true then [.remove tempPath] else []

/-- `if (opts.cleanup_temp_file)`, and `remove`. -/
def cleanUp (tempPath : Path) : List FileOp :=
  if opts.cleanupTempFile then [.remove tempPath] else []

/-- The files `StreamLogFilter` removes after `FilterLogsToTemp`. -/
def reportOps (onChunk : LogChunkConsumer) (filtered : Filtered) : List FileOp :=
  match filtered.result with
  | .error _ => []
  | .ok filterStatus =>
    if !filterStatus.ok then removeFailed opts filtered.metrics.tempPath
    else
      let streamStatus := (streamFilteredFile fs opts onChunk filtered).2.1
      -- at the end of `StreamFilteredFile`
      let streamed := if streamStatus.ok then cleanUp opts filtered.metrics.tempPath else []
      if !streamStatus.ok then streamed ++ removeFailed opts filtered.metrics.tempPath
      else streamed ++ cleanUp opts filtered.metrics.tempPath

/-- The temp file that `FilterLogsToTemp` creates. -/
def filterOps (filtered : Filtered) : List FileOp :=
  if filtered.tempFile.isSome then [.create filtered.metrics.tempPath] else []

/-- `StreamLogFilter`. -/
def logFilterOps (onChunk : Option LogChunkConsumer) (eof : Option LogFilterEof) : List FileOp :=
  match filterInput fs opts spec onChunk eof with
  | none => []
  | some (onChunk, root, candidates) =>
    let filtered := filterLogsToTemp fs root opts spec candidates
    filterOps filtered ++ reportOps fs opts onChunk filtered

/-- `PcapTask::Run`: `cleanup` is called before either of its ways out. -/
def pcapOps (e : Endian) (env : CaptureEnv) (polls : Polls) (opId : OpId) (spec : PcapSpec)
    (fuel : ℕ) : List FileOp :=
  match createTempFile fs opts opId with
  | .error _ => []
  | .ok tempPath =>
    .create tempPath ::
      match streamCapture env (pcapCallbacks e fs polls (effectiveSnaplen spec)) spec fuel {} with
      | none => []
      | some _ => cleanUp opts tempPath

/-- The loop of `FilterLogsToTemp` comes to a candidate for which `exists` throws. -/
def ExistsThrows (tempPath : Path) (candidates : List Path) : Prop :=
  ∃ pre candidate post c what, candidates = pre ++ candidate :: post ∧
    (forEach (filterCandidate fs root spec) { metrics := { tempPath := tempPath } } pre).2 = none ∧
    fs.weaklyCanonical candidate = some c ∧ fs.existsAt c = .error what

/-- A path for a temp file: nothing is there yet, and it has a name. -/
structure Fresh (p : Path) : Prop where
  missing : fs.existsAt p = .ok false
  named : p ≠ ⟨[]⟩

/-- `FilterLogsToTemp` opens its temp file. -/
def OpensTemp (tempPath : Path) : Prop :=
  ∃ dir, resolveDirectory fs opts.tempDir = .ok dir ∧
    createUniquePath fs dir
      ((if opts.outputBasename = "" then "logfilter" else opts.outputBasename) ++ "-") "" =
        .ok tempPath ∧ fs.openWrite tempPath = true

/-- `StreamLogFilter` is left by an exception. -/
def Throws (onChunk : Option LogChunkConsumer) (eof : Option LogFilterEof) : Prop :=
  ∃ consumer root candidates tempPath,
    filterInput fs opts spec onChunk eof = some (consumer, root, candidates) ∧
    OpensTemp fs opts tempPath ∧ ExistsThrows fs root spec tempPath candidates

variable {fs root opts spec}

/-! ## Paths for temp files -/

theorem chars_div_ne_nil {dir q : Path} (hq : q.chars ≠ []) : dir / q ≠ ⟨[]⟩ := by
  intro h
  have hchars : (dir.append q).chars = [] := congrArg Path.chars h
  unfold Path.append at hchars
  split_ifs at hchars
  · exact hq hchars
  · exact hq (List.append_eq_nil_iff.mp hchars).2
  · simp at hchars

theorem fresh_of_uniquePathFrom {dir : Path} {before behind : String} {n attempts : ℕ}
    (hname : before ≠ "") (h : uniquePathFrom fs dir before behind n attempts = .ok p) :
    Fresh fs p := by
  induction attempts generalizing n with
  | zero => simp [uniquePathFrom] at h
  | succ attempts ih =>
    simp only [uniquePathFrom] at h
    cases hex : fs.existsAt (dir / .ofString (before ++ fs.suffixes n ++ behind)) with
    | error msg => simp [hex] at h
    | ok found =>
      cases found with
      | true => exact ih (by simpa [hex] using h)
      | false =>
        have hp : dir / .ofString (before ++ fs.suffixes n ++ behind) = p := by
          simpa [hex] using h
        subst hp
        refine ⟨hex, chars_div_ne_nil ?_⟩
        simp [Path.ofString, hname]

theorem fresh_of_createUniquePath {dir : Path} {before behind : String} (hname : before ≠ "")
    (h : createUniquePath fs dir before behind = .ok p) : Fresh fs p :=
  fresh_of_uniquePathFrom hname h

theorem append_ne_empty (a b : String) (hb : b ≠ "") : a ++ b ≠ "" := by
  simp [hb]

theorem OpensTemp.fresh (h : OpensTemp fs opts p) : Fresh fs p := by
  obtain ⟨dir, -, hpath, -⟩ := h
  exact fresh_of_createUniquePath (append_ne_empty _ _ (by decide)) hpath

/-- `FilterLogsToTemp` opens a temp file, or ends before that. -/
theorem filterLogsToTemp_opens (fs : FileSystem) (root : Root) (opts : LogOptions)
    (spec : LogFilterSpec) (candidates : List Path) :
    (∃ tempPath, OpensTemp fs opts tempPath ∧
      filterLogsToTemp fs root opts spec candidates = filterTo fs root spec tempPath candidates) ∨
    (∀ tempPath, ¬ OpensTemp fs opts tempPath) ∧
    ∃ msg tempPath, (tempPath = ⟨[]⟩ ∨ Fresh fs tempPath) ∧
      filterLogsToTemp fs root opts spec candidates =
        { result := .ok ⟨.internal, msg⟩, metrics := { tempPath := tempPath } } := by
  unfold filterLogsToTemp
  cases hdir : resolveDirectory fs opts.tempDir with
  | error msg =>
    refine .inr ⟨?_, msg, ⟨[]⟩, .inl rfl, rfl⟩
    rintro tempPath ⟨dir, hdir', -⟩
    exact absurd (hdir.symm.trans hdir') (by simp)
  | ok dir =>
    dsimp only
    cases hpath : createUniquePath fs dir
        ((if opts.outputBasename = "" then "logfilter" else opts.outputBasename) ++ "-") "" with
    | error what =>
      refine .inr ⟨?_, what, ⟨[]⟩, .inl rfl, rfl⟩
      rintro tempPath ⟨dir', hdir', hpath', -⟩
      obtain rfl := Except.ok.inj (hdir.symm.trans hdir')
      exact absurd (hpath.symm.trans hpath') (by simp)
    | ok tempPath =>
      by_cases hopen : fs.openWrite tempPath = true
      · exact .inl ⟨tempPath, ⟨dir, hdir, hpath, hopen⟩, if_pos hopen⟩
      · have hfresh := fresh_of_createUniquePath (append_ne_empty _ _ (by decide)) hpath
        refine .inr ⟨?_, _, tempPath, .inr hfresh, if_neg hopen⟩
        rintro tempPath' ⟨dir', hdir', hpath', hopen'⟩
        obtain rfl := Except.ok.inj (hdir.symm.trans hdir')
        obtain rfl := Except.ok.inj (hpath.symm.trans hpath')
        exact hopen hopen'

theorem OpensTemp.unique (h : OpensTemp fs opts p) (h' : OpensTemp fs opts q) : p = q := by
  obtain ⟨dir, hdir, hpath, -⟩ := h
  obtain ⟨dir', hdir', hpath', -⟩ := h'
  obtain rfl := Except.ok.inj (hdir.symm.trans hdir')
  exact Except.ok.inj (hpath.symm.trans hpath')

/-! ## The exception -/

theorem filterCandidate_throws_iff {st : FilterState} {candidate : Path} {what : String} :
    (filterCandidate fs root spec st candidate).2 = some (.error what) ↔
      ∃ c, fs.weaklyCanonical candidate = some c ∧ fs.existsAt c = .error what := by
  unfold filterCandidate
  cases hc : fs.weaklyCanonical candidate with
  | none => simp
  | some c =>
    cases hex : fs.existsAt c with
    | error msg => simp [hex]
    | ok found =>
      cases found with
      | false => simp [hex]
      | true =>
        simp only [hex]
        split_ifs
        · simp [hex]
        · cases fs.openRead c <;> simp [hex]

theorem filterTo_throws_iff {tempPath : Path} {candidates : List Path} :
    (∃ what, (filterTo fs root spec tempPath candidates).result = .error what) ↔
      ExistsThrows fs root spec tempPath candidates := by
  have hresult : ∀ what, (filterTo fs root spec tempPath candidates).result = .error what ↔
      (forEach (filterCandidate fs root spec) { metrics := { tempPath := tempPath } }
        candidates).2 = some (.error what) := by
    intro what
    have hgetD : ∀ r : Option (Except String Status),
        r.getD (.ok .success) = .error what ↔ r = some (.error what) := by
      intro r
      cases r <;> simp
    exact hgetD _
  unfold ExistsThrows
  constructor
  · rintro ⟨what, h⟩
    obtain ⟨pre, candidate, post, heq, hgo, hleft⟩ := forEach_left_iff.mp ((hresult what).mp h)
    obtain ⟨c, hc, hex⟩ := filterCandidate_throws_iff.mp hleft
    exact ⟨pre, candidate, post, c, what, heq, hgo, hc, hex⟩
  · rintro ⟨pre, candidate, post, c, what, heq, hgo, hc, hex⟩
    exact ⟨what, (hresult what).mpr (forEach_left_iff.mpr
      ⟨pre, candidate, post, heq, hgo, filterCandidate_throws_iff.mpr ⟨c, hc, hex⟩⟩)⟩

theorem tempPath_filterLine (st : FilterState) (line : Bytes) :
    (filterLine fs spec st line).1.metrics.tempPath = st.metrics.tempPath := by
  unfold filterLine
  dsimp only
  split_ifs <;> rfl

theorem tempPath_filterCandidate (st : FilterState) (candidate : Path) :
    (filterCandidate fs root spec st candidate).1.metrics.tempPath = st.metrics.tempPath := by
  unfold filterCandidate
  split
  · rfl
  · split
    · rfl
    · rfl
    · split_ifs
      · rfl
      · dsimp only
        split
        · rfl
        · exact forEach_invariant (f := filterLine fs spec)
            (P := fun s => s.metrics.tempPath = st.metrics.tempPath)
            (fun s line hs => (tempPath_filterLine s line).trans hs) rfl

theorem tempPath_filterTo (tempPath : Path) (candidates : List Path) :
    (filterTo fs root spec tempPath candidates).metrics.tempPath = tempPath :=
  forEach_invariant (f := filterCandidate fs root spec)
    (P := fun s => s.metrics.tempPath = tempPath)
    (fun s candidate hs => (tempPath_filterCandidate s candidate).trans hs) rfl

/-! ## `StreamLogFilter` -/

theorem removeFailed_eq (hp : p ≠ ⟨[]⟩) : removeFailed opts p =
    List.replicate (if opts.cleanupTempFile then 1 else 0) (.remove p) := by
  unfold removeFailed
  cases opts.cleanupTempFile <;> simp [hp]

theorem cleanUp_eq (opts : LogOptions) (p : Path) : cleanUp opts p =
    List.replicate (if opts.cleanupTempFile then 1 else 0) (.remove p) := by
  unfold cleanUp
  cases opts.cleanupTempFile <;> rfl

/-- On every way out that is a `return` the temp file is removed once or twice. -/
theorem reportOps_eq {consumer : LogChunkConsumer} {filtered : Filtered} {status : Status}
    (hresult : filtered.result = .ok status) (hp : filtered.metrics.tempPath ≠ ⟨[]⟩) :
    ∃ k, reportOps fs opts consumer filtered =
        List.replicate k (.remove filtered.metrics.tempPath) ∧
      (k ≠ 0 ↔ opts.cleanupTempFile = true) := by
  have hiff : (if opts.cleanupTempFile = true then 1 else 0) ≠ 0 ↔
      opts.cleanupTempFile = true := by
    cases opts.cleanupTempFile <;> simp
  unfold reportOps
  simp only [hresult, removeFailed_eq hp, cleanUp_eq]
  cases status.ok with
  | false => exact ⟨_, rfl, hiff⟩
  | true =>
    cases (streamFilteredFile fs opts consumer filtered).2.1.ok with
    | false => exact ⟨_, rfl, hiff⟩
    | true =>
      refine ⟨(if opts.cleanupTempFile = true then 1 else 0) +
        (if opts.cleanupTempFile = true then 1 else 0), ?_, ?_⟩
      · rw [List.replicate_add]
        rfl
      · refine Iff.trans ?_ hiff
        omega

theorem streamLogFilter_of_filterInput {onChunk : Option LogChunkConsumer}
    {eof : Option LogFilterEof} {consumer : LogChunkConsumer} {candidates : List Path}
    (h : filterInput fs opts spec onChunk eof = some (consumer, root, candidates)) :
    streamLogFilter fs opts spec onChunk eof =
      streamAndReport fs opts consumer (filterLogsToTemp fs root opts spec candidates) := by
  unfold filterInput at h
  cases eof with
  | none => simp at h
  | some eof =>
    cases onChunk with
    | none => simp at h
    | some onChunk =>
      simp only at h
      split_ifs at h with hguard
      rw [not_or] at hguard
      cases hroot : makeRoot fs opts.logRoot with
      | none => simp [hroot] at h
      | some root' =>
        simp only [hroot] at h
        cases hbase : resolvePath fs root' opts.basePath with
        | none => simp [hbase] at h
        | some base =>
          simp only [hbase] at h
          cases hcand : enumerateCandidates base opts.includeRotations opts.rotationScanDepth with
          | none => simp [hcand] at h
          | some candidates' =>
            simp only [hcand, Option.some.injEq, Prod.mk.injEq] at h
            obtain ⟨rfl, rfl, rfl⟩ := h
            simp only [streamLogFilter, if_neg hguard.1, hroot, if_neg hguard.2, hbase, hcand]

/-- Before `FilterLogsToTemp` there is no temp file and no exception. -/
theorem streamLogFilter_of_none {onChunk : Option LogChunkConsumer} {eof : Option LogFilterEof}
    (h : filterInput fs opts spec onChunk eof = none) :
    (streamLogFilter fs opts spec onChunk eof).tempFile = none ∧
      ∀ what, (streamLogFilter fs opts spec onChunk eof).result ≠ some (.error what) := by
  unfold filterInput at h
  unfold streamLogFilter
  cases eof with
  | none => exact ⟨rfl, by simp⟩
  | some eof =>
    cases onChunk with
    | none => exact ⟨rfl, by simp⟩
    | some onChunk =>
      dsimp only at h ⊢
      by_cases hcompress : spec.compress = true
      · rw [if_pos hcompress]
        exact ⟨rfl, by simp⟩
      rw [if_neg hcompress]
      cases hroot : makeRoot fs opts.logRoot with
      | none => exact ⟨rfl, by simp⟩
      | some root' =>
        dsimp only
        by_cases hempty : opts.basePath = ""
        · rw [if_pos hempty]
          exact ⟨rfl, by simp⟩
        rw [if_neg hempty]
        rw [if_neg (not_or.mpr ⟨hcompress, hempty⟩)] at h
        simp only [hroot] at h
        cases hbase : resolvePath fs root' opts.basePath with
        | none => exact ⟨rfl, by simp⟩
        | some base =>
          simp only [hbase] at h
          cases hcand : enumerateCandidates base opts.includeRotations opts.rotationScanDepth with
          | none => simp [hcand]
          | some candidates => simp [hcand] at h

/-- The temp file that a run has left. -/
theorem tempFile_streamAndReport {consumer : LogChunkConsumer} {filtered : Filtered} :
    (streamAndReport fs opts consumer filtered).tempFile.isSome = true ↔
      filtered.tempFile.isSome = true ∧
        ((∃ what, filtered.result = .error what) ∨ opts.cleanupTempFile = false) := by
  unfold streamAndReport streamFilteredFile
  cases filtered.result with
  | error what => simp
  | ok status =>
    dsimp only
    cases opts.cleanupTempFile
    · simp only [Bool.and_false, Bool.false_eq_true, if_false, reduceCtorEq, exists_false,
        or_true, and_true]
      split_ifs <;> rfl
    · simp only [if_true]
      split_ifs <;> simp

theorem result_streamAndReport {consumer : LogChunkConsumer} {filtered : Filtered} :
    (∃ what, (streamAndReport fs opts consumer filtered).result = some (.error what)) ↔
      ∃ what, filtered.result = .error what := by
  unfold streamAndReport
  cases filtered.result with
  | error what => simp
  | ok status =>
    dsimp only
    split_ifs <;> simp

/-- The call is left by the exception if and only if the loop comes to such a candidate. -/
theorem throws_iff {onChunk : Option LogChunkConsumer} {eof : Option LogFilterEof} :
    (∃ what, (streamLogFilter fs opts spec onChunk eof).result = some (.error what)) ↔
      Throws fs opts spec onChunk eof := by
  cases hinput : filterInput fs opts spec onChunk eof with
  | none =>
    refine iff_of_false ?_ ?_
    · rintro ⟨what, hwhat⟩
      exact (streamLogFilter_of_none hinput).2 what hwhat
    · rintro ⟨consumer, root, candidates, tempPath, hsome, -⟩
      exact absurd (hinput.symm.trans hsome) (by simp)
  | some input =>
    obtain ⟨consumer, root, candidates⟩ := input
    rw [streamLogFilter_of_filterInput hinput, result_streamAndReport]
    rcases filterLogsToTemp_opens fs root opts spec candidates with
      ⟨tempPath, hopens, hto⟩ | ⟨hnever, msg, tempPath, -, hfail⟩
    · rw [hto, filterTo_throws_iff]
      constructor
      · exact fun hthrows => ⟨consumer, root, candidates, tempPath, hinput, hopens, hthrows⟩
      · rintro ⟨consumer', root', candidates', tempPath', hinput', hopens', hthrows⟩
        obtain ⟨-, hrest⟩ := Prod.mk.inj (Option.some.inj (hinput.symm.trans hinput'))
        obtain ⟨rfl, rfl⟩ := Prod.mk.inj hrest
        rwa [hopens.unique hopens']
    · rw [hfail]
      refine iff_of_false (by simp) ?_
      rintro ⟨-, -, -, tempPath', -, hopens, -⟩
      exact hnever tempPath' hopens

/-- The operations of a call that has opened its temp file. -/
theorem ops_of_opens {consumer : LogChunkConsumer} {tempPath : Path} {candidates : List Path}
    (hopens : OpensTemp fs opts tempPath) :
    ∃ k, filterOps (filterTo fs root spec tempPath candidates) ++
        reportOps fs opts consumer (filterTo fs root spec tempPath candidates) =
          tempOps tempPath true k ∧
      (opts.cleanupTempFile = false → k = 0) ∧
      (opts.cleanupTempFile = true →
        (k ≠ 0 ↔ ¬ ∃ what, (filterTo fs root spec tempPath candidates).result = .error what)) ∧
      ((∃ what, (filterTo fs root spec tempPath candidates).result = .error what) ∨
        opts.cleanupTempFile = false ↔ k = 0) := by
  have htemp : (filterTo fs root spec tempPath candidates).metrics.tempPath = tempPath :=
    tempPath_filterTo tempPath candidates
  have hcreate : filterOps (filterTo fs root spec tempPath candidates) = [.create tempPath] := by
    rw [filterOps, htemp]
    rfl
  rw [hcreate]
  cases hresult : (filterTo fs root spec tempPath candidates).result with
  | error what =>
    refine ⟨0, ?_, fun _ => rfl, fun _ => by simp, by simp⟩
    simp only [reportOps, hresult]
    rfl
  | ok status =>
    have hnamed : (filterTo fs root spec tempPath candidates).metrics.tempPath ≠ ⟨[]⟩ := by
      rw [htemp]
      exact hopens.fresh.named
    obtain ⟨k, hk, hiff⟩ : ∃ k, reportOps fs opts consumer
        (filterTo fs root spec tempPath candidates) = List.replicate k (.remove _) ∧
        (k ≠ 0 ↔ opts.cleanupTempFile = true) := reportOps_eq hresult hnamed
    have hzero : k = 0 ↔ opts.cleanupTempFile = false := by
      rw [← not_iff_not]
      simpa using hiff
    rw [hk, htemp]
    exact ⟨k, rfl, hzero.mpr, fun hon => by simp [hiff.mpr hon], by simp [hzero]⟩

/-- The operations of a call are those on one temp file.  It stays if it is not to be removed, or
if the call is left by the exception. -/
theorem logFilterOps_cases (fs : FileSystem) (opts : LogOptions) (spec : LogFilterSpec)
    (onChunk : Option LogChunkConsumer) (eof : Option LogFilterEof) :
    logFilterOps fs opts spec onChunk eof = [] ∧
      (streamLogFilter fs opts spec onChunk eof).tempFile = none ∧
      ¬ Throws fs opts spec onChunk eof ∨
    ∃ p created k, Fresh fs p ∧ logFilterOps fs opts spec onChunk eof = tempOps p created k ∧
      (opts.cleanupTempFile = false → k = 0) ∧
      (opts.cleanupTempFile = true →
        ((created = true → k ≠ 0) ↔ ¬ Throws fs opts spec onChunk eof)) ∧
      ((streamLogFilter fs opts spec onChunk eof).tempFile.isSome = true ↔
        created = true ∧ k = 0) := by
  rw [← throws_iff]
  cases hinput : filterInput fs opts spec onChunk eof with
  | none =>
    have hnone := streamLogFilter_of_none hinput
    refine .inl ⟨by simp only [logFilterOps, hinput], hnone.1, ?_⟩
    rintro ⟨what, hwhat⟩
    exact hnone.2 what hwhat
  | some input =>
    obtain ⟨consumer, root, candidates⟩ := input
    have hops : logFilterOps fs opts spec onChunk eof =
        filterOps (filterLogsToTemp fs root opts spec candidates) ++
          reportOps fs opts consumer (filterLogsToTemp fs root opts spec candidates) := by
      simp only [logFilterOps, hinput]
    rw [hops, streamLogFilter_of_filterInput hinput, result_streamAndReport,
      tempFile_streamAndReport]
    rcases filterLogsToTemp_opens fs root opts spec candidates with
      ⟨tempPath, hopens, hto⟩ | ⟨-, msg, tempPath, hpath, hfail⟩
    · obtain ⟨k, hk, hoff, hon, hstays⟩ := ops_of_opens hopens
      rw [hto, hk]
      refine .inr ⟨tempPath, true, k, hopens.fresh, rfl, hoff, fun hcleanup => ?_, ?_⟩
      · rw [← hon hcleanup, forall_prop_of_true rfl]
      · have hthere : (filterTo fs root spec tempPath candidates).tempFile.isSome = true := rfl
        rw [and_iff_right hthere, and_iff_right rfl, hstays]
    · have hnone : filterOps
          { result := .ok ⟨.internal, msg⟩, metrics := { tempPath := tempPath } } = [] := rfl
      rw [hfail, hnone, List.nil_append]
      rcases hpath with rfl | hfresh
      · exact .inl ⟨by simp [reportOps, removeFailed, Status.ok],
          by simp [streamAndReport, Status.ok], by simp⟩
      · have hremove : reportOps fs opts consumer
            { result := .ok ⟨.internal, msg⟩, metrics := { tempPath := tempPath } } =
            List.replicate (if opts.cleanupTempFile then 1 else 0) (.remove tempPath) :=
          removeFailed_eq hfresh.named
        rw [hremove]
        refine .inr ⟨tempPath, false, _, hfresh, rfl, fun hoff => ?_, fun _ => by simp,
          by simp⟩
        rw [hoff]
        rfl

/-- The run's own account of its temp file is what is on the disk. -/
theorem tempFile_isSome_iff (hdisk : Agrees fs disk) (onChunk : Option LogChunkConsumer)
    (eof : Option LogFilterEof) :
    (streamLogFilter fs opts spec onChunk eof).tempFile.isSome = true ↔
      ∃ p, FileOp.create p ∈ logFilterOps fs opts spec onChunk eof ∧
        p ∈ after disk (logFilterOps fs opts spec onChunk eof) := by
  rcases logFilterOps_cases fs opts spec onChunk eof with
    ⟨hnil, hnone, -⟩ | ⟨p, created, k, hfresh, hops, -, -, htemp⟩
  · rw [hnil, hnone]
    exact iff_of_false (by simp) (by simp)
  · have hp := hdisk p hfresh.missing
    rw [htemp, hops]
    constructor
    · rintro ⟨hcreated, hzero⟩
      exact ⟨p, create_mem_tempOps.mpr ⟨hcreated, rfl⟩,
        (mem_after_tempOps hp).mpr ⟨hcreated, hzero⟩⟩
    · rintro ⟨q, hq, hafter⟩
      obtain ⟨-, rfl⟩ := create_mem_tempOps.mp hq
      exact (mem_after_tempOps hp).mp hafter

/-! ## Both calls -/

theorem clean_nil (cleanup : Bool) (disk : Set Path) : Clean cleanup disk [] := by
  refine ⟨fun _ p hp => absurd hp List.not_mem_nil, fun _ p => List.not_mem_nil, ?_⟩
  intro pre hpre
  rw [List.prefix_nil.mp hpre]
  exact Set.Subset.rfl

theorem clean_logFilterOps_iff (hdisk : Agrees fs disk) (onChunk : Option LogChunkConsumer)
    (eof : Option LogFilterEof) :
    Clean opts.cleanupTempFile disk (logFilterOps fs opts spec onChunk eof) ↔
      ¬ (opts.cleanupTempFile = true ∧ Throws fs opts spec onChunk eof) := by
  rcases logFilterOps_cases fs opts spec onChunk eof with
    ⟨hnil, -, hno⟩ | ⟨p, created, k, hfresh, hops, hoff, hon, -⟩
  · rw [hnil]
    exact iff_of_true (clean_nil _ _) fun h => hno h.2
  · rw [hops, clean_tempOps_iff (hdisk p hfresh.missing) hoff]
    constructor
    · rintro hclean ⟨hcleanup, hthrows⟩
      exact (hon hcleanup).mp (hclean hcleanup) hthrows
    · intro hno hcleanup
      exact (hon hcleanup).mpr fun hthrows => hno ⟨hcleanup, hthrows⟩

theorem fresh_of_createTempFile {opId : OpId} (h : createTempFile fs opts opId = .ok p) :
    Fresh fs p := by
  unfold createTempFile at h
  cases hdir : resolveDirectory fs opts.tempDir with
  | error msg => simp [hdir] at h
  | ok dir =>
    simp only [hdir] at h
    cases hpath : createUniquePath fs dir ("pcap-" ++ toString opId ++ "-") ".pcap" with
    | error what => simp [hpath] at h
    | ok tempPath =>
      simp only [hpath] at h
      split_ifs at h
      obtain rfl := Except.ok.inj h
      exact fresh_of_createUniquePath (append_ne_empty _ _ (by decide)) hpath

/-- `PcapTask::Run` removes its temp file whenever it returns. -/
theorem clean_pcapOps (hdisk : Agrees fs disk) {e : Endian} {env : CaptureEnv} {polls : Polls}
    {opId : OpId} {pspec : PcapSpec} {fuel : ℕ} {run : PcapRun}
    (h : runPcap e fs env polls opts opId pspec fuel = some run) :
    Clean opts.cleanupTempFile disk (pcapOps fs opts e env polls opId pspec fuel) := by
  unfold runPcap at h
  unfold pcapOps
  cases hpath : createTempFile fs opts opId with
  | error msg => exact clean_nil _ _
  | ok tempPath =>
    simp only [hpath] at h ⊢
    cases hcap : streamCapture env (pcapCallbacks e fs polls (effectiveSnaplen pspec)) pspec fuel {}
      with
    | none => simp [hcap] at h
    | some r =>
      dsimp only
      have hfresh := fresh_of_createTempFile hpath
      have hops : .create tempPath :: cleanUp opts tempPath =
          tempOps tempPath true (if opts.cleanupTempFile = true then 1 else 0) := by
        rw [cleanUp_eq]
        rfl
      rw [hops, clean_tempOps_iff (hdisk tempPath hfresh.missing) (by intro hoff; simp [hoff])]
      intro hon _
      simp [hon]

def singleLog : LogOptions := { basePath := "/var/log/agent.log", includeRotations := false }

/-- A log whose disk fails when `exists` asks for it, after `weakly_canonical` has found it. -/
def failingFs : FileSystem :=
  { tempFs with
    existsAt := fun p =>
      if p = .ofString "/var/log/agent.log" then .error "Input/output error" else .ok false }

end Zurg.Tasks
