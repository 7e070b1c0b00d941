import Zurg.Lib.Loop
import Zurg.TempFile
import Zurg.LogOps.Files
import Zurg.LogOps.Parse

/-!
# Zurg.LogOps.Filter — `FilterLogsToTemp`, `StreamFilteredFile` and `StreamLogFilter`

The two loops of `FilterLogsToTemp` are `forEach` over the candidates and over the lines of one
file.  A function is left by `return status`, or by the exception of `exists` (`Except String
Status`); next to that every definition gives what has been done: the metrics, the temp file, the
files opened and the chunks delivered.
-/

namespace Zurg.LogOps

open Lib Proto Grpc TempFile
open Control (LogOptions)

/-- The bytes of a string. -/
def bytes (s : String) : Bytes := s.toByteArray.data.toList

/-! ## One line -/

structure TimeRange where
  start : Option Timestamp
  «end» : Option Timestamp

def timestampLess (lhs rhs : Timestamp) : Bool :=
  if lhs.seconds < rhs.seconds then true
  else if lhs.seconds > rhs.seconds then false
  else lhs.nanos < rhs.nanos

def inRange (line : ParsedLine) (range : TimeRange) : Bool :=
  if range.start.any (timestampLess line.ts) then false
  else if range.end.any (timestampLess · line.ts) then false
  else true

def inLevelFilter (line : ParsedLine) (levels : List Bytes) : Bool :=
  if levels.isEmpty then true else levels.any (line.levelLower = ·)

/-- `string_view::find` of a string. -/
def find (needle : Bytes) : Bytes → Option ℕ
  | [] => if needle = [] then some 0 else none
  | c :: rest => if needle.isPrefixOf (c :: rest) then some 0 else (find needle rest).map (· + 1)

def containsFilter (haystack needle : Bytes) : Bool :=
  if needle = [] then true else (find needle haystack).isSome

/-- `getline`: the next line and what follows it. -/
def getline (rest : Bytes) : Option (Bytes × Bytes) :=
  if rest = [] then none
  else some (rest.takeWhile (· ≠ byte '\n'), (rest.dropWhile (· ≠ byte '\n')).tail)

theorem length_of_getline {rest rest' line : Bytes} (h : getline rest = some (line, rest')) :
    rest'.length < rest.length := by
  unfold getline at h
  split_ifs at h with hne
  obtain ⟨-, rfl⟩ := Prod.mk.inj (Option.some.inj h)
  have hlen := (List.dropWhile_suffix (· ≠ byte '\n') (l := rest)).length_le
  have hpos := List.length_pos_iff.mpr hne
  rw [List.length_tail]
  omega

/-- What the calls of `getline` on a file give. -/
def getlines (rest : Bytes) : List Bytes :=
  match h : getline rest with
  | none => []
  | some (line, rest') => line :: getlines rest'
termination_by rest.length
decreasing_by exact length_of_getline h

/-! ## The temp file -/

structure FilterMetrics where
  totalSize : ℤ := 0
  totalLines : ℤ := 0
  sourceFiles : List String := []
  tempPath : Path := ⟨[]⟩
  deriving DecidableEq, Repr

/-- The state of the loops. -/
structure FilterState where
  metrics : FilterMetrics
  out : OutStream := {}
  /-- The files that an `ifstream` was opened on. -/
  opened : List Path := []
  deriving DecidableEq, Repr

/-- `enforce_limit`. -/
def enforceLimit (spec : LogFilterSpec) (metrics : FilterMetrics) (toWrite : ℕ) : Bool :=
  if spec.maxOutputBytes = 0 then true
  else int64 (metrics.totalSize + int64 toWrite) ≤ int64 spec.maxOutputBytes

variable (fs : FileSystem) (root : Root) (opts : LogOptions) (spec : LogFilterSpec)

def levelFilters : List Bytes := spec.levelIn.map fun lvl => toLower (bytes lvl)

/-- The tests a line has to pass. -/
def lineMatches (line : Bytes) : Bool :=
  match parseSpdlogLine line with
  | none => false
  | some parsed =>
    if !inRange parsed { start := spec.startTime, «end» := spec.endTime } then false
    else if !inLevelFilter parsed (levelFilters spec) then false
    else if !containsFilter line (bytes spec.grepContains) then false
    else true

/-- One turn of the inner loop. -/
def filterLine (st : FilterState) (line : Bytes) : FilterState × Option Status :=
  if !lineMatches spec line then (st, none)
  else
    let outputLine := line ++ [byte '\n']
    if !enforceLimit spec st.metrics outputLine.length then
      (st, some ⟨.resourceExhausted, "output exceeds limit"⟩)
    else
      let st := { st with out := st.out.write fs outputLine }
      if !st.out.good then (st, some ⟨.internal, "failed to write temp file"⟩)
      else
        ({ st with metrics := { st.metrics with
            totalSize := int64 (st.metrics.totalSize + outputLine.length)
            totalLines := int64 (st.metrics.totalLines + 1) } }, none)

/-- One turn of the outer loop. -/
def filterCandidate (st : FilterState) (candidate : Path) :
    FilterState × Option (Except String Status) :=
  match fs.weaklyCanonical candidate with
  | none => (st, none)
  | some canonical =>
    match fs.existsAt canonical with
    | .error what => (st, some (.error what))
    | .ok false => (st, none)
    | .ok true =>
      if root.enabled && leavesRoot fs root canonical then (st, none)
      else
        let st := { st with
          metrics := { st.metrics with
            sourceFiles := st.metrics.sourceFiles ++ [canonical.string] }
          opened := st.opened ++ [canonical] }
        match fs.openRead canonical with
        | none => (st, none)
        | some file =>
          let r := forEach (filterLine fs spec) st (getlines file.bytes)
          (r.1, r.2.map .ok)

/-- How `FilterLogsToTemp` ends, and what it has done. -/
structure Filtered where
  result : Except String Status
  metrics : FilterMetrics := {}
  /-- The temp file, if it has been created. -/
  tempFile : Option File := none
  opened : List Path := []

/-- `FilterLogsToTemp` once its temp file is open. -/
def filterTo (tempPath : Path) (candidates : List Path) : Filtered :=
  let r := forEach (filterCandidate fs root spec) { metrics := { tempPath := tempPath } } candidates
  { result := r.2.getD (.ok .success)
    metrics := r.1.metrics
    -- `out.close()`, whose result nobody looks at, or the destructor of `out`
    tempFile := some (r.1.out.close fs)
    opened := r.1.opened }

/-- `FilterLogsToTemp`; its `metrics` are never null. -/
def filterLogsToTemp (candidates : List Path) : Filtered :=
  match resolveDirectory fs opts.tempDir with
  | .error msg => { result := .ok ⟨.internal, msg⟩ }
  | .ok tempDir =>
    let baseName := if opts.outputBasename = "" then "logfilter" else opts.outputBasename
    match createUniquePath fs tempDir (baseName ++ "-") "" with
    | .error what => { result := .ok ⟨.internal, what⟩ }
    | .ok tempPath =>
      if fs.openWrite tempPath then filterTo fs root spec tempPath candidates
      else
        { result := .ok ⟨.internal, "failed to create temp file"⟩
          metrics := { tempPath := tempPath } }

/-- It fails before anything is opened, or filters into a temp file that is open. -/
theorem filterLogsToTemp_cases (candidates : List Path) :
    (∃ msg tempPath, filterLogsToTemp fs root opts spec candidates =
      { result := .ok ⟨.internal, msg⟩, metrics := { tempPath := tempPath } }) ∨
    ∃ tempPath, fs.openWrite tempPath = true ∧
      filterLogsToTemp fs root opts spec candidates =
        filterTo fs root spec tempPath candidates := by
  unfold filterLogsToTemp
  cases resolveDirectory fs opts.tempDir with
  | error msg => exact .inl ⟨_, ⟨[]⟩, rfl⟩
  | ok tempDir =>
    dsimp only
    cases createUniquePath fs tempDir _ "" with
    | error what => exact .inl ⟨_, ⟨[]⟩, rfl⟩
    | ok tempPath =>
      cases ho : fs.openWrite tempPath with
      | false => exact .inl ⟨_, tempPath, if_neg (by simp [ho])⟩
      | true => exact .inr ⟨tempPath, ho, if_pos ho⟩

/-- A callback of `StreamLogFilter`, which may remember the chunks it has got. -/
abbrev LogChunkConsumer := List LogChunk → LogChunk → Status

/-- `StreamFilteredFile`: the chunks delivered, the status, and the temp file. -/
def streamFilteredFile (onChunk : LogChunkConsumer) (filtered : Filtered) :
    List LogChunk × Status × Option File :=
  let file := if fs.reopen filtered.metrics.tempPath then filtered.tempFile else none
  let r := streamFile file opts.chunkSize (fun _ => false) onChunk
  (r.1, r.2, if r.2.ok && opts.cleanupTempFile then none else filtered.tempFile)

/-- A run of `StreamLogFilter`. -/
structure LogFilterRun where
  /-- The status returned or the exception thrown; `none` if the run does not end. -/
  result : Option (Except String Status)
  chunks : List LogChunk := []
  /-- `*eof` afterwards. -/
  eof : Option LogFilterEof
  /-- The temp file, if it is still there. -/
  tempFile : Option File := none
  opened : List Path := []

/-- `StreamLogFilter` from the return of `FilterLogsToTemp` on; `*eof` has been cleared. -/
def streamAndReport (onChunk : LogChunkConsumer) (filtered : Filtered) : LogFilterRun :=
  match filtered.result with
  | .error what =>
    { result := some (.error what)
      eof := some {}
      tempFile := filtered.tempFile
      opened := filtered.opened }
  | .ok filterStatus =>
    if !filterStatus.ok then
      { result := some (.ok filterStatus)
        eof := some {}
        tempFile := if opts.cleanupTempFile then none else filtered.tempFile
        opened := filtered.opened }
    else
      let (chunks, streamStatus, tempFile) := streamFilteredFile fs opts onChunk filtered
      if !streamStatus.ok then
        { result := some (.ok streamStatus)
          chunks := chunks
          eof := some {}
          tempFile := if opts.cleanupTempFile then none else tempFile
          opened := filtered.opened }
      else
        { result := some (.ok .success)
          chunks := chunks
          eof := some {
            totalSize := filtered.metrics.totalSize
            totalLines := filtered.metrics.totalLines
            tempFilePath := filtered.metrics.tempPath.string
            sourceFiles := filtered.metrics.sourceFiles }
          tempFile := if opts.cleanupTempFile then none else tempFile
          opened := filtered.opened }

/-- `StreamLogFilter`. -/
def streamLogFilter (onChunk : Option LogChunkConsumer) (eof : Option LogFilterEof) :
    LogFilterRun :=
  let fail (code : StatusCode) (message : String) (eof : Option LogFilterEof) : LogFilterRun :=
    { result := some (.ok ⟨code, message⟩), eof := eof }
  match eof, onChunk with
  | none, _ => fail .invalidArgument "missing eof" none
  | some eof, none => fail .invalidArgument "missing chunk callback" (some eof)
  | some _, some onChunk =>
    let eof : LogFilterEof := {}
    if spec.compress then fail .unimplemented "compress not supported" (some eof)
    else
      match makeRoot fs opts.logRoot with
      | none => fail .failedPrecondition "invalid log root" (some eof)
      | some root =>
        if opts.basePath = "" then
          fail .failedPrecondition "missing log base path" (some eof)
        else
          match resolvePath fs root opts.basePath with
          | none => fail .permissionDenied "base path outside root" (some eof)
          | some resolvedBase =>
            match enumerateCandidates resolvedBase opts.includeRotations
                opts.rotationScanDepth with
            | none => { result := none, eof := some eof }
            | some candidates =>
              streamAndReport fs opts onChunk (filterLogsToTemp fs root opts spec candidates)

end Zurg.LogOps
