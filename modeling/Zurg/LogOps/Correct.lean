import Mathlib.Data.List.Infix
import Zurg.LogOps.Confinement

/-!
# Zurg.LogOps.Correct — what `StreamLogFilter` delivers

The reference result is said without loops, stream states or temp files: the lines of the files
that count, as far as they match, each with a newline.  A run that returns OK has delivered it in
contiguous chunks, and `eof` has its size and its number of lines.
-/

namespace Zurg.LogOps

open Lib Proto Grpc TempFile
open Control (LogOptions)

variable {fs : FileSystem} {root : Root} {opts : LogOptions} {spec : LogFilterSpec}

/-! ## Lines that match -/

def Timestamp.Le (a b : Timestamp) : Prop :=
  a.seconds < b.seconds ∨ a.seconds = b.seconds ∧ a.nanos ≤ b.nanos

/-- The line can be parsed, its time is in the window, its level is one of those asked for, and it
contains the text. -/
def Matches (spec : LogFilterSpec) (line : Bytes) : Prop :=
  ∃ parsed, parseSpdlogLine line = some parsed ∧
    (∀ start, spec.startTime = some start → Timestamp.Le start parsed.ts) ∧
    (∀ stop, spec.endTime = some stop → Timestamp.Le parsed.ts stop) ∧
    (spec.levelIn = [] ∨ parsed.levelLower ∈ spec.levelIn.map (toLower ∘ bytes)) ∧
    bytes spec.grepContains <:+: line

theorem timestampLess_eq_false {a b : Timestamp} :
    timestampLess a b = false ↔ Timestamp.Le b a := by
  unfold timestampLess Timestamp.Le
  split_ifs with hlt hgt
  · rw [iff_false_left (by simp)]
    omega
  · simp only [true_iff]
    omega
  · simp only [decide_eq_false_iff_not]
    omega

theorem inRange_iff {line : ParsedLine} (range : TimeRange) : inRange line range = true ↔
    (∀ start, range.start = some start → Timestamp.Le start line.ts) ∧
      ∀ stop, range.end = some stop → Timestamp.Le line.ts stop := by
  have hbelow : range.start.any (timestampLess line.ts) = false ↔
      ∀ start, range.start = some start → Timestamp.Le start line.ts := by
    cases range.start <;> simp [timestampLess_eq_false]
  have habove : range.end.any (timestampLess · line.ts) = false ↔
      ∀ stop, range.end = some stop → Timestamp.Le line.ts stop := by
    cases range.end <;> simp [timestampLess_eq_false]
  rw [← hbelow, ← habove]
  unfold inRange
  split_ifs with hs he <;> simp_all

theorem inLevelFilter_iff {line : ParsedLine} : inLevelFilter line (levelFilters spec) = true ↔
    spec.levelIn = [] ∨ line.levelLower ∈ spec.levelIn.map (toLower ∘ bytes) := by
  have hany : (levelFilters spec).any (line.levelLower = ·) = true ↔
      line.levelLower ∈ levelFilters spec := by
    simp only [List.any_eq_true, decide_eq_true_eq, exists_eq_right']
  unfold inLevelFilter
  split_ifs with h
  · rw [levelFilters, List.isEmpty_map, List.isEmpty_iff] at h
    exact iff_of_true rfl (.inl h)
  · rw [levelFilters, List.isEmpty_map, List.isEmpty_iff] at h
    exact hany.trans (or_iff_right h).symm

theorem isSome_find_iff (needle hay : Bytes) : (find needle hay).isSome ↔ needle <:+: hay := by
  induction hay with
  | nil =>
    unfold find
    split_ifs with h <;> simp [h]
  | cons c rest ih =>
    unfold find
    rw [List.infix_cons_iff, ← ih]
    split_ifs with h
    · simp [List.isPrefixOf_iff_prefix.mp h]
    · have hno : ¬ needle <+: c :: rest := fun hp => h (List.isPrefixOf_iff_prefix.mpr hp)
      simp [hno]

theorem containsFilter_iff {hay needle : Bytes} :
    containsFilter hay needle = true ↔ needle <:+: hay := by
  unfold containsFilter
  split_ifs with h
  · simp [h]
  · exact isSome_find_iff needle hay

theorem lineMatches_iff {line : Bytes} : lineMatches spec line = true ↔ Matches spec line := by
  unfold lineMatches Matches
  cases hp : parseSpdlogLine line with
  | none => simp
  | some parsed =>
    simp only [Option.some.injEq, exists_eq_left', ← inLevelFilter_iff, ← containsFilter_iff]
    rw [← and_assoc, ← inRange_iff ⟨spec.startTime, spec.endTime⟩]
    split_ifs with hr hl hc <;> simp_all

instance (line : Bytes) : Decidable (Matches spec line) := decidable_of_iff _ lineMatches_iff

/-! ## Lines of a file -/

/-- What newlines separate; nothing follows a newline at the end. -/
def lines (content : Bytes) : List Bytes :=
  let pieces := content.splitOn (byte '\n')
  if pieces.getLast? = some [] then pieces.dropLast else pieces

theorem lines_cons {line rest : Bytes} (h : byte '\n' ∉ line) :
    lines (line ++ byte '\n' :: rest) = line :: lines rest := by
  have hne := List.splitOn_ne_nil (byte '\n') rest
  unfold lines
  rw [List.splitOn_append_cons_self_of_not_mem h]
  simp only [List.getLast?_cons_of_ne_nil hne, List.dropLast_cons_of_ne_nil hne]
  split_ifs <;> rfl

theorem lines_singleton {line : Bytes} (h : byte '\n' ∉ line) (hne : line ≠ []) :
    lines line = [line] := by
  unfold lines
  rw [List.splitOn_eq_singleton h]
  simp [hne]

theorem getlines_eq_lines (content : Bytes) : getlines content = lines content := by
  fun_induction getlines content with
  | case1 rest h =>
    unfold getline at h
    split_ifs at h with hnil
    rw [hnil]
    rfl
  | case2 rest line rest' h ih =>
    unfold getline at h
    split_ifs at h with hne
    obtain ⟨rfl, rfl⟩ := Prod.mk.inj (Option.some.inj h)
    rw [ih]
    have hnot : byte '\n' ∉ rest.takeWhile (· ≠ byte '\n') := by
      intro hm
      simpa using List.all_eq_true.mp List.all_takeWhile _ hm
    have hsplit := List.takeWhile_append_dropWhile (p := (· ≠ byte '\n')) (l := rest)
    cases hd : rest.dropWhile (· ≠ byte '\n') with
    | nil =>
      rw [hd, List.append_nil] at hsplit
      rw [hsplit] at hnot ⊢
      rw [lines_singleton hnot hne]
      rfl
    | cons c tail =>
      have hc : c = byte '\n' := by
        have hhead := List.head?_dropWhile_not (· ≠ byte '\n') rest
        rw [hd] at hhead
        simpa using hhead
      rw [hd, hc] at hsplit
      conv_rhs => rw [← hsplit]
      exact (lines_cons hnot).symm

/-! ## The reference -/

/-- The lines of a candidate, if it exists, opens and lies under the root. -/
def fileLines (fs : FileSystem) (root : Root) (candidate : Path) : List Bytes :=
  match fs.weaklyCanonical candidate with
  | none => []
  | some c =>
    if fs.existsAt c = .ok true ∧ (root.enabled = true → c.Below root.canonical) then
      match fs.openRead c with
      | none => []
      | some file => lines file.bytes
    else []

/-- The lines that are looked for, in order. -/
def reference (fs : FileSystem) (root : Root) (spec : LogFilterSpec) (candidates : List Path) :
    List Bytes :=
  (candidates.flatMap (fileLines fs root)).filter (Matches spec)

/-- Each line with a newline. -/
def render (lines : List Bytes) : Bytes := lines.flatMap (· ++ [byte '\n'])

theorem render_append (ls ls' : List Bytes) : render (ls ++ ls') = render ls ++ render ls' :=
  List.flatMap_append

theorem length_le_length_render (ls : List Bytes) : ls.length ≤ (render ls).length := by
  induction ls with
  | nil => exact Nat.le_refl _
  | cons l ls ih =>
    rw [render, List.flatMap_cons, List.length_append, List.length_append]
    simp only [List.length_cons, List.length_nil]
    unfold render at ih
    omega

/-! ## The loops -/

/-- The lines `done` have been written, and the metrics count them. -/
structure Wrote (done : List Bytes) (st : FilterState) : Prop where
  good : st.out.good = true
  bytes : st.out.taken.bytes = render done
  totalSize : st.metrics.totalSize = int64 (render done).length
  totalLines : st.metrics.totalLines = int64 done.length

variable {done : List Bytes} {st : FilterState}

theorem Wrote.init (tempPath : Path) : Wrote [] { metrics := { tempPath := tempPath } } where
  good := rfl
  bytes := rfl
  totalSize := (int64_of_lt (by decide)).symm
  totalLines := (int64_of_lt (by decide)).symm

theorem render_singleton (line : Bytes) : render [line] = line ++ [byte '\n'] :=
  List.append_nil _

/-- A line that matches is written and counted. -/
theorem Wrote.line (h : Wrote done st) {line : Bytes} {out : OutStream} (hg : out.good = true)
    (hb : out.taken.bytes = st.out.taken.bytes ++ (line ++ [byte '\n'])) :
    Wrote (done ++ [line])
      { st with
        out := out
        metrics := { st.metrics with
          totalSize := int64 (st.metrics.totalSize + (line ++ [byte '\n']).length)
          totalLines := int64 (st.metrics.totalLines + 1) } } where
  good := hg
  bytes := by rw [hb, h.bytes, render_append, render_singleton]
  totalSize :=
    calc int64 (st.metrics.totalSize + (line ++ [byte '\n']).length)
        = int64 ((render done).length + (line ++ [byte '\n']).length) := by
          rw [h.totalSize, int64_add]
      _ = int64 (render (done ++ [line])).length := by
          have hlen := congrArg List.length (render_append done [line])
          rw [render_singleton, List.length_append] at hlen
          rw [hlen, Int.natCast_add]
  totalLines :=
    calc int64 (st.metrics.totalLines + 1) = int64 (done.length + 1) := by
          rw [h.totalLines, int64_add]
      _ = int64 (done ++ [line]).length := by simp

theorem wrote_filterLine (h : Wrote done st) (line : Bytes) :
    LoopPost (Wrote (done ++ [line].filter (Matches spec))) (fun _ status => status.ok = false)
      (filterLine fs spec st line) := by
  unfold filterLine
  cases hm : lineMatches spec line with
  | false =>
    have hno : ¬ Matches spec line := fun hyes => nomatch hm.symm.trans (lineMatches_iff.mpr hyes)
    simpa [LoopPost, hno] using h
  | true =>
    have hyes : [line].filter (Matches spec) = [line] := by simp [lineMatches_iff.mp hm]
    rw [hyes]
    simp only [Bool.not_true, Bool.false_eq_true, if_false]
    split_ifs with hlimit hgood
    · rfl
    · rfl
    · have hgood' : (st.out.write fs (line ++ [byte '\n'])).good = true := by simpa using hgood
      exact h.line hgood' (OutStream.bytes_of_write hgood').2

theorem wrote_filterLines (fs : FileSystem) (spec : LogFilterSpec) (h : Wrote done st)
    (ls : List Bytes) :
    LoopPost (Wrote (done ++ ls.filter (Matches spec))) (fun _ status => status.ok = false)
      (forEach (filterLine fs spec) st ls) := by
  refine forEach_post (I := fun pre => Wrote (done ++ pre.filter (Matches spec))) ?_ []
    (by simpa using h)
  intro pre line s hs
  rw [List.filter_append, ← List.append_assoc]
  exact wrote_filterLine hs line

/-- Two states of the loops that agree about what has been written. -/
def FilterState.SameOutput (st st' : FilterState) : Prop :=
  (st.out, st.metrics.totalSize, st.metrics.totalLines) =
    (st'.out, st'.metrics.totalSize, st'.metrics.totalLines)

theorem Wrote.congr {st' : FilterState} (h : Wrote done st) (hsame : st.SameOutput st') :
    Wrote done st' := by
  obtain ⟨hout, hrest⟩ := Prod.mk.inj hsame
  obtain ⟨hsize, hlines⟩ := Prod.mk.inj hrest
  exact ⟨hout ▸ h.good, hout ▸ h.bytes, hsize ▸ h.totalSize, hlines ▸ h.totalLines⟩

/-- A canonical path is under the root, or the root is not enforced. -/
theorem insideRoot_iff (hfs : fs.Canonicalizes)
    (hroot : root.enabled = true → fs.weaklyCanonical root.canonical = some root.canonical)
    {candidate c : Path} (hc : fs.weaklyCanonical candidate = some c) :
    (root.enabled && leavesRoot fs root c) = false ↔
      (root.enabled = true → c.Below root.canonical) := by
  cases hon : root.enabled with
  | false => simp
  | true =>
    have hiff := leavesRoot_eq_false (p := c) hfs (hroot hon)
    simpa [hfs.idem hc] using hiff

/-- One candidate: `exists` throws, or its lines are gone through. -/
theorem filterCandidate_cases (spec : LogFilterSpec) (hfs : fs.Canonicalizes)
    (hroot : root.enabled = true → fs.weaklyCanonical root.canonical = some root.canonical)
    (st : FilterState) (candidate : Path) :
    (∃ c what, fs.existsAt c = .error what ∧
      filterCandidate fs root spec st candidate = (st, some (.error what))) ∨
    ∃ st', st.SameOutput st' ∧ filterCandidate fs root spec st candidate =
      ((forEach (filterLine fs spec) st' (fileLines fs root candidate)).1,
        (forEach (filterLine fs spec) st' (fileLines fs root candidate)).2.map .ok) := by
  unfold filterCandidate fileLines
  cases hc : fs.weaklyCanonical candidate with
  | none => exact .inr ⟨st, rfl, rfl⟩
  | some c =>
    cases he : fs.existsAt c with
    | error what => exact .inl ⟨c, what, he, by simp only [he]⟩
    | ok found =>
      cases found with
      | false => exact .inr ⟨st, rfl, by simp [he, forEach]⟩
      | true =>
        have hunder := insideRoot_iff hfs hroot hc
        cases ho : root.enabled && leavesRoot fs root c with
        | true =>
          have hout : ¬ (root.enabled = true → c.Below root.canonical) := fun hb =>
            Bool.false_ne_true ((hunder.mpr hb).symm.trans ho)
          exact .inr ⟨st, rfl, by simp [he, ho, hout, forEach]⟩
        | false =>
          have hin := hunder.mp ho
          simp only [he, ho, Bool.false_eq_true, if_false]
          rw [if_pos ⟨trivial, hin⟩]
          refine .inr ⟨{ st with
            metrics := { st.metrics with
              sourceFiles := st.metrics.sourceFiles ++ [c.string] }
            opened := st.opened ++ [c] }, rfl, ?_⟩
          cases fs.openRead c with
          | none => rfl
          | some file => simp only [getlines_eq_lines]

theorem wrote_filterCandidate (spec : LogFilterSpec) (hfs : fs.Canonicalizes)
    (hroot : root.enabled = true → fs.weaklyCanonical root.canonical = some root.canonical)
    (h : Wrote done st) (candidate : Path) :
    LoopPost (Wrote (done ++ (fileLines fs root candidate).filter (Matches spec)))
      (fun _ r => ∀ status, r = .ok status → status.ok = false)
      (filterCandidate fs root spec st candidate) := by
  rcases filterCandidate_cases spec hfs hroot st candidate with
    ⟨c, what, -, heq⟩ | ⟨st', hsame, heq⟩
  · rw [heq]
    exact nofun
  · rw [heq]
    refine (wrote_filterLines fs spec (h.congr hsame) _).map fun s status hs status' hok => ?_
    obtain rfl := Except.ok.inj hok
    exact hs

theorem wrote_filterTo (hfs : fs.Canonicalizes)
    (hroot : root.enabled = true → fs.weaklyCanonical root.canonical = some root.canonical)
    {tempPath : Path} {candidates : List Path} {status : Status}
    (hres : (filterTo fs root spec tempPath candidates).result = .ok status)
    (hok : status.ok = true) :
    ∃ out : OutStream, out.good = true ∧
      out.taken.bytes = render (reference fs root spec candidates) ∧
      (filterTo fs root spec tempPath candidates).tempFile = some (out.close fs) ∧
      (filterTo fs root spec tempPath candidates).metrics.totalSize = out.taken.bytes.length ∧
      (filterTo fs root spec tempPath candidates).metrics.totalLines =
        (reference fs root spec candidates).length := by
  have hloop : LoopPost (Wrote (reference fs root spec candidates))
      (fun _ r => ∀ status, r = .ok status → status.ok = false)
      (forEach (filterCandidate fs root spec) { metrics := { tempPath := tempPath } }
        candidates) := by
    refine forEach_post (I := fun pre => Wrote (reference fs root spec pre)) ?_ []
      (.init tempPath)
    intro pre candidate s hs
    have hstep := wrote_filterCandidate spec hfs hroot hs candidate
    simpa [reference] using hstep
  unfold filterTo at hres ⊢
  dsimp only at hres ⊢
  match hr : forEach (filterCandidate fs root spec) { metrics := { tempPath := tempPath } }
      candidates with
  | (s, some r) =>
    rw [hr] at hloop hres
    exact absurd hok (by simp [hloop status hres])
  | (s, none) =>
    rw [hr] at hloop
    have hw : Wrote (reference fs root spec candidates) s := hloop
    have hsize := s.out.taken.size_lt
    have hlines := length_le_length_render (reference fs root spec candidates)
    refine ⟨s.out, hw.good, hw.bytes, rfl, ?_, ?_⟩
    · rw [hw.totalSize, ← hw.bytes, int64_of_lt hsize]
    · rw [hw.totalLines, int64_of_lt]
      rw [hw.bytes] at hsize
      exact Nat.lt_of_le_of_lt hlines hsize

/-! ## The whole run -/

/-- A run ends before it opens anything, and not with OK; or it filters what it has resolved. -/
theorem streamLogFilter_cases (fs : FileSystem) (opts : LogOptions) (spec : LogFilterSpec)
    (onChunk : Option LogChunkConsumer) (eof : Option LogFilterEof) :
    (∃ result eof', streamLogFilter fs opts spec onChunk eof = { result := result, eof := eof' } ∧
      (∀ status, result = some (.ok status) → status.ok = false) ∧
      (eof' = some {} ∨ onChunk = none ∧ eof' = eof ∨ eof' = none)) ∨
    ∃ root base candidates consumer, makeRoot fs opts.logRoot = some root ∧
      resolvePath fs root opts.basePath = some base ∧
      enumerateCandidates base opts.includeRotations opts.rotationScanDepth = some candidates ∧
      streamLogFilter fs opts spec onChunk eof =
        streamAndReport fs opts consumer (filterLogsToTemp fs root opts spec candidates) := by
  have hfail : ∀ {code : StatusCode} {message : String}, code ≠ .ok →
      ∀ status, some (Except.ok ⟨code, message⟩) = some (Except.ok status : Except String Status) →
        status.ok = false := by
    rintro code message hne status heq
    obtain rfl := Except.ok.inj (Option.some.inj heq)
    simpa [Status.ok] using hne
  unfold streamLogFilter
  match eof, onChunk with
  | none, _ => exact .inl ⟨_, _, rfl, hfail (by decide), .inr (.inr rfl)⟩
  | some eof, none => exact .inl ⟨_, _, rfl, hfail (by decide), .inr (.inl ⟨rfl, rfl⟩)⟩
  | some eof, some consumer =>
    dsimp only
    by_cases hcompress : spec.compress = true
    · rw [if_pos hcompress]
      exact .inl ⟨_, _, rfl, hfail (by decide), .inl rfl⟩
    rw [if_neg hcompress]
    cases hroot : makeRoot fs opts.logRoot with
    | none => exact .inl ⟨_, _, rfl, hfail (by decide), .inl rfl⟩
    | some root =>
      dsimp only
      by_cases hbase : opts.basePath = ""
      · rw [if_pos hbase]
        exact .inl ⟨_, _, rfl, hfail (by decide), .inl rfl⟩
      rw [if_neg hbase]
      cases hresolve : resolvePath fs root opts.basePath with
      | none => exact .inl ⟨_, _, rfl, hfail (by decide), .inl rfl⟩
      | some base =>
        dsimp only
        cases hcand : enumerateCandidates base opts.includeRotations opts.rotationScanDepth with
        | none => exact .inl ⟨_, _, rfl, nofun, .inl rfl⟩
        | some candidates =>
          exact .inr ⟨root, base, candidates, consumer, rfl, hresolve, hcand, rfl⟩

/-- If the temp file has been streamed to its end it had been created and could be reopened. -/
theorem streamFilteredFile_ok {consumer : LogChunkConsumer} {filtered : Filtered}
    (hok : (streamFilteredFile fs opts consumer filtered).2.1.ok = true) :
    ∃ file, filtered.tempFile = some file ∧
      Streamed (effectiveChunkSize opts.chunkSize) file.bytes
        ((streamFilteredFile fs opts consumer filtered).1,
          (streamFilteredFile fs opts consumer filtered).2.1) := by
  unfold streamFilteredFile at hok ⊢
  dsimp only at hok ⊢
  cases hreopen : fs.reopen filtered.metrics.tempPath with
  | false => simp [hreopen, streamFile, Status.ok] at hok
  | true =>
    cases htemp : filtered.tempFile with
    | none => simp [hreopen, htemp, streamFile, Status.ok] at hok
    | some file => exact ⟨file, rfl, streamFile_spec file opts.chunkSize⟩

/-- Streaming ends with an empty `eof` and not with OK, or delivers the whole temp file. -/
theorem streamAndReport_cases (fs : FileSystem) (opts : LogOptions) (consumer : LogChunkConsumer)
    (filtered : Filtered) :
    ((streamAndReport fs opts consumer filtered).eof = some {} ∧
      ∀ status, (streamAndReport fs opts consumer filtered).result = some (.ok status) →
        status.ok = false) ∨
    (streamAndReport fs opts consumer filtered).result = some (.ok .success) ∧
    ∃ status file eof, filtered.result = .ok status ∧ status.ok = true ∧
      filtered.tempFile = some file ∧
      Contiguous (effectiveChunkSize opts.chunkSize)
        (streamAndReport fs opts consumer filtered).chunks ∧
      chunkData (streamAndReport fs opts consumer filtered).chunks = file.bytes ∧
      (streamAndReport fs opts consumer filtered).eof = some eof ∧
      eof.totalSize = filtered.metrics.totalSize ∧
      eof.totalLines = filtered.metrics.totalLines := by
  unfold streamAndReport
  cases hres : filtered.result with
  | error what => exact .inl ⟨rfl, by simp⟩
  | ok status =>
    cases hok : status.ok with
    | false => exact .inl (by simp [hok])
    | true =>
      cases hstream : (streamFilteredFile fs opts consumer filtered).2.1.ok with
      | false => exact .inl (by simp [hok, hstream])
      | true =>
        obtain ⟨file, hfile, hspec⟩ := streamFilteredFile_ok hstream
        simp only [hok, hstream, Bool.not_true, Bool.false_eq_true, if_false]
        exact .inr ⟨trivial, status, file, _, rfl, hok, hfile, hspec.contiguous,
          hspec.complete hstream, rfl, rfl, rfl⟩

/-- The chunks are the lines found, and `eof` counts them. -/
structure Delivers (opts : LogOptions) (found : List Bytes) (run : LogFilterRun) : Prop where
  data : chunkData run.chunks = render found
  contiguous : Contiguous (effectiveChunkSize opts.chunkSize) run.chunks
  eof : ∃ eof, run.eof = some eof ∧ eof.totalSize = (chunkData run.chunks).length ∧
    eof.totalLines = found.length

/-- What a run that returns OK has delivered: the reference result, as far as the temp file has it
when it is closed. -/
theorem closed_of_ok (hfs : fs.Canonicalizes) {onChunk : Option LogChunkConsumer}
    {eof₀ : Option LogFilterEof} {status : Status}
    (hres : (streamLogFilter fs opts spec onChunk eof₀).result = some (.ok status))
    (hok : status.ok = true) :
    ∃ root base candidates eof, ∃ out : OutStream, makeRoot fs opts.logRoot = some root ∧
      resolvePath fs root opts.basePath = some base ∧
      enumerateCandidates base opts.includeRotations opts.rotationScanDepth =
        some candidates ∧
      out.good = true ∧ out.taken.bytes = render (reference fs root spec candidates) ∧
      chunkData (streamLogFilter fs opts spec onChunk eof₀).chunks = (out.close fs).bytes ∧
      Contiguous (effectiveChunkSize opts.chunkSize)
        (streamLogFilter fs opts spec onChunk eof₀).chunks ∧
      (streamLogFilter fs opts spec onChunk eof₀).eof = some eof ∧
      eof.totalSize = out.taken.bytes.length ∧
      eof.totalLines = (reference fs root spec candidates).length := by
  rcases streamLogFilter_cases fs opts spec onChunk eof₀ with
    ⟨result, eof', hrun, hfail, -⟩ | ⟨root, base, candidates, consumer, hroot, hbase, hcand, hrun⟩
  · rw [hrun] at hres
    exact nomatch (hfail status hres).symm.trans hok
  · rw [hrun] at hres ⊢
    rcases streamAndReport_cases fs opts consumer
        (filterLogsToTemp fs root opts spec candidates) with
      ⟨-, hfail⟩ | ⟨-, status', file, eof, hres', hok', hfile, hcont, hdata, heof, hsize, hlines⟩
    · exact nomatch (hfail status hres).symm.trans hok
    · rcases filterLogsToTemp_cases fs root opts spec candidates with
        ⟨msg, tempPath, hfail⟩ | ⟨tempPath, -, hto⟩
      · rw [hfail] at hres'
        obtain rfl := Except.ok.inj hres'
        exact nomatch hok'
      · have hfs' := fun hon => hfs.idem (canonical_of_enabled hroot hon)
        rw [hto] at hres' hfile hsize hlines
        obtain ⟨out, hgood, hbytes, hfile', hsize', hlines'⟩ := wrote_filterTo hfs hfs' hres' hok'
        obtain rfl := Option.some.inj (hfile.symm.trans hfile')
        exact ⟨root, base, candidates, eof, out, hroot, hbase, hcand, hgood, hbytes, hdata, hcont,
          heof, hsize.trans hsize', hlines.trans hlines'⟩

theorem render_eq_nil {ls : List Bytes} : render ls = [] ↔ ls = [] := by
  refine ⟨fun h => ?_, fun h => h ▸ rfl⟩
  have hlen := length_le_length_render ls
  rw [h] at hlen
  exact List.length_eq_zero_iff.mp (Nat.le_zero.mp hlen)

/-- A run that returns OK has delivered the reference result exactly if closing the temp file has
lost nothing, or there was nothing to lose. -/
theorem delivers_iff_of_ok (hfs : fs.Canonicalizes) {onChunk : Option LogChunkConsumer}
    {eof₀ : Option LogFilterEof} {status : Status}
    (hres : (streamLogFilter fs opts spec onChunk eof₀).result = some (.ok status))
    (hok : status.ok = true) :
    ∃ root base candidates, makeRoot fs opts.logRoot = some root ∧
      resolvePath fs root opts.basePath = some base ∧
      enumerateCandidates base opts.includeRotations opts.rotationScanDepth =
        some candidates ∧
      (Delivers opts (reference fs root spec candidates)
          (streamLogFilter fs opts spec onChunk eof₀) ↔
        fs.failedClose = none ∨ reference fs root spec candidates = []) := by
  obtain ⟨root, base, candidates, eof, out, hroot, hbase, hcand, hgood, hbytes, hdata, hcont, heof,
    hsize, hlines⟩ := closed_of_ok hfs hres hok
  have hiff : (out.close fs).bytes = out.taken.bytes ↔ _ := OutStream.close_iff hgood
  rw [hbytes, render_eq_nil] at hiff
  refine ⟨root, base, candidates, hroot, hbase, hcand, ?_⟩
  rw [← hiff, ← hdata]
  constructor
  · exact fun h => h.data
  · intro hall
    refine ⟨hall, hcont, eof, heof, ?_, hlines⟩
    rw [hsize, hbytes, hall]

/-- If closing the temp file loses nothing, a run that returns OK has delivered the reference
result. -/
theorem delivered_of_ok (hfs : fs.Canonicalizes) (hclose : fs.failedClose = none)
    {onChunk : Option LogChunkConsumer} {eof₀ : Option LogFilterEof} {status : Status}
    (hres : (streamLogFilter fs opts spec onChunk eof₀).result = some (.ok status))
    (hok : status.ok = true) :
    ∃ root base candidates, makeRoot fs opts.logRoot = some root ∧
      resolvePath fs root opts.basePath = some base ∧
      enumerateCandidates base opts.includeRotations opts.rotationScanDepth =
        some candidates ∧
      Delivers opts (reference fs root spec candidates)
        (streamLogFilter fs opts spec onChunk eof₀) := by
  obtain ⟨root, base, candidates, hroot, hbase, hcand, hiff⟩ := delivers_iff_of_ok hfs hres hok
  exact ⟨root, base, candidates, hroot, hbase, hcand, hiff.mpr (.inl hclose)⟩

/-- A run that does not return OK leaves `eof` empty. -/
theorem eof_of_not_ok {onChunk : Option LogChunkConsumer} {eof₀ : Option LogFilterEof}
    (hno : ∀ status, (streamLogFilter fs opts spec onChunk eof₀).result = some (.ok status) →
      status.ok = false)
    (hgiven : onChunk ≠ none ∨ eof₀ = some {}) {eof : LogFilterEof}
    (heof : (streamLogFilter fs opts spec onChunk eof₀).eof = some eof) : eof = {} := by
  rcases streamLogFilter_cases fs opts spec onChunk eof₀ with
    ⟨result, eof', hrun, -, hcases⟩ | ⟨root, base, candidates, consumer, -, -, -, hrun⟩
  · rw [hrun] at heof
    have heof' : eof' = some eof := heof
    rcases hcases with rfl | ⟨hnone, rfl⟩ | rfl
    · exact (Option.some.inj heof').symm
    · rcases hgiven with hne | rfl
      · exact absurd hnone hne
      · exact (Option.some.inj heof').symm
    · exact nomatch heof'
  · rw [hrun] at hno heof
    rcases streamAndReport_cases fs opts consumer
        (filterLogsToTemp fs root opts spec candidates) with ⟨hempty, -⟩ | ⟨hend, -⟩
    · exact (Option.some.inj (hempty.symm.trans heof)).symm
    · exact nomatch hno _ hend

def sampleOptions : LogOptions :=
  { logRoot := "/var/log", basePath := "agent.log", chunkSize := 16, rotationScanDepth := 1 }

def sampleSpec : LogFilterSpec := { levelIn := ["INFO"], grepContains := "keep" }

/-- A disk on which the buffer still goes, but nothing behind it. -/
def fullFs : FileSystem := { sampleFs with failedClose := some 0 }

end Zurg.LogOps
