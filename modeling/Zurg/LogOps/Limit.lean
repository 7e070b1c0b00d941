import Zurg.LogOps.Correct

/-!
# Zurg.LogOps.Limit — `max_output_bytes`

`enforce_limit` compares in 64 signed bits.  A limit below 2^63 is kept exactly unless the line that
exceeds it takes the total to 2^63; from 2^63 on it is a negative number, and the first line exceeds
it (`output_limit_iff`).
-/

namespace Zurg.LogOps

open Lib Proto Grpc TempFile
open Control (LogOptions)

/-- The bytes the lines take, each with its newline. -/
def outputSize (ls : List Bytes) : ℕ := (render ls).length

/-- The limit that is kept. -/
def effectiveLimit (maxOutputBytes : ℕ) : ℕ := if maxOutputBytes < 2 ^ 63 then maxOutputBytes else 0

/-- How `FilterLogsToTemp` ends at a line that takes the output to this size. -/
def exceededStatus (size : ℕ) : Status :=
  if size < 2 ^ 63 then ⟨.resourceExhausted, "output exceeds limit"⟩
  else ⟨.internal, "failed to write temp file"⟩

/-- What has come of the lines `ls`, all of which match, after `done`: they have been written within
the limit, or one of them was the first to exceed it. -/
def Limited (limit : ℕ) (done ls : List Bytes) : FilterState × Option Status → Prop
  | (st, none) => Wrote (done ++ ls) st ∧ outputSize (done ++ ls) ≤ limit
  | (st, some status) => ∃ pre line post, ls = pre ++ line :: post ∧
      st.out.taken.bytes = render (done ++ pre) ∧ outputSize (done ++ pre) ≤ limit ∧
      limit < outputSize (done ++ pre ++ [line]) ∧
      status = exceededStatus (outputSize (done ++ pre ++ [line]))

variable {fs : FileSystem} {root : Root} {opts : LogOptions} {spec : LogFilterSpec}
  {done ls : List Bytes} {line : Bytes} {st : FilterState} {limit : ℕ}

theorem outputSize_append (ls ls' : List Bytes) :
    outputSize (ls ++ ls') = outputSize ls + outputSize ls' := by
  rw [outputSize, render_append, List.length_append]
  rfl

theorem outputSize_singleton (line : Bytes) : outputSize [line] = line.length + 1 := by
  rw [outputSize, render_singleton, List.length_append]
  rfl

/-! ## One line -/

theorem int64_of_ge {n : ℕ} (h : 2 ^ 63 ≤ n) (h' : n < 2 ^ 64) : int64 n = n - 2 ^ 64 := by
  rw [int64, Int.bmod_def, Int.emod_eq_of_lt (by omega) (by omega), if_neg (by omega)]
  rfl

theorem effectiveLimit_lt (M : ℕ) : effectiveLimit M < 2 ^ 63 := by
  unfold effectiveLimit
  split_ifs <;> omega

/-- The signed comparison. -/
theorem enforceLimit_iff {metrics : FilterMetrics} {total n : ℕ} (hM : 0 < spec.maxOutputBytes)
    (hM' : spec.maxOutputBytes < 2 ^ 64) (hm : metrics.totalSize = int64 total)
    (htotal : total ≤ effectiveLimit spec.maxOutputBytes) (hn : n ≤ 2 ^ 63) (hn' : 0 < n) :
    enforceLimit spec metrics n = true ↔
      total + n ≤ effectiveLimit spec.maxOutputBytes ∨ 2 ^ 63 ≤ total + n := by
  have hlt := effectiveLimit_lt spec.maxOutputBytes
  have hsum : int64 (metrics.totalSize + int64 n) = int64 ((total + n : ℕ) : ℤ) := by
    rw [hm, int64_add, add_comm, int64_add, Int.natCast_add, add_comm]
  unfold enforceLimit
  rw [if_neg (by omega), hsum, decide_eq_true_eq]
  unfold effectiveLimit at htotal hlt ⊢
  by_cases hsize : total + n < 2 ^ 63
  · rw [int64_of_lt hsize]
    split_ifs at htotal ⊢ with hsmall
    · rw [int64_of_lt hsmall]
      omega
    · rw [int64_of_ge (by omega) hM']
      omega
  · rw [int64_of_ge (by omega) (by omega)]
    split_ifs at htotal ⊢ with hsmall
    · rw [int64_of_lt hsmall]
      omega
    · rw [int64_of_ge (by omega) hM']
      omega

/-- A write that would make the file too long puts nothing into it. -/
theorem write_tooLong {out : OutStream} {data : Bytes} (hfs : ∀ n, fs.failedWrites n = none)
    (hlen : 2 ^ 63 ≤ (out.taken.bytes ++ data).length) (hg : out.good = true) :
    (out.write fs data).good = false ∧ (out.write fs data).taken.bytes = out.taken.bytes := by
  have happend : out.taken.append data = none := dif_neg (by omega)
  simp only [OutStream.write, hg, hfs, happend, Bool.not_true, Bool.false_eq_true, if_false,
    true_and]

theorem limited_filterLine (hfs : ∀ n, fs.failedWrites n = none) (hM : 0 < spec.maxOutputBytes)
    (hM' : spec.maxOutputBytes < 2 ^ 64) (h : Wrote (done ++ ls) st)
    (hsize : outputSize (done ++ ls) ≤ effectiveLimit spec.maxOutputBytes)
    (hline : line.length < 2 ^ 63) :
    Limited (effectiveLimit spec.maxOutputBytes) done (ls ++ [line].filter (Matches spec))
      (filterLine fs spec st line) := by
  unfold filterLine
  cases hm : lineMatches spec line with
  | false =>
    have hno : ¬ Matches spec line := fun hyes => nomatch hm.symm.trans (lineMatches_iff.mpr hyes)
    simpa [Limited, hno] using ⟨h, hsize⟩
  | true =>
    have hyes : [line].filter (Matches spec) = [line] := by simp [lineMatches_iff.mp hm]
    have hgrow : outputSize (done ++ (ls ++ [line])) =
        outputSize (done ++ ls) + (line ++ [byte '\n']).length := by
      rw [← List.append_assoc, outputSize_append _ [line], outputSize_singleton, List.length_append]
      rfl
    have hsame : done ++ ls ++ [line] = done ++ (ls ++ [line]) := List.append_assoc ..
    have hbytes : (st.out.taken.bytes ++ (line ++ [byte '\n'])).length =
        outputSize (done ++ (ls ++ [line])) := by
      rw [List.length_append, h.bytes, hgrow]
      rfl
    have hiff : enforceLimit spec st.metrics (line ++ [byte '\n']).length = true ↔
        outputSize (done ++ (ls ++ [line])) ≤ effectiveLimit spec.maxOutputBytes ∨
          2 ^ 63 ≤ outputSize (done ++ (ls ++ [line])) := by
      rw [hgrow]
      exact enforceLimit_iff hM hM' h.totalSize hsize (by simp; omega) (by simp)
    rw [hyes]
    simp only [Bool.not_true, Bool.false_eq_true, if_false]
    split_ifs with hlimit hgood
    · rw [Bool.not_eq_true', Bool.eq_false_iff, Ne, hiff] at hlimit
      obtain ⟨hover, hshort⟩ : _ < _ ∧ _ < _ := by simpa only [not_or, not_le] using hlimit
      refine ⟨ls, line, [], rfl, h.bytes, hsize, hsame ▸ hover, ?_⟩
      rw [hsame, exceededStatus, if_pos hshort]
    · rcases hiff.mp (by simpa using hlimit) with hle | hlong
      · have hlt := effectiveLimit_lt spec.maxOutputBytes
        have := OutStream.good_write_iff.mpr ⟨h.good, hfs _, hbytes ▸ hle.trans_lt hlt⟩
        simp [this] at hgood
      · obtain ⟨-, hkept⟩ := write_tooLong hfs (hbytes ▸ hlong) h.good
        have hlt := effectiveLimit_lt spec.maxOutputBytes
        refine ⟨ls, line, [], rfl, hkept.trans h.bytes, hsize, hsame ▸ by omega, ?_⟩
        rw [hsame, exceededStatus, if_neg (by omega)]
    · have hgood' : (st.out.write fs (line ++ [byte '\n'])).good = true := by simpa using hgood
      have hlt := (OutStream.good_write_iff.mp hgood').2.2
      rw [hbytes] at hlt
      refine ⟨hsame ▸ h.line hgood' (OutStream.bytes_of_write hgood').2, ?_⟩
      exact (hiff.mp (by simpa using hlimit)).resolve_right (by omega)

/-! ## All lines -/

theorem Limited.more {st : FilterState} {status : Status} {more : List Bytes}
    (h : Limited limit done ls (st, some status)) :
    Limited limit done (ls ++ more) (st, some status) := by
  obtain ⟨pre, line, post, rfl, hrest⟩ := h
  exact ⟨pre, line, post ++ more, by rw [List.append_assoc, List.cons_append], hrest⟩

theorem length_of_mem_lines {content : Bytes} (h : line ∈ lines content) :
    line.length ≤ content.length := by
  rw [← getlines_eq_lines] at h
  fun_induction getlines content with
  | case1 => simp at h
  | case2 rest line' rest' hget ih =>
    have hshorter := length_of_getline hget
    rcases List.mem_cons.mp h with rfl | h
    · unfold getline at hget
      split_ifs at hget
      obtain ⟨rfl, -⟩ := Prod.mk.inj (Option.some.inj hget)
      exact (List.takeWhile_prefix _).length_le
    · exact (ih h).trans hshorter.le

theorem length_of_mem_fileLines {candidate : Path} (h : line ∈ fileLines fs root candidate) :
    line.length < 2 ^ 63 := by
  unfold fileLines at h
  split at h
  · exact nomatch h
  · split_ifs at h
    · split at h
      · exact nomatch h
      · next file _ => exact (length_of_mem_lines h).trans_lt file.size_lt
    · exact nomatch h

theorem limited_filterLines (hfs : ∀ n, fs.failedWrites n = none) (hM : 0 < spec.maxOutputBytes)
    (hM' : spec.maxOutputBytes < 2 ^ 64) (h : Wrote done st)
    (hsize : outputSize done ≤ effectiveLimit spec.maxOutputBytes)
    (hlines : ∀ line ∈ ls, line.length < 2 ^ 63) :
    Limited (effectiveLimit spec.maxOutputBytes) done (ls.filter (Matches spec))
      (forEach (filterLine fs spec) st ls) := by
  refine forEach_outcome (Q := fun pre => Limited (effectiveLimit spec.maxOutputBytes) done
    (pre.filter (Matches spec))) ?_ ?_ ?_
  · intro pre line t hmem hq
    rw [List.filter_append]
    exact limited_filterLine hfs hM hM' hq.1 hq.2 (hlines line hmem)
  · intro pre line t status hq
    rw [List.filter_append]
    exact hq.more
  · exact ⟨by simpa using h, by simpa using hsize⟩

theorem Limited.join {q : FilterState × Option Status} (h : Limited limit done ls q) :
    Limited limit [] (done ++ ls) q := by
  match q, h with
  | (st, none), h => exact h
  | (st, some status), ⟨pre, line, post, hls, hrest⟩ =>
    exact ⟨done ++ pre, line, post, by rw [hls, List.append_assoc], hrest⟩

/-- File operations succeed. -/
structure Succeeds (fs : FileSystem) (opts : LogOptions) : Prop where
  tempFile : ∃ dir tempPath, resolveDirectory fs opts.tempDir = .ok dir ∧
    createUniquePath fs dir
      ((if opts.outputBasename = "" then "logfilter" else opts.outputBasename) ++ "-") "" =
      .ok tempPath ∧
    fs.openWrite tempPath = true
  existsAt : ∀ p, ∃ b, fs.existsAt p = .ok b
  write : ∀ n, fs.failedWrites n = none
  close : fs.failedClose = none

/-- `Limited`, for the outer loop. -/
def LimitedRun (limit : ℕ) (ls : List Bytes) (q : FilterState × Option (Except String Status)) :
    Prop :=
  ∃ status : Option Status, q.2 = status.map .ok ∧ Limited limit [] ls (q.1, status)

theorem reference_append_singleton (pre : List Path) (candidate : Path) :
    reference fs root spec (pre ++ [candidate]) =
      reference fs root spec pre ++ (fileLines fs root candidate).filter (Matches spec) := by
  simp [reference]

theorem limited_filterCandidate (hs : Succeeds fs opts) (hfs : fs.Canonicalizes)
    (hroot : root.enabled = true → fs.weaklyCanonical root.canonical = some root.canonical)
    (hM : 0 < spec.maxOutputBytes) (hM' : spec.maxOutputBytes < 2 ^ 64) {pre : List Path}
    (h : Limited (effectiveLimit spec.maxOutputBytes) [] (reference fs root spec pre) (st, none))
    (candidate : Path) :
    LimitedRun (effectiveLimit spec.maxOutputBytes) (reference fs root spec (pre ++ [candidate]))
      (filterCandidate fs root spec st candidate) := by
  rcases filterCandidate_cases spec hfs hroot st candidate with
    ⟨c, what, hex, -⟩ | ⟨st', hsame, heq⟩
  · obtain ⟨b, hb⟩ := hs.existsAt c
    exact nomatch hex.symm.trans hb
  · rw [heq, reference_append_singleton]
    exact ⟨_, rfl, (limited_filterLines hs.write hM hM' (h.1.congr hsame) h.2
      fun line => length_of_mem_fileLines).join⟩

theorem limited_filterLogsToTemp (hs : Succeeds fs opts) (hfs : fs.Canonicalizes)
    (hroot : makeRoot fs opts.logRoot = some root) (hM : 0 < spec.maxOutputBytes)
    (hM' : spec.maxOutputBytes < 2 ^ 64) (candidates : List Path) :
    ∃ st status, Limited (effectiveLimit spec.maxOutputBytes) []
        (reference fs root spec candidates) (st, status) ∧
      filterLogsToTemp fs root opts spec candidates =
        { result := .ok (status.getD .success)
          metrics := st.metrics
          tempFile := some st.out.taken
          opened := st.opened } := by
  obtain ⟨dir, tempPath, hdir, hpath, hopen⟩ := hs.tempFile
  have hroot' := fun hon => hfs.idem (canonical_of_enabled hroot hon)
  have hto : filterLogsToTemp fs root opts spec candidates =
      filterTo fs root spec tempPath candidates := by
    simp only [filterLogsToTemp, hdir, hpath, hopen, if_true]
  obtain ⟨status, heq, hlim⟩ : LimitedRun (effectiveLimit spec.maxOutputBytes)
      (reference fs root spec candidates)
      (forEach (filterCandidate fs root spec) { metrics := { tempPath := tempPath } }
        candidates) := by
    refine forEach_outcome (Q := fun pre => LimitedRun (effectiveLimit spec.maxOutputBytes)
      (reference fs root spec pre)) ?_ ?_ ⟨none, rfl, .init tempPath, Nat.zero_le _⟩
    · rintro pre candidate st - ⟨status, hstatus, hq⟩
      obtain rfl := Option.map_eq_none_iff.mp hstatus.symm
      exact limited_filterCandidate hs hfs hroot' hM hM' hq candidate
    · rintro pre candidate st result ⟨status, hstatus, hq⟩
      obtain ⟨status, rfl, rfl⟩ := Option.map_eq_some_iff.mp hstatus.symm
      rw [reference_append_singleton]
      exact ⟨some status, rfl, hq.more⟩
  refine ⟨_, status, hlim, hto.trans ?_⟩
  rw [filterTo, heq, OutStream.close_of_none hs.close]
  cases status <;> rfl

/-! ## The temp file grows -/

theorem isPrefix_write (hfs : ∀ n, fs.failedWrites n = none) (out : OutStream) (data : Bytes) :
    out.taken.bytes <+: (out.write fs data).taken.bytes := by
  unfold OutStream.write
  rw [hfs]
  split_ifs
  · exact List.prefix_rfl
  · split
    · next hall => exact ⟨data, (File.bytes_of_append hall).symm⟩
    · next h _ => exact absurd h (by simp)
    · exact List.prefix_rfl

theorem isPrefix_filterLine (hfs : ∀ n, fs.failedWrites n = none) (st : FilterState)
    (line : Bytes) : st.out.taken.bytes <+: (filterLine fs spec st line).1.out.taken.bytes := by
  unfold filterLine
  dsimp only
  split_ifs
  · exact List.prefix_rfl
  · exact List.prefix_rfl
  · exact isPrefix_write hfs _ _
  · exact isPrefix_write hfs _ _

/-- What has been written after some candidates, or after some lines of one, stays. -/
theorem isPrefix_filterCandidate (hfs : ∀ n, fs.failedWrites n = none) (st : FilterState)
    (candidate : Path) :
    st.out.taken.bytes <+: (filterCandidate fs root spec st candidate).1.out.taken.bytes := by
  unfold filterCandidate
  split
  · exact List.prefix_rfl
  · split
    · exact List.prefix_rfl
    · exact List.prefix_rfl
    · split_ifs
      · exact List.prefix_rfl
      · dsimp only
        split
        · exact List.prefix_rfl
        · refine forEach_invariant (f := filterLine fs spec)
            (P := fun s => st.out.taken.bytes <+: s.out.taken.bytes) ?_ List.prefix_rfl
          exact fun s line hs => hs.trans (isPrefix_filterLine hfs s line)

/-! ## When the limit is exact -/

/-- Exactly an output that is too long is refused, and no more is ever written than the limit
allows: the temp file has only grown (`isPrefix_filterLine`, `isPrefix_filterCandidate`). -/
def KeepsLimit (maxOutputBytes total : ℕ) (r : Filtered) : Prop :=
  ((∃ message, r.result = .ok ⟨.resourceExhausted, message⟩) ↔ maxOutputBytes < total) ∧
  (total ≤ maxOutputBytes → r.result = .ok .success ∧ r.metrics.totalSize ≤ maxOutputBytes) ∧
  ∀ file, r.tempFile = some file → file.bytes.length ≤ maxOutputBytes

/-- The comparison in 64 signed bits comes to the right answer. -/
def ComparesRight (maxOutputBytes : ℕ) (ls : List Bytes) : Prop :=
  maxOutputBytes < 2 ^ 63 ∧
      (∀ pre line post, ls = pre ++ line :: post → outputSize pre ≤ maxOutputBytes →
        outputSize (pre ++ [line]) < 2 ^ 63) ∨
    2 ^ 63 ≤ maxOutputBytes ∧
      (ls = [] ∨ maxOutputBytes < outputSize ls ∧ ∀ line ∈ ls.head?, outputSize [line] < 2 ^ 63)

theorem effectiveLimit_le (M : ℕ) : effectiveLimit M ≤ M := by
  unfold effectiveLimit
  split_ifs <;> omega

theorem outputSize_mono {ls ls' : List Bytes} (h : ls <+: ls') :
    outputSize ls ≤ outputSize ls' := by
  obtain ⟨post, rfl⟩ := h
  rw [outputSize_append]
  exact Nat.le_add_right _ _

theorem eq_nil_of_outputSize (h : outputSize ls = 0) : ls = [] :=
  List.length_eq_zero_iff.mp (Nat.le_zero.mp (h ▸ length_le_length_render ls))

theorem exceededStatus_not_ok (size : ℕ) : exceededStatus size ≠ .success := by
  unfold exceededStatus
  split_ifs <;> decide

theorem exceededStatus_exhausted {size : ℕ} :
    (exceededStatus size).code = .resourceExhausted ↔ size < 2 ^ 63 := by
  unfold exceededStatus
  split_ifs with h
  · exact iff_of_true rfl h
  · exact iff_of_false nofun h

/-- A line is not the first to exceed the limit if one before it has exceeded it. -/
theorem not_exceeded_before {pre between : List Bytes} (hover : limit < outputSize (pre ++ [line]))
    (hwithin : outputSize (pre ++ between) ≤ limit) {tail tail' : List Bytes} {line' : Bytes}
    (heq : line :: tail = between ++ line' :: tail') : between = [] ∧ line = line' := by
  cases between with
  | nil => exact ⟨rfl, (List.cons.inj heq).1⟩
  | cons first between =>
    obtain rfl := (List.cons.inj heq).1
    have hmono : outputSize (pre ++ [line]) ≤ outputSize (pre ++ line :: between) :=
      outputSize_mono ⟨between, by simp⟩
    omega

/-- There is one line that is the first to exceed the limit. -/
theorem first_exceeding {pre post pre' post' : List Bytes} {line' : Bytes}
    (heq : pre ++ line :: post = pre' ++ line' :: post') (hpre : outputSize pre ≤ limit)
    (hover : limit < outputSize (pre ++ [line])) (hpre' : outputSize pre' ≤ limit)
    (hover' : limit < outputSize (pre' ++ [line'])) : pre = pre' ∧ line = line' := by
  rcases List.append_eq_append_iff.mp heq with ⟨between, rfl, h⟩ | ⟨between, rfl, h⟩
  · obtain ⟨rfl, hline⟩ := not_exceeded_before hover hpre' h
    exact ⟨(List.append_nil _).symm, hline⟩
  · obtain ⟨rfl, hline⟩ := not_exceeded_before hover' hpre h
    exact ⟨List.append_nil _, hline.symm⟩

theorem comparesRight_of_within {M : ℕ} (h : outputSize ls ≤ effectiveLimit M) :
    ComparesRight M ls := by
  by_cases hM : M < 2 ^ 63
  · refine .inl ⟨hM, fun pre line post heq _ => ?_⟩
    have hmono : outputSize (pre ++ [line]) ≤ outputSize ls :=
      outputSize_mono ⟨post, by simp [heq]⟩
    have hlt := effectiveLimit_lt M
    omega
  · rw [effectiveLimit, if_neg hM] at h
    exact .inr ⟨by omega, .inl (eq_nil_of_outputSize (by omega))⟩

theorem comparesRight_of_exceeded {M : ℕ} {pre post : List Bytes}
    (hpre : outputSize pre ≤ effectiveLimit M)
    (hover : effectiveLimit M < outputSize (pre ++ [line])) :
    ComparesRight M (pre ++ line :: post) ↔
      outputSize (pre ++ [line]) < 2 ^ 63 ∧ M < outputSize (pre ++ line :: post) := by
  have hmono : outputSize (pre ++ [line]) ≤ outputSize (pre ++ line :: post) :=
    outputSize_mono ⟨post, by simp⟩
  unfold ComparesRight
  by_cases hM : M < 2 ^ 63
  · rw [effectiveLimit, if_pos hM] at hpre hover
    constructor
    · rintro (⟨-, hall⟩ | ⟨hM', -⟩)
      · exact ⟨hall pre line post rfl hpre, by omega⟩
      · omega
    · rintro ⟨hshort, -⟩
      refine .inl ⟨hM, fun pre' line' post' heq hpre' => ?_⟩
      by_cases hover' : M < outputSize (pre' ++ [line'])
      · obtain ⟨rfl, rfl⟩ := first_exceeding heq hpre hover hpre' hover'
        exact hshort
      · omega
  · rw [effectiveLimit, if_neg hM] at hpre
    obtain rfl := eq_nil_of_outputSize (Nat.le_zero.mp hpre)
    simp only [List.nil_append, hM, false_and, false_or, List.head?_cons, Option.mem_some_iff,
      forall_eq', reduceCtorEq, Nat.le_of_not_lt hM, true_and]
    exact and_comm

/-- **The output limit** is kept exactly if the comparison comes to the right answer. -/
theorem output_limit_iff (hs : Succeeds fs opts) (hfs : fs.Canonicalizes)
    (hroot : makeRoot fs opts.logRoot = some root) (hM : 1 ≤ spec.maxOutputBytes)
    (hM' : spec.maxOutputBytes < 2 ^ 64) (candidates : List Path) :
    KeepsLimit spec.maxOutputBytes (outputSize (reference fs root spec candidates))
        (filterLogsToTemp fs root opts spec candidates) ↔
      ComparesRight spec.maxOutputBytes (reference fs root spec candidates) := by
  obtain ⟨st, status, hlim, heq⟩ := limited_filterLogsToTemp hs hfs hroot hM hM' candidates
  have hle := effectiveLimit_le spec.maxOutputBytes
  rw [heq]
  cases status with
  | none =>
    obtain ⟨hw, hsize⟩ := hlim
    rw [List.nil_append] at hw hsize
    have hlt := effectiveLimit_lt spec.maxOutputBytes
    refine iff_of_true ⟨iff_of_false ?_ (by omega), fun _ => ⟨rfl, ?_⟩, ?_⟩
      (comparesRight_of_within hsize)
    · rintro ⟨message, h⟩
      exact nomatch (Status.mk.inj (Except.ok.inj h)).1
    · rw [hw.totalSize, int64_of_lt (by exact hsize.trans_lt hlt)]
      exact_mod_cast hsize.trans hle
    · rintro file hfile
      obtain rfl := Option.some.inj hfile
      rw [hw.bytes]
      exact hsize.trans hle
  | some status =>
    obtain ⟨pre, line, post, hls, hbytes, hpre, hover, rfl⟩ := hlim
    rw [List.nil_append] at hbytes hpre hover
    rw [hls, comparesRight_of_exceeded hpre hover]
    constructor
    · rintro ⟨hrefused, hok, -⟩
      have htotal : spec.maxOutputBytes < outputSize (pre ++ line :: post) := by
        by_contra hfits
        exact exceededStatus_not_ok _ (Except.ok.inj (hok (Nat.le_of_not_lt hfits)).1)
      obtain ⟨message, h⟩ := hrefused.mpr htotal
      exact ⟨exceededStatus_exhausted.mp (congrArg Status.code (Except.ok.inj h)), htotal⟩
    · rintro ⟨hshort, htotal⟩
      refine ⟨iff_of_true ⟨"output exceeds limit", ?_⟩ htotal,
        fun hfits => absurd htotal (Nat.not_lt.mpr hfits), ?_⟩
      · rw [Option.getD_some, List.nil_append, exceededStatus, if_pos hshort]
      · rintro file hfile
        obtain rfl := Option.some.inj hfile
        rw [hbytes]
        exact hpre.trans hle

theorem sampleFs_succeeds : Succeeds sampleFs sampleOptions where
  tempFile := ⟨.ofString "/tmp", .ofString "/tmp/logfilter-0123456789abcdef", by decide⟩
  existsAt _ := ⟨_, rfl⟩
  write _ := rfl
  close := rfl

def sampleRoot : Root := { enabled := true, canonical := .ofString "/var/log" }

def boundedSpec (maxOutputBytes : ℕ) : LogFilterSpec :=
  { sampleSpec with maxOutputBytes := maxOutputBytes }

/-- A limit of exactly the bytes of the one line that matches. -/
theorem output_limit_iff_equality : KeepsLimit 54
    (outputSize (reference sampleFs sampleRoot (boundedSpec 54) [.ofString "/var/log/agent.log"]))
    (filterLogsToTemp sampleFs sampleRoot sampleOptions (boundedSpec 54)
      [.ofString "/var/log/agent.log"]) := by
  refine (output_limit_iff sampleFs_succeeds sampleFs_canonicalizes (by decide) (by decide)
    (by decide) _).mpr (comparesRight_of_within ?_)
  decide +kernel

/-- With a limit of 2^63 bytes an output of 54 bytes is refused. -/
theorem output_limit_negative : ¬ ∀ fs root opts spec candidates, Succeeds fs opts →
    fs.Canonicalizes → makeRoot fs opts.logRoot = some root → 1 ≤ spec.maxOutputBytes →
    spec.maxOutputBytes < 2 ^ 64 →
    KeepsLimit spec.maxOutputBytes (outputSize (reference fs root spec candidates))
      (filterLogsToTemp fs root opts spec candidates) := by
  intro hall
  have h := hall sampleFs sampleRoot sampleOptions (boundedSpec (2 ^ 63))
    [.ofString "/var/log/agent.log"] sampleFs_succeeds sampleFs_canonicalizes (by decide)
    (by decide) (by decide)
  have hrefused : (filterLogsToTemp sampleFs sampleRoot sampleOptions (boundedSpec (2 ^ 63))
      [.ofString "/var/log/agent.log"]).result =
      .ok ⟨.resourceExhausted, "output exceeds limit"⟩ := by decide +kernel
  have htotal : ¬ 2 ^ 63 < outputSize (reference sampleFs sampleRoot (boundedSpec (2 ^ 63))
      [.ofString "/var/log/agent.log"]) := by decide +kernel
  exact htotal (h.1.mp ⟨_, hrefused⟩)

end Zurg.LogOps
