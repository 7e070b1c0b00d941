import Zurg.FileSystem
import Zurg.Grpc
import Zurg.Lib.History

/-!
# Zurg.TempFile — `temp_file.cpp`

`StreamFile` passes a file on in chunks: while nobody stops it and no chunk is refused the chunks
are the file, and in any case they are its beginning (`streamFile_spec`).  How it is stopped or
refused, and that all chunks but the last of the file are full, is `stream_file_faithful`.  There is
memory for the buffer, whatever the size of a chunk.
-/

namespace Zurg.TempFile

open Lib Proto Grpc

/-- `ResolveDirectory`; a failure is the message of its error code. -/
def resolveDirectory (fs : FileSystem) (preferredDir : String) : Except String Path :=
  let dir := if preferredDir = "" then fs.tempDirectoryPath else .ok (.ofString preferredDir)
  match dir with
  | .error msg => .error msg
  | .ok dir =>
    match fs.createDirectories dir with
    | some msg => .error msg
    | none => .ok dir

/-- The attempts of `CreateUniquePath` from `n` on. -/
def uniquePathFrom (fs : FileSystem) (directory : Path) (before after : String) (n : ℕ) :
    ℕ → Except String Path
  | 0 => .error "failed to generate unique temp file path"
  | attempts + 1 =>
    let candidate := directory / .ofString (before ++ fs.suffixes n ++ after)
    match fs.existsAt candidate with
    | .error msg => .error msg
    | .ok false => .ok candidate
    | .ok true => uniquePathFrom fs directory before after (n + 1) attempts

/-- `CreateUniquePath`; a failure is the text of its exception. -/
def createUniquePath (fs : FileSystem) (directory : Path) (before after : String) :
    Except String Path :=
  uniquePathFrom fs directory before after 0 1000

/-- The loop of `StreamFile`: `polls` calls of `should_stop` so far, `sent` the chunks passed on,
and `rest` what has not been read. -/
def streamLoop (chunkSize : ℕ) (shouldStop : ℕ → Bool) (onChunk : List LogChunk → LogChunk → Status)
    (polls : ℕ) (sent : List LogChunk) (offset : ℤ) (rest : Bytes) : List LogChunk × Status :=
  if shouldStop polls then (sent, ⟨.cancelled, "operation cancelled"⟩)
  else
    let data := rest.take chunkSize
    if data = [] then (sent, .success)
    else
      let chunk := { offset := offset, data := data }
      let status := onChunk sent chunk
      if !status.ok then (sent ++ [chunk], status)
      -- a short read sets `eofbit`
      else if data.length < chunkSize then (sent ++ [chunk], .success)
      else streamLoop chunkSize shouldStop onChunk (polls + 1) (sent ++ [chunk])
        (int64 (offset + data.length)) (rest.drop chunkSize)
termination_by rest.length
decreasing_by
  have hdata : rest.take chunkSize ≠ [] := ‹_›
  rw [Ne, List.take_eq_nil_iff, not_or] at hdata
  have := List.length_pos_iff.mpr hdata.2
  rw [List.length_drop]
  omega

/-- The chunk size that is used. -/
def effectiveChunkSize (chunkSize : ℕ) : ℕ := if chunkSize = 0 then 64 * 1024 else chunkSize

/-- `StreamFile`, on a file that may fail to open.  `onChunk` may remember the chunks it has got. -/
def streamFile (file : Option File) (chunkSize : ℕ) (shouldStop : ℕ → Bool)
    (onChunk : List LogChunk → LogChunk → Status) : List LogChunk × Status :=
  match file with
  | none => ([], ⟨.internal, "failed to reopen temp file"⟩)
  | some file =>
    streamLoop (effectiveChunkSize chunkSize) shouldStop onChunk 0 [] 0 file.bytes

/-! ## What is passed on -/

/-- The data of the chunks. -/
def chunkData (chunks : List LogChunk) : Bytes := chunks.flatMap LogChunk.data

@[simp] theorem chunkData_append (cs ds : List LogChunk) :
    chunkData (cs ++ ds) = chunkData cs ++ chunkData ds := List.flatMap_append

/-- Each chunk begins where the one before it ends, is not empty and not too long. -/
def Contiguous (size : ℕ) (chunks : List LogChunk) : Prop :=
  ∀ (pre : List LogChunk) (c : LogChunk) (post : List LogChunk), chunks = pre ++ c :: post →
    c.offset = (chunkData pre).length ∧ c.data ≠ [] ∧ c.data.length ≤ size

variable {size : ℕ} {chunks sent : List LogChunk} {shouldStop : ℕ → Bool}
  {onChunk : List LogChunk → LogChunk → Status} {rest : Bytes}

theorem Contiguous.nil : Contiguous size [] := by
  rintro pre c post h
  simp at h

theorem Contiguous.snoc (h : Contiguous size chunks) {c : LogChunk}
    (ho : c.offset = (chunkData chunks).length) (hn : c.data ≠ []) (hs : c.data.length ≤ size) :
    Contiguous size (chunks ++ [c]) := by
  intro pre d post heq
  rcases snoc_eq_split heq with ⟨rfl, rfl, -⟩ | ⟨post', -, rfl⟩
  · exact ⟨ho, hn, hs⟩
  · exact h pre d post' rfl

/-- What the chunks are, of the bytes of a file, when `StreamFile` returns. -/
structure Streamed (size : ℕ) (bytes : Bytes) (r : List LogChunk × Status) : Prop where
  contiguous : Contiguous size r.1
  isPrefix : chunkData r.1 <+: bytes
  complete : r.2.ok = true → chunkData r.1 = bytes

/-- What has been passed on is the file up to `rest`. -/
structure Sending (size : ℕ) (bytes : Bytes) (sent : List LogChunk) (offset : ℤ) (rest : Bytes) :
    Prop where
  contiguous : Contiguous size sent
  bytes : chunkData sent ++ rest = bytes
  offset : offset = (chunkData sent).length

variable {bytes : Bytes} {offset : ℤ}

theorem Sending.streamed (h : Sending size bytes sent offset rest) {status : Status}
    (hs : status.ok = true → rest = []) : Streamed size bytes (sent, status) :=
  ⟨h.contiguous, ⟨rest, h.bytes⟩, fun hok => by simpa [hs hok] using h.bytes⟩

/-- One more chunk. -/
theorem Sending.chunk (h : Sending size bytes sent offset rest) (hlen : bytes.length < 2 ^ 63)
    (hdata : rest.take size ≠ []) :
    Sending size bytes (sent ++ [{ offset := offset, data := rest.take size }])
      (int64 (offset + (rest.take size).length)) (rest.drop size) := by
  have hdata' : chunkData [{ offset := offset, data := rest.take size }] = rest.take size := by
    simp [chunkData]
  have hbytes : chunkData (sent ++ [{ offset := offset, data := rest.take size }]) ++
      rest.drop size = bytes := by
    rw [chunkData_append, hdata', List.append_assoc, List.take_append_drop, h.bytes]
  refine ⟨h.contiguous.snoc h.offset hdata (List.length_take_le _ _), hbytes, ?_⟩
  have hle := congrArg List.length hbytes
  rw [List.length_append, chunkData_append, hdata', List.length_append] at hle
  rw [chunkData_append, hdata', List.length_append, h.offset, ← Int.natCast_add]
  exact int64_of_lt (by omega)

/-- A chunk that is not full is the last one. -/
theorem drop_eq_nil_of_short (h : (rest.take size).length ≠ size) : rest.drop size = [] := by
  rw [List.length_take] at h
  exact List.drop_eq_nil_iff.mpr (by omega)

theorem streamLoop_spec (hsize : 0 < size) (hlen : bytes.length < 2 ^ 63) (polls : ℕ)
    (h : Sending size bytes sent offset rest) :
    Streamed size bytes (streamLoop size shouldStop onChunk polls sent offset rest) := by
  fun_induction streamLoop size shouldStop onChunk polls sent offset rest with
  | case1 => exact h.streamed nofun
  | case2 polls sent offset rest hstop data hdata =>
    refine h.streamed fun _ => ?_
    exact (List.take_eq_nil_iff.mp hdata).resolve_left (Nat.ne_of_gt hsize)
  | case3 polls sent offset rest hstop data hdata chunk status hstatus =>
    exact (h.chunk hlen hdata).streamed fun hok => by simp [hok] at hstatus
  | case4 polls sent offset rest hstop data hdata chunk status hstatus hshort =>
    exact (h.chunk hlen hdata).streamed fun _ => drop_eq_nil_of_short (Nat.ne_of_lt hshort)
  | case5 polls sent offset rest hstop data hdata chunk status hstatus hshort ih =>
    exact ih (h.chunk hlen hdata)

theorem effectiveChunkSize_pos (n : ℕ) : 0 < effectiveChunkSize n := by
  unfold effectiveChunkSize
  split_ifs <;> omega

theorem effectiveChunkSize_idem (n : ℕ) :
    effectiveChunkSize (effectiveChunkSize n) = effectiveChunkSize n :=
  if_neg (Nat.ne_of_gt (effectiveChunkSize_pos n))

/-- **Chunks.** -/
theorem streamFile_spec (file : File) (chunkSize : ℕ) :
    Streamed (effectiveChunkSize chunkSize) file.bytes
      (streamFile (some file) chunkSize shouldStop onChunk) :=
  streamLoop_spec (effectiveChunkSize_pos chunkSize) file.size_lt 0 ⟨.nil, rfl, rfl⟩

/-! ## How it ends -/

/-- Full chunks, each let through by `should_stop` and accepted. -/
structure Passed (size : ℕ) (shouldStop : ℕ → Bool) (onChunk : List LogChunk → LogChunk → Status)
    (chunks : List LogChunk) : Prop where
  full : ∀ c ∈ chunks, c.data.length = size
  asked : ∀ i < chunks.length, shouldStop i = false
  accepted : Always (fun pre c => (onChunk pre c).ok = true) chunks

theorem Passed.nil : Passed size shouldStop onChunk [] := ⟨by simp, by simp, .nil⟩

theorem Passed.snoc (h : Passed size shouldStop onChunk chunks) {c : LogChunk}
    (hfull : c.data.length = size) (hgo : shouldStop chunks.length = false)
    (hok : (onChunk chunks c).ok = true) : Passed size shouldStop onChunk (chunks ++ [c]) := by
  refine ⟨fun d hd => ?_, fun i hi => ?_, h.accepted.snoc hok⟩
  · rcases List.mem_append.mp hd with hd | hd
    · exact h.full d hd
    · rw [List.mem_singleton.mp hd]
      exact hfull
  · rw [List.length_append, List.length_singleton] at hi
    by_cases hlast : i = chunks.length
    · rw [hlast]
      exact hgo
    · exact h.asked i (by omega)

/-- The ways in which `StreamFile` returns. -/
inductive Outcome (size : ℕ) (bytes : Bytes) (shouldStop : ℕ → Bool)
    (onChunk : List LogChunk → LogChunk → Status) : List LogChunk × Status → Prop
  | stopped {chunks : List LogChunk} (h : Passed size shouldStop onChunk chunks)
      (hstop : shouldStop chunks.length = true) :
      Outcome size bytes shouldStop onChunk (chunks, ⟨.cancelled, "operation cancelled"⟩)
  /-- Nothing is left to be read. -/
  | ended {chunks : List LogChunk} (h : Passed size shouldStop onChunk chunks)
      (hgo : shouldStop chunks.length = false) (hall : chunkData chunks = bytes) :
      Outcome size bytes shouldStop onChunk (chunks, .success)
  | refused {chunks : List LogChunk} {c : LogChunk} (h : Passed size shouldStop onChunk chunks)
      (hgo : shouldStop chunks.length = false)
      (hdata : c.data.length = size ∨ chunkData (chunks ++ [c]) = bytes)
      (hno : (onChunk chunks c).ok = false) :
      Outcome size bytes shouldStop onChunk (chunks ++ [c], onChunk chunks c)
  /-- The last chunk is not full. -/
  | short {chunks : List LogChunk} {c : LogChunk} (h : Passed size shouldStop onChunk chunks)
      (hgo : shouldStop chunks.length = false) (hok : (onChunk chunks c).ok = true)
      (hshort : c.data.length < size) (hall : chunkData (chunks ++ [c]) = bytes) :
      Outcome size bytes shouldStop onChunk (chunks ++ [c], .success)

theorem streamLoop_outcome (hsize : 0 < size) (hlen : bytes.length < 2 ^ 63) {polls : ℕ}
    (h : Sending size bytes sent offset rest) (hpassed : Passed size shouldStop onChunk sent)
    (hpolls : polls = sent.length) :
    Outcome size bytes shouldStop onChunk
      (streamLoop size shouldStop onChunk polls sent offset rest) := by
  fun_induction streamLoop size shouldStop onChunk polls sent offset rest with
  | case1 polls sent offset rest hstop =>
    subst hpolls
    exact .stopped hpassed hstop
  | case2 polls sent offset rest hstop data hdata =>
    subst hpolls
    have hrest := (List.take_eq_nil_iff.mp hdata).resolve_left (Nat.ne_of_gt hsize)
    have hbytes := h.bytes
    rw [hrest, List.append_nil] at hbytes
    exact .ended hpassed (by simpa using hstop) hbytes
  | case3 polls sent offset rest hstop data hdata chunk status hstatus =>
    subst hpolls
    refine .refused hpassed (by simpa using hstop) ?_ (by simpa using hstatus)
    by_cases hfull : data.length = size
    · exact .inl hfull
    · have hnext := (h.chunk hlen hdata).bytes
      rw [drop_eq_nil_of_short hfull, List.append_nil] at hnext
      exact .inr hnext
  | case4 polls sent offset rest hstop data hdata chunk status hstatus hshort =>
    subst hpolls
    have hnext := (h.chunk hlen hdata).bytes
    rw [drop_eq_nil_of_short (Nat.ne_of_lt hshort), List.append_nil] at hnext
    exact .short hpassed (by simpa using hstop) (by simpa using hstatus) hshort hnext
  | case5 polls sent offset rest hstop data hdata chunk status hstatus hshort ih =>
    subst hpolls
    have hfull : data.length = size :=
      Nat.le_antisymm (List.length_take_le _ _) (Nat.le_of_not_lt hshort)
    refine ih (h.chunk hlen hdata) ?_ (by simp)
    exact hpassed.snoc hfull (by simpa using hstop) (by simpa using hstatus)

/-- `should_stop` is asked the `i`-th time: the chunks before are full and have been accepted. -/
def Asked (size : ℕ) (onChunk : List LogChunk → LogChunk → Status) (chunks : List LogChunk)
    (i : ℕ) : Prop :=
  i ≤ chunks.length ∧ ∀ pre c post, chunks = pre ++ c :: post → pre.length < i →
    c.data.length = size ∧ (onChunk pre c).ok = true

/-- What `StreamFile` is for: the chunks are the file or a clean beginning of it. -/
structure Faithful (size : ℕ) (bytes : Bytes) (shouldStop : ℕ → Bool)
    (onChunk : List LogChunk → LogChunk → Status) (r : List LogChunk × Status) : Prop where
  contiguous : Contiguous size r.1
  /-- Only the last chunk of the file may be shorter. -/
  full : ∀ pre c post, r.1 = pre ++ c :: post →
    c.data.length = size ∨ post = [] ∧ chunkData r.1 = bytes
  isPrefix : chunkData r.1 <+: bytes
  complete : r.2.ok = true → chunkData r.1 = bytes
  /-- It ends with OK unless it is stopped or a chunk is refused. -/
  ok : (∀ i, Asked size onChunk r.1 i → shouldStop i = false) →
    (∀ pre c post, r.1 = pre ++ c :: post → (onChunk pre c).ok = true) → r.2 = .success
  refused : ∀ pre c post, r.1 = pre ++ c :: post → (onChunk pre c).ok = false →
    post = [] ∧ r.2 = onChunk pre c
  stopped : ∀ i, Asked size onChunk r.1 i → shouldStop i = true →
    r.1.length = i ∧ r.2 = ⟨.cancelled, "operation cancelled"⟩

variable {r : List LogChunk × Status}

/-- A chunk is one of those passed before, or the last. -/
theorem Outcome.full (h : Outcome size bytes shouldStop onChunk r) (pre : List LogChunk)
    (c : LogChunk) (post : List LogChunk) (heq : r.1 = pre ++ c :: post) :
    c.data.length = size ∨ post = [] ∧ chunkData r.1 = bytes := by
  have hmem : ∀ {chunks : List LogChunk} {post'}, Passed size shouldStop onChunk chunks →
      chunks = pre ++ c :: post' → c.data.length = size := by
    rintro chunks post' hpassed rfl
    exact hpassed.full c (by simp)
  cases h with
  | stopped hpassed _ => exact .inl (hmem hpassed heq)
  | ended hpassed _ _ => exact .inl (hmem hpassed heq)
  | refused hpassed _ hdata _ =>
    rcases snoc_eq_split heq with ⟨rfl, rfl, rfl⟩ | ⟨post', -, rfl⟩
    · exact hdata.imp_right fun hall => ⟨rfl, hall⟩
    · exact .inl (hmem hpassed rfl)
  | short hpassed _ _ _ hall =>
    rcases snoc_eq_split heq with ⟨rfl, rfl, rfl⟩ | ⟨post', -, rfl⟩
    · exact .inr ⟨rfl, hall⟩
    · exact .inl (hmem hpassed rfl)

/-- After full chunks that have been accepted `should_stop` is asked once more. -/
theorem Passed.asked_length (h : Passed size shouldStop onChunk chunks) :
    Asked size onChunk chunks chunks.length :=
  ⟨Nat.le_refl _, fun pre c post heq _ =>
    ⟨h.full c (by simp [heq]), h.accepted pre c post heq⟩⟩

theorem Outcome.success (h : Outcome size bytes shouldStop onChunk r)
    (hgo : ∀ i, Asked size onChunk r.1 i → shouldStop i = false)
    (haccept : ∀ pre c post, r.1 = pre ++ c :: post → (onChunk pre c).ok = true) :
    r.2 = .success := by
  cases h with
  | stopped hpassed hstop =>
    exact absurd ((hgo _ hpassed.asked_length).symm.trans hstop) Bool.false_ne_true
  | @refused chunks c _ _ _ hno =>
    exact absurd (hno.symm.trans (haccept chunks c [] rfl)) Bool.false_ne_true
  | ended | short => rfl

theorem Outcome.refused_last (h : Outcome size bytes shouldStop onChunk r) (pre : List LogChunk)
    (c : LogChunk) (post : List LogChunk) (heq : r.1 = pre ++ c :: post)
    (hno : (onChunk pre c).ok = false) : post = [] ∧ r.2 = onChunk pre c := by
  have hmem : ∀ {chunks : List LogChunk} {post'}, Passed size shouldStop onChunk chunks →
      chunks = pre ++ c :: post' → False := by
    intro chunks post' hpassed heq'
    exact Bool.false_ne_true (hno.symm.trans (hpassed.accepted pre c post' heq'))
  cases h with
  | stopped hpassed _ => exact (hmem hpassed heq).elim
  | ended hpassed _ _ => exact (hmem hpassed heq).elim
  | refused hpassed _ _ _ =>
    rcases snoc_eq_split heq with ⟨rfl, rfl, rfl⟩ | ⟨post', -, rfl⟩
    · exact ⟨rfl, rfl⟩
    · exact (hmem hpassed rfl).elim
  | short hpassed _ hok _ _ =>
    rcases snoc_eq_split heq with ⟨rfl, rfl, rfl⟩ | ⟨post', -, rfl⟩
    · exact absurd (hno.symm.trans hok) Bool.false_ne_true
    · exact (hmem hpassed rfl).elim

theorem Outcome.stopped_at (h : Outcome size bytes shouldStop onChunk r) {i : ℕ}
    (hasked : Asked size onChunk r.1 i) (hstop : shouldStop i = true) :
    r.1.length = i ∧ r.2 = ⟨.cancelled, "operation cancelled"⟩ := by
  have hnever : ∀ {chunks : List LogChunk}, Passed size shouldStop onChunk chunks →
      ¬ i < chunks.length := fun hpassed hlt =>
    Bool.false_ne_true ((hpassed.asked i hlt).symm.trans hstop)
  have hnot : ∀ {chunks : List LogChunk}, shouldStop chunks.length = false →
      i ≠ chunks.length := by
    rintro chunks hgo rfl
    exact Bool.false_ne_true (hgo.symm.trans hstop)
  obtain ⟨hle, hbefore⟩ := hasked
  cases h with
  | @stopped chunks hpassed _ =>
    have hle' : i ≤ chunks.length := hle
    have := hnever hpassed
    exact ⟨show chunks.length = i by omega, rfl⟩
  | @ended chunks hpassed hgo _ =>
    have hle' : i ≤ chunks.length := hle
    have := hnever hpassed
    have := hnot hgo
    omega
  | @refused chunks c hpassed hgo _ hno =>
    have := hnever hpassed
    have := hnot hgo
    have hlast := (hbefore chunks c [] rfl (by omega)).2
    exact absurd (hno.symm.trans hlast) Bool.false_ne_true
  | @short chunks c hpassed hgo _ hshort _ =>
    have := hnever hpassed
    have := hnot hgo
    have hlast := (hbefore chunks c [] rfl (by omega)).1
    omega

/-- **Chunked re-reading** is faithful, or a clean beginning. -/
theorem stream_file_faithful (file : File) (chunkSize : ℕ) (shouldStop : ℕ → Bool)
    (onChunk : List LogChunk → LogChunk → Status) :
    Faithful (effectiveChunkSize chunkSize) file.bytes shouldStop onChunk
      (streamFile (some file) chunkSize shouldStop onChunk) := by
  have hspec : Streamed (effectiveChunkSize chunkSize) file.bytes
      (streamFile (some file) chunkSize shouldStop onChunk) := streamFile_spec file chunkSize
  have houtcome : Outcome (effectiveChunkSize chunkSize) file.bytes shouldStop onChunk
      (streamFile (some file) chunkSize shouldStop onChunk) :=
    streamLoop_outcome (effectiveChunkSize_pos chunkSize) file.size_lt ⟨.nil, rfl, rfl⟩ .nil rfl
  exact ⟨hspec.contiguous, houtcome.full, hspec.isPrefix, hspec.complete, houtcome.success,
    houtcome.refused_last, fun i hasked hstop => houtcome.stopped_at hasked hstop⟩

end Zurg.TempFile
