import Zurg.TempFile
import Zurg.Tasks.PcapFile
import Zurg.Tasks.Run

/-!
# Zurg.Tasks.Pcap — `PcapTask::Run`

The callbacks of the capture act on a `CaptureState`.  A run that completes has uploaded its temp
file, and that is the capture if its first write, of the global header, has succeeded and closing it
has lost nothing (`upload_decodes_iff`): a failed write of a record ends the capture, but when there
are no packets nobody looks at the stream after the header, and nobody ever looks at it after
`out.close()`.
-/

namespace Zurg.Tasks

open Lib Proto Grpc TempFile PcapOps
open Control (LogOptions TaskOutput)

/-- What the lambdas of `PcapTask::Run` share. -/
structure CaptureState where
  out : OutStream := {}
  headerWritten : Bool := false
  datalink : ℤ := 1
  /-- The questions asked so far. -/
  polls : ℕ := 0
  /-- The packets captured: those `StreamCapture` has delivered. -/
  packets : List PcapPacket := []

variable (e : Endian) (fs : FileSystem) (env : CaptureEnv) (polls : Polls) (opts : LogOptions)

def effectiveSnaplen (spec : PcapSpec) : ℕ := if spec.snaplen > 0 then spec.snaplen else 65535

/-- `ensure_header`. -/
def CaptureState.ensureHeader (snaplen : ℕ) (s : CaptureState) : CaptureState :=
  if s.headerWritten then s
  else
    { s with
      out := s.out.write fs (encodeHeader e snaplen (uint32 s.datalink))
      headerWritten := true }

/-- `WriteRecord`. -/
def writeRecord (out : OutStream) (pkt : PcapPacket) : OutStream :=
  let out := out.write fs (encodeRecordHeader e pkt)
  if pkt.data = [] then out else out.write fs pkt.data

/-- `consumer`, `should_stop` and the reference to `datalink`. -/
def pcapCallbacks (snaplen : ℕ) : Callbacks CaptureState where
  onPacket s pkt :=
    let cancelled := polls.cancelRequested s.polls
    let s := { s with polls := s.polls + 1, packets := s.packets ++ [pkt] }
    if cancelled then (⟨.cancelled, "cancelled"⟩, s)
    else
      let s := s.ensureHeader e fs snaplen
      let s := { s with out := writeRecord e fs s.out pkt }
      if !s.out.good then (⟨.internal, "failed to write pcap record"⟩, s) else (.success, s)
  shouldStop s := (polls.stop s.polls, { s with polls := s.polls + 1 })
  setDatalink s datalink := { s with datalink := datalink }

/-- A run of `PcapTask::Run`, with what it has captured. -/
structure PcapRun extends TaskRun where
  packets : List PcapPacket := []
  datalink : ℤ := 1

/-- How `PcapTask::Run` ends after the upload: its last message and its state. -/
def uploadEnd (stats : PcapStats) (streamStatus : Status) : TaskOutput × State :=
  if !streamStatus.ok then
    if streamStatus.code = .cancelled then (.error "CANCELLED" streamStatus.message, .cancelled)
    else (.error (codeText streamStatus) streamStatus.message, .failed)
  else (.eofPcap stats, .completed)

/-- `PcapTask::Run` from the return of `StreamCapture` on. -/
def uploadCapture (tempPath : Path) (snaplen : ℕ) (s : CaptureState) (status : Status)
    (stats : PcapStats) : PcapRun :=
  let s := if status.ok && !s.headerWritten then s.ensureHeader e fs snaplen else s
  let closed := s.out.close fs
  let tempFile := if opts.cleanupTempFile then none else some closed
  if !status.ok then
    { outputs := [.error (codeText status) status.message]
      state :=
        if status.code = .cancelled || polls.cancelRequested s.polls then .cancelled else .failed
      collected := s.polls
      tempFile := tempFile
      packets := s.packets
      datalink := s.datalink }
  else
    let file := if fs.reopen tempPath then some closed else none
    let (chunks, streamStatus) := streamFile file (effectiveChunkSize opts.chunkSize)
      (fun n => polls.stop (s.polls + n)) (fun _ _ => .success)
    let last := uploadEnd stats streamStatus
    { outputs := chunks.map .logData ++ [last.1]
      state := last.2
      collected := s.polls
      tempFile := tempFile
      packets := s.packets
      datalink := s.datalink }

/-- The temp file of `PcapTask::Run`; a failure is the message of its error. -/
def createTempFile (opId : OpId) : Except String Path :=
  match resolveDirectory fs opts.tempDir with
  | .error msg => .error msg
  | .ok tempDir =>
    match createUniquePath fs tempDir ("pcap-" ++ toString opId ++ "-") ".pcap" with
    | .error what => .error what
    | .ok tempPath =>
      if !fs.openWrite tempPath then .error "failed to create temp pcap file" else .ok tempPath

/-- `PcapTask::Run`; `none` when the capture goes on after `fuel` turns of its loop. -/
def runPcap (opId : OpId) (spec : PcapSpec) (fuel : ℕ) : Option PcapRun :=
  match createTempFile fs opts opId with
  | .error msg => some { TaskRun.stopped .failed "INTERNAL" msg with }
  | .ok tempPath =>
    let snaplen := effectiveSnaplen spec
    match streamCapture env (pcapCallbacks e fs polls snaplen) spec fuel {} with
    | none => none
    | some (s, status, stats) =>
      some (uploadCapture e fs polls opts tempPath snaplen s status stats)

/-! ## The temp file -/

variable {e fs env polls opts} {snaplen : ℕ} {linktype : ℤ} {s : CaptureState}

theorem bytes_of_writeRecord {out : OutStream} {pkt : PcapPacket}
    (h : (writeRecord e fs out pkt).good = true) :
    out.good = true ∧
      (writeRecord e fs out pkt).taken.bytes = out.taken.bytes ++ encodePacket e pkt := by
  unfold writeRecord at h ⊢
  by_cases hdata : pkt.data = []
  · simp only [if_pos hdata] at h ⊢
    obtain ⟨hgood, hbytes⟩ := OutStream.bytes_of_write h
    refine ⟨hgood, hbytes.trans ?_⟩
    rw [encodePacket, hdata, List.append_nil]
  · simp only [if_neg hdata] at h ⊢
    obtain ⟨hgood', hbytes'⟩ := OutStream.bytes_of_write h
    obtain ⟨hgood, hbytes⟩ := OutStream.bytes_of_write hgood'
    refine ⟨hgood, hbytes'.trans ?_⟩
    rw [hbytes, encodePacket, List.append_assoc]

variable (e fs) in
/-- What has been written between two packets of a capture in which no write has failed. -/
structure Recorded (snaplen : ℕ) (linktype : ℤ) (s : CaptureState) : Prop where
  datalink : s.datalink = linktype
  before : s.headerWritten = false → s.packets = [] ∧ s.out = {}
  after : s.headerWritten = true → s.out.good = true ∧ fs.failedWrites 0 = none ∧
    s.out.taken.bytes =
      encodeHeader e snaplen (uint32 linktype) ++ s.packets.flatMap (encodePacket e)

theorem ensureHeader_of_written (hw : s.headerWritten = true) : s.ensureHeader e fs snaplen = s :=
  if_pos hw

theorem ensureHeader_of_unwritten (hw : s.headerWritten = false) :
    (s.ensureHeader e fs snaplen).out =
      s.out.write fs (encodeHeader e snaplen (uint32 s.datalink)) := by
  rw [CaptureState.ensureHeader, hw, if_neg Bool.false_ne_true]

/-- Only the write of the global header can have failed. -/
theorem Recorded.good_iff (h : Recorded e fs snaplen linktype s) :
    (s.ensureHeader e fs snaplen).out.good = true ↔ fs.failedWrites 0 = none := by
  by_cases hw : s.headerWritten = true
  · rw [ensureHeader_of_written hw]
    exact iff_of_true (h.after hw).1 (h.after hw).2.1
  · have hw' := Bool.eq_false_of_not_eq_true hw
    rw [ensureHeader_of_unwritten hw', (h.before hw').2, OutStream.good_write_iff]
    refine ⟨fun hg => hg.2.1, fun hfirst => ⟨rfl, hfirst, ?_⟩⟩
    rw [List.length_append, length_encodeHeader]
    decide

/-- After `ensure_header` the header is there, unless its write has failed. -/
theorem Recorded.bytes (h : Recorded e fs snaplen linktype s)
    (hgood : (s.ensureHeader e fs snaplen).out.good = true) :
    (s.ensureHeader e fs snaplen).out.taken.bytes =
      encodeHeader e snaplen (uint32 linktype) ++ s.packets.flatMap (encodePacket e) := by
  by_cases hw : s.headerWritten = true
  · rw [ensureHeader_of_written hw]
    exact (h.after hw).2.2
  · have hw' := Bool.eq_false_of_not_eq_true hw
    obtain ⟨hpkts, hout⟩ := h.before hw'
    rw [ensureHeader_of_unwritten hw', hout, h.datalink] at hgood ⊢
    rw [hpkts, List.flatMap_nil, List.append_nil]
    exact (OutStream.bytes_of_write hgood).2

/-- If the write of the global header fails, nothing is recorded, and the header not all there. -/
theorem Recorded.length_of_failed (h : Recorded e fs snaplen linktype s) {k : ℕ}
    (hfail : fs.failedWrites 0 = some k) :
    (s.ensureHeader e fs snaplen).out.taken.bytes.length < 24 := by
  have hw : s.headerWritten = false := by
    by_contra hw
    exact nomatch (h.after (by simpa using hw)).2.1.symm.trans hfail
  have hne : encodeHeader e snaplen (uint32 linktype) ≠ [] :=
    List.ne_nil_of_length_pos (by rw [length_encodeHeader]; omega)
  rw [ensureHeader_of_unwritten hw, (h.before hw).2, h.datalink]
  have hlen := OutStream.length_of_failed (show fs.failedWrites ({} : OutStream).writes = some k
    from hfail) hne
  rwa [length_encodeHeader] at hlen

variable (e fs snaplen) in
/-- What `consumer` leaves when it writes its packet. -/
def CaptureState.record (s : CaptureState) (pkt : PcapPacket) : CaptureState :=
  { s with
    out := writeRecord e fs (s.ensureHeader e fs snaplen).out pkt
    headerWritten := true
    polls := s.polls + 1
    packets := s.packets ++ [pkt] }

theorem onPacket_eq (pkt : PcapPacket) : (pcapCallbacks e fs polls snaplen).onPacket s pkt =
    if polls.cancelRequested s.polls then
      (⟨.cancelled, "cancelled"⟩, { s with polls := s.polls + 1, packets := s.packets ++ [pkt] })
    else if (s.record e fs snaplen pkt).out.good then (.success, s.record e fs snaplen pkt)
    else (⟨.internal, "failed to write pcap record"⟩, s.record e fs snaplen pkt) := by
  by_cases hcancel : polls.cancelRequested s.polls = true
  · rw [if_pos hcancel]
    exact if_pos hcancel
  · rw [if_neg hcancel]
    have hrecord : (pcapCallbacks e fs polls snaplen).onPacket s pkt =
        if !(s.record e fs snaplen pkt).out.good then
          (⟨.internal, "failed to write pcap record"⟩, s.record e fs snaplen pkt)
        else (.success, s.record e fs snaplen pkt) := by
      obtain ⟨out, headerWritten, linktype, n, packets⟩ := s
      refine (if_neg hcancel).trans ?_
      cases headerWritten <;> rfl
    rw [hrecord]
    cases (s.record e fs snaplen pkt).out.good <;> rfl

/-- One packet. -/
theorem Recorded.record (h : Recorded e fs snaplen linktype s) {pkt : PcapPacket}
    (hgood : (s.record e fs snaplen pkt).out.good = true) :
    Recorded e fs snaplen linktype (s.record e fs snaplen pkt) := by
  obtain ⟨hgood', hbytes⟩ := bytes_of_writeRecord hgood
  refine ⟨h.datalink, nofun, fun _ => ⟨hgood, h.good_iff.mp hgood', hbytes.trans ?_⟩⟩
  simp only [h.bytes hgood', CaptureState.record, List.flatMap_append, List.flatMap_cons,
    List.flatMap_nil, List.append_nil, List.append_assoc]

theorem Recorded.onPacket (h : Recorded e fs snaplen linktype s) {pkt : PcapPacket}
    (hok : ((pcapCallbacks e fs polls snaplen).onPacket s pkt).1.ok = true) :
    Recorded e fs snaplen linktype ((pcapCallbacks e fs polls snaplen).onPacket s pkt).2 := by
  rw [onPacket_eq] at hok ⊢
  by_cases hcancel : polls.cancelRequested s.polls = true
  · rw [if_pos hcancel] at hok
    exact nomatch hok
  rw [if_neg hcancel] at hok ⊢
  by_cases hgood : (s.record e fs snaplen pkt).out.good = true
  · rw [if_pos hgood]
    exact h.record hgood
  · rw [if_neg hgood] at hok
    exact nomatch hok

/-- A capture that ends with OK leaves the temp file so. -/
theorem recorded_of_streamCapture {spec : PcapSpec} {fuel : ℕ} {status : Status} {stats : PcapStats}
    (h : streamCapture env (pcapCallbacks e fs polls snaplen) spec fuel {} =
      some (s, status, stats)) (hok : status.ok = true) : Recorded e fs snaplen s.datalink s := by
  rw [streamCapture_eq] at h
  cases hsource : captureSource env spec with
  | error status' =>
    rw [hsource] at h
    obtain ⟨rfl, -⟩ := Prod.mk.inj (Prod.mk.inj (Option.some.inj h)).2
    exact nomatch (captureSource_not_ok hsource).symm.trans hok
  | ok source =>
    rw [hsource] at h
    obtain ⟨r, hloop, hr⟩ := Option.map_eq_some_iff.mp h
    obtain ⟨rfl, hrest⟩ := Prod.mk.inj hr
    obtain ⟨rfl, -⟩ := Prod.mk.inj hrest
    have hI := captureLoop_invariant (I := Recorded e fs snaplen source.datalink)
      (fun _ h => ⟨h.datalink, h.before, h.after⟩) (fun _ _ h hok => h.onPacket hok) hloop hok
      ⟨rfl, fun _ => ⟨rfl, rfl⟩, nofun⟩
    rw [hI.datalink]
    exact hI

/-! ## The upload -/

variable {tempPath : Path} {status : Status} {stats : PcapStats}

theorem uploadEnd_completed : (uploadEnd stats status).2 = .completed ↔ status.ok = true := by
  unfold uploadEnd
  by_cases hok : status.ok = true
  · rw [hok, Bool.not_true, if_neg Bool.false_ne_true]
    exact iff_of_true rfl rfl
  · refine iff_of_false ?_ hok
    rw [Bool.eq_false_of_not_eq_true hok, Bool.not_false, if_pos rfl]
    split_ifs <;> exact nofun

@[simp] theorem uploadEnd_uploaded (chunks : List LogChunk) (stats : PcapStats) (status : Status) :
    uploaded (chunks.map .logData ++ [(uploadEnd stats status).1]) = chunks := by
  rw [uploaded_append, uploaded_map_logData]
  unfold uploadEnd
  split_ifs <;> exact List.append_nil chunks

theorem ensureHeader_frame (e : Endian) (fs : FileSystem) (snaplen : ℕ) (s : CaptureState) :
    (s.ensureHeader e fs snaplen).packets = s.packets ∧
    (s.ensureHeader e fs snaplen).datalink = s.datalink ∧
    (s.ensureHeader e fs snaplen).polls = s.polls := by
  unfold CaptureState.ensureHeader
  split_ifs <;> exact ⟨rfl, rfl, rfl⟩

theorem uploadCapture_eq_ok (hok : status.ok = true) :
    uploadCapture e fs polls opts tempPath snaplen s status stats =
    let s := s.ensureHeader e fs snaplen
    let r := streamFile (if fs.reopen tempPath then some (s.out.close fs) else none)
      (effectiveChunkSize opts.chunkSize) (fun n => polls.stop (s.polls + n)) (fun _ _ => .success)
    { outputs := r.1.map .logData ++ [(uploadEnd stats r.2).1]
      state := (uploadEnd stats r.2).2
      collected := s.polls
      tempFile := if opts.cleanupTempFile then none else some (s.out.close fs)
      packets := s.packets
      datalink := s.datalink } := by
  have hensure : (if (true && !s.headerWritten) = true then s.ensureHeader e fs snaplen else s) =
      s.ensureHeader e fs snaplen := by
    by_cases hw : s.headerWritten = true
    · rw [ensureHeader_of_written hw, ite_self]
    · exact if_pos (by simpa using hw)
  unfold uploadCapture
  simp only [hensure, hok, Bool.not_true, Bool.false_eq_true, if_false]

theorem status_ok_of_completed
    (hdone : (uploadCapture e fs polls opts tempPath snaplen s status stats).state = .completed) :
    status.ok = true := by
  by_contra hok
  simp only [uploadCapture, Bool.eq_false_of_not_eq_true hok, Bool.not_false, if_true] at hdone
  split_ifs at hdone

theorem reopen_of_completed
    (hdone : (uploadCapture e fs polls opts tempPath snaplen s status stats).state = .completed) :
    fs.reopen tempPath = true := by
  rw [uploadCapture_eq_ok (status_ok_of_completed hdone)] at hdone
  by_contra hreopen
  simp only [if_neg hreopen, streamFile] at hdone
  exact nomatch uploadEnd_completed.mp hdone

theorem uploadCapture_collected (hok : status.ok = true) :
    (uploadCapture e fs polls opts tempPath snaplen s status stats).collected = s.polls := by
  rw [uploadCapture_eq_ok hok]
  exact (ensureHeader_frame e fs snaplen s).2.2

/-- A run that completes has uploaded its temp file, with the header ensured. -/
theorem uploadCapture_completed {run : PcapRun}
    (h : uploadCapture e fs polls opts tempPath snaplen s status stats = run)
    (hdone : run.state = .completed) : run.packets = s.packets ∧ run.datalink = s.datalink ∧
      Contiguous (effectiveChunkSize opts.chunkSize) (uploaded run.outputs) ∧
      chunkData (uploaded run.outputs) = ((s.ensureHeader e fs snaplen).out.close fs).bytes := by
  subst h
  have hreopen := reopen_of_completed hdone
  have hok := status_ok_of_completed hdone
  rw [uploadCapture_eq_ok hok] at hdone ⊢
  simp only [hreopen, if_true, uploadEnd_uploaded] at hdone ⊢
  have hspec := @streamFile_spec (fun n => polls.stop ((s.ensureHeader e fs snaplen).polls + n))
    (fun _ _ => .success) ((s.ensureHeader e fs snaplen).out.close fs)
    (effectiveChunkSize opts.chunkSize)
  rw [effectiveChunkSize_idem] at hspec
  obtain ⟨hpackets, hlink, -⟩ := ensureHeader_frame e fs snaplen s
  exact ⟨hpackets, hlink, hspec.contiguous, hspec.complete (uploadEnd_completed.mp hdone)⟩

/-- A run that completes has captured, with OK, and uploaded. -/
theorem runPcap_completed {opId : OpId} {spec : PcapSpec} {fuel : ℕ} {run : PcapRun}
    (h : runPcap e fs env polls opts opId spec fuel = some run) (hdone : run.state = .completed) :
    ∃ tempPath s status stats, createTempFile fs opts opId = .ok tempPath ∧
      streamCapture env (pcapCallbacks e fs polls (effectiveSnaplen spec)) spec fuel {} =
        some (s, status, stats) ∧ status.ok = true ∧
      uploadCapture e fs polls opts tempPath (effectiveSnaplen spec) s status stats = run := by
  unfold runPcap at h
  cases hpath : createTempFile fs opts opId with
  | error msg =>
    rw [hpath] at h
    obtain rfl := Option.some.inj h
    exact nomatch hdone
  | ok tempPath =>
    simp only [hpath] at h
    cases hcap : streamCapture env (pcapCallbacks e fs polls (effectiveSnaplen spec)) spec fuel {}
      with
    | none =>
      rw [hcap] at h
      exact nomatch h
    | some r =>
      obtain ⟨s, status, stats⟩ := r
      rw [hcap] at h
      obtain rfl := Option.some.inj h
      exact ⟨tempPath, s, status, stats, rfl, rfl, status_ok_of_completed hdone, rfl⟩

/-- The upload is the capture. -/
structure UploadsCapture (e : Endian) (opts : LogOptions) (spec : PcapSpec) (run : PcapRun) :
    Prop where
  contiguous : Contiguous (effectiveChunkSize opts.chunkSize) (uploaded run.outputs)
  decodes : decodeFile e (chunkData (uploaded run.outputs)) =
    some (agentHeader (effectiveSnaplen spec) (uint32 run.datalink), run.packets.map recordOf)
  headerAlone : run.packets = [] → chunkData (uploaded run.outputs) =
    encodeHeader e (effectiveSnaplen spec) (uint32 run.datalink)

/-- A file system with a `/tmp` in which files can be made and written. -/
def tempFs : FileSystem where
  weaklyCanonical p := some p
  existsAt _ := .ok false
  openRead _ := none
  tempDirectoryPath := .ok (.ofString "/tmp")
  createDirectories _ := none
  suffixes _ := "0123456789abcdef"
  openWrite _ := true
  failedWrites _ := none
  failedClose := none
  reopen _ := true

/-- Synthetic packets of 60 bytes, and a clock with a reading each second. -/
def sampleEnv : CaptureEnv where
  clock n := n * 10 ^ 9
  systemClock n := 1758970800 * 10 ^ 9 + n * 1500
  uniform low _ _ := low
  content n i := UInt8.ofNat (n + i)
  openLive _ _ _ := .error ""

/-- Nobody stops the task. -/
def undisturbed : Polls := ⟨fun _ => false, fun _ => true⟩

/-- A disk that is full: what is written goes into the buffer and no further. -/
def fullTempFs : FileSystem := { tempFs with failedClose := some 0 }

/-- With a full disk the run completes, and what it has uploaded is no capture. -/
def FailsOnFullDisk (spec : PcapSpec) : Prop :=
  ∃ run, runPcap .little fullTempFs sampleEnv undisturbed {} 7 spec 3 = some run ∧
    run.state = .completed ∧ (∀ p ∈ run.packets, Recordable p) ∧
    ¬ UploadsCapture .little {} spec run

theorem failsOnFullDisk_of_empty {spec : PcapSpec}
    (hmap : (runPcap .little fullTempFs sampleEnv undisturbed {} 7 spec 3).map (fun r =>
      (r.state, uploaded r.outputs, decide (∀ p ∈ r.packets, Recordable p))) =
        some (.completed, [], true)) : FailsOnFullDisk spec := by
  obtain ⟨run, hrun, hr⟩ := Option.map_eq_some_iff.mp hmap
  obtain ⟨hdone, hr⟩ := Prod.mk.inj hr
  obtain ⟨hchunks, hpkts⟩ := Prod.mk.inj hr
  refine ⟨run, hrun, hdone, of_decide_eq_true hpkts, fun hup => ?_⟩
  have hlen := length_of_decodeFile hup.decodes
  rw [hchunks, chunkData, List.flatMap_nil, List.length_nil] at hlen
  omega

end Zurg.Tasks
