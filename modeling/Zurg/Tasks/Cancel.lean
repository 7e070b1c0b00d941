import Mathlib.Data.Bool.Basic
import Mathlib.Order.Monotone.Defs
import Zurg.LogOps.Correct
import Zurg.Tasks.Exec
import Zurg.Tasks.Pcap

/-!
# Zurg.Tasks.Cancel — `Task::Run`, and what becomes of a cancellation

A run under a cancel flag is compared with the run without it.  An exec task honours a cancellation
that comes before its input is collected; a pcap task only if none of the questions of its capture
has seen it, since the capture's own CANCELLED is reported by its number; a log filter task never
does.
-/

namespace Zurg.Tasks

open Lib Proto Grpc TempFile PcapOps LogOps
open Control (LogOptions TaskOutput Task)

/-- What the tasks of an agent find. -/
structure World where
  endian : Endian
  fs : FileSystem
  capture : CaptureEnv
  interfaces : Interfaces
  options : LogOptions

/-- `Task::Run`, for each kind of task. -/
def runTask (w : World) (polls : Polls) (task : Task) (fuel : ℕ) : Option TaskRun :=
  match task.spec with
  | .logFilter spec => runLogFilter w.fs w.options spec
  | .pcap spec =>
    (runPcap w.endian w.fs w.capture polls w.options task.opId spec fuel).map PcapRun.toTaskRun
  | .exec spec => some (runExec w.interfaces polls spec)

/-- The cancellation is honoured: the run ends cancelled and sends one error, CANCELLED. -/
def Honoured (run : TaskRun) : Prop :=
  run.state = .cancelled ∧ ∃ message, run.outputs = [.error "CANCELLED" message]

/-- When a cancellation is honoured that comes before the task has its input; `run` is what the task
would do without it.  A log filter task never asks, and what sees the flag in a pcap task must not be
a question of the capture. -/
def HonouredIf (task : Task) (run : TaskRun) (cancel : ℕ → Bool) : Prop :=
  match task.spec with
  | .logFilter _ => False
  | .pcap _ => ∀ i < run.collected, cancel i = false
  | .exec _ => True

/-! ## Pcap -/

variable {e : Endian} {fs : FileSystem} {env : CaptureEnv} {opts : LogOptions} {snaplen : ℕ}
  {cancel continues : ℕ → Bool}

/-- The flag has been seen by a question. -/
def FlagSeen (cancel : ℕ → Bool) (s : CaptureState) : Prop := ∃ i < s.polls, cancel i = true

theorem onPacket_polls (polls : Polls) (s : CaptureState) (pkt : PcapPacket) :
    ((pcapCallbacks e fs polls snaplen).onPacket s pkt).2.polls = s.polls + 1 := by
  rw [onPacket_eq]
  split_ifs <;> rfl

theorem FlagSeen.mono {s t : CaptureState} (h : FlagSeen cancel s) (hle : s.polls ≤ t.polls) :
    FlagSeen cancel t := by
  obtain ⟨i, hi, hc⟩ := h
  exact ⟨i, by omega, hc⟩

/-- The last question has seen a flag that has been seen. -/
theorem FlagSeen.last {s t : CaptureState} (hmono : Monotone cancel)
    (h : FlagSeen cancel t) (ht : t.polls = s.polls + 1) : cancel s.polls = true := by
  obtain ⟨i, hi, hc⟩ := h
  exact Bool.eq_true_of_true_le (hc ▸ hmono (show i ≤ s.polls by omega))

theorem cancel_of_not_flagSeen {s t : CaptureState} (h : ¬ FlagSeen cancel t)
    (ht : t.polls = s.polls + 1) : cancel s.polls = false := by
  by_contra hc
  exact h ⟨s.polls, by omega, by simpa using hc⟩

theorem pcapCallbacks_stopsAt (hmono : Monotone cancel) : StopsAt (FlagSeen cancel)
    (pcapCallbacks e fs ⟨fun _ => false, continues⟩ snaplen)
    (pcapCallbacks e fs ⟨cancel, continues⟩ snaplen) where
  seen_shouldStop s h := h.mono (Nat.le_succ _)
  seen_onPacket s pkt h := h.mono (by rw [onPacket_polls]; exact Nat.le_succ _)
  stop s h := by
    have hc := h.last hmono (s := s) rfl
    simp [pcapCallbacks, Polls.stop, hc]
  refuse s pkt h := by
    have hc := h.last hmono (onPacket_polls _ s pkt)
    rw [onPacket_eq, if_pos hc]
  shouldStop_eq s h := by
    have hc := cancel_of_not_flagSeen (s := s) h rfl
    simp [pcapCallbacks, Polls.stop, hc]
  onPacket_eq s pkt h := by
    have hc := cancel_of_not_flagSeen h (onPacket_polls _ s pkt)
    simp only [onPacket_eq, hc]
  setDatalink_eq _ _ := rfl

theorem runPcap_eq {polls : Polls} {opId : OpId} {spec : PcapSpec} {fuel : ℕ} {tempPath : Path}
    {s : CaptureState} {status : Status} {stats : PcapStats}
    (hpath : createTempFile fs opts opId = .ok tempPath)
    (hcap : streamCapture env (pcapCallbacks e fs polls (effectiveSnaplen spec)) spec fuel {} =
      some (s, status, stats)) :
    runPcap e fs env polls opts opId spec fuel =
      some (uploadCapture e fs polls opts tempPath (effectiveSnaplen spec) s status stats) := by
  simp only [runPcap, hpath, hcap]

/-- The capture's own CANCELLED is reported by its number. -/
theorem not_honoured_of_status {polls : Polls} {tempPath : Path} {s : CaptureState}
    {status : Status} {stats : PcapStats} (hcode : status.code = .cancelled) :
    ¬ Honoured (uploadCapture e fs polls opts tempPath snaplen s status stats).toTaskRun := by
  rintro ⟨-, message, h⟩
  have hok : status.ok = false := by simp [Status.ok, hcode]
  simp only [uploadCapture, hok, Bool.not_false, if_true, codeText, hcode, List.cons.injEq,
    TaskOutput.error.injEq] at h
  exact absurd h.1.1 (by decide)

/-- The first question of the upload sees the flag. -/
theorem honoured_of_upload {polls : Polls} {tempPath : Path} {s : CaptureState} {status : Status}
    {stats : PcapStats} (hok : status.ok = true) (hreopen : fs.reopen tempPath = true)
    (hstop : polls.stop s.polls = true) :
    Honoured (uploadCapture e fs polls opts tempPath snaplen s status stats).toTaskRun := by
  have hpolls := (ensureHeader_frame e fs snaplen s).2.2
  have hstream : ∀ file onChunk, streamFile (some file) (effectiveChunkSize opts.chunkSize)
      (fun n => polls.stop (s.polls + n)) onChunk = ([], ⟨.cancelled, "operation cancelled"⟩) := by
    intro file onChunk
    rw [streamFile, streamLoop]
    exact if_pos hstop
  rw [uploadCapture_eq_ok hok]
  simp only [hreopen, if_true, hpolls, hstream]
  exact ⟨rfl, _, rfl⟩

theorem runPcap_cancelled (hmono : Monotone cancel) {opId : OpId} {spec : PcapSpec} {fuel : ℕ}
    {run₀ : PcapRun}
    (h : runPcap e fs env ⟨fun _ => false, continues⟩ opts opId spec fuel = some run₀)
    (hdone : run₀.state = .completed) (hset : cancel run₀.collected = true) :
    ∃ run, runPcap e fs env ⟨cancel, continues⟩ opts opId spec fuel = some run ∧
      (Honoured run.toTaskRun ↔ ∀ i < run₀.collected, cancel i = false) := by
  obtain ⟨tempPath, s, status, stats, hpath, hcap, hok, rfl⟩ := runPcap_completed h hdone
  rw [uploadCapture_collected hok] at hset ⊢
  rcases streamCapture_stopsAt (pcapCallbacks_stopsAt hmono) hcap hok with
    ⟨hseen, hsame⟩ | ⟨⟨i, hi, hc⟩, ⟨s', status', stats'⟩, hcap', hcode⟩
  · have hstop : (⟨cancel, continues⟩ : Polls).stop s.polls = true := by simp [Polls.stop, hset]
    refine ⟨_, runPcap_eq hpath hsame, iff_of_true ?_ fun i hi => ?_⟩
    · exact honoured_of_upload hok (reopen_of_completed hdone) hstop
    · by_contra hc
      exact hseen ⟨i, hi, by simpa using hc⟩
  · refine ⟨_, runPcap_eq hpath hcap', iff_of_false (not_honoured_of_status hcode) fun hno => ?_⟩
    exact nomatch (hno i hi).symm.trans hc

/-! ## All kinds of task -/

theorem not_honoured_of_completed {run : TaskRun} (hdone : run.state = .completed) :
    ¬ Honoured run := fun h => nomatch hdone.symm.trans h.1

/-- Once the interfaces have been collected the flag is looked at. -/
theorem runExec_cancelled {ifs : Interfaces} {spec : ExecSpec} {polls polls' : Polls}
    (hdone : (runExec ifs polls spec).state = .completed) (hstop : polls'.stop 0 = true) :
    Honoured (runExec ifs polls' spec) := by
  unfold runExec at hdone ⊢
  cases hvalid : Control.execValidate spec with
  | some reason =>
    simp only [hvalid] at hdone
    exact nomatch hdone
  | none =>
    cases hcollect : collectUpInterfaces ifs with
    | error status =>
      simp only [hvalid, hcollect] at hdone
      exact nomatch hdone
    | ok output =>
      simp only [hstop, if_true]
      exact ⟨rfl, _, rfl⟩

theorem runExec_collected {ifs : Interfaces} {spec : ExecSpec} {polls : Polls} :
    (runExec ifs polls spec).collected = 0 := by
  unfold runExec
  split
  · rfl
  · split
    · rfl
    · split_ifs <;> rfl

/-- **Cancellation.**  A run that would complete, and is cancelled before its input is collected,
returns all the same; when it honours the cancellation is said by `HonouredIf`. -/
theorem cancel_honoured_iff {w : World} {task : Task} {fuel : ℕ} {continues cancel : ℕ → Bool}
    {run₀ : TaskRun} (h : runTask w ⟨fun _ => false, continues⟩ task fuel = some run₀)
    (hdone : run₀.state = .completed) (hmono : Monotone cancel)
    (hset : cancel run₀.collected = true) :
    ∃ run, runTask w ⟨cancel, continues⟩ task fuel = some run ∧
      (Honoured run ↔ HonouredIf task run₀ cancel) := by
  unfold runTask at h ⊢
  unfold HonouredIf
  match hspec : task.spec with
  | .logFilter spec =>
    simp only [hspec] at h ⊢
    exact ⟨run₀, h, iff_of_false (not_honoured_of_completed hdone) id⟩
  | .pcap spec =>
    simp only [hspec] at h ⊢
    obtain ⟨run₁, hrun₁, rfl⟩ := Option.map_eq_some_iff.mp h
    obtain ⟨run, hrun, hiff⟩ := runPcap_cancelled hmono hrun₁ hdone hset
    exact ⟨run.toTaskRun, by rw [hrun]; rfl, hiff⟩
  | .exec spec =>
    simp only [hspec] at h ⊢
    obtain rfl := Option.some.inj h
    rw [runExec_collected] at hset
    exact ⟨_, rfl, iff_of_true (runExec_cancelled hdone (by simp [Polls.stop, hset])) trivial⟩

def sampleWorld : World where
  endian := .little
  fs := sampleFs
  capture := sampleEnv
  interfaces := ⟨some [⟨some (bytes "lo"), true, none⟩], id, fun _ => .refl _⟩
  options := sampleOptions

/-- The flag set when the last question of a capture of two packets has been asked. -/
theorem cancel_honoured_iff_afterCapture : ∃ run,
    runTask sampleWorld ⟨fun i => decide (5 ≤ i), fun _ => true⟩
      ⟨0, 7, .pcap { packetLimit := 2 }⟩ 3 = some run ∧ Honoured run := by
  have hmap : (runTask sampleWorld undisturbed ⟨0, 7, .pcap { packetLimit := 2 }⟩ 3).map
      (fun r => (r.state, r.collected)) = some (.completed, 5) := by decide +kernel
  obtain ⟨run₀, hrun₀, hr⟩ := Option.map_eq_some_iff.mp hmap
  obtain ⟨hdone, hcollected⟩ := Prod.mk.inj hr
  have hmono : Monotone fun i => decide (5 ≤ i) := by
    intro i j hij hi
    simp only [decide_eq_true_eq] at hi ⊢
    omega
  obtain ⟨run, hrun, hiff⟩ := cancel_honoured_iff hrun₀ hdone hmono (by rw [hcollected]; rfl)
  exact ⟨run, hrun, hiff.mpr fun i hi => decide_eq_false (by omega)⟩

/-- Cancelled before `Run` is entered, a log filter task completes and a pcap task reports the
number of CANCELLED. -/
theorem not_honoured_beforeRun : ∃ run₁ run₂ run₃ run₄,
    runTask sampleWorld undisturbed ⟨0, 7, .logFilter sampleSpec⟩ 3 = some run₁ ∧
    run₁.state = .completed ∧
    runTask sampleWorld ⟨fun _ => true, fun _ => true⟩ ⟨0, 7, .logFilter sampleSpec⟩ 3 = some run₂ ∧
    ¬ Honoured run₂ ∧
    runTask sampleWorld undisturbed ⟨0, 7, .pcap { packetLimit := 2 }⟩ 3 = some run₃ ∧
    run₃.state = .completed ∧
    runTask sampleWorld ⟨fun _ => true, fun _ => true⟩ ⟨0, 7, .pcap { packetLimit := 2 }⟩ 3 =
      some run₄ ∧
    run₄.outputs = [.error "1" "capture cancelled"] ∧ ¬ Honoured run₄ := by
  have hlog : (runTask sampleWorld undisturbed ⟨0, 7, .logFilter sampleSpec⟩ 3).map
      TaskRun.state = some .completed := by decide +kernel
  have hpcap : (runTask sampleWorld undisturbed ⟨0, 7, .pcap { packetLimit := 2 }⟩ 3).map
      TaskRun.state = some .completed := by decide +kernel
  have hcancelled : (runTask sampleWorld ⟨fun _ => true, fun _ => true⟩
      ⟨0, 7, .pcap { packetLimit := 2 }⟩ 3).map TaskRun.outputs =
        some [.error "1" "capture cancelled"] := by decide +kernel
  obtain ⟨run₁, hrun₁, hdone₁⟩ := Option.map_eq_some_iff.mp hlog
  obtain ⟨run₃, hrun₃, hdone₃⟩ := Option.map_eq_some_iff.mp hpcap
  obtain ⟨run₄, hrun₄, houtputs⟩ := Option.map_eq_some_iff.mp hcancelled
  refine ⟨run₁, run₁, run₃, run₄, hrun₁, hdone₁, hrun₁, not_honoured_of_completed hdone₁, hrun₃,
    hdone₃, hrun₄, houtputs, ?_⟩
  rintro ⟨-, message, h⟩
  rw [houtputs] at h
  exact absurd h (by simp)

end Zurg.Tasks
