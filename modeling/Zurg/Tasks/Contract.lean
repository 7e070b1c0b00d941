import Zurg.Control.Schedule
import Zurg.Tasks.Cancel

/-!
# Zurg.Tasks.Contract — what a run of a task sends

A run that returns has sent data of its operation and then one terminal message, which agrees with
the state it leaves (`run_contract`).  A run that keeps this contract is one of the worker in
`Control.client`, whose tasks are assumed to send exactly one terminal message
(`steps_of_contract`).
-/

namespace Zurg.Tasks

open Lib Proto Grpc TempFile LogOps
open Control (TaskOutput Task Config Client Event Act client sends)

/-- The messages of a run, for its operation. -/
def TaskRun.messages (opId : OpId) (run : TaskRun) : List AgentToServer :=
  run.outputs.map (·.message opId)

/-- The last message of a run and its final state. -/
structure Ends (opId : OpId) (last : AgentToServer) (state : State) : Prop where
  terminal : last.isTerminal = true
  eof : (∃ trailer, last = .eof opId trailer) ↔ state = .completed
  error : (∃ code message, last = .error opId code message) ↔
    state = .cancelled ∨ state = .failed

/-- Data of the operation, one terminal message of it, and nothing after that. -/
def Contract (opId : OpId) (messages : List AgentToServer) (state : State) : Prop :=
  ∃ data last, messages = data ++ [last] ∧ (∀ m ∈ data, ∃ payload, m = .data opId payload) ∧
    Ends opId last state

variable {opId : OpId} {state : State} {code message : String}

theorem ends_eof {o : TaskOutput} {trailer : OpEofTrailer}
    (ho : o.message opId = .eof opId trailer) : Ends opId (o.message opId) .completed := by
  rw [ho]
  exact ⟨rfl, iff_of_true ⟨trailer, rfl⟩ rfl, iff_of_false (by simp) (by simp)⟩

theorem ends_error (hs : state = .cancelled ∨ state = .failed) :
    Ends opId ((TaskOutput.error code message).message opId) state := by
  refine ⟨rfl, iff_of_false nofun ?_, iff_of_true ⟨code, message, rfl⟩ hs⟩
  rintro rfl
  exact hs.elim nofun nofun

/-- Outputs that are data, and a last one. -/
theorem contract_of_outputs {run : TaskRun} {last : TaskOutput} (data : List TaskOutput)
    (hrun : run.outputs = data ++ [last])
    (hdata : ∀ o ∈ data, ∃ payload, o.message opId = .data opId payload)
    (hends : Ends opId (last.message opId) run.state) :
    Contract opId (run.messages opId) run.state := by
  refine ⟨data.map (·.message opId), last.message opId, ?_, ?_, hends⟩
  · rw [TaskRun.messages, hrun, List.map_append, List.map_singleton]
  · intro m hm
    obtain ⟨o, ho, rfl⟩ := List.mem_map.mp hm
    exact hdata o ho

theorem data_of_chunks (chunks : List LogChunk) :
    ∀ o ∈ chunks.map TaskOutput.logData, ∃ payload, o.message opId = .data opId payload := by
  intro o ho
  obtain ⟨chunk, -, rfl⟩ := List.mem_map.mp ho
  exact ⟨.logChunk chunk, rfl⟩

theorem contract_stopped (hs : state = .cancelled ∨ state = .failed) :
    Contract opId ((TaskRun.stopped state code message).messages opId)
      (TaskRun.stopped state code message).state :=
  contract_of_outputs [] rfl (by simp) (ends_error hs)

/-! ## The kinds of task -/

theorem contract_runLogFilter {fs : FileSystem} {opts : Control.LogOptions} {spec : LogFilterSpec}
    {run : TaskRun} (h : runLogFilter fs opts spec = some run) :
    Contract opId (run.messages opId) run.state := by
  unfold runLogFilter at h
  dsimp only at h
  split at h
  · next status _ =>
    obtain rfl := Option.some.inj h
    by_cases hok : status.ok = true
    · simp only [hok, if_true]
      exact contract_of_outputs _ rfl (data_of_chunks _) (ends_eof rfl)
    · simp only [Bool.eq_false_of_not_eq_true hok, Bool.false_eq_true, if_false]
      exact contract_of_outputs _ rfl (data_of_chunks _) (ends_error (.inr rfl))
  · exact nomatch h

theorem ends_uploadEnd (stats : PcapStats) (status : Status) :
    Ends opId ((uploadEnd stats status).1.message opId) (uploadEnd stats status).2 := by
  unfold uploadEnd
  split_ifs
  · exact ends_error (.inl rfl)
  · exact ends_error (.inr rfl)
  · exact ends_eof rfl

theorem contract_uploadCapture {e : Endian} {fs : FileSystem} {polls : Polls}
    {opts : Control.LogOptions} {tempPath : Path} {snaplen : ℕ} {s : CaptureState} {status : Status}
    {stats : PcapStats} :
    let run := (uploadCapture e fs polls opts tempPath snaplen s status stats).toTaskRun
    Contract opId (run.messages opId) run.state := by
  by_cases hok : status.ok = true
  · rw [uploadCapture_eq_ok hok]
    exact contract_of_outputs _ rfl (data_of_chunks _) (ends_uploadEnd _ _)
  · simp only [uploadCapture, Bool.eq_false_of_not_eq_true hok, Bool.not_false, if_true]
    refine contract_of_outputs [] rfl (by simp) (ends_error ?_)
    dsimp only
    by_cases hcancel : (status.code = .cancelled || polls.cancelRequested s.polls) = true
    · exact .inl (if_pos hcancel)
    · exact .inr (if_neg hcancel)

theorem contract_runPcap {e : Endian} {fs : FileSystem} {env : PcapOps.CaptureEnv} {polls : Polls}
    {opts : Control.LogOptions} {spec : PcapSpec} {fuel : ℕ} {run : PcapRun}
    (h : runPcap e fs env polls opts opId spec fuel = some run) :
    Contract opId (run.toTaskRun.messages opId) run.state := by
  unfold runPcap at h
  split at h
  · obtain rfl := Option.some.inj h
    exact contract_stopped (.inr rfl)
  · dsimp only at h
    split at h
    · exact nomatch h
    · obtain rfl := Option.some.inj h
      exact contract_uploadCapture

theorem contract_runExec {ifs : Interfaces} {polls : Polls} {spec : ExecSpec} :
    Contract opId ((runExec ifs polls spec).messages opId) (runExec ifs polls spec).state := by
  unfold runExec
  split
  · exact contract_stopped (.inr rfl)
  · split
    · exact contract_stopped (.inr rfl)
    · split_ifs
      · exact contract_stopped (.inl rfl)
      · refine contract_of_outputs _ rfl ?_ (ends_eof rfl)
        intro o ho
        split_ifs at ho
        · exact nomatch ho
        · obtain rfl := List.mem_singleton.mp ho
          exact ⟨_, rfl⟩

/-- **The contract of `Task::Run`**, of every kind of task. -/
theorem run_contract {w : World} {polls : Polls} {task : Task} {fuel : ℕ} {run : TaskRun}
    (h : runTask w polls task fuel = some run) :
    Contract task.opId (run.messages task.opId) run.state := by
  unfold runTask at h
  split at h
  · exact contract_runLogFilter h
  · obtain ⟨run, hrun, rfl⟩ := Option.map_eq_some_iff.mp h
    exact contract_runPcap hrun
  · obtain rfl := Option.some.inj h
    exact contract_runExec

/-- A capture of two packets. -/
theorem run_contract_twoPackets : ∃ run,
    runTask sampleWorld undisturbed ⟨0, 7, .pcap { packetLimit := 2 }⟩ 3 = some run ∧
    run.state = .completed ∧ Contract 7 (run.messages 7) run.state := by
  have hmap : (runTask sampleWorld undisturbed ⟨0, 7, .pcap { packetLimit := 2 }⟩ 3).map
      TaskRun.state = some .completed := by decide +kernel
  obtain ⟨run, hrun, hstate⟩ := Option.map_eq_some_iff.mp hmap
  exact ⟨run, hrun, hstate, run_contract hrun⟩

/-! ## The worker -/

variable {cfg : Config} {s : Client} {task : Task} {sentData : Bool}

/-- The event of a call on the `TaskContext`. -/
def sentFor (task : Task) (m : AgentToServer) : Event := .sent m (some task)

/-- Data can be sent as long as no terminal message has been. -/
theorem steps_of_data (hw : s.worker = .running (some task) sentData false) :
    ∀ {outputs : List TaskOutput}, (∀ o ∈ outputs, (o.message task.opId).isTerminal = false) →
      ∃ b, (client cfg).Steps (fun _ _ => True) s
        { s with worker := .running (some task) b false }
        (outputs.map fun o => sentFor task (o.message task.opId)) := by
  intro outputs
  induction outputs using List.reverseRecOn with
  | nil => exact fun _ => ⟨sentData, hw ▸ .refl⟩
  | append_singleton outputs o ih =>
    intro hdata
    obtain ⟨b, hsteps⟩ := ih fun o' ho' => hdata o' (List.mem_append_left _ ho')
    have hterm := hdata o (List.mem_append_right _ List.mem_cons_self)
    refine ⟨b || (o.message task.opId).isData, ?_⟩
    rw [List.map_append]
    refine hsteps.tail (a := .taskSend o) trivial ?_
    simp [client, Client.step, Client.taskSend, hterm, sentFor]

/-- What a run sends the worker can send, and then the task may be finished. -/
theorem steps_of_contract {run : TaskRun}
    (h : Contract task.opId (run.messages task.opId) run.state)
    (hw : s.worker = .running (some task) false false) :
    ∃ s' b, (client cfg).Steps (fun _ _ => True) s s'
        ((run.messages task.opId).map (sentFor task)) ∧
      s'.worker = .running (some task) b true := by
  obtain ⟨data, last, hmessages, hdata, hends⟩ := h
  obtain ⟨outputs, lasts, houtputs, rfl, hlast⟩ := List.map_eq_append_iff.mp hmessages
  obtain ⟨o, rfl, rfl⟩ := List.map_eq_singleton_iff.mp hlast
  have hno : ∀ o ∈ outputs, (o.message task.opId).isTerminal = false := by
    intro o ho
    obtain ⟨payload, hp⟩ := hdata _ (List.mem_map_of_mem ho)
    rw [hp]
    rfl
  obtain ⟨b, hsteps⟩ := steps_of_data hw hno
  refine ⟨{ s with worker := .running (some task) (b || (o.message task.opId).isData) true }, _,
    ?_, rfl⟩
  rw [TaskRun.messages, houtputs, List.map_append, List.map_append, List.map_map]
  refine hsteps.tail (a := .taskSend o) trivial ?_
  simp [client, Client.step, Client.taskSend, hends.terminal, sentFor]

end Zurg.Tasks
