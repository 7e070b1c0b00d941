import Zurg.Proto

/-!
# Zurg.Control.Task — tasks, feature toggles and the messages a running task sends

`tasks/task.h`, the `Validate` methods of the three kinds of task, `FeatureToggles` of
`agent_impl.h`, and the `TaskContext` callbacks through which `Task::Run` talks to the client.

A `Task` here is the object a `shared_ptr<Task>` points to, less its atomic flags: `ptr` is its
address, so that comparing two records is comparing the pointers.  The cancel flags live in the
client's state, indexed by `ptr`.
-/

namespace Zurg.Control

open Proto

/-! ## Feature toggles -/

structure FeatureToggles where
  enabled : Bool := true
  enableLogFilter : Bool := true
  enablePcap : Bool := true
  enableExec : Bool := true
  deriving DecidableEq, Repr

/-- `Task::Kind`. -/
inductive Kind
  | logFilter
  | pcap
  | exec
  deriving DecidableEq, Repr

/-- The toggle of one kind of task. -/
def FeatureToggles.enables (f : FeatureToggles) : Kind → Bool
  | .logFilter => f.enableLogFilter
  | .pcap => f.enablePcap
  | .exec => f.enableExec

/-- `ControlCallbackClient::IsTaskAllowed`. -/
def isTaskAllowed (toggles : FeatureToggles) (kind : Kind) : Bool :=
  if !toggles.enabled then false else toggles.enables kind

/-- `ControlCallbackClient::RestrictedFeatures`. -/
def restrictedFeatures : FeatureToggles :=
  { enabled := false, enableLogFilter := false, enablePcap := false, enableExec := false }

@[simp] theorem isTaskAllowed_restricted (k : Kind) : isTaskAllowed restrictedFeatures k = false :=
  rfl

/-! ## Tasks -/

/-- The kind of task `HandleStartOp` builds for a spec. -/
def specKind : OpSpec → Kind
  | .logFilter _ => .logFilter
  | .pcap _ => .pcap
  | .exec _ => .exec

structure Task where
  ptr : ℕ
  opId : OpId
  spec : OpSpec
  deriving DecidableEq, Repr

def Task.kind (t : Task) : Kind := specKind t.spec

/-- `log_ops::Options`. -/
structure LogOptions where
  logRoot : String := ""
  tempDir : String := ""
  chunkSize : ℕ := 64 * 1024
  cleanupTempFile : Bool := true
  basePath : String := ""
  includeRotations : Bool := true
  rotationScanDepth : ℕ := 2
  outputBasename : String := "logfilter"
  deriving DecidableEq, Repr

/-- `LogFilterTask::Validate`: the reason of a rejection, `none` when valid. -/
def logFilterValidate (opts : LogOptions) : Option String :=
  if opts.basePath = "" then some "missing log base path"
  else if opts.includeRotations && opts.rotationScanDepth == 0 then some "invalid rotation depth"
  else if opts.chunkSize = 0 then some "invalid chunk size"
  else none

/-- `ExecTask::Validate`. -/
def execValidate (spec : ExecSpec) : Option String :=
  if spec.cmd ≠ "" then
    if spec.cmd ≠ "ip" ∧ spec.cmd ≠ "ip addr" ∧ spec.cmd ≠ "ipaddress" then
      some "unsupported exec command"
    else none
  else none

/-- `Task::Validate`, dispatched on the kind; `PcapTask` keeps the default, which accepts. -/
def Task.validate (opts : LogOptions) (t : Task) : Option String :=
  match t.spec with
  | .logFilter _ => logFilterValidate opts
  | .pcap _ => none
  | .exec spec => execValidate spec

/-! ## What a running task sends -/

/-- The sending callbacks of `TaskContext`. -/
inductive TaskOutput
  | logData (chunk : LogChunk)
  | eofLog (eof : LogFilterEof)
  | pcapData (pkt : PcapPacket)
  | eofPcap (stats : PcapStats)
  | error (code message : String)
  | execData (chunk : ExecChunk)
  | eofExec (exit : ExecExit)
  deriving DecidableEq, Repr

/-- The message that `DoSendLogData`, `DoSendEofLog`, … hand to `EnqueueWrite`. -/
def TaskOutput.message (opId : OpId) : TaskOutput → AgentToServer
  | .logData chunk => .data opId (.logChunk chunk)
  | .eofLog eof => .eof opId (.log eof)
  | .pcapData pkt => .data opId (.pcapPacket pkt)
  | .eofPcap stats => .eof opId (.pcap stats)
  | .error code message => .error opId code message
  | .execData chunk => .data opId (.execChunk chunk)
  | .eofExec exit => .eof opId (.exec exit)

/-- A task sends data or a terminal message, nothing else. -/
theorem TaskOutput.isData_eq (opId : OpId) (o : TaskOutput) :
    (o.message opId).isData = !(o.message opId).isTerminal := by
  cases o <;> rfl

/-- `LogFilterTask::Run`: what it sends when `StreamLogFilter` has delivered `chunks` and returned
`status` (the status code and its message on failure).  `Run` never looks at the cancel flag or at
`ShouldContinue`. -/
def logFilterRun (chunks : List LogChunk) (status : Except (ℕ × String) LogFilterEof) :
    List TaskOutput :=
  chunks.map .logData ++
    match status with
    | .ok eof => [.eofLog eof]
    | .error (code, message) => [.error (toString code) message]

end Zurg.Control
