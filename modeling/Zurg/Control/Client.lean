import Zurg.Control.Task
import Zurg.EventBus

/-!
# Zurg.Control.Client — the state of `ControlCallbackClient` and its critical sections

One function for each region of `control_callback_client.cpp` that holds `mu_`, and one for each
stretch of a handler between two regions.  A function returns the new state and the events of the
stretch, in order: the messages handed to `EnqueueWrite`, and marks that say what became of a task.
The marks, and the task a message is sent for, are history; the code does not keep them.

A handler that goes on after its region (to send an ack or errors) leaves what remains to be done
in `server` or `auth`, the program counters of the two threads that run handlers.
-/

namespace Zurg.Control

open Proto

/-- What the client is built with; it never changes afterwards. -/
structure Config where
  agentId : String
  logOptions : LogOptions
  requestedFeatures : FeatureToggles
  deriving DecidableEq, Repr

/-- A `shared_ptr<Task>`; `none` is the null pointer. -/
abbrev TaskPtr := Option Task

/-- `tasks_`: the entries of the hash table, in the order an iteration meets them. -/
abbrev Tasks := List (OpId × TaskPtr)

/-- Why a task left the queue without being started. -/
inductive Removal
  | cancel
  | shutdown
  | streamClosed
  | unauthorized
  deriving DecidableEq, Repr

inductive Event
  /-- `EnqueueWrite(m)`, for a task or for none. -/
  | sent (m : AgentToServer) (origin : Option Task)
  | accepted (t : Task)
  | removed (t : Task) (cause : Removal)
  | started (t : Task)
  | finished (t : Task)
  /-- A `Shutdown` has been handled. -/
  | shutdown (drain : Bool)
  /-- `ControlStreamClient::CancelStream`. -/
  | cancelStream
  deriving DecidableEq, Repr

/-- A message with the task it is sent for. -/
abbrev Outgoing := AgentToServer × Option Task

def Event.outgoing : Event → Option Outgoing
  | .sent m o => some (m, o)
  | _ => none

/-- The messages handed to `EnqueueWrite`. -/
def sends (h : List Event) : List Outgoing := h.filterMap Event.outgoing

/-- Where the thread that holds `callback_mu_` stands inside a handler. -/
inductive ServerPc
  | idle
  /-- `HandleStartOp` between its two regions. -/
  | validating (t : Task)
  /-- `HandleStartOp` after its second region, before `SendAck`. -/
  | acking (t : Task) (accepted : Bool) (reason : String)
  /-- `HandleCancel` after its region, before `DoSendError`. -/
  | cancelling (t : Task)
  /-- `HandleShutdown(drain=false)` after its region; the errors still to send. -/
  | shuttingDown (errors : List Task)
  deriving DecidableEq, Repr

/-- Where the worker thread stands in `WorkerLoop`. -/
inductive WorkerPc
  | notStarted
  /-- About to test `while (running_)`. -/
  | loopHead
  /-- About to enter the first region. -/
  | locking
  /-- In `RunTask`; whether `Run` has sent any data and whether it has sent its last message. -/
  | running (t : TaskPtr) (sentData sentTerminal : Bool)
  | exited
  deriving DecidableEq, Repr

structure Client where
  running : Bool := false
  drainMode : Bool := false
  stopWorker : Bool := false
  taskQueue : List TaskPtr := []
  tasks : Tasks := []
  currentTask : TaskPtr := none
  activeFeatures : FeatureToggles
  /-- `cancel_requested_` of the task at an address. -/
  cancelRequested : ℕ → Bool := fun _ => false
  /-- The address of the next task. -/
  nextPtr : ℕ := 0
  server : ServerPc := .idle
  /-- The errors `ApplyFeatureUpdate` still has to send, on the publishing thread. -/
  auth : List Task := []
  worker : WorkerPc := .notStarted

/-- The client when its constructor has returned and before `Run`. -/
def Client.new (cfg : Config) : Client := { activeFeatures := cfg.requestedFeatures }

/-! ## Hash table and cancel flags -/

/-- `tasks_.erase(op_id)`. -/
def eraseKey (opId : OpId) (tasks : Tasks) : Tasks := tasks.filter (fun e => e.1 ≠ opId)

/-- `tasks_[op_id] = task`. -/
def assignKey (opId : OpId) (p : TaskPtr) (tasks : Tasks) : Tasks :=
  (opId, p) :: eraseKey opId tasks

/-- `tasks_.find(op_id)`. -/
def findKey (opId : OpId) (tasks : Tasks) : Option TaskPtr :=
  (tasks.find? (fun e => e.1 = opId)).map (·.2)

/-- `RequestCancel` on each of `ts`. -/
def requestCancel (ts : List Task) (flags : ℕ → Bool) : ℕ → Bool :=
  fun p => flags p || ts.any (fun t => t.ptr = p)

structure Sweep where
  kept : Tasks := []
  cancelled : List Task := []
  reported : List Task := []

/-- The loop over `tasks_` that three handlers share: null entries are erased, entries satisfying
`keep` stay, the others are erased and reported; those satisfying `cancel` get `RequestCancel`. -/
def sweepTasks (keep cancel : Task → Bool) : Tasks → Sweep
  | [] => {}
  | (_, none) :: rest => sweepTasks keep cancel rest
  | (opId, some t) :: rest =>
    let r := sweepTasks keep cancel rest
    { kept := if keep t then (opId, some t) :: r.kept else r.kept
      cancelled := if cancel t then t :: r.cancelled else r.cancelled
      reported := if keep t then r.reported else t :: r.reported }

/-! ## Messages -/

/-- `MakeHello`. -/
def makeHello (agentId : String) : AgentToServer :=
  .hello { agentId, version := "zurg-agent-dev", platform := "linux"
           caps := { ifNames := ["lo"], supportsShell := false, supportsPromisc := false } }

/-- `MakePong`. -/
def makePong (agentId : String) (hb : Heartbeat) : AgentToServer := .pong { agentId, seq := hb.seq }

def kAuthorizationDisabledReason : String := "authorization disabled"
def kFeaturesDisabledReason : String := "features disabled"
def kAuthorizationErrorMessage : String := "operation disabled by authorization state"

/-- `kLogFilterDisabledReason`, `kPcapDisabledReason`, `kExecDisabledReason`. -/
def disabledReason : Kind → String
  | .logFilter => "log filter disabled"
  | .pcap => "pcap disabled"
  | .exec => "exec disabled"

/-- The message of `SendAck`. -/
def makeAck (opId : OpId) (accepted : Bool) (reason : String) : AgentToServer :=
  .ack { opId, accepted, reason }

/-- `DoSendError` for a task the client takes back. -/
def sendErrorFor (code message : String) (t : Task) : Event :=
  .sent (.error t.opId code message) (some t)

namespace Client

variable (cfg : Config) (s : Client)

/-! ## `HandleStartOp` -/

/-- The checks of the first region: the reason of the rejection, or the spec of the new task. -/
def admission (start : StartOp) : Except String OpSpec :=
  if s.drainMode then .error "draining"
  else if s.tasks.any (fun e => e.1 = start.opId) then .error "duplicate op_id"
  else if !s.activeFeatures.enabled then
    .error (if cfg.requestedFeatures.enabled then kAuthorizationDisabledReason
      else kFeaturesDisabledReason)
  else match start.spec with
    | some spec =>
      if !cfg.requestedFeatures.enables (specKind spec) then .error (disabledReason (specKind spec))
      else if !s.activeFeatures.enables (specKind spec) then .error kAuthorizationDisabledReason
      else .ok spec
    | none => .error "unsupported operation"

/-- `HandleStartOp` up to the end of its first region. -/
def handleStartOp (start : StartOp) : Client × List Event :=
  if start.opId = 0 then (s, [.sent (makeAck start.opId false "missing op_id") none])
  else match s.admission cfg start with
    | .error reason => (s, [.sent (makeAck start.opId false reason) none])
    | .ok spec =>
      ({ s with server := .validating ⟨s.nextPtr, start.opId, spec⟩, nextPtr := s.nextPtr + 1 }, [])

/-- The reason of a rejection in the second region. -/
def lateRejectReason : String :=
  if !s.activeFeatures.enabled && cfg.requestedFeatures.enabled then kAuthorizationDisabledReason
  else kFeaturesDisabledReason

/-- `HandleStartOp` from `Validate` to the end of the second region. -/
def insertStartOp (t : Task) : Client × List Event :=
  match t.validate cfg.logOptions with
  | some reason =>
    ({ s with server := .idle },
      [.sent (makeAck t.opId false (if reason = "" then "invalid parameters" else reason)) none])
  | none =>
    if !isTaskAllowed s.activeFeatures t.kind then
      ({ s with server := .acking t false (s.lateRejectReason cfg) }, [])
    else
      ({ s with
          tasks := assignKey t.opId (some t) s.tasks
          taskQueue := s.taskQueue ++ [some t]
          server := .acking t true "" }, [.accepted t])

/-- `HandleStartOp` from its second region on: `SendAck`. -/
def ackStartOp (t : Task) (accepted : Bool) (reason : String) : Client × List Event :=
  ({ s with server := .idle },
    [.sent (makeAck t.opId accepted
      (if !accepted && reason = "" then kAuthorizationDisabledReason else reason)) (some t)])

/-! ## `HandleCancel` -/

/-- The region of `HandleCancel`. -/
def handleCancel (opId : OpId) : Client × List Event :=
  match findKey opId s.tasks with
  | none => (s, [])
  | some none => ({ s with tasks := eraseKey opId s.tasks }, [])
  | some (some target) =>
    if s.currentTask = some target then
      ({ s with cancelRequested := requestCancel [target] s.cancelRequested }, [])
    else if some target ∈ s.taskQueue then
      ({ s with
          taskQueue := s.taskQueue.erase (some target)
          tasks := eraseKey opId s.tasks
          server := .cancelling target }, [.removed target .cancel])
    else (s, [])

/-- The rest of `HandleCancel`. -/
def reportCancel (target : Task) : Client × List Event :=
  ({ s with
      cancelRequested := requestCancel [target] s.cancelRequested
      server := .idle },
    [sendErrorFor "CANCELLED" "operation cancelled" target])

/-! ## `HandleShutdown` -/

/-- The region of `HandleShutdown`.  For `drain=false` every queued task is reported by the loop
over `task_queue_`, and everything in `tasks_` but the current task by the loop over `tasks_`. -/
def handleShutdown (drain : Bool) : Client × List Event :=
  if drain then ({ s with drainMode := true }, [.shutdown true])
  else
    let queued := s.taskQueue.filterMap id
    let sweep := sweepTasks (fun t => s.currentTask = some t) (fun t => s.currentTask ≠ some t)
      s.tasks
    ({ s with
        drainMode := false
        cancelRequested :=
          requestCancel (s.currentTask.toList ++ queued ++ sweep.cancelled) s.cancelRequested
        taskQueue := []
        tasks := sweep.kept
        server := .shuttingDown (queued ++ sweep.reported) },
      .shutdown false :: queued.map (.removed · .shutdown))

/-- The rest of `HandleShutdown(drain=false)`: the errors one by one, then `CancelStream` and the
reset of `running_`. -/
def reportShutdown : List Task → Client × List Event
  | t :: rest =>
    ({ s with server := .shuttingDown rest },
      [sendErrorFor "CANCELLED" "operation cancelled" t])
  | [] => ({ s with server := .idle, running := false }, [.cancelStream])

/-! ## `HandleStreamClosed` -/

/-- `CancelAllLocked`, which sends its errors inside the region. -/
def cancelAllLocked (reason : String) : Client × List Event :=
  let sweep := sweepTasks (fun t => s.currentTask = some t) (fun _ => true) s.tasks
  ({ s with
      cancelRequested := requestCancel sweep.cancelled s.cancelRequested
      tasks := sweep.kept
      taskQueue := [] },
    (s.taskQueue.filterMap id).map (.removed · .streamClosed) ++
      sweep.reported.map (sendErrorFor "CANCELLED" reason))

/-! ## Authorization events -/

/-- The loop of `ApplyFeatureUpdate` over `task_queue_`: the queue and the table that are left, and
the tasks to report. -/
def purgeQueue (allowed : Task → Bool) : List TaskPtr → Tasks → List TaskPtr × Tasks × List Task
  | [], tasks => ([], tasks, [])
  | none :: rest, tasks => purgeQueue allowed rest tasks
  | some t :: rest, tasks =>
    if allowed t then
      let r := purgeQueue allowed rest tasks
      (some t :: r.1, r.2.1, r.2.2)
    else
      let r := purgeQueue allowed rest (eraseKey t.opId tasks)
      (r.1, r.2.1, t :: r.2.2)

/-- The region of `ApplyFeatureUpdate`. -/
def applyFeatureUpdate (toggles : FeatureToggles) : Client × List Event :=
  if s.activeFeatures = toggles then (s, [])
  else
    let allowed := fun t : Task => isTaskAllowed toggles t.kind
    let (queue, tasks, purged) := purgeQueue allowed s.taskQueue s.tasks
    let sweep := sweepTasks (fun t => allowed t || s.currentTask = some t)
      (fun t => !allowed t && s.currentTask = some t) tasks
    let current := s.currentTask.toList.filter (fun t => !allowed t)
    ({ s with
        activeFeatures := toggles
        taskQueue := queue
        tasks := sweep.kept
        cancelRequested := requestCancel (sweep.cancelled ++ current) s.cancelRequested
        auth := purged ++ sweep.reported },
      purged.map (.removed · .unauthorized))

/-- The toggles an authorization state asks for. -/
def featuresFor (st : AuthState) : FeatureToggles :=
  if st = .online then cfg.requestedFeatures else restrictedFeatures

/-- `OnAuthStateChanged`, up to the end of the region. -/
def onAuthStateChanged (event : AuthStateChangedEvent) : Client × List Event :=
  s.applyFeatureUpdate (featuresFor cfg event.state)

/-- The rest of `ApplyFeatureUpdate`: one error. -/
def reportUnauthorized (t : Task) (rest : List Task) : Client × List Event :=
  ({ s with auth := rest }, [sendErrorFor "UNAUTHORIZED" kAuthorizationErrorMessage t])

/-! ## `WorkerLoop` -/

/-- `while (running_.load())`. -/
def workerCheck : Client × List Event :=
  ({ s with worker := if s.running then .locking else .exited }, [])

/-- What the condition variable waits for. -/
def workerMayProceed : Bool := s.stopWorker || !s.running || s.taskQueue ≠ []

/-- The first region of `WorkerLoop`, after the wait. -/
def workerTake : Client × List Event :=
  match s.taskQueue with
  | [] =>
    if s.stopWorker || !s.running then ({ s with worker := .exited }, [])
    else ({ s with worker := .loopHead }, [])
  | p :: rest =>
    ({ s with taskQueue := rest, currentTask := p, worker := .running p false false },
      (p.toList).map .started)

/-- One call of `Run` on its `TaskContext`. -/
def taskSend (t : Task) (sentData sentTerminal : Bool) (o : TaskOutput) : Client × List Event :=
  let m := o.message t.opId
  ({ s with worker := .running (some t) (sentData || m.isData) (sentTerminal || m.isTerminal) },
    [.sent m (some t)])

/-- The second region of `WorkerLoop`. -/
def workerFinish (p : TaskPtr) : Client × List Event :=
  ({ s with
      tasks := match p with
        | some t => eraseKey t.opId s.tasks
        | none => s.tasks
      currentTask := none
      running := if s.drainMode && s.taskQueue = [] then false else s.running
      worker := .loopHead },
    (p.toList).map .finished)

end Client

end Zurg.Control
