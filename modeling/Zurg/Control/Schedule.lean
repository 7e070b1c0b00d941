import Zurg.Lib.Machine
import Zurg.Control.Client

/-!
# Zurg.Control.Schedule — the interleavings of `ControlCallbackClient`

The machine whose runs are the interleavings of the threads that act on the client:

* the thread handling server messages and stream events, which holds `callback_mu_` for the whole
  handler, so that no handler starts before the previous one has returned (`server = idle`), and
  which has nothing to handle before `Run`;
* the thread publishing authorization events, one at a time under the bus mutex (`auth = []`);
* the worker thread;
* the threads calling `Run` and `Stop`.

Each region under `mu_` is one step, and so is each `EnqueueWrite` outside the regions.  The
condition variable may wake the worker at any time; it goes on only when its predicate holds.  The
iteration order of the hash table `tasks_` may change at any time (`rehash`).  `Task::Run` may send
any number of messages, but exactly one terminal message.
-/

namespace Zurg.Control

open Proto Lib

inductive Act
  /-- `OnMessage`, up to the end of the handler's first region. -/
  | message (m : ServerToAgent) (ok : Bool)
  | insertStartOp
  | ackStartOp
  | reportCancel
  | reportShutdown
  /-- The ready callback: `EnqueueWrite(MakeHello(agent_id_))`. -/
  | streamReady
  | streamClosed
  | authEvent (event : AuthStateChangedEvent)
  | reportUnauthorized
  | workerCheck
  | workerTake
  | taskSend (o : TaskOutput)
  | workerFinish
  | run
  | stop
  /-- `ShutdownWorker`, before and after the join. -/
  | stopWorker
  | workerJoined
  | rehash (tasks : Tasks)
  deriving DecidableEq, Repr

namespace Client

variable (cfg : Config) (s : Client)

/-- `HandleStreamMessage`. -/
def handleStreamMessage (m : ServerToAgent) (ok : Bool) : Client × List Event :=
  if !ok then (s, [])
  else match m with
    | .ping hb => (s, [.sent (makePong cfg.agentId hb) none])
    | .start op => s.handleStartOp cfg op
    | .cancel opId => s.handleCancel opId
    | .shutdown drain => s.handleShutdown drain
    | .notSet => (s, [])

/-- A handler may start: the stream exists only once `Run` has started the worker, and no handler
runs. -/
def callbackFree : Bool := s.worker ≠ .notStarted && s.server = .idle

theorem callbackFree_iff {s : Client} :
    s.callbackFree = true ↔ s.worker ≠ .notStarted ∧ s.server = .idle := by
  simp [callbackFree]

def step : Act → Option (Client × List Event)
  | .message m ok => if s.callbackFree then some (s.handleStreamMessage cfg m ok) else none
  | .insertStartOp =>
    match s.server with
    | .validating t => some (s.insertStartOp cfg t)
    | _ => none
  | .ackStartOp =>
    match s.server with
    | .acking t accepted reason => some (s.ackStartOp t accepted reason)
    | _ => none
  | .reportCancel =>
    match s.server with
    | .cancelling t => some (s.reportCancel t)
    | _ => none
  | .reportShutdown =>
    match s.server with
    | .shuttingDown errors => some (s.reportShutdown errors)
    | _ => none
  | .streamReady =>
    if s.callbackFree then some (s, [.sent (makeHello cfg.agentId) none]) else none
  | .streamClosed => if s.callbackFree then some (s.cancelAllLocked "stream closed") else none
  | .authEvent event => if s.auth = [] then some (s.onAuthStateChanged cfg event) else none
  | .reportUnauthorized =>
    match s.auth with
    | t :: rest => some (s.reportUnauthorized t rest)
    | [] => none
  | .workerCheck => if s.worker = .loopHead then some s.workerCheck else none
  | .workerTake => if s.worker = .locking ∧ s.workerMayProceed then some s.workerTake else none
  | .taskSend o =>
    match s.worker with
    | .running (some t) sentData sentTerminal =>
      -- `Run` is assumed to send exactly one terminal message
      if (o.message t.opId).isTerminal && sentTerminal then none
      else some (s.taskSend t sentData sentTerminal o)
    | _ => none
  | .workerFinish =>
    match s.worker with
    | .running none _ _ => some (s.workerFinish none)
    | .running (some t) _ true => some (s.workerFinish (some t))
    | _ => none
  | .run =>
    if s.worker = .notStarted then some ({ s with running := true, worker := .loopHead }, [])
    else none
  | .stop => some ({ s with running := false }, [])
  | .stopWorker => some ({ s with stopWorker := true }, [])
  | .workerJoined =>
    if s.worker = .notStarted ∨ s.worker = .exited then some ({ s with stopWorker := false }, [])
    else none
  | .rehash tasks => if tasks.isPerm s.tasks then some ({ s with tasks }, []) else none

end Client

/-- The client as a machine, from the return of its constructor. -/
def client (cfg : Config) : Machine Client Act Event where
  init := Client.new cfg
  step := Client.step cfg

end Zurg.Control
