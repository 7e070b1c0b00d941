import Zurg.Lib.Locks

/-!
# Zurg.Locks — the mutexes of the agent

What each function does with mutexes, read off its body: one definition for each function that takes
a mutex, blocks, or calls one that does.  A callback stands for the function that is installed.
gRPC's `StartCall`, `StartRead`, `StartWrite` and `TryCancel` only start an operation, and the hooks
of the tests take no mutex of the agent.  gRPC, eventpp and spdlog hold none of their own mutexes
while they call the agent.  The mutex of `LoggerManager` is left out: `GetLogger` takes it, in the
constructor of the control client, with nothing held.

The mutexes are taken in the order `busMu`, `callbackMu`, `mu`, `writeMu`, `reactorMu`; all others
are taken on their own.
-/

namespace Zurg.Locks

open Lib Lib.Locks Lib.Locks.Code

inductive Mutex
  /-- `EventBus::mu_`. -/
  | busMu
  /-- `ControlStreamClient::callback_mu_`. -/
  | callbackMu
  /-- `ControlCallbackClient::mu_`. -/
  | mu
  /-- `ControlStreamClient::write_mu_`. -/
  | writeMu
  /-- `ControlStreamClient::reactor_mu_`. -/
  | reactorMu
  /-- `ControlStreamClient::StreamReactor::mu_`. -/
  | doneMu
  /-- `g_hook_mu` of `agent_impl.cpp`. -/
  | hookMu
  /-- `AuthClient::reactor_mutex_`. -/
  | authReactorMutex
  /-- `AuthClient::reconnect_mutex_`. -/
  | reconnectMutex
  /-- `AuthManager::persistence_mutex_`. -/
  | persistenceMutex
  deriving DecidableEq, Repr

open Mutex

/-- A guard around code that takes no mutex. -/
def briefly (m : Mutex) : Code Mutex := guarded m skip

/-- Perhaps. -/
def optional (c : Code Mutex) : Code Mutex := choice skip c

/-! ## `agent_impl.cpp` -/

def getSendHook : Code Mutex := briefly hookMu

def getLogOptionsOverride : Code Mutex := briefly hookMu

def getFeatureToggles : Code Mutex := briefly hookMu

def setFeatureToggles : Code Mutex := briefly hookMu

def setLogOptions : Code Mutex := briefly hookMu

def setAdditionalLoggerSink : Code Mutex := briefly hookMu

def computeBackoff : Code Mutex := briefly hookMu

def sleepWithStop : Code Mutex := seq (briefly hookMu) (loop block)

/-! ## `control_stream_client.cpp`, as far as the control client calls it -/

namespace ControlStreamClient

/-- Also called by `OnStreamReady`, without `write_mu_`. -/
def maybeStartWriteLocked : Code Mutex := optional (briefly reactorMu)

def enqueueWrite : Code Mutex := guarded writeMu maybeStartWriteLocked

def cancelStream : Code Mutex := briefly reactorMu

def stop : Code Mutex := briefly reactorMu

/-- Each of the three setters of a callback. -/
def setCallback : Code Mutex := briefly callbackMu

end ControlStreamClient

/-! ## `control_callback_client.cpp` -/

namespace ControlCallbackClient

open ControlStreamClient (enqueueWrite)

/-- `SendAck`, `DoSendError` and all the other `DoSend` functions. -/
def send : Code Mutex := enqueueWrite

def applyFeatureUpdate : Code Mutex := seq (briefly mu) (loop send)

def onAuthStateChanged : Code Mutex := applyFeatureUpdate

/-- Rejections in the first region send their ack inside it. -/
def handleStartOp : Code Mutex :=
  oneOf [send, guarded mu send, seq (briefly mu) send, all [briefly mu, briefly mu, send]]

def handleCancel : Code Mutex := seq (briefly mu) (optional send)

def handleShutdown : Code Mutex :=
  seq (briefly mu) (optional (seq (loop send) ControlStreamClient.cancelStream))

def cancelAllLocked : Code Mutex := loop send

def handleStreamClosed : Code Mutex := guarded mu cancelAllLocked

def handleStreamMessage : Code Mutex :=
  oneOf [skip, send, handleStartOp, handleCancel, handleShutdown]

/-- The ready callback. -/
def sendHello : Code Mutex := send

/-- `Task::Run`: it reads and writes files, captures packets and sends messages. -/
def runTask : Code Mutex := loop (choice block send)

def workerLoop : Code Mutex :=
  loop (seq (guarded mu (loop (wait mu))) (optional (seq runTask (briefly mu))))

/-- It joins the worker. -/
def shutdownWorker : Code Mutex := seq (briefly mu) (optional block)

end ControlCallbackClient

/-! ## The rest of `control_stream_client.cpp` -/

namespace ControlStreamClient

def onStreamReady : Code Mutex :=
  all [briefly reactorMu, guarded callbackMu (optional ControlCallbackClient.sendHello),
    maybeStartWriteLocked]

def onWriteFinished : Code Mutex := guarded writeMu maybeStartWriteLocked

def onMessage : Code Mutex :=
  guarded callbackMu (optional ControlCallbackClient.handleStreamMessage)

def onStreamClosed : Code Mutex :=
  all [briefly writeMu, briefly reactorMu,
    guarded callbackMu (optional ControlCallbackClient.handleStreamClosed)]

/-- `StreamReactor::Start`. -/
def reactorStart : Code Mutex := onStreamReady

/-- `StreamReactor::Wait`. -/
def reactorWait : Code Mutex := guarded doneMu (loop (wait doneMu))

/-- `StreamReactor::OnDone`. -/
def onDone : Code Mutex := seq onStreamClosed (briefly doneMu)

def run : Code Mutex :=
  loop (all [briefly reactorMu, reactorStart, reactorWait, briefly reactorMu,
    optional (seq computeBackoff (optional sleepWithStop))])

end ControlStreamClient

/-! ## `event_bus.h` -/

namespace EventBus

def subscribe : Code Mutex := briefly busMu

def unsubscribe : Code Mutex := briefly busMu

def lastEvent : Code Mutex := briefly busMu

/-- Every listener is called with the mutex held; each one is a control client's. -/
def publish : Code Mutex := guarded busMu (loop ControlCallbackClient.onAuthStateChanged)

/-- `SubscriptionToken::Unsubscribe`. -/
def tokenUnsubscribe : Code Mutex := optional unsubscribe

end EventBus

namespace ControlCallbackClient

/-- The constructor. -/
def construct : Code Mutex :=
  all [optional getSendHook, EventBus.subscribe, ControlStreamClient.setCallback,
    ControlStreamClient.setCallback, ControlStreamClient.setCallback, EventBus.lastEvent,
    applyFeatureUpdate]

def run : Code Mutex := seq ControlStreamClient.run shutdownWorker

def stop : Code Mutex :=
  all [optional ControlStreamClient.stop, shutdownWorker, EventBus.tokenUnsubscribe]

/-- The destructor, with those of the token and of the stream client. -/
def destroy : Code Mutex :=
  all [stop, EventBus.tokenUnsubscribe, EventBus.tokenUnsubscribe, ControlStreamClient.stop]

end ControlCallbackClient

/-! ## `auth_client.cpp` and `auth_manager.cpp` -/

namespace AuthManager

def updateAuthState : Code Mutex := optional EventBus.publish

def persistMessage : Code Mutex := optional (briefly persistenceMutex)

def handleMessage : Code Mutex := seq persistMessage (optional updateAuthState)

def handleConnection : Code Mutex := updateAuthState

def checkOfflineAuthorization : Code Mutex := updateAuthState

def checkAuthorization : Code Mutex := optional checkOfflineAuthorization

/-- In online mode it only starts a thread. -/
def start : Code Mutex := optional checkOfflineAuthorization

end AuthManager

namespace AuthClient

/-- It joins the stream thread. -/
def stop : Code Mutex :=
  optional (all [briefly authReactorMutex, briefly reconnectMutex, optional block])

def notifyReconnect : Code Mutex := briefly reconnectMutex

/-- `AuthStreamReactor::OnReadDone`. -/
def onReadDone : Code Mutex := optional AuthManager.handleMessage

/-- `AuthStreamReactor::OnDone`. -/
def onDone : Code Mutex := seq (optional AuthManager.handleConnection) (optional notifyReconnect)

/-- The two inner loops wait for a notification and poll `IsFinished`. -/
def streamLoop : Code Mutex :=
  seq
    (loop (all [optional block, briefly authReactorMutex,
      loop (guarded reconnectMutex (loop (wait reconnectMutex))), loop block,
      briefly authReactorMutex, block, optional block]))
    (briefly authReactorMutex)

end AuthClient

namespace AuthManager

def stop : Code Mutex := optional AuthClient.stop

/-- The destructor, with that of the client. -/
def destroy : Code Mutex := seq stop AuthClient.stop

end AuthManager

/-! ## The threads -/

/-- `StartAgent`. -/
def startAgent : Code Mutex :=
  all [getLogOptionsOverride, getFeatureToggles, ControlCallbackClient.construct,
    ControlCallbackClient.run, ControlCallbackClient.destroy]

/-- `main`. -/
def main : Code Mutex :=
  all [optional setFeatureToggles, optional setLogOptions, getFeatureToggles,
    optional setAdditionalLoggerSink,
    optional (all [AuthManager.updateAuthState, AuthManager.start, AuthManager.checkAuthorization]),
    startAgent, optional (seq AuthManager.stop AuthManager.destroy)]

inductive ThreadKind
  | main
  /-- `ControlCallbackClient::worker_thread_`. -/
  | worker
  /-- `AuthClient::stream_thread_`. -/
  | authStream
  /-- gRPC's threads, between the callbacks of the control stream's reactors. -/
  | controlCallbacks
  /-- gRPC's threads, between the callbacks of the authorization stream's reactors. -/
  | authCallbacks
  deriving DecidableEq, Repr

def ThreadKind.code : ThreadKind → Code Mutex
  | .main => Locks.main
  | .worker => ControlCallbackClient.workerLoop
  | .authStream => AuthClient.streamLoop
  | .controlCallbacks =>
    loop (seq block (oneOf [ControlStreamClient.onMessage, ControlStreamClient.onWriteFinished,
      ControlStreamClient.onDone]))
  | .authCallbacks => loop (seq block (choice AuthClient.onReadDone AuthClient.onDone))

/-! ## The lock order -/

def Mutex.rank : Mutex → ℕ
  | busMu => 0
  | callbackMu => 1
  | mu => 2
  | writeMu => 3
  | reactorMu => 4
  | _ => 5

/-- Every function keeps the order, and nobody blocks with a mutex held. -/
theorem ThreadKind.ordered_code (k : ThreadKind) : k.code.ordered Mutex.rank [] = true := by
  cases k <;> decide

variable {ι : Type} [Fintype ι] [DecidableEq ι]

/-- **The agent does not deadlock on its mutexes**, whatever threads run and however they are
interleaved: no thread takes a mutex it holds already, no mutex has two holders, nobody blocks with
a mutex held, and while a thread waits for a mutex some holder of a mutex can go on. -/
theorem agent_deadlockFree (kind : ι → ThreadKind) {s : ι → Thread Mutex} {h : List Empty}
    (r : (threads fun i => (kind i).code).Reach s h) :
    (∀ i m, wants (s i) = some m → m ∉ held (s i)) ∧
    (∀ i j m, m ∈ held (s i) → m ∈ held (s j) → i = j) ∧
    (∀ i, Waits (s i) → held (s i) = []) ∧
    ∀ i m, wants (s i) = some m → free s m = false →
      ∃ j, held (s j) ≠ [] ∧ ¬ Waits (s j) ∧
        ∀ b, ((threads fun i => (kind i).code).step s (j, b)).isSome = true := by
  have hI : LockInv Mutex.rank s := lockInv_of_reach (fun i => (kind i).ordered_code) r
  refine ⟨fun i m => (hI.ranked i).not_held_of_wants, hI.exclusive,
    fun i => (hI.ranked i).held_of_waits, fun i m _ hf => ?_⟩
  obtain ⟨j, hj⟩ : ∃ j, m ∈ held (s j) := by
    by_contra hno
    rw [free_iff.mpr fun j hj => hno ⟨j, hj⟩] at hf
    exact absurd hf (by decide)
  exact hI.exists_moving_holder hj

/-- A worker about to look at its queue, and a stream that has ended. -/
def workerAndAuth : Fin 2 → ThreadKind
  | 0 => .worker
  | 1 => .authCallbacks

/-- The worker is in its region while the authorization event, under the mutex of the bus, wants to
enter one. -/
def publishWhileTaking : List (Fin 2 × Bool) :=
  [(0, true), (0, true), (0, true), (1, true), (1, true), (1, true), (1, false), (1, true),
    (1, false), (1, false), (1, true), (1, true), (1, true)]

theorem agent_deadlockFree_publishWhileTaking : ∃ s h,
    (threads fun i => (workerAndAuth i).code).Reach s h ∧ wants (s 1) = some mu ∧
      ∃ j, held (s j) ≠ [] ∧ ¬ Waits (s j) ∧
        ∀ b, ((threads fun i => (workerAndAuth i).code).step s (j, b)).isSome = true :=
  have r := Machine.run_schedule (threads fun i => (workerAndAuth i).code) (fun _ _ => True)
    publishWhileTaking rfl
  ⟨_, _, r, rfl, (agent_deadlockFree workerAndAuth r).2.2.2 1 mu rfl rfl⟩

end Zurg.Locks
