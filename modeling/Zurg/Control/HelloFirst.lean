import Zurg.ControlStream.FirstWrite
import Zurg.Control.TaskTable
import Zurg.Control.Connected

/-!
# Zurg.Control.HelloFirst — when Hello is the first message of every stream

The ready callback appends Hello to `pending_writes_`, which outlive the stream and which everybody
else appends to at any time.  So Hello is the first message of each stream as long as nothing else
is pending when `reactor_` is set, and nothing else is enqueued before the first write.
`OnStreamClosed` itself breaks this: the errors of `CancelAllLocked` are enqueued after the pending
writes have been dropped.
-/

namespace Zurg.Control

open Proto Lib ControlStream

def isHello (m : Outgoing) : Bool := m.1.isHello

/-- The step puts nothing ahead of a Hello to come. -/
def HelloAhead (cfg : Config) (s : Connected) (x : ConnectedAct) : Prop :=
  (∀ m ∈ s.posts cfg x, isHello m = true ∨ s.stream.Sheltered) ∧
    match x with
    | .stream y => GreetingFirst isHello s.stream y
    | _ => True

instance (cfg : Config) (s : Connected) (x : ConnectedAct) : Decidable (HelloAhead cfg s x) := by
  cases x <;> unfold HelloAhead <;> infer_instance

variable {cfg : Config} {s : Connected} {H : List ConnectedEvent}

/-- The stream client only takes steps that keep the greetings first. -/
theorem greetingFirst_of_helloAhead (r : (connected cfg).Run (HelloAhead cfg) s H) :
    (streamClient Outgoing).Run (GreetingFirst isHello) s.stream
      (H.filterMap ConnectedEvent.stream?) := by
  refine Machine.Steps.simulate Connected.stream ConnectedEvent.stream? ?_ r
  intro t h x t' e _ hC hst
  refine (partsStep (P := fun s m => isHello m = true ∨ s.Sheltered) (fun _ _ => id) ?_
    (fun _ => trivial) hst hC.1 ?_).stream
  · exact fun s m n _ => .inr (sheltered_enqueueWrite s m)
  · rintro y rfl
    exact hC.2

/-- **Hello first on every stream**, as long as nothing gets ahead of it. -/
theorem hello_first (r : (connected cfg).Run (HelloAhead cfg) s H) :
    FirstWrite isHello (H.filterMap ConnectedEvent.stream?) :=
  (firstInv_of_run (greetingFirst_of_helloAhead r)).first

/-- `Run` opens a stream, and Hello is written. -/
def openStream : List ConnectedAct :=
  [.stream .connect, .stream .startCall, .stream .setReactor, .ready, .stream .kick,
    .stream (.writeDone true)]

/-- The server closes the stream when nothing is queued. -/
def closeStream : List ConnectedAct :=
  [.stream .closeClear, .stream .closeDetach, .closed, .stream .closeReturn, .stream .closeDone,
    .stream .waitReturn]

/-- An operation is accepted and its ack written. -/
def acceptOperation : List ConnectedAct :=
  [.client (.message (.start ⟨1, some (.logFilter {})⟩) true), .client .insertStartOp,
    .client .ackStartOp, .stream (.writeDone true)]

/-- An operation is running at a reconnect and ends on the second stream. -/
def reconnectWhileRunning : List ConnectedAct :=
  .client .run :: openStream ++ acceptOperation ++ [.client .workerCheck, .client .workerTake] ++
    closeStream ++ openStream ++ [.client (.taskSend (.eofLog {})), .stream (.writeDone true)]

theorem hello_first_reconnectWhileRunning : ∃ s H,
    (connected demoConfig).Run (HelloAhead demoConfig) s H ∧ s.stream.streams = 2 ∧
      FirstWrite isHello (H.filterMap ConnectedEvent.stream?) :=
  have r := Machine.run_schedule (connected demoConfig) (HelloAhead demoConfig)
    reconnectWhileRunning rfl
  ⟨_, _, r, rfl, hello_first r⟩

/-- The stream closes with an operation queued, and the client reconnects. -/
def reconnectWhileQueued : List ConnectedAct :=
  .client .run :: openStream ++ acceptOperation ++
    [.stream .closeClear, .stream .closeDetach, .closed, .sendClosing, .stream .closeReturn,
      .stream .closeDone, .stream .waitReturn, .stream .connect, .stream .startCall,
      .stream .setReactor, .ready]

/-- The error of the queued operation is the first message of the second stream. -/
theorem error_overtakes_hello : ¬ ∀ cfg s H, (connected cfg).Reach s H →
    FirstWrite isHello (H.filterMap ConnectedEvent.stream?) := by
  intro hall
  have r := Machine.run_schedule (connected demoConfig) (fun _ _ => True) reconnectWhileQueued rfl
  have hfirst := hall _ _ _ r
  let hello : Outgoing := (makeHello "agent", none)
  let ack : Outgoing := (makeAck 1 true "", some ⟨0, 1, .logFilter {}⟩)
  let error : Outgoing := (.error 1 "CANCELLED" "stream closed", some ⟨0, 1, .logFilter {}⟩)
  have hbad := hfirst
    [.enqueued hello, .startWrite 1 hello, .writeDone 1 hello true, .enqueued ack,
      .startWrite 1 ack, .writeDone 1 ack true, .cleared, .enqueued error, .enqueued hello]
    (.startWrite 2 error) [] rfl 2 error rfl (by simp)
  exact nomatch hbad

end Zurg.Control
