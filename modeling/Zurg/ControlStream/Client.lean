import Zurg.Lib.Machine

/-!
# Zurg.ControlStream.Client — `ControlStreamClient`: pending writes, the write in flight, reconnects

The class is modelled for any type `μ` of messages.  Its threads are the one in `Run`, the gRPC
callbacks of the latest stream, and anybody who calls `EnqueueWrite`; each region under `write_mu_`
or `reactor_mu_` is one step, and `MaybeStartWriteLocked` at the end of `OnStreamReady`, which holds
no lock, is taken for one as well.

Of gRPC the model assumes: a write started on a stream is answered at most once, by a call of
`OnWriteDone` between `StartCall` and `OnDone`; after an answer `ok=false` no write succeeds;
`OnDone` comes after the answer to a write that is due, and at any time after `StartCall` otherwise.
`CancelStream` and `Stop` only hasten `OnDone` and are not steps of their own.
-/

namespace Zurg.ControlStream

open Lib

/-- Where the thread in `Run` stands. -/
inductive RunPc
  /-- Outside the body of the loop. -/
  | loopHead
  /-- `reactor_` is set, `StartCall` is next. -/
  | installed
  /-- At the beginning of `OnStreamReady`. -/
  | called
  /-- In `OnStreamReady`, before the ready callback returns. -/
  | reactorSet
  /-- In `OnStreamReady`, before `MaybeStartWriteLocked`. -/
  | readied
  /-- In `Wait`. -/
  | waiting
  deriving DecidableEq, Repr

/-- How far gRPC and its last callback, `OnDone`, have come with the latest stream. -/
inductive CallPc
  | notStarted
  | active
  /-- In `OnStreamClosed`, after its first, its second region, and the closed callback. -/
  | cleared
  | detached
  | calledBack
  | done
  deriving DecidableEq, Repr

structure StreamClient (μ : Type) where
  pendingWrites : List μ := []
  currentWrite : Option μ := none
  writeInFlight : Bool := false
  /-- `reactor_`, as the number of a stream; streams are numbered from 1. -/
  reactor : Option ℕ := none
  /-- The number of streams so far, which is the number of the latest. -/
  streams : ℕ := 0
  run : RunPc := .loopHead
  call : CallPc := .done
  /-- The write of the latest stream that gRPC has not answered. -/
  outstanding : Option μ := none
  /-- A write of the latest stream has been answered with `ok=false`. -/
  failed : Bool := false
  /-- A write has been started on the latest stream. -/
  wrote : Bool := false
  deriving DecidableEq, Repr

inductive StreamAct (μ : Type)
  | enqueueWrite (m : μ)
  /-- `Run` creates a stream and sets `reactor_`. -/
  | connect
  | startCall
  /-- `OnStreamReady` sets `reactor_`. -/
  | setReactor
  /-- The ready callback returns; what it sends are steps of `EnqueueWrite` before this one. -/
  | readyReturn
  | kick
  | writeDone (ok : Bool)
  /-- `OnDone`: the two regions of `OnStreamClosed`, the return of the closed callback, and the
  signal to `Wait`. -/
  | closeClear
  | closeDetach
  | closeReturn
  | closeDone
  /-- `Wait` returns and `Run` unsets `reactor_`. -/
  | waitReturn
  deriving DecidableEq, Repr

inductive StreamEvent (μ : Type)
  | enqueued (m : μ)
  /-- `StartWrite(m)` on stream `k`. -/
  | startWrite (k : ℕ) (m : μ)
  | writeDone (k : ℕ) (m : μ) (ok : Bool)
  /-- The pending writes are dropped. -/
  | cleared
  deriving DecidableEq, Repr

variable {μ : Type}

namespace StreamClient

variable (s : StreamClient μ)

/-- `MaybeStartWriteLocked`. -/
def maybeStartWriteLocked : StreamClient μ × List (StreamEvent μ) :=
  if s.writeInFlight then (s, [])
  else match s.pendingWrites, s.reactor with
    | m :: rest, some k =>
      ({ s with
          currentWrite := some m
          pendingWrites := rest
          writeInFlight := true
          outstanding := some m
          wrote := true }, [.startWrite k m])
    | _, _ => (s, [])

/-- `EnqueueWrite`. -/
def enqueueWrite (m : μ) : StreamClient μ × List (StreamEvent μ) :=
  let r := { s with pendingWrites := s.pendingWrites ++ [m] }.maybeStartWriteLocked
  (r.1, .enqueued m :: r.2)

/-- `OnWriteFinished`, for the write `m` of the latest stream. -/
def onWriteFinished (m : μ) (ok : Bool) : StreamClient μ × List (StreamEvent μ) :=
  let s' :=
    { s with
      writeInFlight := false
      currentWrite := none
      pendingWrites := if ok then s.pendingWrites else []
      outstanding := none
      failed := s.failed || !ok }
  let r := s'.maybeStartWriteLocked
  (r.1, .writeDone s.streams m ok :: ((if ok then [] else [.cleared]) ++ r.2))

def step : StreamAct μ → Option (StreamClient μ × List (StreamEvent μ))
  | .enqueueWrite m => some (s.enqueueWrite m)
  | .connect =>
    if s.run = .loopHead then
      some ({ s with
        reactor := some (s.streams + 1)
        streams := s.streams + 1
        run := .installed
        call := .notStarted
        outstanding := none
        failed := false
        wrote := false }, [])
    else none
  | .startCall =>
    if s.run = .installed then some ({ s with run := .called, call := .active }, []) else none
  | .setReactor =>
    if s.run = .called then some ({ s with reactor := some s.streams, run := .reactorSet }, [])
    else none
  | .readyReturn => if s.run = .reactorSet then some ({ s with run := .readied }, []) else none
  | .kick =>
    if s.run = .readied then some ({ s with run := .waiting }.maybeStartWriteLocked) else none
  | .writeDone ok =>
    match s.outstanding with
    | some m =>
      if s.call = .active ∧ (ok = true → s.failed = false) then some (s.onWriteFinished m ok)
      else none
    | none => none
  | .closeClear =>
    if s.call = .active ∧ s.outstanding.isNone then
      some ({ s with
        writeInFlight := false
        currentWrite := none
        pendingWrites := []
        call := .cleared }, [.cleared])
    else none
  | .closeDetach =>
    if s.call = .cleared then some ({ s with reactor := none, call := .detached }, []) else none
  | .closeReturn =>
    if s.call = .detached then some ({ s with call := .calledBack }, []) else none
  | .closeDone => if s.call = .calledBack then some ({ s with call := .done }, []) else none
  | .waitReturn =>
    if s.run = .waiting ∧ s.call = .done then
      some ({ s with
        reactor := if s.reactor = some s.streams then none else s.reactor
        run := .loopHead }, [])
    else none

end StreamClient

/-- The stream client, for all interleavings and whatever is sent. -/
def streamClient (μ : Type) : Machine (StreamClient μ) (StreamAct μ) (StreamEvent μ) where
  init := {}
  step := StreamClient.step

end Zurg.ControlStream
