import Mathlib.Logic.Function.Basic
import Zurg.Auth.License
import Zurg.Lib.History
import Zurg.Lib.Machine

/-!
# Zurg.Auth.Client — `AuthClient`: the stream loop, its reactors and `Stop`

The threads are the one that calls `Start` and `Stop`, the one in `StreamLoop`, and those of gRPC,
which run the callbacks of the reactors.  Reactors are numbered; `mode_` of the client stays
`kOnline`, because the manager never sets it.

Of gRPC the model assumes: each call that has been started gets one `OnDone`, at any later time, and
not while another callback of the reactor runs.  A callback that comes when its reactor has been
destroyed acts like any other; the code gives it no meaning.

`StreamLoop` waits for the `OnDone` of its reactor unless it finds `running_` false, or `finished_`
set by a `Stop` of the reactor (`released_after_done`).
-/

namespace Zurg.Auth

open Lib

/-- Where `StreamLoop` stands with a reactor. -/
inductive Phase
  /-- `active_reactor_` is set. -/
  | registered
  /-- In `AuthStreamReactor::Start`: about to reset `finished_`, and to start the call. -/
  | starting
  | calling
  /-- About to test the condition of the first loop. -/
  | testing
  /-- In `wait_for`. -/
  | waiting
  /-- About to stop the reactor, which is to be replaced. -/
  | dropping
  /-- In the second loop. -/
  | settling
  /-- About to reset `active_reactor_`. -/
  | leaving
  /-- In the short sleep, with the test of `running_` after it. -/
  | resting
  /-- Between that test and the end of the turn. -/
  | delaying
  deriving DecidableEq, Repr

inductive LoopPc
  /-- There is no thread. -/
  | off
  /-- About to test `while (running_)`. -/
  | head
  /-- About to make a reactor. -/
  | creating
  | own (k : ℕ) (phase : Phase)
  /-- After the loop. -/
  | exiting
  /-- Returned, and not joined. -/
  | ended
  deriving DecidableEq, Repr

/-- What gRPC and `OnDone` have done with a reactor. -/
inductive Call
  | unstarted
  /-- Started; whether `OnReadDone` is about to hand on a license. -/
  | active (reading : Bool)
  /-- `OnDone` has come with this `status.ok()`, and is about to call back. -/
  | ending (ok : Bool)
  /-- `OnDone` has called back. -/
  | calledBack (ok : Bool)
  /-- `OnDone` is about to call `NotifyReconnect`. -/
  | notifying
  | closed
  deriving DecidableEq, Repr

/-- Where the caller of `AuthClient::Stop` stands. -/
inductive StopPc
  | idle
  /-- `running_` has been reset; about to stop the active reactor. -/
  | flagged
  /-- About to set `reconnect_needed_`. -/
  | notifying
  | joining
  deriving DecidableEq, Repr

structure AuthClient where
  running : Bool := false
  reconnectNeeded : Bool := false
  activeReactor : Option ℕ := none
  /-- The number of reactors made so far. -/
  reactors : ℕ := 0
  /-- `finished_` of the reactors. -/
  finished : ℕ → Bool := fun _ => false
  calls : ℕ → Call := fun _ => .unstarted
  loop : LoopPc := .off
  stopping : StopPc := .idle

inductive ClientAct
  | start
  /-- `Stop`: the exchange of `running_`, and the steps after it. -/
  | stop
  | stopActive
  | stopNotify
  | join
  /-- The next step of `StreamLoop`; whether it has a stub, if it needs one. -/
  | loop (stub : Bool)
  /-- `OnReadDone` with a license, before and after `message_callback_`. -/
  | readDone (k : ℕ)
  | message (k : ℕ) (m : LicenseResp)
  /-- `OnDone`: it sets `finished_`; it calls back; it tests whether to notify; it notifies. -/
  | done (k : ℕ) (ok : Bool)
  | callBack (k : ℕ)
  | testStatus (k : ℕ)
  | notifyReconnect (k : ℕ)
  deriving DecidableEq, Repr

inductive ClientEvent
  /-- The call of a reactor is started. -/
  | started (k : ℕ)
  /-- gRPC delivers `OnDone`. -/
  | done (k : ℕ)
  /-- The turn of the loop that owns the reactor ends, and the reactor is destroyed. -/
  | released (k : ℕ)
  /-- `message_callback_`. -/
  | license (m : LicenseResp)
  /-- `connection_callback_`. -/
  | connection (connected : Bool)
  /-- `Stop` returns. -/
  | stopped
  deriving DecidableEq, Repr

namespace AuthClient

variable (s : AuthClient)

def setCall (k : ℕ) (c : Call) : AuthClient := { s with calls := Function.update s.calls k c }

def setFinished (k : ℕ) (b : Bool) : AuthClient :=
  { s with finished := Function.update s.finished k b }

/-- `StreamLoop` in the turn that owns reactor `k`. -/
def turn (k : ℕ) : Phase → AuthClient × List ClientEvent
  | .registered => ({ s with reconnectNeeded := false, loop := .own k .starting }, [])
  | .starting => ({ s.setFinished k false with loop := .own k .calling }, [])
  | .calling => ({ s.setCall k (.active false) with loop := .own k .testing }, [.started k])
  | .testing =>
    ({ s with loop := .own k (if s.running && !s.finished k then .waiting else .settling) }, [])
  | .waiting =>
    if !s.running then ({ s with loop := .own k .settling }, [])
    else if s.reconnectNeeded then
      ({ s with reconnectNeeded := false, loop := .own k .dropping }, [])
    -- a timeout
    else ({ s with loop := .own k .testing }, [])
  | .dropping => ({ s.setFinished k true with loop := .own k .settling }, [])
  | .settling =>
    ({ s with loop := .own k (if s.running && !s.finished k then .settling else .leaving) }, [])
  | .leaving =>
    ({ s with
      activeReactor := if s.activeReactor = some k then none else s.activeReactor
      loop := .own k .resting }, [])
  | .resting =>
    if !s.running then ({ s with loop := .exiting }, [.released k])
    else ({ s with loop := .own k .delaying }, [])
  | .delaying => ({ s with loop := .head }, [.released k])

/-- `StreamLoop`. -/
def streamLoop (stub : Bool) : Option (AuthClient × List ClientEvent) :=
  match s.loop with
  | .off => none
  | .head =>
    -- without a stub, and `Reconnect` failing, it tries again
    some ({ s with loop := if !s.running then .exiting else if stub then .creating else .head }, [])
  | .creating =>
    some ({ s with
      activeReactor := some s.reactors
      reactors := s.reactors + 1
      loop := .own s.reactors .registered }, [])
  | .own k phase => some (s.turn k phase)
  | .exiting => some ({ s with activeReactor := none, loop := .ended }, [])
  | .ended => none

/-- `Start`, which starts the thread unless the client is running. -/
def start : AuthClient := if s.running then s else { s with running := true, loop := .head }

/-- `AuthStreamReactor::Stop` of the active reactor. -/
def stopActive : AuthClient :=
  match s.activeReactor with
  | some k => s.setFinished k true
  | none => s

def step : ClientAct → Option (AuthClient × List ClientEvent)
  | .start => if s.stopping = .idle then some (s.start, []) else none
  | .stop =>
    if s.stopping ≠ .idle then none
    else if s.running then some ({ s with running := false, stopping := .flagged }, [])
    else some (s, [.stopped])
  | .stopActive =>
    if s.stopping = .flagged then some ({ s.stopActive with stopping := .notifying }, []) else none
  | .stopNotify =>
    if s.stopping = .notifying then
      some ({ s with reconnectNeeded := true, stopping := .joining }, [])
    else none
  | .join =>
    if s.stopping = .joining ∧ s.loop = .ended then
      some ({ s with stopping := .idle, loop := .off }, [.stopped])
    else none
  | .loop stub => s.streamLoop stub
  | .readDone k =>
    if s.calls k = .active false ∧ s.finished k = false then
      some (s.setCall k (.active true), [])
    else none
  | .message k m =>
    if s.calls k = .active true then some (s.setCall k (.active false), [.license m]) else none
  | .done k ok =>
    if s.calls k = .active false then
      some ((s.setCall k (.ending ok)).setFinished k true, [.done k])
    else none
  | .callBack k =>
    match s.calls k with
    | .ending ok => some (s.setCall k (.calledBack ok), [.connection ok])
    | _ => none
  | .testStatus k =>
    match s.calls k with
    | .calledBack ok =>
      some (s.setCall k (if !ok && s.running then .notifying else .closed), [])
    | _ => none
  | .notifyReconnect k =>
    if s.calls k = .notifying then
      some ({ s.setCall k .closed with reconnectNeeded := true }, [])
    else none

variable {s} {t : AuthClient} {e : List ClientEvent} {k : ℕ}

theorem step_stop (hst : s.step .stop = some (t, e)) :
    s.stopping = .idle ∧
    (s.running = true ∧ t = { s with running := false, stopping := .flagged } ∧ e = [] ∨
      s.running = false ∧ t = s ∧ e = [.stopped]) := by
  simp only [step, Option.ite_none_left_eq_some, not_not] at hst
  obtain ⟨hidle, hst⟩ := hst
  refine ⟨hidle, ?_⟩
  split_ifs at hst with hr <;> obtain ⟨rfl, rfl⟩ := Prod.mk.inj (Option.some.inj hst)
  · exact .inl ⟨hr, rfl, rfl⟩
  · exact .inr ⟨by simpa using hr, rfl, rfl⟩

theorem step_callBack (hst : s.step (.callBack k) = some (t, e)) :
    ∃ ok, s.calls k = .ending ok ∧ t = s.setCall k (.calledBack ok) ∧ e = [.connection ok] := by
  simp only [step] at hst
  split at hst
  · next ok hcall =>
    obtain ⟨rfl, rfl⟩ := Prod.mk.inj (Option.some.inj hst)
    exact ⟨ok, hcall, rfl, rfl⟩
  · simp at hst

theorem step_testStatus (hst : s.step (.testStatus k) = some (t, e)) :
    ∃ ok, s.calls k = .calledBack ok ∧
      t = s.setCall k (if !ok && s.running then .notifying else .closed) ∧ e = [] := by
  simp only [step] at hst
  split at hst
  · next ok hcall =>
    obtain ⟨rfl, rfl⟩ := Prod.mk.inj (Option.some.inj hst)
    exact ⟨ok, hcall, rfl, rfl⟩
  · simp at hst

end AuthClient

/-- The client, from the return of its constructor. -/
def authClient : Machine AuthClient ClientAct ClientEvent where
  init := {}
  step := AuthClient.step

end Zurg.Auth
