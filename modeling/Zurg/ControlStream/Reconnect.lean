import Mathlib.Algebra.Order.Ring.Int
import Zurg.ControlStream.Delivery

/-!
# Zurg.ControlStream.Reconnect — the loop of `ControlStreamClient::Run`, its delays, and `Stop`

The thread in `ControlCallbackClient::Run` runs the loop that opens one stream after the other.
`ShouldContinue` reads three flags one after the other; between two streams the thread sleeps for
the delay that `ComputeBackoff` gives, in portions.  What unsets the flags comes in between (calls
of `ControlCallbackClient::Stop`, the signal handler, `HandleShutdown` without `drain`, the worker
at the end of a drain), and so does whatever moves the stream itself.

The delays are kept whatever happens: the `k`-th stream is opened after a time asleep that depends
on `k` only, and the loop goes on until it is asked to stop (`reconnects_on_schedule`).

The reactor that a `Stop` or a `CancelStream` has read from `reactor_` may be gone when it calls
`TryCancel`.
-/

namespace Zurg.ControlStream

open Lib

/-- `internal::ComputeBackoff` without a hook, in milliseconds. -/
def computeBackoff (attempt : ℕ) : ℕ :=
  let multiplier := 2 ^ min attempt 6
  let delay := 500 * multiplier
  if delay > 30000 then 30000 else delay

/-- The flags that `ShouldContinue` reads, in the order in which it reads them. -/
inductive Flag
  /-- `running_` of the stream client. -/
  | stream
  /-- `running_` of the callback client, in `ShouldStreamContinue`. -/
  | client
  /-- `g_running`, in `should_run`. -/
  | agent
  deriving DecidableEq, Repr

/-- Where the thread in `Run` stands. -/
inductive LoopPc
  | idle
  /-- `running_` of the callback client is set. -/
  | entered
  /-- Before `ShouldContinue` reads the flag; whether a stream has just closed. -/
  | checking (flag : Flag) (closed : Bool)
  | opening
  /-- Until `Wait` returns. -/
  | streaming
  /-- At the head of the loop of `SleepWithStop`, and in its body. -/
  | pausing (remaining : ℕ)
  | sleeping (remaining : ℕ)
  /-- Before `running_` of the stream client, and that of the callback client, is unset. -/
  | left
  | leaving
  | returned
  deriving DecidableEq, Repr

/-- How far a call of `Stop`, or of `HandleShutdown` without `drain`, has come. -/
inductive StopPc
  /-- `running_` of the callback client is unset. -/
  | begun
  /-- That of the stream client is unset too. -/
  | unset
  /-- `reactor_` has been read. -/
  | found (reactor : Option ℕ)
  /-- In `HandleShutdown`, before `CancelStream` reads `reactor_`. -/
  | shutdown
  /-- In `HandleShutdown`, when `CancelStream` has read it. -/
  | cancelling (reactor : Option ℕ)
  /-- In `HandleShutdown`, before `running_` of the callback client is unset. -/
  | cancelled
  deriving DecidableEq, Repr

structure StreamLoop (μ : Type) where
  stream : StreamClient μ := {}
  pc : LoopPc := .idle
  attempt : ℕ := 0
  streamRunning : Bool := false
  clientRunning : Bool := false
  agentRunning : Bool := true
  stops : List StopPc := []
  deriving DecidableEq, Repr

inductive LoopAct (μ : Type)
  /-- The next step of the thread in `Run`, outside the life of a stream. -/
  | loop
  /-- A step of the stream client that neither opens a stream nor returns from `Wait`. -/
  | stream (x : StreamAct μ)
  /-- `RequestStop`, in the signal handler. -/
  | signal
  /-- A call of `Stop`. -/
  | stop
  /-- A call of `HandleShutdown` without `drain`. -/
  | shutdown
  /-- The next step of the `i`-th of these calls. -/
  | stopping (i : ℕ)
  /-- The worker finds nothing queued at the end of a task, in `drain_mode_`. -/
  | drained
  deriving DecidableEq, Repr

inductive LoopEvent (μ : Type)
  | stream (e : StreamEvent μ)
  | opened (k : ℕ)
  | slept (ms : ℕ)
  | signalled
  | stopCalled
  | shutdownCalled
  | drained
  /-- `TryCancel` on stream `k`. -/
  | cancelled (k : ℕ)
  | returned
  deriving DecidableEq, Repr

variable {μ : Type}

namespace StreamLoop

variable (backoff : ℕ → ℕ) (s : StreamLoop μ)

def running : Flag → Bool
  | .stream => s.streamRunning
  | .client => s.clientRunning
  | .agent => s.agentRunning

/-- After a stream: `++attempt_`, and the delay. -/
def backOff : StreamLoop μ :=
  let attempt := s.attempt + 1
  let delay := backoff attempt
  { s with attempt, pc := if delay > 0 then .pausing delay else .checking .stream false }

/-- `ShouldContinue` has read `flag`. -/
def check (flag : Flag) (closed : Bool) : StreamLoop μ :=
  if s.running flag then
    match flag with
    | .stream => { s with pc := .checking .client closed }
    | .client => { s with pc := .checking .agent closed }
    | .agent => if closed then s.backOff backoff else { s with pc := .opening }
  else { s with pc := .left }

def loopStep : Option (StreamLoop μ × List (LoopEvent μ)) :=
  match s.pc with
  | .idle => some ({ s with clientRunning := true, pc := .entered }, [])
  | .entered =>
    some ({ s with streamRunning := true, attempt := 0, pc := .checking .stream false }, [])
  | .checking flag closed => some (s.check backoff flag closed, [])
  | .opening =>
    match s.stream.step .connect with
    | some (c, e) =>
      some ({ s with stream := c, pc := .streaming }, .opened c.streams :: e.map .stream)
    | none => none
  | .streaming =>
    match s.stream.step .waitReturn with
    | some (c, e) => some ({ s with stream := c, pc := .checking .stream true }, e.map .stream)
    | none => none
  | .pausing remaining =>
    some ({ s with
      pc := if s.agentRunning ∧ remaining > 0 then .sleeping remaining
        else .checking .stream false }, [])
  | .sleeping remaining =>
    let chunk := if remaining > 200 then 200 else remaining
    some ({ s with pc := .pausing (remaining - chunk) }, [.slept chunk])
  | .left => some ({ s with streamRunning := false, pc := .leaving }, [])
  | .leaving => some ({ s with clientRunning := false, pc := .returned }, [.returned])
  | .returned => none

/-- `ControlCallbackClient::Stop`, after its first step, up to `ShutdownWorker`, and
`HandleShutdown`, from its call of `CancelStream` on. -/
def stopStep (i : ℕ) : StopPc → StreamLoop μ × List (LoopEvent μ)
  | .begun => ({ s with streamRunning := false, stops := s.stops.set i .unset }, [])
  | .unset => ({ s with stops := s.stops.set i (.found s.stream.reactor) }, [])
  | .found reactor =>
    ({ s with stops := s.stops.eraseIdx i }, (reactor.map LoopEvent.cancelled).toList)
  | .shutdown => ({ s with stops := s.stops.set i (.cancelling s.stream.reactor) }, [])
  | .cancelling reactor =>
    ({ s with stops := s.stops.set i .cancelled }, (reactor.map LoopEvent.cancelled).toList)
  | .cancelled => ({ s with clientRunning := false, stops := s.stops.eraseIdx i }, [])

def step : LoopAct μ → Option (StreamLoop μ × List (LoopEvent μ))
  | .loop => s.loopStep backoff
  | .stream x =>
    match x with
    | .connect | .waitReturn => none
    | x =>
      match s.stream.step x with
      | some (c, e) => some ({ s with stream := c }, e.map .stream)
      | none => none
  | .signal => some ({ s with agentRunning := false }, [.signalled])
  | .stop =>
    some ({ s with clientRunning := false, stops := s.stops ++ [.begun] }, [.stopCalled])
  | .shutdown => some ({ s with stops := s.stops ++ [.shutdown] }, [.shutdownCalled])
  | .stopping i =>
    match s.stops[i]? with
    | some pc => some (s.stopStep i pc)
    | none => none
  | .drained => some ({ s with clientRunning := false }, [.drained])

end StreamLoop

/-- The stream client with its loop, for all interleavings and whatever is sent. -/
def streamLoop (μ : Type) (backoff : ℕ → ℕ) :
    Machine (StreamLoop μ) (LoopAct μ) (LoopEvent μ) where
  init := {}
  step := StreamLoop.step backoff

variable {backoff : ℕ → ℕ} {s t : StreamLoop μ} {x : LoopAct μ} {h e pre post : List (LoopEvent μ)}

/-! ## What a step does -/

inductive LoopMove (backoff : ℕ → ℕ) (s : StreamLoop μ) :
    LoopAct μ → StreamLoop μ → List (LoopEvent μ) → Prop
  | enter : s.pc = .idle →
      LoopMove backoff s .loop { s with clientRunning := true, pc := .entered } []
  | start : s.pc = .entered → LoopMove backoff s .loop
      { s with streamRunning := true, attempt := 0, pc := .checking .stream false } []
  | stopSeen {f : Flag} {closed : Bool} : s.pc = .checking f closed → s.running f = false →
      LoopMove backoff s .loop { s with pc := .left } []
  | readStream {closed : Bool} : s.pc = .checking .stream closed → s.streamRunning = true →
      LoopMove backoff s .loop { s with pc := .checking .client closed } []
  | readClient {closed : Bool} : s.pc = .checking .client closed → s.clientRunning = true →
      LoopMove backoff s .loop { s with pc := .checking .agent closed } []
  | goOn : s.pc = .checking .agent false → s.agentRunning = true →
      LoopMove backoff s .loop { s with pc := .opening } []
  | backOff : s.pc = .checking .agent true → s.agentRunning = true →
      LoopMove backoff s .loop (s.backOff backoff) []
  | opened {c : StreamClient μ} {k : List (StreamEvent μ)} : s.pc = .opening →
      s.stream.step .connect = some (c, k) → LoopMove backoff s .loop
        { s with stream := c, pc := .streaming } (.opened c.streams :: k.map .stream)
  | closed {c : StreamClient μ} {k : List (StreamEvent μ)} : s.pc = .streaming →
      s.stream.step .waitReturn = some (c, k) → LoopMove backoff s .loop
        { s with stream := c, pc := .checking .stream true } (k.map .stream)
  | sleep {r : ℕ} : s.pc = .pausing r → s.agentRunning = true → 0 < r →
      LoopMove backoff s .loop { s with pc := .sleeping r } []
  | wake {r : ℕ} : s.pc = .pausing r → (s.agentRunning = true → r = 0) →
      LoopMove backoff s .loop { s with pc := .checking .stream false } []
  | slept {r : ℕ} : s.pc = .sleeping r → LoopMove backoff s .loop
      { s with pc := .pausing (r - min r 200) } [.slept (min r 200)]
  | leave : s.pc = .left →
      LoopMove backoff s .loop { s with streamRunning := false, pc := .leaving } []
  | done : s.pc = .leaving →
      LoopMove backoff s .loop { s with clientRunning := false, pc := .returned } [.returned]
  | stream {y : StreamAct μ} {c : StreamClient μ} {k : List (StreamEvent μ)} : y ≠ .connect →
      y ≠ .waitReturn → s.stream.step y = some (c, k) →
      LoopMove backoff s (.stream y) { s with stream := c } (k.map .stream)
  | signal : LoopMove backoff s .signal { s with agentRunning := false } [.signalled]
  | stop : LoopMove backoff s .stop
      { s with clientRunning := false, stops := s.stops ++ [.begun] } [.stopCalled]
  | shutdown : LoopMove backoff s .shutdown { s with stops := s.stops ++ [.shutdown] }
      [.shutdownCalled]
  | stopping {i : ℕ} {stream client : Bool} {stops : List StopPc} {k : List (LoopEvent μ)} :
      s.stops ≠ [] → (stream = true → s.streamRunning = true) →
      (client = true → s.clientRunning = true) → (∀ v ∈ k, ∃ n, v = .cancelled n) →
      LoopMove backoff s (.stopping i)
        { s with streamRunning := stream, clientRunning := client, stops } k
  | drained : LoopMove backoff s .drained { s with clientRunning := false } [.drained]

theorem mem_cancelled {reactor : Option ℕ} :
    ∀ v ∈ (reactor.map (LoopEvent.cancelled (μ := μ))).toList, ∃ n, v = .cancelled n := by
  intro v hv
  obtain ⟨n, -, hn⟩ := Option.map_eq_some_iff.mp (Option.mem_toList.mp hv)
  exact ⟨n, hn.symm⟩

theorem loopMove_check {f : Flag} {closed : Bool} (hpc : s.pc = .checking f closed) :
    LoopMove backoff s .loop (s.check backoff f closed) [] := by
  unfold StreamLoop.check
  by_cases hrun : s.running f = true
  · rw [if_pos hrun]
    cases f with
    | stream => exact .readStream hpc hrun
    | client => exact .readClient hpc hrun
    | agent =>
      cases closed with
      | false => exact .goOn hpc hrun
      | true => exact .backOff hpc hrun
  · rw [if_neg hrun]
    exact .stopSeen hpc (Bool.eq_false_iff.mpr hrun)

theorem loopMove_loop (hst : s.loopStep backoff = some (t, e)) :
    LoopMove backoff s .loop t e := by
  have hmove : ∀ {u k}, LoopMove backoff s .loop u k → some (u, k) = some (t, e) →
      LoopMove backoff s .loop t e := by
    intro u k hm heq
    obtain ⟨rfl, rfl⟩ := Prod.mk.inj (Option.some.inj heq)
    exact hm
  unfold StreamLoop.loopStep at hst
  split at hst
  · exact hmove (.enter ‹_›) hst
  · exact hmove (.start ‹_›) hst
  · exact hmove (loopMove_check ‹_›) hst
  · split at hst
    · exact hmove (.opened ‹_› ‹_›) hst
    · exact absurd hst (by simp)
  · split at hst
    · exact hmove (.closed ‹_› ‹_›) hst
    · exact absurd hst (by simp)
  · rename_i r hpc
    by_cases hsleep : s.agentRunning = true ∧ r > 0
    · rw [if_pos hsleep] at hst
      exact hmove (.sleep hpc hsleep.1 hsleep.2) hst
    · rw [if_neg hsleep] at hst
      refine hmove (.wake hpc fun ha => ?_) hst
      by_contra hr
      exact hsleep ⟨ha, Nat.pos_of_ne_zero hr⟩
  · rename_i r hpc
    have hchunk : (if r > 200 then 200 else r) = min r 200 := by
      split_ifs <;> omega
    simp only [hchunk] at hst
    exact hmove (.slept hpc) hst
  · exact hmove (.leave ‹_›) hst
  · exact hmove (.done ‹_›) hst
  · exact absurd hst (by simp)

/-- **A step is a move.** -/
theorem loop_moves (hst : s.step backoff x = some (t, e)) : LoopMove backoff s x t e := by
  have heq : ∀ {u k}, some (u, k) = some (t, e) → u = t ∧ k = e :=
    fun h => Prod.mk.inj (Option.some.inj h)
  cases x with
  | loop => exact loopMove_loop hst
  | stream y =>
    simp only [StreamLoop.step] at hst
    split at hst
    · exact absurd hst (by simp)
    · exact absurd hst (by simp)
    · split at hst
      · obtain ⟨rfl, rfl⟩ := heq hst
        exact .stream ‹_› ‹_› ‹_›
      · exact absurd hst (by simp)
  | signal =>
    obtain ⟨rfl, rfl⟩ := heq hst
    exact .signal
  | stop =>
    obtain ⟨rfl, rfl⟩ := heq hst
    exact .stop
  | shutdown =>
    obtain ⟨rfl, rfl⟩ := heq hst
    exact .shutdown
  | stopping i =>
    simp only [StreamLoop.step] at hst
    split at hst
    · rename_i pc hpc
      have hne : s.stops ≠ [] := by
        rintro hnil
        simp [hnil] at hpc
      cases pc with
      | begun =>
        obtain ⟨rfl, rfl⟩ := heq hst
        exact .stopping hne (by simp) id (by simp)
      | unset | shutdown =>
        obtain ⟨rfl, rfl⟩ := heq hst
        exact .stopping hne id id (by simp)
      | found reactor | cancelling reactor =>
        obtain ⟨rfl, rfl⟩ := heq hst
        exact .stopping hne id id mem_cancelled
      | cancelled =>
        obtain ⟨rfl, rfl⟩ := heq hst
        exact .stopping hne id (by simp) (by simp)
    · exact absurd hst (by simp)
  | drained =>
    obtain ⟨rfl, rfl⟩ := heq hst
    exact .drained

/-- What the loop sees of a step of the stream client. -/
theorem run_of_step {c d : StreamClient μ} {y : StreamAct μ} {k : List (StreamEvent μ)}
    (hy : y ≠ .connect) (hy' : y ≠ .waitReturn) (hst : c.step y = some (d, k)) :
    d.streams = c.streams ∧ (d.run = .loopHead ↔ c.run = .loopHead) := by
  obtain ⟨m, e₁, e₂, hm, hs, -⟩ := step_moves hst
  have hstart : d.streams = m.streams ∧ d.run = m.run := by
    cases hs with
    | nothing => exact ⟨rfl, rfl⟩
    | start hf hp hr => exact ⟨rfl, rfl⟩
  rw [hstart.1, hstart.2]
  cases hm with
  | connect hr => exact absurd rfl hy
  | waitReturn hr hc hrr => exact absurd rfl hy'
  | startCall hr | setReactor hr | readyReturn hr | kick hr => simp [hr]
  | _ => exact ⟨rfl, Iff.rfl⟩

theorem connect_of_step {c d : StreamClient μ} {k : List (StreamEvent μ)}
    (hst : c.step .connect = some (d, k)) : d.streams = c.streams + 1 ∧ d.run = .installed := by
  simp only [StreamClient.step, Option.ite_none_right_eq_some, Option.some.injEq,
    Prod.mk.injEq] at hst
  obtain ⟨-, rfl, -⟩ := hst
  exact ⟨rfl, rfl⟩

theorem waitReturn_of_step {c d : StreamClient μ} {k : List (StreamEvent μ)}
    (hst : c.step .waitReturn = some (d, k)) : d.streams = c.streams ∧ d.run = .loopHead := by
  simp only [StreamClient.step, Option.ite_none_right_eq_some, Option.some.injEq,
    Prod.mk.injEq] at hst
  obtain ⟨-, rfl, -⟩ := hst
  exact ⟨rfl, rfl⟩

def LoopEvent.stream? : LoopEvent μ → Option (StreamEvent μ)
  | .stream e => some e
  | _ => none

theorem filterMap_stream? (k : List (StreamEvent μ)) :
    (k.map LoopEvent.stream).filterMap LoopEvent.stream? = k := by
  rw [List.filterMap_map]
  exact List.filterMap_some

/-- **The loop opens streams as the stream client does**: its runs are runs of the stream client. -/
theorem stream_of_reach (r : (streamLoop μ backoff).Reach s h) :
    (streamClient μ).Reach s.stream (h.filterMap LoopEvent.stream?) := by
  refine Machine.Steps.simulate (f := StreamLoop.stream) _ ?_ r
  intro s h x t e _ _ hst
  cases loop_moves hst with
  | @opened c k hpc hc =>
    have hk : (LoopEvent.opened c.streams :: k.map .stream).filterMap LoopEvent.stream? = k :=
      filterMap_stream? k
    rw [hk]
    exact .single (a := StreamAct.connect) trivial hc
  | closed hpc hc =>
    rw [filterMap_stream?]
    exact .single (a := StreamAct.waitReturn) trivial hc
  | @stream y c k hy hy' hc =>
    rw [filterMap_stream?]
    exact .single (a := y) trivial hc
  | stopping hne _ _ hk =>
    have hnil : e.filterMap LoopEvent.stream? = [] := by
      refine List.filterMap_eq_nil_iff.mpr fun v hv => ?_
      obtain ⟨n, rfl⟩ := hk v hv
      rfl
    rw [hnil]
    exact .refl
  | backOff hpc ha => exact .refl
  | _ => exact .refl

/-! ## The schedule -/

def LoopEvent.isOpened : LoopEvent μ → Bool
  | .opened _ => true
  | _ => false

def LoopEvent.ms : LoopEvent μ → ℕ
  | .slept ms => ms
  | _ => 0

/-- The number of streams opened. -/
def openings (h : List (LoopEvent μ)) : ℕ := h.countP LoopEvent.isOpened

/-- The time asleep, in milliseconds. -/
def asleep (h : List (LoopEvent μ)) : ℕ := (h.map LoopEvent.ms).sum

@[simp] theorem openings_append (h k : List (LoopEvent μ)) :
    openings (h ++ k) = openings h + openings k := List.countP_append

@[simp] theorem asleep_append (h k : List (LoopEvent μ)) :
    asleep (h ++ k) = asleep h + asleep k := by
  simp [asleep]

/-- Neither a stream nor a sleep begins. -/
def LoopEvent.quiet : LoopEvent μ → Bool
  | .opened _ => false
  | .slept _ => false
  | _ => true

theorem openings_quiet (hq : ∀ v ∈ e, v.quiet = true) : openings e = 0 := by
  refine List.countP_eq_zero.mpr fun v hv => ?_
  have hv := hq v hv
  cases v <;> simp_all [LoopEvent.quiet, LoopEvent.isOpened]

theorem asleep_quiet (hq : ∀ v ∈ e, v.quiet = true) : asleep e = 0 := by
  refine List.sum_eq_zero_iff_forall_eq_nat.mpr fun n hn => ?_
  obtain ⟨v, hv, rfl⟩ := List.mem_map.mp hn
  have hv := hq v hv
  cases v <;> simp_all [LoopEvent.quiet, LoopEvent.ms]

theorem quiet_stream (k : List (StreamEvent μ)) :
    ∀ v ∈ k.map (LoopEvent.stream (μ := μ)), v.quiet = true := by
  intro v hv
  obtain ⟨w, -, rfl⟩ := List.mem_map.mp hv
  rfl

/-- The first `n` delays together. -/
def totalDelay (backoff : ℕ → ℕ) : ℕ → ℕ
  | 0 => 0
  | n + 1 => totalDelay backoff n + backoff (n + 1)

/-- With `slept` milliseconds asleep, the loop is where it should be. -/
def OnSchedule (backoff : ℕ → ℕ) (s : StreamLoop μ) (slept : ℕ) : Prop :=
  match s.pc with
  | .idle | .entered => s.stream.streams = 0 ∧ slept = 0
  | .checking _ false =>
    s.stream.streams = s.attempt ∧ (s.agentRunning = true → slept = totalDelay backoff s.attempt)
  | .opening => s.stream.streams = s.attempt ∧ slept = totalDelay backoff s.attempt
  | .streaming | .checking _ true =>
    s.stream.streams = s.attempt + 1 ∧ slept = totalDelay backoff s.attempt
  | .pausing r =>
    s.stream.streams = s.attempt ∧
      (s.agentRunning = true → slept + r = totalDelay backoff s.attempt)
  | .sleeping r => s.stream.streams = s.attempt ∧ slept + r = totalDelay backoff s.attempt
  | .left | .leaving | .returned => True

/-- `OnSchedule` reads the number of streams, not the rest of the stream client. -/
theorem OnSchedule.frame {n : ℕ} (hI : OnSchedule backoff s n) (hpc : t.pc = s.pc)
    (hattempt : t.attempt = s.attempt) (hstreams : t.stream.streams = s.stream.streams)
    (hagent : t.agentRunning = true → s.agentRunning = true) : OnSchedule backoff t n := by
  unfold OnSchedule at hI ⊢
  rw [hpc, hattempt, hstreams]
  split at hI
  · exact hI
  · exact hI
  · exact ⟨hI.1, fun ha => hI.2 (hagent ha)⟩
  · exact hI
  · exact hI
  · exact hI
  · exact ⟨hI.1, fun ha => hI.2 (hagent ha)⟩
  · exact hI
  · exact hI
  · exact hI
  · exact hI

/-- What holds before a stream is opened, with the history up to then. -/
def OpenedOnSchedule (backoff : ℕ → ℕ) (pre : List (LoopEvent μ)) (v : LoopEvent μ) : Prop :=
  ∀ k, v = .opened k → openings pre + 1 = k ∧ asleep pre = totalDelay backoff (k - 1)

structure ScheduleInv (backoff : ℕ → ℕ) (s : StreamLoop μ) (h : List (LoopEvent μ)) : Prop where
  now : OnSchedule backoff s (asleep h)
  openings : openings h = s.stream.streams
  opened : Always (OpenedOnSchedule backoff) h

/-- A step at which neither a stream is opened nor a sleep ends. -/
theorem ScheduleInv.quiet (hI : ScheduleInv backoff s h) (hq : ∀ v ∈ e, v.quiet = true)
    (hstreams : t.stream.streams = s.stream.streams) (hnow : OnSchedule backoff t (asleep h)) :
    ScheduleInv backoff t (h ++ e) where
  now := by rwa [asleep_append, asleep_quiet hq]
  openings := by rw [openings_append, openings_quiet hq, hI.openings, hstreams]; rfl
  opened := by
    refine hI.opened.append fun pre v post heq k hk => ?_
    have hv := hq v (by simp [heq])
    rw [hk] at hv
    exact absurd hv (by simp [LoopEvent.quiet])

theorem scheduleInv_move (hI : ScheduleInv backoff s h) (hm : LoopMove backoff s x t e) :
    ScheduleInv backoff t (h ++ e) := by
  have hnow := hI.now
  cases hm with
  | enter hpc =>
    simp only [OnSchedule, hpc] at hnow
    exact hI.quiet (by simp) rfl hnow
  | start hpc =>
    simp only [OnSchedule, hpc] at hnow
    exact hI.quiet (by simp) rfl ⟨hnow.1, fun _ => hnow.2⟩
  | stopSeen hpc hrun => exact hI.quiet (by simp) rfl trivial
  | @readStream closed hpc hrun | @readClient closed hpc hrun =>
    refine hI.quiet (by simp) rfl ?_
    cases closed <;> simpa only [OnSchedule, hpc] using hnow
  | goOn hpc ha =>
    simp only [OnSchedule, hpc] at hnow
    exact hI.quiet (by simp) rfl ⟨hnow.1, hnow.2 ha⟩
  | backOff hpc ha =>
    simp only [OnSchedule, hpc] at hnow
    refine hI.quiet (by simp) rfl ?_
    unfold StreamLoop.backOff
    by_cases hd : backoff (s.attempt + 1) > 0
    · simp only [if_pos hd]
      exact ⟨hnow.1, fun _ => by rw [hnow.2]; rfl⟩
    · simp only [if_neg hd]
      refine ⟨hnow.1, fun _ => ?_⟩
      rw [hnow.2, totalDelay]
      omega
  | @opened c k hpc hc =>
    obtain ⟨hstreams, -⟩ := connect_of_step hc
    simp only [OnSchedule, hpc] at hnow
    have hq := quiet_stream k
    refine ⟨?_, ?_, ?_⟩
    · rw [List.append_cons, asleep_append, asleep_quiet hq, asleep_append]
      exact ⟨by rw [hstreams, hnow.1], hnow.2⟩
    · rw [List.append_cons, openings_append, openings_quiet hq, openings_append, hI.openings,
        hstreams]
      rfl
    · rw [List.append_cons]
      refine (hI.opened.snoc fun n hn => ?_).append fun pre v post heq n hn => ?_
      · obtain rfl := LoopEvent.opened.inj hn
        rw [hI.openings, hstreams, Nat.add_sub_cancel, hnow.1]
        exact ⟨rfl, hnow.2⟩
      · have hv := hq v (by simp [heq])
        rw [hn] at hv
        exact absurd hv (by simp [LoopEvent.quiet])
  | @closed c k hpc hc =>
    obtain ⟨hstreams, -⟩ := waitReturn_of_step hc
    simp only [OnSchedule, hpc] at hnow
    refine hI.quiet (quiet_stream k) hstreams ?_
    exact ⟨by rw [hstreams, hnow.1], hnow.2⟩
  | sleep hpc ha hr =>
    simp only [OnSchedule, hpc] at hnow
    exact hI.quiet (by simp) rfl ⟨hnow.1, hnow.2 ha⟩
  | wake hpc hr =>
    simp only [OnSchedule, hpc] at hnow
    refine hI.quiet (by simp) rfl ⟨hnow.1, fun ha => ?_⟩
    rw [← hnow.2 ha, hr ha]
    rfl
  | @slept r hpc =>
    simp only [OnSchedule, hpc] at hnow
    refine ⟨⟨hnow.1, fun _ => ?_⟩, ?_, ?_⟩
    · rw [← hnow.2, asleep_append]
      show asleep h + (min r 200 + 0) + (r - min r 200) = asleep h + r
      omega
    · rw [openings_append, hI.openings]
      rfl
    · exact hI.opened.snoc fun n hn => absurd hn (by simp)
  | leave hpc => exact hI.quiet (by simp) rfl trivial
  | done hpc => exact hI.quiet (by simp [LoopEvent.quiet]) rfl trivial
  | stream hy hy' hc =>
    have hstreams := (run_of_step hy hy' hc).1
    exact hI.quiet (quiet_stream _) hstreams (hnow.frame rfl rfl hstreams id)
  | signal => exact hI.quiet (by simp [LoopEvent.quiet]) rfl (hnow.frame rfl rfl rfl (by simp))
  | stop | shutdown | drained =>
    exact hI.quiet (by simp [LoopEvent.quiet]) rfl (hnow.frame rfl rfl rfl id)
  | stopping hne _ _ hk =>
    refine hI.quiet (fun v hv => ?_) rfl (hnow.frame rfl rfl rfl id)
    obtain ⟨n, rfl⟩ := hk v hv
    rfl

theorem scheduleInv_of_reach (r : (streamLoop μ backoff).Reach s h) : ScheduleInv backoff s h := by
  have h0 : ScheduleInv backoff ({} : StreamLoop μ) [] := ⟨⟨rfl, rfl⟩, rfl, .nil⟩
  refine Machine.Run.invariant h0 ?_ r
  intro s h x t e _ hI _ hst
  exact scheduleInv_move hI (loop_moves hst)

theorem computeBackoff_of_ge {n : ℕ} (hn : 6 ≤ n) : computeBackoff n = 30000 := by
  have hmin : min n 6 = 6 := Nat.min_eq_right hn
  rw [computeBackoff, hmin]
  rfl

/-- The delays double from one second on, up to half a minute. -/
theorem totalDelay_computeBackoff (n : ℕ) : totalDelay computeBackoff n =
    if n ≤ 5 then 1000 * (2 ^ n - 1) else 31000 + 30000 * (n - 5) := by
  have hsmall : ∀ n < 6, totalDelay computeBackoff n = 1000 * (2 ^ n - 1) := by decide
  by_cases hn : n ≤ 5
  · rw [if_pos hn]
    exact hsmall n (by omega)
  · rw [if_neg hn]
    obtain ⟨m, rfl⟩ : ∃ m, n = 6 + m := ⟨n - 6, by omega⟩
    clear hn
    induction m with
    | zero => rfl
    | succ m ih =>
      rw [← Nat.add_assoc, totalDelay, ih, computeBackoff_of_ge (by omega)]
      omega

/-! ## As long as nobody asks it to stop -/

/-- What asks the loop to end. -/
def LoopEvent.asks : LoopEvent μ → Bool
  | .signalled | .stopCalled | .shutdownCalled | .drained => true
  | _ => false

/-- A signal has come, `Stop` or `HandleShutdown` has been called, or a drain has ended. -/
def Asked (h : List (LoopEvent μ)) : Prop := ∃ v ∈ h, v.asks = true

/-- The loop has no reason to end. -/
structure GoesOn (s : StreamLoop μ) : Prop where
  agent : s.agentRunning = true
  stops : s.stops = []
  client : s.pc ≠ .idle → s.clientRunning = true
  stream : s.pc ≠ .idle → s.pc ≠ .entered → s.streamRunning = true
  pc : s.pc ≠ .left ∧ s.pc ≠ .leaving ∧ s.pc ≠ .returned

theorem GoesOn.running (hg : GoesOn s) {f : Flag} {closed : Bool}
    (hpc : s.pc = .checking f closed) : s.running f = true := by
  cases f with
  | stream => exact hg.stream (by simp [hpc]) (by simp [hpc])
  | client => exact hg.client (by simp [hpc])
  | agent => exact hg.agent

/-- The loop goes on to `pc`. -/
theorem GoesOn.frame (hg : GoesOn s) (hidle : s.pc ≠ .idle) (hentered : s.pc ≠ .entered)
    (hagent : t.agentRunning = s.agentRunning) (hstops : t.stops = s.stops)
    (hclient : t.clientRunning = s.clientRunning) (hstream : t.streamRunning = s.streamRunning)
    (hpc : t.pc ≠ .left ∧ t.pc ≠ .leaving ∧ t.pc ≠ .returned) : GoesOn t :=
  ⟨hagent ▸ hg.agent, hstops ▸ hg.stops, fun _ => hclient ▸ hg.client hidle,
    fun _ _ => hstream ▸ hg.stream hidle hentered, hpc⟩

theorem goesOn_move (hg : GoesOn s) (hm : LoopMove backoff s x t e) :
    Asked e ∨ GoesOn t ∧ .returned ∉ e := by
  have hquiet : ∀ k : List (StreamEvent μ), .returned ∉ k.map LoopEvent.stream := by simp
  cases hm with
  | enter hpc =>
    exact .inr ⟨⟨hg.agent, hg.stops, fun _ => rfl, fun _ h => absurd rfl h, by simp⟩, by simp⟩
  | start hpc =>
    have hc := hg.client (by simp [hpc])
    exact .inr ⟨⟨hg.agent, hg.stops, fun _ => hc, fun _ _ => rfl, by simp⟩, by simp⟩
  | stopSeen hpc hrun => exact absurd (hg.running hpc) (by simp [hrun])
  | readStream hpc | readClient hpc | goOn hpc | sleep hpc | wake hpc | slept hpc =>
    exact .inr ⟨hg.frame (by simp [hpc]) (by simp [hpc]) rfl rfl rfl rfl (by simp), by simp⟩
  | backOff hpc ha =>
    refine .inr ⟨hg.frame (by simp [hpc]) (by simp [hpc]) rfl rfl rfl rfl ?_, by simp⟩
    unfold StreamLoop.backOff
    by_cases hd : backoff (s.attempt + 1) > 0
    · simp [hd]
    · simp [hd]
  | opened hpc hc | closed hpc hc =>
    exact .inr ⟨hg.frame (by simp [hpc]) (by simp [hpc]) rfl rfl rfl rfl (by simp), by simp⟩
  | leave hpc => exact absurd hpc hg.pc.1
  | done hpc => exact absurd hpc hg.pc.2.1
  | stream hy hy' hc => exact .inr ⟨⟨hg.agent, hg.stops, hg.client, hg.stream, hg.pc⟩, hquiet _⟩
  | signal | stop | shutdown | drained => exact .inl ⟨_, List.mem_singleton_self _, rfl⟩
  | stopping hne => exact absurd hg.stops hne

theorem goesOn_of_reach (r : (streamLoop μ backoff).Reach s h) :
    Asked h ∨ GoesOn s ∧ .returned ∉ h := by
  have h0 : GoesOn ({} : StreamLoop μ) := ⟨rfl, rfl, fun h => absurd rfl h,
    fun h => absurd rfl h, by simp⟩
  refine Machine.Run.invariant (I := fun s h => Asked h ∨ GoesOn s ∧ .returned ∉ h)
    (.inr ⟨h0, by simp⟩) ?_ r
  intro s h x t e _ hI _ hst
  rcases hI with ⟨v, hv, ha⟩ | ⟨hg, hno⟩
  · exact .inl ⟨v, List.mem_append_left e hv, ha⟩
  · rcases goesOn_move hg (loop_moves hst) with ⟨v, hv, ha⟩ | ⟨hg', hno'⟩
    · exact .inl ⟨v, List.mem_append_right h hv, ha⟩
    · exact .inr ⟨hg', by simp [hno, hno']⟩

/-- **The schedule.**  When the `k`-th stream is opened, the loop has been asleep for the first
`k - 1` delays, however long the streams lasted; and it ends only if it is asked to, by a signal,
`Stop`, `HandleShutdown` or the end of a drain. -/
theorem reconnects_on_schedule (r : (streamLoop μ computeBackoff).Reach s h) :
    (∀ pre k post, h = pre ++ .opened k :: post → openings pre + 1 = k ∧
      asleep pre = if k ≤ 6 then 1000 * (2 ^ (k - 1) - 1) else 31000 + 30000 * (k - 6)) ∧
    (.returned ∈ h →
      .signalled ∈ h ∨ .stopCalled ∈ h ∨ .shutdownCalled ∈ h ∨ .drained ∈ h) := by
  constructor
  · intro pre k post heq
    obtain ⟨hk, hasleep⟩ := (scheduleInv_of_reach r).opened pre _ post heq k rfl
    refine ⟨hk, ?_⟩
    rw [hasleep, totalDelay_computeBackoff]
    have hiff : k - 1 ≤ 5 ↔ k ≤ 6 := by omega
    simp only [hiff]
    split_ifs <;> omega
  · intro hret
    rcases goesOn_of_reach r with ⟨v, hv, ha⟩ | ⟨-, hno⟩
    · cases v with
      | signalled => exact .inl hv
      | stopCalled => exact .inr (.inl hv)
      | shutdownCalled => exact .inr (.inr (.inl hv))
      | drained => exact .inr (.inr (.inr hv))
      | _ => exact absurd ha (by simp [LoopEvent.asks])
    · exact absurd hret hno

/-- The first stream is closed as soon as it is open. -/
def firstStream : List (LoopAct ℕ) :=
  List.replicate 6 .loop ++
    [.stream .startCall, .stream .setReactor, .stream .readyReturn, .stream .kick,
      .stream .closeClear, .stream .closeDetach, .stream .closeReturn, .stream .closeDone, .loop]

/-- `Stop` is called on the second stream. -/
def stopOnSecond : List (LoopAct ℕ) :=
  firstStream ++ List.replicate 18 .loop ++ [.stop, .stopping 0, .stopping 0, .stopping 0]

theorem reconnects_on_schedule_stopOnSecond : ∃ s h pre post,
    (streamLoop ℕ computeBackoff).Reach s h ∧ h = pre ++ .opened 2 :: post ∧
      .cancelled 2 ∈ post ∧ asleep pre = 1000 := by
  obtain ⟨s, h, r, hlast⟩ := Machine.exists_run_schedule (streamLoop ℕ computeBackoff)
    (fun _ _ => True) stopOnSecond
    (P := fun q => q.2.drop (q.2.length - 3) = [.opened 2, .stopCalled, .cancelled 2])
    (by decide +kernel)
  have heq : h = h.take (h.length - 3) ++ .opened 2 :: [.stopCalled, .cancelled 2] := by
    rw [← show h.drop (h.length - 3) = _ from hlast, List.take_append_drop]
  exact ⟨s, h, _, _, r, heq, by simp, ((reconnects_on_schedule r).1 _ _ _ heq).2⟩

end Zurg.ControlStream
