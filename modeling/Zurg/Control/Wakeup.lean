import Zurg.Control.TaskTable

/-!
# Zurg.Control.Wakeup — the worker and its condition variable

`client` lets the worker go on as soon as the predicate of `task_cv_` holds.  Here the worker
evaluates the predicate, and if it is false it blocks, until `notify_all` or a spurious wake-up.
The mutex is held from the evaluation until the worker is blocked, which keeps away those who change
the queue or `stop_worker_`, but not those who only unset `running_`: their `notify_all` may come
before the worker is blocked, and is lost then.

No wake-up for a task is lost (`queued_task_starts`), and what was missed of `running_` is made up
for by `ShutdownWorker` (`worker_stops`).
-/

namespace Zurg.Control

open Proto Lib

/-- Where the worker stands in `task_cv_.wait`. -/
inductive CvPc
  /-- Not in `wait`, or about to evaluate the predicate. -/
  | awake
  /-- The predicate was false, and `mu_` is still held. -/
  | dozing
  | blocked
  deriving DecidableEq, Repr

/-- A thread that has `notify_all` to call. -/
inductive Notifier
  /-- In the handler of a server message. -/
  | server
  /-- In `ApplyFeatureUpdate`. -/
  | auth
  /-- In `ShutdownWorker`. -/
  | stopper
  deriving DecidableEq, Repr

structure Waking where
  client : Client
  cv : CvPc := .awake
  notifying : List Notifier := []

inductive WakingAct
  | client (x : Act)
  /-- The worker finds the predicate false. -/
  | doze
  | block
  /-- A spurious wake-up. -/
  | wake
  /-- The `i`-th of those who have to calls `notify_all`. -/
  | notify (i : ℕ)
  deriving DecidableEq, Repr

/-- The `notify_all` of a handler comes before its thread does anything else. -/
def Act.follows : Act → Option Notifier
  | .message _ _ | .streamReady | .streamClosed => some .server
  | .authEvent _ | .reportUnauthorized => some .auth
  | _ => none

namespace Client

variable (cfg : Config) (s : Client)

/-- Whether a step enters a region under `mu_`. -/
def locks : Act → Bool
  | .message m ok =>
    ok && match m with
      | .start op => op.opId ≠ 0
      | .cancel _ | .shutdown _ => true
      | .ping _ | .notSet => false
  | .insertStartOp =>
    match s.server with
    | .validating t => (t.validate cfg.logOptions).isNone
    | _ => false
  | .streamClosed | .authEvent _ | .workerTake | .workerFinish | .stopWorker => true
  | _ => false

/-- `notify_worker` of `ApplyFeatureUpdate`. -/
def notifyWorker (toggles : FeatureToggles) : Bool :=
  let s' := (s.applyFeatureUpdate toggles).1
  s.activeFeatures ≠ toggles &&
    (s'.taskQueue.length ≠ s.taskQueue.length || s'.auth ≠ [] ||
      s.currentTask.any fun t => !isTaskAllowed toggles t.kind)

/-- Who has to call `notify_all` after a step. -/
def notifies : Act → Option Notifier
  | .ackStartOp =>
    match s.server with
    | .acking _ true _ => some .server
    | _ => none
  | .reportShutdown =>
    match s.server with
    | .shuttingDown [] => some .server
    | _ => none
  | .authEvent event =>
    if s.notifyWorker (featuresFor cfg event.state) then some .auth else none
  | .stopWorker => some .stopper
  | _ => none

end Client

namespace Waking

variable (cfg : Config) (s : Waking)

def step : WakingAct → Option (Waking × List Event)
  | .client x =>
    if (s.cv = .dozing → s.client.locks cfg x = false) ∧ (x = .workerTake → s.cv = .awake) ∧
        ∀ n ∈ x.follows, n ∉ s.notifying then
      match s.client.step cfg x with
      | some (c, e) =>
        some ({ s with
          client := c
          notifying := s.notifying ++ (s.client.notifies cfg x).toList }, e)
      | none => none
    else none
  | .doze =>
    if s.cv = .awake ∧ s.client.worker = .locking ∧ s.client.workerMayProceed = false then
      some ({ s with cv := .dozing }, [])
    else none
  | .block => if s.cv = .dozing then some ({ s with cv := .blocked }, []) else none
  | .wake => if s.cv = .blocked then some ({ s with cv := .awake }, []) else none
  | .notify i =>
    if i < s.notifying.length then
      some ({ s with
        notifying := s.notifying.eraseIdx i
        cv := if s.cv = .blocked then .awake else s.cv }, [])
    else none

end Waking

/-- The client with its condition variable. -/
def waking (cfg : Config) : Machine Waking WakingAct Event where
  init := { client := Client.new cfg }
  step := Waking.step cfg

variable {cfg : Config} {s t : Waking} {x : WakingAct} {h e : List Event}

theorem step_client {y : Act} : (waking cfg).step s (.client y) = some (t, e) ↔
    (s.cv = .dozing → s.client.locks cfg y = false) ∧ (y = .workerTake → s.cv = .awake) ∧
      (∀ n ∈ y.follows, n ∉ s.notifying) ∧ s.client.step cfg y = some (t.client, e) ∧
      t.cv = s.cv ∧ t.notifying = s.notifying ++ (s.client.notifies cfg y).toList := by
  simp only [waking, Waking.step, Option.ite_none_right_eq_some]
  constructor
  · rintro ⟨⟨hlock, htake, hnotify⟩, hst⟩
    split at hst
    · rename_i c k hc
      obtain ⟨rfl, rfl⟩ := Prod.mk.inj (Option.some.inj hst)
      exact ⟨hlock, htake, hnotify, hc, rfl, rfl⟩
    · exact absurd hst (by simp)
  · rintro ⟨hlock, htake, hnotify, hc, hcv, hn⟩
    refine ⟨⟨hlock, htake, hnotify⟩, ?_⟩
    rw [hc, ← hcv, ← hn]

/-- **The condition variable only delays the worker**: these runs are runs of `client`. -/
theorem client_of_reach (r : (waking cfg).Reach s h) : (client cfg).Reach s.client h := by
  have hsim := Machine.Steps.simulate (N := client cfg) (E := fun _ _ => True)
    (f := Waking.client) some ?_ r
  · rwa [List.filterMap_some] at hsim
  intro s h x t e _ _ hst
  rw [List.filterMap_some]
  cases x with
  | client y => exact .single (a := y) trivial (step_client.mp hst).2.2.2.1
  | doze | block | wake | notify i =>
    simp only [waking, Waking.step, Option.ite_none_right_eq_some, Option.some.injEq,
      Prod.mk.injEq] at hst
    obtain ⟨-, rfl, rfl⟩ := hst
    exact .refl

/-! ## What the other threads do to the predicate -/

section Predicate

variable {c c' : Client} {y : Act} {a a' : Sched}

/-- Only an accepted task makes the queue non-empty. -/
theorem Effect.queue (he : Effect cfg a c y c' e a') (hr : Represents a c) : c'.taskQueue ≠ [] →
    c.taskQueue ≠ [] ∨ ∃ t r, c'.server = .acking t true r := by
  intro hq
  cases he with
  | accept h hs hal => exact .inr ⟨_, _, rfl⟩
  | shutdown | streamClosed => exact absurd rfl hq
  | cancel hs ht =>
    refine .inl fun hnil => ?_
    simp [hnil] at hq
  | features hauth hc =>
    refine .inl fun hnil => ?_
    rw [hr.queue, List.map_eq_nil_iff] at hnil
    simp [hnil] at hq
  | take hc hq' hw =>
    refine .inl ?_
    rw [hr.queue, hq']
    simp
  | finish => exact .inl hq
  | _ => exact .inl hq

theorem handleStreamMessage_stopWorker (m : ServerToAgent) (ok : Bool) :
    (c.handleStreamMessage cfg m ok).1.stopWorker = c.stopWorker ∧
      (c.handleStreamMessage cfg m ok).1.worker = c.worker := by
  unfold Client.handleStreamMessage Client.handleStartOp Client.handleCancel Client.handleShutdown
  repeat' split
  all_goals exact ⟨rfl, rfl⟩

theorem stopWorker_of_step (hst : c.step cfg y = some (c', e)) (hw : c.worker = .locking)
    (hy : y ≠ .workerTake) :
    c'.worker = .locking ∧ (y ≠ .stopWorker → c'.stopWorker = c.stopWorker) := by
  have heq : ∀ {q : Client × List Event}, some q = some (c', e) → q = (c', e) := Option.some.inj
  cases y with
  | message m ok =>
    simp only [Client.step, Option.ite_none_right_eq_some] at hst
    have hq := heq hst.2
    obtain ⟨h1, h2⟩ := @handleStreamMessage_stopWorker cfg c m ok
    rw [hq] at h1 h2
    exact ⟨h2.trans hw, fun _ => h1⟩
  | workerTake => exact absurd rfl hy
  | workerCheck | taskSend o | workerFinish | run | workerJoined => simp [Client.step, hw] at hst
  | authEvent event =>
    simp only [Client.step, Option.ite_none_right_eq_some] at hst
    have hq := heq hst.2
    unfold Client.onAuthStateChanged Client.applyFeatureUpdate at hq
    split at hq <;> (obtain ⟨rfl, -⟩ := Prod.mk.inj hq; exact ⟨hw, fun _ => rfl⟩)
  | insertStartOp =>
    simp only [Client.step] at hst
    split at hst
    · have hq := heq hst
      unfold Client.insertStartOp at hq
      repeat' split at hq
      all_goals
        obtain ⟨rfl, -⟩ := Prod.mk.inj hq
        exact ⟨hw, fun _ => rfl⟩
    · exact absurd hst (by simp)
  | reportShutdown =>
    simp only [Client.step] at hst
    split at hst
    · have hq := heq hst
      unfold Client.reportShutdown at hq
      split at hq <;> (obtain ⟨rfl, -⟩ := Prod.mk.inj hq; exact ⟨hw, fun _ => rfl⟩)
    · exact absurd hst (by simp)
  | ackStartOp | reportCancel | reportUnauthorized =>
    simp only [Client.step] at hst
    split at hst
    · obtain ⟨rfl, -⟩ := Prod.mk.inj (heq hst)
      exact ⟨hw, fun _ => rfl⟩
    · exact absurd hst (by simp)
  | streamReady | streamClosed | rehash tasks =>
    simp only [Client.step, Option.ite_none_right_eq_some] at hst
    obtain ⟨rfl, -⟩ := Prod.mk.inj (heq hst.2)
    exact ⟨hw, fun _ => rfl⟩
  | stop | stopWorker =>
    obtain ⟨rfl, -⟩ := Prod.mk.inj (heq hst)
    exact ⟨hw, fun h => by simp at h ⊢⟩

/-- Who does not hold `mu_` leaves the queue alone. -/
theorem taskQueue_of_locks (hst : c.step cfg y = some (c', e)) (hl : c.locks cfg y = false)
    (hw : c.worker = .locking) : c'.taskQueue = c.taskQueue := by
  have heq : ∀ {q : Client × List Event}, some q = some (c', e) → q.1 = c' :=
    fun h => (Prod.mk.inj (Option.some.inj h)).1
  cases y with
  | message m ok =>
    simp only [Client.step, Option.ite_none_right_eq_some] at hst
    rw [← heq hst.2]
    cases ok with
    | false => rfl
    | true =>
      cases m with
      | ping hb | notSet => rfl
      | start op =>
        have h0 : op.opId = 0 := by simpa [Client.locks] using hl
        simp [Client.handleStreamMessage, Client.handleStartOp, h0]
      | cancel opId | shutdown drain => simp [Client.locks] at hl
  | insertStartOp =>
    simp only [Client.step] at hst
    split at hst
    · rename_i t hs
      rw [← heq hst]
      unfold Client.insertStartOp
      split
      · rfl
      · rename_i hv
        simp [Client.locks, hs, hv] at hl
    · exact absurd hst (by simp)
  | streamClosed | authEvent event | workerTake | workerFinish | stopWorker =>
    simp [Client.locks] at hl
  | workerCheck | taskSend o | run | workerJoined => simp [Client.step, hw] at hst
  | reportShutdown =>
    simp only [Client.step] at hst
    split at hst
    · rename_i errors hs
      rw [← heq hst]
      cases errors <;> rfl
    · exact absurd hst (by simp)
  | ackStartOp | reportCancel | reportUnauthorized =>
    simp only [Client.step] at hst
    split at hst
    · rw [← heq hst]
      rfl
    · exact absurd hst (by simp)
  | streamReady | rehash tasks =>
    simp only [Client.step, Option.ite_none_right_eq_some] at hst
    rw [← heq hst.2]
  | stop =>
    rw [← heq hst]

end Predicate

/-! ## Who owes the worker a wake-up -/

/-- The handler of the last `StartOp` is on its way to `notify_all`. -/
def Waking.Owed (s : Waking) : Prop :=
  (∃ t reason, s.client.server = .acking t true reason) ∨ Notifier.server ∈ s.notifying

structure WakeInv (s : Waking) : Prop where
  dozing : s.cv = .dozing →
    s.client.worker = .locking ∧ s.client.taskQueue = [] ∧ s.client.stopWorker = false
  blocked : s.cv = .blocked → s.client.worker = .locking ∧
    (s.client.taskQueue ≠ [] → s.Owed) ∧
    (s.client.stopWorker = true → Notifier.stopper ∈ s.notifying)

theorem WakeInv.awake (hI : WakeInv s) (hw : s.client.worker ≠ .locking) : s.cv = .awake := by
  cases hcv : s.cv with
  | awake => rfl
  | dozing => exact absurd (hI.dozing hcv).1 hw
  | blocked => exact absurd (hI.blocked hcv).1 hw

theorem Effect.acking {c c' : Client} {y : Act} {a a' : Sched} {u : Task} {accepted : Bool}
    {reason : String} (he : Effect cfg a c y c' e a')
    (hs : c.server = .acking u accepted reason) (hy : y ≠ .ackStartOp) :
    c'.server = c.server := by
  cases he with
  | ack h => exact absurd rfl hy
  | pass h | invalid h | lateReject h | accept _ h | cancel h | reportCancel h | shutdown h
  | reportShutdown h | endShutdown h => exact absurd (hs.symm.trans h) (by simp)
  | _ => rfl

theorem wakeInv_client {y : Act} {a : Sched} (hr : Represents a s.client) (hI : WakeInv s)
    (hst : (waking cfg).step s (.client y) = some (t, e)) : WakeInv t := by
  obtain ⟨hlock, htake, -, hc, hcv, hn⟩ := step_client.mp hst
  constructor
  · intro hd
    rw [hcv] at hd
    obtain ⟨hw, hq, hstop⟩ := hI.dozing hd
    have hl := hlock hd
    have hy : y ≠ .workerTake ∧ y ≠ .stopWorker := by
      constructor <;>
      · rintro rfl
        simp [Client.locks] at hl
    obtain ⟨hw', hstop'⟩ := stopWorker_of_step hc hw hy.1
    exact ⟨hw', (taskQueue_of_locks hc hl hw).trans hq, (hstop' hy.2).trans hstop⟩
  · intro hb
    rw [hcv] at hb
    obtain ⟨hw, hq, hstop⟩ := hI.blocked hb
    have hy : y ≠ .workerTake := fun h => absurd (hb.symm.trans (htake h)) (by simp)
    obtain ⟨hw', hstop'⟩ := stopWorker_of_step hc hw hy
    obtain ⟨a', he, -⟩ := step_sim hr hc
    refine ⟨hw', fun hne => ?_, fun hset => ?_⟩
    · rcases he.queue hr hne with hne | howed
      · rcases hq hne with ⟨u, reason, hs⟩ | hmem
        · by_cases hack : y = .ackStartOp
          · subst hack
            right
            simp [hn, Client.notifies, hs]
          · left
            rw [he.acking hs hack]
            exact ⟨u, reason, hs⟩
        · right
          simp [hn, hmem]
      · exact .inl howed
    · by_cases hy' : y = .stopWorker
      · subst hy'
        simp [hn, Client.notifies]
      · rw [hstop' hy'] at hset
        simp [hn, hstop hset]

theorem wakeInv_of_reach (r : (waking cfg).Reach s h) : WakeInv s := by
  have h0 : WakeInv { client := Client.new cfg } := ⟨by simp, by simp⟩
  refine Machine.Run.invariant (I := fun s _ => WakeInv s) h0 ?_ r
  intro s h x t e hr hI _ hst
  cases x with
  | client y =>
    obtain ⟨a, ha⟩ := represents_of_reach (client_of_reach hr)
    exact wakeInv_client ha hI hst
  | doze =>
    obtain ⟨⟨-, hw, hmay⟩, rfl, -⟩ := Machine.guarded_iff.mp hst
    simp only [Client.workerMayProceed, Bool.or_eq_false_iff, decide_eq_false_iff_not,
      not_not] at hmay
    exact ⟨fun _ => ⟨hw, hmay.2, hmay.1.1⟩, by simp⟩
  | block =>
    obtain ⟨hd, rfl, -⟩ := Machine.guarded_iff.mp hst
    obtain ⟨hw, hq, hstop⟩ := hI.dozing hd
    exact ⟨by simp, fun _ => ⟨hw, by simp [hq], by simp [hstop]⟩⟩
  | wake =>
    obtain ⟨-, rfl, -⟩ := Machine.guarded_iff.mp hst
    exact ⟨by simp, by simp⟩
  | notify i =>
    obtain ⟨-, rfl, -⟩ := Machine.guarded_iff.mp hst
    refine ⟨fun hd => hI.dozing ?_, fun hb => ?_⟩
    · dsimp only at hd
      split_ifs at hd
      exact hd
    · dsimp only at hb
      split_ifs at hb with hcv
      exact absurd hb hcv

/-! ## The worker goes on -/

/-- A step of the worker, or of a thread on its way to wake it. -/
def WakingAct.delivers : WakingAct → Bool
  | .client .workerCheck | .client .workerTake | .client (.taskSend _) | .client .workerFinish => true
  | .client .ackStartOp => true
  | .notify _ => true
  | _ => false

/-- How many steps the worker is from taking the next task; `woken`: somebody has to notify it. -/
def WorkerPc.rank (cv : CvPc) (woken : Bool) : WorkerPc → ℕ
  | .running (some _) _ false => 8
  | .running _ _ _ => 7
  | .loopHead => 6
  | .locking =>
    match cv, woken with
    | .awake, _ => 1
    | _, true => 2
    | _, false => 3
  | .notStarted | .exited => 0

theorem WorkerPc.rank_running {cv : CvPc} {b d f : Bool} {p : TaskPtr} :
    7 ≤ (WorkerPc.running p d f).rank cv b := by
  cases p with
  | none => exact Nat.le_refl 7
  | some u => cases f <;> simp [WorkerPc.rank]

def Waking.woken (s : Waking) : Bool := .server ∈ s.notifying || .stopper ∈ s.notifying

/-- How far the worker is from having taken all tasks of the queue. -/
def Waking.toDo (s : Waking) : ℕ :=
  10 * s.client.taskQueue.length + s.client.worker.rank s.cv s.woken

/-- One step on the way: the next task is taken, or nothing is lost. -/
structure Progress (s t : Waking) : Prop where
  lt : t.toDo < s.toDo
  stopWorker : t.client.stopWorker = s.client.stopWorker
  started : t.client.worker ≠ .notStarted
  takes : (t.client.taskQueue = s.client.taskQueue ∧
      (s.client.running = true → s.client.taskQueue ≠ [] →
        t.client.running = true ∧ t.client.worker ≠ .exited)) ∨
    ∃ p, s.client.taskQueue = p :: t.client.taskQueue ∧ t.client.worker = .running p false false

theorem progress_wake (hw : s.client.worker = .locking) (hcv : s.cv = .blocked)
    (hwoken : s.woken = true) :
    ∃ x t e, x.delivers = true ∧ (waking cfg).step s x = some (t, e) ∧ Progress s t := by
  obtain ⟨n, hn⟩ : ∃ n, n ∈ s.notifying := by
    simp only [Waking.woken, Bool.or_eq_true, decide_eq_true_eq] at hwoken
    rcases hwoken with h | h
    · exact ⟨_, h⟩
    · exact ⟨_, h⟩
  obtain ⟨i, hi, -⟩ := List.getElem_of_mem hn
  let t : Waking := { s with notifying := s.notifying.eraseIdx i, cv := .awake }
  have hst : (waking cfg).step s (.notify i) = some (t, []) := by
    simp [waking, Waking.step, hi, hcv, t]
  have hlt : t.toDo < s.toDo := by
    show 10 * _ + s.client.worker.rank .awake _ < 10 * _ + s.client.worker.rank s.cv s.woken
    rw [hw, hcv, hwoken]
    simp [WorkerPc.rank, t]
  exact ⟨.notify i, t, [], rfl, hst, hlt, rfl, by simp [t, hw],
    .inl ⟨rfl, fun hrun _ => ⟨hrun, by simp [t, hw]⟩⟩⟩

/-- In the predicate of `wait`: the queue is not empty, or `stop_worker_` is set. -/
def Client.HasWork (c : Client) : Prop := c.taskQueue ≠ [] ∨ c.stopWorker = true

theorem progress_blocked (hI : WakeInv s) (hcv : s.cv = .blocked) (hwork : s.client.HasWork) :
    ∃ x t e, x.delivers = true ∧ (waking cfg).step s x = some (t, e) ∧ Progress s t := by
  obtain ⟨hw, hq, hstop⟩ := hI.blocked hcv
  by_cases hwoken : s.woken = true
  · exact progress_wake hw hcv hwoken
  simp only [Waking.woken, Bool.or_eq_true, decide_eq_true_eq, not_or] at hwoken
  -- then the handler of the last `StartOp` has still to send the ack
  obtain ⟨u, reason, hs⟩ : ∃ u reason, s.client.server = .acking u true reason := by
    rcases hwork with hne | hset
    · exact (hq hne).resolve_right hwoken.1
    · exact absurd (hstop hset) hwoken.2
  have hack : s.client.step cfg .ackStartOp = some (s.client.ackStartOp u true reason) := by
    simp [Client.step, hs]
  let t : Waking :=
    { s with
      client := (s.client.ackStartOp u true reason).1
      notifying := s.notifying ++ [.server] }
  have hst : (waking cfg).step s (.client .ackStartOp) =
      some (t, (s.client.ackStartOp u true reason).2) := by
    refine step_client.mpr ⟨by simp [hcv], by simp, by simp [Act.follows], hack, rfl, ?_⟩
    simp [t, Client.notifies, hs]
  have hlt : t.toDo < s.toDo := by
    show 10 * _ + s.client.worker.rank s.cv t.woken < 10 * _ + s.client.worker.rank s.cv s.woken
    have ht : t.woken = true := by simp [t, Waking.woken]
    have hf : s.woken = false := by simp [Waking.woken, hwoken]
    rw [hw, hcv, ht, hf]
    simp [WorkerPc.rank, t, Client.ackStartOp]
  exact ⟨.client .ackStartOp, t, _, rfl, hst, hlt, rfl, by simp [t, Client.ackStartOp, hw],
    .inl ⟨rfl, fun hrun _ => ⟨hrun, by simp [t, Client.ackStartOp, hw]⟩⟩⟩

/-- A step of the worker outside `wait` from which it makes progress. -/
theorem progress_worker {y : Act} {c : Client} {k : List Event} (hcv : s.cv = .awake)
    (hy : WakingAct.delivers (.client y) = true) (hst : s.client.step cfg y = some (c, k))
    (hf : y.follows = none) (hn : s.client.notifies cfg y = none)
    (hp : Progress s { s with client := c }) :
    ∃ x t e, x.delivers = true ∧ (waking cfg).step s x = some (t, e) ∧ Progress s t := by
  refine ⟨.client y, { s with client := c }, k, hy, ?_, hp⟩
  exact step_client.mpr ⟨by simp [hcv], fun _ => hcv, by simp [hf], hst, rfl, by simp [hn]⟩

theorem progress_loopHead (hcv : s.cv = .awake) (hw : s.client.worker = .loopHead) :
    ∃ x t e, x.delivers = true ∧ (waking cfg).step s x = some (t, e) ∧ Progress s t := by
  have hst : s.client.step cfg .workerCheck = some s.client.workerCheck := if_pos hw
  refine progress_worker hcv rfl hst rfl rfl ⟨?_, rfl, ?_, .inl ⟨rfl, fun hrun _ => ?_⟩⟩
  · show 10 * _ + WorkerPc.rank s.cv s.woken (if s.client.running then .locking else .exited) <
      10 * _ + s.client.worker.rank s.cv s.woken
    rw [hw, hcv]
    split_ifs <;> simp [WorkerPc.rank]
  · show (if s.client.running then WorkerPc.locking else .exited) ≠ .notStarted
    split_ifs <;> simp
  · exact ⟨hrun, by simp [hrun]⟩

theorem progress_running {p : TaskPtr} {d f : Bool} (hcv : s.cv = .awake)
    (hw : s.client.worker = .running p d f) :
    ∃ x t e, x.delivers = true ∧ (waking cfg).step s x = some (t, e) ∧ Progress s t := by
  by_cases hsend : f = false ∧ ∃ u, p = some u
  · obtain ⟨rfl, u, rfl⟩ := hsend
    have hst : s.client.step cfg (.taskSend (.error "" "")) =
        some (s.client.taskSend u d false (.error "" "")) := by
      simp [Client.step, hw]
    refine progress_worker hcv rfl hst rfl rfl ⟨?_, rfl, by simp,
      .inl ⟨rfl, fun hrun _ => ⟨hrun, by simp⟩⟩⟩
    show 10 * _ + (WorkerPc.running (some u) (d || false) true).rank s.cv s.woken <
      10 * _ + s.client.worker.rank s.cv s.woken
    rw [hw]
    simp [WorkerPc.rank]
  · have hst : s.client.step cfg .workerFinish = some (s.client.workerFinish p) := by
      cases p with
      | none => simp [Client.step, hw]
      | some u =>
        obtain rfl : f = true := by
          by_contra hf
          exact hsend ⟨Bool.eq_false_iff.mpr hf, u, rfl⟩
        simp [Client.step, hw]
    refine progress_worker hcv rfl hst rfl rfl ⟨?_, rfl, by simp,
      .inl ⟨rfl, fun hrun hne => by simp [hne, hrun]⟩⟩
    have h7 := @WorkerPc.rank_running s.cv s.woken d f p
    show 10 * s.client.taskQueue.length + 6 <
      10 * s.client.taskQueue.length + s.client.worker.rank s.cv s.woken
    rw [hw]
    omega

theorem progress_take (hcv : s.cv = .awake) (hw : s.client.worker = .locking)
    (hwork : s.client.HasWork) :
    ∃ x t e, x.delivers = true ∧ (waking cfg).step s x = some (t, e) ∧ Progress s t := by
  have hmay : s.client.workerMayProceed = true := by
    rcases hwork with h | h <;> simp [Client.workerMayProceed, h]
  have hst : s.client.step cfg .workerTake = some s.client.workerTake := if_pos ⟨hw, hmay⟩
  cases hq : s.client.taskQueue with
  | nil =>
    have hstop : s.client.stopWorker = true := hwork.resolve_left (by simp [hq])
    have htake : s.client.workerTake = ({ s.client with worker := .exited }, []) := by
      simp [Client.workerTake, hq, hstop]
    rw [htake] at hst
    refine progress_worker hcv rfl hst rfl rfl ⟨?_, rfl, by simp,
      .inl ⟨rfl, fun _ hne => absurd hq hne⟩⟩
    show 10 * _ + 0 < 10 * _ + s.client.worker.rank s.cv s.woken
    rw [hw, hcv]
    simp [WorkerPc.rank]
  | cons p rest =>
    have htake : s.client.workerTake =
        ({ s.client with taskQueue := rest, currentTask := p, worker := .running p false false },
          (p.toList).map .started) := by
      simp [Client.workerTake, hq]
    rw [htake] at hst
    refine progress_worker hcv rfl hst rfl rfl ⟨?_, rfl, by simp, .inr ⟨p, hq, rfl⟩⟩
    show 10 * rest.length + (WorkerPc.running p false false).rank s.cv s.woken <
      10 * s.client.taskQueue.length + s.client.worker.rank s.cv s.woken
    have h8 : (WorkerPc.running p false false).rank s.cv s.woken ≤ 8 := by
      cases p <;> simp [WorkerPc.rank]
    rw [hq, List.length_cons]
    omega

/-- **The worker is held up only by an empty queue.** -/
theorem exists_progress (hI : WakeInv s) (hw : s.client.worker ≠ .notStarted)
    (hw' : s.client.worker ≠ .exited) (hwork : s.client.HasWork) :
    ∃ x t e, x.delivers = true ∧ (waking cfg).step s x = some (t, e) ∧ Progress s t := by
  cases hpc : s.client.worker with
  | notStarted => exact absurd hpc hw
  | exited => exact absurd hpc hw'
  | loopHead => exact progress_loopHead (hI.awake (by simp [hpc])) hpc
  | running p d f => exact progress_running (hI.awake (by simp [hpc])) hpc
  | locking =>
    cases hcv : s.cv with
    | awake => exact progress_take hcv hpc hwork
    | blocked => exact progress_blocked hI hcv hwork
    | dozing =>
      obtain ⟨-, hq, hstop⟩ := hI.dozing hcv
      rcases hwork with h | h
      · exact absurd hq h
      · exact absurd (hstop.symm.trans h) (by simp)

variable {h₀ : List Event} {p : TaskPtr} {rest : List TaskPtr}

/-- **No wake-up for a task is lost.**  As long as the client runs, the worker can start the first
task of the queue, with the help of nobody but those on their way to wake it. -/
theorem queued_task_starts (r : (waking cfg).Reach s h) (hq : s.client.taskQueue = p :: rest)
    (hrun : s.client.running = true) (hw : s.client.worker ≠ .notStarted)
    (hw' : s.client.worker ≠ .exited) :
    ∃ t e, (waking cfg).Steps (fun _ x => x.delivers = true) s t e ∧
      t.client.worker = .running p false false ∧ t.client.taskQueue = rest := by
  let G : Waking → Prop := fun s =>
    s.client.worker = .running p false false ∧ s.client.taskQueue = rest
  let P : Waking → Prop := fun s => (∃ h, (waking cfg).Reach s h) ∧
    (G s ∨ s.client.taskQueue = p :: rest ∧ s.client.running = true ∧
      s.client.worker ≠ .notStarted ∧ s.client.worker ≠ .exited)
  refine Machine.exists_steps_of_variant (P := P) (G := G) Waking.toDo ?_
    ⟨⟨h, r⟩, .inr ⟨hq, hrun, hw, hw'⟩⟩
  rintro s ⟨⟨h, r⟩, hs⟩ hG
  obtain ⟨hq, hrun, hw, hw'⟩ := hs.resolve_left hG
  have hne : s.client.taskQueue ≠ [] := by simp [hq]
  obtain ⟨x, t, e, hx, hst, hp⟩ := exists_progress (wakeInv_of_reach r) hw hw' (.inl hne)
  refine ⟨x, t, e, hx, hst, ⟨⟨_, r.tail trivial hst⟩, ?_⟩, hp.lt⟩
  rcases hp.takes with ⟨hsame, hkeep⟩ | ⟨p', htake, hpc⟩
  · obtain ⟨hrun', hpc⟩ := hkeep hrun hne
    exact .inr ⟨hsame.trans hq, hrun', hp.started, hpc⟩
  · rw [hq] at htake
    obtain ⟨rfl, htq⟩ := List.cons.inj htake
    exact .inl ⟨hpc, htq.symm⟩

/-- A `StartOp` is accepted while the worker is blocked. -/
def startWhileBlocked : List WakingAct :=
  [.client .run, .client .workerCheck, .doze, .block,
    .client (.message (.start ⟨1, some (.pcap {})⟩) true), .client .insertStartOp]

theorem queued_task_starts_startWhileBlocked : ∃ s h t e,
    (waking demoConfig).Reach s h ∧ s.cv = .blocked ∧
      (waking demoConfig).Steps (fun _ x => x.delivers = true) s t e ∧
      t.client.worker = .running (some ⟨0, 1, .pcap {}⟩) false false := by
  obtain ⟨s, h, r, hcv, hq, hrun, hw⟩ := Machine.exists_run_schedule (waking demoConfig)
    (fun _ _ => True) startWhileBlocked
    (P := fun q => q.1.cv = .blocked ∧ q.1.client.taskQueue = [some ⟨0, 1, .pcap {}⟩] ∧
      q.1.client.running = true ∧ q.1.client.worker = .locking) (by decide +kernel)
  obtain ⟨t, e, hsteps, ht, -⟩ := queued_task_starts r hq hrun
    (by simp [show s.client.worker = _ from hw]) (by simp [show s.client.worker = _ from hw])
  exact ⟨s, h, t, e, r, hcv, hsteps, ht⟩

/-! ## Once `running_` is unset -/

def Event.isStarted : Event → Bool
  | .started _ => true
  | _ => false

/-- The number of tasks started. -/
def taskStarts (h : List Event) : ℕ := h.countP Event.isStarted

theorem taskStarts_append (h k : List Event) : taskStarts (h ++ k) = taskStarts h + taskStarts k :=
  List.countP_append

/-- How many tasks the worker may still start. -/
def Client.startBudget (c : Client) : ℕ := if c.worker = .locking then 1 else 0

theorem taskStarts_eq_zero (hno : ∀ u, .started u ∉ e) : taskStarts e = 0 := by
  refine List.countP_eq_zero.mpr fun v hv => ?_
  cases v with
  | started u => exact absurd hv (hno u)
  | _ => simp [Event.isStarted]

theorem Effect.budget {c c' : Client} {y : Act} {a a' : Sched} (he : Effect cfg a c y c' e a')
    (hrun : c.running = false) (hw : c.worker ≠ .notStarted)
    (hy : y ≠ .workerCheck ∧ y ≠ .workerTake) :
    (c'.running = false ∧ c'.worker ≠ .notStarted) ∧
      taskStarts e + c'.startBudget ≤ c.startBudget := by
  have hsame : c'.running = false → c'.worker = c.worker → (∀ u, .started u ∉ e) →
      (c'.running = false ∧ c'.worker ≠ .notStarted) ∧
        taskStarts e + c'.startBudget ≤ c.startBudget := by
    intro hr hpc hno
    refine ⟨⟨hr, by rwa [hpc]⟩, ?_⟩
    rw [taskStarts_eq_zero hno, Client.startBudget, Client.startBudget, hpc]
    omega
  cases he with
  | run h => exact absurd h hw
  | idleWorker hx => exact absurd hx (by simp [hy])
  | take hc hq h => exact absurd rfl hy.2
  | stop | endShutdown h => exact hsame rfl rfl (by simp)
  | send h hf =>
    refine ⟨⟨hrun, by simp⟩, ?_⟩
    rw [taskStarts_eq_zero (by simp)]
    simp [Client.startBudget]
  | finish h =>
    refine ⟨⟨?_, by simp⟩, ?_⟩
    · simp [hrun]
    · rw [taskStarts_eq_zero (by simp)]
      simp [Client.startBudget]
  | _ => exact hsame hrun rfl (by simp [sendErrorFor])

theorem budget_step {c c' : Client} {y : Act} {a : Sched} (hr : Represents a c)
    (hrun : c.running = false) (hw : c.worker ≠ .notStarted)
    (hst : c.step cfg y = some (c', e)) :
    (c'.running = false ∧ c'.worker ≠ .notStarted) ∧
      taskStarts e + c'.startBudget ≤ c.startBudget := by
  by_cases hcheck : y = .workerCheck
  · subst hcheck
    simp only [Client.step, Option.ite_none_right_eq_some, Option.some.injEq,
      Client.workerCheck, Prod.mk.injEq, hrun] at hst
    obtain ⟨-, rfl, rfl⟩ := hst
    exact ⟨⟨rfl, by simp⟩, by simp [Client.startBudget, taskStarts]⟩
  by_cases htake : y = .workerTake
  · subst htake
    simp only [Client.step, Option.ite_none_right_eq_some, Option.some.injEq] at hst
    obtain ⟨⟨hpc, -⟩, hst⟩ := hst
    cases hq : c.taskQueue with
    | nil =>
      simp only [Client.workerTake, hq, hrun, Bool.not_false, Bool.or_true, if_true,
        Prod.mk.injEq] at hst
      obtain ⟨rfl, rfl⟩ := hst
      exact ⟨⟨rfl, by simp⟩, by simp [Client.startBudget, taskStarts]⟩
    | cons p rest =>
      simp only [Client.workerTake, hq, Prod.mk.injEq] at hst
      obtain ⟨rfl, rfl⟩ := hst
      refine ⟨⟨hrun, by simp⟩, ?_⟩
      cases p <;> simp [Client.startBudget, hpc, taskStarts, Event.isStarted]
  obtain ⟨a', he, -⟩ := step_sim hr hst
  exact he.budget hrun hw ⟨hcheck, htake⟩

theorem waking_budget_step (hs : (∃ h, (waking cfg).Reach s h) ∧ s.client.running = false ∧
      s.client.worker ≠ .notStarted) (hst : (waking cfg).step s x = some (t, e)) :
    ((∃ h, (waking cfg).Reach t h) ∧ t.client.running = false ∧ t.client.worker ≠ .notStarted) ∧
      taskStarts e + t.client.startBudget ≤ s.client.startBudget := by
  obtain ⟨⟨h, r⟩, hrun, hw⟩ := hs
  have ht := r.tail trivial hst
  cases x with
  | client y =>
    obtain ⟨a, ha⟩ := represents_of_reach (client_of_reach r)
    obtain ⟨hkeep, hle⟩ := budget_step ha hrun hw (step_client.mp hst).2.2.2.1
    exact ⟨⟨⟨_, ht⟩, hkeep⟩, hle⟩
  | doze | block | wake | notify i =>
    obtain ⟨-, rfl, rfl⟩ := Machine.guarded_iff.mp hst
    exact ⟨⟨⟨_, ht⟩, hrun, hw⟩, by simp [taskStarts]⟩

/-- With `stop_worker_` set, the worker can work off the queue and leave its loop. -/
theorem exits_of_stopWorker (r : (waking cfg).Reach s h) (hstop : s.client.stopWorker = true)
    (hw : s.client.worker ≠ .notStarted) :
    ∃ t e, (waking cfg).Steps (fun _ x => x.delivers = true) s t e ∧
      t.client.worker = .exited := by
  refine Machine.exists_steps_of_variant (P := fun s => (∃ h, (waking cfg).Reach s h) ∧
    s.client.stopWorker = true ∧ s.client.worker ≠ .notStarted) Waking.toDo ?_ ⟨⟨h, r⟩, hstop, hw⟩
  rintro s ⟨⟨h, r⟩, hstop, hw⟩ hG
  obtain ⟨x, t, e, hx, hst, hp⟩ := exists_progress (wakeInv_of_reach r) hw hG (.inr hstop)
  exact ⟨x, t, e, hx, hst,
    ⟨⟨_, r.tail trivial hst⟩, hp.stopWorker.trans hstop, hp.started⟩, hp.lt⟩

/-- **The worker stops.**  Once `running_` is unset, the worker starts one task more at most,
whatever happens; and when `ShutdownWorker` has set `stop_worker_`, it can leave its loop, even if
it was told of `running_` before it was blocked. -/
theorem worker_stops (r : (waking cfg).Reach s h₀) (hrun : s.client.running = false)
    (hw : s.client.worker ≠ .notStarted) (r' : (waking cfg).Steps (fun _ _ => True) s t h) :
    taskStarts h ≤ 1 ∧ t.client.running = false ∧
    (t.client.stopWorker = true → ∃ u k,
      (waking cfg).Steps (fun _ x => x.delivers = true) t u k ∧ u.client.worker = .exited) := by
  obtain ⟨⟨⟨k, rt⟩, hrun', hw'⟩, hle⟩ := r'.spends
    (P := fun s => (∃ h, (waking cfg).Reach s h) ∧ s.client.running = false ∧
      s.client.worker ≠ .notStarted)
    (φ := fun s => s.client.startBudget) rfl taskStarts_append
    (fun hs _ hst => waking_budget_step hs hst) ⟨⟨h₀, r⟩, hrun, hw⟩
  refine ⟨?_, hrun', fun hstop => exits_of_stopWorker rt hstop hw'⟩
  have hone : s.client.startBudget ≤ 1 := by
    unfold Client.startBudget
    split_ifs <;> omega
  omega

/-- `running_` is unset before the worker is blocked, and nobody has to notify it. -/
def unsetWhileDozing : List WakingAct :=
  [.client .run, .client .workerCheck, .doze, .client .stop, .block]

theorem worker_stops_unsetWhileDozing : ∃ s h t u k, (waking demoConfig).Reach s h ∧
    s.cv = .blocked ∧ s.notifying = [] ∧
    (waking demoConfig).step s (.client .stopWorker) = some (t, []) ∧
    (waking demoConfig).Steps (fun _ x => x.delivers = true) t u k ∧
    u.client.worker = .exited := by
  obtain ⟨s, h, r, hcv, hn, hrun, hw⟩ := Machine.exists_run_schedule (waking demoConfig)
    (fun _ _ => True) unsetWhileDozing
    (P := fun q => q.1.cv = .blocked ∧ q.1.notifying = [] ∧ q.1.client.running = false ∧
      q.1.client.worker = .locking) (by decide +kernel)
  let t : Waking := { s with client := { s.client with stopWorker := true }, notifying := [.stopper] }
  have hst : (waking demoConfig).step s (.client .stopWorker) = some (t, []) := by
    refine step_client.mpr ⟨by simp [show s.cv = _ from hcv], by simp, by simp [Act.follows], rfl,
      rfl, ?_⟩
    simp [t, show s.notifying = _ from hn, Client.notifies]
  obtain ⟨-, -, hexit⟩ := worker_stops r hrun (by simp [show s.client.worker = _ from hw])
    (.single trivial hst)
  obtain ⟨u, k, hsteps, hu⟩ := hexit rfl
  exact ⟨s, h, t, u, k, r, hcv, hn, hst, hsteps, hu⟩

end Zurg.Control
