import Zurg.Control.Features

/-!
# Zurg.Control.Drain — when a drained client is a stopped client

In drain mode `running_` is reset in one place only: the region in which the worker finishes a task
and finds the queue empty.  `LeavesWork` says, of the state before a step, that the step does not
make a running client in drain mode workless in any other way; a step keeps "a drained client is
stopped" exactly when it satisfies `LeavesWork`.
-/

namespace Zurg.Control

open Proto Lib

variable {cfg : Config} {s : Client} {h : List Event}

/-! ## The last shutdown -/

def Event.shutdownFlag : Event → Option Bool
  | .shutdown drain => some drain
  | _ => none

/-- The flag of the last `Shutdown` handled. -/
def lastShutdown (h : List Event) : Option Bool := (h.filterMap Event.shutdownFlag).getLast?

theorem lastShutdown_append (h e : List Event) :
    lastShutdown (h ++ e) = (lastShutdown e).or (lastShutdown h) := by
  rw [lastShutdown, List.filterMap_append, List.getLast?_append]
  rfl

theorem lastShutdown_of_not_mem {e : List Event} (he : ∀ drain, .shutdown drain ∉ e) :
    lastShutdown e = none := by
  have : e.filterMap Event.shutdownFlag = [] := by
    refine List.filterMap_eq_nil_iff.mpr fun v hv => ?_
    cases v with
    | shutdown drain => exact absurd hv (he drain)
    | _ => rfl
  rw [lastShutdown, this]
  rfl

theorem lastShutdown_step {a a' : Sched} {x : Act} {s' : Client} {e : List Event}
    (he : Effect cfg a s x s' e a') :
    s'.drainMode = (lastShutdown e).getD s.drainMode := by
  cases he with
  | drain => rfl
  | @shutdown tasks cancelled again =>
    have := lastShutdown_append [.shutdown false] (a.queue.map (.removed · .shutdown))
    rw [lastShutdown_of_not_mem (e := a.queue.map _) (by simp)] at this
    rw [← List.singleton_append, this]
    rfl
  | _ => rw [lastShutdown_of_not_mem (by simp [sendErrorFor])]; rfl

/-- `drain_mode_` is the flag of the last `Shutdown`. -/
theorem drainMode_of_reach (r : (client cfg).Reach s h) :
    s.drainMode = (lastShutdown h).getD false := by
  refine invariant_of_effects (I := fun s h => s.drainMode = (lastShutdown h).getD false) rfl ?_ r
  intro a s h x s' e a' _ hI _ he
  rw [lastShutdown_step he, hI, lastShutdown_append]
  cases lastShutdown e <;> rfl

/-! ## Steps that leave work -/

/-- Draining, and nothing is queued or running. -/
def Client.Drained (s : Client) : Prop :=
  s.drainMode = true ∧ s.taskQueue = [] ∧ s.currentTask = none

/-- A drained client is a stopped client. -/
def Client.DrainedStopped (s : Client) : Prop := s.Drained → s.running = false

/-- In drain mode, with `running_` set, and with no task in work: only queued tasks keep the client
from being drained. -/
def Client.Draining (s : Client) : Prop :=
  s.drainMode = true ∧ s.running = true ∧ s.currentTask = none

instance (s : Client) : Decidable s.Draining := inferInstanceAs (Decidable (_ ∧ _))

/-- `Shutdown(drain=true)` finds a task queued or running (or the client stopped), and a cancel does
not name the only queued task that keeps the client from being drained. -/
def LeavesWorkOn (s : Client) : ServerToAgent → Prop
  | .shutdown drain =>
      drain = true → s.running = true → s.taskQueue ≠ [] ∨ s.currentTask ≠ none
  | .cancel opId => s.Draining → ∃ p ∈ s.taskQueue, ∀ t ∈ p, t.opId ≠ opId
  | _ => True

/-- The messages read are such; and while only queued tasks keep the client from being drained, no
stream close or authorization event takes all of them away. -/
def LeavesWork (cfg : Config) (s : Client) : Act → Prop
  | .message m ok => ok = true → LeavesWorkOn s m
  | .streamClosed => ¬ s.Draining
  | .authEvent event =>
      s.Draining → ∃ p ∈ s.taskQueue, ∀ t ∈ p,
        isTaskAllowed (Client.featuresFor cfg event.state) t.kind = true
  | _ => True

instance (s : Client) (m : ServerToAgent) : Decidable (LeavesWorkOn s m) := by
  unfold LeavesWorkOn
  split <;> infer_instance

instance (cfg : Config) (s : Client) (x : Act) : Decidable (LeavesWork cfg s x) := by
  unfold LeavesWork
  split <;> infer_instance

theorem leavesWork_of_ignored {x : Act} (hx : x.ignored) : LeavesWork cfg s x := by
  cases x with
  | message m ok =>
    rintro rfl
    obtain rfl : m = .notSet := by simpa [Act.ignored] using hx
    trivial
  | _ => simp [Act.ignored] at hx

theorem leavesWork_of_replies {x : Act} (hx : x.replies) : LeavesWork cfg s x := by
  cases x with
  | message m ok =>
    cases m with
    | start | ping => exact fun _ => trivial
    | _ => simp [Act.replies] at hx
  | streamReady => trivial
  | _ => simp [Act.replies] at hx

/-- The client cannot be draining before `Run`. -/
def StartsUndrained (s : Client) (_ : List Event) : Prop :=
  s.worker = .notStarted → s.drainMode = false

theorem startsUndrained_of_reach (r : (client cfg).Reach s h) : StartsUndrained s h := by
  refine invariant_of_effects (I := StartsUndrained) (fun _ => rfl) ?_ r
  intro a s h x s' e a' _ hI _ he
  cases he with
  | drain hw => exact fun h => absurd h hw
  | idleWorker hx hc hw hr hn => exact fun h => absurd h hn
  | shutdown => exact fun _ => rfl
  | run | take | send | finish => exact nofun
  | _ => exact hI

theorem Represents.queue_eq_nil {a : Sched} (r : Represents a s) :
    s.taskQueue = [] ↔ a.queue = [] := by
  rw [r.queue, List.map_eq_nil_iff]

theorem exists_mem_iff {q : List Task} : (∃ t, t ∈ q) ↔ q ≠ [] :=
  ⟨fun ⟨_, ht⟩ => List.ne_nil_of_mem ht, List.exists_mem_of_ne_nil q⟩

/-- A step that only changes the queue. -/
theorem drainedStopped_iff_of_queue {s' : Client} {q : List Task} (hm : s'.drainMode = s.drainMode)
    (hr : s'.running = s.running) (hc : s'.currentTask = s.currentTask)
    (hq : s'.taskQueue = q.map some) : s'.DrainedStopped ↔ (s.Draining → ∃ t, t ∈ q) := by
  rw [exists_mem_iff]
  simp only [Client.DrainedStopped, Client.Drained, Client.Draining, hm, hr, hc, hq,
    List.map_eq_nil_iff]
  cases s.running <;> grind

theorem Client.DrainedStopped.queued (hI : s.DrainedStopped) (hd : s.Draining) : s.taskQueue ≠ [] :=
  fun hq => by simpa [hd.2.1] using hI ⟨hd.1, hq, hd.2.2⟩

/-- **One step** keeps "a drained client is stopped" exactly when it leaves work. -/
theorem drainedStopped_step_iff {a a' : Sched} {x : Act} {s' : Client} {e : List Event}
    (r : Represents a s) (hF : FeaturesInv cfg s h) (hU : StartsUndrained s h)
    (hI : s.DrainedStopped) (he : Effect cfg a s x s' e a') :
    s'.DrainedStopped ↔ LeavesWork cfg s x := by
  have hmem : s.Draining → ∃ t, t ∈ a.queue := by
    intro hd
    rw [exists_mem_iff, ne_eq, ← r.queue_eq_nil]
    exact Client.DrainedStopped.queued hI hd
  have hsome : ∀ {P : Task → Prop}, (∃ p ∈ s.taskQueue, ∀ t ∈ p, P t) ↔ ∃ t ∈ a.queue, P t := by
    intro P
    simp [r.queue]
  cases he with
  | skip hx => exact iff_of_true hI (leavesWork_of_ignored hx)
  | @unknown opId hno =>
    refine iff_of_true hI fun _ hd => hsome.mpr ?_
    obtain ⟨t, ht⟩ := hmem hd
    exact ⟨t, ht, hno t (SerialQueue.mem_members.mpr (.inr ht))⟩
  | @sameFeatures event hsame =>
    refine iff_of_true hI fun hd => hsome.mpr ?_
    obtain ⟨t, ht⟩ := hmem hd
    exact ⟨t, ht, hsame ▸ hF.queued t (r.queue ▸ List.mem_map_of_mem ht)⟩
  | reply hx => exact iff_of_true hI (leavesWork_of_replies hx)
  | run hw => exact iff_of_true (fun hd => absurd hd.1 (by simp [hU hw])) trivial
  | stop => exact iff_of_true (fun _ => rfl) trivial
  | stopWorker hx => exact iff_of_true hI (by rcases hx with rfl | rfl <;> trivial)
  | idleWorker hx => exact iff_of_true hI (by rcases hx with rfl | rfl <;> trivial)
  | accept => exact iff_of_true (fun hd => by simp [Client.Drained] at hd) trivial
  | cancelCurrent hc =>
    exact iff_of_true hI fun _ hd => by simp [hd.2.2, r.current.symm] at hc
  | @cancel t tasks hs ht =>
    have hq : s.taskQueue.erase (some t) = (a.queue.erase t).map some := by
      rw [r.queue]
      exact (List.map_erase (fun _ _ => Option.some.inj) _).symm
    refine Iff.trans (by exact drainedStopped_iff_of_queue (s := s) rfl rfl rfl hq) ?_
    simp only [LeavesWork, LeavesWorkOn, hsome, forall_const]
    have hkey : ∀ u ∈ a.queue, u ≠ t ↔ u.opId ≠ t.opId := fun u hu =>
      not_congr ⟨fun h => h ▸ rfl, SerialQueue.eq_of_key (SerialQueue.mem_members.mpr (.inr hu))
        (SerialQueue.mem_members.mpr (.inr ht))⟩
    simp only [a.queue_nodup.mem_erase_iff]
    grind
  | drain hw =>
    simp only [Client.DrainedStopped, Client.Drained, LeavesWork, LeavesWorkOn, forall_const]
    cases s.running <;> simp
    grind
  | shutdown => exact iff_of_true nofun fun _ hd => nomatch hd
  | streamClosed =>
    refine Iff.trans (by exact drainedStopped_iff_of_queue (s := s) (q := []) rfl rfl rfl rfl) ?_
    simp [LeavesWork]
  | @features event =>
    refine Iff.trans (by exact drainedStopped_iff_of_queue (s := s) rfl rfl rfl rfl) ?_
    simp only [LeavesWork, hsome, List.mem_filter]
  | endShutdown => exact iff_of_true (fun _ => rfl) trivial
  | take => exact iff_of_true (fun hd => nomatch hd.2.2) trivial
  | finish hw =>
    refine iff_of_true (fun hd => ?_) trivial
    obtain ⟨hm, hq, -⟩ := hd
    simp only at hm hq
    simp [hm, hq]
  | pass => exact iff_of_true hI fun _ => trivial
  | _ => exact iff_of_true hI trivial

/-- What the steps of a run that leaves work keep. -/
theorem drainedStopped_of_run (r : (client cfg).Run (LeavesWork cfg) s h) : s.DrainedStopped := by
  refine Machine.Run.invariant (I := fun s _ => s.DrainedStopped) nofun ?_ r
  intro s h x s' e hr hI hC hst
  obtain ⟨a, ha⟩ := represents_of_reach hr.reach
  obtain ⟨a', he, -⟩ := step_sim ha hst
  exact (drainedStopped_step_iff ha (featuresInv_of_reach hr.reach)
    (startsUndrained_of_reach hr.reach) hI he).mpr hC

/-- **A drained client is a stopped client** in every state of a run whose steps leave work, and a
further step keeps it so exactly when it leaves work as well. -/
theorem drained_client_is_stopped (r : (client cfg).Run (LeavesWork cfg) s h) :
    (lastShutdown h = some true → s.taskQueue = [] → s.currentTask = none → s.running = false) ∧
    ∀ x s' e, (client cfg).step s x = some (s', e) →
      ((lastShutdown (h ++ e) = some true → s'.taskQueue = [] → s'.currentTask = none →
        s'.running = false) ↔ LeavesWork cfg s x) := by
  have hflag : ∀ {s h}, (client cfg).Reach s h → ((lastShutdown h = some true →
      s.taskQueue = [] → s.currentTask = none → s.running = false) ↔ s.DrainedStopped) := by
    intro s h hr
    rw [Client.DrainedStopped, Client.Drained, drainMode_of_reach hr]
    cases lastShutdown h with
    | none => simp
    | some d => simp
  have hI := drainedStopped_of_run r
  refine ⟨(hflag r.reach).mpr hI, fun x s' e hst => ?_⟩
  rw [hflag (r.reach.tail trivial hst)]
  obtain ⟨a, ha⟩ := represents_of_reach r.reach
  obtain ⟨a', he, -⟩ := step_sim ha hst
  exact drainedStopped_step_iff ha (featuresInv_of_reach r.reach)
    (startsUndrained_of_reach r.reach) hI he

/-- `Shutdown(drain=true)` comes while an operation runs, which then finishes. -/
def drainWhileRunning : List Act :=
  [.run, .message (.start ⟨1, some (.pcap {})⟩) true, .insertStartOp, .ackStartOp, .workerCheck,
    .workerTake, .message (.shutdown true) true, .taskSend (.eofPcap {}), .workerFinish]

theorem drained_client_is_stopped_drainWhileRunning : ∃ s h,
    (client demoConfig).Run (LeavesWork demoConfig) s h ∧ lastShutdown h = some true ∧
      s.running = false :=
  have r := Machine.run_schedule (client demoConfig) (LeavesWork demoConfig) drainWhileRunning rfl
  ⟨_, _, r, by decide, (drained_client_is_stopped r).1 (by decide) (by decide) (by decide)⟩

/-- A client drained while idle goes on for ever. -/
theorem idle_drain_never_stops : ¬ ∀ cfg s h, (client cfg).Reach s h →
    lastShutdown h = some true → s.taskQueue = [] → s.currentTask = none → s.running = false :=
  fun hall =>
    have r := Machine.run_schedule (client demoConfig) (fun _ _ => True)
      [.run, .message (.shutdown true) true] rfl
    absurd (hall _ _ _ r (by decide) (by decide) (by decide)) (by decide)

end Zurg.Control
