import Zurg.Lib.SerialQueue
import Zurg.Control.Schedule

/-!
# Zurg.Control.TaskTable — the three task containers represent one serial queue

`task_queue_`, `tasks_` and `current_task_` are one `SerialQueue` of tasks keyed by `op_id`
(`Represents`): the table is redundant.  Under this representation `Effect` says once what each
step of the client does, to the state, to the events and to the queue, and `step_sim` proves it
of the code.  Everything later about the client is derived from `Effect`; the handlers are not
unfolded again.
-/

namespace Zurg.Control

open Proto Lib

/-- The abstract scheduler: tasks waiting and the task in work, with unique `op_id`s. -/
abbrev Sched := SerialQueue Task OpId Task.opId

/-- The entry of `tasks_` for a task. -/
def entry (t : Task) : OpId × TaskPtr := (t.opId, some t)

/-- The worker is inside `RunTask` exactly for the task in work. -/
def WorkerPc.Runs : WorkerPc → Option Task → Prop
  | .running p _ _, c => p = c ∧ c ≠ none
  | _, c => c = none

/-- The containers of `s` hold the queue `a`. -/
structure Represents (a : Sched) (s : Client) : Prop where
  queue : s.taskQueue = a.queue.map some
  current : s.currentTask = a.current
  table : ∃ L : List Task, L.Perm a.members ∧ s.tasks = L.map entry
  worker : s.worker.Runs a.current
  nonzero : ∀ t ∈ a.members, t.opId ≠ 0
  /-- The task `HandleStartOp` is about to insert is still new. -/
  validating : ∀ t, s.server = .validating t → t.opId ≠ 0 ∧ t.opId ∉ a.members.map Task.opId

/-! ## The hash table under the representation -/

section Table

variable {a : Sched} {L : List Task}

theorem findKey_entries (opId : OpId) (L : List Task) :
    findKey opId (L.map entry) = (L.find? (fun t => t.opId = opId)).map some := by
  simp only [findKey, List.find?_map, Option.map_map]
  rfl

theorem any_key_entries (opId : OpId) (L : List Task) :
    (L.map entry).any (fun e => e.1 = opId) = true ↔ opId ∈ L.map Task.opId := by
  rw [List.any_eq_true]
  constructor
  · rintro ⟨e, he, hk⟩
    obtain ⟨t, ht, rfl⟩ := List.mem_map.mp he
    exact List.mem_map.mpr ⟨t, ht, of_decide_eq_true hk⟩
  · intro h
    obtain ⟨t, ht, hk⟩ := List.mem_map.mp h
    exact ⟨entry t, List.mem_map_of_mem ht, decide_eq_true hk⟩

theorem eraseKey_entries (opId : OpId) (L : List Task) :
    eraseKey opId (L.map entry) = (L.filter (fun t => t.opId ≠ opId)).map entry := by
  simp only [eraseKey, List.filter_map]
  rfl

/-- The sweep of a table without null entries, in closed form. -/
theorem sweepTasks_entries (keep cancel : Task → Bool) (L : List Task) :
    sweepTasks keep cancel (L.map entry) =
      { kept := (L.filter keep).map entry
        cancelled := L.filter cancel
        reported := L.filter (fun t => !keep t) } := by
  induction L with
  | nil => rfl
  | cons t L ih =>
    simp only [List.map_cons, entry, sweepTasks] at ih ⊢
    rw [ih]
    by_cases hk : keep t <;> by_cases hc : cancel t <;> simp [hk, hc, entry]

theorem purgeQueue_entries (allowed : Task → Bool) (q L : List Task) :
    Client.purgeQueue allowed (q.map some) (L.map entry) =
      ((q.filter allowed).map some,
        (L.filter (fun t => ∀ u ∈ q, allowed u = false → t.opId ≠ u.opId)).map entry,
        q.filter (fun t => !allowed t)) := by
  induction q generalizing L with
  | nil => simp [Client.purgeQueue]
  | cons u q ih =>
    by_cases hu : allowed u
    · simp [Client.purgeQueue, hu, ih]
    · simp only [List.map_cons, Client.purgeQueue, hu, eraseKey_entries, ih, List.filter_filter]
      simp [hu, Bool.and_comm]

/-- The tasks of a permuted table that are not the one in work are the waiting ones. -/
theorem filter_not_current {c : TaskPtr} (hc : c = a.current) (hL : L.Perm a.members) :
    (L.filter (fun t => !decide (c = some t))).Perm a.queue := by
  subst hc
  refine (hL.filter _).trans (List.Perm.of_eq ?_)
  have hq : a.queue.filter (fun t => !decide (a.current = some t)) = a.queue := by
    refine List.filter_eq_self.mpr fun t ht => ?_
    have : a.current ≠ some t := fun h => SerialQueue.current_not_mem_queue h ht
    simp [this]
  rw [SerialQueue.members, List.filter_append, hq]
  cases a.current <;> simp

theorem filter_current {c : TaskPtr} (hc : c = a.current) (hL : L.Perm a.members) :
    (L.filter (fun t => decide (c = some t))).Perm a.current.toList := by
  subst hc
  refine (hL.filter _).trans (List.Perm.of_eq ?_)
  have hq : a.queue.filter (fun t => decide (a.current = some t)) = [] := by
    refine List.filter_eq_nil_iff.mpr fun t ht => ?_
    have : a.current ≠ some t := fun h => SerialQueue.current_not_mem_queue h ht
    simp [this]
  rw [SerialQueue.members, List.filter_append, hq]
  cases a.current <;> simp

/-- Erasing the key of the task in work leaves the waiting ones. -/
theorem filter_ne_current {c : Task} (hL : L.Perm a.members) (hc : a.current = some c) :
    (L.filter (fun t => t.opId ≠ c.opId)).Perm a.queue := by
  refine (hL.filter _).trans (List.Perm.of_eq ?_)
  have hn := a.nodup
  rw [hc, Option.toList_some, List.singleton_append, List.map_cons, List.nodup_cons] at hn
  have hq : a.queue.filter (fun t => t.opId ≠ c.opId) = a.queue := by
    refine List.filter_eq_self.mpr fun t ht => ?_
    have : t.opId ≠ c.opId := fun h => hn.1 (h ▸ List.mem_map_of_mem ht)
    simp [this]
  rw [SerialQueue.members, hc, Option.toList_some, List.singleton_append,
    List.filter_cons_of_neg (by simp), hq]

/-- The table `purgeQueue` leaves is that of the tasks in work or still allowed. -/
theorem filter_purged (allowed : Task → Bool) (hL : L.Perm a.members) :
    (L.filter (fun t => ∀ u ∈ a.queue, allowed u = false → t.opId ≠ u.opId)).Perm
      (a.retain allowed).members := by
  refine (hL.filter _).trans (List.Perm.of_eq ?_)
  have hkey : ∀ t ∈ a.members, ∀ u ∈ a.queue, t.opId = u.opId → t = u := fun t ht u hu h =>
    SerialQueue.eq_of_key ht (SerialQueue.mem_members.mpr (.inr hu)) h
  have hq : a.queue.filter (fun t => ∀ u ∈ a.queue, allowed u = false → t.opId ≠ u.opId) =
      a.queue.filter allowed := by
    refine List.filter_congr fun t ht => ?_
    by_cases hat : allowed t
    · rw [hat, decide_eq_true_eq]
      intro u hu hau h
      have := hkey t (SerialQueue.mem_members.mpr (.inr ht)) u hu h
      rw [← this, hat] at hau
      exact absurd hau (by simp)
    · have hat' : allowed t = false := by simpa using hat
      simp only [hat', decide_eq_false_iff_not]
      exact fun h => h t ht hat' rfl
  have hc : a.current.toList.filter (fun t => ∀ u ∈ a.queue, allowed u = false → t.opId ≠ u.opId) =
      a.current.toList := by
    refine List.filter_eq_self.mpr fun t ht => ?_
    have htc : a.current = some t := by simpa using ht
    rw [decide_eq_true_eq]
    intro u hu _ h
    have := hkey t (SerialQueue.mem_members.mpr (.inl htc)) u hu h
    exact SerialQueue.current_not_mem_queue htc (this ▸ hu)
  rw [SerialQueue.members, List.filter_append, hc, hq]
  rfl

/-- A permutation of a table without null entries is again one. -/
theorem entries_of_perm {tasks : Tasks} (h : tasks.Perm (L.map entry)) :
    ∃ L' : List Task, L'.Perm L ∧ tasks = L'.map entry := by
  have hentry : ∀ e ∈ tasks, ∃ t, e = entry t := by
    intro e he
    obtain ⟨t, -, ht⟩ := List.mem_map.mp (h.subset he)
    exact ⟨t, ht.symm⟩
  have hmap : ∀ l : Tasks, (∀ e ∈ l, ∃ t, e = entry t) → (l.filterMap (·.2)).map entry = l := by
    intro l hl
    induction l with
    | nil => rfl
    | cons e l ih =>
      obtain ⟨t, rfl⟩ := hl e (by simp)
      simp only [List.filterMap_cons, entry, List.map_cons, List.cons.injEq, true_and]
      exact ih fun e' he' => hl e' (by simp [he'])
  refine ⟨tasks.filterMap (·.2), ?_, (hmap tasks hentry).symm⟩
  have := h.filterMap (·.2)
  rwa [List.filterMap_map, show (fun e : OpId × TaskPtr => e.2) ∘ entry = some from rfl,
    List.filterMap_some] at this

end Table

/-! ## What a step does -/

/-- Messages sent for no task: hello, pong and rejecting acks. -/
def isReply (m : AgentToServer) : Bool := !m.isData && !m.isTerminal && !m.isAccept

/-- The actions that may do no more than answer. -/
def Act.replies : Act → Bool
  | .message (.start _) true | .message (.ping _) true | .streamReady => true
  | _ => false

/-- Failed reads and empty messages. -/
def Act.ignored : Act → Bool
  | .message m ok => !ok || m = .notSet
  | _ => false

/-- What action `x` does to a client `s` whose containers hold `a`: the new state, the events and
the new queue. -/
inductive Effect (cfg : Config) (a : Sched) (s : Client) :
    Act → Client → List Event → Sched → Prop
  | skip {x : Act} : x.ignored → Effect cfg a s x s [] a
  | unknown {opId : OpId} : (∀ t ∈ a.members, t.opId ≠ opId) →
      Effect cfg a s (.message (.cancel opId) true) s [] a
  | sameFeatures {event : AuthStateChangedEvent} :
      s.activeFeatures = Client.featuresFor cfg event.state →
      Effect cfg a s (.authEvent event) s [] a
  | reply {x : Act} {m : AgentToServer} : x.replies → isReply m →
      Effect cfg a s x s [.sent m none] a
  | rehash {tasks : Tasks} : Effect cfg a s (.rehash tasks) { s with tasks } [] a
  | run : s.worker = .notStarted →
      Effect cfg a s .run { s with running := true, worker := .loopHead } [] a
  | stop : Effect cfg a s .stop { s with running := false } [] a
  | stopWorker {x : Act} {b : Bool} : x = .stopWorker ∨ x = .workerJoined →
      Effect cfg a s x { s with stopWorker := b } [] a
  /-- The worker moves between its tests without taking a task. -/
  | idleWorker {x : Act} {pc : WorkerPc} : x = .workerCheck ∨ x = .workerTake →
      a.current = none → s.worker ≠ .notStarted →
      pc.Runs none → pc ≠ .notStarted → Effect cfg a s x { s with worker := pc } [] a
  /-- `HandleStartOp` passes its first region. -/
  | pass {op : StartOp} {spec : OpSpec} : s.server = .idle → op.opId ≠ 0 → s.drainMode = false →
      Effect cfg a s (.message (.start op) true)
        { s with server := .validating ⟨s.nextPtr, op.opId, spec⟩, nextPtr := s.nextPtr + 1 } [] a
  | invalid {t : Task} {m : AgentToServer} : s.server = .validating t → isReply m →
      Effect cfg a s .insertStartOp { s with server := .idle } [.sent m none] a
  | lateReject {t : Task} {reason : String} : s.server = .validating t →
      Effect cfg a s .insertStartOp { s with server := .acking t false reason } [] a
  | accept {t : Task} {tasks : Tasks} (h) : s.server = .validating t →
      isTaskAllowed s.activeFeatures t.kind = true →
      Effect cfg a s .insertStartOp
        { s with tasks, taskQueue := s.taskQueue ++ [some t], server := .acking t true "" }
        [.accepted t] (a.push t h)
  | ack {t : Task} {accepted : Bool} {reason reason' : String} :
      s.server = .acking t accepted reason →
      Effect cfg a s .ackStartOp { s with server := .idle }
        [.sent (makeAck t.opId accepted reason') (some t)] a
  | cancelCurrent {t : Task} {opId : OpId} : a.current = some t →
      Effect cfg a s (.message (.cancel opId) true)
        { s with cancelRequested := requestCancel [t] s.cancelRequested } [] a
  | cancel {t : Task} {tasks : Tasks} : s.server = .idle → t ∈ a.queue →
      Effect cfg a s (.message (.cancel t.opId) true)
        { s with tasks, taskQueue := s.taskQueue.erase (some t), server := .cancelling t }
        [.removed t .cancel] (a.retain (fun u => u ≠ t))
  | reportCancel {t : Task} : s.server = .cancelling t →
      Effect cfg a s .reportCancel
        { s with cancelRequested := requestCancel [t] s.cancelRequested, server := .idle }
        [sendErrorFor "CANCELLED" "operation cancelled" t] a
  | drain : s.worker ≠ .notStarted →
      Effect cfg a s (.message (.shutdown true) true) { s with drainMode := true }
        [.shutdown true] a
  /-- `HandleShutdown(drain=false)` reports what `tasks_` holds on top of what the queue holds. -/
  | shutdown {tasks : Tasks} {cancelled again : List Task} : s.server = .idle →
      (∀ t, a.current = some t → t ∈ cancelled) → again.Perm a.queue →
      Effect cfg a s (.message (.shutdown false) true)
        { s with
          drainMode := false
          cancelRequested := requestCancel cancelled s.cancelRequested
          taskQueue := []
          tasks
          server := .shuttingDown (a.queue ++ again) }
        (.shutdown false :: a.queue.map (.removed · .shutdown)) (a.retain (fun _ => false))
  | reportShutdown {t : Task} {rest : List Task} : s.server = .shuttingDown (t :: rest) →
      Effect cfg a s .reportShutdown { s with server := .shuttingDown rest }
        [sendErrorFor "CANCELLED" "operation cancelled" t] a
  | endShutdown : s.server = .shuttingDown [] →
      Effect cfg a s .reportShutdown { s with server := .idle, running := false } [.cancelStream] a
  | streamClosed {tasks : Tasks} {cancelled reported : List Task} : s.server = .idle →
      (∀ t, a.current = some t → t ∈ cancelled) → reported.Perm a.queue →
      Effect cfg a s .streamClosed
        { s with
          cancelRequested := requestCancel cancelled s.cancelRequested
          tasks
          taskQueue := [] }
        (a.queue.map (.removed · .streamClosed) ++
          reported.map (sendErrorFor "CANCELLED" "stream closed"))
        (a.retain (fun _ => false))
  | features {event : AuthStateChangedEvent} {tasks : Tasks} {cancelled : List Task} :
      s.auth = [] →
      (∀ t, a.current = some t → isTaskAllowed (Client.featuresFor cfg event.state) t.kind = false →
        t ∈ cancelled) →
      Effect cfg a s (.authEvent event)
        { s with
          activeFeatures := Client.featuresFor cfg event.state
          taskQueue := (a.queue.filter
            fun t => isTaskAllowed (Client.featuresFor cfg event.state) t.kind).map some
          tasks
          cancelRequested := requestCancel cancelled s.cancelRequested
          auth := a.queue.filter
            fun t => !isTaskAllowed (Client.featuresFor cfg event.state) t.kind }
        ((a.queue.filter
          fun t => !isTaskAllowed (Client.featuresFor cfg event.state) t.kind).map
            (.removed · .unauthorized))
        (a.retain fun t => isTaskAllowed (Client.featuresFor cfg event.state) t.kind)
  | reportUnauthorized {t : Task} {rest : List Task} : s.auth = t :: rest →
      Effect cfg a s .reportUnauthorized { s with auth := rest }
        [sendErrorFor "UNAUTHORIZED" kAuthorizationErrorMessage t] a
  | take {t : Task} {rest : List Task} (hc hq) : s.worker = .locking →
      Effect cfg a s .workerTake
        { s with
          taskQueue := rest.map some
          currentTask := some t
          worker := .running (some t) false false }
        [.started t] (a.take t rest hc hq)
  | send {t : Task} {d f : Bool} {o : TaskOutput} : s.worker = .running (some t) d f →
      ((o.message t.opId).isTerminal = true → f = false) →
      Effect cfg a s (.taskSend o)
        { s with
          worker := .running (some t) (d || (o.message t.opId).isData)
            (f || (o.message t.opId).isTerminal) }
        [.sent (o.message t.opId) (some t)] a
  | finish {t : Task} {d : Bool} {tasks : Tasks} : s.worker = .running (some t) d true →
      Effect cfg a s .workerFinish
        { s with
          tasks
          currentTask := none
          running := if s.drainMode && decide (s.taskQueue = []) then false else s.running
          worker := .loopHead }
        [.finished t] a.finish

/-- Every effect is a step of the abstract queue. -/
theorem Effect.serialStep {cfg : Config} {a a' : Sched} {s s' : Client} {x : Act} {e : List Event}
    (he : Effect cfg a s x s' e a') : SerialQueue.Step a a' := by
  cases he with
  | accept h => exact .push a _ h
  | take hc hq => exact .take a _ _ hc hq
  | finish => exact .finish a
  | cancel | shutdown | streamClosed | features => exact .retain a _
  | _ => exact .stay a

/-- The outcome `r` of action `x` is an effect that keeps the representation. -/
def Simulated (cfg : Config) (a : Sched) (s : Client) (x : Act) (r : Client × List Event) : Prop :=
  ∃ a', Effect cfg a s x r.1 r.2 a' ∧ Represents a' r.1

section Regions

variable {cfg : Config} {a : Sched} {s : Client} {x : Act}

theorem Represents.init (cfg : Config) : Represents SerialQueue.empty (Client.new cfg) where
  queue := rfl
  current := rfl
  table := ⟨[], .refl _, rfl⟩
  worker := rfl
  nonzero := by simp [SerialQueue.members, SerialQueue.empty]
  validating := fun _ h => nomatch h

/-- Steps that leave the containers alone. -/
theorem Represents.frame (r : Represents a s) {s' : Client} (hq : s'.taskQueue = s.taskQueue)
    (hc : s'.currentTask = s.currentTask) (ht : s'.tasks = s.tasks)
    (hw : s.worker.Runs a.current → s'.worker.Runs a.current)
    (hv : ∀ t, s'.server = .validating t → s.server = .validating t) : Represents a s' :=
  ⟨hq.trans r.queue, hc.trans r.current, ht ▸ r.table, hw r.worker, r.nonzero,
    fun t h => r.validating t (hv t h)⟩

/-- Tasks that are gone from the queue are new again for `HandleStartOp`. -/
theorem Represents.validating_of_subset (r : Represents a s) {a' : Sched}
    (hsub : a'.members ⊆ a.members) {t : Task} (h : s.server = .validating t) :
    t.opId ≠ 0 ∧ t.opId ∉ a'.members.map Task.opId :=
  ⟨(r.validating t h).1, fun hm => (r.validating t h).2 (List.map_subset _ hsub hm)⟩

theorem Represents.filterMap_queue (r : Represents a s) : s.taskQueue.filterMap id = a.queue := by
  rw [r.queue, List.filterMap_map]
  exact List.filterMap_some

theorem Represents.findKey (r : Represents a s) {opId : OpId} {p : TaskPtr}
    (h : findKey opId s.tasks = some p) : ∃ t, p = some t ∧ t ∈ a.members ∧ t.opId = opId := by
  obtain ⟨L, hL, ht⟩ := r.table
  rw [ht, findKey_entries, Option.map_eq_some_iff] at h
  obtain ⟨t, hf, rfl⟩ := h
  exact ⟨t, rfl, hL.subset (List.mem_of_find?_eq_some hf), by simpa using List.find?_some hf⟩

theorem Represents.findKey_none (r : Represents a s) {opId : OpId}
    (h : Control.findKey opId s.tasks = none) : ∀ t ∈ a.members, t.opId ≠ opId := by
  obtain ⟨L, hL, ht⟩ := r.table
  rw [ht, findKey_entries, Option.map_eq_none_iff, List.find?_eq_none] at h
  exact fun t htm => by simpa using h t (hL.mem_iff.mpr htm)

theorem handleStartOp_sim (r : Represents a s) (hidle : s.server = .idle) (op : StartOp) :
    Simulated cfg a s (.message (.start op) true) (s.handleStartOp cfg op) := by
  unfold Client.handleStartOp
  split_ifs with h0
  · exact ⟨a, .reply rfl rfl, r⟩
  · cases had : s.admission cfg op with
    | error reason => exact ⟨a, .reply rfl rfl, r⟩
    | ok spec =>
      have hnew : s.drainMode = false ∧ op.opId ∉ a.members.map Task.opId := by
        unfold Client.admission at had
        obtain ⟨L, hL, ht⟩ := r.table
        split_ifs at had with hd hdup
        all_goals
          rw [ht, any_key_entries, (hL.map _).mem_iff] at hdup
          exact ⟨by simpa using hd, hdup⟩
      refine ⟨a, .pass hidle h0 hnew.1, r.queue, r.current, r.table, r.worker, r.nonzero, ?_⟩
      rintro t ht
      obtain rfl := ServerPc.validating.inj ht
      exact ⟨h0, hnew.2⟩

theorem insertStartOp_sim (r : Represents a s) {t : Task} (hv : s.server = .validating t) :
    Simulated cfg a s .insertStartOp (s.insertStartOp cfg t) := by
  unfold Client.insertStartOp
  cases hval : t.validate cfg.logOptions with
  | some reason => exact ⟨a, .invalid hv rfl, r.frame rfl rfl rfl id (by simp)⟩
  | none =>
    by_cases hal : isTaskAllowed s.activeFeatures t.kind
    · obtain ⟨h0, hkey⟩ := r.validating t hv
      refine ⟨a.push t hkey, ?_, ?_⟩
      · simp only [hal, Bool.not_true, Bool.false_eq_true, if_false]
        exact .accept hkey hv hal
      · simp only [hal, Bool.not_true, Bool.false_eq_true, if_false]
        obtain ⟨L, hL, ht⟩ := r.table
        refine ⟨by simp [r.queue], r.current, ⟨t :: L, ?_, ?_⟩, r.worker, ?_, by simp⟩
        · rw [SerialQueue.members_push]
          exact (hL.cons t).trans (List.perm_append_singleton t a.members).symm
        · have hLt : L.filter (fun u => u.opId ≠ t.opId) = L := by
            refine List.filter_eq_self.mpr fun u hu => ?_
            have : u.opId ≠ t.opId := fun h => hkey (h ▸ List.mem_map_of_mem (hL.subset hu))
            simp [this]
          rw [assignKey, ht, eraseKey_entries, hLt]
          rfl
        · rw [SerialQueue.members_push]
          intro u hu
          rcases List.mem_append.mp hu with hu | hu
          · exact r.nonzero u hu
          · rw [List.mem_singleton.mp hu]; exact h0
    · refine ⟨a, ?_, ?_⟩
      · simp only [hal, Bool.not_false, if_true]
        exact .lateReject hv
      · simp only [hal, Bool.not_false, if_true]
        exact r.frame rfl rfl rfl id (by simp)

theorem handleCancel_sim (r : Represents a s) (hidle : s.server = .idle) (opId : OpId) :
    Simulated cfg a s (.message (.cancel opId) true) (s.handleCancel opId) := by
  unfold Client.handleCancel
  cases hf : findKey opId s.tasks with
  | none => exact ⟨a, .unknown (r.findKey_none hf), r⟩
  | some p =>
    obtain ⟨t, rfl, htm, rfl⟩ := r.findKey hf
    simp only
    split_ifs with hc hq
    · exact ⟨a, .cancelCurrent (r.current ▸ hc), r.frame rfl rfl rfl id (fun _ h => h)⟩
    · rw [r.queue, List.mem_map] at hq
      obtain ⟨u, hu, hut⟩ := hq
      obtain rfl := Option.some.inj hut
      obtain ⟨L, hL, ht⟩ := r.table
      refine ⟨a.retain (fun v => v ≠ u), .cancel hidle hu, ?_, r.current, ?_, r.worker, ?_,
        fun _ h => nomatch h⟩
      · have he : a.queue.erase u = a.queue.filter (fun v => v ≠ u) := by
          rw [a.queue_nodup.erase_eq_filter]
          exact List.filter_congr fun v _ => by simp [bne, BEq.beq]
        rw [r.queue, SerialQueue.queue_retain, ← he]
        exact (List.map_erase (fun _ _ => Option.some.inj) _).symm
      · refine ⟨L.filter (fun v => v.opId ≠ u.opId), ?_, by rw [ht, eraseKey_entries]⟩
        refine (hL.filter _).trans (List.Perm.of_eq ?_)
        have hne : ∀ v ∈ a.members, (decide (v.opId ≠ u.opId)) = decide (v ≠ u) := by
          intro v hv
          rw [decide_eq_decide]
          exact not_congr ⟨fun h => SerialQueue.eq_of_key hv htm h, fun h => h ▸ rfl⟩
        rw [List.filter_congr hne, SerialQueue.members, List.filter_append]
        have hcu : a.current.toList.filter (fun v => v ≠ u) = a.current.toList := by
          refine List.filter_eq_self.mpr fun v hv => ?_
          have : a.current = some v := by simpa using hv
          have hvu : v ≠ u := fun h => hc (by rw [r.current, this, h])
          simp [hvu]
        rw [hcu]
        rfl
      · exact fun v hv => r.nonzero v (a.members_retain_subset _ hv)
    · rcases SerialQueue.mem_members.mp htm with h | h
      · exact absurd (r.current.trans h) hc
      · exact absurd (r.queue ▸ List.mem_map_of_mem h) hq

theorem handleShutdown_sim (r : Represents a s) (hw : s.worker ≠ .notStarted)
    (hidle : s.server = .idle) (drain : Bool) :
    Simulated cfg a s (.message (.shutdown drain) true) (s.handleShutdown drain) := by
  unfold Client.handleShutdown
  cases drain with
  | true => exact ⟨a, .drain hw, r.frame rfl rfl rfl id (fun _ h => h)⟩
  | false =>
    obtain ⟨L, hL, ht⟩ := r.table
    simp only [Bool.false_eq_true, if_false, r.filterMap_queue, ht, sweepTasks_entries]
    refine ⟨a.retain (fun _ => false), .shutdown hidle ?_ (filter_not_current r.current hL), ?_⟩
    · intro t hc
      simp [r.current, hc]
    · refine ⟨by simp, r.current, ⟨_, ?_, rfl⟩, r.worker,
        fun v hv => r.nonzero v (a.members_retain_subset _ hv), fun _ h => nomatch h⟩
      simpa [SerialQueue.members] using filter_current r.current hL

theorem cancelAllLocked_sim (r : Represents a s) (hidle : s.server = .idle) :
    Simulated cfg a s .streamClosed (s.cancelAllLocked "stream closed") := by
  unfold Client.cancelAllLocked
  obtain ⟨L, hL, ht⟩ := r.table
  simp only [r.filterMap_queue, ht, sweepTasks_entries]
  refine ⟨a.retain (fun _ => false), .streamClosed hidle ?_ (filter_not_current r.current hL), ?_⟩
  · intro t hc
    simpa using hL.symm.subset (SerialQueue.mem_members.mpr (.inl hc))
  · refine ⟨by simp, r.current, ⟨_, ?_, rfl⟩, r.worker,
      fun v hv => r.nonzero v (a.members_retain_subset _ hv),
      fun _ h => nomatch hidle.symm.trans h⟩
    simpa [SerialQueue.members] using filter_current r.current hL

theorem onAuthStateChanged_sim (r : Represents a s) (hauth : s.auth = [])
    (event : AuthStateChangedEvent) :
    Simulated cfg a s (.authEvent event) (s.onAuthStateChanged cfg event) := by
  unfold Client.onAuthStateChanged Client.applyFeatureUpdate
  split_ifs with heq
  · exact ⟨a, .sameFeatures heq, r⟩
  obtain ⟨L, hL, ht⟩ := r.table
  set toggles := Client.featuresFor cfg event.state with htog
  have hp := filter_purged (fun t => isTaskAllowed toggles t.kind) hL
  set P := L.filter (fun t => ∀ u ∈ a.queue, isTaskAllowed toggles u.kind = false →
    t.opId ≠ u.opId) with hP
  -- the second loop keeps everything the first one left
  have hkeep : ∀ t ∈ P, (isTaskAllowed toggles t.kind || decide (s.currentTask = some t)) =
      true := by
    intro t htP
    rcases SerialQueue.mem_members.mp (hp.subset htP) with h | h
    · simp [r.current.trans h]
    · simp [(List.mem_filter.mp h).2]
  have hnone : P.filter (fun t => !(isTaskAllowed toggles t.kind ||
      decide (s.currentTask = some t))) = [] :=
    List.filter_eq_nil_iff.mpr fun t htP => by simp [hkeep t htP]
  simp only [r.queue, ht, purgeQueue_entries, sweepTasks_entries, ← hP, hnone, List.append_nil,
    List.filter_eq_self.mpr hkeep]
  refine ⟨a.retain fun t => isTaskAllowed toggles t.kind, .features hauth ?_, ?_⟩
  · intro t hc hal
    rw [← htog] at hal
    exact List.mem_append_right _ (List.mem_filter.mpr ⟨by simp [r.current, hc], by simp [hal]⟩)
  · exact ⟨rfl, r.current, ⟨P, hp, rfl⟩, r.worker,
      fun v hv => r.nonzero v (a.members_retain_subset _ hv),
      fun t h => r.validating_of_subset (a.members_retain_subset _) h⟩

theorem idleWorker_sim (r : Represents a s) (hx : x = .workerCheck ∨ x = .workerTake)
    (hc : a.current = none) (hs : s.worker ≠ .notStarted) {pc : WorkerPc} (hr : pc.Runs none)
    (hn : pc ≠ .notStarted) :
    Simulated cfg a s x ({ s with worker := pc }, []) :=
  ⟨a, .idleWorker hx hc hs hr hn, r.frame rfl rfl rfl (fun _ => hc ▸ hr) (fun _ h => h)⟩

theorem workerCheck_sim (r : Represents a s) (hw : s.worker = .loopHead) :
    Simulated cfg a s .workerCheck s.workerCheck := by
  have hc : a.current = none := by have h := r.worker; rwa [hw] at h
  have hs : s.worker ≠ .notStarted := by rw [hw]; simp
  unfold Client.workerCheck
  split_ifs
  · exact idleWorker_sim r (.inl rfl) hc hs rfl nofun
  · exact idleWorker_sim r (.inl rfl) hc hs rfl nofun

theorem workerTake_sim (r : Represents a s) (hw : s.worker = .locking) :
    Simulated cfg a s .workerTake s.workerTake := by
  have hc : a.current = none := by have h := r.worker; rwa [hw] at h
  have hs : s.worker ≠ .notStarted := by rw [hw]; simp
  unfold Client.workerTake
  split
  · split_ifs
    · exact idleWorker_sim r (.inr rfl) hc hs rfl nofun
    · exact idleWorker_sim r (.inr rfl) hc hs rfl nofun
  · rename_i p rest hq
    rw [r.queue, List.map_eq_cons_iff] at hq
    obtain ⟨t, rest, hq, rfl, rfl⟩ := hq
    refine ⟨a.take t rest hc hq, .take hc hq hw, rfl, rfl, ?_, ⟨rfl, nofun⟩, ?_, ?_⟩
    · rw [SerialQueue.members_take]; exact r.table
    · rw [SerialQueue.members_take]; exact r.nonzero
    · rw [SerialQueue.members_take]; exact r.validating

theorem workerFinish_sim (r : Represents a s) {t : Task} {d : Bool}
    (hw : s.worker = .running (some t) d true) :
    Simulated cfg a s .workerFinish (s.workerFinish (some t)) := by
  have hc : a.current = some t := by have h := r.worker; rw [hw] at h; exact h.1.symm
  obtain ⟨L, hL, ht⟩ := r.table
  have hp := filter_ne_current hL hc
  refine ⟨a.finish, .finish hw, r.queue, rfl, ⟨_, hp, ?_⟩, rfl,
    fun v hv => r.nonzero v (a.members_finish_subset hv),
    fun _ h => r.validating_of_subset a.members_finish_subset h⟩
  simp only [Client.workerFinish, ht, eraseKey_entries]

/-- `HandleStreamMessage` dispatches to the handler of the message. -/
theorem handleStreamMessage_sim (r : Represents a s) (hw : s.worker ≠ .notStarted)
    (hidle : s.server = .idle) (m : ServerToAgent) (ok : Bool) :
    Simulated cfg a s (.message m ok) (s.handleStreamMessage cfg m ok) := by
  unfold Client.handleStreamMessage
  cases ok with
  | false => exact ⟨a, .skip rfl, r⟩
  | true =>
    cases m with
    | start op => exact handleStartOp_sim r hidle op
    | cancel opId => exact handleCancel_sim r hidle opId
    | shutdown drain => exact handleShutdown_sim r hw hidle drain
    | ping hb => exact ⟨a, .reply rfl rfl, r⟩
    | notSet => exact ⟨a, .skip rfl, r⟩

/-- A step of a handler that keeps the queue and the table, and admits no task. -/
theorem Represents.serverMoves (r : Represents a s) {s' : Client}
    (hq : s'.taskQueue = s.taskQueue) (hc : s'.currentTask = s.currentTask)
    (ht : s'.tasks = s.tasks) (hw : s'.worker = s.worker)
    (hpc : ∀ t, s'.server ≠ .validating t) : Represents a s' := by
  refine r.frame hq hc ht ?_ ?_
  · rw [hw]
    exact id
  · intro t h
    exact absurd h (hpc t)

theorem ackStartOp_sim (r : Represents a s) {t : Task} {accepted : Bool} {reason : String}
    (hs : s.server = .acking t accepted reason) :
    Simulated cfg a s .ackStartOp (s.ackStartOp t accepted reason) :=
  ⟨a, .ack hs, r.serverMoves rfl rfl rfl rfl (by simp [Client.ackStartOp])⟩

theorem reportCancel_sim (r : Represents a s) {t : Task} (hs : s.server = .cancelling t) :
    Simulated cfg a s .reportCancel (s.reportCancel t) :=
  ⟨a, .reportCancel hs, r.serverMoves rfl rfl rfl rfl (by simp [Client.reportCancel])⟩

theorem reportShutdown_sim (r : Represents a s) {errors : List Task}
    (hs : s.server = .shuttingDown errors) :
    Simulated cfg a s .reportShutdown (s.reportShutdown errors) := by
  cases errors with
  | nil =>
    exact ⟨a, .endShutdown hs, r.serverMoves rfl rfl rfl rfl (by simp [Client.reportShutdown])⟩
  | cons t rest =>
    exact ⟨a, .reportShutdown hs, r.serverMoves rfl rfl rfl rfl (by simp [Client.reportShutdown])⟩

theorem taskSend_sim (r : Represents a s) {t : Task} {d f : Bool} {o : TaskOutput}
    (hw : s.worker = .running (some t) d f)
    (hf : ¬ ((o.message t.opId).isTerminal && f) = true) :
    Simulated cfg a s (.taskSend o) (s.taskSend t d f o) := by
  refine ⟨a, .send hw ?_, r.frame rfl rfl rfl ?_ (fun _ h => h)⟩
  · intro ht
    simpa [ht] using hf
  · rw [hw]
    exact id

/-- **Refinement.**  Every step of the code has one of the listed effects and keeps the
representation. -/
theorem step_sim (r : Represents a s) {q : Client × List Event} (h : s.step cfg x = some q) :
    Simulated cfg a s x q := by
  cases x with
  | message m ok =>
    simp only [Client.step, Option.ite_none_right_eq_some, Option.some.injEq] at h
    obtain ⟨hfree, rfl⟩ := h
    obtain ⟨hw, hidle⟩ := Client.callbackFree_iff.mp hfree
    exact handleStreamMessage_sim r hw hidle m ok
  | insertStartOp =>
    cases hs : s.server with
    | validating t =>
      simp only [Client.step, hs, Option.some.injEq] at h
      exact h ▸ insertStartOp_sim r hs
    | _ => simp [Client.step, hs] at h
  | ackStartOp =>
    cases hs : s.server with
    | acking t accepted reason =>
      simp only [Client.step, hs, Option.some.injEq] at h
      exact h ▸ ackStartOp_sim r hs
    | _ => simp [Client.step, hs] at h
  | reportCancel =>
    cases hs : s.server with
    | cancelling t =>
      simp only [Client.step, hs, Option.some.injEq] at h
      exact h ▸ reportCancel_sim r hs
    | _ => simp [Client.step, hs] at h
  | reportShutdown =>
    cases hs : s.server with
    | shuttingDown errors =>
      simp only [Client.step, hs, Option.some.injEq] at h
      exact h ▸ reportShutdown_sim r hs
    | _ => simp [Client.step, hs] at h
  | streamReady =>
    simp only [Client.step, Option.ite_none_right_eq_some, Option.some.injEq] at h
    obtain ⟨-, rfl⟩ := h
    exact ⟨a, .reply rfl rfl, r⟩
  | streamClosed =>
    simp only [Client.step, Option.ite_none_right_eq_some, Option.some.injEq] at h
    obtain ⟨hfree, rfl⟩ := h
    exact cancelAllLocked_sim r (Client.callbackFree_iff.mp hfree).2
  | authEvent event =>
    simp only [Client.step, Option.ite_none_right_eq_some, Option.some.injEq] at h
    obtain ⟨hauth, rfl⟩ := h
    exact onAuthStateChanged_sim r hauth event
  | reportUnauthorized =>
    cases hs : s.auth with
    | nil => simp [Client.step, hs] at h
    | cons t rest =>
      simp only [Client.step, hs, Option.some.injEq] at h
      exact h ▸ ⟨a, .reportUnauthorized hs, r.frame rfl rfl rfl id (fun _ h => h)⟩
  | workerCheck =>
    simp only [Client.step, Option.ite_none_right_eq_some, Option.some.injEq] at h
    obtain ⟨hw, rfl⟩ := h
    exact workerCheck_sim r hw
  | workerTake =>
    simp only [Client.step, Option.ite_none_right_eq_some, Option.some.injEq] at h
    obtain ⟨⟨hw, -⟩, rfl⟩ := h
    exact workerTake_sim r hw
  | taskSend o =>
    cases hw : s.worker with
    | running p d f =>
      cases p with
      | none => simp [Client.step, hw] at h
      | some t =>
        simp only [Client.step, hw, Option.ite_none_left_eq_some, Option.some.injEq] at h
        obtain ⟨hf, rfl⟩ := h
        exact taskSend_sim r hw hf
    | _ => simp [Client.step, hw] at h
  | workerFinish =>
    cases hw : s.worker with
    | running p d f =>
      cases p with
      | none =>
        have hr := r.worker
        rw [hw] at hr
        exact absurd hr.1.symm hr.2
      | some t =>
        cases f with
        | false => simp [Client.step, hw] at h
        | true =>
          simp only [Client.step, hw, Option.some.injEq] at h
          exact h ▸ workerFinish_sim r hw
    | _ => simp [Client.step, hw] at h
  | run =>
    simp only [Client.step, Option.ite_none_right_eq_some, Option.some.injEq] at h
    obtain ⟨hw, rfl⟩ := h
    exact ⟨a, .run hw, r.frame rfl rfl rfl (by rw [hw]; exact id) (fun _ h => h)⟩
  | stop =>
    simp only [Client.step, Option.some.injEq] at h
    exact h ▸ ⟨a, .stop, r.frame rfl rfl rfl id (fun _ h => h)⟩
  | stopWorker =>
    simp only [Client.step, Option.some.injEq] at h
    exact h ▸ ⟨a, .stopWorker (.inl rfl), r.frame rfl rfl rfl id (fun _ h => h)⟩
  | workerJoined =>
    simp only [Client.step, Option.ite_none_right_eq_some, Option.some.injEq] at h
    obtain ⟨-, rfl⟩ := h
    exact ⟨a, .stopWorker (.inr rfl), r.frame rfl rfl rfl id (fun _ h => h)⟩
  | rehash tasks =>
    simp only [Client.step, Option.ite_none_right_eq_some, Option.some.injEq] at h
    obtain ⟨hp, rfl⟩ := h
    obtain ⟨L, hL, ht⟩ := r.table
    obtain ⟨L', hL', ht'⟩ := entries_of_perm (ht ▸ List.isPerm_iff.mp hp)
    exact ⟨a, .rehash, r.queue, r.current, ⟨L', hL'.trans hL, ht'⟩, r.worker, r.nonzero,
      r.validating⟩

end Regions

/-! ## The invariant of the task table -/

variable {cfg : Config} {s : Client} {h : List Event}

/-- **The client is a serial queue:** every run of the code is one of the abstract scheduler. -/
theorem serialQueue_of_reach (r : (client cfg).Reach s h) :
    ∃ a : Sched, a.Arises ∧ Represents a s := by
  induction r with
  | refl => exact ⟨_, .refl, Represents.init cfg⟩
  | tail _ _ hst ih =>
    obtain ⟨a, ha, hr⟩ := ih
    obtain ⟨a', he, hr'⟩ := step_sim hr hst
    exact ⟨a', ha.tail he.serialStep, hr'⟩

theorem represents_of_reach (r : (client cfg).Reach s h) : ∃ a, Represents a s :=
  (serialQueue_of_reach r).imp fun _ ha => ha.2

/-- **Invariants by effects.**  What holds of a new client and is kept by every effect holds after
every run. -/
theorem invariant_of_effects {C : Client → Act → Prop} {I : Client → List Event → Prop}
    (h0 : I (Client.new cfg) [])
    (hs : ∀ {a s h x s' e a'}, Represents a s → I s h → C s x → Effect cfg a s x s' e a' →
      I s' (h ++ e))
    (r : (client cfg).Run C s h) : I s h := by
  refine Machine.Run.invariant h0 ?_ r
  intro s h x s' e hr hI hC hst
  obtain ⟨a, ha⟩ := represents_of_reach hr.reach
  obtain ⟨a', he, -⟩ := step_sim ha hst
  exact hs ha hI hC he

/-- `t` is queued or running. -/
def Client.Holds (s : Client) (t : Task) : Prop := some t ∈ s.taskQueue ∨ s.currentTask = some t

/-- The three containers agree. -/
structure TaskTableInv (s : Client) : Prop where
  keys : ∀ opId, opId ∈ s.tasks.map (·.1) ↔ ∃ t, s.Holds t ∧ t.opId = opId
  keys_nodup : (s.tasks.map (·.1)).Nodup
  entries : ∀ opId p, (opId, p) ∈ s.tasks →
    opId ≠ 0 ∧ ∃ t, p = some t ∧ t.opId = opId ∧ s.Holds t
  queue_not_null : none ∉ s.taskQueue
  queue_nodup : s.taskQueue.Nodup
  queue_opIds_nodup : (s.taskQueue.filterMap (·.map Task.opId)).Nodup
  current_not_queued : s.currentTask ∉ s.taskQueue

theorem Represents.holds {a : Sched} (r : Represents a s) {t : Task} :
    s.Holds t ↔ t ∈ a.members := by
  rw [Client.Holds, r.queue, r.current, SerialQueue.mem_members, or_comm]
  simp

theorem Represents.tableInv {a : Sched} (r : Represents a s) : TaskTableInv s := by
  obtain ⟨L, hL, ht⟩ := r.table
  have hkeys : s.tasks.map (·.1) = L.map Task.opId := by rw [ht, List.map_map]; rfl
  refine
    { keys := ?keys
      keys_nodup := ?keys_nodup
      entries := ?entries
      queue_not_null := by simp [r.queue]
      queue_nodup := ?queue_nodup
      queue_opIds_nodup := ?queue_opIds_nodup
      current_not_queued := ?current_not_queued }
  case keys =>
    intro opId
    simp only [hkeys, List.mem_map, hL.mem_iff, r.holds]
  case keys_nodup =>
    rw [hkeys]
    exact ((hL.map Task.opId).nodup_iff).mpr a.nodup
  case entries =>
    intro opId p hp
    rw [ht] at hp
    obtain ⟨t, htL, hte⟩ := List.mem_map.mp hp
    obtain ⟨rfl, rfl⟩ := Prod.mk.inj hte
    have htm := hL.subset htL
    exact ⟨r.nonzero t htm, t, rfl, rfl, r.holds.mpr htm⟩
  case queue_nodup =>
    rw [r.queue]
    exact a.queue_nodup.map (fun _ _ => Option.some.inj)
  case queue_opIds_nodup =>
    have hq : s.taskQueue.filterMap (·.map Task.opId) = a.queue.map Task.opId := by
      rw [r.queue, List.filterMap_map, ← List.filterMap_eq_map]
      rfl
    rw [hq]
    exact a.nodup.sublist ((List.sublist_append_right _ _).map Task.opId)
  case current_not_queued =>
    rw [r.queue, r.current]
    intro hm
    obtain ⟨t, htq, htc⟩ := List.mem_map.mp hm
    exact SerialQueue.current_not_mem_queue htc.symm htq

/-- **The task table invariant** holds between any two regions of any run. -/
theorem taskTable_invariant (r : (client cfg).Reach s h) : TaskTableInv s := by
  obtain ⟨a, ha⟩ := represents_of_reach r
  exact ha.tableInv

/-- A client with default options. -/
def demoConfig : Config :=
  { agentId := "agent", logOptions := { basePath := "agent.log" }, requestedFeatures := {} }

/-- Two operations are accepted and the worker takes the first. -/
def twoOps : List Act :=
  [.run, .message (.start ⟨1, some (.pcap {})⟩) true, .insertStartOp, .ackStartOp,
    .message (.start ⟨2, some (.logFilter {})⟩) true, .insertStartOp, .ackStartOp,
    .workerCheck, .workerTake]

theorem taskTable_invariant_twoOps : ∃ s h, (client demoConfig).Reach s h ∧
    s.tasks.length = 2 ∧ s.taskQueue.length = 1 ∧ TaskTableInv s :=
  have r := Machine.run_schedule (client demoConfig) (fun _ _ => True) twoOps rfl
  ⟨_, _, r, by decide, by decide, taskTable_invariant r⟩

end Zurg.Control
