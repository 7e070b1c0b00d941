import Mathlib.Data.List.Count
import Mathlib.Data.List.Perm.Basic
import Zurg.Control.TaskTable

/-!
# Zurg.Control.Reports — how many terminal messages an accepted operation gets

An acceptance is known by its task, whose address is new.  `owed s t` counts the terminal messages
for `t` that the queue, the worker and the handlers still have to send.  Every step keeps

  `terminals + owed = accepted + (times t was dropped by HandleShutdown)`

(`Effect.balance`), so an operation gets exactly one terminal message on every path out of the
table but one: `HandleShutdown(drain=false)` reports a queued operation once for `task_queue_` and
once more for `tasks_`.
-/

namespace Zurg.Control

open Proto Lib

variable {cfg : Config} {s : Client} {h : List Event} {t : Task}

/-! ## Counting reports -/

/-- A message of the kind `p` sent for `t`. -/
def isFor (p : AgentToServer → Bool) (t : Task) (m : Outgoing) : Bool :=
  p m.1 && decide (m.2 = some t)

/-- The number of messages of the kind `p` sent for `t`. -/
def sentFor (p : AgentToServer → Bool) (t : Task) (h : List Event) : ℕ :=
  (sends h).countP (isFor p t)

/-- The number of terminal messages sent for `t`. -/
abbrev terminals (t : Task) (h : List Event) : ℕ := sentFor AgentToServer.isTerminal t h

/-- The tasks a handler of server messages has still to report. -/
def ServerPc.reporting : ServerPc → List Task
  | .cancelling u => [u]
  | .shuttingDown errors => errors
  | _ => []

def WorkerPc.owed (t : Task) : WorkerPc → ℕ
  | .running (some u) _ false => [u].count t
  | _ => 0

/-- The terminal messages for `t` still to be sent. -/
def Client.owed (s : Client) (t : Task) : ℕ :=
  s.taskQueue.count (some t) + s.worker.owed t + s.server.reporting.count t + s.auth.count t

section Sent

variable {p : AgentToServer → Bool}

theorem sends_append (h k : List Event) : sends (h ++ k) = sends h ++ sends k :=
  List.filterMap_append

theorem sentFor_append (h k : List Event) :
    sentFor p t (h ++ k) = sentFor p t h + sentFor p t k := by
  rw [sentFor, sends_append, List.countP_append]
  rfl

@[simp] theorem sentFor_nil : sentFor p t [] = 0 := rfl

@[simp] theorem sentFor_sent (u : Task) (m : AgentToServer) :
    sentFor p t [.sent m (some u)] = if p m then [u].count t else 0 := by
  cases hm : p m <;>
    simp [sentFor, sends, Event.outgoing, isFor, hm, List.count_singleton]

@[simp] theorem sentFor_reply (m : AgentToServer) : sentFor p t [.sent m none] = 0 := by
  simp [sentFor, sends, Event.outgoing, isFor]

@[simp] theorem sentFor_accepted (u : Task) : sentFor p t [.accepted u] = 0 := rfl
@[simp] theorem sentFor_started (u : Task) : sentFor p t [.started u] = 0 := rfl
@[simp] theorem sentFor_finished (u : Task) : sentFor p t [.finished u] = 0 := rfl
@[simp] theorem sentFor_removed (u : Task) (c : Removal) : sentFor p t [.removed u c] = 0 := rfl
@[simp] theorem sentFor_shutdown (d : Bool) (h : List Event) :
    sentFor p t (.shutdown d :: h) = sentFor p t h := rfl
@[simp] theorem sentFor_cancelStream : sentFor p t [.cancelStream] = 0 := rfl

@[simp] theorem sends_map_removed (c : Removal) (l : List Task) :
    sends (l.map (.removed · c)) = [] :=
  List.filterMap_eq_nil_iff.mpr (by simp [Event.outgoing])

@[simp] theorem sentFor_map_removed (c : Removal) (l : List Task) :
    sentFor p t (l.map (.removed · c)) = 0 := by
  simp [sentFor]

theorem sends_map_sendErrorFor (code message : String) (l : List Task) :
    sends (l.map (sendErrorFor code message)) =
      l.map fun u => (.error u.opId code message, some u) := by
  rw [sends, List.filterMap_map, ← List.filterMap_eq_map]
  rfl

@[simp] theorem sentFor_map_sendErrorFor (code message : String) (l : List Task) :
    sentFor p t (l.map (sendErrorFor code message)) =
      if p (.error t.opId code message) then l.count t else 0 := by
  rw [sentFor, sends_map_sendErrorFor, List.countP_map]
  split_ifs with hp
  · refine List.countP_congr fun u _ => ?_
    simp only [Function.comp, isFor, Option.some.injEq, Bool.and_eq_true, decide_eq_true_eq,
      beq_iff_eq]
    exact ⟨And.right, fun hu => ⟨hu ▸ hp, hu⟩⟩
  · refine List.countP_eq_zero.mpr fun u _ => ?_
    simp only [Function.comp, isFor, Option.some.injEq, Bool.and_eq_true, decide_eq_true_eq]
    rintro ⟨hu, rfl⟩
    exact hp hu

end Sent

theorem WorkerPc.owed_idle {pc : WorkerPc} (t : Task) (hr : pc.Runs none) : pc.owed t = 0 := by
  cases pc with
  | running p d f => exact absurd rfl (hr.1 ▸ hr.2)
  | _ => rfl

theorem count_queue {a : Sched} (r : Represents a s) (t : Task) :
    s.taskQueue.count (some t) = a.queue.count t := by
  rw [r.queue]
  exact List.count_map_of_injective _ _ (fun _ _ => Option.some.inj) _

@[simp] theorem count_accepted_map_removed (t : Task) (c : Removal) (l : List Task) :
    (l.map (.removed · c)).count (Event.accepted t) = 0 := by
  simp [List.count_eq_zero]

@[simp] theorem count_map_sendErrorFor {v : Event} (hv : ∀ m o, v ≠ .sent m o)
    (code message : String) (l : List Task) : (l.map (sendErrorFor code message)).count v = 0 := by
  rw [List.count_eq_zero, List.mem_map]
  rintro ⟨u, -, hu⟩
  exact hv _ _ hu.symm

theorem count_shutdown_map_removed (t : Task) (c : Removal) (l : List Task) :
    (l.map (.removed · c)).count (Event.removed t .shutdown) =
      if c = .shutdown then l.count t else 0 := by
  induction l with
  | nil => simp
  | cons u l ih =>
    rw [List.map_cons, List.count_cons, ih, List.count_cons]
    by_cases hc : c = .shutdown <;> simp [hc]

/-- **Balance of one step.** -/
theorem Effect.balance {a a' : Sched} {x : Act} {s' : Client} {e : List Event}
    (r : Represents a s) (he : Effect cfg a s x s' e a') (t : Task) :
    terminals t e + s'.owed t =
      s.owed t + e.count (.accepted t) + e.count (.removed t .shutdown) := by
  have hq := count_queue r t
  cases he with
  | reply hx hm => simp
  | run hw => simp [Client.owed, hw, WorkerPc.owed]
  | idleWorker hx hc hw hr hn =>
    have := WorkerPc.owed_idle t (hc ▸ r.worker)
    simp [Client.owed, WorkerPc.owed_idle t hr, this]
  | pass hs => simp [Client.owed, hs, ServerPc.reporting]
  | invalid hs => simp [Client.owed, hs, ServerPc.reporting]
  | lateReject hs => simp [Client.owed, hs, ServerPc.reporting]
  | @accept u tasks hu hs hal =>
    simp [Client.owed, hs, ServerPc.reporting, List.count_cons, List.count_append]
    omega
  | ack hs => simp [Client.owed, hs, ServerPc.reporting, makeAck, AgentToServer.isTerminal]
  | @cancel u tasks hs hu =>
    have hmem : some u ∈ s.taskQueue := by rw [r.queue]; exact List.mem_map_of_mem hu
    have hperm := (List.perm_cons_erase hmem).count_eq (some t)
    rw [List.count_cons] at hperm
    simp [Client.owed, hs, ServerPc.reporting, List.count_cons] at hperm ⊢
    omega
  | @reportCancel u hs =>
    simp [Client.owed, hs, ServerPc.reporting, sendErrorFor, AgentToServer.isTerminal]
    omega
  | drain hs => simp [Client.owed]
  | @shutdown tasks cancelled again hs hc hp =>
    simp [Client.owed, hs, ServerPc.reporting, count_shutdown_map_removed, hp.count_eq, hq]
    omega
  | @reportShutdown u rest hs =>
    simp [Client.owed, hs, ServerPc.reporting, sendErrorFor, AgentToServer.isTerminal,
      List.count_cons]
    omega
  | endShutdown hs => simp [Client.owed, hs, ServerPc.reporting]
  | @streamClosed tasks cancelled reported hs hc hp =>
    simp [Client.owed, hs, ServerPc.reporting, sentFor_append, count_shutdown_map_removed,
      AgentToServer.isTerminal, hp.count_eq, hq]
    omega
  | @features event tasks cancelled ha hc =>
    have hsplit := (List.filter_append_perm
      (fun u => isTaskAllowed (Client.featuresFor cfg event.state) u.kind) a.queue).count_eq t
    rw [List.count_append] at hsplit
    have hmap := List.count_map_of_injective (a.queue.filter
      fun u => isTaskAllowed (Client.featuresFor cfg event.state) u.kind) some
      (fun _ _ => Option.some.inj) t
    simp [Client.owed, ha, count_shutdown_map_removed, hmap, hq]
    omega
  | @reportUnauthorized u rest ha =>
    simp [Client.owed, ha, sendErrorFor, AgentToServer.isTerminal, List.count_cons]
    omega
  | @take u rest hc hq' hw =>
    have hmap := List.count_map_of_injective rest some (fun _ _ => Option.some.inj) t
    simp [Client.owed, hw, WorkerPc.owed, hq, hq', hmap, List.count_cons]
  | @send u d f o hw hf =>
    cases f with
    | true =>
      have hm : (o.message u.opId).isTerminal = false :=
        Bool.eq_false_iff.mpr fun hm => by simpa using hf hm
      simp [Client.owed, hw, WorkerPc.owed, hm]
    | false =>
      cases hm : (o.message u.opId).isTerminal
      · simp [Client.owed, hw, WorkerPc.owed, hm]
      · simp only [Client.owed, hw, WorkerPc.owed, hm, sentFor_sent, Bool.or_true, if_true,
          List.count_singleton]
        simp
        omega
  | @finish u d tasks hw => simp [Client.owed, hw, WorkerPc.owed]
  | _ => simp [Client.owed]

/-- **Balance of a run.** -/
theorem balance_of_reach (r : (client cfg).Reach s h) (t : Task) :
    terminals t h + s.owed t = h.count (.accepted t) + h.count (.removed t .shutdown) := by
  refine invariant_of_effects (I := fun s h => terminals t h + s.owed t =
    h.count (.accepted t) + h.count (.removed t .shutdown)) rfl ?_ r
  intro a s h x s' e a' ha hI _ he
  have := he.balance ha t
  have hsent : terminals t (h ++ e) = terminals t h + terminals t e := sentFor_append h e
  rw [hsent, List.count_append, List.count_append]
  omega

/-! ## Acceptances are new -/

/-- A task is accepted at most once. -/
structure AcceptedOnce (s : Client) (h : List Event) : Prop where
  old : ∀ t, .accepted t ∈ h → t.ptr < s.nextPtr
  validating : ∀ t, s.server = .validating t → t.ptr < s.nextPtr ∧ .accepted t ∉ h
  once : ∀ t, h.count (.accepted t) ≤ 1

theorem AcceptedOnce.frame (hI : AcceptedOnce s h) {s' : Client} {e : List Event}
    (hn : s.nextPtr = s'.nextPtr) (hv : ∀ t, s'.server = .validating t → s.server = .validating t)
    (he : ∀ t, .accepted t ∉ e) : AcceptedOnce s' (h ++ e) where
  old t ht := hn ▸ hI.old t ((List.mem_append.mp ht).resolve_right (he t))
  validating t ht := by
    rw [List.mem_append, not_or, ← hn]
    exact ⟨(hI.validating t (hv t ht)).1, (hI.validating t (hv t ht)).2, he t⟩
  once t := by
    rw [List.count_append, List.count_eq_zero_of_not_mem (he t)]
    exact hI.once t

theorem acceptedOnce_step {a a' : Sched} {x : Act} {s' : Client} {e : List Event}
    (hI : AcceptedOnce s h) (he : Effect cfg a s x s' e a') : AcceptedOnce s' (h ++ e) := by
  cases he with
  | @pass op spec hs h0 hd =>
    rw [List.append_nil]
    refine ⟨fun t ht => Nat.lt_succ_of_lt (hI.old t ht), fun t ht => ?_, hI.once⟩
    obtain rfl := ServerPc.validating.inj ht
    exact ⟨Nat.lt_succ_self _, fun hm => Nat.lt_irrefl _ (hI.old _ hm)⟩
  | @accept u tasks hu hs hal =>
    obtain ⟨hlt, hnew⟩ := hI.validating u hs
    refine ⟨fun t ht => ?_, by simp, fun t => ?_⟩
    · rcases List.mem_append.mp ht with ht | ht
      · exact hI.old t ht
      · obtain rfl := Event.accepted.inj (List.mem_singleton.mp ht)
        exact hlt
    · rw [List.count_append]
      by_cases hut : u = t
      · subst hut
        rw [List.count_eq_zero_of_not_mem hnew]
        simp
      · have := hI.once t
        simp [hut, this]
  | invalid | lateReject | ack | cancel | reportCancel | shutdown | reportShutdown | endShutdown =>
    exact hI.frame rfl (by simp) (by simp [sendErrorFor])
  | _ => exact hI.frame rfl (fun _ => id) (by simp [sendErrorFor])

theorem acceptedOnce_new : AcceptedOnce (Client.new cfg) [] :=
  ⟨by simp, by simp [Client.new], by simp⟩

theorem acceptedOnce_of_reach (r : (client cfg).Reach s h) : AcceptedOnce s h :=
  invariant_of_effects (I := AcceptedOnce) acceptedOnce_new
    (fun _ hI _ he => acceptedOnce_step hI he) r

/-! ## One terminal message per acceptance -/

/-- `t` has left `tasks_`, and no handler that took it out has still to report it. -/
def Client.Settled (s : Client) (t : Task) : Prop :=
  some t ∉ s.tasks.map (·.2) ∧ t ∉ s.server.reporting ∧ t ∉ s.auth

instance (s : Client) (t : Task) : Decidable (s.Settled t) := inferInstanceAs (Decidable (_ ∧ _))

theorem owed_of_settled (r : (client cfg).Reach s h) (hs : s.Settled t) : s.owed t = 0 := by
  obtain ⟨a, ha⟩ := represents_of_reach r
  obtain ⟨htab, hserver, hauth⟩ := hs
  obtain ⟨L, hL, hLt⟩ := ha.table
  have hnot : t ∉ a.members := fun hm => htab <| by
    rw [hLt, List.map_map]
    exact List.mem_map.mpr ⟨t, hL.mem_iff.mpr hm, rfl⟩
  have hq : s.taskQueue.count (some t) = 0 := by
    rw [count_queue ha]
    exact List.count_eq_zero_of_not_mem fun h => hnot (SerialQueue.mem_members.mpr (.inr h))
  have hw : s.worker.owed t = 0 := by
    have hr := ha.worker
    cases hpc : s.worker with
    | running p d f =>
      rw [hpc] at hr
      cases p with
      | none => rfl
      | some u =>
        have hut : u ≠ t := fun h => hnot (SerialQueue.mem_members.mpr (.inl (h ▸ hr.1.symm)))
        cases f <;> simp [WorkerPc.owed, hut]
    | _ => rfl
  rw [Client.owed, hq, hw, List.count_eq_zero_of_not_mem hserver,
    List.count_eq_zero_of_not_mem hauth]

/-- **Reports of a settled task:** one, and one more if `HandleShutdown` took it off the queue. -/
theorem terminals_of_settled (r : (client cfg).Reach s h) (ht : .accepted t ∈ h)
    (hs : s.Settled t) : terminals t h = 1 + h.count (.removed t .shutdown) := by
  have hb := balance_of_reach r t
  have hacc : h.count (.accepted t) = 1 :=
    Nat.le_antisymm ((acceptedOnce_of_reach r).once t) (List.count_pos_iff.mpr ht)
  rwa [owed_of_settled r hs, hacc, Nat.add_zero] at hb

/-- `HandleShutdown(drain=false)` finds `task_queue_` empty. -/
def ShutdownOnEmptyQueue (s : Client) (x : Act) : Prop :=
  x = .message (.shutdown false) true → s.taskQueue = []

instance (s : Client) (x : Act) : Decidable (ShutdownOnEmptyQueue s x) :=
  inferInstanceAs (Decidable (_ → _))

theorem not_removed_by_shutdown (r : (client cfg).Run ShutdownOnEmptyQueue s h) (t : Task) :
    .removed t .shutdown ∉ h := by
  refine invariant_of_effects (I := fun _ h => .removed t .shutdown ∉ h) nofun ?_ r
  intro a s h x s' e a' ha hI hC he
  rw [List.mem_append, not_or]
  refine ⟨hI, ?_⟩
  cases he with
  | shutdown =>
    have hq : a.queue = [] := by simpa [ha.queue] using hC rfl
    simp [hq]
  | _ => simp [sendErrorFor]

/-- **One terminal message per acceptance**, when no shutdown without drain meets a queued task. -/
theorem one_terminal_per_acceptance (r : (client cfg).Run ShutdownOnEmptyQueue s h)
    (ht : .accepted t ∈ h) : terminals t h ≤ 1 ∧ (s.Settled t → terminals t h = 1) := by
  have hnone : h.count (.removed t .shutdown) = 0 :=
    List.count_eq_zero_of_not_mem (not_removed_by_shutdown r t)
  refine ⟨?_, fun hs => by rw [terminals_of_settled r.reach ht hs, hnone]⟩
  have hb := balance_of_reach r.reach t
  have honce := (acceptedOnce_of_reach r.reach).once t
  omega

/-- The first operation runs to its end, the second is cancelled while queued. -/
def bothReported : List Act :=
  twoOps ++ [.message (.cancel 2) true, .reportCancel, .taskSend (.eofPcap {}), .workerFinish]

theorem one_terminal_per_acceptance_bothReported : ∃ s h t,
    (client demoConfig).Run ShutdownOnEmptyQueue s h ∧ .accepted t ∈ h ∧ s.Settled t ∧
      terminals t h = 1 :=
  have r := Machine.run_schedule (client demoConfig) ShutdownOnEmptyQueue bothReported rfl
  ⟨_, _, ⟨1, 2, .logFilter {}⟩, r, by decide, by decide,
    (one_terminal_per_acceptance r (by decide)).2 (by decide)⟩

/-- An operation is accepted, and the server shuts the agent down before the worker takes it. -/
def shutdownOverQueue : List Act :=
  [.run, .message (.start ⟨1, some (.pcap {})⟩) true, .insertStartOp, .ackStartOp,
    .message (.shutdown false) true, .reportShutdown, .reportShutdown, .reportShutdown]

/-- The queued operation is reported twice. -/
theorem queued_at_shutdown_reported_twice : ¬ ∀ cfg s h t, (client cfg).Reach s h →
    .accepted t ∈ h → terminals t h ≤ 1 ∧ (s.Settled t → terminals t h = 1) := fun hall =>
  have r := Machine.run_schedule (client demoConfig) (fun _ _ => True) shutdownOverQueue rfl
  absurd (hall _ _ _ ⟨0, 1, .pcap {}⟩ r (by decide)).1 (by decide)

end Zurg.Control
