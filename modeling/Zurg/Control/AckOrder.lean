import Zurg.Lib.History
import Zurg.Control.Reports

/-!
# Zurg.Control.AckOrder — when the ack of an operation precedes its data and its end

`HandleStartOp` inserts the task in one region and sends the accepting ack after it, outside `mu_`.
Between the two the worker may take the task and an authorization event may drop it.  If neither
happens, every data or terminal message of an operation follows its ack.
-/

namespace Zurg.Control

open Proto Lib

variable {cfg : Config} {s : Client} {h : List Event} {t : Task}

/-- The accepting ack of `t` has been handed to `EnqueueWrite`. -/
def Acked (t : Task) (h : List Event) : Prop :=
  ∃ reason, .sent (makeAck t.opId true reason) (some t) ∈ h

theorem Acked.append (ha : Acked t h) (e : List Event) : Acked t (h ++ e) :=
  ha.imp fun _ hm => List.mem_append_left e hm

/-- Every data and terminal message of an operation comes after its accepting ack. -/
def AckFirst : List Event → Prop :=
  Always fun pre x => ∀ m t, x = .sent m (some t) → (m.isData || m.isTerminal) = true → Acked t pre

/-- The task `HandleStartOp` has inserted and not yet acknowledged. -/
def ServerPc.accepting : ServerPc → Option Task
  | .acking t true _ => some t
  | _ => none

/-- The worker does not take the task that is about to be acknowledged, and no authorization event
disallows it. -/
def AckBeforeWork (cfg : Config) (s : Client) : Act → Prop
  | .workerTake => ∀ t ∈ s.server.accepting, s.taskQueue.head? ≠ some (some t)
  | .authEvent event => ∀ t ∈ s.server.accepting,
      isTaskAllowed (Client.featuresFor cfg event.state) t.kind = true
  | _ => True

instance (cfg : Config) (s : Client) : (x : Act) → Decidable (AckBeforeWork cfg s x)
  | .workerTake => inferInstanceAs (Decidable (∀ t ∈ s.server.accepting, _))
  | .authEvent _ => inferInstanceAs (Decidable (∀ t ∈ s.server.accepting, _))
  | .message .. | .insertStartOp | .ackStartOp | .reportCancel | .reportShutdown | .streamReady
  | .streamClosed | .reportUnauthorized | .workerCheck | .taskSend _ | .workerFinish | .run | .stop
  | .stopWorker | .workerJoined | .rehash _ => .isTrue trivial

/-- Somebody is about to send data or an error for `t`, or may take it to do so. -/
def Client.AtWork (s : Client) (t : Task) : Prop :=
  s.currentTask = some t ∨ t ∈ s.server.reporting ∨ t ∈ s.auth ∨
    some t ∈ s.taskQueue ∧ s.server.accepting ≠ some t

/-- Whatever is at work has been acknowledged. -/
structure AckInv (s : Client) (h : List Event) : Prop where
  order : AckFirst h
  atWork : ∀ t, s.AtWork t → Acked t h

/-- Steps that only work on what is at work already. -/
theorem AckInv.frame (hI : AckInv s h) {s' : Client} {e : List Event}
    (hw : ∀ t, s'.AtWork t → s.AtWork t)
    (he : ∀ m t, .sent m (some t) ∈ e → (m.isData || m.isTerminal) = true → s.AtWork t) :
    AckInv s' (h ++ e) where
  order := by
    refine hI.order.append ?_
    rintro pre x post rfl m t rfl hm
    exact (hI.atWork t (he m t (by simp) hm)).append pre
  atWork t ht := (hI.atWork t (hw t ht)).append e

theorem ackInv_step {a a' : Sched} {x : Act} {s' : Client} {e : List Event}
    (r : Represents a s) (hI : AckInv s h) (hC : AckBeforeWork cfg s x)
    (he : Effect cfg a s x s' e a') : AckInv s' (h ++ e) := by
  have hqueue : ∀ {t}, t ∈ a.queue → some t ∈ s.taskQueue := by
    intro t ht
    rw [r.queue]
    exact List.mem_map_of_mem ht
  cases he with
  | skip | unknown | sameFeatures | reply | rehash | run | stop | stopWorker | idleWorker
  | cancelCurrent | drain =>
    exact hI.frame (fun _ => id) (by simp)
  | pass hs | invalid hs | lateReject hs =>
    exact hI.frame (by simp [Client.AtWork, hs, ServerPc.accepting, ServerPc.reporting]) (by simp)
  | @accept u tasks hu hs hal =>
    refine hI.frame (fun t => ?_) (by simp)
    simp only [Client.AtWork, hs, ServerPc.accepting, ServerPc.reporting, List.mem_append,
      List.mem_singleton]
    rintro (h | h | h | ⟨h | h, hne⟩)
    · exact .inl h
    · exact .inr (.inl h)
    · exact .inr (.inr (.inl h))
    · exact .inr (.inr (.inr ⟨h, by simp⟩))
    · exact absurd h.symm hne
  | @ack u accepted reason reason' hs =>
    refine ⟨hI.order.snoc (by simp [makeAck, AgentToServer.isData, AgentToServer.isTerminal]),
      fun t ht => ?_⟩
    by_cases hu : s.server.accepting = some t
    · rw [hs] at hu
      cases accepted with
      | false => exact absurd hu (by simp [ServerPc.accepting])
      | true =>
        obtain rfl := Option.some.inj hu
        exact ⟨reason', by simp⟩
    · refine (hI.atWork t ?_).append _
      simp only [Client.AtWork, ServerPc.reporting] at ht
      simp only [Client.AtWork, hs, ServerPc.reporting] at hu ⊢
      exact ht.imp_right (Or.imp_right (Or.imp_right fun h => ⟨h.1, hu⟩))
  | @cancel u tasks hs hu =>
    refine hI.frame (fun t => ?_) (by simp)
    simp only [Client.AtWork, hs, ServerPc.accepting, ServerPc.reporting, List.mem_singleton]
    rintro (h | rfl | h | h)
    · exact .inl h
    · exact .inr (.inr (.inr ⟨hqueue hu, by simp⟩))
    · exact .inr (.inr (.inl h))
    · exact .inr (.inr (.inr ⟨List.mem_of_mem_erase h.1, by simp⟩))
  | @reportCancel u hs =>
    refine hI.frame (fun t => ?_) ?_
    · simp only [Client.AtWork, hs, ServerPc.accepting, ServerPc.reporting]
      grind
    · simp [sendErrorFor, Client.AtWork, hs, ServerPc.reporting]
  | @shutdown tasks cancelled again hs hc hp =>
    refine hI.frame (fun t => ?_) (by simp)
    simp only [Client.AtWork, hs, ServerPc.accepting, ServerPc.reporting, List.mem_append,
      hp.mem_iff]
    grind
  | @reportShutdown u rest hs =>
    refine hI.frame (fun t => ?_) ?_
    · simp only [Client.AtWork, hs, ServerPc.accepting, ServerPc.reporting]
      grind
    · simp [sendErrorFor, Client.AtWork, hs, ServerPc.reporting]
  | endShutdown hs =>
    exact hI.frame (by simp [Client.AtWork, hs, ServerPc.accepting, ServerPc.reporting]) (by simp)
  | @streamClosed tasks cancelled reported hs hc hp =>
    refine hI.frame (fun t => ?_) ?_
    · simp only [Client.AtWork, hs, ServerPc.accepting, ServerPc.reporting]
      grind
    · simp only [List.mem_append, List.mem_map, sendErrorFor, hp.mem_iff, Client.AtWork, hs,
        ServerPc.accepting]
      grind
  | @features event tasks cancelled hauth hcur =>
    have hC' : ∀ t, s.server.accepting = some t →
        isTaskAllowed (Client.featuresFor cfg event.state) t.kind = true := hC
    refine hI.frame (fun t => ?_) (by simp)
    simp only [Client.AtWork, hauth, r.queue, List.mem_map, List.mem_filter]
    grind
  | @reportUnauthorized u rest hs =>
    refine hI.frame (fun t => ?_) ?_
    · simp only [Client.AtWork, hs]
      grind
    · simp [sendErrorFor, Client.AtWork, hs]
  | @take t rest hc hq hw =>
    refine hI.frame (fun u => ?_) (by simp)
    have hne : s.server.accepting ≠ some t := fun ht => hC t ht (by rw [r.queue, hq]; rfl)
    simp only [Client.AtWork, r.queue, hq]
    grind
  | @send u d f o hw hf =>
    have hr := r.worker
    rw [hw] at hr
    refine hI.frame (fun _ => id) fun m t hm _ => ?_
    obtain ⟨-, rfl⟩ : m = o.message u.opId ∧ t = u := by simpa using hm
    exact .inl (r.current.trans hr.1.symm)
  | @finish u d tasks hw =>
    refine hI.frame (fun t => ?_) (by simp)
    simp only [Client.AtWork]
    grind

theorem ackInv_of_run (r : (client cfg).Run (AckBeforeWork cfg) s h) : AckInv s h :=
  invariant_of_effects (I := AckInv) ⟨.nil, by simp [Client.AtWork, Client.new, ServerPc.reporting]⟩
    (fun ha hI hC he => ackInv_step ha hI hC he) r

/-- **Lifecycle order.**  If the worker and the authorization events leave a task alone until it is
acknowledged, its ack comes before its data and its terminal message. -/
theorem ack_precedes_data_and_end (r : (client cfg).Run (AckBeforeWork cfg) s h) : AckFirst h :=
  (ackInv_of_run r).order

/-- An operation runs from its acceptance to its end. -/
def oneOperation : List Act :=
  [.run, .message (.start ⟨1, some (.logFilter {})⟩) true, .insertStartOp, .ackStartOp,
    .workerCheck, .workerTake, .taskSend (.logData ⟨0, [1]⟩), .taskSend (.eofLog {}),
    .workerFinish]

theorem ack_precedes_data_and_end_oneOperation : ∃ s h,
    (client demoConfig).Run (AckBeforeWork demoConfig) s h ∧
      h.any (fun e => e matches .finished _) ∧ AckFirst h :=
  have r := Machine.run_schedule (client demoConfig) (AckBeforeWork demoConfig) oneOperation rfl
  ⟨_, _, r, by decide, ack_precedes_data_and_end r⟩

/-- The worker takes and finishes the task before `HandleStartOp` comes to `SendAck`. -/
def workerOvertakesAck : List Act :=
  [.run, .workerCheck, .message (.start ⟨1, some (.pcap {})⟩) true, .insertStartOp, .workerTake,
    .taskSend (.eofPcap {}), .ackStartOp]

/-- The end of an operation can overtake its ack. -/
theorem worker_overtakes_ack : ¬ ∀ cfg s h, (client cfg).Reach s h → AckFirst h := by
  intro hall
  have r := Machine.run_schedule (client demoConfig) (fun _ _ => True) workerOvertakesAck rfl
  have hord := hall _ _ _ r
  obtain ⟨reason, hm⟩ := hord [.accepted ⟨0, 1, .pcap {}⟩, .started ⟨0, 1, .pcap {}⟩]
    (.sent (.eof 1 (.pcap {})) (some ⟨0, 1, .pcap {}⟩))
    [.sent (makeAck 1 true "") (some ⟨0, 1, .pcap {}⟩)] rfl _ _ rfl rfl
  simp at hm

end Zurg.Control
