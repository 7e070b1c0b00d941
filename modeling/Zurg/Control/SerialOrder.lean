import Zurg.Lib.History
import Zurg.Lib.Ledger
import Zurg.Control.Reports

/-!
# Zurg.Control.SerialOrder — tasks are started in the order of their acceptance

The events of a run keep the books of `task_queue_`: what the worker has started and what is queued
are the accepted tasks less those taken back, in the order of acceptance, whichever handlers edit
the queue (`Ledger.Balanced`).  The worker runs the task started last, so what one task sends comes
before all that is sent by a task started later.
-/

namespace Zurg.Control

open Proto Lib

variable {cfg : Config} {s s' : Client} {h e : List Event} {t u : Task} {a a' : Sched} {x : Act}

def Event.acceptedTask : Event → Option Task
  | .accepted t => some t
  | _ => none

def Event.removedTask : Event → Option Task
  | .removed t _ => some t
  | _ => none

def Event.startedTask : Event → Option Task
  | .started t => some t
  | _ => none

/-- The books of `task_queue_`. -/
def ledger (h : List Event) : Ledger Task where
  accepted := h.filterMap Event.acceptedTask
  removed := h.filterMap Event.removedTask
  started := h.filterMap Event.startedTask

theorem ledger_append (h e : List Event) : ledger (h ++ e) =
    { accepted := (ledger h).accepted ++ (ledger e).accepted
      removed := (ledger h).removed ++ (ledger e).removed
      started := (ledger h).started ++ (ledger e).started } := by
  simp [ledger]

/-- Events that keep no books. -/
theorem ledger_eq_empty (ha : ∀ t, .accepted t ∉ e) (hr : ∀ t c, .removed t c ∉ e)
    (hs : ∀ t, .started t ∉ e) : ledger e = {} := by
  have hnil : ∀ {f : Event → Option Task}, (∀ v ∈ e, f v = none) → e.filterMap f = [] :=
    fun hf => List.filterMap_eq_nil_iff.mpr hf
  have h₁ : ∀ v ∈ e, v.acceptedTask = none ∧ v.removedTask = none ∧ v.startedTask = none := by
    intro v hv
    cases v with
    | accepted t => exact absurd hv (ha t)
    | removed t c => exact absurd hv (hr t c)
    | started t => exact absurd hv (hs t)
    | _ => exact ⟨rfl, rfl, rfl⟩
  rw [ledger, hnil fun v hv => (h₁ v hv).1, hnil fun v hv => (h₁ v hv).2.1,
    hnil fun v hv => (h₁ v hv).2.2]

@[simp] theorem ledger_accepted (t : Task) : ledger [.accepted t] = { accepted := [t] } := rfl
@[simp] theorem ledger_started (t : Task) : ledger [.started t] = { started := [t] } := rfl

theorem ledger_removed (l : List Task) (c : Removal) :
    ledger (l.map (.removed · c)) = { removed := l } := by
  simp [ledger, List.filterMap_map, Function.comp_def, Event.acceptedTask, Event.removedTask,
    Event.startedTask]

@[simp] theorem ledger_sent (m : AgentToServer) (o : Option Task) (e : List Event) :
    ledger (.sent m o :: e) = ledger e := rfl

theorem ledger_shutdown (d : Bool) (e : List Event) : ledger (.shutdown d :: e) = ledger e := rfl

theorem ledger_errors (code message : String) (l : List Task) :
    ledger (l.map (sendErrorFor code message)) = {} :=
  ledger_eq_empty (by simp [sendErrorFor]) (by simp [sendErrorFor]) (by simp [sendErrorFor])

/-- Leaving the queue, with the events that say so. -/
theorem balanced_retain (hb : (ledger h).Balanced a.queue) {p : Task → Bool}
    (he : ledger e = { removed := a.queue.filter fun t => !p t }) :
    (ledger (h ++ e)).Balanced (a.retain p).queue := by
  rw [ledger_append, he]
  simpa using hb.retain p

/-- **The books of one step.** -/
theorem balanced_step (hb : (ledger h).Balanced a.queue) (hI : AcceptedOnce s h)
    (he : Effect cfg a s x s' e a') : (ledger (h ++ e)).Balanced a'.queue := by
  have hframe : ledger e = {} → (ledger (h ++ e)).Balanced a.queue := by
    intro heq
    rw [ledger_append, heq]
    simpa using hb
  cases he with
  | @accept t tasks hu hs hal =>
    have hnew : t ∉ (ledger h).accepted := fun hm => (hI.validating t hs).2 <| by
      obtain ⟨v, hv, hvt⟩ := List.mem_filterMap.mp hm
      cases v with
      | accepted u => exact Option.some.inj hvt ▸ hv
      | _ => simp [Event.acceptedTask] at hvt
    rw [ledger_append, ledger_accepted]
    simpa using hb.push hnew
  | @cancel t tasks hs ht =>
    refine balanced_retain hb ?_
    have hone : a.queue.filter (fun u => !decide (u ≠ t)) = [t] := by
      simp only [ne_eq, decide_not, Bool.not_not]
      rw [List.filter_eq, List.count_eq_one_of_mem a.queue_nodup ht]
      rfl
    rw [hone]
    rfl
  | shutdown =>
    refine balanced_retain hb ?_
    rw [ledger_shutdown, ledger_removed]
    simp
  | streamClosed =>
    refine balanced_retain hb ?_
    rw [ledger_append, ledger_removed, ledger_errors]
    simp
  | features => exact balanced_retain hb (ledger_removed _ _)
  | @take t rest hc hq hw =>
    rw [hq] at hb
    rw [ledger_append, ledger_started]
    simpa using hb.take
  | _ => exact hframe (ledger_eq_empty (by simp [sendErrorFor]) (by simp [sendErrorFor])
      (by simp [sendErrorFor]))

theorem balanced_of_reach (r : (client cfg).Reach s h) :
    (ledger h).Balanced (s.taskQueue.filterMap id) := by
  refine Machine.Run.invariant
    (I := fun s h => (ledger h).Balanced (s.taskQueue.filterMap id)) .empty ?_ r
  intro s h x s' e hr hI _ hst
  obtain ⟨a, ha⟩ := represents_of_reach hr
  obtain ⟨a', he, ha'⟩ := step_sim ha hst
  rw [ha.filterMap_queue] at hI
  rw [ha'.filterMap_queue]
  exact balanced_step hI (acceptedOnce_of_reach hr) he

/-! ## Cancelling -/

/-- At most one task leaves the queue, and it carries the `op_id`. -/
def TakesAtMost (opId : OpId) (s s' : Client) (e : List Event) : Prop :=
  (ledger e).removed = [] ∧ s'.taskQueue = s.taskQueue ∨
    ∃ t, t.opId = opId ∧ (ledger e).removed = [t] ∧ s'.taskQueue = s.taskQueue.erase (some t)

theorem cancel_takes_at_most (r : (client cfg).Reach s h) {opId : OpId} {ok : Bool}
    (hst : (client cfg).step s (.message (.cancel opId) ok) = some (s', e)) :
    TakesAtMost opId s s' e := by
  obtain ⟨a, ha⟩ := represents_of_reach r
  have hst : s.step cfg (.message (.cancel opId) ok) = some (s', e) := hst
  obtain ⟨a', he, -⟩ := step_sim ha hst
  cases he with
  | skip | unknown | cancelCurrent => exact .inl ⟨rfl, rfl⟩
  | @cancel t => exact .inr ⟨t, rfl, rfl, rfl⟩
  | reply => exact .inl ⟨rfl, rfl⟩
  | stopWorker hx | idleWorker hx => simp at hx

/-! ## The order of what tasks send -/

/-- `OpData` and `OpEof`. -/
def isOutput (m : AgentToServer) : Bool := m.isData || m.isEof

/-- The output of a task is sent while it is the task started last. -/
def OutputOfLast : List Event → Prop :=
  Always fun pre x => ∀ m t, x = .sent m (some t) → isOutput m = true →
    (ledger pre).started.getLast? = some t

structure OrderInv (s : Client) (h : List Event) : Prop where
  current : ∀ t, s.currentTask = some t → (ledger h).started.getLast? = some t
  output : OutputOfLast h

/-- Steps that start nothing and send no output. -/
theorem OrderInv.frame (hI : OrderInv s h)
    (hc : s'.currentTask = s.currentTask ∨ s'.currentTask = none) (hs : ∀ t, .started t ∉ e)
    (ho : ∀ m t, .sent m (some t) ∈ e → isOutput m = false) :
    OrderInv s' (h ++ e) where
  current t ht := by
    have hnil : (ledger e).started = [] := by
      refine List.filterMap_eq_nil_iff.mpr fun v hv => ?_
      cases v with
      | started u => exact absurd hv (hs u)
      | _ => rfl
    rw [ledger_append, hnil, List.append_nil]
    rcases hc with hc | hc
    · exact hI.current t (hc ▸ ht)
    · exact nomatch hc.symm.trans ht
  output := by
    refine hI.output.append ?_
    rintro pre x post rfl m t rfl hm
    exact nomatch (ho m t (by simp)).symm.trans hm

theorem orderInv_step (r : Represents a s) (hI : OrderInv s h) (he : Effect cfg a s x s' e a') :
    OrderInv s' (h ++ e) := by
  cases he with
  | @take t rest hc hq hw =>
    refine ⟨fun u hu => ?_, hI.output.snoc (by simp)⟩
    rw [ledger_append, ledger_started]
    simpa using hu
  | @send t d f o hw hf =>
    have hcur : s.currentTask = some t := by
      have hr := r.worker
      rw [hw] at hr
      exact r.current.trans hr.1.symm
    refine ⟨fun u hu => ?_, hI.output.snoc ?_⟩
    · rw [ledger_append, ledger_sent]
      simpa [ledger] using hI.current u hu
    · rintro m u heq -
      obtain ⟨-, hu⟩ := Event.sent.inj heq
      exact Option.some.inj hu ▸ hI.current t hcur
  | finish => exact hI.frame (.inr rfl) (by simp) (by simp)
  | _ =>
    exact hI.frame (.inl rfl) (by simp [sendErrorFor])
      (by simp [sendErrorFor, makeAck, isOutput, AgentToServer.isData, AgentToServer.isEof])

theorem orderInv_of_reach (r : (client cfg).Reach s h) : OrderInv s h :=
  invariant_of_effects (I := OrderInv) ⟨by simp [Client.new], .nil⟩
    (fun ha hI _ he => orderInv_step ha hI he) r

/-- In a list without repetitions two items stand in one order only. -/
theorem not_sublist_of_split {l₁ l₂ : List Task} (hn : (l₁ ++ l₂).Nodup) (hu : u ∈ l₁)
    (ht : t ∈ l₂) : ¬ [t, u].Sublist (l₁ ++ l₂) := by
  intro hsub
  have hdisj := (List.nodup_append.mp hn).2.2
  obtain ⟨k₁, k₂, heq, h₁, h₂⟩ := List.sublist_append_iff.mp hsub
  rcases k₁ with _ | ⟨x, k₁⟩
  · rw [List.nil_append] at heq
    exact hdisj u hu u (h₂.subset (by simp [← heq])) rfl
  · obtain ⟨rfl, -⟩ := List.cons.inj heq
    exact hdisj t (h₁.subset (by simp)) t ht rfl

/-- Output of a task started later follows all the output of the tasks before. -/
theorem output_order (hI : OrderInv s h) (hn : (ledger h).started.Nodup)
    (htu : [t, u].Sublist (ledger h).started) {pre post : List Event} {m : AgentToServer}
    (heq : h = pre ++ .sent m (some u) :: post) (hm : isOutput m = true) :
    ∀ m', isOutput m' = true → .sent m' (some t) ∉ post := by
  intro m' hm' hmem
  obtain ⟨mid, post, rfl⟩ := List.append_of_mem hmem
  have hu := hI.output pre _ _ heq m u rfl hm
  have ht := hI.output (pre ++ .sent m (some u) :: mid) (.sent m' (some t)) post (by simp [heq])
    m' t rfl hm'
  have hstarted : (ledger h).started =
      (ledger pre).started ++ ((ledger mid).started ++ (ledger post).started) := by
    rw [heq, ledger_append, ledger_sent, ledger_append, ledger_sent]
  have hlast : (ledger (pre ++ .sent m (some u) :: mid)).started =
      (ledger pre).started ++ (ledger mid).started := by
    rw [ledger_append, ledger_sent]
  rw [hstarted] at hn htu
  rw [hlast, List.getLast?_append] at ht
  cases hmid : (ledger mid).started.getLast? with
  | none =>
    -- the same task is the last one at both places
    rw [hmid, hu] at ht
    obtain rfl : u = t := Option.some.inj ht
    exact absurd (htu.nodup hn) (by simp)
  | some v =>
    rw [hmid] at ht
    obtain rfl : v = t := Option.some.inj ht
    exact not_sublist_of_split hn (List.mem_of_getLast? hu)
      (List.mem_append_left _ (List.mem_of_getLast? hmid)) htu

/-- **Serial first-in-first-out execution**, in every run. -/
theorem serial_fifo (r : (client cfg).Reach s h) :
    (ledger h).started.map some ++ s.taskQueue =
      ((ledger h).accepted.filter fun t => t ∉ (ledger h).removed).map some ∧
    (∀ t ∈ (ledger h).removed, t ∉ (ledger h).started) ∧
    (ledger h).started.Nodup ∧
    (∀ opId ok s' e, (client cfg).step s (.message (.cancel opId) ok) = some (s', e) →
      TakesAtMost opId s s' e) ∧
    ∀ t u, [t, u].Sublist (ledger h).started → ∀ pre m post,
      h = pre ++ .sent m (some u) :: post → isOutput m = true →
        ∀ m', isOutput m' = true → .sent m' (some t) ∉ post := by
  have hb := balanced_of_reach r
  refine ⟨?_, fun t ht => hb.not_started_of_removed ht, hb.started_nodup,
    fun opId ok s' e hst => cancel_takes_at_most r hst,
    fun t u htu pre m post heq hm => output_order (orderInv_of_reach r) hb.started_nodup htu heq hm⟩
  obtain ⟨a, ha⟩ := represents_of_reach r
  rw [ha.filterMap_queue] at hb
  rw [ha.queue, ← hb.accounted, List.map_append]

/-- Of three operations the second is cancelled while the first runs. -/
def cancelSecond : List Act :=
  twoOps ++ [.message (.start ⟨3, some (.exec {})⟩) true, .insertStartOp, .ackStartOp,
    .message (.cancel 2) true, .reportCancel, .taskSend (.eofPcap {}), .workerFinish, .workerCheck,
    .workerTake, .taskSend (.eofExec ⟨0, ""⟩)]

theorem serial_fifo_cancelSecond : ∃ s h, (client demoConfig).Reach s h ∧
    (ledger h).accepted.length = 3 ∧ (ledger h).started.length = 2 ∧
      (∀ t ∈ (ledger h).removed, t ∉ (ledger h).started) ∧ (ledger h).started.Nodup :=
  have r := Machine.run_schedule (client demoConfig) (fun _ _ => True) cancelSecond rfl
  ⟨_, _, r, by decide, by decide, (serial_fifo r).2.1, (serial_fifo r).2.2.1⟩

end Zurg.Control
