import Zurg.Lib.History
import Zurg.Control.Drain

/-!
# Zurg.Control.AfterShutdown — what is accepted once the server has shut the agent down

`Shutdown(drain=true)` closes the admission by `drain_mode_`.  `Shutdown(drain=false)` resets
`drain_mode_`, also when an earlier one had set it, and records itself in `running_`, which
`HandleStartOp` does not look at.  So nothing is accepted after a shutdown exactly as long as no
`StartOp` that passes the checks comes after a `Shutdown(drain=false)`.
-/

namespace Zurg.Control

open Proto Lib

variable {cfg : Config} {s : Client} {h e : List Event} {t : Task} {op : StartOp}

/-- A task enters the table, or its acceptance is sent. -/
def Event.accepts : Event → Bool
  | .accepted _ => true
  | .sent m _ => m.isAccept
  | _ => false

/-- Nothing is accepted after a `Shutdown`. -/
def ClosedByShutdown : List Event → Prop :=
  Always fun pre x => x.accepts = true → ∀ drain, .shutdown drain ∉ pre

/-- `HandleStartOp` lets the operation pass: its first region and `Validate`. -/
def Client.admits (cfg : Config) (s : Client) (op : StartOp) : Bool :=
  op.opId ≠ 0 && match s.admission cfg op with
    | .ok spec => (Task.validate cfg.logOptions ⟨s.nextPtr, op.opId, spec⟩).isNone
    | .error _ => false

/-- A `StartOp` that comes when the last `Shutdown` was one without drain does not pass. -/
def RefusesStarts (cfg : Config) (p : Client × List Event) : Act → Prop
  | .message (.start op) true => lastShutdown p.2 = some false → p.1.admits cfg op = false
  | _ => True

instance (cfg : Config) (p : Client × List Event) (x : Act) :
    Decidable (RefusesStarts cfg p x) := by
  unfold RefusesStarts
  split <;> infer_instance

theorem lastShutdown_eq_none : lastShutdown h = none ↔ ∀ drain, .shutdown drain ∉ h := by
  refine ⟨fun hn drain hm => ?_, lastShutdown_of_not_mem⟩
  rw [lastShutdown, List.getLast?_eq_none_iff, List.filterMap_eq_nil_iff] at hn
  exact Option.some_ne_none drain (hn _ hm)

/-! ## The three steps of `HandleStartOp` -/

theorem validate_of_handleStartOp (hs : s.server = .idle)
    (hv : (s.handleStartOp cfg op).1.server = .validating t) :
    t.validate cfg.logOptions = none → s.admits cfg op = true := by
  unfold Client.handleStartOp at hv
  split_ifs at hv with h0
  · exact nomatch hs.symm.trans hv
  · cases ha : s.admission cfg op with
    | error reason =>
      simp only [ha] at hv
      exact nomatch hs.symm.trans hv
    | ok spec =>
      simp only [ha, ServerPc.validating.injEq] at hv
      obtain rfl := hv
      intro hvalid
      simp [Client.admits, ha, h0, hvalid]

theorem validate_of_insertStartOp {s' : Client} (hst : s.insertStartOp cfg t = (s', e)) :
    (∀ x ∈ e, x.accepts = true → t.validate cfg.logOptions = none) ∧
      ∀ u reason, s'.server = .acking u true reason → t.validate cfg.logOptions = none := by
  unfold Client.insertStartOp at hst
  cases hv : t.validate cfg.logOptions with
  | none => simp
  | some reason =>
    simp only [hv] at hst
    obtain ⟨rfl, rfl⟩ := Prod.mk.inj hst
    simp [Event.accepts, makeAck, AgentToServer.isAccept]

/-! ## The invariant -/

structure ShutInv (cfg : Config) (s : Client) (h : List Event) : Prop where
  order : ClosedByShutdown h
  /-- What is validated after a shutdown is invalid. -/
  validating : ∀ t, s.server = .validating t → lastShutdown h ≠ none →
    t.validate cfg.logOptions ≠ none
  acking : ∀ t reason, s.server = .acking t true reason → lastShutdown h = none

/-- Steps outside `HandleStartOp`, which runs with no other handler. -/
theorem ShutInv.frame (hI : ShutInv cfg s h) {s' : Client} (he : ∀ x ∈ e, x.accepts = false)
    (hs : s'.server = s.server ∧ lastShutdown e = none ∨
      (∀ t, s'.server ≠ .validating t) ∧ ∀ t reason, s'.server ≠ .acking t true reason) :
    ShutInv cfg s' (h ++ e) := by
  have horder : ClosedByShutdown (h ++ e) := by
    refine hI.order.append ?_
    rintro pre x post rfl hx
    exact nomatch (he x (by simp)).symm.trans hx
  rcases hs with ⟨hs, hno⟩ | ⟨hv, ha⟩
  · refine ⟨horder, fun t ht => ?_, fun t reason ht => ?_⟩
    · rw [lastShutdown_append, hno]
      exact hI.validating t (hs ▸ ht)
    · rw [lastShutdown_append, hno]
      exact hI.acking t reason (hs ▸ ht)
  · exact ⟨horder, fun t ht => absurd ht (hv t), fun t reason ht => absurd ht (ha t reason)⟩

theorem shutInv_step {x : Act} {s' : Client} (r : (client cfg).Reach s h) (hI : ShutInv cfg s h)
    (hC : RefusesStarts cfg (s, h) x) (hst : s.step cfg x = some (s', e)) :
    ShutInv cfg s' (h ++ e) := by
  obtain ⟨a, ha⟩ := represents_of_reach r
  obtain ⟨a', he, -⟩ := step_sim ha hst
  have hreply : ∀ {m : AgentToServer}, isReply m = true → (Event.sent m none).accepts = false := by
    intro m hm
    simp only [isReply, Bool.and_eq_true, Bool.not_eq_true'] at hm
    exact hm.2
  cases he with
  | skip | unknown | sameFeatures | rehash | run | stop | stopWorker | idleWorker
  | cancelCurrent => exact hI.frame (by simp) (.inl ⟨rfl, rfl⟩)
  | reply hx hm => exact hI.frame (by simpa using hreply hm) (.inl ⟨rfl, rfl⟩)
  | @pass op spec hs h0 hd =>
    rw [List.append_nil]
    refine ⟨hI.order, fun t ht hne hvalid => ?_, by simp⟩
    have hadmits : s.admits cfg op = true := by
      simp only [Client.step, Option.ite_none_right_eq_some, Option.some.injEq] at hst
      refine validate_of_handleStartOp hs ?_ hvalid
      rw [show s.handleStartOp cfg op = _ from hst.2]
      exact ht
    -- drain mode is off, so the last shutdown was one without drain
    have hlast : lastShutdown h = some false := by
      have hmode := (drainMode_of_reach r).symm.trans hd
      cases hl : lastShutdown h with
      | none => exact absurd hl hne
      | some d => simpa [hl] using hmode
    exact Bool.false_ne_true ((hC hlast).symm.trans hadmits)
  | invalid hs hm => exact hI.frame (by simpa using hreply hm) (.inr (by simp))
  | lateReject hs => exact hI.frame (by simp) (.inr (by simp))
  | @accept u tasks hu hs hal =>
    have hvalid : u.validate cfg.logOptions = none := by
      simp only [Client.step, hs, Option.some.injEq] at hst
      exact (validate_of_insertStartOp hst).1 (.accepted u) (by simp) rfl
    have hnone : lastShutdown h = none := by
      by_contra hne
      exact hI.validating u hs hne hvalid
    refine ⟨hI.order.snoc fun _ => lastShutdown_eq_none.mp hnone, by simp, fun t reason _ => ?_⟩
    rw [lastShutdown_append, hnone]
    rfl
  | @ack u accepted reason reason' hs =>
    refine ⟨hI.order.snoc fun hacc => ?_, by simp, by simp⟩
    obtain rfl : accepted = true := by
      simpa [Event.accepts, makeAck, AgentToServer.isAccept] using hacc
    exact lastShutdown_eq_none.mp (hI.acking u reason hs)
  | cancel hs | reportCancel hs | reportShutdown hs | endShutdown hs =>
    exact hI.frame (by simp [sendErrorFor, Event.accepts, AgentToServer.isAccept]) (.inr (by simp))
  | drain hw =>
    obtain ⟨hfree, -⟩ : s.callbackFree = true ∧ _ := by simpa [Client.step] using hst
    have hidle := (Client.callbackFree_iff.mp hfree).2
    exact hI.frame (by simp [Event.accepts]) (.inr (by simp [hidle]))
  | shutdown hs => exact hI.frame (by simp [Event.accepts]) (.inr (by simp))
  | streamClosed hs =>
    refine hI.frame (List.forall_mem_append.mpr ⟨?_, ?_⟩) (.inr (by simp [hs]))
    · exact List.forall_mem_map.mpr fun _ _ => rfl
    · exact List.forall_mem_map.mpr fun _ _ => rfl
  | features =>
    exact hI.frame (List.forall_mem_map.mpr fun _ _ => rfl)
      (.inl ⟨rfl, lastShutdown_of_not_mem (by simp)⟩)
  | reportUnauthorized =>
    exact hI.frame (by simp [sendErrorFor, Event.accepts, AgentToServer.isAccept])
      (.inl ⟨rfl, rfl⟩)
  | take | finish => exact hI.frame (by simp [Event.accepts]) (.inl ⟨rfl, rfl⟩)
  | @send u d f o hw hf =>
    refine hI.frame ?_ (.inl ⟨rfl, rfl⟩)
    cases o <;> simp [Event.accepts, TaskOutput.message, AgentToServer.isAccept]

theorem shutInv_of_run {p : Client × List Event}
    (r : (client cfg).logged.Run (RefusesStarts cfg) p h) : ShutInv cfg p.1 h := by
  refine Machine.Run.invariant (I := fun p h => ShutInv cfg p.1 h) ?_ ?_ r
  · exact ⟨.nil, fun _ _ hne => absurd rfl hne, fun _ _ _ => rfl⟩
  · rintro p h x q e hr hI hC hst
    obtain ⟨rfl, hreach⟩ := Machine.reach_of_logged hr
    exact shutInv_step hreach hI hC (Machine.step_logged.mp hst).1

/-! ## The condition is necessary -/

theorem allowed_of_admission {spec : OpSpec} (ha : s.admission cfg op = .ok spec) :
    isTaskAllowed s.activeFeatures (specKind spec) = true := by
  unfold Client.admission at ha
  split_ifs at ha with hd hk hf
  cases hs : op.spec with
  | none => simp [hs] at ha
  | some spec' =>
    simp only [hs] at ha
    split_ifs at ha with hr hen
    obtain rfl := Except.ok.inj ha
    simp only [Bool.not_eq_true', Bool.not_eq_false] at hf hen
    simp [isTaskAllowed, hf, hen]

/-- An operation that passes can be inserted at once. -/
theorem insert_of_admits (hadm : s.admits cfg op = true) :
    ∃ s' t, s.handleStartOp cfg op = (s', []) ∧
      ∃ u, s'.step cfg .insertStartOp = some (u, [.accepted t]) := by
  simp only [Client.admits, Bool.and_eq_true, decide_eq_true_eq] at hadm
  obtain ⟨h0, hadm⟩ := hadm
  cases ha : s.admission cfg op with
  | error reason => simp [ha] at hadm
  | ok spec =>
    simp only [ha, Option.isNone_iff_eq_none] at hadm
    have hal : isTaskAllowed s.activeFeatures
        (Task.kind ⟨s.nextPtr, op.opId, spec⟩) = true := allowed_of_admission ha
    have hpass : s.handleStartOp cfg op = ({ s with
        server := .validating ⟨s.nextPtr, op.opId, spec⟩
        nextPtr := s.nextPtr + 1 }, []) := by
      simp only [Client.handleStartOp, h0, if_false, ha]
    refine ⟨_, ⟨s.nextPtr, op.opId, spec⟩, hpass, ?_⟩
    simp only [Client.step, Client.insertStartOp, hadm, hal, Bool.not_true, Bool.false_eq_true,
      if_false]
    exact ⟨_, rfl⟩

/-- **Nothing is accepted after a shutdown**, as long as no `StartOp` that passes the checks comes
when the last one was without drain; and such a `StartOp` can be accepted. -/
theorem nothing_accepted_after_shutdown {p : Client × List Event}
    (r : (client cfg).logged.Run (RefusesStarts cfg) p h) :
    ClosedByShutdown h ∧
    ∀ x q e, (client cfg).logged.step p x = some (q, e) → ¬ RefusesStarts cfg p x →
      ∃ u k, (client cfg).logged.Steps (fun _ _ => True) q u k ∧
        ¬ ClosedByShutdown (h ++ e ++ k) := by
  refine ⟨(shutInv_of_run r).order, fun x q e hst hC => ?_⟩
  obtain ⟨rfl, -⟩ := Machine.reach_of_logged r
  obtain ⟨hst, -⟩ := Machine.step_logged.mp hst
  unfold RefusesStarts at hC
  split at hC
  · rename_i op
    simp only [Classical.not_imp, Bool.not_eq_false] at hC
    obtain ⟨hlast, hadm⟩ := hC
    obtain ⟨s', t, hpass, u, hins⟩ := insert_of_admits hadm
    simp only [client, Client.step, Option.ite_none_right_eq_some, Option.some.injEq] at hst
    have heq : s' = q.1 ∧ [] = e := Prod.mk.inj (hpass.symm.trans hst.2)
    obtain ⟨rfl, rfl⟩ := heq
    have hnext : (client cfg).logged.step q .insertStartOp =
        some ((u, q.2 ++ [Event.accepted t]), [.accepted t]) := Machine.step_logged.mpr ⟨hins, rfl⟩
    refine ⟨_, _, .single trivial hnext, fun hclosed => ?_⟩
    rw [List.append_nil] at hclosed
    exact absurd (lastShutdown_eq_none.mpr (hclosed.last rfl)) (by simp [hlast])
  · exact absurd trivial hC

/-- Two shutdowns and a `StartOp` between them, which drain mode refuses. -/
def refusedStart : List Act :=
  [.run, .message (.shutdown true) true, .message (.start ⟨1, some (.pcap {})⟩) true,
    .message (.shutdown false) true, .reportShutdown]

theorem nothing_accepted_after_shutdown_refusedStart : ∃ p h,
    (client demoConfig).logged.Run (RefusesStarts demoConfig) p h ∧
      lastShutdown h = some false ∧ ClosedByShutdown h :=
  have r := Machine.run_schedule (client demoConfig).logged (RefusesStarts demoConfig)
    refusedStart rfl
  ⟨_, _, r, by decide, (nothing_accepted_after_shutdown r).1⟩

/-- After `Shutdown(drain=false)` the stream delivers one more `StartOp`. -/
def startAfterShutdown : List Act :=
  [.run, .message (.shutdown true) true, .message (.shutdown false) true, .reportShutdown,
    .message (.start ⟨1, some (.pcap {})⟩) true, .insertStartOp, .ackStartOp]

/-- The second shutdown opens the admission again. -/
theorem shutdown_reopens_admission : ¬ ∀ cfg s h, (client cfg).Reach s h → ClosedByShutdown h :=
  fun hall => by
    have r := Machine.run_schedule (client demoConfig) (fun _ _ => True) startAfterShutdown rfl
    have hclosed := hall _ _ _ r [.shutdown true, .shutdown false, .cancelStream]
      (.accepted ⟨0, 1, .pcap {}⟩) _ rfl rfl true
    exact absurd hclosed (by decide)

end Zurg.Control
