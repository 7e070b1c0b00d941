import Zurg.Control.TaskTable

/-!
# Zurg.Control.StartOp — the answer to a `StartOp`

`Handling` follows one call of `HandleStartOp` through a run: the steps the handler takes itself, and
between them the steps of all other threads.  When the handler returns, it has sent one ack, and it
has added one task if the ack accepts and nothing if it rejects (`startOp_answered`).
-/

namespace Zurg.Control

open Proto Lib

/-- A step of the handler: the states before and after it. -/
structure HandlerStep where
  before : Client
  after : Client

/-- The handler has left alone what a `StartOp` may be about. -/
def HandlerStep.Keeps (st : HandlerStep) : Prop :=
  (st.after.taskQueue, st.after.tasks, st.after.currentTask, st.after.drainMode,
    st.after.activeFeatures) =
  (st.before.taskQueue, st.before.tasks, st.before.currentTask, st.before.drainMode,
    st.before.activeFeatures)

/-- The handler has appended one task, which is new, and entered it. -/
structure HandlerStep.Adds (st : HandlerStep) (t : Task) : Prop where
  queue : st.after.taskQueue = st.before.taskQueue ++ [some t]
  tasks : st.after.tasks = (t.opId, some t) :: st.before.tasks
  not_queued : some t ∉ st.before.taskQueue
  not_entered : ∀ e ∈ st.before.tasks, e.1 ≠ t.opId

theorem HandlerStep.Adds.not_keeps {st : HandlerStep} {t : Task} (h : st.Adds t) : ¬ st.Keeps := by
  intro hkeeps
  have hqueue := h.queue
  rw [(Prod.mk.inj hkeeps).1] at hqueue
  exact absurd (congrArg List.length hqueue) (by simp)

/-- The calls of `HandleStartOp` that begin in `s`, until they return: the handler's own steps, the
events of all threads, and the state. -/
inductive Handling (cfg : Config) (op : StartOp) (s : Client) :
    List HandlerStep → List Event → Client → Prop
  | enter {t : Client} {e : List Event} :
      Client.step cfg s (.message (.start op) true) = some (t, e) →
      Handling cfg op s [⟨s, t⟩] e t
  | own {own : List HandlerStep} {h e : List Event} {t u : Client} {x : Act} :
      Handling cfg op s own h t → t.server ≠ .idle → x = .insertStartOp ∨ x = .ackStartOp →
      Client.step cfg t x = some (u, e) → Handling cfg op s (own ++ [⟨t, u⟩]) (h ++ e) u
  | other {own : List HandlerStep} {h e : List Event} {t u : Client} {x : Act} :
      Handling cfg op s own h t → t.server ≠ .idle → ¬ (x = .insertStartOp ∨ x = .ackStartOp) →
      Client.step cfg t x = some (u, e) → Handling cfg op s own (h ++ e) u

def Event.ack : Event → Option OpAck
  | .sent (.ack m) _ => some m
  | _ => none

/-- The acks handed to `EnqueueWrite`. -/
def acks (h : List Event) : List OpAck := h.filterMap Event.ack

/-- Exactly one step has added a task, one for the operation, and the others nothing. -/
def AddsOne (op : StartOp) (own : List HandlerStep) : Prop :=
  ∃ pre st post t, own = pre ++ st :: post ∧ t.opId = op.opId ∧ op.spec = some t.spec ∧
    st.Adds t ∧ ∀ st' ∈ pre ++ post, st'.Keeps

/-- One ack for the operation, which says what has been done. -/
def Answered (op : StartOp) (own : List HandlerStep) (h : List Event) : Prop :=
  ∃ accepted reason, acks h = [⟨op.opId, accepted, reason⟩] ∧
    (accepted = true ↔ AddsOne op own) ∧
    (accepted = false → reason ≠ "" ∧ ∀ st ∈ own, st.Keeps)

/-- What has been done when the handler stands somewhere. -/
def ServerPc.Handled (op : StartOp) (own : List HandlerStep) (h : List Event) : ServerPc → Prop
  | .idle => Answered op own h
  | .validating t =>
    t.opId = op.opId ∧ op.spec = some t.spec ∧ acks h = [] ∧ ∀ st ∈ own, st.Keeps
  | .acking t true _ => t.opId = op.opId ∧ acks h = [] ∧ AddsOne op own
  | .acking t false _ => t.opId = op.opId ∧ acks h = [] ∧ ∀ st ∈ own, st.Keeps
  | _ => False

variable {cfg : Config} {op : StartOp} {s t u : Client} {own : List HandlerStep}
  {h h₀ e : List Event} {x : Act} {task : Task} {accepted : Bool} {reason : String}

theorem acks_append (h e : List Event) : acks (h ++ e) = acks h ++ acks e := List.filterMap_append

theorem not_addsOne (hkeeps : ∀ st ∈ own, st.Keeps) : ¬ AddsOne op own := by
  rintro ⟨pre, st, post, t, rfl, -, -, hadds, -⟩
  exact hadds.not_keeps (hkeeps st (by simp))

theorem answered_of_reject (r : String) (hacks : acks h = [⟨op.opId, false, r⟩]) (hr : r ≠ "")
    (hkeeps : ∀ st ∈ own, st.Keeps) : Answered op own h :=
  ⟨false, r, hacks, iff_of_false Bool.false_ne_true (not_addsOne hkeeps), fun _ => ⟨hr, hkeeps⟩⟩

theorem answered_of_accept (r : String) (hacks : acks h = [⟨op.opId, true, r⟩])
    (hadds : AddsOne op own) : Answered op own h :=
  ⟨true, r, hacks, iff_of_true rfl hadds, nofun⟩

/-! ## The handler's own steps -/

theorem disabledReason_ne (k : Kind) : disabledReason k ≠ "" := by
  cases k <;> decide

theorem admission_reason_ne (h : s.admission cfg op = .error reason) : reason ≠ "" := by
  unfold Client.admission at h
  have hdisabled : kAuthorizationDisabledReason ≠ "" := by decide
  split_ifs at h
  · exact Except.error.inj h ▸ by decide
  · exact Except.error.inj h ▸ by decide
  · exact Except.error.inj h ▸ hdisabled
  · exact Except.error.inj h ▸ by decide
  · cases hspec : op.spec with
    | none => exact Except.error.inj (hspec ▸ h) ▸ by decide
    | some spec =>
      simp only [hspec] at h
      split_ifs at h
      · exact Except.error.inj h ▸ disabledReason_ne _
      · exact Except.error.inj h ▸ hdisabled

theorem spec_of_admission {spec : OpSpec} (h : s.admission cfg op = .ok spec) :
    op.spec = some spec := by
  unfold Client.admission at h
  split_ifs at h
  cases hspec : op.spec with
  | none =>
    simp only [hspec] at h
    exact nomatch h
  | some spec' =>
    simp only [hspec] at h
    split_ifs at h
    exact congrArg some (Except.ok.inj h)

/-- A rejection in the first region. -/
theorem handled_handleStartOp (hidle : s.server = .idle) :
    (s.handleStartOp cfg op).1.server.Handled op [⟨s, (s.handleStartOp cfg op).1⟩]
      (s.handleStartOp cfg op).2 := by
  have hreject : ∀ {reason}, reason ≠ "" → s.server.Handled op [⟨s, s⟩]
      [.sent (makeAck op.opId false reason) none] := by
    intro reason hr
    rw [hidle]
    exact answered_of_reject _ rfl hr (by simp [HandlerStep.Keeps])
  unfold Client.handleStartOp
  split_ifs
  · exact hreject (by decide)
  · cases had : s.admission cfg op with
    | error reason => exact hreject (admission_reason_ne had)
    | ok spec => exact ⟨rfl, spec_of_admission had, rfl, by simp [HandlerStep.Keeps]⟩

theorem handled_insertStartOp {a : Sched} (r : Represents a t) (hs : t.server = .validating task)
    (hI : (ServerPc.validating task).Handled op own h) :
    (t.insertStartOp cfg task).1.server.Handled op (own ++ [⟨t, (t.insertStartOp cfg task).1⟩])
      (h ++ (t.insertStartOp cfg task).2) := by
  obtain ⟨hop, hspec, hacks, hkeeps⟩ := hI
  have hkeeps' : ∀ {u : Client}, (⟨t, u⟩ : HandlerStep).Keeps →
      ∀ st ∈ own ++ [⟨t, u⟩], st.Keeps := by
    intro u hu st hst
    rcases List.mem_append.mp hst with hst | hst
    · exact hkeeps st hst
    · exact List.mem_singleton.mp hst ▸ hu
  unfold Client.insertStartOp
  cases task.validate cfg.logOptions with
  | some reason =>
    refine answered_of_reject (if reason = "" then "invalid parameters" else reason) ?_ ?_
      (hkeeps' rfl)
    · rw [acks_append, hacks, ← hop]
      rfl
    · split_ifs with hr
      · decide
      · exact hr
  | none =>
    cases hal : isTaskAllowed t.activeFeatures task.kind with
    | false =>
      simp only [Bool.not_false, if_true]
      exact ⟨hop, by rw [acks_append, hacks]; rfl, hkeeps' rfl⟩
    | true =>
      simp only [Bool.not_true, Bool.false_eq_true, if_false]
      have hnew : ∀ u ∈ a.members, u.opId ≠ task.opId := fun u hu heq =>
        (r.validating task hs).2 (heq ▸ List.mem_map_of_mem hu)
      have hentered : ∀ e ∈ t.tasks, e.1 ≠ task.opId := by
        intro e he
        obtain ⟨L, hL, htasks⟩ := r.table
        obtain ⟨u, hu, rfl⟩ := List.mem_map.mp (htasks ▸ he)
        exact hnew u (hL.subset hu)
      refine ⟨hop, by rw [acks_append, hacks]; rfl, own, _, [], task, rfl, hop, hspec, ?_, ?_⟩
      · refine ⟨rfl, ?_, fun hq => ?_, hentered⟩
        · have hfresh : eraseKey task.opId t.tasks = t.tasks :=
            List.filter_eq_self.mpr fun e he => by simpa using hentered e he
          simp only [assignKey, hfresh]
        · exact hnew task (r.holds.mp (.inl hq)) rfl
      · rw [List.append_nil]
        exact hkeeps

theorem handled_ackStartOp (hI : (ServerPc.acking task accepted reason).Handled op own h) :
    (t.ackStartOp task accepted reason).1.server.Handled op
      (own ++ [⟨t, (t.ackStartOp task accepted reason).1⟩])
      (h ++ (t.ackStartOp task accepted reason).2) := by
  have hlast : (⟨t, (t.ackStartOp task accepted reason).1⟩ : HandlerStep).Keeps := rfl
  cases accepted with
  | true =>
    obtain ⟨hop, hacks, pre, st, post, u, rfl, hu, hspec, hadds, hkeeps⟩ := hI
    refine answered_of_accept reason ?_ ?_
    · rw [acks_append, hacks, ← hop]
      rfl
    · refine ⟨pre, st, post ++ [⟨t, (t.ackStartOp task true reason).1⟩], u,
        by rw [List.append_assoc, List.cons_append], hu, hspec, hadds, fun st' hst' => ?_⟩
      rcases List.mem_append.mp (List.append_assoc .. ▸ hst') with hst' | hst'
      · exact hkeeps st' hst'
      · exact List.mem_singleton.mp hst' ▸ hlast
  | false =>
    obtain ⟨hop, hacks, hkeeps⟩ := hI
    refine answered_of_reject
      (if reason = "" then kAuthorizationDisabledReason else reason) ?_ ?_ ?_
    · rw [acks_append, hacks, ← hop]
      simp [Client.ackStartOp, acks, Event.ack, makeAck]
    · split_ifs with hr
      · decide
      · exact hr
    · intro st hst
      rcases List.mem_append.mp hst with hst | hst
      · exact hkeeps st hst
      · exact List.mem_singleton.mp hst ▸ hlast

/-! ## The steps of others -/

theorem step_replies_eq_none (hs : t.server ≠ .idle) (hx : x.replies = true) :
    t.step cfg x = none := by
  have hfree : t.callbackFree = false := by
    rw [Bool.eq_false_iff]
    exact fun hfree => hs (Client.callbackFree_iff.mp hfree).2
  cases x with
  | message | streamReady => simp [Client.step, hfree]
  | _ => simp [Act.replies] at hx

theorem acks_map {α : Type} {f : α → Event} (hf : ∀ a, (f a).ack = none) (l : List α) :
    acks (l.map f) = [] := by
  rw [acks, List.filterMap_map]
  exact List.filterMap_eq_nil_iff.mpr fun a _ => hf a

/-- Nobody else moves the handler on, or sends an ack, while it runs. -/
theorem frame_of_other {a : Sched} (r : Represents a t) (hI : t.server.Handled op own h)
    (hs : t.server ≠ .idle) (hx : ¬ (x = .insertStartOp ∨ x = .ackStartOp))
    (hst : t.step cfg x = some (u, e)) : u.server = t.server ∧ acks e = [] := by
  obtain ⟨a', he, -⟩ := step_sim r hst
  cases he with
  | reply hreplies => exact nomatch (step_replies_eq_none hs hreplies).symm.trans hst
  | invalid | lateReject | accept => exact absurd (.inl rfl) hx
  | ack => exact absurd (.inr rfl) hx
  | pass hidle | cancel hidle | shutdown hidle | streamClosed hidle => exact absurd hidle hs
  | reportCancel hpc | reportShutdown hpc | endShutdown hpc => exact (hpc ▸ hI).elim
  | features => exact ⟨rfl, acks_map (fun _ => rfl) _⟩
  | @send _ _ _ o =>
    refine ⟨rfl, ?_⟩
    cases o <;> rfl
  | _ => exact ⟨rfl, rfl⟩

/-! ## The whole call -/

theorem Handling.reach (r : (client cfg).Reach s h₀) (hh : Handling cfg op s own h t) :
    (client cfg).Reach t (h₀ ++ h) := by
  induction hh with
  | enter hst => exact r.tail (a := .message (.start op) true) trivial hst
  | @own _ _ _ _ _ x _ _ _ hst ih | @other _ _ _ _ _ x _ _ _ hst ih =>
    rw [← List.append_assoc]
    exact ih.tail (a := x) trivial hst

theorem Handling.handled (r : (client cfg).Reach s h₀) (hh : Handling cfg op s own h t) :
    t.server.Handled op own h := by
  induction hh with
  | enter hst =>
    simp only [Client.step, Option.ite_none_right_eq_some, Option.some.injEq,
      Client.callbackFree_iff] at hst
    obtain ⟨⟨-, hidle⟩, heq⟩ := hst
    obtain ⟨rfl, rfl⟩ := Prod.mk.inj heq
    exact handled_handleStartOp hidle
  | @own own h e t u x hh hs hx hst ih =>
    obtain ⟨a, ha⟩ := represents_of_reach (hh.reach r)
    rcases hx with rfl | rfl
    · simp only [Client.step] at hst
      split at hst
      · next task hpc =>
        obtain ⟨rfl, rfl⟩ := Prod.mk.inj (Option.some.inj hst)
        exact handled_insertStartOp ha hpc (hpc ▸ ih)
      · simp at hst
    · simp only [Client.step] at hst
      split at hst
      · next task accepted reason hpc =>
        obtain ⟨rfl, rfl⟩ := Prod.mk.inj (Option.some.inj hst)
        exact handled_ackStartOp (hpc ▸ ih)
      · simp at hst
  | @other own h e t u x hh hs hx hst ih =>
    obtain ⟨a, ha⟩ := represents_of_reach (hh.reach r)
    obtain ⟨hserver, hacks⟩ := frame_of_other ha ih hs hx hst
    have hsame : acks (h ++ e) = acks h := by rw [acks_append, hacks, List.append_nil]
    rw [hserver]
    unfold ServerPc.Handled Answered at ih ⊢
    simpa only [hsame] using ih

theorem insertStartOp_server (cfg : Config) (t : Client) (task : Task) :
    (t.insertStartOp cfg task).1.server = .idle ∨
    ∃ accepted reason, (t.insertStartOp cfg task).1.server = .acking task accepted reason := by
  unfold Client.insertStartOp
  split
  · exact .inl rfl
  · split_ifs
    · exact .inr ⟨_, _, rfl⟩
    · exact .inr ⟨_, _, rfl⟩

theorem Handling.insertStartOp (hh : Handling cfg op s own h t)
    (hpc : t.server = .validating task) :
    ∃ st e, Handling cfg op s (own ++ [st]) (h ++ e) (t.insertStartOp cfg task).1 :=
  ⟨_, _, hh.own (x := .insertStartOp) (by simp [hpc]) (.inl rfl) (by
    simp only [Client.step, hpc]
    rfl)⟩

theorem Handling.ackStartOp (hh : Handling cfg op s own h t)
    (hpc : t.server = .acking task accepted reason) :
    ∃ st e, Handling cfg op s (own ++ [st]) (h ++ e) (t.ackStartOp task accepted reason).1 :=
  ⟨_, _, hh.own (x := .ackStartOp) (by simp [hpc]) (.inr rfl) (by
    simp only [Client.step, hpc]
    rfl)⟩

/-- The handler returns if it goes on, whatever the others have done. -/
theorem Handling.returns (hh : Handling cfg op s own h t) (hI : t.server.Handled op own h) :
    ∃ own' h' u, Handling cfg op s (own ++ own') (h ++ h') u ∧ u.server = .idle := by
  cases hpc : t.server with
  | idle => exact ⟨[], [], t, by simpa using hh, hpc⟩
  | validating task =>
    obtain ⟨st, e, hins⟩ := hh.insertStartOp hpc
    rcases insertStartOp_server cfg t task with hidle | ⟨accepted, reason, hacking⟩
    · exact ⟨_, _, _, hins, hidle⟩
    · obtain ⟨st', e', hack⟩ := hins.ackStartOp hacking
      rw [List.append_assoc, List.append_assoc] at hack
      exact ⟨_, _, _, hack, rfl⟩
  | acking =>
    obtain ⟨st, e, hack⟩ := hh.ackStartOp hpc
    exact ⟨_, _, _, hack, rfl⟩
  | _ => exact (hpc ▸ hI).elim

/-- **Every `StartOp` gets exactly one answer**, and a rejected one changes nothing. -/
theorem startOp_answered (r : (client cfg).Reach s h₀) (hh : Handling cfg op s own h t) :
    (t.server = .idle → Answered op own h) ∧
    ∃ own' h' u, Handling cfg op s (own ++ own') (h ++ h') u ∧ u.server = .idle := by
  have hI := hh.handled r
  exact ⟨fun hidle => by rwa [hidle] at hI, hh.returns hI⟩

def startPcap : StartOp := ⟨1, some (.pcap {})⟩

/-- The authorization is lost between the two regions. -/
theorem startOp_answered_unauthorized : ∃ s h₀ own h t, (client demoConfig).Reach s h₀ ∧
    Handling demoConfig startPcap s own h t ∧
    acks h = [⟨1, false, kAuthorizationDisabledReason⟩] ∧ Answered startPcap own h := by
  have r : (client demoConfig).Reach
      { Client.new demoConfig with running := true, worker := .loopHead } [] :=
    .single (a := .run) trivial rfl
  have h₁ : Handling demoConfig startPcap
      { Client.new demoConfig with running := true, worker := .loopHead } _ _ _ := .enter rfl
  have h₂ := h₁.other (x := .authEvent ⟨.offline⟩) (by decide) (by decide) rfl
  have h₃ := h₂.own (x := .insertStartOp) (by decide) (.inl rfl) rfl
  have h₄ := h₃.own (x := .ackStartOp) (by decide) (.inr rfl) rfl
  exact ⟨_, _, _, _, _, r, h₄, rfl, (startOp_answered r h₄).1 rfl⟩

end Zurg.Control
