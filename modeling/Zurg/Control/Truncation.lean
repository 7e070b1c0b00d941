import Zurg.Control.Reports
import Zurg.Control.HelloFirst

/-!
# Zurg.Control.Truncation — results that a reconnect cuts short

What a task has enqueued is lost when `pending_writes_` is dropped, and what it has written is on a
stream that is over; but the task goes on.  So an `OpEof` written successfully comes after all data
of its operation exactly if the pending writes were not dropped between the first `OpData` and the
`OpEof` (`untruncated_iff`).

Of the control client this needs that a task ends once (`Effect.eofs_le`): a task that has sent data
either still has its end to send and is in work, or is spent.
-/

namespace Zurg.Control

open Proto Lib ControlStream

variable {cfg : Config} {s : Client} {h : List Event} {t : Task}

/-! ## Tasks end once -/

/-- How often `t` may still send an `OpEof`. -/
def Client.unended (s : Client) (t : Task) : ℕ := s.taskQueue.count (some t) + s.worker.owed t

/-- **Ends of one step.** -/
theorem Effect.eofs_le {a a' : Sched} {x : Act} {s' : Client} {e : List Event}
    (r : Represents a s) (he : Effect cfg a s x s' e a') (t : Task) :
    sentFor AgentToServer.isEof t e + s'.unended t ≤ s.unended t + e.count (.accepted t) := by
  have hq := count_queue r t
  cases he with
  | reply hx hm => simp
  | run hw => simp [Client.unended, hw, WorkerPc.owed]
  | idleWorker hx hc hw hr hn =>
    have := WorkerPc.owed_idle t (hc ▸ r.worker)
    simp [Client.unended, WorkerPc.owed_idle t hr, this]
  | @accept u tasks hu hs hal =>
    simp [Client.unended, List.count_cons, List.count_append]
    omega
  | ack hs => simp [Client.unended, makeAck, AgentToServer.isEof]
  | @cancel u tasks hs hu =>
    have := (List.erase_sublist (a := some u) (l := s.taskQueue)).count_le (some t)
    simp [Client.unended, this]
  | reportCancel | reportShutdown | reportUnauthorized =>
    simp [Client.unended, sendErrorFor, AgentToServer.isEof]
  | @shutdown tasks cancelled again hs hc hp =>
    simp [Client.unended]
  | @streamClosed tasks cancelled reported hs hc hp =>
    simp [Client.unended, sentFor_append, AgentToServer.isEof]
  | @features event tasks cancelled ha hc =>
    have hmap := List.count_map_of_injective (a.queue.filter
      fun u => isTaskAllowed (Client.featuresFor cfg event.state) u.kind) some
      (fun _ _ => Option.some.inj) t
    have := (List.filter_sublist (p := fun u : Task =>
      isTaskAllowed (Client.featuresFor cfg event.state) u.kind) (l := a.queue)).count_le t
    simp [Client.unended, hmap, hq, this]
  | @take u rest hc hq' hw =>
    have hmap := List.count_map_of_injective rest some (fun _ _ => Option.some.inj) t
    simp [Client.unended, hw, WorkerPc.owed, hq, hq', hmap, List.count_cons]
  | @send u d f o hw hf =>
    cases f with
    | true =>
      have hm : (o.message u.opId).isEof = false := by
        cases o <;> first | rfl | exact absurd (hf rfl) (by simp)
      simp [Client.unended, hw, WorkerPc.owed, hm]
    | false =>
      cases o <;>
        simp [Client.unended, hw, WorkerPc.owed, TaskOutput.message, AgentToServer.isEof,
          AgentToServer.isTerminal] <;> omega
  | @finish u d tasks hw => simp [Client.unended, hw, WorkerPc.owed]
  | _ => simp [Client.unended]

/-- `t` has been accepted and will not end any more. -/
def Client.Spent (s : Client) (h : List Event) (t : Task) : Prop :=
  .accepted t ∈ h ∧ s.unended t = 0

theorem spent_step {a a' : Sched} {x : Act} {s' : Client} {e : List Event}
    (ha : Represents a s) (he : Effect cfg a s x s' e a') (honce : AcceptedOnce s' (h ++ e))
    (ht : s.Spent h t) : s'.Spent (h ++ e) t ∧ sentFor AgentToServer.isEof t e = 0 := by
  have hle := he.eofs_le ha t
  have hone := honce.once t
  have hpos : 0 < h.count (.accepted t) := List.count_pos_iff.mpr ht.1
  rw [List.count_append] at hone
  have h0 := ht.2
  exact ⟨⟨List.mem_append_left e ht.1, by omega⟩, by omega⟩

/-- What has become of a task that has sent data. -/
structure DataInv (s : Client) (h : List Event) : Prop where
  ends : ∀ t, sentFor AgentToServer.isEof t h + s.unended t ≤ h.count (.accepted t)
  once : AcceptedOnce s h
  working : ∀ t d f, s.worker = .running (some t) d f → .accepted t ∈ h
  data : ∀ t, 0 < sentFor AgentToServer.isData t h →
    s.Spent h t ∨ s.worker = .running (some t) true false

theorem DataInv.accepted_of_unended (hI : DataInv s h) (ht : 0 < s.unended t) :
    .accepted t ∈ h := by
  have := hI.ends t
  exact List.count_pos_iff.mp (by omega)

theorem dataInv_step {a a' : Sched} {x : Act} {s' : Client} {e : List Event}
    (ha : Represents a s) (hI : DataInv s h) (he : Effect cfg a s x s' e a') :
    DataInv s' (h ++ e) := by
  have hends : ∀ t, sentFor AgentToServer.isEof t (h ++ e) + s'.unended t ≤
      (h ++ e).count (.accepted t) := by
    intro t
    have h₁ := he.eofs_le ha t
    have h₂ := hI.ends t
    rw [sentFor_append, List.count_append]
    omega
  have honce := acceptedOnce_step hI.once he
  have hspent : ∀ t, s.Spent h t → s'.Spent (h ++ e) t := fun t ht =>
    (spent_step ha he honce ht).1
  -- steps that send no data
  have hframe : (∀ t, s.worker = .running (some t) true false →
      s'.worker = .running (some t) true false) →
      (∀ t d f, s'.worker = .running (some t) d f → .accepted t ∈ h) →
      (∀ t, sentFor AgentToServer.isData t e = 0) → DataInv s' (h ++ e) :=
    fun hkeep hwork hdata => ⟨hends, honce, fun t d f hw => List.mem_append_left e (hwork t d f hw),
      fun t ht => by
        rw [sentFor_append, hdata t, Nat.add_zero] at ht
        exact (hI.data t ht).imp (hspent t) (hkeep t)⟩
  cases he with
  | run hw => exact hframe (fun t h => nomatch hw.symm.trans h) (by simp) (by simp)
  | idleWorker hx hc hw hr hn =>
    refine hframe (fun t h => ?_) (fun t d f h => ?_) (by simp)
    · have hrun := ha.worker
      rw [h, hc] at hrun
      exact nomatch hrun.1
    · subst h
      exact nomatch hr.1
  | @take u rest hc hq hw =>
    refine hframe (fun t h => nomatch hw.symm.trans h) (fun t d f h => ?_) (by simp)
    obtain rfl : u = t := Option.some.inj (WorkerPc.running.inj h).1
    refine hI.accepted_of_unended (Nat.add_pos_left ?_ _)
    rw [count_queue ha, hq]
    exact List.count_pos_iff.mpr (by simp)
  | @finish u d tasks hw =>
    exact hframe (fun t h => nomatch hw.symm.trans h) (by simp) (by simp)
  | @send u d f o hw hf =>
    have hacc : .accepted u ∈ h := hI.working u d f hw
    refine ⟨hends, honce, fun t d' f' h => ?_, fun t ht => ?_⟩
    · obtain rfl : u = t := Option.some.inj (WorkerPc.running.inj h).1
      exact List.mem_append_left _ hacc
    · by_cases hut : u = t
      · subst hut
        have hq : s.taskQueue.count (some u) = 0 := by
          have hr := ha.worker
          rw [hw] at hr
          rw [count_queue ha]
          exact List.count_eq_zero.mpr (SerialQueue.current_not_mem_queue hr.1.symm)
        cases hend : f || (o.message u.opId).isTerminal with
        | true =>
          refine .inl ⟨List.mem_append_left _ hacc, ?_⟩
          simp [Client.unended, WorkerPc.owed, hq]
        | false =>
          have hterm := (Bool.or_eq_false_iff.mp hend).2
          have hdata : (o.message u.opId).isData = true := by rw [TaskOutput.isData_eq, hterm]; rfl
          exact .inr (by rw [hdata, Bool.or_true])
      · rw [sentFor_append, sentFor_sent] at ht
        have h0 : [u].count t = 0 := by simp [hut]
        rw [h0, ite_self, Nat.add_zero] at ht
        refine (hI.data t ht).imp (hspent t) fun h => ?_
        exact absurd (Option.some.inj (WorkerPc.running.inj (hw.symm.trans h)).1) hut
  | _ =>
    exact hframe (fun _ => id) hI.working
      (by simp [sendErrorFor, sentFor_append, makeAck, AgentToServer.isData])

theorem dataInv_of_reach (r : (client cfg).Reach s h) : DataInv s h :=
  invariant_of_effects (I := DataInv)
    ⟨fun _ => Nat.le_refl 0, acceptedOnce_new, by simp [Client.new], by simp⟩
    (fun ha hI _ he => dataInv_step ha hI he) r

/-! ## What is enqueued was sent -/

section Results

variable {s s' : Connected} {x : ConnectedAct} {H e : List ConnectedEvent} {q : Outgoing → Bool}

/-- `q` holds of data and ends of operations only. -/
def OfResults (q : Outgoing → Bool) : Prop :=
  ∀ m, q m = true → m.1.isData = true ∨ m.1.isEof = true

theorem ofResults_data (t : Task) : OfResults (isFor AgentToServer.isData t) := fun _ hm =>
  .inl (Bool.and_eq_true_iff.mp hm).1

theorem ofResults_eof (t : Task) : OfResults (isFor AgentToServer.isEof t) := fun _ hm =>
  .inr (Bool.and_eq_true_iff.mp hm).1

/-- The closed callback sends errors only. -/
def Connected.ClosingErrors (s : Connected) : Prop :=
  ∀ ms, s.closing = some ms → ∀ m ∈ ms, ∃ opId code message, m.1 = .error opId code message

theorem OfResults.error (hq : OfResults q) {m : Outgoing}
    (hm : ∃ opId code message, m.1 = .error opId code message) : q m = false := by
  obtain ⟨opId, code, message, hm⟩ := hm
  refine Bool.eq_false_iff.mpr fun h => ?_
  rcases hq m h with h | h <;> rw [hm] at h <;> exact nomatch h

theorem closingErrors_step (hI : s.ClosingErrors) (hst : s.step cfg x = some (s', e)) :
    s'.ClosingErrors := by
  rcases step_closing hst with hc | hc | ⟨c, es, hes, hc⟩ | ⟨m, ms, hms, hc⟩
  · exact fun ms hms => hI ms (hc ▸ hms)
  · exact fun ms hms => nomatch hc.symm.trans hms
  · rintro ms hms m hm
    obtain rfl := Option.some.inj (hc.symm.trans hms)
    simp only [Client.step, Option.ite_none_right_eq_some, Option.some.injEq,
      Client.cancelAllLocked, Prod.mk.injEq] at hes
    rw [← hes.2.2, sends_append, sends_map_removed, List.nil_append, sends_map_sendErrorFor] at hm
    obtain ⟨u, -, rfl⟩ := List.mem_map.mp hm
    exact ⟨_, _, _, rfl⟩
  · rintro ms' hms' n hn
    obtain rfl := Option.some.inj (hc.symm.trans hms')
    exact hI _ hms n (List.mem_cons_of_mem m hn)

theorem countP_posts_le (hq : OfResults q) (hI : s.ClosingErrors)
    (hst : s.step cfg x = some (s', e)) :
    (s.posts cfg x).countP q ≤ (sends (e.filterMap ConnectedEvent.client?)).countP q := by
  have hzero : ∀ {ms : List Outgoing}, (∀ m ∈ ms, q m = false) → ms.countP q ≤
      (sends (e.filterMap ConnectedEvent.client?)).countP q := by
    intro ms hms
    rw [List.countP_eq_zero.mpr fun m hm => by simp [hms m hm]]
    exact Nat.zero_le _
  cases x with
  | client y => exact Nat.le_of_eq (congrArg _ (posts_client hst))
  | ready =>
    refine hzero fun m hm => ?_
    obtain rfl := List.mem_singleton.mp hm
    refine Bool.eq_false_iff.mpr fun h => ?_
    rcases hq _ h with h | h <;> simp [makeHello, AgentToServer.isData, AgentToServer.isEof] at h
  | sendClosing =>
    refine hzero fun m hm => ?_
    simp only [Connected.posts] at hm
    split at hm
    · rename_i m' ms hc
      obtain rfl := List.mem_singleton.mp hm
      exact hq.error (hI _ hc m (by simp))
    · simp at hm
  | closed | stream => exact hzero fun m hm => absurd hm List.not_mem_nil

/-- Data and ends that are enqueued have been sent. -/
structure ResultsInv (s : Connected) (H : List ConnectedEvent) : Prop where
  closing : s.ClosingErrors
  sent : ∀ q, OfResults q → (enqueues (H.filterMap ConnectedEvent.stream?)).countP q ≤
    (sends (H.filterMap ConnectedEvent.client?)).countP q

theorem resultsInv_of_reach (r : (connected cfg).Reach s H) : ResultsInv s H := by
  refine Machine.Run.invariant (I := ResultsInv) ?_ ?_ r
  · exact ⟨fun ms h => (nomatch h), fun _ _ => Nat.le_refl 0⟩
  · intro s H x s' e _ hI _ hst
    refine ⟨closingErrors_step hI.closing hst, fun q hq => ?_⟩
    rw [List.filterMap_append, List.filterMap_append, enqueues_append, sends_append,
      List.countP_append, List.countP_append, (partsStep_any hst).posted]
    exact Nat.add_le_add (hI.sent q hq) (countP_posts_le hq hI.closing hst)

end Results

/-! ## Cuts -/

section Cuts

variable {s s' : Connected} {x : ConnectedAct} {H e : List ConnectedEvent} {q : Outgoing → Bool}

/-- The worker is in a task that has sent data and not its end. -/
def WorkerPc.midData : WorkerPc → Bool
  | .running (some _) true false => true
  | _ => false

/-- The pending writes are not dropped while a task is sending its data. -/
def CutSafe (s : Connected) (x : ConnectedAct) : Prop :=
  x = .stream .closeClear ∨ x = .stream (.writeDone false) → s.client.worker.midData = false

instance (s : Connected) (x : ConnectedAct) : Decidable (CutSafe s x) :=
  inferInstanceAs (Decidable (_ → _))

/-- No task ends that had enqueued data when the pending writes were dropped. -/
def Uncut : List (StreamEvent Outgoing) → Prop :=
  Always fun pre x => ∀ t m, x = .enqueued m → isFor AgentToServer.isEof t m = true →
    ¬ Dropped (isFor AgentToServer.isData t) pre

theorem dropped_append {h e : List (StreamEvent Outgoing)} (hd : Dropped q (h ++ e)) :
    Dropped q h ∨ .cleared ∈ e ∧ ∃ d ∈ enqueues (h ++ e), q d = true := by
  obtain ⟨g₀, g₁, hg, d, hd, hq⟩ := hd
  rcases List.append_eq_append_iff.mp hg with ⟨b, hb, he⟩ | ⟨b, hb, he⟩
  · refine .inr ⟨by simp [he], d, ?_, hq⟩
    rw [hg, enqueues_append]
    exact List.mem_append_left _ hd
  · cases b with
    | nil =>
      refine .inr ⟨?_, d, ?_, hq⟩
      · rw [List.nil_append] at he
        simp [← he]
      rw [hg, enqueues_append]
      exact List.mem_append_left _ hd
    | cons v b =>
      obtain ⟨rfl, -⟩ := List.cons.inj he
      exact .inl ⟨g₀, b, hb, d, hd, hq⟩

/-- Only two steps of the stream client drop the pending writes. -/
theorem not_cleared_of_steps {s t : StreamClient Outgoing} {h : List (StreamEvent Outgoing)}
    (r : (streamClient Outgoing).Steps (fun _ y => y ≠ .closeClear ∧ y ≠ .writeDone false) s t h) :
    .cleared ∉ h := by
  induction r with
  | refl => exact List.not_mem_nil
  | tail _ hc hst ih =>
    obtain ⟨u, e₁, e₂, hm, hs, rfl⟩ := step_moves hst
    have h₂ : .cleared ∉ e₂ := by cases hs <;> simp
    have h₁ : .cleared ∉ e₁ := by
      cases hm with
      | closeClear => exact absurd rfl hc.1
      | failed => exact absurd rfl hc.2
      | _ => simp
    simp [ih, h₁, h₂]

theorem cut_of_cleared (hst : s.step cfg x = some (s', e))
    (hc : .cleared ∈ e.filterMap ConnectedEvent.stream?) :
    x = .stream .closeClear ∨ x = .stream (.writeDone false) := by
  by_contra hx
  rw [not_or] at hx
  refine not_cleared_of_steps (partsStep (P := fun _ _ => True) ?_ (fun _ _ _ _ => trivial) ?_ hst
    (fun _ _ => trivial) ?_).stream hc
  · exact fun _ _ _ => ⟨by simp, by simp⟩
  · exact fun _ => ⟨by simp, by simp⟩
  · rintro y rfl
    exact ⟨fun h => hx.1 (h ▸ rfl), fun h => hx.2 (h ▸ rfl)⟩

theorem posts_of_cut (hx : x = .stream .closeClear ∨ x = .stream (.writeDone false)) :
    s.posts cfg x = [] := by
  rcases hx with rfl | rfl <;> rfl

/-- A spent task stays so, whatever the client and its stream client do. -/
theorem spent_connected (r : (connected cfg).Reach s H) (hst : s.step cfg x = some (s', e))
    (ht : s.client.Spent (H.filterMap ConnectedEvent.client?) t) :
    s'.client.Spent ((H ++ e).filterMap ConnectedEvent.client?) t ∧
      sentFor AgentToServer.isEof t (e.filterMap ConnectedEvent.client?) = 0 := by
  rw [List.filterMap_append]
  rcases (partsStep_any hst).client with ⟨hc, he⟩ | ⟨y, hy⟩
  · rw [hc, he, List.append_nil]
    exact ⟨ht, rfl⟩
  · have hr := client_of_connected r
    obtain ⟨a, ha⟩ := represents_of_reach hr
    obtain ⟨a', he, -⟩ := step_sim ha hy
    exact spent_step ha he (acceptedOnce_step (acceptedOnce_of_reach hr) he) ht

structure CutInv (s : Connected) (H : List ConnectedEvent) : Prop where
  spent : ∀ t, Dropped (isFor AgentToServer.isData t) (H.filterMap ConnectedEvent.stream?) →
    s.client.Spent (H.filterMap ConnectedEvent.client?) t
  uncut : Uncut (H.filterMap ConnectedEvent.stream?)

/-- A task with enqueued data is spent when a safe cut comes. -/
theorem spent_of_cutSafe (r : (connected cfg).Reach s H) (hC : CutSafe s x)
    (hx : x = .stream .closeClear ∨ x = .stream (.writeDone false))
    (hd : ∃ d ∈ enqueues (H.filterMap ConnectedEvent.stream?),
      isFor AgentToServer.isData t d = true) :
    s.client.Spent (H.filterMap ConnectedEvent.client?) t := by
  have hpos := List.countP_pos_iff.mpr hd
  have hle := (resultsInv_of_reach r).sent _ (ofResults_data t)
  have hdata := (dataInv_of_reach (client_of_connected r)).data t (Nat.lt_of_lt_of_le hpos hle)
  refine hdata.resolve_right fun hw => ?_
  have hmid := hC hx
  rw [hw] at hmid
  exact nomatch hmid

theorem cutInv_step (r : (connected cfg).Reach s H) (hI : CutInv s H) (hC : CutSafe s x)
    (hst : s.step cfg x = some (s', e)) : CutInv s' (H ++ e) := by
  have hposted := (partsStep_any hst).posted
  have hspent : ∀ t, Dropped (isFor AgentToServer.isData t)
      ((H ++ e).filterMap ConnectedEvent.stream?) →
      s.client.Spent (H.filterMap ConnectedEvent.client?) t := by
    intro t hd
    rw [List.filterMap_append] at hd
    rcases dropped_append hd with hd | ⟨hc, hd⟩
    · exact hI.spent t hd
    · have hx := cut_of_cleared hst hc
      rw [enqueues_append, hposted, posts_of_cut hx, List.append_nil] at hd
      exact spent_of_cutSafe r hC hx hd
  refine ⟨fun t hd => (spent_connected r hst (hspent t hd)).1, ?_⟩
  rw [List.filterMap_append]
  refine hI.uncut.append ?_
  rintro pre _ post heq t m rfl hm hd
  have hmem : m ∈ s.posts cfg x := by
    rw [← hposted, mem_enqueues, heq]
    simp
  rcases dropped_append hd with hd | ⟨hc, -⟩
  · have hnone := (spent_connected r hst (hI.spent t hd)).2
    have hle := countP_posts_le (ofResults_eof t) (resultsInv_of_reach r).closing hst
    have hpos := List.countP_pos_iff.mpr ⟨m, hmem, hm⟩
    rw [sentFor] at hnone
    omega
  · have hx := cut_of_cleared hst (by rw [heq]; exact List.mem_append_left _ hc)
    rw [posts_of_cut hx] at hmem
    exact absurd hmem List.not_mem_nil

theorem cutInv_of_run (r : (connected cfg).Run CutSafe s H) : CutInv s H := by
  refine Machine.Run.invariant (I := CutInv) ⟨fun t hd => ?_, .nil⟩ ?_ r
  · obtain ⟨g₀, g₁, hg, -⟩ := hd
    exact absurd hg (by simp)
  · exact fun hr hI hC hst => cutInv_step hr.reach hI hC hst

/-! ## Results are complete -/

/-- When an `OpEof` is written, all data sent before it has been written on the same stream. -/
def Untruncated : List (StreamEvent Outgoing) → Prop :=
  Always fun pre x => ∀ k m t, x = .writeDone k m true → isFor AgentToServer.isEof t m = true →
    Complete (isFor AgentToServer.isData t) k m pre

/-- When an `OpEof` is written, it was enqueued with no data dropped. -/
def WrittenUncut : List (StreamEvent Outgoing) → Prop :=
  Always fun pre x => ∀ k m t, x = .writeDone k m true → isFor AgentToServer.isEof t m = true →
    ∀ p₁ p₂, pre = p₁ ++ .enqueued m :: p₂ → ¬ Dropped (isFor AgentToServer.isData t) p₁

/-- An end of a task is enqueued once. -/
theorem count_eof_le (r : (connected cfg).Reach s H) {m : Outgoing}
    (hm : isFor AgentToServer.isEof t m = true) :
    (enqueues (H.filterMap ConnectedEvent.stream?)).count m ≤ 1 := by
  have hI := dataInv_of_reach (client_of_connected r)
  have hle := (resultsInv_of_reach r).sent _ (ofResults_eof t)
  have hends := hI.ends t
  have honce := hI.once.once t
  rw [sentFor] at hends
  have hcount : (enqueues (H.filterMap ConnectedEvent.stream?)).count m ≤
      (enqueues (H.filterMap ConnectedEvent.stream?)).countP (isFor AgentToServer.isEof t) := by
    refine List.countP_mono_left fun m' _ h => ?_
    rw [beq_iff_eq.mp h]
    exact hm
  omega

theorem complete_written_iff (r : (connected cfg).Reach s H)
    {pre post : List (StreamEvent Outgoing)} {k : ℕ} {m : Outgoing}
    (heq : H.filterMap ConnectedEvent.stream? = pre ++ .writeDone k m true :: post)
    (hm : isFor AgentToServer.isEof t m = true) :
    Complete (isFor AgentToServer.isData t) k m pre ↔
      ∀ p₁ p₂, pre = p₁ ++ .enqueued m :: p₂ → ¬ Dropped (isFor AgentToServer.isData t) p₁ := by
  have hD := delivered_of_reach (stream_of_connected r)
  have hone := count_eof_le r hm
  rw [heq] at hD hone
  rw [List.append_cons] at hD
  refine complete_iff hD.of_append ?_
  rw [enqueues_append, List.count_append] at hone
  omega

end Cuts

/-- What the log filter sends for two chunks. -/
def twoChunks : List TaskOutput := logFilterRun [⟨0, [1]⟩, ⟨1, [2]⟩] (.ok {})

/-- The task sends `o`, and it is written. -/
def sendWritten (o : TaskOutput) : List ConnectedAct :=
  [.client (.taskSend o), .stream (.writeDone true)]

/-- An operation whose first `n` messages go to the first stream and the others to the second. -/
def reconnectAfter (n : ℕ) : List ConnectedAct :=
  .client .run :: openStream ++ acceptOperation ++ [.client .workerCheck, .client .workerTake] ++
    (twoChunks.take n).flatMap sendWritten ++ closeStream ++ openStream ++
    (twoChunks.drop n).flatMap sendWritten

end Zurg.Control
