import Zurg.ControlStream.Client

/-!
# Zurg.ControlStream.Moves — what a step of the stream client does

A step is one `Move`, which depends on the action, and then at most one start of a write
(`step_moves`).  Both keep `StreamInv`; `invariant_of_moves` is the rule by which everything about
the runs of the stream client is proved.
-/

namespace Zurg.ControlStream

open Lib

variable {μ : Type} {s s' : StreamClient μ} {x : StreamAct μ} {h e : List (StreamEvent μ)}

/-- The first part of the step `x`. -/
inductive Move (s : StreamClient μ) :
    StreamAct μ → StreamClient μ → List (StreamEvent μ) → Prop
  | push (m : μ) : Move s (.enqueueWrite m)
      { s with pendingWrites := s.pendingWrites ++ [m] } [.enqueued m]
  | connect : s.run = .loopHead → Move s .connect
      { s with
        reactor := some (s.streams + 1)
        streams := s.streams + 1
        run := .installed
        call := .notStarted
        outstanding := none
        failed := false
        wrote := false } []
  | startCall : s.run = .installed → Move s .startCall { s with run := .called, call := .active } []
  | setReactor : s.run = .called → Move s .setReactor
      { s with reactor := some s.streams, run := .reactorSet } []
  | readyReturn : s.run = .reactorSet → Move s .readyReturn { s with run := .readied } []
  | kick : s.run = .readied → Move s .kick { s with run := .waiting } []
  | written {m : μ} : s.outstanding = some m → s.call = .active → s.failed = false →
      Move s (.writeDone true)
        { s with writeInFlight := false, currentWrite := none, outstanding := none }
        [.writeDone s.streams m true]
  | failed {m : μ} : s.outstanding = some m → s.call = .active →
      Move s (.writeDone false)
        { s with
          writeInFlight := false
          currentWrite := none
          pendingWrites := []
          outstanding := none
          failed := true }
        [.writeDone s.streams m false, .cleared]
  | closeClear : s.call = .active → s.outstanding = none →
      Move s .closeClear
        { s with
          writeInFlight := false
          currentWrite := none
          pendingWrites := []
          call := .cleared }
        [.cleared]
  | closeDetach : s.call = .cleared →
      Move s .closeDetach { s with reactor := none, call := .detached } []
  | closeReturn : s.call = .detached → Move s .closeReturn { s with call := .calledBack } []
  | closeDone : s.call = .calledBack → Move s .closeDone { s with call := .done } []
  | waitReturn {r : Option ℕ} : s.run = .waiting → s.call = .done →
      (r = none ∨ r = s.reactor) →
      Move s .waitReturn { s with reactor := r, run := .loopHead } []

/-- The state once the write `m` is started. -/
def StreamClient.started (s : StreamClient μ) (m : μ) (rest : List μ) : StreamClient μ :=
  { s with
    currentWrite := some m
    pendingWrites := rest
    writeInFlight := true
    outstanding := some m
    wrote := true }

/-- At most one write is started. -/
inductive Start (s : StreamClient μ) : StreamClient μ → List (StreamEvent μ) → Prop
  | nothing : Start s s []
  | start {k : ℕ} {m : μ} {rest : List μ} : s.writeInFlight = false →
      s.pendingWrites = m :: rest → s.reactor = some k →
      Start s (s.started m rest) [.startWrite k m]

theorem start_maybeStartWriteLocked (s : StreamClient μ) :
    Start s s.maybeStartWriteLocked.1 s.maybeStartWriteLocked.2 := by
  unfold StreamClient.maybeStartWriteLocked
  split_ifs with hf
  · exact .nothing
  · cases hp : s.pendingWrites with
    | nil => exact .nothing
    | cons m rest =>
      cases hr : s.reactor with
      | none => exact .nothing
      | some k =>
        have hs := Start.start (by simpa using hf) hp hr
        rw [StreamClient.started, hr] at hs
        exact hs

/-- **A step is a move and then at most one start.** -/
theorem step_moves (hst : s.step x = some (s', e)) :
    ∃ t e₁ e₂, Move s x t e₁ ∧ Start t s' e₂ ∧ e = e₁ ++ e₂ := by
  have hmove : ∀ {t e₁}, Move s x t e₁ → some (t, e₁) = some (s', e) →
      ∃ t e₁ e₂, Move s x t e₁ ∧ Start t s' e₂ ∧ e = e₁ ++ e₂ := by
    intro t e₁ hm heq
    obtain ⟨rfl, rfl⟩ := Prod.mk.inj (Option.some.inj heq)
    exact ⟨_, _, [], hm, .nothing, (List.append_nil _).symm⟩
  have hstart : ∀ {t : StreamClient μ} {e₁}, Move s x t e₁ →
      some (t.maybeStartWriteLocked.1, e₁ ++ t.maybeStartWriteLocked.2) = some (s', e) →
      ∃ t e₁ e₂, Move s x t e₁ ∧ Start t s' e₂ ∧ e = e₁ ++ e₂ := by
    intro t e₁ hm heq
    obtain ⟨rfl, rfl⟩ := Prod.mk.inj (Option.some.inj heq)
    exact ⟨t, e₁, _, hm, start_maybeStartWriteLocked t, rfl⟩
  cases x with
  | enqueueWrite m => exact hstart (.push m) hst
  | kick =>
    simp only [StreamClient.step, Option.ite_none_right_eq_some] at hst
    exact hstart (.kick hst.1) hst.2
  | writeDone ok =>
    cases ho : s.outstanding with
    | none => simp [StreamClient.step, ho] at hst
    | some m =>
      simp only [StreamClient.step, ho, Option.ite_none_right_eq_some] at hst
      obtain ⟨⟨hc, hf⟩, hst⟩ := hst
      cases ok with
      | true =>
        refine hstart (.written ho hc (hf rfl)) ?_
        simpa only [StreamClient.onWriteFinished, Bool.not_true, Bool.or_false, if_true,
          List.nil_append, List.cons_append] using hst
      | false =>
        refine hstart (.failed ho hc) ?_
        simpa only [StreamClient.onWriteFinished, Bool.not_false, Bool.or_true,
          Bool.false_eq_true, if_false, List.cons_append, List.nil_append] using hst
  | connect | startCall | setReactor | readyReturn | closeDetach | closeReturn | closeDone =>
    simp only [StreamClient.step, Option.ite_none_right_eq_some] at hst
    exact hmove (by constructor; exact hst.1) hst.2
  | closeClear =>
    simp only [StreamClient.step, Option.ite_none_right_eq_some] at hst
    exact hmove (.closeClear hst.1.1 (by simpa using hst.1.2)) hst.2
  | waitReturn =>
    simp only [StreamClient.step, Option.ite_none_right_eq_some] at hst
    refine hmove (.waitReturn hst.1.1 hst.1.2 ?_) hst.2
    split_ifs
    · exact .inl rfl
    · exact .inr rfl

/-- **Invariants by moves.** -/
theorem invariant_of_moves {C : StreamClient μ → StreamAct μ → Prop}
    {I : StreamClient μ → List (StreamEvent μ) → Prop} (h0 : I {} [])
    (hm : ∀ {s h x t e}, I s h → C s x → Move s x t e → I t (h ++ e))
    (hs : ∀ {s h t e}, I s h → Start s t e → I t (h ++ e))
    (r : (streamClient μ).Run C s h) : I s h := by
  refine Machine.Run.invariant h0 ?_ r
  intro s h x s' e _ hI hC hst
  obtain ⟨t, e₁, e₂, hmove, hstart, rfl⟩ := step_moves hst
  rw [← List.append_assoc]
  exact hs (hm hI hC hmove) hstart

/-! ## The invariant of the stream client -/

structure StreamInv (s : StreamClient μ) : Prop where
  reactor : ∀ k, s.reactor = some k → k = s.streams
  inFlight : s.writeInFlight = s.currentWrite.isSome
  /-- What gRPC has to answer is the current write. -/
  outstanding : ∀ m, s.outstanding = some m → s.currentWrite = some m ∧ s.wrote = true
  /-- `Run` leaves the body of its loop when the stream is done. -/
  loopHead : s.run = .loopHead → s.call = .done
  installed : s.run = .installed → s.call = .notStarted
  started : s.call = .notStarted → s.run = .installed

theorem streamInv_move {t : StreamClient μ} (hI : StreamInv s) (hm : Move s x t e) :
    StreamInv t := by
  cases hm with
  | push => exact ⟨hI.reactor, hI.inFlight, hI.outstanding, hI.loopHead, hI.installed, hI.started⟩
  | connect hr =>
    exact ⟨fun k hk => (Option.some.inj hk).symm, hI.inFlight, nofun, nofun, fun _ => rfl,
      fun _ => rfl⟩
  | startCall hr => exact ⟨hI.reactor, hI.inFlight, hI.outstanding, nofun, nofun, nofun⟩
  | setReactor hr =>
    refine ⟨fun k hk => (Option.some.inj hk).symm, hI.inFlight, hI.outstanding, nofun, nofun,
      fun hc => ?_⟩
    exact nomatch hr.symm.trans (hI.started hc)
  | readyReturn hr =>
    refine ⟨hI.reactor, hI.inFlight, hI.outstanding, nofun, nofun, fun hc => ?_⟩
    exact nomatch hr.symm.trans (hI.started hc)
  | kick hr =>
    refine ⟨hI.reactor, hI.inFlight, hI.outstanding, nofun, nofun, fun hc => ?_⟩
    exact nomatch hr.symm.trans (hI.started hc)
  | written | failed => exact ⟨hI.reactor, rfl, nofun, hI.loopHead, hI.installed, hI.started⟩
  | closeClear hc ho =>
    refine ⟨hI.reactor, rfl, fun m hm => (nomatch ho.symm.trans hm), fun hr => ?_, fun hr => ?_,
      nofun⟩
    · exact nomatch hc.symm.trans (hI.loopHead hr)
    · exact nomatch hc.symm.trans (hI.installed hr)
  | closeDetach hc =>
    refine ⟨nofun, hI.inFlight, hI.outstanding, fun hr => ?_, fun hr => ?_, nofun⟩
    · exact nomatch hc.symm.trans (hI.loopHead hr)
    · exact nomatch hc.symm.trans (hI.installed hr)
  | closeReturn hc =>
    refine ⟨hI.reactor, hI.inFlight, hI.outstanding, fun hr => ?_, fun hr => ?_, nofun⟩
    · exact nomatch hc.symm.trans (hI.loopHead hr)
    · exact nomatch hc.symm.trans (hI.installed hr)
  | closeDone hc =>
    refine ⟨hI.reactor, hI.inFlight, hI.outstanding, fun _ => rfl, fun hr => ?_, nofun⟩
    exact nomatch hc.symm.trans (hI.installed hr)
  | waitReturn hr hc hrr =>
    refine ⟨fun k hk => ?_, hI.inFlight, hI.outstanding, fun _ => hc, nofun, fun h => ?_⟩
    · rcases hrr with rfl | rfl
      · exact nomatch hk
      · exact hI.reactor k hk
    · exact nomatch hc.symm.trans h

theorem streamInv_start {t : StreamClient μ} (hI : StreamInv s) (hs : Start s t e) :
    StreamInv t := by
  cases hs with
  | nothing => exact hI
  | start hf hp hr =>
    exact ⟨hI.reactor, rfl, fun m hm => ⟨hm, rfl⟩, hI.loopHead, hI.installed, hI.started⟩

theorem StreamInv.init : StreamInv ({} : StreamClient μ) :=
  ⟨nofun, rfl, nofun, fun _ => rfl, nofun, nofun⟩

/-! ## Streams that are not closed, and their writes -/

/-- The state of the writes has not been reset for the latest stream. -/
def StreamClient.Live (s : StreamClient μ) : Prop := s.call = .notStarted ∨ s.call = .active

/-- Neither a write in flight nor its message. -/
def StreamClient.NoWrite (s : StreamClient μ) : Prop :=
  s.writeInFlight = false ∧ s.currentWrite = none

instance (s : StreamClient μ) : Decidable s.Live := inferInstanceAs (Decidable (_ ∨ _))

/-- The actions that end in `MaybeStartWriteLocked`. -/
def StreamAct.mayStart : StreamAct μ → Bool
  | .enqueueWrite _ | .kick | .writeDone _ => true
  | _ => false

theorem mayStart_of_startWrite {k : ℕ} {m : μ} (hst : s.step x = some (s', e))
    (he : .startWrite k m ∈ e) : x.mayStart = true := by
  cases x with
  | enqueueWrite | kick | writeDone => rfl
  | _ =>
    simp only [StreamClient.step, Option.ite_none_right_eq_some, Option.some.injEq,
      Prod.mk.injEq] at hst
    simp [← hst.2.2] at he

theorem Start.live_iff {t : StreamClient μ} (hs : Start s t e) : t.Live ↔ s.Live := by
  cases hs <;> exact Iff.rfl

end Zurg.ControlStream
