import Zurg.ControlStream.Delivery

/-!
# Zurg.ControlStream.SendQueue — what becomes of the pending writes while a stream lives

From the moment `Run` installs a stream until `OnStreamClosed`, and as long as every write succeeds,
`pending_writes_` is a FIFO queue into the stream: what is started and what is pending is what was
pending and what has been enqueued since.  Once `OnStreamReady` has returned it never stalls.  A
failed write drops what is pending, nothing else, and the queue begins anew.
-/

namespace Zurg.ControlStream

open Lib

variable {μ : Type} {s s₀ s₁ s' t : StreamClient μ} {x : StreamAct μ} {h e : List (StreamEvent μ)}

def StreamEvent.startedMsg (k : ℕ) : StreamEvent μ → Option μ
  | .startWrite j m => if j = k then some m else none
  | _ => none

/-- The messages passed to `StartWrite` on stream `k`. -/
def started (k : ℕ) (h : List (StreamEvent μ)) : List μ := h.filterMap (StreamEvent.startedMsg k)

theorem started_append (k : ℕ) (h h' : List (StreamEvent μ)) :
    started k (h ++ h') = started k h ++ started k h' := List.filterMap_append

@[simp] theorem started_startWrite (k : ℕ) (m : μ) : started k [.startWrite k m] = [m] := by
  simp [started, StreamEvent.startedMsg]

/-- The stream is not closed, and no write fails. -/
def Undisturbed (_ : StreamClient μ) : StreamAct μ → Prop
  | .closeClear => False
  | .writeDone ok => ok = true
  | _ => True

instance (s : StreamClient μ) : ∀ x, Decidable (Undisturbed s x)
  | .closeClear => inferInstanceAs (Decidable False)
  | .writeDone _ => inferInstanceAs (Decidable (_ = true))
  | .enqueueWrite _ | .connect | .startCall | .setReactor | .readyReturn | .kick | .closeDetach
  | .closeReturn | .closeDone | .waitReturn => inferInstanceAs (Decidable True)

/-- `reactor_` is the latest stream, which has not been closed. -/
structure StreamClient.Open (s : StreamClient μ) : Prop where
  live : s.Live
  reactor : s.reactor = some s.streams
  running : s.run ≠ .loopHead

/-- Nothing is left pending without a write in flight. -/
def StreamClient.Busy (s : StreamClient μ) : Prop :=
  s.writeInFlight = false → s.pendingWrites = []

/-- `given` and what has been enqueued since has gone into the open stream `k`, or waits to. -/
structure Backlog (k : ℕ) (given : List μ) (s : StreamClient μ) (h : List (StreamEvent μ)) :
    Prop where
  stream : s.streams = k
  isOpen : s.Open
  fifo : started k h ++ s.pendingWrites = given ++ enqueues h
  /-- From the return of `OnStreamReady` on. -/
  busy : s.run = .waiting → s.Busy

variable {k : ℕ} {given : List μ}

/-! ## One step -/

theorem Move.isOpen (hO : s.Open) (hC : Undisturbed s x) (hm : Move s x t e) :
    t.Open ∧ t.streams = s.streams := by
  have hclosed : ∀ {c : CallPc}, s.call = c → c ≠ .notStarted → c ≠ .active →
      t.Open ∧ t.streams = s.streams := by
    intro c hc h₁ h₂
    rcases hO.live with h | h
    · exact absurd (hc.symm.trans h) h₁
    · exact absurd (hc.symm.trans h) h₂
  cases hm with
  | connect hr => exact absurd hr hO.running
  | startCall => exact ⟨⟨.inr rfl, hO.reactor, by simp⟩, rfl⟩
  | setReactor => exact ⟨⟨hO.live, rfl, by simp⟩, rfl⟩
  | readyReturn | kick => exact ⟨⟨hO.live, hO.reactor, by simp⟩, rfl⟩
  | failed => simp [Undisturbed] at hC
  | closeClear => exact absurd hC id
  | closeDetach hc | closeReturn hc | closeDone hc => exact hclosed hc (by simp) (by simp)
  | waitReturn _ hc => exact hclosed hc (by simp) (by simp)
  | _ => exact ⟨⟨hO.live, hO.reactor, hO.running⟩, rfl⟩

theorem Start.isOpen (hO : s.Open) (hs : Start s t e) : t.Open ∧ t.streams = s.streams := by
  cases hs <;> exact ⟨⟨hO.live, hO.reactor, hO.running⟩, rfl⟩

/-- What is enqueued is pending. -/
theorem Move.fifo (hC : Undisturbed s x) (hm : Move s x t e) :
    started k e = [] ∧ t.pendingWrites = s.pendingWrites ++ enqueues e := by
  cases hm with
  | failed => simp [Undisturbed] at hC
  | closeClear => exact absurd hC id
  | push m => exact ⟨rfl, rfl⟩
  | _ => exact ⟨rfl, (List.append_nil _).symm⟩

/-- What is started was the first one pending. -/
theorem Start.fifo (hr : s.reactor = some k) (hs : Start s t e) :
    enqueues e = [] ∧ started k e ++ t.pendingWrites = s.pendingWrites := by
  cases hs with
  | nothing => exact ⟨rfl, rfl⟩
  | @start j m rest hf hp hj =>
    obtain rfl : j = k := Option.some.inj (hj.symm.trans hr)
    exact ⟨rfl, by rw [started_startWrite, hp]; rfl⟩

theorem busy_maybeStart (hr : s.reactor = some k) : s.maybeStartWriteLocked.1.Busy := by
  unfold StreamClient.Busy StreamClient.maybeStartWriteLocked
  split_ifs with hf
  · exact fun h => nomatch hf.symm.trans h
  · cases hp : s.pendingWrites with
    | nil => simp [hp]
    | cons m rest => simp [hr]

/-- `MaybeStartWriteLocked` is called wherever something may have become startable. -/
theorem busy_step (hO : s.Open) (hC : Undisturbed s x)
    (hst : s.step x = some (s', e)) : s'.run = .waiting → s'.Busy := by
  have hclosed : ∀ {c : CallPc}, s.call = c → c ≠ .notStarted → c ≠ .active →
      s'.run = .waiting → s'.Busy := by
    intro c hc h₁ h₂
    rcases hO.live with h | h
    · exact absurd (hc.symm.trans h) h₁
    · exact absurd (hc.symm.trans h) h₂
  cases x with
  | enqueueWrite m =>
    obtain ⟨rfl, -⟩ := Prod.mk.inj (Option.some.inj hst)
    exact fun _ => busy_maybeStart (s := { s with pendingWrites := _ }) hO.reactor
  | kick =>
    simp only [StreamClient.step, Option.ite_none_right_eq_some] at hst
    obtain rfl : _ = s' := congrArg Prod.fst (Option.some.inj hst.2)
    exact fun _ => busy_maybeStart (s := { s with run := .waiting }) hO.reactor
  | writeDone ok =>
    cases ho : s.outstanding with
    | none => simp [StreamClient.step, ho] at hst
    | some m =>
      simp only [StreamClient.step, ho, Option.ite_none_right_eq_some] at hst
      obtain rfl : _ = s' := congrArg Prod.fst (Option.some.inj hst.2)
      intro _
      unfold StreamClient.onWriteFinished
      exact busy_maybeStart (k := s.streams) hO.reactor
  | closeClear => exact absurd hC id
  | closeDetach | closeReturn | closeDone =>
    simp only [StreamClient.step, Option.ite_none_right_eq_some] at hst
    exact hclosed hst.1 (by simp) (by simp)
  | waitReturn =>
    simp only [StreamClient.step, Option.ite_none_right_eq_some] at hst
    exact hclosed hst.1.2 (by simp) (by simp)
  | connect =>
    simp only [StreamClient.step, Option.ite_none_right_eq_some] at hst
    exact absurd hst.1 hO.running
  | _ =>
    obtain ⟨-, rfl, -⟩ := Machine.guarded_iff.mp hst
    exact fun h => by simp at h

theorem backlog_step (hB : Backlog k given s h) (hC : Undisturbed s x)
    (hst : s.step x = some (s', e)) : Backlog k given s' (h ++ e) := by
  have hbusy := busy_step hB.isOpen hC hst
  obtain ⟨t, e₁, e₂, hm, hs, rfl⟩ := step_moves hst
  obtain ⟨hO, hk⟩ := hm.isOpen hB.isOpen hC
  obtain ⟨hO', hk'⟩ := hs.isOpen hO
  have hr : t.reactor = some k := by rw [hO.reactor, hk, hB.stream]
  obtain ⟨hm₁, hm₂⟩ := hm.fifo (k := k) hC
  obtain ⟨hs₁, hs₂⟩ := hs.fifo hr
  refine ⟨hk'.trans (hk.trans hB.stream), hO', ?_, hbusy⟩
  calc started k (h ++ (e₁ ++ e₂)) ++ s'.pendingWrites
      = started k h ++ (started k e₂ ++ s'.pendingWrites) := by
        simp only [started_append, hm₁, List.nil_append, List.append_assoc]
    _ = started k h ++ s.pendingWrites ++ enqueues e₁ := by rw [hs₂, hm₂, List.append_assoc]
    _ = given ++ enqueues (h ++ (e₁ ++ e₂)) := by
        rw [hB.fifo, enqueues_append, enqueues_append, hs₁, List.append_nil, List.append_assoc]

theorem backlog_of_steps (h0 : Backlog k given s₀ [])
    (r : (streamClient μ).Steps Undisturbed s₀ s h) : Backlog k given s h := by
  induction r with
  | refl => exact h0
  | tail _ hC hst ih => exact backlog_step ih hC hst

/-! ## From the installation of a stream -/

theorem backlog_of_connect (hc : s₀.step .connect = some (s, e)) :
    Backlog s.streams s₀.pendingWrites s [] := by
  obtain ⟨-, rfl, -⟩ := Machine.guarded_iff.mp hc
  exact ⟨rfl, ⟨.inl rfl, rfl, by simp⟩, (List.append_nil _).symm, fun h => by simp at h⟩

/-- A failed write drops what is pending, starts nothing, and leaves the stream open. -/
theorem backlog_of_failed (hO : s.Open) (hst : s.step (.writeDone false) = some (s', e)) :
    (started k e = [] ∧ enqueues e = [] ∧ s'.pendingWrites = []) ∧
      Backlog s.streams [] s' [] := by
  obtain ⟨t, e₁, e₂, hm, hs, rfl⟩ := step_moves hst
  cases hm
  cases hs with
  | nothing =>
    exact ⟨⟨rfl, rfl, rfl⟩, rfl, ⟨hO.live, hO.reactor, hO.running⟩, rfl, fun _ _ => rfl⟩
  | start hf hp => simp at hp

/-- **The send queue is FIFO, lossless and never stalls** from the installation of a stream on, and
a failed write drops exactly what is then pending. -/
theorem send_queue_fifo {e₀ : List (StreamEvent μ)} (hc : s₀.step .connect = some (s₁, e₀))
    (r : (streamClient μ).Steps Undisturbed s₁ s h) :
    started s.streams h ++ s.pendingWrites = s₀.pendingWrites ++ enqueues h ∧
    (s.run = .waiting → s.writeInFlight = false → s.pendingWrites = []) ∧
    ∀ s' e, s.step (.writeDone false) = some (s', e) →
      (started s.streams e = [] ∧ enqueues e = [] ∧ s'.pendingWrites = []) ∧
      ∀ u g, (streamClient μ).Steps Undisturbed s' u g →
        started s.streams g ++ u.pendingWrites = enqueues g := by
  have hB := backlog_of_steps (backlog_of_connect hc) r
  refine ⟨hB.stream ▸ hB.fifo, hB.busy, fun s' e hst => ?_⟩
  obtain ⟨hdrop, hB'⟩ := backlog_of_failed (k := s.streams) hB.isOpen hst
  exact ⟨hdrop, fun u g r' => by simpa using (backlog_of_steps hB' r').fifo⟩

/-- A stream is installed while one message is pending, and two more are sent. -/
def threeMessages : List (StreamAct ℕ) :=
  [.startCall, .setReactor, .readyReturn, .kick, .enqueueWrite 1, .writeDone true, .enqueueWrite 2]

theorem send_queue_fifo_threeMessages : ∃ (s : StreamClient ℕ) (h : List (StreamEvent ℕ)),
    started s.streams h ++ s.pendingWrites = [0] ++ enqueues h ∧ s.pendingWrites = [2] :=
  have hc : StreamClient.step { pendingWrites := [0] } .connect = some (_, []) := rfl
  have r := Machine.steps_of_execIn
    (show (streamClient ℕ).execIn Undisturbed _ threeMessages = some _ from rfl)
  ⟨_, _, (send_queue_fifo hc r).1, rfl⟩

end Zurg.ControlStream
