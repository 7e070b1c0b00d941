import Zurg.ControlStream.Reconnect

/-!
# Zurg.ControlStream.Stopping — the end of the loop

`ShouldContinue` reads its flags one after the other, so a flag may be unset after it has been
read: then the loop still opens a stream, or sleeps for a delay.  What it may still do is its
budget, from which every later step is paid (`budgets_move`); and a variant shows that the thread in
`Run` and gRPC alone bring it to its end (`stops_promptly`).
-/

namespace Zurg.ControlStream

open Lib

variable {μ : Type} {backoff : ℕ → ℕ} {s t : StreamLoop μ} {x : LoopAct μ}
  {h e : List (LoopEvent μ)}

/-- One of the flags that the loop reads is unset for good. -/
def StreamLoop.Stopped (s : StreamLoop μ) : Prop :=
  s.agentRunning = false ∨ s.clientRunning = false ∧ s.pc ≠ .idle ∨
    s.streamRunning = false ∧ s.pc ≠ .idle ∧ s.pc ≠ .entered

/-- A call of `ShouldContinue` that has still to read `flag` will be answered with `false`. -/
def StreamLoop.halts (s : StreamLoop μ) : Flag → Bool
  | .stream => !s.streamRunning || !s.clientRunning || !s.agentRunning
  | .client => !s.clientRunning || !s.agentRunning
  | .agent => !s.agentRunning

theorem StreamLoop.Stopped.halts (hs : s.Stopped) : s.halts .stream = true := by
  rcases hs with ha | ⟨hc, -⟩ | ⟨hst, -⟩
  · simp [StreamLoop.halts, ha]
  · simp [StreamLoop.halts, hc]
  · simp [StreamLoop.halts, hst]

/-- Outside the first two steps of `Run` no flag is set. -/
theorem StreamLoop.Stopped.frame (hs : s.Stopped) (hpc : t.pc ≠ .idle ∧ t.pc ≠ .entered)
    (hagent : s.agentRunning = false → t.agentRunning = false)
    (hclient : s.clientRunning = false → t.clientRunning = false)
    (hstream : s.streamRunning = false → t.streamRunning = false) : t.Stopped := by
  rcases hs with ha | ⟨hc, -⟩ | ⟨hst, -⟩
  · exact .inl (hagent ha)
  · exact .inr (.inl ⟨hclient hc, hpc.1⟩)
  · exact .inr (.inr ⟨hstream hst, hpc⟩)

theorem backOff_pc : (s.backOff backoff).pc = .checking .stream false ∨
    (s.backOff backoff).pc = .pausing (backoff (s.attempt + 1)) := by
  unfold StreamLoop.backOff
  by_cases hd : backoff (s.attempt + 1) > 0
  · simp [hd]
  · simp [hd]

theorem stopped_move (hs : s.Stopped) (hm : LoopMove backoff s x t e) : t.Stopped := by
  cases hm with
  | enter hpc =>
    rcases hs with ha | ⟨-, hne⟩ | ⟨-, hne, -⟩
    · exact .inl ha
    · exact absurd hpc hne
    · exact absurd hpc hne
  | start hpc =>
    rcases hs with ha | ⟨hc, -⟩ | ⟨-, -, hne⟩
    · exact .inl ha
    · exact .inr (.inl ⟨hc, by simp⟩)
    · exact absurd hpc hne
  | stopSeen hpc | readStream hpc | readClient hpc | goOn hpc | sleep hpc | wake hpc | slept hpc
  | opened hpc | closed hpc =>
    exact hs.frame (by simp) id id id
  | backOff hpc ha =>
    refine hs.frame ?_ id id id
    rcases @backOff_pc _ backoff s with h | h <;> simp [h]
  | leave hpc => exact hs.frame (by simp) id id fun _ => rfl
  | done hpc => exact hs.frame (by simp) id (fun _ => rfl) id
  | stream hy hy' hc => exact hs
  | signal => exact .inl rfl
  | stop | drained => exact hs.imp_right (.imp_left fun h => ⟨rfl, h.2⟩)
  | shutdown => exact hs
  | stopping hne hstream hclient hk =>
    refine hs.imp_right (Or.imp (fun h => ⟨?_, h.2⟩) fun h => ⟨?_, h.2⟩)
    · exact Bool.eq_false_iff.mpr fun ht => Bool.eq_false_iff.mp h.1 (hclient ht)
    · exact Bool.eq_false_iff.mpr fun ht => Bool.eq_false_iff.mp h.1 (hstream ht)

/-- How many streams a loop that is asked to stop may still open. -/
def StreamLoop.openBudget (s : StreamLoop μ) : ℕ :=
  match s.pc with
  | .checking f false => if s.halts f then 0 else 1
  | .opening => 1
  | _ => 0

/-- How long it may still sleep. -/
def StreamLoop.sleepBudget (backoff : ℕ → ℕ) (s : StreamLoop μ) : ℕ :=
  match s.pc with
  | .checking f true => if s.halts f then 0 else backoff (s.attempt + 1)
  | .pausing r => if s.agentRunning then r else 0
  | .sleeping r => if s.agentRunning then r else min r 200
  | _ => 0

theorem openBudget_le_one : s.openBudget ≤ 1 := by
  unfold StreamLoop.openBudget
  split
  · split_ifs <;> omega
  · exact Nat.le_refl 1
  · exact Nat.zero_le 1

theorem openBudget_or_sleepBudget : s.openBudget = 0 ∨ s.sleepBudget backoff = 0 := by
  unfold StreamLoop.openBudget StreamLoop.sleepBudget
  cases s.pc with
  | checking f closed => cases closed <;> simp
  | _ => simp

/-- What only unsets flags gives no budget. -/
theorem halts_mono {f : Flag} (hstream : t.streamRunning = true → s.streamRunning = true)
    (hclient : t.clientRunning = true → s.clientRunning = true)
    (hagent : t.agentRunning = true → s.agentRunning = true) (hf : s.halts f = true) :
    t.halts f = true := by
  revert hf
  cases f <;>
    cases hs : s.streamRunning <;> cases hc : s.clientRunning <;> cases ha : s.agentRunning <;>
      simp_all [StreamLoop.halts]

theorem budgets_mono (hpc : t.pc = s.pc) (hattempt : t.attempt = s.attempt)
    (hstream : t.streamRunning = true → s.streamRunning = true)
    (hclient : t.clientRunning = true → s.clientRunning = true)
    (hagent : t.agentRunning = true → s.agentRunning = true) :
    t.openBudget ≤ s.openBudget ∧ t.sleepBudget backoff ≤ s.sleepBudget backoff := by
  have hmono := fun f => @halts_mono _ s t f hstream hclient hagent
  unfold StreamLoop.openBudget StreamLoop.sleepBudget
  rw [hpc, hattempt]
  cases hp : s.pc with
  | checking f closed =>
    have hle : ∀ n, (if t.halts f then 0 else n) ≤ if s.halts f then 0 else n := by
      intro n
      by_cases hf : s.halts f = true
      · simp [hf, hmono f hf]
      · simp only [if_neg hf]
        split_ifs <;> omega
    cases closed with
    | false => exact ⟨hle 1, Nat.le_refl 0⟩
    | true => exact ⟨Nat.le_refl 0, hle _⟩
  | pausing r | sleeping r =>
    cases ha : s.agentRunning with
    | true => simp; split_ifs <;> omega
    | false =>
      have ht : t.agentRunning = false := Bool.eq_false_iff.mpr fun h => by simp [hagent h] at ha
      simp [ht]
  | _ => simp

theorem openings_opened (n : ℕ) (k : List (StreamEvent μ)) :
    openings (.opened n :: k.map .stream) = 1 := by
  show openings ([.opened n] ++ k.map .stream) = 1
  rw [openings_append, openings_quiet (quiet_stream k)]
  rfl

theorem asleep_opened (n : ℕ) (k : List (StreamEvent μ)) :
    asleep (.opened n :: k.map .stream) = 0 := by
  show asleep ([.opened n] ++ k.map .stream) = 0
  rw [asleep_append, asleep_quiet (quiet_stream k)]
  rfl

theorem asleep_slept (n : ℕ) : asleep [LoopEvent.slept (μ := μ) n] = n := Nat.add_zero n

/-- A step is paid for by what the loop may still do. -/
theorem budgets_move (hs : s.Stopped) (hm : LoopMove backoff s x t e) :
    openings e + t.openBudget ≤ s.openBudget ∧
      asleep e + t.sleepBudget backoff ≤ s.sleepBudget backoff := by
  -- steps that neither open a stream nor sleep
  have hquiet : ∀ {e : List (LoopEvent μ)}, (∀ v ∈ e, v.quiet = true) →
      t.openBudget ≤ s.openBudget ∧ t.sleepBudget backoff ≤ s.sleepBudget backoff →
      openings e + t.openBudget ≤ s.openBudget ∧
        asleep e + t.sleepBudget backoff ≤ s.sleepBudget backoff := by
    intro e hq hle
    rw [openings_quiet hq, asleep_quiet hq]
    omega
  have hnone : t.openBudget = 0 → t.sleepBudget backoff = 0 →
      t.openBudget ≤ s.openBudget ∧ t.sleepBudget backoff ≤ s.sleepBudget backoff := by omega
  -- a call of `ShouldContinue` that begins now is answered with `false`
  have hfresh : ∀ {closed : Bool}, t.pc = .checking .stream closed →
      t.openBudget ≤ s.openBudget ∧ t.sleepBudget backoff ≤ s.sleepBudget backoff := by
    intro closed hpc
    have hhalts := (stopped_move hs hm).halts
    cases closed <;> exact hnone (by simp [StreamLoop.openBudget, hpc, hhalts])
      (by simp [StreamLoop.sleepBudget, hpc, hhalts])
  cases hm with
  | enter hpc | stopSeen hpc | leave hpc | done hpc =>
    exact hquiet (by simp [LoopEvent.quiet]) (hnone rfl rfl)
  | start hpc | wake hpc => exact hquiet (by simp) (hfresh rfl)
  | @readStream closed hpc hrun | @readClient closed hpc hrun =>
    refine hquiet (by simp) ?_
    cases closed <;>
      simp [StreamLoop.openBudget, StreamLoop.sleepBudget, hpc, StreamLoop.halts, hrun]
  | goOn hpc ha =>
    refine hquiet (by simp) ?_
    simp [StreamLoop.openBudget, StreamLoop.sleepBudget, hpc, StreamLoop.halts, ha]
  | backOff hpc ha =>
    refine hquiet (by simp) ?_
    rcases @backOff_pc _ backoff s with h | h
    · exact hfresh h
    · simp [StreamLoop.openBudget, StreamLoop.sleepBudget, hpc, h, StreamLoop.halts, ha]
      unfold StreamLoop.backOff
      split_ifs <;> simp
  | opened hpc hc =>
    rw [openings_opened, asleep_opened]
    simp [StreamLoop.openBudget, StreamLoop.sleepBudget, hpc]
  | closed hpc hc => exact hquiet (quiet_stream _) (hfresh rfl)
  | sleep hpc ha hr =>
    refine hquiet (by simp) ?_
    simp [StreamLoop.openBudget, StreamLoop.sleepBudget, hpc, ha]
  | @slept r hpc =>
    rw [asleep_slept]
    refine ⟨Nat.zero_le _, ?_⟩
    simp only [StreamLoop.sleepBudget, hpc]
    split_ifs <;> omega
  | stream hy hy' hc =>
    exact hquiet (quiet_stream _) (budgets_mono rfl rfl id id id)
  | signal => exact hquiet (by simp [LoopEvent.quiet]) (budgets_mono rfl rfl id id (by simp))
  | stop | drained =>
    exact hquiet (by simp [LoopEvent.quiet]) (budgets_mono rfl rfl id (by simp) id)
  | shutdown => exact hquiet (by simp [LoopEvent.quiet]) (budgets_mono rfl rfl id id id)
  | stopping hne hstream hclient hk =>
    refine hquiet (fun v hv => ?_) (budgets_mono rfl rfl hstream hclient id)
    obtain ⟨n, rfl⟩ := hk v hv
    rfl

theorem budgets_of_steps (hs : s.Stopped)
    (r : (streamLoop μ backoff).Steps (fun _ _ => True) s t h) :
    t.Stopped ∧ openings h ≤ s.openBudget ∧ asleep h ≤ s.sleepBudget backoff := by
  have hopen := r.spends (φ := StreamLoop.openBudget) rfl openings_append
    (fun hs _ hst => ⟨stopped_move hs (loop_moves hst), (budgets_move hs (loop_moves hst)).1⟩) hs
  have hsleep := r.spends (φ := StreamLoop.sleepBudget backoff) rfl asleep_append
    (fun hs _ hst => ⟨stopped_move hs (loop_moves hst), (budgets_move hs (loop_moves hst)).2⟩) hs
  exact ⟨hopen.1, by omega, by omega⟩

/-! ## The way out -/

/-- How far the latest stream is from the return of `Wait`. -/
def StreamClient.toClose (c : StreamClient μ) : ℕ :=
  (match c.run with
    | .loopHead | .waiting => 0
    | .installed => 40
    | .called => 30
    | .reactorSet => 20
    | .readied => 10) +
  (match c.call with
    | .notStarted | .active => 5
    | .cleared => 3
    | .detached => 2
    | .calledBack => 1
    | .done => 0) +
  if c.call = .active ∧ c.outstanding.isSome then 1 else 0

/-- A step of the thread in `Run` or of gRPC. -/
def LoopAct.unaided : LoopAct μ → Bool
  | .loop => true
  | .stream (.enqueueWrite _) => false
  | .stream _ => true
  | _ => false

theorem Start.toClose_le {c d : StreamClient μ} {k : List (StreamEvent μ)} (hs : Start c d k) :
    d.toClose ≤ c.toClose + 1 := by
  cases hs with
  | nothing => omega
  | start hf hp hr =>
    have hone : ∀ (p : Prop) [Decidable p], (if p then 1 else 0) ≤ 1 := by
      intro p _
      split_ifs <;> omega
    exact Nat.le_trans (Nat.add_le_add_left (hone _) _)
      (Nat.add_le_add_right (Nat.le_add_right _ _) 1)

/-- gRPC can refuse the write in flight, and call `OnDone`; then `Wait` returns. -/
theorem exists_toClose_lt {c : StreamClient μ} (hI : StreamInv c) (hrun : c.run ≠ .loopHead)
    (hopen : ¬ (c.run = .waiting ∧ c.call = .done)) :
    ∃ y d k, LoopAct.unaided (.stream y) = true ∧ y ≠ .connect ∧ y ≠ .waitReturn ∧
      c.step y = some (d, k) ∧ d.toClose < c.toClose := by
  cases hr : c.run with
  | loopHead => exact absurd hr hrun
  | installed =>
    refine ⟨.startCall, _, _, rfl, by simp, by simp, if_pos hr, ?_⟩
    simp only [StreamClient.toClose, hr, hI.installed hr]
    split_ifs <;> omega
  | called =>
    refine ⟨.setReactor, _, _, rfl, by simp, by simp, if_pos hr, ?_⟩
    simp only [StreamClient.toClose, hr]
    omega
  | reactorSet =>
    refine ⟨.readyReturn, _, _, rfl, by simp, by simp, if_pos hr, ?_⟩
    simp only [StreamClient.toClose, hr]
    omega
  | readied =>
    let w : StreamClient μ := { c with run := .waiting }
    have hle := (start_maybeStartWriteLocked w).toClose_le
    have hlt : w.toClose + 10 = c.toClose := by
      simp only [w, StreamClient.toClose, hr]
      omega
    refine ⟨.kick, w.maybeStartWriteLocked.1, w.maybeStartWriteLocked.2, rfl, by simp, by simp,
      if_pos hr, ?_⟩
    omega
  | waiting =>
    cases hc : c.call with
    | notStarted => exact absurd (hr.symm.trans (hI.started hc)) (by simp)
    | active =>
      cases ho : c.outstanding with
      | some m =>
        have hst : c.step (.writeDone false) = some (c.onWriteFinished m false) := by
          simp only [StreamClient.step, ho]
          exact if_pos ⟨hc, by simp⟩
        refine ⟨.writeDone false, _, _, rfl, by simp, by simp, hst, ?_⟩
        simp [StreamClient.toClose, StreamClient.maybeStartWriteLocked, hr, hc, ho]
      | none =>
        refine ⟨.closeClear, _, _, rfl, by simp, by simp, if_pos ⟨hc, by simp [ho]⟩, ?_⟩
        simp only [StreamClient.toClose, hr, hc]
        split_ifs <;> omega
    | cleared =>
      refine ⟨.closeDetach, _, _, rfl, by simp, by simp, if_pos hc, ?_⟩
      simp [StreamClient.toClose, hr, hc]
    | detached =>
      refine ⟨.closeReturn, _, _, rfl, by simp, by simp, if_pos hc, ?_⟩
      simp [StreamClient.toClose, hr, hc]
    | calledBack =>
      refine ⟨.closeDone, _, _, rfl, by simp, by simp, if_pos hc, ?_⟩
      simp [StreamClient.toClose, hr, hc]
    | done => exact absurd ⟨hr, hc⟩ hopen

/-- The thread in `Run` is in a stream if it thinks so. -/
structure LoopInv (backoff : ℕ → ℕ) (M : ℕ) (s : StreamLoop μ) : Prop where
  stream : StreamInv s.stream
  streaming : s.pc = .streaming ↔ s.stream.run ≠ .loopHead
  /-- No sleep is longer than the longest delay. -/
  remaining : s.sleepBudget backoff ≤ M

theorem loopInv_move {M : ℕ} (hM : ∀ n, backoff n ≤ M) (hI : LoopInv backoff M s)
    (hS : StreamInv t.stream) (hm : LoopMove backoff s x t e) : LoopInv backoff M t := by
  have hidle : s.pc ≠ .streaming → s.stream.run = .loopHead := fun hne => by
    by_contra hrun
    exact hne (hI.streaming.mpr hrun)
  -- outside the life of a stream
  have hout : s.pc ≠ .streaming → t.stream = s.stream → t.pc ≠ .streaming →
      t.sleepBudget backoff ≤ M → LoopInv backoff M t := fun hs heq ht hle =>
    ⟨hS, iff_of_false ht (by simp [heq, hidle hs]), hle⟩
  have hcheck : ∀ {f : Flag} {closed : Bool}, t.pc = .checking f closed →
      t.sleepBudget backoff ≤ M := by
    intro f closed hpc
    unfold StreamLoop.sleepBudget
    rw [hpc]
    cases closed with
    | false => exact Nat.zero_le M
    | true =>
      dsimp only
      split_ifs
      · exact Nat.zero_le M
      · exact hM _
  have hrem := hI.remaining
  have hflags : t.pc = s.pc → t.attempt = s.attempt →
      (t.streamRunning = true → s.streamRunning = true) →
      (t.clientRunning = true → s.clientRunning = true) →
      (t.agentRunning = true → s.agentRunning = true) → t.sleepBudget backoff ≤ M :=
    fun h₁ h₂ h₃ h₄ h₅ => Nat.le_trans (budgets_mono h₁ h₂ h₃ h₄ h₅).2 hrem
  cases hm with
  | enter hpc | leave hpc | done hpc | stopSeen hpc | goOn hpc =>
    exact hout (by simp [hpc]) rfl (by simp) (Nat.zero_le M)
  | start hpc | wake hpc | readStream hpc | readClient hpc =>
    exact hout (by simp [hpc]) rfl (by simp) (hcheck rfl)
  | backOff hpc ha =>
    rcases @backOff_pc _ backoff s with h | h
    · exact hout (by simp [hpc]) rfl (by simp [h]) (hcheck h)
    · refine hout (by simp [hpc]) rfl (by simp [h]) ?_
      simp only [StreamLoop.sleepBudget, h]
      split_ifs
      · exact hM _
      · exact Nat.zero_le M
  | opened hpc hc =>
    have hrun := (connect_of_step hc).2
    exact ⟨hS, iff_of_true rfl (by simp [hrun]), Nat.zero_le M⟩
  | closed hpc hc =>
    have hrun := (waitReturn_of_step hc).2
    exact ⟨hS, iff_of_false (by simp) (by simp [hrun]), hcheck rfl⟩
  | sleep hpc ha hr =>
    refine hout (by simp [hpc]) rfl (by simp) ?_
    simpa [StreamLoop.sleepBudget, hpc, ha] using hrem
  | slept hpc =>
    refine hout (by simp [hpc]) rfl (by simp) ?_
    simp only [StreamLoop.sleepBudget, hpc] at hrem ⊢
    split_ifs at hrem ⊢ <;> omega
  | stream hy hy' hc =>
    have hrun := (run_of_step hy hy' hc).2
    exact ⟨hS, hI.streaming.trans (not_congr hrun.symm), hflags rfl rfl id id id⟩
  | signal => exact ⟨hS, hI.streaming, hflags rfl rfl id id (by simp)⟩
  | stop | drained => exact ⟨hS, hI.streaming, hflags rfl rfl id (by simp) id⟩
  | shutdown => exact ⟨hS, hI.streaming, hflags rfl rfl id id id⟩
  | stopping hne hstream hclient hk =>
    exact ⟨hS, hI.streaming, hflags rfl rfl hstream hclient id⟩

theorem streamInv_of_reach {c : StreamClient μ} {k : List (StreamEvent μ)}
    (r : (streamClient μ).Reach c k) : StreamInv c :=
  invariant_of_moves (I := fun c _ => StreamInv c) .init (fun hI _ hm => streamInv_move hI hm)
    (fun hI hs => streamInv_start hI hs) r

theorem loopInv_of_reach {M : ℕ} (hM : ∀ n, backoff n ≤ M)
    (r : (streamLoop μ backoff).Reach s h) : LoopInv backoff M s := by
  have h0 : LoopInv backoff M ({} : StreamLoop μ) :=
    ⟨.init, iff_of_false (by simp) (by simp), Nat.zero_le M⟩
  refine Machine.Run.invariant (I := fun s _ => LoopInv backoff M s) h0 ?_ r
  intro s h x t e hr hI _ hst
  have ht := hr.tail trivial hst
  exact loopInv_move hM hI (streamInv_of_reach (stream_of_reach ht)) (loop_moves hst)

/-- How far a loop that is asked to stop is from its end. -/
def StreamLoop.toReturn (backoff : ℕ → ℕ) (s : StreamLoop μ) : ℕ :=
  let reads : Flag → ℕ
    | .stream => 2
    | .client => 1
    | .agent => 0
  match s.pc with
  | .returned => 0
  | .leaving => 1
  | .left => 2
  | .checking f closed =>
    if s.halts f then 3 + reads f
    else if closed then 2 * backoff (s.attempt + 1) + 20 + reads f
    else 200 + reads f
  | .pausing r => if r = 0 then 7 else 2 * r + 10
  | .sleeping r => 2 * r + 9
  | .streaming => 10 + s.stream.toClose
  | .opening => 100
  | .entered => 8
  | .idle => 9

theorem toReturn_loop (hs : s.Stopped) (hm : LoopMove backoff s .loop t e) :
    t.toReturn backoff < s.toReturn backoff := by
  have hfresh : ∀ {closed : Bool}, t.pc = .checking .stream closed → t.toReturn backoff = 5 := by
    intro closed hpc
    simp [StreamLoop.toReturn, hpc, (stopped_move hs hm).halts]
  cases hm with
  | enter hpc | leave hpc | done hpc => simp [StreamLoop.toReturn, hpc]
  | start hpc =>
    rw [hfresh rfl]
    simp [StreamLoop.toReturn, hpc]
  | @stopSeen f closed hpc hrun =>
    simp only [StreamLoop.toReturn, hpc]
    cases f <;> split_ifs <;> simp only [] <;> omega
  | @readStream closed hpc hrun | @readClient closed hpc hrun =>
    simp only [StreamLoop.toReturn, hpc, StreamLoop.halts, hrun, Bool.not_true, Bool.false_or]
    split_ifs <;> omega
  | goOn hpc ha => simp [StreamLoop.toReturn, hpc, StreamLoop.halts, ha]
  | backOff hpc ha =>
    have hnow : s.toReturn backoff = 2 * backoff (s.attempt + 1) + 20 := by
      simp [StreamLoop.toReturn, hpc, StreamLoop.halts, ha]
    rcases @backOff_pc _ backoff s with h | h
    · rw [hfresh h]
      omega
    · rw [hnow]
      simp only [StreamLoop.toReturn, h]
      split_ifs <;> omega
  | opened hpc hc =>
    simp only [StreamClient.step, Option.ite_none_right_eq_some, Option.some.injEq,
      Prod.mk.injEq] at hc
    obtain ⟨-, rfl, -⟩ := hc
    simp [StreamLoop.toReturn, hpc, StreamClient.toClose]
  | closed hpc hc =>
    rw [hfresh rfl]
    simp only [StreamLoop.toReturn, hpc]
    omega
  | sleep hpc ha hr =>
    simp only [StreamLoop.toReturn, hpc]
    split_ifs <;> omega
  | wake hpc hr =>
    rw [hfresh rfl]
    simp only [StreamLoop.toReturn, hpc]
    split_ifs <;> omega
  | slept hpc =>
    simp only [StreamLoop.toReturn, hpc]
    split_ifs <;> omega

/-- The thread in `Run` is held up only by a stream that is open. -/
theorem exists_loopStep {M : ℕ} (hI : LoopInv backoff M s) (hpc : s.pc ≠ .returned)
    (hclosed : s.pc = .streaming → s.stream.run = .waiting ∧ s.stream.call = .done) :
    ∃ t e, s.loopStep backoff = some (t, e) := by
  unfold StreamLoop.loopStep
  cases hp : s.pc with
  | opening =>
    have hrun : s.stream.run = .loopHead := by
      by_contra hrun
      exact absurd (hp.symm.trans (hI.streaming.mpr hrun)) (by simp)
    have hc : s.stream.step .connect = some (_, _) := if_pos hrun
    simp only [hc]
    exact ⟨_, _, rfl⟩
  | streaming =>
    have hc : s.stream.step .waitReturn = some (_, _) := if_pos (hclosed hp)
    simp only [hc]
    exact ⟨_, _, rfl⟩
  | returned => exact absurd hp hpc
  | _ => exact ⟨_, _, rfl⟩

theorem exists_toReturn_lt {M : ℕ} (hs : s.Stopped) (hI : LoopInv backoff M s)
    (hpc : s.pc ≠ .returned) : ∃ x t e, x.unaided = true ∧
      (streamLoop μ backoff).step s x = some (t, e) ∧ t.toReturn backoff < s.toReturn backoff := by
  by_cases hopen : s.pc = .streaming ∧ ¬ (s.stream.run = .waiting ∧ s.stream.call = .done)
  · obtain ⟨hp, hopen⟩ := hopen
    obtain ⟨y, c, k, hy, hne, hne', hst, hlt⟩ :=
      exists_toClose_lt hI.stream (hI.streaming.mp hp) hopen
    refine ⟨.stream y, { s with stream := c }, k.map .stream, hy, ?_, ?_⟩
    · cases y with
      | connect => exact absurd rfl hne
      | waitReturn => exact absurd rfl hne'
      | _ => simp only [streamLoop, StreamLoop.step, hst]
    · simp only [StreamLoop.toReturn, hp]
      omega
  · have hclosed : s.pc = .streaming → s.stream.run = .waiting ∧ s.stream.call = .done := by
      intro hp
      by_contra h
      exact hopen ⟨hp, h⟩
    obtain ⟨t, e, hst⟩ := exists_loopStep hI hpc hclosed
    exact ⟨.loop, t, e, rfl, hst, toReturn_loop hs (loopMove_loop hst)⟩

theorem returns_of_stopped {M : ℕ} (hM : ∀ n, backoff n ≤ M)
    (r : (streamLoop μ backoff).Reach s h) (hs : s.Stopped) :
    ∃ t e, (streamLoop μ backoff).Steps (fun _ x => x.unaided = true) s t e ∧
      t.pc = .returned := by
  refine Machine.exists_steps_of_variant (P := fun s => s.Stopped ∧
    ∃ h, (streamLoop μ backoff).Reach s h) (StreamLoop.toReturn backoff) ?_ ⟨hs, h, r⟩
  rintro s ⟨hs, h, r⟩ hpc
  obtain ⟨x, t, e, hx, hst, hlt⟩ := exists_toReturn_lt hs (loopInv_of_reach hM r) hpc
  exact ⟨x, t, e, hx, hst, ⟨stopped_move hs (loop_moves hst), _, r.tail trivial hst⟩, hlt⟩

theorem computeBackoff_le (n : ℕ) : computeBackoff n ≤ 30000 := by
  show (if 500 * 2 ^ min n 6 > 30000 then 30000 else 500 * 2 ^ min n 6) ≤ 30000
  split_ifs <;> omega

theorem sleepBudget_le (hs : s.agentRunning = false) :
    s.sleepBudget backoff ≤ 200 := by
  unfold StreamLoop.sleepBudget
  split
  · rename_i f _
    have hhalts : s.halts f = true := by
      cases f <;> simp [StreamLoop.halts, hs]
    simp [hhalts]
  · simp [hs]
  · simp only [hs]
    exact Nat.min_le_right _ _
  · exact Nat.zero_le _

/-- **Stopping.**  From the moment a flag is unset for good, whatever happens, the loop opens one
stream more, or sleeps on for the rest of a delay, or for 200 ms if it was a signal; and the thread
in `Run` and gRPC alone can bring `Run` to its end. -/
theorem stops_promptly {h₀ : List (LoopEvent μ)} (r₀ : (streamLoop μ computeBackoff).Reach s h₀)
    (hs : s.Stopped) (r : (streamLoop μ computeBackoff).Steps (fun _ _ => True) s t h) :
    (openings h ≤ 1 ∧ asleep h = 0 ∨
      openings h = 0 ∧ asleep h ≤ if s.agentRunning then 30000 else 200) ∧
    ∃ u k, (streamLoop μ computeBackoff).Steps (fun _ x => x.unaided = true) t u k ∧
      u.pc = .returned := by
  have hI := loopInv_of_reach computeBackoff_le r₀
  obtain ⟨ht, hopen, hsleep⟩ := budgets_of_steps hs r
  constructor
  · rcases @openBudget_or_sleepBudget _ computeBackoff s with hb | hb
    · refine .inr ⟨by omega, Nat.le_trans hsleep ?_⟩
      split_ifs with ha
      · exact hI.remaining
      · exact sleepBudget_le (Bool.eq_false_iff.mpr ha)
    · have hone := @openBudget_le_one _ s
      exact .inl ⟨by omega, by omega⟩
  · exact returns_of_stopped computeBackoff_le (r₀.trans r) ht

/-- A signal at the beginning of the first sleep. -/
def signalAsleep : List (LoopAct ℕ) := firstStream ++ List.replicate 4 .loop ++ [.signal]

theorem stops_promptly_signalAsleep : ∃ s h₀ t u k,
    (streamLoop ℕ computeBackoff).Reach s h₀ ∧ s.pc = .sleeping 1000 ∧
      (streamLoop ℕ computeBackoff).Steps (fun _ _ => True) s t [.slept 200] ∧
      (streamLoop ℕ computeBackoff).Steps (fun _ x => x.unaided = true) t u k ∧
      u.pc = .returned := by
  obtain ⟨s, h₀, r₀, hpc, hs⟩ := Machine.exists_run_schedule (streamLoop ℕ computeBackoff)
    (fun _ _ => True) signalAsleep
    (P := fun q => q.1.pc = .sleeping 1000 ∧ q.1.agentRunning = false) (by decide +kernel)
  have hst : (streamLoop ℕ computeBackoff).step s .loop =
      some ({ s with pc := .pausing 800 }, [.slept 200]) := by
    simp only [streamLoop, StreamLoop.step, StreamLoop.loopStep, show s.pc = _ from hpc]
    rfl
  have r : (streamLoop ℕ computeBackoff).Steps (fun _ _ => True) s _ _ := .single trivial hst
  obtain ⟨-, u, k, hsteps, hu⟩ := stops_promptly r₀ (.inl hs) r
  exact ⟨s, h₀, _, u, k, r₀, hpc, r, hsteps, hu⟩

end Zurg.ControlStream
