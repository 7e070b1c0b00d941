import Mathlib.Algebra.Order.Ring.Int
import Zurg.Auth.Reactor

/-!
# Zurg.Auth.Renewal — `StreamLoop` after the end of a stream, and after `Stop`

The steps of the client are noted with the time they may take.  Between two calls `StreamLoop` sleeps
for `kReconnectDelayMs` and a bit more, and it always gets to the next call, at the latest when gRPC
has ended the one it waits for (`client_renews`).  Once `Stop` has reset `running_`, the loop starts
one call more at most, and its thread and that of `Stop` get to their end without anybody's help
(`stop_returns`).
-/

namespace Zurg.Auth

open Lib

def kReconnectDelayMs : ℕ := 5000

/-- What a thread waits for in a step, beside a mutex. -/
inductive Pause
  | sleep (ms : ℕ)
  /-- `wait_for`, which returns after a tenth of a second at the latest. -/
  | wait
  deriving DecidableEq, Repr

/-- The pauses of `StreamLoop`; the short ones are between a stream and the delay. -/
def AuthClient.pauses (s : AuthClient) : ClientAct → List Pause
  | .loop stub =>
    match s.loop with
    | .head => if s.running && !stub then [.sleep 5000] else []
    | .own _ .waiting => [.wait]
    | .own k .settling => if s.running && !s.finished k then [.sleep 10] else []
    | .own _ .resting => [.sleep 50]
    | .own _ .delaying => [.sleep kReconnectDelayMs]
    | _ => []
  | _ => []

/-- The client, with its pauses. -/
def pacedClient : Machine AuthClient ClientAct (ClientEvent ⊕ Pause) :=
  authClient.noting AuthClient.pauses

/-! ## Counting -/

def ClientEvent.calls : ClientEvent → ℕ
  | .started _ => 1
  | _ => 0

/-- The time a pause takes in any case, in milliseconds, and the time it may take. -/
def Pause.least : Pause → ℕ
  | .sleep ms => ms
  | .wait => 0

def Pause.most : Pause → ℕ
  | .sleep ms => ms
  | .wait => 100

/-- The calls started. -/
def started (h : List (ClientEvent ⊕ Pause)) : ℕ := (h.map (Sum.elim ClientEvent.calls fun _ => 0)).sum

/-- The time that has been slept at least. -/
def slept (h : List (ClientEvent ⊕ Pause)) : ℕ := (h.map (Sum.elim (fun _ => 0) Pause.least)).sum

/-- The time that has been spent in pauses at most. -/
def paused (h : List (ClientEvent ⊕ Pause)) : ℕ := (h.map (Sum.elim (fun _ => 0) Pause.most)).sum

variable {s t : AuthClient} {x : ClientAct} {e : List ClientEvent} {h h₀ : List (ClientEvent ⊕ Pause)}
  {k : ℕ} {c : Call} {phase : Phase}

theorem started_append (h k : List (ClientEvent ⊕ Pause)) :
    started (h ++ k) = started h + started k := by
  simp [started]

theorem slept_append (h k : List (ClientEvent ⊕ Pause)) : slept (h ++ k) = slept h + slept k := by
  simp [slept]

theorem paused_append (h k : List (ClientEvent ⊕ Pause)) :
    paused (h ++ k) = paused h + paused k := by
  simp [paused]

/-! ## The thread -/

/-- The thread of `StreamLoop`, and the reactor it owns. -/
structure ThreadInv (s : AuthClient) : Prop where
  /-- There is one from `Start` to the end of `Stop`. -/
  thread : s.loop = .off ↔ s.running = false ∧ s.stopping = .idle
  /-- It does not leave the loop by itself. -/
  looping : s.running = true → s.loop ≠ .exiting ∧ s.loop ≠ .ended
  stopping : s.stopping ≠ .idle → s.running = false
  owned : ∀ k phase, s.loop = .own k phase →
    k < s.reactors ∧ (phase.isEarly = true ↔ s.calls k = .unstarted)
  fresh : ∀ k, s.reactors ≤ k → s.calls k = .unstarted
  done : ∀ k, (s.calls k).delivered = true → s.finished k = true

theorem threadInv_init : ThreadInv {} where
  thread := by simp
  looping := by simp
  stopping := by simp
  owned := by simp
  fresh _ _ := rfl
  done := by simp [Call.delivered]

namespace ThreadInv

/-- A callback of reactor `k`. -/
theorem callback (hI : ThreadInv s) (hk : s.calls k ≠ .unstarted) (hc : c ≠ .unstarted)
    (hcalls : t.calls = Function.update s.calls k c)
    (hsame : (t.loop, t.running, t.reactors, t.stopping) =
      (s.loop, s.running, s.reactors, s.stopping))
    (hfin : ∀ j, s.finished j = true → t.finished j = true)
    (hdone : c.delivered = true → t.finished k = true) : ThreadInv t := by
  simp only [Prod.mk.injEq] at hsame
  obtain ⟨hloop, hrun, hreactors, hstopping⟩ := hsame
  have hat : ∀ j, t.calls j = if j = k then c else s.calls j := by
    intro j
    rw [hcalls, Function.update_apply]
  have hfree : ∀ j, t.calls j = .unstarted ↔ s.calls j = .unstarted := by
    intro j
    rw [hat]
    split_ifs with hjk
    · exact iff_of_false hc (hjk ▸ hk)
    · rfl
  refine
    { thread := hloop ▸ hrun ▸ hstopping ▸ hI.thread
      looping := hloop ▸ hrun ▸ hI.looping
      stopping := hrun ▸ hstopping ▸ hI.stopping
      owned := ?_
      fresh := fun j hj => (hfree j).mpr (hI.fresh j (hreactors ▸ hj))
      done := ?_ }
  · intro j phase hj
    obtain ⟨hlt, hearly⟩ := hI.owned j phase (hloop ▸ hj)
    exact ⟨hreactors ▸ hlt, hearly.trans (hfree j).symm⟩
  · intro j hj
    rw [hat] at hj
    split_ifs at hj with hjk
    · exact hjk ▸ hdone hj
    · exact hfin j (hI.done j hj)

/-- A step that leaves the calls alone. -/
theorem move (hI : ThreadInv s) (hcalls : t.calls = s.calls) (hreactors : t.reactors = s.reactors)
    (hfin : ∀ j, (s.calls j).delivered = true → t.finished j = true)
    (hthread : t.loop = .off ↔ t.running = false ∧ t.stopping = .idle)
    (hlooping : t.running = true → t.loop ≠ .exiting ∧ t.loop ≠ .ended)
    (hstopping : t.stopping ≠ .idle → t.running = false)
    (howned : ∀ k phase, t.loop = .own k phase →
      k < s.reactors ∧ (phase.isEarly = true ↔ s.calls k = .unstarted)) : ThreadInv t where
  thread := hthread
  looping := hlooping
  stopping := hstopping
  owned k phase hk := by
    rw [hreactors, hcalls]
    exact howned k phase hk
  fresh k hk := by
    rw [hcalls]
    exact hI.fresh k (hreactors ▸ hk)
  done k hk := by
    rw [hcalls] at hk
    exact hfin k hk

/-- `StreamLoop` moves on within its loop. -/
theorem loopTo (hI : ThreadInv s) (hoff : s.loop ≠ .off) (hcalls : t.calls = s.calls)
    (hsame : (t.running, t.reactors, t.stopping) = (s.running, s.reactors, s.stopping))
    (hfin : ∀ j, (s.calls j).delivered = true → t.finished j = true)
    (hloop : t.loop ≠ .off ∧ (s.running = true → t.loop ≠ .exiting ∧ t.loop ≠ .ended))
    (howned : ∀ k phase, t.loop = .own k phase →
      k < s.reactors ∧ (phase.isEarly = true ↔ s.calls k = .unstarted)) : ThreadInv t := by
  simp only [Prod.mk.injEq] at hsame
  obtain ⟨hrun, hreactors, hstopping⟩ := hsame
  refine hI.move hcalls hreactors hfin ?_ (hrun ▸ hloop.2) ?_ howned
  · rw [hrun, hstopping, ← hI.thread]
    exact iff_of_false hloop.1 hoff
  · rw [hrun, hstopping]
    exact hI.stopping

theorem turn (hI : ThreadInv s) (hloop : s.loop = .own k phase) :
    ThreadInv (s.turn k phase).1 := by
  have hoff : s.loop ≠ .off := by simp [hloop]
  obtain ⟨hlt, hearly⟩ := hI.owned k phase hloop
  -- to another phase with the same reactor
  have hstay : ∀ {t : AuthClient} {phase' : Phase}, t.loop = .own k phase' →
      phase'.isEarly = phase.isEarly → t.calls = s.calls →
      (t.running, t.reactors, t.stopping) = (s.running, s.reactors, s.stopping) →
      (∀ j, (s.calls j).delivered = true → t.finished j = true) → ThreadInv t := by
    intro t phase' ht hphase hcalls hsame hfin
    refine hI.loopTo hoff hcalls hsame hfin (by simp [ht]) fun j p hj => ?_
    obtain ⟨rfl, rfl⟩ := LoopPc.own.inj (ht.symm.trans hj)
    rw [hphase]
    exact ⟨hlt, hearly⟩
  -- out of the turn
  have hout : ∀ {t : AuthClient}, (∀ j p, t.loop ≠ .own j p) → t.loop ≠ .off →
      (s.running = true → t.loop ≠ .exiting ∧ t.loop ≠ .ended) → t.calls = s.calls →
      (t.running, t.reactors, t.stopping) = (s.running, s.reactors, s.stopping) →
      t.finished = s.finished → ThreadInv t := by
    intro t hown ht hrun hcalls hsame hfin
    refine hI.loopTo hoff hcalls hsame (fun j hj => ?_) ⟨ht, hrun⟩ fun j p hj => absurd hj (hown j p)
    rw [hfin]
    exact hI.done j hj
  cases phase with
  | registered => exact hstay rfl rfl rfl rfl hI.done
  | starting =>
    refine hstay rfl rfl rfl rfl fun j hj => ?_
    have hjk : j ≠ k := by
      rintro rfl
      simp [hearly.mp rfl, Call.delivered] at hj
    simpa [AuthClient.turn, AuthClient.setFinished, hjk] using hI.done j hj
  | calling =>
    have hat : ∀ j, (s.turn k .calling).1.calls j = if j = k then .active false else s.calls j :=
      fun j => by simp [AuthClient.turn, AuthClient.setCall, Function.update_apply]
    refine ⟨?_, fun _ => by simp [AuthClient.turn], hI.stopping, ?_, ?_, ?_⟩
    · show LoopPc.own k .testing = .off ↔ s.running = false ∧ s.stopping = .idle
      rw [← hI.thread]
      exact iff_of_false (by simp) hoff
    · intro j p hj
      obtain ⟨rfl, rfl⟩ := LoopPc.own.inj (show LoopPc.own k .testing = .own j p from hj)
      refine ⟨hlt, ?_⟩
      rw [hat, if_pos rfl]
      simp [Phase.isEarly]
    · intro j hj
      have hjk : j ≠ k := Nat.ne_of_gt (Nat.lt_of_lt_of_le hlt hj)
      rw [hat, if_neg hjk]
      exact hI.fresh j hj
    · intro j hj
      rw [hat] at hj
      split_ifs at hj with hjk
      · simp [Call.delivered] at hj
      · exact hI.done j hj
  | testing =>
    simp only [AuthClient.turn]
    split_ifs <;> exact hstay rfl rfl rfl rfl hI.done
  | waiting =>
    simp only [AuthClient.turn]
    split_ifs <;> exact hstay rfl rfl rfl rfl hI.done
  | dropping =>
    refine hstay rfl rfl rfl rfl fun j hj => ?_
    by_cases hjk : j = k
    · simp [AuthClient.turn, AuthClient.setFinished, hjk]
    · simpa [AuthClient.turn, AuthClient.setFinished, hjk] using hI.done j hj
  | settling =>
    simp only [AuthClient.turn]
    split_ifs <;> exact hstay rfl rfl rfl rfl hI.done
  | leaving => exact hstay rfl rfl rfl rfl hI.done
  | resting =>
    simp only [AuthClient.turn]
    split_ifs with hr
    · exact hout (by simp) (by simp) (fun hrun => by simp [hrun] at hr) rfl rfl rfl
    · exact hstay rfl rfl rfl rfl hI.done
  | delaying =>
    have hhead : (s.turn k .delaying).1.loop = .head := rfl
    exact hout (by simp [hhead]) (by simp [hhead]) (by simp [hhead]) rfl rfl rfl

theorem streamLoop {stub : Bool} (hI : ThreadInv s) (hst : s.streamLoop stub = some (t, e)) :
    ThreadInv t := by
  unfold AuthClient.streamLoop at hst
  cases hloop : s.loop with
  | off | ended => simp [hloop] at hst
  | head =>
    simp only [hloop, Option.some.injEq, Prod.mk.injEq] at hst
    obtain ⟨rfl, rfl⟩ := hst
    refine hI.loopTo (by simp [hloop]) rfl rfl hI.done ?_ ?_
    · dsimp only
      split_ifs <;> simp_all
    · dsimp only
      split_ifs <;> simp
  | creating =>
    simp only [hloop, Option.some.injEq, Prod.mk.injEq] at hst
    obtain ⟨rfl, rfl⟩ := hst
    refine ⟨?_, by simp, hI.stopping, ?_, fun k hk => hI.fresh k (Nat.le_of_succ_le hk), hI.done⟩
    · rw [← hI.thread]
      exact iff_of_false (by simp) (by simp [hloop])
    · intro k phase hk
      obtain ⟨rfl, rfl⟩ := LoopPc.own.inj hk
      exact ⟨Nat.lt_succ_self _, iff_of_true rfl (hI.fresh _ (Nat.le_refl _))⟩
  | own k phase =>
    simp only [hloop, Option.some.injEq] at hst
    have ht := hI.turn hloop
    rwa [hst] at ht
  | exiting =>
    simp only [hloop, Option.some.injEq, Prod.mk.injEq] at hst
    obtain ⟨rfl, rfl⟩ := hst
    refine hI.loopTo (by simp [hloop]) rfl rfl hI.done ⟨by simp, fun hr => ?_⟩ (by simp)
    exact absurd hloop (hI.looping hr).1

theorem step (hI : ThreadInv s) (hst : s.step x = some (t, e)) : ThreadInv t := by
  have hof : ∀ {u : AuthClient} {k : List ClientEvent}, some (u, k) = some (t, e) → u = t :=
    fun h => (Prod.mk.inj (Option.some.inj h)).1
  cases x with
  | start =>
    obtain ⟨hidle, rfl, rfl⟩ := Machine.guarded_iff.mp hst
    unfold AuthClient.start
    split_ifs with hr
    · exact hI
    · exact hI.move rfl rfl hI.done (by simp) (by simp) (fun hne => absurd hidle hne) (by simp)
  | stop =>
    obtain ⟨hidle, ⟨hr, rfl, rfl⟩ | ⟨hr, rfl, rfl⟩⟩ := AuthClient.step_stop hst
    · have hon : s.loop ≠ .off := fun hoff => by simp [hI.thread.mp hoff] at hr
      exact hI.move rfl rfl hI.done (iff_of_false hon (by simp)) (by simp) (fun _ => rfl) hI.owned
    · exact hI
  | stopActive =>
    obtain ⟨hflagged, rfl, rfl⟩ := Machine.guarded_iff.mp hst
    have hr : s.running = false := hI.stopping (by simp [hflagged])
    have hon : s.loop ≠ .off := fun hoff => by simp [hI.thread.mp hoff] at hflagged
    unfold AuthClient.stopActive
    split
    · refine hI.move rfl rfl (fun j hj => ?_) (iff_of_false hon (by simp)) hI.looping (fun _ => hr)
        hI.owned
      simp only [AuthClient.setFinished, Function.update_apply]
      split_ifs
      · rfl
      · exact hI.done j hj
    · exact hI.move rfl rfl hI.done (iff_of_false hon (by simp)) hI.looping (fun _ => hr) hI.owned
  | stopNotify =>
    obtain ⟨hnotifying, rfl, rfl⟩ := Machine.guarded_iff.mp hst
    have hon : s.loop ≠ .off := fun hoff => by simp [hI.thread.mp hoff] at hnotifying
    exact hI.move rfl rfl hI.done (iff_of_false hon (by simp)) hI.looping
      (fun _ => hI.stopping (by simp [hnotifying])) hI.owned
  | join =>
    obtain ⟨⟨hjoining, hended⟩, rfl, rfl⟩ := Machine.guarded_iff.mp hst
    have hr : s.running = false := hI.stopping (by simp [hjoining])
    exact hI.move rfl rfl hI.done (iff_of_true rfl ⟨hr, rfl⟩) (by simp [hr]) (fun _ => hr) (by simp)
  | loop stub => exact hI.streamLoop hst
  | readDone k =>
    obtain ⟨⟨hcall, -⟩, rfl, rfl⟩ := Machine.guarded_iff.mp hst
    exact hI.callback (k := k) (c := .active true) (by simp [hcall]) (by simp) rfl rfl (fun _ => id)
      (by simp [Call.delivered])
  | message k m =>
    obtain ⟨hcall, rfl, rfl⟩ := Machine.guarded_iff.mp hst
    exact hI.callback (k := k) (c := .active false) (by simp [hcall]) (by simp) rfl rfl
      (fun _ => id) (by simp [Call.delivered])
  | done k ok =>
    obtain ⟨hcall, rfl, rfl⟩ := Machine.guarded_iff.mp hst
    refine hI.callback (k := k) (c := .ending ok) (by simp [hcall]) (by simp) rfl rfl
      (fun j hj => ?_) fun _ => ?_
    · simp only [AuthClient.setFinished, Function.update_apply]
      split_ifs
      · rfl
      · exact hj
    · simp [AuthClient.setFinished]
  | callBack k =>
    obtain ⟨ok, hcall, rfl, rfl⟩ := AuthClient.step_callBack hst
    exact hI.callback (k := k) (c := .calledBack ok) (by simp [hcall]) (by simp) rfl rfl
      (fun _ => id) fun _ => hI.done k (by simp [hcall, Call.delivered])
  | testStatus k =>
    obtain ⟨ok, hcall, rfl, rfl⟩ := AuthClient.step_testStatus hst
    refine hI.callback (k := k) (by simp [hcall]) ?_ rfl rfl (fun _ => id) fun _ =>
      hI.done k (by simp [hcall, Call.delivered])
    split_ifs <;> simp
  | notifyReconnect k =>
    obtain ⟨hcall, rfl, rfl⟩ := Machine.guarded_iff.mp hst
    exact hI.callback (k := k) (c := .closed) (by simp [hcall]) (by simp) rfl rfl (fun _ => id)
      fun _ => hI.done k (by simp [hcall, Call.delivered])

end ThreadInv

theorem threadInv_of_reach {h : List ClientEvent} (r : authClient.Reach s h) : ThreadInv s :=
  Machine.Run.invariant (I := fun s _ => ThreadInv s) threadInv_init
    (fun _ hI _ hst => hI.step hst) r

/-! ## One step -/

/-- The client is not started anew. -/
def NotRestarted (s : AuthClient) (x : ClientAct) : Prop := x = .start → s.running = true

instance (s : AuthClient) (x : ClientAct) : Decidable (NotRestarted s x) :=
  inferInstanceAs (Decidable (_ → _))

/-- The other threads leave `StreamLoop` where it is, or join it. -/
theorem loop_of_step (hx : ∀ stub, x ≠ .loop stub) (hC : NotRestarted s x)
    (hst : s.step x = some (t, e)) :
    (t.loop = s.loop ∨ s.loop = .ended ∧ t.loop = .off) ∧ (e.map ClientEvent.calls).sum = 0 := by
  cases x with
  | start =>
    obtain ⟨-, rfl, rfl⟩ := Machine.guarded_iff.mp hst
    rw [AuthClient.start, if_pos (hC rfl)]
    exact ⟨.inl rfl, rfl⟩
  | stop =>
    obtain ⟨-, ⟨-, rfl, rfl⟩ | ⟨-, rfl, rfl⟩⟩ := AuthClient.step_stop hst
    · exact ⟨.inl rfl, rfl⟩
    · exact ⟨.inl rfl, rfl⟩
  | stopActive =>
    obtain ⟨-, rfl, rfl⟩ := Machine.guarded_iff.mp hst
    refine ⟨.inl ?_, rfl⟩
    unfold AuthClient.stopActive
    split <;> rfl
  | join =>
    obtain ⟨⟨-, hended⟩, rfl, rfl⟩ := Machine.guarded_iff.mp hst
    exact ⟨.inr ⟨hended, rfl⟩, rfl⟩
  | loop stub => exact absurd rfl (hx stub)
  | stopNotify | readDone k | message k m | done k ok | notifyReconnect k =>
    obtain ⟨-, rfl, rfl⟩ := Machine.guarded_iff.mp hst
    exact ⟨.inl rfl, rfl⟩
  | callBack k =>
    obtain ⟨ok, -, rfl, rfl⟩ := AuthClient.step_callBack hst
    exact ⟨.inl rfl, rfl⟩
  | testStatus k =>
    obtain ⟨ok, -, rfl, rfl⟩ := AuthClient.step_testStatus hst
    exact ⟨.inl rfl, rfl⟩

theorem running_turn : (s.turn k phase).1.running = s.running := by
  cases phase with
  | waiting | resting =>
    simp only [AuthClient.turn]
    split_ifs <;> rfl
  | _ => rfl

theorem running_streamLoop {stub : Bool} (hst : s.streamLoop stub = some (t, e)) :
    t.running = s.running := by
  unfold AuthClient.streamLoop at hst
  cases hloop : s.loop with
  | off | ended => simp [hloop] at hst
  | own k phase =>
    simp only [hloop, Option.some.injEq] at hst
    have hrun := @running_turn s k phase
    rwa [hst] at hrun
  | head | creating | exiting =>
    simp only [hloop, Option.some.injEq, Prod.mk.injEq] at hst
    obtain ⟨rfl, -⟩ := hst
    rfl

theorem running_of_step (hr : s.running = false) (hC : NotRestarted s x)
    (hst : s.step x = some (t, e)) : t.running = false := by
  cases x with
  | start => simp [hC rfl] at hr
  | stop =>
    obtain ⟨-, ⟨-, rfl, -⟩ | ⟨-, rfl, -⟩⟩ := AuthClient.step_stop hst
    · rfl
    · exact hr
  | loop stub => exact (running_streamLoop hst).trans hr
  | stopActive =>
    obtain ⟨-, rfl, -⟩ := Machine.guarded_iff.mp hst
    unfold AuthClient.stopActive
    split <;> exact hr
  | stopNotify | join | readDone k | message k m | done k ok | notifyReconnect k =>
    obtain ⟨-, rfl, -⟩ := Machine.guarded_iff.mp hst
    exact hr
  | callBack k =>
    obtain ⟨ok, -, rfl, -⟩ := AuthClient.step_callBack hst
    exact hr
  | testStatus k =>
    obtain ⟨ok, -, rfl, -⟩ := AuthClient.step_testStatus hst
    exact hr

/-! ## The pace -/

section

variable {p : List Pause}

theorem started_noted :
    started (e.map .inl ++ p.map .inr) = (e.map ClientEvent.calls).sum := by
  have hzero : (List.map (fun _ : Pause => 0) p).sum = 0 := by simp
  simp [started, Function.comp_def]

theorem slept_noted : slept (e.map .inl ++ p.map .inr) = (p.map Pause.least).sum := by
  simp [slept, Function.comp_def]

theorem paused_noted : paused (e.map .inl ++ p.map .inr) = (p.map Pause.most).sum := by
  simp [paused, Function.comp_def]

end

theorem pauses_of_ne_loop (hx : ∀ stub, x ≠ .loop stub) : s.pauses x = [] := by
  cases x with
  | loop stub => exact absurd rfl (hx stub)
  | _ => rfl

/-- The time asleep since the latest call. -/
def LoopPc.rested : LoopPc → ℕ
  | .head | .creating => 50 + kReconnectDelayMs
  | .own _ phase =>
    if phase.isEarly then 50 + kReconnectDelayMs else if phase = .delaying then 50 else 0
  | _ => 0

theorem pace_loop {stub : Bool} (hst : s.streamLoop stub = some (t, e)) :
    (50 + kReconnectDelayMs) * (e.map ClientEvent.calls).sum + t.loop.rested ≤
      s.loop.rested + ((s.pauses (.loop stub)).map Pause.least).sum := by
  unfold AuthClient.streamLoop at hst
  cases hloop : s.loop with
  | off | ended => simp [hloop] at hst
  | head =>
    simp only [hloop, Option.some.injEq, Prod.mk.injEq] at hst
    obtain ⟨rfl, rfl⟩ := hst
    dsimp only
    split_ifs <;> simp [LoopPc.rested]
  | creating | exiting =>
    simp only [hloop, Option.some.injEq, Prod.mk.injEq] at hst
    obtain ⟨rfl, rfl⟩ := hst
    simp [LoopPc.rested, Phase.isEarly]
  | own k phase =>
    simp only [hloop, Option.some.injEq] at hst
    cases phase with
    | testing | settling =>
      obtain ⟨rfl, rfl⟩ := Prod.mk.inj hst
      dsimp only
      split_ifs <;> simp [LoopPc.rested, Phase.isEarly]
    | waiting | resting =>
      simp only [AuthClient.turn] at hst
      split_ifs at hst <;> obtain ⟨rfl, rfl⟩ := Prod.mk.inj hst <;>
        simp [LoopPc.rested, Phase.isEarly, AuthClient.pauses, hloop, Pause.least,
          ClientEvent.calls]
    | registered | starting | calling | dropping | leaving | delaying =>
      obtain ⟨rfl, rfl⟩ := Prod.mk.inj hst
      simp [LoopPc.rested, Phase.isEarly, AuthClient.pauses, hloop, Pause.least, ClientEvent.calls]

theorem pace_step {l : List (ClientEvent ⊕ Pause)} (hC : NotRestarted s x)
    (hst : pacedClient.step s x = some (t, l)) :
    (50 + kReconnectDelayMs) * started l + t.loop.rested ≤ s.loop.rested + slept l := by
  obtain ⟨e, hmove, rfl⟩ := Machine.step_noting.mp hst
  rw [started_noted, slept_noted]
  by_cases hx : ∃ stub, x = .loop stub
  · obtain ⟨stub, rfl⟩ := hx
    exact pace_loop hmove
  · have hx : ∀ stub, x ≠ .loop stub := fun stub h => hx ⟨stub, h⟩
    obtain ⟨hloop, hcalls⟩ := loop_of_step hx hC hmove
    rw [hcalls]
    rcases hloop with hloop | ⟨-, hloop⟩
    · rw [hloop]
      omega
    · simp [hloop, LoopPc.rested]

theorem rested_le (pc : LoopPc) : pc.rested ≤ 50 + kReconnectDelayMs := by
  unfold LoopPc.rested
  split
  · exact Nat.le_refl _
  · exact Nat.le_refl _
  · split_ifs <;> omega
  · exact Nat.zero_le _

/-! ## The next call -/

/-- A step of `StreamLoop` with a stub; or, while the reactor it owns has not finished, of gRPC, which
ends the call of that reactor. -/
def Renewing (s : AuthClient) (x : ClientAct) : Prop :=
  x = .loop true ∨ ∃ k phase, s.loop = .own k phase ∧ s.finished k = false ∧
    (x = .done k false ∨ ∃ m, x = .message k m)

def Phase.toCalling : Phase → ℕ
  | .calling => 0
  | .starting => 1
  | .registered => 2
  | .delaying => 5
  | .resting => 6
  | .leaving => 7
  | .settling => 8
  | .dropping | .testing => 9
  | .waiting => 10

/-- What gRPC has to do before the reactor has finished. -/
def AuthClient.toFinish (s : AuthClient) (k : ℕ) : ℕ :=
  if s.finished k then 0 else if s.calls k = .active true then 2 else 1

/-- How far `StreamLoop` is from the next call. -/
def AuthClient.toCalling (s : AuthClient) : ℕ :=
  match s.loop with
  | .own k phase => phase.toCalling + if phase.isEarly then 0 else s.toFinish k
  | .creating => 3
  | _ => 4

/-- A reactor that has not finished, and whose call has been started. -/
theorem exists_finish (hI : ThreadInv s) (hr : s.running = true) (hloop : s.loop = .own k phase)
    (hlate : phase.isEarly = false) (hfin : s.finished k = false) :
    ∃ x t e, Renewing s x ∧ s.step x = some (t, e) ∧ t.running = true ∧
      t.toCalling < s.toCalling := by
  obtain ⟨-, hearly⟩ := hI.owned k phase hloop
  cases hcall : s.calls k with
  | unstarted => simp [hearly.mpr hcall] at hlate
  | active reading =>
    cases reading with
    | true =>
      refine ⟨.message k {}, _, _, .inr ⟨k, phase, hloop, hfin, .inr ⟨_, rfl⟩⟩, if_pos hcall, hr, ?_⟩
      simp [AuthClient.toCalling, AuthClient.toFinish, AuthClient.setCall, hloop, hlate, hfin, hcall]
    | false =>
      refine ⟨.done k false, _, _, .inr ⟨k, phase, hloop, hfin, .inl rfl⟩, if_pos hcall, hr, ?_⟩
      simp [AuthClient.toCalling, AuthClient.toFinish, AuthClient.setCall, AuthClient.setFinished,
        hloop, hlate, hfin, hcall]
  | ending ok | calledBack ok | notifying | closed =>
    simp [hI.done k (by simp [hcall, Call.delivered])] at hfin

/-- Until it starts a call, `StreamLoop` gets nearer to it. -/
theorem exists_toCalling_lt (hI : ThreadInv s) (hr : s.running = true)
    (hno : ∀ k, s.loop ≠ .own k .calling) : ∃ x t e, Renewing s x ∧ s.step x = some (t, e) ∧
      t.running = true ∧ t.toCalling < s.toCalling := by
  -- by a step of the loop
  have hgo : ∀ {t e}, s.streamLoop true = some (t, e) → t.toCalling < s.toCalling →
      ∃ x t e, Renewing s x ∧ s.step x = some (t, e) ∧ t.running = true ∧
        t.toCalling < s.toCalling := fun {t e} hst hlt =>
    ⟨.loop true, t, e, .inl rfl, hst, (running_streamLoop hst).trans hr, hlt⟩
  cases hloop : s.loop with
  | off => simp [hI.thread.mp hloop] at hr
  | exiting => exact absurd hloop (hI.looping hr).1
  | ended => exact absurd hloop (hI.looping hr).2
  | head =>
    have hst : s.streamLoop true = some ({ s with loop := .creating }, []) := by
      simp [AuthClient.streamLoop, hloop, hr]
    refine hgo hst ?_
    simp [AuthClient.toCalling, hloop]
  | creating =>
    have hst : s.streamLoop true = some ({ s with
        activeReactor := some s.reactors
        reactors := s.reactors + 1
        loop := .own s.reactors .registered }, []) := by
      simp [AuthClient.streamLoop, hloop]
    refine hgo hst ?_
    simp [AuthClient.toCalling, hloop, Phase.toCalling, Phase.isEarly]
  | own k phase =>
    have hturn : s.streamLoop true = some (s.turn k phase) := by
      simp only [AuthClient.streamLoop, hloop]
    cases phase with
    | calling => exact absurd hloop (hno k)
    | registered | starting =>
      refine hgo hturn ?_
      simp [AuthClient.toCalling, hloop, Phase.toCalling, Phase.isEarly]
    | delaying =>
      refine hgo hturn ?_
      simp only [AuthClient.toCalling, hloop, Phase.toCalling]
      omega
    | leaving =>
      refine hgo hturn ?_
      simp [AuthClient.toCalling, AuthClient.toFinish, hloop, Phase.toCalling, Phase.isEarly]
    | resting =>
      have hstep : s.turn k .resting = ({ s with loop := .own k .delaying }, []) := by
        simp [AuthClient.turn, hr]
      rw [hstep] at hturn
      refine hgo hturn ?_
      simp [AuthClient.toCalling, AuthClient.toFinish, hloop, Phase.toCalling, Phase.isEarly]
    | dropping =>
      refine hgo hturn ?_
      simp [AuthClient.toCalling, AuthClient.toFinish, AuthClient.setFinished, hloop,
        Phase.toCalling, Phase.isEarly]
      omega
    | waiting =>
      simp only [AuthClient.turn, hr, Bool.not_true, Bool.false_eq_true, if_false] at hturn
      split_ifs at hturn
      all_goals
        refine hgo hturn ?_
        simp [AuthClient.toCalling, AuthClient.toFinish, hloop, Phase.toCalling, Phase.isEarly]
    | testing | settling =>
      by_cases hfin : s.finished k = true
      · refine hgo hturn ?_
        simp [AuthClient.toCalling, AuthClient.toFinish, hloop, hfin, Phase.toCalling,
          Phase.isEarly]
      · exact exists_finish hI hr hloop rfl (Bool.eq_false_iff.mpr hfin)

theorem exists_calling (hI : ThreadInv s) (hr : s.running = true) :
    ∃ t e, authClient.Steps Renewing s t e ∧ ∃ k, t.loop = .own k .calling := by
  refine Machine.exists_steps_of_variant (P := fun s => ThreadInv s ∧ s.running = true)
    AuthClient.toCalling ?_ ⟨hI, hr⟩
  rintro s ⟨hI, hr⟩ hno
  have hno : ∀ k, s.loop ≠ .own k .calling := fun k hk => hno ⟨k, hk⟩
  obtain ⟨x, t, e, hx, hst, ht, hlt⟩ := exists_toCalling_lt hI hr hno
  exact ⟨x, t, e, hx, hst, ⟨hI.step hst, ht⟩, hlt⟩

/-- **Renewal.**  However streams end, the client starts calls at a pace of one for each delay; and
as long as it runs, `StreamLoop` gets to the next call, if need be when gRPC has ended the latest. -/
theorem client_renews {g : List ClientEvent} (r₀ : authClient.Reach s g) :
    (∀ t h, pacedClient.Steps NotRestarted s t h →
      (50 + kReconnectDelayMs) * started h ≤ 50 + kReconnectDelayMs + slept h) ∧
    (s.running = true → ∃ t e k, authClient.Steps Renewing s t (e ++ [.started k]) ∧
      t.calls k = .active false) := by
  constructor
  · intro t h r
    obtain ⟨-, hpace⟩ := @Machine.Steps.trades _ _ _ pacedClient NotRestarted s t h (fun _ => True)
      (fun h => (50 + kReconnectDelayMs) * started h) slept (fun s => s.loop.rested) rfl
      (fun h k => by rw [started_append, Nat.mul_add]) slept_append
      (fun _ hC hst => ⟨trivial, pace_step hC hst⟩) trivial r
    have hle := rested_le s.loop
    omega
  · intro hr
    obtain ⟨t, e, r, k, hk⟩ := exists_calling (threadInv_of_reach r₀) hr
    have hst : authClient.step t (.loop true) = some (t.turn k .calling) := by
      simp only [authClient, AuthClient.step, AuthClient.streamLoop, hk]
    refine ⟨_, e, k, r.tail (.inl rfl) hst, ?_⟩
    simp [AuthClient.setCall]

/-- A stream that fails, and the next one. -/
def failedStream : List ClientAct :=
  List.replicate 5 (.loop true) ++ [.done 0 false] ++ List.replicate 10 (.loop true)

theorem client_renews_failedStream : ∃ s g t h u e k, authClient.Reach s g ∧
    pacedClient.Steps NotRestarted s t h ∧ started h = 2 ∧ 5050 * 2 ≤ 5050 + slept h ∧
      authClient.Steps Renewing t u (e ++ [.started k]) ∧ u.calls k = .active false := by
  have r₀ : authClient.Reach ({} : AuthClient).start [] := .single (a := .start) trivial rfl
  obtain ⟨⟨t, h⟩, hq, hstarted, hrun⟩ : ∃ q ∈ pacedClient.execIn NotRestarted
      ({} : AuthClient).start failedStream, started q.2 = 2 ∧ q.1.running = true := by
    decide +kernel
  have r := Machine.steps_of_execIn hq
  obtain ⟨e, rt⟩ := r.of_noting
  have hpace := (client_renews r₀).1 t h r
  obtain ⟨u, e, k, ru, hk⟩ := (client_renews (r₀.trans (rt.mono fun _ _ _ => trivial))).2 hrun
  rw [hstarted] at hpace
  exact ⟨_, _, t, h, u, e, k, r₀, r, hstarted, hpace, ru, hk⟩

/-! ## The end -/

/-- The calls that the loop still starts when it is to end, and the time it may still spend. -/
def LoopPc.callsLeft : LoopPc → ℕ
  | .creating => 1
  | .own _ phase => if phase.isEarly then 1 else 0
  | _ => 0

def LoopPc.timeLeft : LoopPc → ℕ
  | .creating => 50
  | .own _ .waiting => 150
  | .own _ .delaying => kReconnectDelayMs
  | .own _ _ => 50
  | _ => 0

theorem left_loop {stub : Bool} (hr : s.running = false) (hst : s.streamLoop stub = some (t, e)) :
    (e.map ClientEvent.calls).sum + t.loop.callsLeft ≤ s.loop.callsLeft ∧
      ((s.pauses (.loop stub)).map Pause.most).sum + t.loop.timeLeft ≤ s.loop.timeLeft := by
  unfold AuthClient.streamLoop at hst
  cases hloop : s.loop with
  | off | ended => simp [hloop] at hst
  | head | creating | exiting =>
    simp only [hloop, hr, Option.some.injEq, Prod.mk.injEq] at hst
    obtain ⟨rfl, rfl⟩ := hst
    simp [LoopPc.callsLeft, LoopPc.timeLeft, Phase.isEarly, AuthClient.pauses, hloop, hr]
  | own k phase =>
    simp only [hloop, Option.some.injEq] at hst
    cases phase with
    | testing | waiting | settling | resting =>
      simp only [AuthClient.turn, hr, Bool.not_false, Bool.false_and, Bool.false_eq_true, if_true,
        if_false] at hst
      obtain ⟨rfl, rfl⟩ := Prod.mk.inj hst
      simp [LoopPc.callsLeft, LoopPc.timeLeft, Phase.isEarly, AuthClient.pauses, hloop, hr,
        Pause.most, ClientEvent.calls]
    | registered | starting | calling | dropping | leaving | delaying =>
      obtain ⟨rfl, rfl⟩ := Prod.mk.inj hst
      simp [LoopPc.callsLeft, LoopPc.timeLeft, Phase.isEarly, AuthClient.pauses, hloop,
        Pause.most, ClientEvent.calls]

theorem left_step {l : List (ClientEvent ⊕ Pause)} (hr : s.running = false)
    (hC : NotRestarted s x) (hst : pacedClient.step s x = some (t, l)) :
    started l + t.loop.callsLeft ≤ s.loop.callsLeft ∧
      paused l + t.loop.timeLeft ≤ s.loop.timeLeft := by
  obtain ⟨e, hmove, rfl⟩ := Machine.step_noting.mp hst
  rw [started_noted, paused_noted]
  by_cases hx : ∃ stub, x = .loop stub
  · obtain ⟨stub, rfl⟩ := hx
    exact left_loop hr hmove
  · have hx : ∀ stub, x ≠ .loop stub := fun stub h => hx ⟨stub, h⟩
    obtain ⟨hloop, hcalls⟩ := loop_of_step hx hC hmove
    rw [hcalls, pauses_of_ne_loop hx]
    rcases hloop with hloop | ⟨-, hloop⟩
    · simp [hloop]
    · simp [hloop, LoopPc.callsLeft, LoopPc.timeLeft]

theorem callsLeft_le (pc : LoopPc) : pc.callsLeft ≤ 1 := by
  unfold LoopPc.callsLeft
  split
  · exact Nat.le_refl 1
  · split_ifs <;> omega
  · exact Nat.zero_le 1

theorem timeLeft_le (pc : LoopPc) : pc.timeLeft ≤ kReconnectDelayMs := by
  unfold LoopPc.timeLeft kReconnectDelayMs
  split <;> omega

/-- A step of the thread of `StreamLoop`, or of that in `Stop`. -/
def ClientAct.ending : ClientAct → Bool
  | .loop _ | .stopActive | .stopNotify | .join => true
  | _ => false

/-- How far the loop is from its end. -/
def LoopPc.toEnd : LoopPc → ℕ
  | .off | .ended => 0
  | .exiting => 1
  | .head | .own _ .resting => 2
  | .own _ .delaying | .own _ .leaving => 3
  | .own _ .settling => 4
  | .own _ .dropping | .own _ .testing | .own _ .waiting => 5
  | .own _ .calling => 6
  | .own _ .starting => 7
  | .own _ .registered => 8
  | .creating => 9

def StopPc.toEnd : StopPc → ℕ
  | .idle => 0
  | .joining => 1
  | .notifying => 2
  | .flagged => 3

theorem toEnd_loop {stub : Bool} (hr : s.running = false) (hst : s.streamLoop stub = some (t, e)) :
    t.loop.toEnd < s.loop.toEnd ∧ t.stopping = s.stopping := by
  unfold AuthClient.streamLoop at hst
  cases hloop : s.loop with
  | off | ended => simp [hloop] at hst
  | head | creating | exiting =>
    simp only [hloop, hr, Option.some.injEq, Prod.mk.injEq] at hst
    obtain ⟨rfl, rfl⟩ := hst
    simp [LoopPc.toEnd]
  | own k phase =>
    simp only [hloop, Option.some.injEq] at hst
    cases phase with
    | testing | waiting | settling | resting =>
      simp only [AuthClient.turn, hr, Bool.not_false, Bool.false_and, Bool.false_eq_true, if_true,
        if_false] at hst
      obtain ⟨rfl, rfl⟩ := Prod.mk.inj hst
      simp [LoopPc.toEnd]
    | registered | starting | calling | dropping | leaving | delaying =>
      obtain ⟨rfl, rfl⟩ := Prod.mk.inj hst
      exact ⟨by simp [LoopPc.toEnd], rfl⟩

/-- `Stop`, if it has not returned, can go on, or waits for a loop that can. -/
theorem exists_toEnd_lt (hI : ThreadInv s) (hs : s.stopping ≠ .idle) : ∃ x t e,
    x.ending = true ∧ s.step x = some (t, e) ∧
      t.loop.toEnd + t.stopping.toEnd < s.loop.toEnd + s.stopping.toEnd := by
  cases hstop : s.stopping with
  | idle => exact absurd hstop hs
  | flagged =>
    refine ⟨.stopActive, _, _, rfl, if_pos hstop, ?_⟩
    have hloop : s.stopActive.loop = s.loop := by
      unfold AuthClient.stopActive
      split <;> rfl
    simp [hloop, StopPc.toEnd]
  | notifying =>
    refine ⟨.stopNotify, _, _, rfl, if_pos hstop, ?_⟩
    simp [StopPc.toEnd]
  | joining =>
    by_cases hended : s.loop = .ended
    · refine ⟨.join, _, _, rfl, if_pos ⟨hstop, hended⟩, ?_⟩
      simp [hended, LoopPc.toEnd, StopPc.toEnd]
    · have hoff : s.loop ≠ .off := fun hoff => hs (hI.thread.mp hoff).2
      obtain ⟨⟨t, e⟩, hst⟩ : ∃ q, s.streamLoop true = some q := by
        unfold AuthClient.streamLoop
        cases hloop : s.loop with
        | off => exact absurd hloop hoff
        | ended => exact absurd hloop hended
        | _ => exact ⟨_, rfl⟩
      obtain ⟨hlt, hsame⟩ := toEnd_loop (hI.stopping hs) hst
      refine ⟨.loop true, t, e, rfl, hst, ?_⟩
      rw [hsame, hstop]
      omega

theorem exists_stopped (hI : ThreadInv s) (hr : s.running = false) :
    ∃ t e, authClient.Steps (fun _ x => x.ending = true) s t e ∧ t.stopping = .idle ∧
      t.loop = .off := by
  refine Machine.exists_steps_of_variant (P := fun s => ThreadInv s ∧ s.running = false)
    (fun s => s.loop.toEnd + s.stopping.toEnd) ?_ ⟨hI, hr⟩
  rintro s ⟨hI, hr⟩ hno
  have hs : s.stopping ≠ .idle := fun hidle => hno ⟨hidle, hI.thread.mpr ⟨hr, hidle⟩⟩
  obtain ⟨x, t, e, hx, hst, hlt⟩ := exists_toEnd_lt hI hs
  have hC : NotRestarted s x := fun hstart => by simp [hstart, ClientAct.ending] at hx
  exact ⟨x, t, e, hx, hst, ⟨hI.step hst, running_of_step hr hC hst⟩, hlt⟩

/-- **`Stop` returns.**  Once `running_` has been reset, the loop starts one call more at most and
spends five seconds at most in pauses, and from every later state the threads of `StreamLoop` and
`Stop` alone bring `Stop` to its return. -/
theorem stop_returns {g : List ClientEvent} (r₀ : authClient.Reach s g) (hr : s.running = false)
    (r : pacedClient.Steps NotRestarted s t h) :
    t.running = false ∧ started h ≤ 1 ∧ paused h ≤ kReconnectDelayMs ∧
      ∃ u e, authClient.Steps (fun _ x => x.ending = true) t u e ∧ u.stopping = .idle ∧
        u.loop = .off := by
  have hspends : ∀ {cost : List (ClientEvent ⊕ Pause) → ℕ} {φ : AuthClient → ℕ}, cost [] = 0 →
      (∀ h k, cost (h ++ k) = cost h + cost k) →
      (∀ {s x t l}, s.running = false → NotRestarted s x → pacedClient.step s x = some (t, l) →
        cost l + φ t ≤ φ s) → t.running = false ∧ cost h + φ t ≤ φ s := by
    intro cost φ hnil happend hpays
    refine r.spends (P := fun s => s.running = false) hnil happend (fun hP hC hst => ?_) hr
    obtain ⟨e, hmove, -⟩ := Machine.step_noting.mp hst
    exact ⟨running_of_step hP hC hmove, hpays hP hC hst⟩
  obtain ⟨ht, hcalls⟩ := hspends (φ := fun s => s.loop.callsLeft) rfl started_append
    fun hP hC hst => (left_step hP hC hst).1
  obtain ⟨-, htime⟩ := hspends (φ := fun s => s.loop.timeLeft) rfl paused_append
    fun hP hC hst => (left_step hP hC hst).2
  have hle := callsLeft_le s.loop
  have hle' := timeLeft_le s.loop
  obtain ⟨e, rt⟩ := r.of_noting
  have hIt := threadInv_of_reach (r₀.trans (rt.mono fun _ _ _ => trivial))
  exact ⟨ht, by omega, by omega, exists_stopped hIt ht⟩

/-- `Stop` is called when the first stream has failed, before the delay. -/
def stoppedInDelay : List ClientAct :=
  [.start] ++ List.replicate 5 (.loop true) ++ [.done 0 false] ++ List.replicate 4 (.loop true) ++
    [.stop]

theorem stop_returns_stoppedInDelay : ∃ s g t u e, authClient.Reach s g ∧
    s.loop = .own 0 .delaying ∧ s.stopping = .flagged ∧
      pacedClient.Steps NotRestarted s t [.inl (.released 0), .inr (.sleep 5000)] ∧
      authClient.Steps (fun _ x => x.ending = true) t u e ∧ u.stopping = .idle ∧ u.loop = .off := by
  obtain ⟨s, g, r₀, hloop, hrun, hstop⟩ := Machine.exists_run_schedule authClient (fun _ _ => True)
    stoppedInDelay (P := fun q => q.1.loop = .own 0 .delaying ∧ q.1.running = false ∧
      q.1.stopping = .flagged) (by decide +kernel)
  have hstep : authClient.step s (.loop true) = some ({ s with loop := .head }, [.released 0]) := by
    simp only [authClient, AuthClient.step, AuthClient.streamLoop, show s.loop = _ from hloop]
    rfl
  have hpauses : s.pauses (.loop true) = [.sleep 5000] := by
    simp only [AuthClient.pauses, show s.loop = _ from hloop]
    rfl
  have hst : pacedClient.step s (.loop true) =
      some ({ s with loop := .head }, [.inl (.released 0), .inr (.sleep 5000)]) :=
    Machine.step_noting.mpr ⟨_, hstep, by rw [hpauses]; rfl⟩
  have r : pacedClient.Steps NotRestarted s _ _ := .single (by simp [NotRestarted]) hst
  obtain ⟨-, -, -, u, e, ru, hu⟩ := stop_returns r₀ hrun r
  exact ⟨s, g, _, u, e, r₀, hloop, hstop, r, ru, hu⟩

end Zurg.Auth
