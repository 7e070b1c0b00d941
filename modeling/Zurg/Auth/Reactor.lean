import Zurg.Auth.Client

/-!
# Zurg.Auth.Reactor — a reactor is released after its `OnDone`

`StreamLoop` leaves a reactor alone until its `OnDone` in every run in which nobody else sets
`finished_` or resets `running_` before: `Stop` is called only while no reactor is being made or
waits for its `OnDone`, and no notification of an earlier stream reaches the loop meanwhile.
-/

namespace Zurg.Auth

open Lib

/-- gRPC has delivered `OnDone`. -/
def Call.delivered : Call → Bool
  | .unstarted | .active _ => false
  | _ => true

/-- The call has not been started. -/
def Phase.isEarly : Phase → Bool
  | .registered | .starting | .calling => true
  | _ => false

/-- The loop has given the reactor up. -/
def Phase.isLate : Phase → Bool
  | .dropping | .leaving | .resting | .delaying => true
  | _ => false

/-- A reactor is destroyed after its `OnDone`, and the next one is started after it. -/
def DoneFirst : List ClientEvent → Prop :=
  Always fun pre x =>
    (∀ k, x = .released k → .started k ∈ pre → .done k ∈ pre) ∧
    ∀ k, x = .started k → ∀ j, .started j ∈ pre → .done j ∈ pre

namespace AuthClient

variable (s : AuthClient)

/-- `StreamLoop` is about to make a reactor, or has one that waits for its `OnDone`. -/
def awaiting : Bool :=
  match s.loop with
  | .creating => true
  | .own k _ => !(s.calls k).delivered
  | _ => false

/-- A notification makes `StreamLoop` give up a reactor that waits for its `OnDone`. -/
def misled : Bool :=
  match s.loop with
  | .own k .waiting => s.running && s.reconnectNeeded && !(s.calls k).delivered
  | _ => false

/-- Only the reactor that the loop owns waits for its `OnDone`. -/
def Placed : Prop :=
  match s.loop with
  | .own k phase => k < s.reactors ∧ (phase.isEarly = true ↔ s.calls k = .unstarted) ∧
      (phase.isLate = true → (s.calls k).delivered = true) ∧
      ∀ j < s.reactors, j ≠ k → (s.calls j).delivered = true
  | _ => ∀ j < s.reactors, (s.calls j).delivered = true

end AuthClient

/-- Nobody but `OnDone` ends the wait for it. -/
def Undisturbed (s : AuthClient) : ClientAct → Prop
  | .stop => s.running = true → s.awaiting = false
  | .loop _ => s.misled = false
  | _ => True

instance (s : AuthClient) : ∀ x, Decidable (Undisturbed s x)
  | .stop => inferInstanceAs (Decidable (_ → _))
  | .loop _ => inferInstanceAs (Decidable (_ = _))
  | .start | .stopActive | .stopNotify | .join | .readDone _ | .message _ _ | .done _ _
  | .callBack _ | .testStatus _ | .notifyReconnect _ => .isTrue trivial

structure LoopInv (s : AuthClient) (h : List ClientEvent) : Prop where
  fresh : ∀ k, s.reactors ≤ k → s.calls k = .unstarted
  placed : s.Placed
  active : ∀ k, s.activeReactor = some k → k < s.reactors
  finished : ∀ k, s.finished k = true → (s.calls k).delivered = true
  stopping : s.stopping ≠ .idle → s.running = false
  stopped : s.running = false → s.awaiting = false
  started : ∀ k, .started k ∈ h ↔ s.calls k ≠ .unstarted
  done : ∀ k, .done k ∈ h ↔ (s.calls k).delivered = true
  order : DoneFirst h

variable {s t : AuthClient} {h e : List ClientEvent} {k : ℕ} {c : Call}

theorem loopInv_init : LoopInv {} [] where
  fresh _ _ := rfl
  placed := by simp [AuthClient.Placed]
  active := by simp
  finished := by simp
  stopping := by simp
  stopped _ := rfl
  started := by simp
  done := by simp [Call.delivered]
  order := .nil

namespace LoopInv

/-- Once `running_` has been reset no reactor waits. -/
theorem delivered_of_stopped (hI : LoopInv s h) (hr : s.running = false) (hk : k < s.reactors) :
    (s.calls k).delivered = true := by
  have hplaced := hI.placed
  have hno := hI.stopped hr
  unfold AuthClient.Placed at hplaced
  unfold AuthClient.awaiting at hno
  cases hloop : s.loop with
  | own j phase =>
    simp only [hloop, Bool.not_eq_false'] at hplaced hno
    by_cases hjk : k = j
    · exact hjk ▸ hno
    · exact hplaced.2.2.2 k hk hjk
  | creating => simp [hloop] at hno
  | _ =>
    simp only [hloop] at hplaced
    exact hplaced k hk

theorem quiet (hI : LoopInv s h) (he : ∀ k, .started k ∉ e ∧ .released k ∉ e) :
    DoneFirst (h ++ e) := by
  refine Always.append hI.order fun pre x post heq => ?_
  have hx : x ∈ e := heq ▸ List.mem_append_right _ List.mem_cons_self
  exact ⟨fun k hk => absurd (hk ▸ hx) (he k).2, fun k hk => absurd (hk ▸ hx) (he k).1⟩

/-- A callback of reactor `k`. -/
theorem callback (hI : LoopInv s h) (hk : s.calls k ≠ .unstarted) (hc : c ≠ .unstarted)
    (hmono : (s.calls k).delivered = true → c.delivered = true)
    (hcalls : t.calls = Function.update s.calls k c)
    (hsame : (t.loop, t.running, t.reactors, t.activeReactor, t.stopping) =
      (s.loop, s.running, s.reactors, s.activeReactor, s.stopping))
    (hfin : ∀ j, t.finished j = true → s.finished j = true ∨ j = k ∧ c.delivered = true)
    (hdone : ∀ j, .done j ∈ e → j = k ∧ c.delivered = true)
    (hdone' : c.delivered = true → (s.calls k).delivered = true ∨ .done k ∈ e)
    (he : ∀ k, .started k ∉ e ∧ .released k ∉ e) : LoopInv t (h ++ e) := by
  simp only [Prod.mk.injEq] at hsame
  obtain ⟨hloop, hrun, hreactors, hactive, hstopping⟩ := hsame
  have hat : ∀ j, t.calls j = if j = k then c else s.calls j := by
    intro j
    rw [hcalls, Function.update_apply]
  have hfree : ∀ j, t.calls j = .unstarted ↔ s.calls j = .unstarted := by
    intro j
    rw [hat]
    split_ifs with hjk
    · exact iff_of_false hc (hjk ▸ hk)
    · rfl
  have hup : ∀ j, (s.calls j).delivered = true → (t.calls j).delivered = true := by
    intro j hj
    rw [hat]
    split_ifs with hjk
    · exact hmono (hjk ▸ hj)
    · exact hj
  refine
    { fresh := fun j hj => (hfree j).mpr (hI.fresh j (hreactors ▸ hj))
      placed := ?placed
      active := hactive ▸ hreactors ▸ hI.active
      finished := ?finished
      stopping := hstopping ▸ hrun ▸ hI.stopping
      stopped := ?stopped
      started := ?started
      done := ?done
      order := hI.quiet he }
  case placed =>
    have hplaced := hI.placed
    unfold AuthClient.Placed at hplaced ⊢
    rw [hloop, hreactors]
    split at hplaced
    · obtain ⟨hlt, hearly, hlate, hothers⟩ := hplaced
      exact ⟨hlt, hearly.trans (hfree _).symm, fun hp => hup _ (hlate hp),
        fun j hj hne => hup _ (hothers j hj hne)⟩
    · exact fun j hj => hup j (hplaced j hj)
  case finished =>
    intro j hj
    rcases hfin j hj with hj | ⟨rfl, hj⟩
    · exact hup j (hI.finished j hj)
    · rwa [hat, if_pos rfl]
  case stopped =>
    intro hr
    have hno := hI.stopped (hrun ▸ hr)
    unfold AuthClient.awaiting at hno ⊢
    rw [hloop]
    split at hno
    · exact hno
    · rw [Bool.not_eq_false'] at hno ⊢
      exact hup _ hno
    · rfl
  case started =>
    intro j
    rw [List.mem_append, or_iff_left (he j).1, hI.started j, Ne, Ne, hfree]
  case done =>
    intro j
    rw [List.mem_append, hI.done j]
    constructor
    · rintro (hj | hj)
      · exact hup j hj
      · obtain ⟨rfl, hcd⟩ := hdone j hj
        rwa [hat, if_pos rfl]
    · intro hj
      rw [hat] at hj
      split_ifs at hj with hjk
      · exact hjk ▸ hdone' hj
      · exact .inl hj

/-- A step that leaves the calls alone. -/
theorem move (hI : LoopInv s h) (hcalls : t.calls = s.calls) (hreactors : t.reactors = s.reactors)
    (hplaced : t.Placed) (hactive : ∀ k, t.activeReactor = some k → s.activeReactor = some k)
    (hfin : ∀ k, t.finished k = true → (s.calls k).delivered = true)
    (hstopping : t.stopping ≠ .idle → t.running = false)
    (hstopped : t.running = false → t.awaiting = false)
    (he : ∀ k, .started k ∉ e ∧ .done k ∉ e) (horder : DoneFirst (h ++ e)) :
    LoopInv t (h ++ e) where
  fresh := by
    rw [hcalls, hreactors]
    exact hI.fresh
  placed := hplaced
  active k hk := hreactors ▸ hI.active k (hactive k hk)
  finished k hk := by
    rw [hcalls]
    exact hfin k hk
  stopping := hstopping
  stopped := hstopped
  started k := by
    rw [hcalls, List.mem_append, or_iff_left (he k).1]
    exact hI.started k
  done k := by
    rw [hcalls, List.mem_append, or_iff_left (he k).2]
    exact hI.done k
  order := horder

/-- A step within the turn that owns reactor `k`. -/
theorem turnTo (hI : LoopInv s h) {phase phase' : Phase} (hloop : s.loop = .own k phase)
    (hloop' : t.loop = .own k phase') (hcalls : t.calls = s.calls)
    (hsame : (t.running, t.reactors, t.stopping) = (s.running, s.reactors, s.stopping))
    (hearly : phase'.isEarly = phase.isEarly)
    (hlate : phase'.isLate = true → (s.calls k).delivered = true)
    (hactive : ∀ k, t.activeReactor = some k → s.activeReactor = some k)
    (hfin : ∀ j, t.finished j = true → (s.calls j).delivered = true) : LoopInv t (h ++ []) := by
  simp only [Prod.mk.injEq] at hsame
  obtain ⟨hrun, hreactors, hstopping⟩ := hsame
  refine hI.move hcalls hreactors ?_ hactive hfin ?_ ?_ (by simp) (hI.quiet (by simp))
  · have hplaced := hI.placed
    simp only [AuthClient.Placed, hloop, hloop', hcalls, hreactors] at hplaced ⊢
    exact ⟨hplaced.1, hearly ▸ hplaced.2.1, hlate, hplaced.2.2.2⟩
  · rw [hstopping, hrun]
    exact hI.stopping
  · have hno := hI.stopped
    simpa only [AuthClient.awaiting, hloop, hloop', hcalls, hrun] using hno

/-- The end of a turn. -/
theorem release (hI : LoopInv s h) {phase : Phase} (hloop : s.loop = .own k phase)
    (hlate : phase.isLate = true) {pc : LoopPc} (hpc : pc = .exiting ∨ pc = .head) :
    LoopInv { s with loop := pc } (h ++ [.released k]) := by
  have hplaced := hI.placed
  simp only [AuthClient.Placed, hloop] at hplaced
  have hall : ∀ j < s.reactors, (s.calls j).delivered = true := by
    intro j hj
    by_cases hjk : j = k
    · exact hjk ▸ hplaced.2.2.1 hlate
    · exact hplaced.2.2.2 j hj hjk
  refine hI.move rfl rfl ?_ (fun _ => id) hI.finished hI.stopping ?_ (by simp) ?_
  · rcases hpc with rfl | rfl <;> exact hall
  · rcases hpc with rfl | rfl <;> exact fun _ => rfl
  · refine Always.snoc hI.order ⟨fun j hj _ => ?_, by simp⟩
    obtain rfl := ClientEvent.released.inj hj
    exact (hI.done k).mpr (hplaced.2.2.1 hlate)

/-- `StartCall`. -/
theorem startCall (hI : LoopInv s h) (hloop : s.loop = .own k .calling) :
    LoopInv (s.turn k .calling).1 (h ++ [.started k]) := by
  have hplaced := hI.placed
  simp only [AuthClient.Placed, hloop] at hplaced
  obtain ⟨hlt, hearly, -, hothers⟩ := hplaced
  have hfree : s.calls k = .unstarted := hearly.mp rfl
  have hat : ∀ j, (s.turn k .calling).1.calls j = if j = k then .active false else s.calls j :=
    fun j => by simp [AuthClient.turn, AuthClient.setCall, Function.update_apply]
  have hkeep : ∀ j, (s.calls j).delivered = true →
      ((s.turn k .calling).1.calls j).delivered = true := by
    intro j hj
    have hjk : j ≠ k := by
      rintro rfl
      simp [hfree, Call.delivered] at hj
    rwa [hat, if_neg hjk]
  have hrun : s.running = true := by
    by_contra hr
    have hno := hI.stopped (by simpa using hr)
    simp [AuthClient.awaiting, hloop, hfree, Call.delivered] at hno
  refine
    { fresh := ?fresh
      placed := ?placed
      active := hI.active
      finished := fun j hj => hkeep j (hI.finished j hj)
      stopping := hI.stopping
      stopped := ?stopped
      started := ?started
      done := ?done
      order := ?order }
  case fresh =>
    intro j hj
    rw [hat, if_neg (Nat.ne_of_gt (Nat.lt_of_lt_of_le hlt hj))]
    exact hI.fresh j hj
  case placed =>
    refine ⟨hlt, ?_, by simp [Phase.isLate], fun j hj hjk => hkeep j (hothers j hj hjk)⟩
    rw [hat, if_pos rfl]
    simp [Phase.isEarly]
  case stopped =>
    intro hr
    exact nomatch hrun.symm.trans hr
  case started =>
    intro j
    rw [hat, List.mem_append, hI.started j]
    split_ifs with hjk
    · simp [hjk]
    · simp [hjk]
  case done =>
    intro j
    rw [hat, List.mem_append, hI.done j]
    split_ifs with hjk
    · simp [hjk, hfree, Call.delivered]
    · simp
  case order =>
    refine Always.snoc hI.order ⟨by simp, fun j hj i hi => ?_⟩
    obtain rfl := ClientEvent.started.inj hj
    have hne := (hI.started i).mp hi
    have hik : i ≠ k := fun hik => hne (hik ▸ hfree)
    refine (hI.done i).mpr (hothers i ?_ hik)
    by_contra hlt'
    exact hne (hI.fresh i (Nat.le_of_not_lt hlt'))

theorem turn (hI : LoopInv s h) {phase : Phase} (hloop : s.loop = .own k phase)
    (hC : s.misled = false) : LoopInv (s.turn k phase).1 (h ++ (s.turn k phase).2) := by
  have hplaced := hI.placed
  simp only [AuthClient.Placed, hloop] at hplaced
  obtain ⟨hlt, hearly, hlate, hothers⟩ := hplaced
  cases phase with
  | registered =>
    exact hI.turnTo hloop rfl rfl rfl rfl (by simp [Phase.isLate]) (fun _ => id) hI.finished
  | starting =>
    refine hI.turnTo hloop rfl rfl rfl rfl (by simp [Phase.isLate]) (fun _ => id) fun j hj => ?_
    have hj : j ≠ k ∧ s.finished j = true := by
      simpa [AuthClient.turn, AuthClient.setFinished, Function.update_apply] using hj
    exact hI.finished j hj.2
  | calling => exact hI.startCall hloop
  | testing =>
    refine hI.turnTo hloop rfl rfl rfl ?_ ?_ (fun _ => id) hI.finished <;>
      split_ifs <;> simp [Phase.isEarly, Phase.isLate]
  | waiting =>
    simp only [AuthClient.turn]
    simp only [AuthClient.misled, hloop] at hC
    split_ifs with hr hn
    · exact hI.turnTo hloop rfl rfl rfl rfl (by simp [Phase.isLate])
        (fun _ => id) hI.finished
    · refine hI.turnTo hloop rfl rfl rfl rfl (fun _ => ?_) (fun _ => id)
        hI.finished
      simp only [Bool.not_eq_true, Bool.not_eq_false'] at hr
      simpa [hn, hr] using hC
    · exact hI.turnTo hloop rfl rfl rfl rfl (by simp [Phase.isLate])
        (fun _ => id) hI.finished
  | dropping =>
    refine hI.turnTo hloop rfl rfl rfl rfl (by simp [Phase.isLate])
      (fun _ => id) fun j hj => ?_
    have hj : j = k ∨ s.finished j = true := by
      simpa [AuthClient.turn, AuthClient.setFinished, Function.update_apply, or_iff_not_imp_left]
        using hj
    rcases hj with rfl | hj
    · exact hlate rfl
    · exact hI.finished j hj
  | settling =>
    refine hI.turnTo hloop rfl rfl rfl ?_ ?_ (fun _ => id) hI.finished
    · split_ifs <;> rfl
    · split_ifs with hw
      · simp [Phase.isLate]
      · -- the only way on from the second loop
        refine fun _ => ?_
        by_cases hr : s.running = true
        · exact hI.finished k (by simpa [hr] using hw)
        · exact hI.delivered_of_stopped (by simpa using hr) hlt
  | leaving =>
    refine hI.turnTo hloop rfl rfl rfl rfl (fun _ => hlate rfl) ?_ hI.finished
    intro j hj
    have hj : s.activeReactor ≠ some k ∧ s.activeReactor = some j := by
      simpa [AuthClient.turn] using hj
    exact hj.2
  | resting =>
    simp only [AuthClient.turn]
    split_ifs
    · exact hI.release hloop rfl (.inl rfl)
    · exact hI.turnTo hloop rfl rfl rfl rfl (fun _ => hlate rfl) (fun _ => id)
        hI.finished
  | delaying => exact hI.release hloop rfl (.inr rfl)

theorem streamLoop {stub : Bool} (hI : LoopInv s h) (hC : s.misled = false)
    (hst : s.streamLoop stub = some (t, e)) : LoopInv t (h ++ e) := by
  have hplaced := hI.placed
  unfold AuthClient.streamLoop at hst
  cases hloop : s.loop with
  | off => simp [hloop] at hst
  | ended => simp [hloop] at hst
  | head =>
    simp only [hloop, Option.some.injEq, Prod.mk.injEq] at hst
    simp only [AuthClient.Placed, hloop] at hplaced
    obtain ⟨rfl, rfl⟩ := hst
    refine hI.move rfl rfl ?_ (fun _ => id) hI.finished hI.stopping (fun hr => ?_) (by simp)
      (hI.quiet (by simp))
    · split_ifs <;> exact hplaced
    · simp [AuthClient.awaiting, show s.running = false from hr]
  | creating =>
    simp only [hloop, Option.some.injEq, Prod.mk.injEq] at hst
    simp only [AuthClient.Placed, hloop] at hplaced
    obtain ⟨rfl, rfl⟩ := hst
    have hrun : s.running ≠ false := by
      intro hr
      have hno := hI.stopped hr
      simp [AuthClient.awaiting, hloop] at hno
    rw [List.append_nil]
    refine
      { fresh := fun k hk => hI.fresh k (Nat.le_of_succ_le hk)
        placed := ?placed
        active := ?active
        finished := hI.finished
        stopping := hI.stopping
        stopped := fun hr => absurd hr hrun
        started := hI.started
        done := hI.done
        order := hI.order }
    case placed =>
      refine ⟨Nat.lt_succ_self _, iff_of_true rfl (hI.fresh _ (Nat.le_refl _)),
        by simp [Phase.isLate], ?_⟩
      exact fun j hj hne => hplaced j (Nat.lt_of_le_of_ne (Nat.le_of_lt_succ hj) hne)
    case active =>
      intro k hk
      obtain rfl := Option.some.inj hk
      exact Nat.lt_succ_self _
  | own k phase =>
    simp only [hloop, Option.some.injEq] at hst
    have ht := hI.turn hloop hC
    rwa [hst] at ht
  | exiting =>
    simp only [hloop, Option.some.injEq, Prod.mk.injEq] at hst
    simp only [AuthClient.Placed, hloop] at hplaced
    obtain ⟨rfl, rfl⟩ := hst
    exact hI.move rfl rfl hplaced (by simp) hI.finished hI.stopping (fun _ => rfl) (by simp)
      (hI.quiet (by simp))

/-- **One step.** -/
theorem step {x : ClientAct} (hI : LoopInv s h) (hC : Undisturbed s x)
    (hst : s.step x = some (t, e)) : LoopInv t (h ++ e) := by
  cases x with
  | start =>
    obtain ⟨hidle, rfl, rfl⟩ := Machine.guarded_iff.mp hst
    unfold AuthClient.start
    split_ifs with hr
    · rwa [List.append_nil]
    · refine hI.move rfl rfl ?_ (fun _ => id) hI.finished (fun hne => absurd hidle hne) (by simp)
        (by simp) (hI.quiet (by simp))
      exact fun k hk => hI.delivered_of_stopped (by simpa using hr) hk
  | stop =>
    obtain ⟨hidle, ⟨hr, rfl, rfl⟩ | ⟨hr, rfl, rfl⟩⟩ := AuthClient.step_stop hst
    · exact hI.move rfl rfl hI.placed (fun _ => id) hI.finished (fun _ => rfl)
        (fun _ => hC hr) (by simp) (hI.quiet (by simp))
    · exact hI.move rfl rfl hI.placed (fun _ => id) hI.finished hI.stopping hI.stopped (by simp)
        (hI.quiet (by simp))
  | stopActive =>
    obtain ⟨hflagged, rfl, rfl⟩ := Machine.guarded_iff.mp hst
    have hr : s.running = false := hI.stopping (by simp [hflagged])
    unfold AuthClient.stopActive
    split
    · next k hk =>
      refine hI.move rfl rfl hI.placed (fun _ => id) (fun j hj => ?_) (fun _ => hr) hI.stopped
        (by simp) (hI.quiet (by simp))
      have hj : j = k ∨ s.finished j = true := by
        simpa [AuthClient.setFinished, Function.update_apply, or_iff_not_imp_left] using hj
      rcases hj with rfl | hj
      · exact hI.delivered_of_stopped hr (hI.active j hk)
      · exact hI.finished j hj
    · exact hI.move rfl rfl hI.placed (fun _ => id) hI.finished (fun _ => hr) hI.stopped
        (by simp) (hI.quiet (by simp))
  | stopNotify =>
    obtain ⟨hnotifying, rfl, rfl⟩ := Machine.guarded_iff.mp hst
    exact hI.move rfl rfl hI.placed (fun _ => id) hI.finished
      (fun _ => hI.stopping (by simp [hnotifying])) hI.stopped (by simp) (hI.quiet (by simp))
  | join =>
    obtain ⟨⟨hjoining, hended⟩, rfl, rfl⟩ := Machine.guarded_iff.mp hst
    have hr : s.running = false := hI.stopping (by simp [hjoining])
    refine hI.move rfl rfl ?_ (fun _ => id) hI.finished (by simp) (fun _ => rfl) (by simp)
      (hI.quiet (by simp))
    exact fun k hk => hI.delivered_of_stopped hr hk
  | loop stub => exact hI.streamLoop hC hst
  | readDone k =>
    obtain ⟨⟨hcall, -⟩, rfl, rfl⟩ := Machine.guarded_iff.mp hst
    exact hI.callback (k := k) (c := .active true) (by simp [hcall]) (by simp)
      (by simp [hcall, Call.delivered]) rfl rfl (fun _ => .inl) (by simp) (by simp [Call.delivered])
      (by simp)
  | message k m =>
    obtain ⟨hcall, rfl, rfl⟩ := Machine.guarded_iff.mp hst
    exact hI.callback (k := k) (c := .active false) (by simp [hcall]) (by simp)
      (by simp [hcall, Call.delivered]) rfl rfl (fun _ => .inl) (by simp) (by simp [Call.delivered])
      (by simp)
  | done k ok =>
    obtain ⟨hcall, rfl, rfl⟩ := Machine.guarded_iff.mp hst
    refine hI.callback (k := k) (c := .ending ok) (by simp [hcall]) (by simp) (fun _ => rfl) rfl rfl
      (fun j hj => ?_) (by simp [Call.delivered]) (fun _ => .inr (by simp)) (by simp)
    have hj : j = k ∨ s.finished j = true := by
      simpa [AuthClient.setFinished, AuthClient.setCall, Function.update_apply,
        or_iff_not_imp_left] using hj
    exact hj.elim (fun hjk => .inr ⟨hjk, rfl⟩) .inl
  | callBack k =>
    obtain ⟨ok, hcall, rfl, rfl⟩ := AuthClient.step_callBack hst
    exact hI.callback (k := k) (c := .calledBack ok) (by simp [hcall]) (by simp) (fun _ => rfl)
      rfl rfl (fun _ => .inl) (by simp) (by simp [hcall, Call.delivered]) (by simp)
  | testStatus k =>
    obtain ⟨ok, hcall, rfl, rfl⟩ := AuthClient.step_testStatus hst
    refine hI.callback (k := k) (by simp [hcall]) ?_ (fun _ => ?_) rfl rfl (fun _ => .inl)
      (by simp) (by simp [hcall, Call.delivered]) (by simp) <;>
      split_ifs <;> simp [Call.delivered]
  | notifyReconnect k =>
    obtain ⟨hcall, rfl, rfl⟩ := Machine.guarded_iff.mp hst
    exact hI.callback (k := k) (c := .closed) (by simp [hcall]) (by simp) (fun _ => rfl) rfl rfl
      (fun _ => .inl) (by simp) (by simp [hcall, Call.delivered]) (by simp)

end LoopInv

theorem loopInv_of_run (r : authClient.Run Undisturbed s h) : LoopInv s h :=
  Machine.Run.invariant loopInv_init (fun _ hI hC hst => hI.step hC hst) r

/-! ## When the wait is disturbed -/

/-- After `h`, the loop can go on until it destroys reactor `k`, and no `OnDone` comes meanwhile. -/
def Releases (k : ℕ) (h : List ClientEvent) (s : AuthClient) : Prop :=
  ∃ u e, authClient.Steps (fun _ _ => True) s u (e ++ [.released k]) ∧ .started k ∈ h ++ e ∧
    ∀ j, .done j ∉ e

theorem Releases.not_doneFirst (hr : Releases k h s) (hd : .done k ∉ h) :
    ∃ u e, authClient.Steps (fun _ _ => True) s u e ∧ ¬ DoneFirst (h ++ e) := by
  obtain ⟨u, e, hu, hstarted, hno⟩ := hr
  refine ⟨u, _, hu, fun horder => ?_⟩
  rw [← List.append_assoc] at horder
  rcases List.mem_append.mp (horder.last.1 k rfl hstarted) with hk | hk
  · exact hd hk
  · exact hno k hk

theorem releases_of_streamLoop (hst : s.streamLoop true = some (t, e)) (he : ∀ j, .done j ∉ e)
    (ht : Releases k (h ++ e) t) : Releases k h s := by
  obtain ⟨u, e', hu, hstarted, hno⟩ := ht
  refine ⟨u, e ++ e', ?_, by rwa [← List.append_assoc], fun j hj => ?_⟩
  · rw [List.append_assoc]
    exact (Machine.Steps.single (a := .loop true) trivial hst).trans hu
  · exact (List.mem_append.mp hj).elim (he j) (hno j)

/-- A step within the turn. -/
theorem releases_of_turn {phase : Phase} (hloop : s.loop = .own k phase)
    (he : ∀ j, .done j ∉ (s.turn k phase).2)
    (ht : Releases k (h ++ (s.turn k phase).2) (s.turn k phase).1) : Releases k h s :=
  releases_of_streamLoop (by simp [AuthClient.streamLoop, hloop]) he ht

/-- The last step of the turn. -/
theorem releases_of_end {phase : Phase} (hloop : s.loop = .own k phase) (hh : .started k ∈ h)
    (hturn : (s.turn k phase).2 = [.released k]) : Releases k h s := by
  refine ⟨(s.turn k phase).1, [], .single (a := .loop true) trivial ?_, by simpa using hh, by simp⟩
  rw [List.nil_append, ← hturn]
  simp [authClient, AuthClient.step, AuthClient.streamLoop, hloop]

theorem releases_of_resting (hloop : s.loop = .own k .resting) (hh : .started k ∈ h) :
    Releases k h s := by
  cases hr : s.running with
  | false => exact releases_of_end hloop hh (by simp [AuthClient.turn, hr])
  | true =>
    have hturn : s.turn k .resting = ({ s with loop := .own k .delaying }, []) := by
      simp [AuthClient.turn, hr]
    refine releases_of_turn hloop (by simp [hturn]) ?_
    rw [hturn]
    exact releases_of_end rfl (by simpa using hh) rfl

/-- A reactor that has been stopped is not waited for any more. -/
theorem releases_of_settling (hloop : s.loop = .own k .settling) (hh : .started k ∈ h)
    (hgo : s.running = false ∨ s.finished k = true) : Releases k h s := by
  have hturn : s.turn k .settling = ({ s with loop := .own k .leaving }, []) := by
    rcases hgo with hgo | hgo <;> simp [AuthClient.turn, hgo]
  refine releases_of_turn hloop (by simp [hturn]) ?_
  rw [hturn]
  have hloop' : ({ s with loop := .own k .leaving } : AuthClient).loop = .own k .leaving := rfl
  refine releases_of_turn hloop' (by simp [AuthClient.turn]) ?_
  exact releases_of_resting rfl (by simpa [AuthClient.turn] using hh)

theorem releases_of_dropping (hloop : s.loop = .own k .dropping) (hh : .started k ∈ h) :
    Releases k h s := by
  refine releases_of_turn hloop (by simp [AuthClient.turn]) ?_
  refine releases_of_settling rfl (by simpa [AuthClient.turn] using hh) (.inr ?_)
  simp [AuthClient.turn, AuthClient.setFinished]

/-- Once `running_` has been reset no reactor is waited for, whether its call is started or not. -/
theorem releases_of_stopped {phase : Phase} (hloop : s.loop = .own k phase)
    (hr : s.running = false) (hh : phase.isEarly = false → .started k ∈ h) : Releases k h s := by
  have htesting : ∀ {s : AuthClient} {h : List ClientEvent}, s.running = false →
      s.loop = .own k .testing → .started k ∈ h → Releases k h s := by
    intro s h hr hloop hh
    have hturn : s.turn k .testing = ({ s with loop := .own k .settling }, []) := by
      simp [AuthClient.turn, hr]
    refine releases_of_turn hloop (by simp [hturn]) ?_
    rw [hturn]
    exact releases_of_settling rfl (by simpa using hh) (.inl hr)
  have hcalling : ∀ {s : AuthClient} {h : List ClientEvent}, s.running = false →
      s.loop = .own k .calling → Releases k h s := fun {s h} hr hloop =>
    releases_of_turn hloop (by simp [AuthClient.turn]) (htesting hr rfl (by simp [AuthClient.turn]))
  have hstarting : ∀ {s : AuthClient} {h : List ClientEvent}, s.running = false →
      s.loop = .own k .starting → Releases k h s := fun {s h} hr hloop =>
    releases_of_turn hloop (by simp [AuthClient.turn]) (hcalling hr rfl)
  cases phase with
  | registered => exact releases_of_turn hloop (by simp [AuthClient.turn]) (hstarting hr rfl)
  | starting => exact hstarting hr hloop
  | calling => exact hcalling hr hloop
  | testing => exact htesting hr hloop (hh rfl)
  | waiting =>
    have hturn : s.turn k .waiting = ({ s with loop := .own k .settling }, []) := by
      simp [AuthClient.turn, hr]
    refine releases_of_turn hloop (by simp [hturn]) ?_
    rw [hturn]
    exact releases_of_settling rfl (by simpa using hh rfl) (.inl hr)
  | dropping => exact releases_of_dropping hloop (hh rfl)
  | settling => exact releases_of_settling hloop (hh rfl) (.inl hr)
  | leaving =>
    refine releases_of_turn hloop (by simp [AuthClient.turn]) ?_
    exact releases_of_resting rfl (by simpa [AuthClient.turn] using hh rfl)
  | resting => exact releases_of_resting hloop (hh rfl)
  | delaying => exact releases_of_end hloop (hh rfl) rfl

/-- When `running_` is reset at such a time, a reactor that waits for its `OnDone` is given up. -/
theorem releases_of_awaiting (hI : LoopInv s h) (hno : s.awaiting = true) (hr : t.running = false)
    (hsame : (t.loop, t.reactors) = (s.loop, s.reactors)) : ∃ k, Releases k h t ∧ .done k ∉ h := by
  obtain ⟨hloop', hreactors⟩ := Prod.mk.inj hsame
  have hplaced := hI.placed
  unfold AuthClient.awaiting at hno
  cases hloop : s.loop with
  | creating =>
    have hfree := hI.fresh s.reactors (Nat.le_refl _)
    refine ⟨s.reactors, ?_, by simp [hI.done, hfree, Call.delivered]⟩
    refine releases_of_streamLoop (t := { t with
      activeReactor := some t.reactors
      reactors := t.reactors + 1
      loop := .own t.reactors .registered }) (e := []) ?_ (by simp) ?_
    · simp [AuthClient.streamLoop, hloop', hloop]
    · exact hreactors ▸ releases_of_stopped rfl hr (by simp [Phase.isEarly])
  | own k phase =>
    simp only [hloop, Bool.not_eq_true'] at hno
    simp only [AuthClient.Placed, hloop] at hplaced
    refine ⟨k, releases_of_stopped (hloop'.trans hloop) hr fun hearly => ?_, by simp [hI.done, hno]⟩
    rw [hI.started, Ne, ← hplaced.2.1, hearly]
    exact Bool.false_ne_true
  | _ => simp [hloop] at hno

/-- When a notification makes the loop stop a reactor that waits for its `OnDone`. -/
theorem releases_of_misled (hI : LoopInv s h) (hm : s.misled = true) {stub : Bool}
    (hst : s.streamLoop stub = some (t, e)) : e = [] ∧ ∃ k, Releases k h t ∧ .done k ∉ h := by
  have hplaced := hI.placed
  unfold AuthClient.misled at hm
  split at hm
  · next k hloop =>
    simp only [Bool.and_eq_true, Bool.not_eq_true'] at hm
    obtain ⟨⟨hr, hn⟩, hno⟩ := hm
    simp only [AuthClient.streamLoop, hloop, AuthClient.turn, hr, hn, Bool.not_true,
      Bool.false_eq_true, if_false, if_true, Option.some.injEq, Prod.mk.injEq] at hst
    obtain ⟨rfl, rfl⟩ := hst
    simp only [AuthClient.Placed, hloop] at hplaced
    refine ⟨rfl, k, releases_of_dropping rfl ?_, by simp [hI.done, hno]⟩
    rw [hI.started, Ne, ← hplaced.2.1]
    exact Bool.false_ne_true
  · exact nomatch hm

/-- **A reactor is released after its `OnDone`** in every run in which the wait for it is not
disturbed; and a step that disturbs it can be followed by steps after which one is not. -/
theorem released_after_done (r : authClient.Run Undisturbed s h) :
    DoneFirst h ∧
    ∀ x s' e, authClient.step s x = some (s', e) → ¬ Undisturbed s x →
      ∃ u k, authClient.Steps (fun _ _ => True) s' u k ∧ ¬ DoneFirst (h ++ e ++ k) := by
  have hI := loopInv_of_run r
  refine ⟨hI.order, fun x s' e hst hC => ?_⟩
  cases x with
  | stop =>
    simp only [Undisturbed, Classical.not_imp, Bool.not_eq_false] at hC
    obtain ⟨hr, hno⟩ := hC
    simp only [authClient, AuthClient.step, hr, if_true, Option.ite_none_left_eq_some,
      Option.some.injEq, Prod.mk.injEq] at hst
    obtain ⟨-, rfl, rfl⟩ := hst
    obtain ⟨k, hrel, hd⟩ := releases_of_awaiting hI hno (t := { s with
      running := false
      stopping := .flagged }) rfl rfl
    rw [List.append_nil]
    exact hrel.not_doneFirst hd
  | loop stub =>
    simp only [Undisturbed, Bool.not_eq_false] at hC
    obtain ⟨rfl, k, hrel, hd⟩ := releases_of_misled hI hC hst
    rw [List.append_nil]
    exact hrel.not_doneFirst hd
  | _ => exact absurd trivial hC

/-- Steps of `StreamLoop`. -/
def loops (n : ℕ) : List ClientAct := List.replicate n (.loop true)

/-- A stream fails, and the next one ends; then comes `Stop`. -/
def failedAndStopped : List ClientAct :=
  [.start] ++ loops 6 ++ [.done 0 false, .callBack 0, .testStatus 0, .notifyReconnect 0] ++
    loops 12 ++ [.done 1 true, .callBack 1, .stop, .stopActive, .stopNotify] ++ loops 5 ++ [.join]

theorem released_after_done_failedAndStopped : ∃ s h, authClient.Run Undisturbed s h ∧
    .released 1 ∈ h ∧ DoneFirst h :=
  have r := Machine.run_schedule authClient Undisturbed failedAndStopped rfl
  ⟨_, _, r, by decide, (released_after_done r).1⟩

/-- `Stop` meets a stream that is open: the loop destroys its reactor and returns. -/
theorem released_before_done : ¬ ∀ s h, authClient.Reach s h → DoneFirst h := by
  intro hall
  have r := Machine.run_schedule authClient (fun _ _ => True)
    ([.start] ++ loops 6 ++ [.stop, .stopActive, .stopNotify] ++ loops 4) rfl
  have hdone := (hall _ _ r [.started 0] (.released 0) [] (by decide)).1 0 rfl (by decide)
  exact absurd hdone (by decide)

end Zurg.Auth
