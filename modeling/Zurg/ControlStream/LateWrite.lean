import Zurg.ControlStream.Unlocked

/-!
# Zurg.ControlStream.LateWrite — when the write in flight ends with its stream

`OnStreamClosed` resets the state of the writes under `write_mu_`, and only then unsets `reactor_`,
under `reactor_mu_`.  In between, or when a late `OnStreamReady` has set `reactor_` again, a message
enqueued is started on a stream that answers no more; and so is one by the unlocked call of
`OnStreamReady`, if it goes on after a reset that has come since its checks.  Then nothing can be
written until the next stream has come and gone.  Without such a late write the flag never outlives
its stream (`write_ends_with_stream`).
-/

namespace Zurg.ControlStream

open Lib

variable {μ : Type} {s s' : UnlockedClient μ} {a : UnlockedAct μ} {c t : StreamClient μ}
  {x : StreamAct μ} {h e : List (UnlockedEvent μ)}

/-- From the return of `OnStreamClosed` until a write is started on a later stream there is no write
in flight.  The unlocked call starts its write when it has taken the message. -/
def UnlockedClient.ResetAfterClose (s : UnlockedClient μ) : Prop :=
  s.client.call = .calledBack ∨ s.client.call = .done ∨
    s.client.wrote = false ∧ s.ready.taken = false → s.client.NoWrite

/-- No write is started on a stream for which the state of the writes has been reset. -/
def StartsBeforeReset : List (UnlockedEvent μ) → Prop :=
  Always fun pre v => ∀ k m, v = .stream (.startWrite k m) → .closed k ∉ pre

/-- Once the state has been reset nothing is enqueued while `reactor_` is set, and the unlocked call
does not go on from its checks; and it finds what it has checked. -/
def NoLateWrite (s : UnlockedClient μ) : UnlockedAct μ → Prop
  | .other (.enqueueWrite _) => s.client.Live ∨ s.client.reactor = none
  | .ready => s.Filled ∧ (s.ready.atFront = true ∨ s.ready.taken = true → s.client.Live)
  | .other _ => True

instance [DecidableEq μ] (s : UnlockedClient μ) : Decidable s.Filled := by
  unfold UnlockedClient.Filled
  split <;> infer_instance

instance [DecidableEq μ] (s : UnlockedClient μ) : ∀ a, Decidable (NoLateWrite s a)
  | .other (.enqueueWrite _) => inferInstanceAs (Decidable (_ ∨ _))
  | .ready => inferInstanceAs (Decidable (_ ∧ (_ → _)))
  | .other .connect | .other .startCall | .other .setReactor | .other .readyReturn | .other .kick
  | .other (.writeDone _) | .other .closeClear | .other .closeDetach | .other .closeReturn
  | .other .closeDone | .other .waitReturn => inferInstanceAs (Decidable True)

/-! ## Where the threads stand -/

/-- `reactor_` and the unlocked call are about the latest stream. -/
structure Placed (s : UnlockedClient μ) : Prop where
  reactor : ∀ k, s.client.reactor = some k → k = s.client.streams
  installed : s.client.run = .installed → s.client.call = .notStarted
  loopHead : s.client.run = .loopHead → s.client.call = .done
  inside : s.ready ≠ .outside → s.client.run = .readied
  stream : ∀ k, s.ready.stream = some k → k = s.client.streams

theorem Placed.outside (hP : Placed s) (hr : s.client.run ≠ .readied) : s.ready = .outside := by
  by_contra hne
  exact hr (hP.inside hne)

theorem placed_move {e : List (StreamEvent μ)} (hP : Placed s) (hx : x.isKick = false)
    (hm : Move s.client x t e) : Placed { s with client := t } := by
  -- while `Run` is elsewhere there is no unlocked call
  have hnone : s.client.run ≠ .readied → ∀ k, s.ready.stream ≠ some k := fun hr k => by
    rw [hP.outside hr]
    exact nofun
  have hnever : s.client.run ≠ .readied → ¬ s.ready ≠ .outside := fun hr hne => hne (hP.outside hr)
  cases hm with
  | push | written | failed => exact ⟨hP.reactor, hP.installed, hP.loopHead, hP.inside, hP.stream⟩
  | connect hr =>
    have hne : s.client.run ≠ .readied := by simp [hr]
    exact ⟨fun k hk => (Option.some.inj hk).symm, fun _ => rfl, nofun,
      fun h => absurd h (hnever hne), fun k hk => absurd hk (hnone hne k)⟩
  | startCall hr =>
    have hne : s.client.run ≠ .readied := by simp [hr]
    exact ⟨hP.reactor, nofun, nofun, fun h => absurd h (hnever hne), hP.stream⟩
  | setReactor hr =>
    have hne : s.client.run ≠ .readied := by simp [hr]
    exact ⟨fun k hk => (Option.some.inj hk).symm, nofun, nofun, fun h => absurd h (hnever hne),
      hP.stream⟩
  | readyReturn hr => exact ⟨hP.reactor, nofun, nofun, fun _ => rfl, hP.stream⟩
  | kick => exact nomatch hx
  | closeClear hc =>
    exact ⟨hP.reactor, fun hr => (nomatch hc.symm.trans (hP.installed hr)),
      fun hr => (nomatch hc.symm.trans (hP.loopHead hr)), hP.inside, hP.stream⟩
  | closeDetach hc =>
    exact ⟨nofun, fun hr => (nomatch hc.symm.trans (hP.installed hr)),
      fun hr => (nomatch hc.symm.trans (hP.loopHead hr)), hP.inside, hP.stream⟩
  | closeReturn hc =>
    exact ⟨hP.reactor, fun hr => (nomatch hc.symm.trans (hP.installed hr)),
      fun hr => (nomatch hc.symm.trans (hP.loopHead hr)), hP.inside, hP.stream⟩
  | closeDone hc =>
    exact ⟨hP.reactor, fun hr => (nomatch hc.symm.trans (hP.installed hr)), fun _ => rfl,
      hP.inside, hP.stream⟩
  | waitReturn hr hc hrr =>
    have hne : s.client.run ≠ .readied := by simp [hr]
    refine ⟨fun k hk => ?_, nofun, fun _ => hc, fun h => absurd h (hnever hne), hP.stream⟩
    rcases hrr with rfl | rfl
    · exact nomatch hk
    · exact hP.reactor k hk

theorem placed_start {e : List (StreamEvent μ)} (hP : Placed s) (hs : Start s.client t e) :
    Placed { s with client := t } := by
  cases hs with
  | nothing => exact hP
  | start => exact ⟨hP.reactor, hP.installed, hP.loopHead, hP.inside, hP.stream⟩

theorem placed_access (hP : Placed s) (hrun : s.client.run = .readied) (ha : Access s s' e) :
    Placed s' := by
  obtain ⟨hreactor, hinstalled, hhead, -, hstream⟩ := hP
  cases ha with
  | leave | startWrite => exact ⟨hreactor, nofun, nofun, fun hne => absurd rfl hne, nofun⟩
  | check hr hr' =>
    exact ⟨hreactor, hinstalled, hhead, fun _ => hrun, fun k hk => (nomatch hr'.symm.trans hk)⟩
  | readReactor hr hk =>
    exact ⟨hreactor, hinstalled, hhead, fun _ => hrun, fun j hj => hreactor j (hk.trans hj)⟩
  | undefined => exact ⟨hreactor, hinstalled, hhead, fun _ => hrun, hstream⟩
  | readFront hr | emplace hr | popFront hr | setInFlight hr =>
    rw [hr] at hstream
    exact ⟨hreactor, hinstalled, hhead, fun _ => hrun, hstream⟩

/-! ## Without late writes -/

/-- Without a late write there is no write in flight on a stream that has been reset. -/
structure LateInv (s : UnlockedClient μ) (h : List (UnlockedEvent μ)) : Prop where
  placed : Placed s
  closed : ¬ s.client.Live → s.client.NoWrite
  fresh : s.client.wrote = false → s.ready.taken = false → s.client.NoWrite
  reset : ∀ k, .closed k ∈ h → k < s.client.streams ∨ k = s.client.streams ∧ ¬ s.client.Live
  starts : StartsBeforeReset h
  undefined : s.undefined = false

theorem LateInv.init : LateInv ({} : UnlockedClient μ) [] where
  placed := ⟨nofun, nofun, fun _ => rfl, fun hne => absurd rfl hne, nofun⟩
  closed _ := ⟨rfl, rfl⟩
  fresh _ _ := ⟨rfl, rfl⟩
  reset := nofun
  starts := .nil
  undefined := rfl

theorem not_live_of_returned (hc : c.call = .calledBack ∨ c.call = .done) : ¬ c.Live := by
  rcases hc with hc | hc <;> simp [StreamClient.Live, hc]

theorem LateInv.resetAfterClose (hI : LateInv s h) : s.ResetAfterClose := by
  rintro (hc | hc | ⟨hw, ht⟩)
  · exact hI.closed (not_live_of_returned (.inl hc))
  · exact hI.closed (not_live_of_returned (.inr hc))
  · exact hI.fresh hw ht

/-- Neither a start nor a reset. -/
def UnlockedEvent.plain : UnlockedEvent μ → Bool
  | .closed _ | .stream (.startWrite _ _) => false
  | _ => true

/-- Steps that neither start a write nor reset the state of the writes. -/
theorem LateInv.frame (hI : LateInv s h) (hP : Placed s') (he : ∀ v ∈ e, v.plain = true)
    (hk : s'.client.streams = s.client.streams) (hl : s'.client.Live → s.client.Live)
    (hc : ¬ s'.client.Live → s'.client.NoWrite)
    (hw : s'.client.wrote = false → s'.ready.taken = false → s'.client.NoWrite)
    (hu : s'.undefined = s.undefined) : LateInv s' (h ++ e) where
  placed := hP
  closed := hc
  fresh := hw
  reset k hk' := by
    rcases List.mem_append.mp hk' with hk' | hk'
    · rw [hk]
      exact (hI.reset k hk').imp_right (.imp_right fun hs hs' => hs (hl hs'))
    · exact nomatch he _ hk'
  starts := by
    refine Always.append hI.starts fun pre v post heq k m hv => ?_
    have := he v (by simp [heq])
    exact absurd this (by simp [hv, UnlockedEvent.plain])
  undefined := hu.trans hI.undefined

/-- Steps that leave the state of the writes as it is. -/
theorem LateInv.still (hI : LateInv s h) (hP : Placed s') (he : ∀ v ∈ e, v.plain = true)
    (hk : s'.client.streams = s.client.streams) (hl : s'.client.Live ↔ s.client.Live)
    (hn : s.client.NoWrite → s'.client.NoWrite) (hw : s'.client.wrote = s.client.wrote)
    (ht : s'.ready.taken = false → s.ready.taken = false) (hu : s'.undefined = s.undefined) :
    LateInv s' (h ++ e) :=
  hI.frame hP he hk hl.mp (fun hl' => hn (hI.closed fun hs => hl' (hl.mpr hs)))
    (fun hw' ht' => hn (hI.fresh (hw ▸ hw') (ht ht'))) hu

/-- Whoever starts a write on the latest stream, while it is live. -/
theorem LateInv.start (hI : LateInv s h) (hP : Placed s') (hl : s.client.Live) {m : μ}
    (hk : s'.client.streams = s.client.streams) (hl' : s'.client.Live)
    (hw : s'.client.wrote = true) (hu : s'.undefined = s.undefined) :
    LateInv s' (h ++ [.stream (.startWrite s.client.streams m)]) where
  placed := hP
  closed hc := absurd hl' hc
  fresh hw' := nomatch hw.symm.trans hw'
  reset k hk' := by
    have hmem : UnlockedEvent.closed k ∈ h := by simpa using hk'
    rw [hk]
    exact (hI.reset k hmem).imp_right fun hs => absurd hl hs.2
  starts := by
    refine Always.snoc hI.starts fun k m' hv hk' => ?_
    obtain ⟨rfl, -⟩ := StreamEvent.startWrite.inj (UnlockedEvent.stream.inj hv)
    rcases hI.reset _ hk' with hlt | ⟨-, hno⟩
    · exact Nat.lt_irrefl _ hlt
    · exact hno hl
  undefined := hu.trans hI.undefined

theorem lateInv_move {e : List (StreamEvent μ)} (hI : LateInv s h) (hx : x.isKick = false)
    (hm : Move s.client x t e) : LateInv { s with client := t }
      (h ++ (e.flatMap StreamEvent.unlocked ++ x.closedEvents s.client)) := by
  have hP := placed_move hI.placed hx hm
  cases hm with
  | push m =>
    exact hI.still hP (e := [.stream (.enqueued m)]) (List.forall_mem_singleton.mpr rfl) rfl
      Iff.rfl id rfl id rfl
  | connect hr =>
    -- the previous stream is done
    have hn : s.client.NoWrite :=
      hI.closed (not_live_of_returned (.inr (hI.placed.loopHead hr)))
    refine ⟨hP, fun _ => hn, fun _ _ => hn, fun k hk => .inl ?_, ?_, hI.undefined⟩
    · have hk' : UnlockedEvent.closed k ∈ h := by
        change UnlockedEvent.closed k ∈ h ++ [] at hk
        rwa [List.append_nil] at hk
      rcases hI.reset k hk' with hlt | ⟨rfl, -⟩
      · exact Nat.lt_succ_of_lt hlt
      · exact Nat.lt_succ_self _
    · change StartsBeforeReset (h ++ [])
      rw [List.append_nil]
      exact hI.starts
  | startCall hr =>
    have hlive : s.client.Live := .inl (hI.placed.installed hr)
    exact hI.still hP (e := []) nofun rfl (iff_of_true (.inr rfl) hlive) id rfl id rfl
  | setReactor | readyReturn | waitReturn =>
    exact hI.still hP (e := []) nofun rfl Iff.rfl id rfl id rfl
  | kick => exact nomatch hx
  | @written m ho hc hf =>
    exact hI.frame hP (e := [.stream (.writeDone s.client.streams m true)])
      (List.forall_mem_singleton.mpr rfl) rfl id (fun _ => ⟨rfl, rfl⟩) (fun _ _ => ⟨rfl, rfl⟩) rfl
  | @failed m ho hc =>
    exact hI.frame hP (e := [.stream (.writeDone s.client.streams m false), .stream .cleared])
      (List.forall_mem_cons.mpr ⟨rfl, List.forall_mem_singleton.mpr rfl⟩) rfl id
      (fun _ => ⟨rfl, rfl⟩) (fun _ _ => ⟨rfl, rfl⟩) rfl
  | closeClear hc ho =>
    have hdead : ¬ StreamClient.Live (μ := μ) { s.client with
        writeInFlight := false
        currentWrite := none
        pendingWrites := []
        call := .cleared } := by simp [StreamClient.Live]
    refine ⟨hP, fun _ => ⟨rfl, rfl⟩, fun _ _ => ⟨rfl, rfl⟩, fun k hk => ?_, ?_, hI.undefined⟩
    · have hk' : UnlockedEvent.closed k ∈ h ∨ k = s.client.streams := by
        change UnlockedEvent.closed k ∈ h ++ [.stream .cleared, .closed s.client.streams] at hk
        simpa using hk
      rcases hk' with hk' | rfl
      · exact (hI.reset k hk').imp_right fun hs => ⟨hs.1, hdead⟩
      · exact .inr ⟨rfl, hdead⟩
    · refine Always.append hI.starts fun pre v post heq k m hv => ?_
      have hevents : [UnlockedEvent.stream .cleared, .closed s.client.streams] =
          pre ++ v :: post := heq
      have hmem : v ∈ [UnlockedEvent.stream .cleared, .closed s.client.streams] := by
        rw [hevents]
        simp
      simp [hv] at hmem
  | closeDetach hc | closeReturn hc | closeDone hc =>
    refine hI.still hP (e := []) nofun rfl ?_ id rfl id rfl
    simp [StreamClient.Live, hc]

theorem lateInv_start {e : List (StreamEvent μ)} (hI : LateInv s h) (hs : Start s.client t e)
    (hl : ∀ k m, .startWrite k m ∈ e → s.client.Live) :
    LateInv { s with client := t } (h ++ e.flatMap StreamEvent.unlocked) := by
  have hP := placed_start hI.placed hs
  cases hs with
  | nothing => simpa using hI
  | @start k m rest hf hp hr =>
    have hlive := hl k m (List.mem_singleton_self _)
    obtain rfl := hI.placed.reactor k hr
    have hI' : LateInv s (h ++ [.emplaced m]) :=
      hI.still hI.placed (by simp [UnlockedEvent.plain]) rfl Iff.rfl id rfl id rfl
    have hflat : [StreamEvent.startWrite s.client.streams m].flatMap StreamEvent.unlocked =
        [UnlockedEvent.emplaced m] ++ [UnlockedEvent.stream (.startWrite s.client.streams m)] := rfl
    rw [hflat, ← List.append_assoc]
    exact hI'.start hP hlive rfl hlive rfl rfl

theorem lateInv_other (hI : LateInv s h) (hC : NoLateWrite s (.other x))
    (hst : s.step (.other x) = some (s', e)) : LateInv s' (h ++ e) := by
  obtain ⟨t, f, hc, -, hx, rfl, rfl⟩ := step_other_cases hst
  obtain ⟨u, e₁, e₂, hm, hs, rfl⟩ := step_moves hc
  rw [unlocked_append hm hs, ← List.append_assoc]
  refine lateInv_start (s := { s with client := u }) (lateInv_move hI hx hm) hs fun k m hmem => ?_
  -- only a live stream is written to
  have hmay := mayStart_of_startWrite hc (List.mem_append_right _ hmem)
  cases hm with
  | push m =>
    refine hC.resolve_right fun hno => ?_
    cases hs with
    | nothing => exact nomatch hmem
    | start hf hp hr => exact nomatch hno.symm.trans hr
  | kick => exact nomatch hx
  | written ho hc' | failed ho hc' => exact .inr hc'
  | _ => exact nomatch hmay

theorem lateInv_access (hI : LateInv s h) (hC : NoLateWrite s .ready)
    (hrun : s.client.run = .readied) (ha : Access s s' e) : LateInv s' (h ++ e) := by
  have hP := placed_access hI.placed hrun ha
  obtain ⟨hfilled, hlive⟩ := hC
  cases ha with
  | leave hr | check hr | readReactor hr =>
    exact hI.still hP nofun rfl Iff.rfl id rfl (fun _ => ReadyPc.taken_of_stream hr) rfl
  | undefined hempty => exact absurd hfilled hempty
  | readFront hr | popFront hr => exact hI.still hP nofun rfl Iff.rfl id rfl nofun rfl
  | emplace hr =>
    have hl := hlive (.inr (by rw [hr]; rfl))
    exact hI.frame hP (by simp [UnlockedEvent.plain]) rfl (fun _ => hl) (fun hc => absurd hl hc)
      nofun rfl
  | setInFlight hr =>
    have hl := hlive (.inr (by rw [hr]; rfl))
    exact hI.frame hP nofun rfl (fun _ => hl) (fun hc => absurd hl hc) nofun rfl
  | @startWrite k m hr hm =>
    have hl := hlive (.inr (by rw [hr]; rfl))
    obtain rfl := hI.placed.stream k (by rw [hr]; rfl)
    exact hI.start hP hl rfl hl rfl rfl

theorem lateInv_of_run (r : (unlockedClient μ).Run NoLateWrite s h) : LateInv s h := by
  refine Machine.Run.invariant (I := LateInv) .init ?_ r
  intro s h a s' e _ hI hC hst
  cases a with
  | other x => exact lateInv_other hI hC hst
  | ready =>
    obtain ⟨-, hrun, hacc⟩ := step_ready_cases hst
    exact lateInv_access hI hC hrun hacc

/-! ## The condition is necessary -/

/-- The property fails: the state is not reset, or the unlocked call has used what is not there. -/
def UnlockedClient.Broken (s : UnlockedClient μ) : Prop :=
  ¬ (s.undefined = false ∧ s.ResetAfterClose)

/-- Such a state can be reached. -/
def Breaks (s : UnlockedClient μ) : Prop :=
  ∃ u g, (unlockedClient μ).Steps (fun _ _ => True) s u g ∧ u.Broken

theorem breaks_of_undefined (hu : s.undefined = true) : Breaks s :=
  ⟨s, [], .refl, fun hb => nomatch hu.symm.trans hb.1⟩

theorem breaks_of_step (hst : (unlockedClient μ).step s a = some (s', e)) (hb : Breaks s') :
    Breaks s := by
  obtain ⟨u, g, r, hu⟩ := hb
  exact ⟨u, _, (Machine.Steps.single trivial hst).trans r, hu⟩

/-- A late write stays until `OnStreamClosed` returns. -/
theorem breaks_of_late (hu : s.undefined = false) (hl : ¬ s.client.Live)
    (hw : ¬ s.client.NoWrite) : Breaks s := by
  have hreturned : ∀ {u : UnlockedClient μ}, u.client.call = .calledBack ∨ u.client.call = .done →
      ¬ u.client.NoWrite → Breaks u := by
    intro u hc hw
    exact ⟨u, [], .refl, fun hb => hw (hb.2 (hc.imp_right .inl))⟩
  have hreturn : ∀ {u : UnlockedClient μ}, u.undefined = false → u.client.call = .detached →
      ¬ u.client.NoWrite → Breaks u := by
    intro u hu hc hw
    have hst : (unlockedClient μ).step u (.other .closeReturn) =
        some ({ u with client := { u.client with call := .calledBack } }, []) := by
      simp [unlockedClient, UnlockedClient.step, StreamClient.step, StreamAct.isKick,
        StreamAct.closedEvents, hu, hc]
    exact breaks_of_step hst (hreturned (.inl rfl) hw)
  cases hc : s.client.call with
  | notStarted | active => exact absurd (by simp [StreamClient.Live, hc]) hl
  | cleared =>
    have hst : (unlockedClient μ).step s (.other .closeDetach) =
        some ({ s with client := { s.client with reactor := none, call := .detached } }, []) := by
      simp [unlockedClient, UnlockedClient.step, StreamClient.step, StreamAct.isKick,
        StreamAct.closedEvents, hu, hc]
    exact breaks_of_step hst (hreturn hu rfl hw)
  | detached => exact hreturn hu hc hw
  | calledBack | done => exact hreturned (by simp [hc]) hw

/-- Whoever enqueues now starts a write. -/
theorem writeInFlight_maybeStart (hr : c.reactor ≠ none) (hp : c.pendingWrites ≠ []) :
    c.maybeStartWriteLocked.1.writeInFlight = true := by
  unfold StreamClient.maybeStartWriteLocked
  split_ifs with hf
  · exact hf
  · obtain ⟨k, hk⟩ := Option.ne_none_iff_exists'.mp hr
    obtain ⟨m, rest, hm⟩ := List.exists_cons_of_ne_nil hp
    simp [hk, hm]

/-- The unlocked call goes on from its checks after a reset. -/
theorem breaks_of_access (hu : s.undefined = false) (hrun : s.client.run = .readied)
    (hC : ¬ NoLateWrite s .ready) (ha : Access s s' e) : Breaks s' := by
  have hlate : ∀ {u : UnlockedClient μ}, u.undefined = false → u.client.call = s.client.call →
      ¬ s.client.Live → ¬ u.client.NoWrite → Breaks u := by
    intro u hu hc hl hw
    refine breaks_of_late hu ?_ hw
    unfold StreamClient.Live at hl ⊢
    rwa [hc]
  by_cases hfilled : s.Filled
  · obtain ⟨hfar, hl⟩ : (s.ready.atFront = true ∨ s.ready.taken = true) ∧ ¬ s.client.Live := by
      by_contra hno
      exact hC ⟨hfilled, fun hfar => by
        by_contra hl
        exact hno ⟨hfar, hl⟩⟩
    cases ha with
    | leave hr | check hr | readReactor hr => exact absurd hr (ReadyPc.stream_ne_none hfar)
    | undefined hempty => exact absurd hfilled hempty
    | readFront =>
      exact breaks_of_step (step_ready hu hrun) (hlate hu rfl hl fun hw => nomatch hw.2)
    | popFront =>
      exact breaks_of_step (step_ready hu hrun) (hlate hu rfl hl fun hw => nomatch hw.1)
    | emplace => exact hlate hu rfl hl fun hw => nomatch hw.2
    | setInFlight => exact hlate hu rfl hl fun hw => nomatch hw.1
    | startWrite hr hm => exact hlate hu rfl hl fun hw => nomatch hm.symm.trans hw.2
  · exact breaks_of_undefined (by rw [ha.of_not_filled hfilled])

/-- A step against the condition. -/
theorem breaks_of_not_noLateWrite (hst : s.step a = some (s', e)) (hC : ¬ NoLateWrite s a) :
    Breaks s' := by
  cases a with
  | ready =>
    obtain ⟨hu, hrun, hacc⟩ := step_ready_cases hst
    exact breaks_of_access hu hrun hC hacc
  | other x =>
    cases x with
    | enqueueWrite m =>
      obtain ⟨hl, hr⟩ := not_or.mp hC
      obtain ⟨t, f, hc, hu, -, rfl, -⟩ := step_other_cases hst
      obtain ⟨rfl, -⟩ := Prod.mk.inj (Option.some.inj hc)
      have hstart :=
        start_maybeStartWriteLocked { s.client with pendingWrites := s.client.pendingWrites ++ [m] }
      have hflag : (s.client.enqueueWrite m).1.writeInFlight = true :=
        writeInFlight_maybeStart hr (by simp)
      exact breaks_of_late hu (fun hl' => hl (hstart.live_iff.mp hl')) fun hw =>
        nomatch hflag.symm.trans hw.1
    | _ => exact absurd trivial hC

/-- **The write in flight never outlives its stream**, as long as no write is late; and a late write
does so. -/
theorem write_ends_with_stream (r : (unlockedClient μ).Run NoLateWrite s h) :
    s.undefined = false ∧ s.ResetAfterClose ∧ StartsBeforeReset h ∧
    ∀ a s' e, s.step a = some (s', e) → ¬ NoLateWrite s a →
      ∃ u g, (unlockedClient μ).Steps (fun _ _ => True) s' u g ∧
        ¬ (u.undefined = false ∧ u.ResetAfterClose) := by
  have hI := lateInv_of_run r
  exact ⟨hI.undefined, hI.resetAfterClose, hI.starts, fun a s' e hst hC =>
    breaks_of_not_noLateWrite hst hC⟩

/-- The unlocked call writes Hello on a stream that closes; Hello is enqueued again, and the next
stream comes. -/
def helloTwice : List (UnlockedAct ℕ) :=
  [.other (.enqueueWrite 0), .other .connect, .other .startCall, .other .setReactor,
    .other .readyReturn] ++ List.replicate 8 .ready ++
    [.other (.writeDone true), .other .closeClear, .other .closeDetach, .other (.enqueueWrite 1),
      .other .closeReturn, .other .closeDone, .other .waitReturn, .other .connect]

theorem write_ends_with_stream_helloTwice : ∃ s h,
    (unlockedClient ℕ).Run NoLateWrite s h ∧ s.client.streams = 2 ∧
      s.client.pendingWrites = [1] ∧ starts 1 h = 1 ∧ s.ResetAfterClose :=
  have r := Machine.run_schedule (unlockedClient ℕ) NoLateWrite helloTwice rfl
  ⟨_, _, r, rfl, rfl, rfl, (write_ends_with_stream r).2.1⟩

/-- A message is enqueued between the two regions of `OnStreamClosed`. -/
def sendInTheGap : List (UnlockedAct ℕ) :=
  [.other .connect, .other .startCall, .other .setReactor, .other .readyReturn, .ready, .ready,
    .other .closeClear, .other (.enqueueWrite 1), .other .closeDetach, .other .closeReturn,
    .other .closeDone, .other .waitReturn, .other .connect]

/-- The next stream begins with a write in flight that nobody will answer. -/
theorem write_outlives_stream : ¬ ∀ s h, (unlockedClient ℕ).Reach s h → s.ResetAfterClose :=
  fun hall => by
    have r := Machine.run_schedule (unlockedClient ℕ) (fun _ _ => True) sendInTheGap rfl
    exact absurd (hall _ _ r (.inr (.inr ⟨rfl, rfl⟩))).1 (by decide)

end Zurg.ControlStream
