import Zurg.Lib.Machine
import Zurg.EventBus

/-!
# Zurg.Auth.Publish — `AuthManager::UpdateAuthState` called by several threads

A call exchanges `auth_state_` and then publishes, in two steps, if the state changed or the call is
forced.  Calls that have exchanged and not yet published are kept in the order of their exchanges.
The bus agrees with the stored state at rest exactly as long as the newest of them never publishes
while an older one still has another state to publish.
-/

namespace Zurg.Auth

open Lib

/-- The stored state, the bus, and the calls of `UpdateAuthState` under way. -/
structure Publisher where
  authState : AuthState := .unknown
  bus : EventBus := {}
  /-- The states still to be published, in the order of the exchanges. -/
  pending : List AuthState := []
  deriving DecidableEq, Repr

inductive PublishAct
  /-- `auth_state_.exchange(new_state)`, and the test whether to publish. -/
  | exchange (newState : AuthState) (force : Bool)
  /-- The `Publish` of the call that is the `i`-th among those under way. -/
  | publish (i : ℕ)
  deriving DecidableEq, Repr

namespace Publisher

variable (s : Publisher)

def exchange (newState : AuthState) (force : Bool) : Publisher :=
  { s with
    authState := newState
    pending := if force || s.authState ≠ newState then s.pending ++ [newState] else s.pending }

/-- What the listeners do with the event does not concern the manager. -/
def publish (i : ℕ) (newState : AuthState) : Publisher :=
  { s with
    bus := (s.bus.publish (fun _ _ => id) ⟨newState⟩ ()).1
    pending := s.pending.eraseIdx i }

def step : PublishAct → Option (Publisher × List Empty)
  | .exchange newState force => some (s.exchange newState force, [])
  | .publish i =>
    match s.pending[i]? with
    | some newState => some (s.publish i newState, [])
    | none => none

/-- `UpdateAuthState` without interruption. -/
def updateAuthState (newState : AuthState) (force : Bool) : Publisher :=
  let t := s.exchange newState force
  if force || s.authState ≠ newState then t.publish s.pending.length newState else t

end Publisher

/-- All interleavings of calls of `UpdateAuthState`, after the constructor's own. -/
def publisher : Machine Publisher PublishAct Empty where
  init := Publisher.updateAuthState {} .unknown true
  step := Publisher.step

variable {s : Publisher} {h : List Empty}

/-- The call with the newest exchange publishes only while all calls under way publish its state. -/
def NewestLast (s : Publisher) : PublishAct → Prop
  | .exchange _ _ => True
  | .publish i => i + 1 = s.pending.length → ∀ x ∈ s.pending, s.pending[i]? = some x

instance (s : Publisher) (x : PublishAct) : Decidable (NewestLast s x) := by
  cases x <;> unfold NewestLast <;> infer_instance

/-- The newest call under way publishes the stored state; without one it has been published. -/
def Publisher.NewestStored (s : Publisher) : Prop :=
  s.pending.getLast? = some s.authState ∨
    s.pending = [] ∧ s.bus.lastEvent = some ⟨s.authState⟩

theorem newestStored_exchange (hI : s.NewestStored) (newState : AuthState) (force : Bool) :
    (s.exchange newState force).NewestStored := by
  unfold Publisher.exchange
  split_ifs with hc
  · exact .inl (by simp)
  · obtain ⟨-, rfl⟩ : force = false ∧ s.authState = newState := by simpa using hc
    exact hI

theorem Publisher.NewestStored.getLast (hI : s.NewestStored) (hp : s.pending ≠ []) :
    s.pending.getLast? = some s.authState :=
  hI.resolve_right fun h => hp h.1

theorem newestStored_publish (hI : s.NewestStored) {i : ℕ} {newState : AuthState}
    (hC : NewestLast s (.publish i)) (hi : s.pending[i]? = some newState) :
    (s.publish i newState).NewestStored := by
  obtain ⟨hlt, -⟩ := List.getElem?_eq_some_iff.mp hi
  have hlast := hI.getLast (List.ne_nil_of_mem (List.mem_of_getElem? hi))
  by_cases hnew : i + 1 = s.pending.length
  · have hall : ∀ x ∈ s.pending, x = newState := by
      intro x hx
      have := hC hnew x hx
      rw [hi] at this
      exact (Option.some.inj this).symm
    have hauth : s.authState = newState := hall _ (List.mem_of_getLast? hlast)
    by_cases hone : (s.pending.eraseIdx i) = []
    · -- the only call under way
      exact .inr ⟨hone, by rw [Publisher.publish, hauth]; rfl⟩
    · -- the older calls are to publish the same state
      refine .inl ?_
      obtain ⟨x, hx⟩ := Option.isSome_iff_exists.mp (List.getLast?_isSome.mpr hone)
      have hmem := List.eraseIdx_subset (List.mem_of_getLast? hx)
      rw [Publisher.publish, hx, hall x hmem, hauth]
  · -- an older call: the newest is still to come
    refine .inl ?_
    rw [List.getLast?_eq_getElem?] at hlast
    rw [List.getLast?_eq_getElem?, Publisher.publish, List.length_eraseIdx, if_pos hlt,
      List.getElem?_eraseIdx, if_neg (by omega), ← hlast]
    congr 1
    omega

theorem newestStored_of_run (r : publisher.Run NewestLast s h) : s.NewestStored := by
  refine Machine.Run.invariant (I := fun s _ => s.NewestStored) (.inr ⟨rfl, rfl⟩) ?_ r
  intro s h x s' e _ hI hC hst
  cases x with
  | exchange newState force =>
    obtain ⟨rfl, -⟩ := Prod.mk.inj (Option.some.inj hst)
    exact newestStored_exchange hI newState force
  | publish i =>
    cases hi : s.pending[i]? with
    | none => simp [publisher, Publisher.step, hi] at hst
    | some newState =>
      simp only [publisher, Publisher.step, hi, Option.some.injEq, Prod.mk.injEq] at hst
      obtain ⟨rfl, -⟩ := hst
      exact newestStored_publish hI hC hi

/-- Any call under way may come to publish last. -/
theorem exists_last_publisher {x : AuthState} :
    ∀ {n : ℕ} {s : Publisher}, s.pending.length = n + 1 → x ∈ s.pending →
      ∃ u, publisher.Steps (fun _ _ => True) s u [] ∧ u.pending = [] ∧
        u.authState = s.authState ∧ u.bus.lastEvent = some ⟨x⟩ := by
  intro n
  induction n with
  | zero =>
    intro s hn hx
    obtain ⟨y, hy⟩ := List.length_eq_one_iff.mp hn
    obtain rfl : x = y := by simpa [hy] using hx
    refine ⟨s.publish 0 x, .single (a := .publish 0) trivial ?_, ?_, rfl, rfl⟩
    · simp [publisher, Publisher.step, hy]
    · simp [Publisher.publish, hy]
  | succ n ih =>
    intro s hn hx
    -- some other call publishes first
    obtain ⟨i, y, hi, hxi⟩ : ∃ i y, s.pending[i]? = some y ∧ x ∈ s.pending.eraseIdx i := by
      match hp : s.pending with
      | [] => simp [hp] at hn
      | [a] => simp [hp] at hn
      | a :: b :: rest =>
        rw [hp] at hx
        rcases List.mem_cons.mp hx with rfl | hx
        · exact ⟨1, b, rfl, by simp⟩
        · exact ⟨0, a, rfl, hx⟩
    obtain ⟨hlt, -⟩ := List.getElem?_eq_some_iff.mp hi
    have hlen : (s.publish i y).pending.length = n + 1 := by
      rw [Publisher.publish, List.length_eraseIdx, if_pos hlt]
      omega
    obtain ⟨u, hu, hup, hua, hul⟩ := ih hlen hxi
    have hst : publisher.step s (.publish i) = some (s.publish i y, []) := by
      simp [publisher, Publisher.step, hi]
    exact ⟨u, (Machine.Steps.single trivial hst).trans hu, hup, hua, hul⟩

/-- **At rest the bus agrees with the stored state** in every run in which the newest call never
publishes ahead of another state; a step that does so can be followed by calls after which they
disagree at rest. -/
theorem published_agrees_at_rest (r : publisher.Run NewestLast s h) :
    (s.pending = [] → s.bus.lastEvent = some ⟨s.authState⟩) ∧
    ∀ x s' e, publisher.step s x = some (s', e) → ¬ NewestLast s x →
      ∃ u, publisher.Steps (fun _ _ => True) s' u [] ∧ u.pending = [] ∧
        u.bus.lastEvent ≠ some ⟨u.authState⟩ := by
  have hI := newestStored_of_run r
  refine ⟨fun hp => ?_, fun x s' e hst hC => ?_⟩
  · rcases hI with h | ⟨-, h⟩
    · rw [hp] at h
      exact nomatch h
    · exact h
  · cases x with
    | exchange => exact absurd trivial hC
    | publish i =>
      simp only [NewestLast, Classical.not_imp, not_forall] at hC
      obtain ⟨hnew, x, hx, hne⟩ := hC
      cases hi : s.pending[i]? with
      | none => simp [publisher, Publisher.step, hi] at hst
      | some newState =>
        simp only [publisher, Publisher.step, hi, Option.some.injEq, Prod.mk.injEq] at hst
        obtain ⟨rfl, -⟩ := hst
        have hauth : newState = s.authState := by
          have hlast := hI.getLast (List.ne_nil_of_mem hx)
          rw [List.getLast?_eq_getElem?, ← hnew, Nat.add_sub_cancel, hi] at hlast
          exact Option.some.inj hlast
        have hx' : x ∈ s.pending.eraseIdx i := by
          refine List.mem_eraseIdx_iff_getElem?.mpr ?_
          obtain ⟨j, hj⟩ := List.getElem?_of_mem hx
          exact ⟨j, fun h => hne (h ▸ hj), hj⟩
        obtain ⟨n, hn⟩ := Nat.exists_eq_add_one_of_ne_zero
          (fun h => List.ne_nil_of_mem hx' (List.length_eq_zero_iff.mp h))
        obtain ⟨u, hu, hup, hua, hul⟩ :=
          exists_last_publisher (s := s.publish i newState) hn hx'
        refine ⟨u, hu, hup, ?_⟩
        rw [hul, hua]
        rintro heq
        refine hne (hi.trans ?_)
        rw [hauth]
        exact congrArg (Option.map AuthStateChangedEvent.state) heq.symm

/-- Two overlapping calls publish in the order of their exchanges. -/
def inOrder : List PublishAct :=
  [.exchange .online false, .exchange .offline false, .publish 0, .publish 0]

theorem published_agrees_at_rest_inOrder : ∃ s h, publisher.Run NewestLast s h ∧
    s.authState = .offline ∧ s.bus.lastEvent = some ⟨s.authState⟩ :=
  have r := Machine.run_schedule publisher NewestLast inOrder rfl
  ⟨_, _, r, rfl, (published_agrees_at_rest r).1 rfl⟩

/-- The same calls publish in the other order: the bus says online, the manager is offline. -/
theorem publish_out_of_order : ¬ ∀ s h, publisher.Reach s h → s.pending = [] →
    s.bus.lastEvent = some ⟨s.authState⟩ := fun hall =>
  have r := Machine.run_schedule publisher (fun _ _ => True)
    [.exchange .online false, .exchange .offline false, .publish 1, .publish 0] rfl
  absurd (hall _ _ r rfl) (by decide)

/-- A call that is not interrupted is a run of the two steps, with nothing under way before. -/
theorem updateAuthState_steps (hp : s.pending = []) (newState : AuthState) (force : Bool) :
    publisher.Steps NewestLast s (s.updateAuthState newState force) [] ∧
      (s.updateAuthState newState force).pending = [] := by
  have hex : publisher.Steps NewestLast s (s.exchange newState force) [] :=
    .single (show NewestLast s (.exchange newState force) from trivial) rfl
  unfold Publisher.updateAuthState
  split_ifs with hc
  · have hpend : (s.exchange newState force).pending = [newState] := by
      rw [Publisher.exchange, if_pos hc, hp]
      rfl
    simp only [hp, List.length_nil]
    refine ⟨?_, by rw [Publisher.publish, hpend]; rfl⟩
    have hC : NewestLast (s.exchange newState force) (.publish 0) := fun _ => by simp [hpend]
    refine hex.trans (k := []) (.single hC ?_)
    simp [publisher, Publisher.step, hpend]
  · refine ⟨hex, ?_⟩
    rw [Publisher.exchange, if_neg hc, hp]

end Zurg.Auth
