import Zurg.Auth.Manager
import Zurg.Auth.Reactor

/-!
# Zurg.Auth.Stop — `AuthManager::Stop` and the client

The manager with its client, step by step: `Start` and `Stop` of the manager call those of the
client when they find `mode_` online, and the reactors of the client call the handlers of the
manager.  `Start` and `Stop` come from one thread, the mode may be set from any.

`Stop` stops the client for good exactly if it finds `mode_` online, or the client not running, and
no stream whose connection callback is yet to come when it returns (`stops_client_iff`).
-/

namespace Zurg.Auth

open Lib

/-- Where the thread that calls `Start` and `Stop` of the manager stands. -/
inductive Caller
  | idle
  /-- In `Start`, about to call `client_->Start`. -/
  | starting
  /-- In `Stop`, about to call `client_->Stop`, or in it. -/
  | stopping
  deriving DecidableEq, Repr

structure AuthManager where
  manager : Manager := {}
  client : AuthClient := {}
  caller : Caller := .idle

inductive AuthAct
  /-- `Start`, up to the call of `client_->Start`. -/
  | start (now : ℤ)
  /-- `Stop`, up to the call of `client_->Stop`. -/
  | stop
  /-- A step of the client; the time and whether the file can be opened, for `HandleMessage`. -/
  | client (x : ClientAct) (now : ℤ) (opened : Bool)
  | setMode (mode : AuthMode)
  | setPersistenceFile (path : String)
  | check (now : ℤ)
  | fileChanged (path : String) (st : FileState)
  deriving DecidableEq, Repr

inductive AuthEvent
  | manager (e : ManagerEvent)
  | client (e : ClientEvent)
  /-- `AuthManager::Stop` returns. -/
  | stopped
  deriving DecidableEq, Repr

/-- The events of a step of the client; when its `Stop` returns, that of the manager does. -/
def AuthEvent.ofClient (e : List ClientEvent) : List AuthEvent :=
  e.map .client ++ if .stopped ∈ e then [.stopped] else []

/-- What the callbacks that the constructor sets do. -/
def Manager.callback (codec : Codec) (now : ℤ) (opened : Bool) (s : Manager) :
    ClientEvent → Manager
  | .license m => s.handleMessage codec m now opened
  | .connection connected => s.handleConnection connected
  | _ => s

namespace AuthManager

variable (codec : Codec) (s : AuthManager)

/-- `Start` and `Stop` of the client are called by those of the manager. -/
def mayCall : ClientAct → Bool
  | .start => s.caller = .starting
  | .stop => s.caller = .stopping
  | _ => true

/-- The client has taken the step `x`. -/
def clientStep (x : ClientAct) (now : ℤ) (opened : Bool) (client : AuthClient)
    (e : List ClientEvent) : AuthManager × List AuthEvent :=
  ({ manager := e.foldl (Manager.callback codec now opened) s.manager
     client
     caller := if x = .start ∨ .stopped ∈ e then .idle else s.caller },
    AuthEvent.ofClient e)

def step : AuthAct → Option (AuthManager × List AuthEvent)
  | .start now =>
    if s.caller = .idle then
      let manager := s.manager.start codec now
      some ({ s with
        manager
        caller := if manager.mode = .online then .starting else .idle }, [])
    else none
  | .stop =>
    if s.caller = .idle then
      if s.manager.mode = .online then some ({ s with caller := .stopping }, [])
      else some (s, [.stopped])
    else none
  | .client x now opened =>
    if s.mayCall x then (s.client.step x).map fun q => s.clientStep codec x now opened q.1 q.2
    else none
  | .setMode mode => some ({ s with manager := { s.manager with mode } }, [])
  | .setPersistenceFile path =>
    some ({ s with manager := { s.manager with persistenceFile := path } }, [])
  | .check now =>
    let r := s.manager.checkAuthorization codec now
    some ({ s with manager := r.1 }, [.manager (.answered now r.2 (s.manager.license codec))])
  | .fileChanged path st => some ({ s with manager := s.manager.setFile path st }, [])

end AuthManager

/-- The manager with its client, from the return of its constructor. -/
def authManager (codec : Codec) : Machine AuthManager AuthAct AuthEvent where
  init := {}
  step s x := s.step codec x

variable {codec : Codec} {s t : AuthManager} {h e : List AuthEvent}

/-! ## The parts -/

def AuthEvent.manager? : AuthEvent → Option ManagerEvent
  | .manager e => some e
  | _ => none

def AuthEvent.client? : AuthEvent → Option ClientEvent
  | .client e => some e
  | _ => none

theorem AuthEvent.manager_ofClient (e : List ClientEvent) :
    (ofClient e).filterMap manager? = [] := by
  unfold ofClient
  split_ifs <;> simp [List.filterMap_map, Function.comp_def, manager?]

theorem AuthEvent.client_ofClient (e : List ClientEvent) : (ofClient e).filterMap client? = e := by
  unfold ofClient
  split_ifs <;> simp [List.filterMap_map, Function.comp_def, client?]

theorem AuthEvent.stopped_mem_ofClient {e : List ClientEvent} :
    .stopped ∈ ofClient e ↔ .stopped ∈ e := by
  unfold ofClient
  split_ifs with hs <;> simp [hs]

/-- `Stop` of the manager goes on to that of the client, or returns. -/
theorem AuthManager.step_stop (hst : s.step codec .stop = some (t, e)) :
    s.caller = .idle ∧
      (s.manager.mode = .online ∧ t = { s with caller := .stopping } ∧ e = [] ∨
        s.manager.mode ≠ .online ∧ t = s ∧ e = [.stopped]) := by
  obtain ⟨hidle, hst⟩ := Option.ite_none_right_eq_some.mp hst
  refine ⟨hidle, ?_⟩
  by_cases hm : s.manager.mode = .online
  · rw [if_pos hm] at hst
    obtain ⟨rfl, rfl⟩ := Prod.mk.inj (Option.some.inj hst)
    exact .inl ⟨hm, rfl, rfl⟩
  · rw [if_neg hm] at hst
    obtain ⟨rfl, rfl⟩ := Prod.mk.inj (Option.some.inj hst)
    exact .inr ⟨hm, rfl, rfl⟩

theorem AuthManager.step_client {y : ClientAct} {now : ℤ} {opened : Bool}
    (hst : s.step codec (.client y now opened) = some (t, e)) :
    s.mayCall y = true ∧ ∃ k, s.client.step y = some (t.client, k) ∧
      (t, e) = s.clientStep codec y now opened t.client k := by
  obtain ⟨hmay, hst⟩ := Option.ite_none_right_eq_some.mp hst
  obtain ⟨⟨client, k⟩, hclient, hq⟩ := Option.map_eq_some_iff.mp hst
  obtain rfl : client = t.client := congrArg (·.1.client) hq
  exact ⟨hmay, k, hclient, hq.symm⟩

/-- The callbacks are steps of the manager. -/
theorem steps_callback (codec : Codec) (now : ℤ) (opened : Bool) (e : List ClientEvent) :
    ∀ s : Manager, (manager codec).Steps (fun _ _ => True) s
      (e.foldl (Manager.callback codec now opened) s) [] := by
  induction e with
  | nil => exact fun s => .refl
  | cons x e ih =>
    intro s
    refine Machine.Steps.trans (h := []) (k := []) ?_ (ih _)
    cases x with
    | license m => exact .single (a := .message m now opened) trivial rfl
    | connection connected => exact .single (a := .streamDone connected) trivial rfl
    | started | done | released | stopped => exact .refl

/-- The manager of a run is one of `manager`. -/
theorem manager_of_authManager (r : (authManager codec).Reach s h) :
    (manager codec).Reach s.manager (h.filterMap AuthEvent.manager?) := by
  refine Machine.Steps.simulate (·.manager) AuthEvent.manager? (fun {t h x t' e} _ _ hst => ?_) r
  change t.step codec x = some (t', e) at hst
  cases x with
  | start now =>
    obtain ⟨-, rfl, rfl⟩ := Machine.guarded_iff.mp hst
    exact .single (a := .start now) trivial rfl
  | stop =>
    obtain ⟨-, ⟨-, rfl, rfl⟩ | ⟨-, rfl, rfl⟩⟩ := AuthManager.step_stop hst <;> exact .refl
  | client x now opened =>
    obtain ⟨-, k, -, hq⟩ := AuthManager.step_client hst
    rw [(Prod.mk.inj hq).1, (Prod.mk.inj hq).2, AuthEvent.manager_ofClient]
    exact steps_callback codec now opened k t.manager
  | setMode mode =>
    obtain ⟨rfl, rfl⟩ := Prod.mk.inj (Option.some.inj hst)
    exact .single (a := .setMode mode) trivial rfl
  | setPersistenceFile path =>
    obtain ⟨rfl, rfl⟩ := Prod.mk.inj (Option.some.inj hst)
    exact .single (a := .setPersistenceFile path) trivial rfl
  | check now =>
    obtain ⟨rfl, rfl⟩ := Prod.mk.inj (Option.some.inj hst)
    exact .single (a := .check now) trivial rfl
  | fileChanged path st =>
    obtain ⟨rfl, rfl⟩ := Prod.mk.inj (Option.some.inj hst)
    exact .single (a := .fileChanged path st) trivial rfl

/-- A step leaves the client alone, or is one of it. -/
theorem AuthManager.client_step {x : AuthAct} (hst : s.step codec x = some (t, e)) :
    t.client = s.client ∧ e.filterMap AuthEvent.client? = [] ∧
        (s.caller = .stopping → t.caller = .stopping) ∨
      ∃ y now opened k, x = .client y now opened ∧ s.mayCall y = true ∧
        s.client.step y = some (t.client, k) ∧
        (t, e) = s.clientStep codec y now opened t.client k := by
  cases x with
  | start now =>
    obtain ⟨hidle, rfl, rfl⟩ := Machine.guarded_iff.mp hst
    exact .inl ⟨rfl, rfl, fun hs => nomatch hidle.symm.trans hs⟩
  | stop =>
    obtain ⟨hidle, ⟨-, rfl, rfl⟩ | ⟨-, rfl, rfl⟩⟩ := AuthManager.step_stop hst <;>
      exact .inl ⟨rfl, rfl, fun hs => nomatch hidle.symm.trans hs⟩
  | client y now opened =>
    obtain ⟨hmay, k, hy, hq⟩ := AuthManager.step_client hst
    exact .inr ⟨y, now, opened, k, rfl, hmay, hy, hq⟩
  | setMode | setPersistenceFile | check | fileChanged =>
    obtain ⟨rfl, rfl⟩ := Prod.mk.inj (Option.some.inj hst)
    exact .inl ⟨rfl, rfl, id⟩

/-- The client of a run is one of `authClient`. -/
theorem client_of_authManager (r : (authManager codec).Reach s h) :
    authClient.Reach s.client (h.filterMap AuthEvent.client?) := by
  refine Machine.Steps.simulate (·.client) AuthEvent.client? (fun {t h x t' e} _ _ hst => ?_) r
  rcases AuthManager.client_step hst with ⟨hclient, he, -⟩ | ⟨y, now, opened, k, -, -, hst, hq⟩
  · rw [hclient, he]
    exact .refl
  · rw [(Prod.mk.inj hq).2, AuthEvent.client_ofClient]
    exact .single (a := y) trivial hst

/-! ## The threads of the client -/

/-- No callback of the reactor is to come. -/
def Call.settled : Call → Bool
  | .active _ | .ending _ => false
  | _ => true

/-- The steps of the thread that calls `Start` and `Stop`. -/
def ClientAct.isCaller : ClientAct → Bool
  | .start | .stop | .stopActive | .stopNotify | .join => true
  | _ => false

namespace AuthClient

variable {c c' : AuthClient} {k : List ClientEvent}

/-- `StreamLoop` leaves `running_` and the caller of `Stop` alone. -/
theorem streamLoop_frame {stub : Bool} (hst : c.streamLoop stub = some (c', k)) :
    c.loop ≠ .off ∧ c'.running = c.running ∧ c'.stopping = c.stopping ∧ .stopped ∉ k := by
  have hturn : ∀ j phase, (c.turn j phase).1.running = c.running ∧
      (c.turn j phase).1.stopping = c.stopping ∧ .stopped ∉ (c.turn j phase).2 := by
    intro j phase
    cases phase <;> unfold turn <;> dsimp only <;> try split_ifs
    all_goals exact ⟨rfl, rfl, by simp⟩
  unfold streamLoop at hst
  cases hloop : c.loop with
  | off => simp [hloop] at hst
  | ended => simp [hloop] at hst
  | own j phase =>
    simp only [hloop, Option.some.injEq] at hst
    have hturn := hturn j phase
    rw [hst] at hturn
    exact ⟨nofun, hturn⟩
  | _ =>
    simp only [hloop, Option.some.injEq, Prod.mk.injEq] at hst
    obtain ⟨rfl, rfl⟩ := hst
    exact ⟨nofun, rfl, rfl, by simp⟩

/-- So do the callbacks. -/
theorem step_frame {x : ClientAct} (hx : x.isCaller = false) (hst : c.step x = some (c', k)) :
    c'.running = c.running ∧ c'.stopping = c.stopping ∧ .stopped ∉ k ∧
      (c.loop = .off → c'.loop = .off) := by
  cases x with
  | loop stub =>
    obtain ⟨hloop, hrun, hstopping, hk⟩ := streamLoop_frame hst
    exact ⟨hrun, hstopping, hk, fun hoff => absurd hoff hloop⟩
  | readDone | message | done | notifyReconnect =>
    obtain ⟨-, rfl, rfl⟩ := Machine.guarded_iff.mp hst
    exact ⟨rfl, rfl, by simp, id⟩
  | callBack =>
    obtain ⟨ok, -, rfl, rfl⟩ := AuthClient.step_callBack hst
    exact ⟨rfl, rfl, by simp, id⟩
  | testStatus =>
    obtain ⟨ok, -, rfl, rfl⟩ := AuthClient.step_testStatus hst
    exact ⟨rfl, rfl, by simp, id⟩
  | start | stop | stopActive | stopNotify | join => exact nomatch hx

/-- `running_` is reset before `Stop` goes on, and the thread is joined before it returns. -/
structure Threads (c : AuthClient) : Prop where
  stopping : c.stopping ≠ .idle → c.running = false
  joined : c.stopping = .idle → c.running = false → c.loop = .off

theorem Threads.step {x : ClientAct} (hI : c.Threads) (hst : c.step x = some (c', k)) :
    c'.Threads := by
  cases x with
  | start =>
    obtain ⟨hidle, rfl, rfl⟩ := Machine.guarded_iff.mp hst
    unfold AuthClient.start
    split_ifs with hr
    · exact hI
    · exact ⟨fun hne => absurd hidle hne, nofun⟩
  | stop =>
    obtain ⟨-, ⟨-, rfl, -⟩ | ⟨-, rfl, -⟩⟩ := AuthClient.step_stop hst
    · exact ⟨fun _ => rfl, nofun⟩
    · exact hI
  | stopActive =>
    obtain ⟨hflagged, rfl, rfl⟩ := Machine.guarded_iff.mp hst
    have hr : c.running = false := hI.stopping (by simp [hflagged])
    unfold AuthClient.stopActive
    split <;> exact ⟨fun _ => hr, nofun⟩
  | stopNotify =>
    obtain ⟨hnotifying, rfl, rfl⟩ := Machine.guarded_iff.mp hst
    exact ⟨fun _ => hI.stopping (by simp [hnotifying]), nofun⟩
  | join =>
    obtain ⟨-, rfl, rfl⟩ := Machine.guarded_iff.mp hst
    exact ⟨nofun, fun _ _ => rfl⟩
  | _ =>
    obtain ⟨hrun, hstopping, -, hloop⟩ := step_frame rfl hst
    refine ⟨fun hne => hrun.trans (hI.stopping (hstopping ▸ hne)), fun hidle hr => ?_⟩
    exact hloop (hI.joined (hstopping ▸ hidle) (hrun ▸ hr))

/-- `Stop` is under way from the exchange of `running_` until it returns. -/
theorem stopping_step {x : ClientAct} (hI : c.Threads) (hst : c.step x = some (c', k)) :
    (.stopped ∈ k → c'.stopping = .idle ∧ c'.running = false ∧ c'.calls = c.calls) ∧
    (c'.stopping ≠ .idle → .stopped ∉ k ∧ x ≠ .start ∧ (x = .stop ∨ c.stopping ≠ .idle)) := by
  cases x with
  | start =>
    obtain ⟨hidle, rfl, rfl⟩ := Machine.guarded_iff.mp hst
    unfold AuthClient.start
    split_ifs <;> exact ⟨by simp, fun hne => absurd hidle hne⟩
  | stop =>
    obtain ⟨hidle, ⟨hr, rfl, rfl⟩ | ⟨hr, rfl, rfl⟩⟩ := AuthClient.step_stop hst
    · exact ⟨by simp, fun _ => ⟨by simp, nofun, .inl rfl⟩⟩
    · exact ⟨fun _ => ⟨hidle, hr, rfl⟩, fun hne => absurd hidle hne⟩
  | stopActive =>
    obtain ⟨hflagged, rfl, rfl⟩ := Machine.guarded_iff.mp hst
    exact ⟨by simp, fun _ => ⟨by simp, nofun, .inr (by simp [hflagged])⟩⟩
  | stopNotify =>
    obtain ⟨hnotifying, rfl, rfl⟩ := Machine.guarded_iff.mp hst
    exact ⟨by simp, fun _ => ⟨by simp, nofun, .inr (by simp [hnotifying])⟩⟩
  | join =>
    obtain ⟨⟨hjoining, -⟩, rfl, rfl⟩ := Machine.guarded_iff.mp hst
    have hr : c.running = false := hI.stopping (by simp [hjoining])
    exact ⟨fun _ => ⟨rfl, hr, rfl⟩, fun hne => absurd rfl hne⟩
  | _ =>
    obtain ⟨-, hstopping, hk, -⟩ := step_frame rfl hst
    exact ⟨fun hs => absurd hs hk, fun hne => ⟨hk, nofun, .inr (hstopping ▸ hne)⟩⟩

/-- Nothing is running. -/
structure Quiet (c : AuthClient) : Prop where
  running : c.running = false
  stopping : c.stopping = .idle
  loop : c.loop = .off
  settled : ∀ j, (c.calls j).settled = true

theorem Quiet.setCall {j : ℕ} {x : Call} (hQ : c.Quiet) (hx : x.settled = true) :
    (c.setCall j x).Quiet := by
  refine ⟨hQ.running, hQ.stopping, hQ.loop, fun i => ?_⟩
  by_cases hi : i = j
  · subst hi
    simpa [AuthClient.setCall] using hx
  · simpa [AuthClient.setCall, hi] using hQ.settled i

theorem Quiet.step {x : ClientAct} (hQ : c.Quiet) (hx : x ≠ .start)
    (hst : c.step x = some (c', k)) : c'.Quiet ∧ ∀ e ∈ k, e = .stopped := by
  have hcall : ∀ {j y}, c.calls j = y → y.settled = true := fun hj => hj ▸ hQ.settled _
  cases x with
  | start => exact absurd rfl hx
  | stop =>
    obtain ⟨-, ⟨hr, -⟩ | ⟨-, rfl, rfl⟩⟩ := AuthClient.step_stop hst
    · exact absurd (hQ.running.symm.trans hr) Bool.false_ne_true
    · exact ⟨hQ, by simp⟩
  | stopActive | stopNotify | join => simp [AuthClient.step, hQ.stopping] at hst
  | loop => simp [AuthClient.step, AuthClient.streamLoop, hQ.loop] at hst
  | readDone =>
    obtain ⟨⟨hactive, -⟩, -⟩ := Option.ite_none_right_eq_some.mp hst
    exact absurd (hcall hactive) Bool.false_ne_true
  | message | done =>
    obtain ⟨hactive, -⟩ := Option.ite_none_right_eq_some.mp hst
    exact absurd (hcall hactive) Bool.false_ne_true
  | callBack =>
    obtain ⟨ok, hending, -⟩ := AuthClient.step_callBack hst
    exact absurd (hcall hending) Bool.false_ne_true
  | testStatus =>
    obtain ⟨ok, -, rfl, rfl⟩ := AuthClient.step_testStatus hst
    exact ⟨hQ.setCall (by split_ifs <;> rfl), by simp⟩
  | notifyReconnect j =>
    obtain ⟨-, rfl, rfl⟩ := Machine.guarded_iff.mp hst
    have hQ' : (c.setCall j .closed).Quiet := hQ.setCall rfl
    exact ⟨⟨hQ'.running, hQ'.stopping, hQ'.loop, hQ'.settled⟩, by simp⟩

end AuthClient

/-! ## Stop -/

structure StopInv (s : AuthManager) : Prop where
  threads : s.client.Threads
  caller : s.client.stopping ≠ .idle → s.caller = .stopping

theorem StopInv.step {x : AuthAct} (hI : StopInv s) (hst : s.step codec x = some (t, e)) :
    StopInv t := by
  rcases AuthManager.client_step hst with ⟨hclient, -, hcaller⟩ | ⟨y, now, opened, k, -, hmay, hy, hq⟩
  · exact ⟨hclient ▸ hI.threads, fun hne => hcaller (hI.caller (hclient ▸ hne))⟩
  · refine ⟨hI.threads.step hy, fun hne => ?_⟩
    obtain ⟨hk, hstart, hstop⟩ := (AuthClient.stopping_step hI.threads hy).2 hne
    have hcaller : t.caller = s.caller := by
      rw [(Prod.mk.inj hq).1]
      exact if_neg (not_or.mpr ⟨hstart, hk⟩)
    rw [hcaller]
    rcases hstop with rfl | hstop
    · simpa [AuthManager.mayCall] using hmay
    · exact hI.caller hstop

theorem stopInv_of_run (r : (authManager codec).Reach s h) : StopInv s :=
  Machine.Run.invariant (I := fun s _ => StopInv s) 
    ⟨⟨fun hne => absurd rfl hne, fun _ _ => rfl⟩, fun hne => absurd rfl hne⟩
    (fun _ hI _ hst => hI.step hst) r

/-- The manager is not started again. -/
def NoStart (_ : AuthManager) (x : AuthAct) : Prop := ∀ now, x ≠ .start now

/-- The client has stopped, and until the next `Start` no callback changes the state or the mode. -/
structure StopsClient (codec : Codec) (t : AuthManager) : Prop where
  running : t.client.running = false
  joined : t.client.loop = .off
  quiet : ∀ u k, (authManager codec).Steps NoStart t u k → ∀ x now opened u' e,
    u.step codec (.client x now opened) = some (u', e) →
    u'.manager.auth.authState = u.manager.auth.authState ∧ u'.manager.mode = u.manager.mode

/-- `Stop` finds `mode_` online or the client not running, and when it returns each stream has made
its connection callback. -/
def StopsQuietly (s : AuthManager) (x : AuthAct) : Prop :=
  (x = .stop → s.manager.mode = .online ∨ s.client.running = false) ∧
    ∀ j, (s.client.calls j).settled = true

theorem foldl_callback {now : ℤ} {opened : Bool} {k : List ClientEvent}
    (hk : ∀ e ∈ k, e = .stopped) (m : Manager) :
    k.foldl (Manager.callback codec now opened) m = m := by
  induction k with
  | nil => rfl
  | cons e k ih =>
    obtain ⟨hx, hrest⟩ := List.forall_mem_cons.mp hk
    subst hx
    exact ih hrest

/-- A step of a quiet client. -/
theorem quiet_client {y : ClientAct} {now : ℤ} {opened : Bool} (hQ : s.client.Quiet)
    (hcaller : s.caller ≠ .starting) (hst : s.step codec (.client y now opened) = some (t, e)) :
    t.client.Quiet ∧ t.caller ≠ .starting ∧ t.manager = s.manager := by
  obtain ⟨hmay, k, hy, hq⟩ := AuthManager.step_client hst
  have hne : y ≠ .start := by
    rintro rfl
    exact hcaller (of_decide_eq_true hmay)
  obtain ⟨hQ, hk⟩ := hQ.step hne hy
  rw [(Prod.mk.inj hq).1]
  refine ⟨hQ, ?_, foldl_callback hk s.manager⟩
  dsimp only
  split_ifs
  · nofun
  · exact hcaller

/-- Without `Start`, a quiet client stays quiet. -/
theorem quiet_step {x : AuthAct} (hQ : s.client.Quiet) (hcaller : s.caller ≠ .starting)
    (hC : NoStart s x) (hst : s.step codec x = some (t, e)) :
    t.client.Quiet ∧ t.caller ≠ .starting := by
  cases x with
  | start now => exact absurd rfl (hC now)
  | stop =>
    obtain ⟨-, ⟨-, rfl, rfl⟩ | ⟨-, rfl, rfl⟩⟩ := AuthManager.step_stop hst
    · exact ⟨hQ, nofun⟩
    · exact ⟨hQ, hcaller⟩
  | client y now opened =>
    obtain ⟨hQ, hcaller, -⟩ := quiet_client hQ hcaller hst
    exact ⟨hQ, hcaller⟩
  | setMode | setPersistenceFile | check | fileChanged =>
    obtain ⟨rfl, rfl⟩ := Prod.mk.inj (Option.some.inj hst)
    exact ⟨hQ, hcaller⟩

theorem quiet_of_steps (hQ : s.client.Quiet) (hcaller : s.caller ≠ .starting)
    (r : (authManager codec).Steps NoStart s t e) : t.client.Quiet ∧ t.caller ≠ .starting := by
  induction r with
  | refl => exact ⟨hQ, hcaller⟩
  | tail _ hC hst ih => exact quiet_step ih.1 ih.2 hC hst

theorem stopsClient_of_quiet (hQ : t.client.Quiet) (hcaller : t.caller ≠ .starting) :
    StopsClient codec t := by
  refine ⟨hQ.running, hQ.loop, fun u k r x now opened u' e hst => ?_⟩
  obtain ⟨hQ, hcaller⟩ := quiet_of_steps hQ hcaller r
  obtain ⟨-, -, hmanager⟩ := quiet_client hQ hcaller hst
  rw [hmanager]
  exact ⟨rfl, rfl⟩

/-! ### Streams whose callback is to come -/

/-- A step of the client that changes the mode may come. -/
def Disturbed (codec : Codec) (t : AuthManager) : Prop :=
  ∃ u k, (authManager codec).Steps NoStart t u k ∧ ∃ x now opened u' e,
    u.step codec (.client x now opened) = some (u', e) ∧ u'.manager.mode ≠ u.manager.mode

theorem Disturbed.of_step {x : AuthAct} (hC : NoStart s x) (hst : s.step codec x = some (t, e))
    (ht : Disturbed codec t) : Disturbed codec s := by
  obtain ⟨u, k, r, hu⟩ := ht
  exact ⟨u, e ++ k, (Machine.Steps.single hC hst).trans r, hu⟩

theorem Disturbed.not_stopsClient (hd : Disturbed codec t) : ¬ StopsClient codec t := by
  obtain ⟨u, k, r, x, now, opened, u', e, hst, hne⟩ := hd
  exact fun hs => hne (hs.quiet u k r x now opened u' e hst).2

/-- A step of the client other than `Start` and `Stop`. -/
theorem step_of_client {y : ClientAct} {c : AuthClient} {k : List ClientEvent} (now : ℤ)
    (opened : Bool) (hmay : s.mayCall y = true) (hy : s.client.step y = some (c, k)) :
    s.step codec (.client y now opened) = some (s.clientStep codec y now opened c k) := by
  simp [AuthManager.step, hmay, hy]

/-- `OnDone` is about to call back: the mode is set before it does. -/
theorem disturbed_of_ending {j : ℕ} {ok : Bool} (hj : s.client.calls j = .ending ok) :
    Disturbed codec s := by
  let u : AuthManager :=
    { s with manager := { s.manager with mode := if ok then .offline else .online } }
  have hcall : u.client.step (.callBack j) =
      some (s.client.setCall j (.calledBack ok), [.connection ok]) := by
    simp [AuthClient.step, u, hj]
  refine Disturbed.of_step (x := .setMode (if ok then .offline else .online)) (by simp [NoStart])
    rfl ⟨u, [], .refl, .callBack j, 0, true, _, _, step_of_client 0 true rfl hcall, ?_⟩
  cases ok <;> simp [Manager.callback, Manager.handleConnection, u]

theorem disturbed_of_active {j : ℕ} (hj : s.client.calls j = .active false) :
    Disturbed codec s := by
  have hdone : s.client.step (.done j true) =
      some ((s.client.setCall j (.ending true)).setFinished j true, [.done j]) := by
    simp [AuthClient.step, hj]
  refine Disturbed.of_step (x := .client (.done j true) 0 true) (by simp [NoStart])
    (step_of_client 0 true rfl hdone) ?_
  have hending : ((s.client.setCall j (.ending true)).setFinished j true).calls j =
      .ending true := by
    simp [AuthClient.setCall, AuthClient.setFinished]
  exact disturbed_of_ending hending

theorem disturbed_of_not_settled {j : ℕ} (hj : (s.client.calls j).settled = false) :
    Disturbed codec s := by
  cases hcall : s.client.calls j with
  | ending ok => exact disturbed_of_ending hcall
  | active reading =>
    cases reading with
    | false => exact disturbed_of_active hcall
    | true =>
      have hmessage : s.client.step (.message j {}) =
          some (s.client.setCall j (.active false), [.license {}]) := by
        simp [AuthClient.step, hcall]
      refine Disturbed.of_step (x := .client (.message j {}) 0 true) (by simp [NoStart])
        (step_of_client 0 true rfl hmessage) ?_
      refine disturbed_of_active (j := j) ?_
      simp [AuthClient.setCall]
  | _ => simp [hcall, Call.settled] at hj

/-- When `Stop` returns. -/
theorem returned_of_stopped {x : AuthAct} (hI : StopInv s) (hst : s.step codec x = some (t, e))
    (he : .stopped ∈ e) : t.caller = .idle ∧ t.client.stopping = .idle ∧
      t.client.calls = s.client.calls ∧
      (t.client.running = false ↔ x = .stop → s.manager.mode = .online ∨ s.client.running = false) := by
  cases x with
  | stop =>
    obtain ⟨hidle, ⟨-, rfl, rfl⟩ | ⟨hm, rfl, rfl⟩⟩ := AuthManager.step_stop hst
    · exact nomatch he
    · refine ⟨hidle, ?_, rfl, by simp [hm]⟩
      by_contra hne
      exact nomatch hidle.symm.trans (hI.caller hne)
  | client y now opened =>
    obtain ⟨-, k, hy, hq⟩ := AuthManager.step_client hst
    have hk : .stopped ∈ k := AuthEvent.stopped_mem_ofClient.mp ((Prod.mk.inj hq).2 ▸ he)
    obtain ⟨hidle, hr, hcalls⟩ := (AuthClient.stopping_step hI.threads hy).1 hk
    refine ⟨?_, hidle, hcalls, iff_of_true hr nofun⟩
    rw [(Prod.mk.inj hq).1]
    exact if_pos (.inr hk)
  | start =>
    obtain ⟨-, -, rfl⟩ := Machine.guarded_iff.mp hst
    exact nomatch he
  | setMode | setPersistenceFile | fileChanged =>
    obtain ⟨-, rfl⟩ := Prod.mk.inj (Option.some.inj hst)
    exact nomatch he
  | check =>
    obtain ⟨-, rfl⟩ := Prod.mk.inj (Option.some.inj hst)
    exact nomatch List.mem_singleton.mp he

/-- **`Stop` stops the client** exactly if it is called in online mode, or while the client is not
running, and returns when each stream has made its connection callback. -/
theorem stops_client_iff {x : AuthAct} (r : (authManager codec).Reach s h)
    (hst : (authManager codec).step s x = some (t, e)) (he : .stopped ∈ e) :
    StopsClient codec t ↔ StopsQuietly s x := by
  have hI := stopInv_of_run r
  obtain ⟨hcaller, hidle, hcalls, hrun⟩ := returned_of_stopped hI hst he
  constructor
  · refine fun hs => ⟨hrun.mp hs.running, fun j => ?_⟩
    by_contra hj
    rw [← hcalls, Bool.not_eq_true] at hj
    exact (disturbed_of_not_settled hj).not_stopsClient hs
  · rintro ⟨hmode, hsettled⟩
    have hr := hrun.mpr hmode
    have hQ : t.client.Quiet :=
      ⟨hr, hidle, (hI.step hst).threads.joined hidle hr, fun j => hcalls ▸ hsettled j⟩
    exact stopsClient_of_quiet hQ (by simp [hcaller])

/-- The first stream has ended and called back when `Stop` is called; what is left is to join the
thread. -/
def startedAndStopped : List AuthAct :=
  [.start 0, .client .start 0 true] ++ List.replicate 5 (.client (.loop true) 0 true) ++
    [.client (.done 0 true) 0 true, .client (.callBack 0) 0 true, .stop, .client .stop 0 true,
      .client .stopActive 0 true, .client .stopNotify 0 true] ++
    List.replicate 5 (.client (.loop true) 0 true)

theorem stops_client_iff_startedAndStopped : ∃ s h t e,
    (authManager demoCodec).Reach s h ∧
    (authManager demoCodec).step s (.client .join 0 true) = some (t, e) ∧ .stopped ∈ e ∧
    StopsClient demoCodec t := by
  have r := Machine.run_schedule (authManager demoCodec) (fun _ _ => True) startedAndStopped rfl
  refine ⟨_, _, _, _, r, rfl, by decide, ?_⟩
  refine (stops_client_iff (x := .client .join 0 true) r rfl (by decide)).mpr
    ⟨nofun, fun j => ?_⟩
  cases j <;> rfl

/-- A stream is opened and fails, and the manager goes offline. -/
def openedAndFailed : List AuthAct :=
  [.start 0, .client .start 0 true] ++ List.replicate 5 (.client (.loop true) 0 true) ++
    [.client (.done 0 false) 0 true, .client (.callBack 0) 0 true]

/-- `Stop` leaves the client of a manager that is offline running. -/
theorem stopped_still_running : ¬ ∀ codec s h x t e, (authManager codec).Reach s h →
    (authManager codec).step s x = some (t, e) → .stopped ∈ e → StopsClient codec t := by
  intro hall
  have r := Machine.run_schedule (authManager demoCodec) (fun _ _ => True) openedAndFailed rfl
  have hstops := hall demoCodec _ _ .stop _ _ r rfl (by decide)
  exact absurd hstops.running (by decide)

end Zurg.Auth
