import Zurg.Agent.Startup
import Zurg.Control.Features

/-!
# Zurg.Agent.System — authorization and the control client in one program

`main` builds the manager, starts it, and builds the control client, while the callbacks of the
authorization stream go on and publish what they find out.  Each call of `UpdateAuthState` is under
way for a while: it has been decided on, it exchanges `auth_state_`, and if the state is new it
publishes.  `main` waits for its own calls; callbacks come at any time once the stream is started,
and any number of them at once.

`Publish` holds the mutex of the bus until it has sent the errors of the tasks it ends.  That is as
long as the client has such errors to send, and until then no other operation of the bus begins.
-/

namespace Zurg.Agent

open Lib
open Control (Client Config Construction CtorPc expectedFeatures)
open Auth (AuthMode Codec FileState LicenseResp Manager Publisher)

/-- Why a call of `UpdateAuthState` is made. -/
inductive Grounds
  | created
  /-- `HandleMessage`, in online mode. -/
  | license (m : LicenseResp) (now : ℤ)
  /-- `HandleConnection`. -/
  | connection (connected : Bool)
  /-- `CheckOfflineAuthorization`, with the license in the file. -/
  | persisted (m : Option LicenseResp) (now : ℤ)
  deriving DecidableEq, Repr

/-- A call of `UpdateAuthState`. -/
structure UpdateCall where
  newState : AuthState
  grounds : Grounds
  force : Bool := false
  /-- Whether `main` makes it. -/
  byMain : Bool := false
  deriving DecidableEq, Repr

/-- The agent at one moment. -/
structure Program where
  script : List MainStep
  mode : AuthMode := .unknown
  authState : AuthState := .unknown
  persistenceFile : String := ""
  files : String → FileState
  /-- `AuthClient::Start` has been called. -/
  started : Bool := false
  /-- The calls that have still to exchange the state, in any order. -/
  deciding : List UpdateCall := []
  /-- The calls that have still to publish, in the order of their exchanges. -/
  pending : List UpdateCall := []
  /-- `HandleConnection` after `UpdateAuthState`: the mode is still to be set. -/
  returning : List Bool := []
  bus : EventBus := {}
  ctor : CtorPc := .start
  client : Client

inductive AgentAct
  /-- The next step of `main`. -/
  | main (now : ℤ)
  /-- `HandleMessage`, up to `UpdateAuthState`; whether the file can be opened. -/
  | message (m : LicenseResp) (now : ℤ) (opened : Bool)
  /-- `HandleConnection`, up to `UpdateAuthState`. -/
  | connection (connected : Bool)
  /-- The exchange of the `i`-th call. -/
  | exchange (i : ℕ)
  /-- The `Publish` of the `i`-th call that has one to do. -/
  | publish (i : ℕ)
  /-- The end of a `HandleConnection`. -/
  | setModeAfter (i : ℕ)
  | fileChanged (path : String) (st : FileState)
  /-- A step of the control client. -/
  | client (x : Control.Act)
  deriving DecidableEq, Repr

inductive AgentEvent
  | decided (call : UpdateCall)
  | published (event : AuthStateChangedEvent)
  | client (e : Control.Event)
  deriving DecidableEq, Repr

namespace Program

variable (codec : Codec) (cfg : Config) (s : Program)

/-- The manager, as far as its checks read it. -/
def manager : Manager :=
  { mode := s.mode, persistenceFile := s.persistenceFile, files := s.files }

/-- `UpdateAuthState` is called. -/
def updateAuthState (call : UpdateCall) : Program × List AgentEvent :=
  ({ s with deciding := s.deciding ++ [call] }, [.decided call])

/-- `CheckOfflineAuthorization`, on the main thread. -/
def checkOffline (now : ℤ) : Program × List AgentEvent :=
  s.updateAuthState
    { newState := if s.manager.offlineAuthorized codec now then .online else .offline
      grounds := .persisted (s.manager.persisted codec) now
      byMain := true }

/-- `AuthManager::Start`; in online mode it starts the stream. -/
def start (now : ℤ) : Program × List AgentEvent :=
  match s.mode with
  | .unknown => ({ s with mode := .online, started := true }, [])
  | .online => ({ s with started := true }, [])
  | .offline => s.checkOffline codec now

/-- `CheckAuthorization`; in other modes than offline it only reads. -/
def checkAuthorization (now : ℤ) : Program × List AgentEvent :=
  match s.mode with
  | .offline => s.checkOffline codec now
  | _ => (s, [])

/-- `UpdateAuthState` up to the test whether to publish. -/
def exchange (call : UpdateCall) : Program :=
  { s with
    authState := call.newState
    pending := if call.force || s.authState ≠ call.newState then s.pending ++ [call]
      else s.pending }

/-- `HandleConnection` goes on when its call of `UpdateAuthState` returns. -/
def returned (call : UpdateCall) : List Bool :=
  match call.grounds with
  | .connection connected => s.returning ++ [connected]
  | _ => s.returning

/-- The callback the control client has subscribed. -/
def deliver (_ : ℕ) (event : AuthStateChangedEvent) (p : Client × List Control.Event) :
    Client × List Control.Event :=
  let r := p.1.onAuthStateChanged cfg event
  (r.1, p.2 ++ r.2)

/-- The mutex of the bus is free. -/
def busFree : Bool := s.client.auth = []

/-- `main` has no call under way. -/
def mainFree : Bool := (s.deciding ++ s.pending).all (fun call => !call.byMain)

def mainStep (now : ℤ) : MainStep → Option (Program × List AgentEvent)
  | .createManager =>
    some (s.updateAuthState
      { newState := .unknown, grounds := .created, force := true, byMain := true })
  | .setPersistenceFile path => some ({ s with persistenceFile := path }, [])
  | .setMode mode => some ({ s with mode }, [])
  | .start => some (s.start codec now)
  | .checkAuthorization => some (s.checkAuthorization codec now)
  | .subscribe =>
    if s.busFree then some ({ s with bus := s.bus.subscribe 0, ctor := .subscribed }, []) else none
  | .readLast =>
    if s.busFree then some ({ s with ctor := .read s.bus.lastEvent }, []) else none
  | .replay =>
    match s.ctor with
    | .read (some event) =>
      some ({ s with client := (s.client.onAuthStateChanged cfg event).1, ctor := .done }, [])
    | .read none =>
      some ({ s with
        client := (s.client.applyFeatureUpdate s.client.activeFeatures).1, ctor := .done }, [])
    | _ => none

def step : AgentAct → Option (Program × List AgentEvent)
  | .main now =>
    match s.script with
    | x :: rest => if s.mainFree then { s with script := rest }.mainStep codec cfg now x else none
    | [] => none
  | .message m now opened =>
    if s.started then
      let s := { s with files := (s.manager.persistMessage codec m opened).files }
      if s.mode = .online then
        some (s.updateAuthState
          { newState := if m.authorizes now then .online else .offline
            grounds := .license m now })
      else some (s, [])
    else none
  | .connection connected =>
    if s.started then
      some (s.updateAuthState
        { newState := if connected then .online else .offline, grounds := .connection connected })
    else none
  | .exchange i =>
    match s.deciding[i]? with
    | some call =>
      let t := { s with deciding := s.deciding.eraseIdx i }
      some ({ t.exchange call with
        returning := if call.force || s.authState ≠ call.newState then s.returning
          else s.returned call }, [])
    | none => none
  | .publish i =>
    match s.pending[i]? with
    | some call =>
      if s.busFree then
        let r := s.bus.publish (deliver cfg) ⟨call.newState⟩ (s.client, [])
        some ({ s with
          bus := r.1
          client := r.2.1
          pending := s.pending.eraseIdx i
          returning := s.returned call },
          .published ⟨call.newState⟩ :: r.2.2.map .client)
      else none
    | none => none
  | .setModeAfter i =>
    match s.returning[i]? with
    | some connected =>
      some ({ s with
        mode := if connected then .online else if s.mode = .online then .offline else s.mode
        returning := s.returning.eraseIdx i }, [])
    | none => none
  | .fileChanged path st =>
    some ({ s with files := fun p => if p = path then st else s.files p }, [])
  | .client x =>
    match x with
    | .authEvent _ => none
    | _ =>
      if s.ctor = .done then
        (s.client.step cfg x).map fun r => ({ s with client := r.1 }, r.2.map .client)
      else none

end Program

/-! ## What a step does -/

/-- What entitles `UpdateAuthState` to make the state online. -/
def Grounds.Grants : Grounds → Prop
  | .created => False
  | .license m now => m.authorizes now = true
  | .connection connected => connected = true
  | .persisted m now => ∃ license, m = some license ∧ license.authorizes now = true

/-- A call that makes the state online is entitled to. -/
def UpdateCall.Founded (call : UpdateCall) : Prop :=
  call.newState = .online → call.grounds.Grants

/-- A step of `main` before it builds the client. -/
def MainStep.isConstructor : MainStep → Bool
  | .subscribe | .readLast | .replay => true
  | _ => false

namespace Program

/-- The steps of the agent, by what they do to the calls, the bus and the client. -/
inductive Move (cfg : Config) (s : Program) : AgentAct → Program → List AgentEvent → Prop
  | idle {x : AgentAct} {script : List MainStep} {mode : AuthMode} {persistenceFile : String}
      {files : String → FileState} {started : Bool} {returning : List Bool} :
      script = s.script ∨ s.mainFree = true ∧ (∃ y, s.script = y :: script ∧
        y.isConstructor = false ∧ y ≠ .createManager) →
      Move cfg s x { s with script, mode, persistenceFile, files, started, returning } []
  | call {x : AgentAct} {script : List MainStep} {files : String → FileState}
      {call : UpdateCall} :
      call.Founded →
      script = s.script ∧ s.started = true ∨ s.mainFree = true ∧ (∃ y, s.script = y :: script ∧
        y.isConstructor = false ∧ (y = .createManager →
          call.force = true ∧ call.byMain = true)) →
      Move cfg s x { s with script, files, deciding := s.deciding ++ [call] } [.decided call]
  | exchange {i : ℕ} {call : UpdateCall} {returning : List Bool} : s.deciding[i]? = some call →
      Move cfg s (.exchange i)
        { s with
          deciding := s.deciding.eraseIdx i
          authState := call.newState
          pending := if call.force || s.authState ≠ call.newState then s.pending ++ [call]
            else s.pending
          returning } []
  | publish {i : ℕ} {call : UpdateCall} {returning : List Bool} : s.pending[i]? = some call →
      s.client.auth = [] →
      Move cfg s (.publish i)
        { s with
          bus := { s.bus with lastEvents := some ⟨call.newState⟩ }
          client := (s.bus.publish (deliver cfg) ⟨call.newState⟩ (s.client, [])).2.1
          pending := s.pending.eraseIdx i
          returning }
        (.published ⟨call.newState⟩ ::
          (s.bus.publish (deliver cfg) ⟨call.newState⟩ (s.client, [])).2.2.map .client)
  | subscribe {now : ℤ} {rest : List MainStep} : s.script = .subscribe :: rest →
      s.mainFree = true →
      Move cfg s (.main now)
        { s with script := rest, bus := s.bus.subscribe 0, ctor := .subscribed } []
  | readLast {now : ℤ} {rest : List MainStep} : s.script = .readLast :: rest →
      Move cfg s (.main now) { s with script := rest, ctor := .read s.bus.lastEvent } []
  | replay {now : ℤ} {rest : List MainStep} {read : Option AuthStateChangedEvent} :
      s.script = .replay :: rest → s.ctor = .read read →
      Move cfg s (.main now)
        { s with
          script := rest
          client := Construction.replay cfg { bus := s.bus, client := s.client } read
          ctor := .done } []
  | client {x : Control.Act} {c : Client} {e : List Control.Event} : s.ctor = .done →
      (∀ event, x ≠ .authEvent event) → s.client.step cfg x = some (c, e) →
      Move cfg s (.client x) { s with client := c } (e.map .client)

variable {codec : Codec} {cfg : Config} {s s' : Program} {x : AgentAct} {e : List AgentEvent}

theorem founded_persisted (s : Program) (now : ℤ) : UpdateCall.Founded
    { newState := if s.manager.offlineAuthorized codec now then .online else .offline
      grounds := .persisted (s.manager.persisted codec) now
      byMain := true } := by
  intro hon
  have ha : s.manager.offlineAuthorized codec now = true := by
    by_contra hno
    exact absurd ((if_neg hno).symm.trans hon) (by simp)
  exact Manager.offlineAuthorized_persisted ha

theorem move_mainStep {y : MainStep} {rest : List MainStep} {now : ℤ} (hy : s.script = y :: rest)
    (hf : s.mainFree = true)
    (hst : { s with script := rest }.mainStep codec cfg now y = some (s', e)) :
    Move cfg s (.main now) s' e := by
  have hcheck : ∀ y, s.script = y :: rest → y.isConstructor = false → y ≠ .createManager →
      Move cfg s (.main now) ({ s with script := rest }.checkOffline codec now).1
        ({ s with script := rest }.checkOffline codec now).2 := by
    intro y hy hc hne
    exact .call (founded_persisted _ now) (.inr ⟨hf, y, hy, hc, fun h => absurd h hne⟩)
  cases y with
  | createManager =>
    obtain ⟨rfl, rfl⟩ := Prod.mk.inj (Option.some.inj hst)
    exact .call (fun hon => absurd hon (by simp)) (.inr ⟨hf, _, hy, rfl, fun _ => ⟨rfl, rfl⟩⟩)
  | setPersistenceFile path =>
    obtain ⟨rfl, rfl⟩ := Prod.mk.inj (Option.some.inj hst)
    exact .idle (.inr ⟨hf, _, hy, rfl, by simp⟩)
  | setMode mode =>
    obtain ⟨rfl, rfl⟩ := Prod.mk.inj (Option.some.inj hst)
    exact .idle (.inr ⟨hf, _, hy, rfl, by simp⟩)
  | start =>
    obtain ⟨rfl, rfl⟩ := Prod.mk.inj (Option.some.inj hst)
    split
    · exact .idle (.inr ⟨hf, _, hy, rfl, by simp⟩)
    · exact .idle (.inr ⟨hf, _, hy, rfl, by simp⟩)
    · exact hcheck _ hy rfl (by simp)
  | checkAuthorization =>
    obtain ⟨rfl, rfl⟩ := Prod.mk.inj (Option.some.inj hst)
    split
    · exact hcheck _ hy rfl (by simp)
    · exact .idle (.inr ⟨hf, _, hy, rfl, by simp⟩)
  | subscribe =>
    obtain ⟨-, rfl, rfl⟩ := Machine.guarded_iff.mp hst
    exact .subscribe hy hf
  | readLast =>
    obtain ⟨-, rfl, rfl⟩ := Machine.guarded_iff.mp hst
    exact .readLast hy
  | replay =>
    simp only [mainStep] at hst
    split at hst
    · next event hctor =>
      obtain ⟨rfl, rfl⟩ := Prod.mk.inj (Option.some.inj hst)
      exact @Move.replay cfg s now rest (some event) hy hctor
    · next hctor =>
      obtain ⟨rfl, rfl⟩ := Prod.mk.inj (Option.some.inj hst)
      exact @Move.replay cfg s now rest none hy hctor
    · exact absurd hst (by simp)

/-- **Every step is one of the moves.** -/
theorem move_of_step (hst : s.step codec cfg x = some (s', e)) : Move cfg s x s' e := by
  cases x with
  | main now =>
    simp only [step] at hst
    split at hst
    · next y rest hy =>
      split_ifs at hst with hf
      exact move_mainStep hy hf hst
    · exact absurd hst (by simp)
  | message m now opened =>
    obtain ⟨hs, heq⟩ := Option.ite_none_right_eq_some.mp hst
    by_cases hm : s.mode = .online
    · obtain ⟨rfl, rfl⟩ := Prod.mk.inj (Option.some.inj ((if_pos hm).symm.trans heq))
      refine .call (fun hon => ?_) (.inl ⟨rfl, hs⟩)
      by_contra hno
      exact absurd ((if_neg hno).symm.trans hon) (by simp)
    · obtain ⟨rfl, rfl⟩ := Prod.mk.inj (Option.some.inj ((if_neg hm).symm.trans heq))
      exact .idle (.inl rfl)
  | connection connected =>
    obtain ⟨hs, heq⟩ := Option.ite_none_right_eq_some.mp hst
    obtain ⟨rfl, rfl⟩ := Prod.mk.inj (Option.some.inj heq)
    refine .call (fun hon => ?_) (.inl ⟨rfl, hs⟩)
    cases connected
    · exact absurd hon (by simp)
    · rfl
  | exchange i =>
    simp only [step] at hst
    split at hst
    · next call hi =>
      obtain ⟨rfl, rfl⟩ := Prod.mk.inj (Option.some.inj hst)
      exact .exchange hi
    · exact absurd hst (by simp)
  | publish i =>
    simp only [step] at hst
    split at hst
    · next call hi =>
      split_ifs at hst with hb
      obtain ⟨rfl, rfl⟩ := Prod.mk.inj (Option.some.inj hst)
      exact .publish hi (of_decide_eq_true hb)
    · exact absurd hst (by simp)
  | setModeAfter i =>
    simp only [step] at hst
    split at hst
    · obtain ⟨rfl, rfl⟩ := Prod.mk.inj (Option.some.inj hst)
      exact .idle (.inl rfl)
    · exact absurd hst (by simp)
  | fileChanged path st =>
    obtain ⟨rfl, rfl⟩ := Prod.mk.inj (Option.some.inj hst)
    exact .idle (.inl rfl)
  | client x =>
    have hx : (∀ event, x ≠ .authEvent event) ∧ s.ctor = .done ∧
        ∃ r, s.client.step cfg x = some r ∧
          ({ s with client := r.1 }, r.2.map AgentEvent.client) = (s', e) := by
      cases x with
      | authEvent event => simp [step] at hst
      | _ =>
        obtain ⟨hd, heq⟩ := Option.ite_none_right_eq_some.mp hst
        obtain ⟨r, hr, heq⟩ := Option.map_eq_some_iff.mp heq
        exact ⟨by simp, hd, r, hr, heq⟩
    obtain ⟨hne, hd, r, hr, heq⟩ := hx
    obtain ⟨rfl, rfl⟩ := Prod.mk.inj heq
    exact .client hd hne hr

end Program

/-- The agent, from the point where `main` has read its configuration; `files` is what the file
system holds then. -/
def agent (codec : Codec) (root : RootNode) (agentId : String) (tempDirectory : Option String)
    (files : String → FileState) : Machine Program AgentAct AgentEvent where
  init :=
    { script := mainScript root
      files := files
      client := Client.new (clientConfig root agentId tempDirectory) }
  step := Program.step codec (clientConfig root agentId tempDirectory)

end Zurg.Agent
