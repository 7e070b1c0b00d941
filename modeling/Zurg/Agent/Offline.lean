import Zurg.Agent.Authorized

/-!
# Zurg.Agent.Offline — an agent that is configured offline decides once

In offline mode no stream is started, and the state is what `main` finds in the persisted license
before it builds the client.  The last of its two looks decides for as long as the agent runs
(`offline_decides_once`): the license may expire, or the file may change, and nothing follows.
-/

namespace Zurg.Agent

open Lib
open Control (Client Config CtorPc)
open Auth (Codec FileState)

/-- The calls of `UpdateAuthState`. -/
def AgentEvent.decided? : AgentEvent → Option UpdateCall
  | .decided call => some call
  | _ => none

/-- What `main` has to do in offline mode once it has set the mode. -/
def offlineScript : List MainStep := [.start, .checkAuthorization] ++ constructorScript

/-- A step of `main` before it sets the mode. -/
def MainStep.Prepares (y : MainStep) : Prop :=
  y = .createManager ∨ ∃ path, y = .setPersistenceFile path

/-- A call that `main` makes. -/
def UpdateCall.OfMain (call : UpdateCall) : Prop :=
  call.byMain = true ∧ ∀ connected, call.grounds ≠ .connection connected

variable {codec : Codec} {cfg : Config} {s s' : Program} {x : AgentAct} {h e : List AgentEvent}

structure OfflineInv (s : Program) (h : List AgentEvent) : Prop where
  quiet : s.started = false ∧ s.returning = []
  /-- The mode is set before anything looks at it. -/
  mode : (∃ pre, s.script = pre ++ .setMode .offline :: offlineScript ∧ ∀ y ∈ pre, y.Prepares) ∨
    s.mode = .offline ∧ s.script <:+ offlineScript
  /-- Only `main` makes calls, one at a time. -/
  calls : s.deciding = [] ∧ s.pending = [] ∨ ∃ call, call.OfMain ∧
    (s.deciding = [call] ∧ s.pending = [] ∨ s.deciding = [] ∧ s.pending = [call])
  /-- A call that is still to exchange the state is the last one, and otherwise that has stored its
  state. -/
  latest : ∀ call, last AgentEvent.decided? h = some call →
    s.deciding = [call] ∨ s.deciding = [] ∧ s.authState = call.newState
  checked : s.script <:+ constructorScript →
    ∃ call m now, last AgentEvent.decided? h = some call ∧ call.grounds = .persisted m now

/-- While `main` may go on nothing is under way. -/
theorem OfflineInv.idle (hI : OfflineInv s h) (hf : s.mainFree = true) :
    s.deciding = [] ∧ s.pending = [] := by
  rcases hI.calls with hn | ⟨call, hm, ⟨hd, hp⟩ | ⟨hd, hp⟩⟩
  · exact hn
  · simp [Program.mainFree, hd, hp, hm.1] at hf
  · simp [Program.mainFree, hd, hp, hm.1] at hf

/-- Events that decide nothing. -/
theorem last_decided_append (he : ∀ v ∈ e, v.decided? = none) :
    last AgentEvent.decided? (h ++ e) = last AgentEvent.decided? h := by
  rw [last_append, last_eq_none_iff.mpr he]
  rfl

/-- Steps that leave the calls, the state and what `main` knows of them alone. -/
theorem OfflineInv.frame (hI : OfflineInv s h) (he : ∀ v ∈ e, v.decided? = none)
    (hq : s'.started = s.started ∧ s'.returning = s.returning)
    (hmode : (∃ pre, s'.script = pre ++ .setMode .offline :: offlineScript ∧
      ∀ y ∈ pre, y.Prepares) ∨ s'.mode = .offline ∧ s'.script <:+ offlineScript)
    (hc : s'.deciding = s.deciding ∧ s'.pending = s.pending ∧ s'.authState = s.authState)
    (hs : s'.script <:+ constructorScript → s.script <:+ constructorScript) :
    OfflineInv s' (h ++ e) := by
  obtain ⟨hd, hp, ha⟩ := hc
  refine ⟨by rw [hq.1, hq.2]; exact hI.quiet, hmode, by rw [hd, hp]; exact hI.calls, ?_, ?_⟩
  · rw [last_decided_append he, hd, ha]
    exact hI.latest
  · rw [last_decided_append he]
    exact fun h => hI.checked (hs h)

/-- `main` makes a call. -/
theorem OfflineInv.call (hI : OfflineInv s h) (hf : s.mainFree = true) {call : UpdateCall}
    (hm : call.OfMain) {script : List MainStep}
    (hmode : (∃ pre, script = pre ++ .setMode .offline :: offlineScript ∧
      ∀ y ∈ pre, y.Prepares) ∨ s.mode = .offline ∧ script <:+ offlineScript)
    (hs : script <:+ constructorScript → ∃ m now, call.grounds = .persisted m now) :
    OfflineInv { s with script := script, deciding := s.deciding ++ [call] }
      (h ++ [.decided call]) := by
  obtain ⟨hd, hp⟩ := hI.idle hf
  have hlast : last AgentEvent.decided? (h ++ [.decided call]) = some call := by
    rw [last_append]
    rfl
  refine ⟨hI.quiet, hmode, .inr ⟨call, hm, .inl ⟨by simp [hd], hp⟩⟩, fun c hc => ?_, fun hsuf => ?_⟩
  · obtain rfl := Option.some.inj (hlast.symm.trans hc)
    exact .inl (by simp [hd])
  · obtain ⟨m, now, hg⟩ := hs hsuf
    exact ⟨call, m, now, hlast, hg⟩

/-- The steps of `main` once the mode is set. -/
theorem offlineScript_cases {y : MainStep} {rest : List MainStep}
    (hs : y :: rest <:+ offlineScript) :
    y = .start ∧ rest = .checkAuthorization :: constructorScript ∨
    y = .checkAuthorization ∧ rest = constructorScript ∨
    y.isConstructor = true ∧ y :: rest <:+ constructorScript := by
  have hcons : ∀ {z w : MainStep} {l k : List MainStep}, z :: l = w :: k → z = w ∧ l = k :=
    fun h => List.cons.inj h
  rcases List.suffix_cons_iff.mp hs with h | hs
  · exact .inl (hcons h)
  · rcases List.suffix_cons_iff.mp hs with h | hs
    · exact .inr (.inl (hcons h))
    · refine .inr (.inr ⟨?_, hs⟩)
      have hy : y ∈ constructorScript := hs.subset List.mem_cons_self
      simp only [constructorScript, List.mem_cons, List.not_mem_nil, or_false] at hy
      rcases hy with rfl | rfl | rfl <;> rfl

/-- A script that has still to set the mode is not that of the constructor. -/
theorem not_suffix_of_setMode {pre : List MainStep} :
    ¬ pre ++ MainStep.setMode .offline :: offlineScript <:+ constructorScript := fun hs =>
  absurd (hs.subset (List.mem_append_right _ List.mem_cons_self)) (by decide)

/-- Before the mode is set. -/
theorem OfflineInv.prepare (hI : OfflineInv s h) (hf : s.mainFree = true) {y : MainStep}
    {pre : List MainStep} (hy : y.Prepares) (hpre : ∀ y ∈ pre, y.Prepares) {now : ℤ}
    (hst : { s with script := pre ++ MainStep.setMode .offline :: offlineScript }.mainStep codec cfg
      now y = some (s', e)) :
    OfflineInv s' (h ++ e) := by
  rcases hy with rfl | ⟨path, rfl⟩
  · obtain ⟨rfl, rfl⟩ := Prod.mk.inj (Option.some.inj hst)
    exact hI.call hf ⟨rfl, by simp⟩ (.inl ⟨pre, rfl, hpre⟩)
      fun hsuf => absurd hsuf not_suffix_of_setMode
  · obtain ⟨rfl, rfl⟩ := Prod.mk.inj (Option.some.inj hst)
    exact hI.frame (by simp) ⟨rfl, rfl⟩ (.inl ⟨pre, rfl, hpre⟩) ⟨rfl, rfl, rfl⟩
      fun hsuf => absurd hsuf not_suffix_of_setMode

/-- A look at the persisted license, in offline mode. -/
theorem OfflineInv.look (hI : OfflineInv s h) (hf : s.mainFree = true) (hm : s.mode = .offline)
    {rest : List MainStep} (hrest : rest <:+ offlineScript) {now : ℤ}
    {r : Program × List AgentEvent} (hr : { s with script := rest }.checkOffline codec now = r) :
    OfflineInv r.1 (h ++ r.2) := by
  subst hr
  exact hI.call hf ⟨rfl, by simp⟩ (.inr ⟨hm, hrest⟩) fun _ => ⟨_, _, rfl⟩

theorem start_offline (hm : s.mode = .offline) (now : ℤ) :
    s.start codec now = s.checkOffline codec now := by
  unfold Program.start
  rw [hm]

theorem checkAuthorization_offline (hm : s.mode = .offline) (now : ℤ) :
    s.checkAuthorization codec now = s.checkOffline codec now := by
  unfold Program.checkAuthorization
  rw [hm]

/-- The constructor of the client changes neither the calls nor the state. -/
theorem mainStep_constructor {y : MainStep} {now : ℤ} (hy : y.isConstructor = true)
    (hst : s.mainStep codec cfg now y = some (s', e)) :
    e = [] ∧ ∃ bus ctor client, s' = { s with bus, ctor, client } := by
  cases y with
  | subscribe | readLast =>
    obtain ⟨-, rfl, rfl⟩ := Machine.guarded_iff.mp hst
    exact ⟨rfl, _, _, _, rfl⟩
  | replay =>
    simp only [Program.mainStep] at hst
    split at hst
    · obtain ⟨rfl, rfl⟩ := Prod.mk.inj (Option.some.inj hst)
      exact ⟨rfl, _, _, _, rfl⟩
    · obtain ⟨rfl, rfl⟩ := Prod.mk.inj (Option.some.inj hst)
      exact ⟨rfl, _, _, _, rfl⟩
    · exact absurd hst (by simp)
  | _ => exact absurd hy (by simp [MainStep.isConstructor])

theorem offlineInv_main (hI : OfflineInv s h) {now : ℤ}
    (hst : s.step codec cfg (.main now) = some (s', e)) : OfflineInv s' (h ++ e) := by
  cases hs : s.script with
  | nil => simp [Program.step, hs] at hst
  | cons y rest =>
    simp only [Program.step, hs, Option.ite_none_right_eq_some] at hst
    obtain ⟨hf, hst⟩ := hst
    rcases hI.mode with ⟨pre, heq, hpre⟩ | ⟨hm, hsuf⟩
    · rw [hs] at heq
      cases pre with
      | nil =>
        obtain ⟨rfl, rfl⟩ := List.cons.inj heq
        obtain ⟨rfl, rfl⟩ := Prod.mk.inj (Option.some.inj hst)
        refine hI.frame (by simp) ⟨rfl, rfl⟩ (.inr ⟨rfl, List.suffix_refl _⟩) ⟨rfl, rfl, rfl⟩ ?_
        exact fun hsuf => absurd (hsuf.subset List.mem_cons_self) (by decide)
      | cons z pre =>
        obtain ⟨rfl, rfl⟩ := List.cons.inj heq
        exact hI.prepare hf (hpre _ List.mem_cons_self)
          (fun z hz => hpre z (List.mem_cons_of_mem _ hz)) hst
    · rw [hs] at hsuf
      have hrest : rest <:+ offlineScript := (List.suffix_cons y rest).trans hsuf
      rcases offlineScript_cases hsuf with ⟨rfl, -⟩ | ⟨rfl, -⟩ | ⟨hy, hctor⟩
      · exact hI.look hf hm hrest
          ((start_offline (s := { s with script := rest }) hm now).symm.trans (Option.some.inj hst))
      · exact hI.look hf hm hrest
          ((checkAuthorization_offline (s := { s with script := rest }) hm now).symm.trans
            (Option.some.inj hst))
      · obtain ⟨rfl, bus, ctor, client, rfl⟩ := mainStep_constructor hy hst
        exact hI.frame (by simp) ⟨rfl, rfl⟩ (.inr ⟨hm, hrest⟩) ⟨rfl, rfl, rfl⟩
          fun _ => hs ▸ hctor

theorem returned_ofMain {call : UpdateCall} (hm : call.OfMain) (hq : s.returning = []) :
    s.returned call = [] := by
  unfold Program.returned
  split
  · next connected hg => exact absurd hg (hm.2 connected)
  · exact hq

/-- The only element of a list. -/
theorem getElem?_one {α : Type} {a b : α} {i : ℕ} (hi : [a][i]? = some b) : i = 0 ∧ a = b := by
  rw [List.getElem?_singleton] at hi
  split_ifs at hi with h0
  exact ⟨h0, Option.some.inj hi⟩

theorem offlineInv_exchange (hI : OfflineInv s h) {i : ℕ}
    (hst : s.step codec cfg (.exchange i) = some (s', e)) : OfflineInv s' (h ++ e) := by
  simp only [Program.step] at hst
  split at hst
  · next call hi =>
    obtain ⟨rfl, rfl⟩ := Prod.mk.inj (Option.some.inj hst)
    rcases hI.calls with ⟨hd, -⟩ | ⟨c, hm, ⟨hd, hp⟩ | ⟨hd, -⟩⟩
    · simp [hd] at hi
    · -- the call that was decided on last stores its state
      rw [hd] at hi
      obtain ⟨rfl, rfl⟩ := getElem?_one hi
      refine ⟨⟨hI.quiet.1, ?_⟩, hI.mode, ?_, fun c' hl => .inr ?_, fun hs => ?_⟩
      · by_cases hc : (c.force || s.authState ≠ c.newState) = true
        · exact (if_pos hc).trans hI.quiet.2
        · exact (if_neg hc).trans (returned_ofMain hm hI.quiet.2)
      · by_cases hc : (c.force || s.authState ≠ c.newState) = true
        · refine .inr ⟨c, hm, .inr ⟨by simp [Program.exchange, hd], (if_pos hc).trans ?_⟩⟩
          simp [hp]
        · exact .inl ⟨by simp [Program.exchange, hd], (if_neg hc).trans hp⟩
      · rw [List.append_nil] at hl
        have hcc : c = c' := by
          rcases hI.latest c' hl with hd' | ⟨hd', -⟩
          · exact (List.cons.inj (hd.symm.trans hd')).1
          · exact absurd (hd.symm.trans hd') (by simp)
        rw [← hcc]
        exact ⟨by simp [Program.exchange, hd], rfl⟩
      · rw [List.append_nil]
        exact hI.checked hs
    · simp [hd] at hi
  · exact absurd hst (by simp)

theorem offlineInv_publish (hI : OfflineInv s h) {i : ℕ}
    (hst : s.step codec cfg (.publish i) = some (s', e)) : OfflineInv s' (h ++ e) := by
  simp only [Program.step] at hst
  split at hst
  · next call hi =>
    split_ifs at hst
    obtain ⟨rfl, rfl⟩ := Prod.mk.inj (Option.some.inj hst)
    rcases hI.calls with ⟨-, hp⟩ | ⟨c, hm, ⟨-, hp⟩ | ⟨hd, hp⟩⟩
    · simp [hp] at hi
    · simp [hp] at hi
    · rw [hp] at hi
      obtain ⟨rfl, rfl⟩ := getElem?_one hi
      have hnone : last AgentEvent.decided? (h ++ .published ⟨c.newState⟩ ::
          (s.bus.publish (Program.deliver cfg) ⟨c.newState⟩ (s.client, [])).2.2.map .client) =
          last AgentEvent.decided? h := by
        refine last_decided_append fun v hv => ?_
        rcases List.mem_cons.mp hv with rfl | hv
        · rfl
        · obtain ⟨w, -, rfl⟩ := List.mem_map.mp hv
          rfl
      refine ⟨⟨hI.quiet.1, returned_ofMain hm hI.quiet.2⟩, hI.mode, .inl ⟨hd, by simp [hp]⟩, ?_, ?_⟩
      · rw [hnone]
        exact hI.latest
      · rw [hnone]
        exact hI.checked
  · exact absurd hst (by simp)

theorem offlineInv_client (hI : OfflineInv s h) {y : Control.Act}
    (hst : s.step codec cfg (.client y) = some (s', e)) : OfflineInv s' (h ++ e) := by
  have hr : ∃ (c : Client) (es : List Control.Event),
      { s with client := c } = s' ∧ es.map AgentEvent.client = e := by
    cases y with
    | authEvent event => simp [Program.step] at hst
    | _ =>
      obtain ⟨-, heq⟩ := Option.ite_none_right_eq_some.mp hst
      obtain ⟨r, -, heq⟩ := Option.map_eq_some_iff.mp heq
      exact ⟨r.1, r.2, Prod.mk.inj heq⟩
  obtain ⟨c, es, rfl, rfl⟩ := hr
  refine hI.frame (fun v hv => ?_) ⟨rfl, rfl⟩ hI.mode ⟨rfl, rfl, rfl⟩ id
  obtain ⟨w, -, rfl⟩ := List.mem_map.mp hv
  rfl

theorem offlineInv_step (hI : OfflineInv s h) (hst : s.step codec cfg x = some (s', e)) :
    OfflineInv s' (h ++ e) := by
  cases x with
  | main now => exact offlineInv_main hI hst
  | message m now opened => simp [Program.step, hI.quiet.1] at hst
  | connection connected => simp [Program.step, hI.quiet.1] at hst
  | setModeAfter i => simp [Program.step, hI.quiet.2] at hst
  | exchange i => exact offlineInv_exchange hI hst
  | publish i => exact offlineInv_publish hI hst
  | fileChanged path st =>
    obtain ⟨rfl, rfl⟩ := Prod.mk.inj (Option.some.inj hst)
    exact hI.frame (by simp) ⟨rfl, rfl⟩ hI.mode ⟨rfl, rfl, rfl⟩ id
  | client y => exact offlineInv_client hI hst

/-- With the constructor of the client, `main` has nothing under way, and what it reads stays the
last event. -/
structure SettledInv (s : Program) : Prop where
  idle : s.ctor ≠ .start → s.deciding = [] ∧ s.pending = []
  read : ∀ read, s.ctor = .read read → read = s.bus.lastEvent

theorem settledInv_move (hB : BuildInv cfg s h) (hO : OfflineInv s h) (hI : SettledInv s)
    (hm : s.Move cfg x s' e) : SettledInv s' := by
  cases hm with
  | idle => exact ⟨hI.idle, hI.read⟩
  | @call _ script files call hf hs =>
    -- `main` makes its calls before the constructor, and no one else makes any
    have hstart : s.ctor = .start := by
      rcases hs with ⟨-, hst⟩ | ⟨-, y, hy, hc, -⟩
      · exact absurd (hst.symm.trans hO.quiet.1) (by simp)
      · exact hB.before hy hc
    exact ⟨fun hn => absurd hstart hn, hI.read⟩
  | @exchange i call returning hi =>
    refine ⟨fun hn => ?_, hI.read⟩
    rw [(hI.idle hn).1] at hi
    exact absurd hi (by simp)
  | @publish i call returning hi hauth =>
    have hstart : s.ctor = .start := by
      by_contra hn
      rw [(hI.idle hn).2] at hi
      exact absurd hi (by simp)
    exact ⟨fun hn => absurd hstart hn, fun r hr => absurd (hstart.symm.trans hr) (by simp)⟩
  | subscribe hy hf =>
    exact ⟨fun _ => hO.idle hf, fun r hr => absurd hr (by simp)⟩
  | readLast hy =>
    refine ⟨fun _ => hI.idle ?_, fun r hr => (CtorPc.read.inj hr).symm⟩
    rw [(hB.at_readLast hy).1]
    simp
  | @replay now rest read hy hctor =>
    refine ⟨fun _ => hI.idle ?_, fun r hr => absurd hr (by simp)⟩
    rw [hctor]
    simp
  | client => exact ⟨hI.idle, hI.read⟩

theorem SettledInv.steadyReplay (hI : SettledInv s) (x : AgentAct) : SteadyReplay cfg s x := by
  unfold SteadyReplay
  split
  · split
    · next event hctor => rw [hI.read _ hctor]
    · trivial
  · trivial

theorem OfflineInv.publishesInOrder (hI : OfflineInv s h) (x : AgentAct) :
    PublishesInOrder s x := by
  cases x with
  | publish i =>
    have hone : s.pending.length ≤ 1 := by
      rcases hI.calls with ⟨-, hp⟩ | ⟨call, -, ⟨-, hp⟩ | ⟨-, hp⟩⟩ <;> simp [hp]
    intro hlen y hy
    obtain ⟨j, hj⟩ := List.getElem?_of_mem hy
    obtain ⟨hlt, -⟩ := List.getElem?_eq_some_iff.mp hj
    simp only [Program.publisher, List.length_map] at hlen hlt
    rwa [show i = j by omega]
  | _ => trivial

section Runs

variable {root : RootNode} {auth : AuthConfig} {agentId : String} {tempDirectory : Option String}
  {files : String → FileState}

theorem offlineInv_init (hauth : root.authEnabled = some auth)
    (hmode : configuredMode auth.mode = some .offline) :
    OfflineInv (agent codec root agentId tempDirectory files).init [] := by
  have hscript : mainScript root = (.createManager ::
      if auth.persistenceFile = "" then [] else [.setPersistenceFile auth.persistenceFile]) ++
      .setMode .offline :: offlineScript := by
    simp [mainScript, hauth, authScript, hmode, offlineScript]
  refine ⟨⟨rfl, rfl⟩, .inl ⟨_, hscript, fun y hy => ?_⟩, .inl ⟨rfl, rfl⟩, by simp, fun hs => ?_⟩
  · rcases List.mem_cons.mp hy with rfl | hy
    · exact .inl rfl
    · split_ifs at hy
      · exact absurd hy List.not_mem_nil
      · exact .inr ⟨_, List.mem_singleton.mp hy⟩
  · have hs : mainScript root <:+ constructorScript := hs
    rw [hscript] at hs
    exact absurd hs not_suffix_of_setMode

theorem offlineInv_of_reach (hauth : root.authEnabled = some auth)
    (hmode : configuredMode auth.mode = some .offline)
    (r : (agent codec root agentId tempDirectory files).Reach s h) : OfflineInv s h :=
  Machine.Run.invariant (I := OfflineInv) (offlineInv_init hauth hmode)
    (fun _ hI _ hst => offlineInv_step hI hst) r

/-- The callbacks are all idle, so that the constructor of the client meets a settled bus. -/
theorem settledInv_of_reach (hauth : root.authEnabled = some auth)
    (hmode : configuredMode auth.mode = some .offline)
    (r : (agent codec root agentId tempDirectory files).Reach s h) : SettledInv s := by
  refine Machine.Run.invariant (I := fun s _ => SettledInv s) ?_ (fun hr hI _ hst => ?_) r
  · exact ⟨fun hn => absurd rfl hn, fun read hr => absurd hr (by simp [agent])⟩
  · exact settledInv_move (inv_of_reach hr).1 (offlineInv_of_reach hauth hmode hr) hI
      (Program.move_of_step hst)

/-- Offline, every run has a steady replay and publishes in order. -/
theorem steady_of_reach (hauth : root.authEnabled = some auth)
    (hmode : configuredMode auth.mode = some .offline)
    (r : (agent codec root agentId tempDirectory files).Reach s h) :
    (agent codec root agentId tempDirectory files).Run (fun s x =>
      SteadyReplay (clientConfig root agentId tempDirectory) s x ∧ PublishesInOrder s x) s h := by
  induction r with
  | refl => exact .refl
  | @tail t u h e x r _ hst ih =>
    have hO := offlineInv_of_reach hauth hmode r
    have hS := settledInv_of_reach hauth hmode r
    exact ih.tail ⟨hS.steadyReplay x, hO.publishesInOrder x⟩ hst

/-- **Offline, authorization is decided once and for all**: once the client is built, the last call
of `UpdateAuthState` there will ever be is the one for `main`'s last look at the persisted license,
and the toggles are what it asks for. -/
theorem offline_decides_once (hauth : root.authEnabled = some auth)
    (hmode : configuredMode auth.mode = some .offline)
    (r : (agent codec root agentId tempDirectory files).Reach s h) (hd : s.ctor = .done) :
    ∃ pre call post m now, h = pre ++ .decided call :: post ∧ (∀ c, .decided c ∉ post) ∧
      call.grounds = .persisted m now ∧ call.Founded ∧ s.client.activeFeatures =
        Client.featuresFor (clientConfig root agentId tempDirectory) call.newState := by
  obtain ⟨hB, hC⟩ := inv_of_reach r
  have hO := offlineInv_of_reach hauth hmode r
  have hQ := quietInv_of_reach (by rw [hauth]; simp) r
  obtain ⟨hdec, hpend⟩ := (settledInv_of_reach hauth hmode r).idle (by rw [hd]; simp)
  have hsteady := steady_of_reach hauth hmode r
  -- the last call is the one for the persisted license
  obtain ⟨call, m, now, hlast, hg⟩ := hO.checked (by rw [hB.script_done hd]; exact List.nil_suffix)
  obtain ⟨pre, v, post, hl⟩ := exists_last (f := AgentEvent.decided?) (by rw [hlast]; simp)
  obtain rfl : v = .decided call := by
    have hv := hl.last_eq.symm.trans hlast
    cases v with
    | decided c => rw [Option.some.inj hv]
    | _ => exact absurd hv (by simp [AgentEvent.decided?])
  refine ⟨pre, call, post, m, now, hl.split, fun c hc => absurd (hl.after _ hc) (by
    simp [AgentEvent.decided?]), hg, hC.founded call (by rw [hl.split]; simp), ?_⟩
  -- it has stored its state, and that has been published and delivered
  have hstored : s.authState = call.newState := by
    rcases hO.latest call hlast with hd' | ⟨-, ha⟩
    · exact absurd (hdec.symm.trans hd') (by simp)
    · exact ha
  have hS : s.Stored := by
    refine Machine.Run.invariant (I := fun s _ => s.Stored) (.inl ⟨rfl, rfl⟩) ?_ hsteady
    intro s h x s' e _ hI hR hst
    exact stored_move hI hR.2 (Program.move_of_step hst)
  rw [tracks_of_run (hsteady.mono fun _ _ => And.left) hd, hS.lastEvent hQ hd hpend, hstored]
  rfl

end Runs

/-- Authorization from a persisted license. -/
def offlineRoot : RootNode :=
  { auth := some { enabled := some true, mode := "offline", persistenceFile := "auth.dat" } }

def offlineAuth : AuthConfig :=
  { enabled := true, mode := "offline", persistenceFile := "auth.dat" }

/-- The license authorizes at the second look; it is removed once the client is built. -/
def persistedLicense : List AgentAct :=
  [.main 0, .exchange 0, .publish 0, .main 0, .main 0, .main 50, .exchange 0, .publish 0, .main 50,
    .exchange 0, .main 0, .main 0, .main 0, .fileChanged "auth.dat" .missing, .client .run]

theorem offline_decides_once_persistedLicense : ∃ s h,
    (agent Auth.demoCodec offlineRoot "agent" none fun _ => .content [0x12, 0x02, 0x50, 0x3c]).Reach
      s h ∧ ∃ pre call post m now, h = pre ++ .decided call :: post ∧ (∀ c, .decided c ∉ post) ∧
        call.grounds = .persisted m now ∧ call.Founded ∧ s.client.activeFeatures =
          Client.featuresFor (clientConfig offlineRoot "agent" none) call.newState :=
  have r := Machine.run_schedule
    (agent Auth.demoCodec offlineRoot "agent" none fun _ => .content [0x12, 0x02, 0x50, 0x3c])
    (fun _ _ => True) persistedLicense rfl
  ⟨_, _, r, offline_decides_once (show offlineRoot.authEnabled = some offlineAuth from rfl)
    (by decide) r rfl⟩

end Zurg.Agent
