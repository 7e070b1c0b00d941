import Zurg.Lib.History
import Zurg.Control.Features

/-!
# Zurg.Control.Construct — building the client while authorization changes

The constructor subscribes to the bus, then asks for the last event, then replays it.  Between any
two of these steps another thread may publish.  The replay may be of an event that is no longer the
last one; then the toggles disagree with the bus until the next publish, and exactly then.
-/

namespace Zurg.Control

open Proto Lib

/-! ## Options -/

/-- `ControlCallbackClient::Options`, less its callbacks. -/
structure Options where
  logOptions : LogOptions := {}
  features : FeatureToggles := {}
  deriving DecidableEq, Repr

/-- The members set before the constructor subscribes.  `tempDirectory` is what
`temp_directory_path` returns, if it does not fail. -/
def Options.config (options : Options) (agentId : String) (tempDirectory : Option String) :
    Config where
  agentId := agentId
  logOptions :=
    { options.logOptions with
      tempDir :=
        if options.logOptions.tempDir = "" then tempDirectory.getD ""
        else options.logOptions.tempDir
      chunkSize :=
        if options.logOptions.chunkSize = 0 then 64 * 1024 else options.logOptions.chunkSize }
  requestedFeatures := options.features

/-- A client never rejects a log operation for its chunk size. -/
theorem Options.config_chunkSize (options : Options) (agentId : String)
    (tempDirectory : Option String) :
    logFilterValidate (options.config agentId tempDirectory).logOptions ≠
      some "invalid chunk size" := by
  have hc : (options.config agentId tempDirectory).logOptions.chunkSize ≠ 0 := by
    simp only [Options.config]
    split_ifs with h
    · decide
    · exact h
  unfold logFilterValidate
  split_ifs <;> simp

/-! ## The constructor and the publishing thread -/

/-- Where the constructor stands. -/
inductive CtorPc
  | start
  | subscribed
  /-- After `LastEvent`, with its result, before the replay. -/
  | read (last : Option AuthStateChangedEvent)
  | done
  deriving DecidableEq, Repr

structure Construction where
  bus : EventBus := {}
  client : Client
  ctor : CtorPc := .start

inductive CtorAct
  | subscribe
  | readLast
  | replay
  /-- `Publish`, by another thread. -/
  | publish (event : AuthStateChangedEvent)
  deriving DecidableEq, Repr

inductive CtorEvent
  | published (event : AuthStateChangedEvent)
  /-- The replay of what `LastEvent` returned, and the bus's last event at that moment. -/
  | replayed (read last : Option AuthStateChangedEvent)
  deriving DecidableEq, Repr

namespace Construction

variable (cfg : Config) (s : Construction)

/-- The callback the constructor subscribes; the client has no other listener. -/
def deliver (_ : ℕ) (event : AuthStateChangedEvent) (c : Client) : Client :=
  (c.onAuthStateChanged cfg event).1

/-- The end of the constructor.  Without a last event it calls
`ApplyFeatureUpdate(active_features_)`, which compares the toggles with themselves. -/
def replay (last : Option AuthStateChangedEvent) : Client :=
  match last with
  | some event => (s.client.onAuthStateChanged cfg event).1
  | none => (s.client.applyFeatureUpdate s.client.activeFeatures).1

def step : CtorAct → Option (Construction × List CtorEvent)
  | .subscribe =>
    if s.ctor = .start then some ({ s with bus := s.bus.subscribe 0, ctor := .subscribed }, [])
    else none
  | .readLast =>
    if s.ctor = .subscribed then some ({ s with ctor := .read s.bus.lastEvent }, []) else none
  | .replay =>
    match s.ctor with
    | .read last =>
      some ({ s with client := s.replay cfg last, ctor := .done },
        [.replayed last s.bus.lastEvent])
    | _ => none
  | .publish event =>
    let r := s.bus.publish (deliver cfg) event s.client
    some ({ s with bus := r.1, client := r.2 }, [.published event])

end Construction

/-- The construction of a client, from the point where `requested_features_` and
`active_features_` are set. -/
def construction (cfg : Config) : Machine Construction CtorAct CtorEvent where
  init := { client := Client.new cfg }
  step := Construction.step cfg

variable {cfg : Config} {s : Construction} {h : List CtorEvent}

/-- The toggles the bus asks for. -/
def expectedFeatures (cfg : Config) : Option AuthStateChangedEvent → FeatureToggles
  | some event => Client.featuresFor cfg event.state
  | none => cfg.requestedFeatures

/-! ## The client under construction -/

/-- A new client but for its toggles. -/
def Fresh (cfg : Config) (c : Client) : Prop :=
  c = { Client.new cfg with activeFeatures := c.activeFeatures }

theorem Fresh.applyFeatureUpdate {c : Client} (hc : Fresh cfg c) (toggles : FeatureToggles) :
    c.applyFeatureUpdate toggles = ({ Client.new cfg with activeFeatures := toggles }, []) := by
  rw [hc]
  unfold Client.applyFeatureUpdate
  split_ifs with h
  · simp only at h
    rw [h]
  · simp [Client.new, Client.purgeQueue, sweepTasks]

/-- What every region of the construction does to the client: at most an authorization event. -/
theorem Fresh.onAuthStateChanged {c : Client} (hc : Fresh cfg c) (event : AuthStateChangedEvent) :
    c.onAuthStateChanged cfg event =
      ({ Client.new cfg with activeFeatures := expectedFeatures cfg (some event) }, []) :=
  hc.applyFeatureUpdate _

/-- The replay was of the bus's last event, or of one with the same toggles, or some event was
published after it. -/
def UpToDate (cfg : Config) (h : List CtorEvent) : Prop :=
  ∀ pre read last post, h = pre ++ .replayed read last :: post →
    (∃ event, .published event ∈ post) ∨
      ∀ event, read = some event → expectedFeatures cfg (some event) = expectedFeatures cfg last

theorem upToDate_published (h : List CtorEvent) (event : AuthStateChangedEvent) :
    UpToDate cfg (h ++ [.published event]) := by
  intro pre read last post heq
  rcases snoc_eq_split heq with ⟨-, hne, -⟩ | ⟨post', rfl, -⟩
  · exact absurd hne nofun
  · exact .inl ⟨event, by simp⟩

theorem upToDate_replayed {read last : Option AuthStateChangedEvent}
    (hno : ∀ read last, .replayed read last ∉ h) :
    UpToDate cfg (h ++ [.replayed read last]) ↔
      ∀ event, read = some event →
        expectedFeatures cfg (some event) = expectedFeatures cfg last := by
  constructor
  · intro hu
    exact (hu h read last [] rfl).resolve_left (by simp)
  · intro hu pre read' last' post heq
    rcases snoc_eq_split heq with ⟨-, hxy, -⟩ | ⟨post', -, rfl⟩
    · obtain ⟨rfl, rfl⟩ := CtorEvent.replayed.inj hxy
      exact .inr hu
    · exact absurd (by simp) (hno read' last')

/-- How the toggles and the bus are related while the constructor runs and after it. -/
structure ConstructionInv (cfg : Config) (s : Construction) (h : List CtorEvent) : Prop where
  fresh : Fresh cfg s.client
  listeners : s.bus.listeners = if s.ctor = .start then [] else [0]
  /-- Without a last event nothing has been delivered. -/
  silent : s.ctor = .start ∨ s.ctor = .subscribed → s.bus.lastEvent = none →
    s.client.activeFeatures = cfg.requestedFeatures
  read : s.ctor = .read none → s.client.activeFeatures = expectedFeatures cfg s.bus.lastEvent
  pending : s.ctor ≠ .done → ∀ read last, .replayed read last ∉ h
  done : s.ctor = .done →
    (s.client.activeFeatures = expectedFeatures cfg s.bus.lastEvent ↔ UpToDate cfg h)

theorem constructionInv_publish (hI : ConstructionInv cfg s h) (event : AuthStateChangedEvent)
    {r : EventBus × Client} (hr : s.bus.publish (Construction.deliver cfg) event s.client = r) :
    ConstructionInv cfg { s with bus := r.1, client := r.2 } (h ++ [.published event]) := by
  have hlast : r.1.lastEvent = some event := by rw [← hr]; rfl
  have hno : ∀ read last, CtorEvent.replayed read last ∉ h →
      CtorEvent.replayed read last ∉ h ++ [.published event] := by simp
  by_cases hs : s.ctor = .start
  · -- nobody listens yet
    have hclient : r.2 = s.client := by
      rw [← hr, EventBus.publish, hI.listeners, if_pos hs]
      rfl
    refine ⟨hclient ▸ hI.fresh, by rw [← hr]; exact hI.listeners, fun _ h => ?_, fun h => ?_,
      fun hp read last => hno read last (hI.pending hp read last), fun h => ?_⟩
    · exact nomatch hlast.symm.trans h
    · exact nomatch hs.symm.trans h
    · exact nomatch hs.symm.trans h
  · have hclient : r.2 =
        { Client.new cfg with activeFeatures := expectedFeatures cfg (some event) } := by
      rw [← hr, EventBus.publish, hI.listeners, if_neg hs]
      exact congrArg Prod.fst (hI.fresh.onAuthStateChanged event)
    have hactive : r.2.activeFeatures = expectedFeatures cfg r.1.lastEvent := by
      rw [hclient, hlast]
    refine ⟨by rw [Fresh, hclient], by rw [← hr]; exact hI.listeners, fun _ h => ?_,
      fun _ => hactive, fun hp read last => hno read last (hI.pending hp read last), fun _ => ?_⟩
    · exact nomatch hlast.symm.trans h
    · exact iff_of_true hactive (upToDate_published h event)

theorem constructionInv_step {x : CtorAct} {s' : Construction} {e : List CtorEvent}
    (hI : ConstructionInv cfg s h) (hst : s.step cfg x = some (s', e)) :
    ConstructionInv cfg s' (h ++ e) := by
  cases x with
  | subscribe =>
    obtain ⟨hs, rfl, rfl⟩ := Machine.guarded_iff.mp hst
    rw [List.append_nil]
    refine ⟨hI.fresh, ?_, fun _ => hI.silent (.inl hs), nofun, fun _ => hI.pending (by simp [hs]),
      nofun⟩
    simp [EventBus.subscribe, hI.listeners, hs]
  | readLast =>
    obtain ⟨hs, rfl, rfl⟩ := Machine.guarded_iff.mp hst
    rw [List.append_nil]
    refine ⟨hI.fresh, ?_, nofun, fun hr => ?_, fun _ => hI.pending (by simp [hs]), nofun⟩
    · simp [hI.listeners, hs]
    · have hnone := CtorPc.read.inj hr
      rw [hnone, expectedFeatures]
      exact hI.silent (.inr hs) hnone
  | replay =>
    cases hs : s.ctor with
    | read last =>
      simp only [Construction.step, hs, Option.some.injEq, Prod.mk.injEq] at hst
      obtain ⟨rfl, rfl⟩ := hst
      have hno := hI.pending (by simp [hs])
      have hclient : ∃ toggles, s.replay cfg last =
          { Client.new cfg with activeFeatures := toggles } ∧
          (toggles = expectedFeatures cfg s.bus.lastEvent ↔ ∀ event, last = some event →
            expectedFeatures cfg (some event) = expectedFeatures cfg s.bus.lastEvent) := by
        cases last with
        | some event =>
          refine ⟨_, congrArg Prod.fst (hI.fresh.onAuthStateChanged event), ?_⟩
          simp
        | none =>
          refine ⟨_, congrArg Prod.fst (hI.fresh.applyFeatureUpdate _), ?_⟩
          exact iff_of_true (hI.read hs) nofun
      obtain ⟨toggles, hrep, hiff⟩ := hclient
      refine ⟨by rw [Fresh, hrep], ?_, by simp, nofun, fun h => absurd rfl h, fun _ => ?_⟩
      · simp [hI.listeners, hs]
      · rw [upToDate_replayed hno, ← hiff, hrep]
    | _ => simp [Construction.step, hs] at hst
  | publish event =>
    simp only [Construction.step, Option.some.injEq, Prod.mk.injEq] at hst
    obtain ⟨rfl, rfl⟩ := hst
    exact constructionInv_publish hI event rfl

theorem ConstructionInv.init : ConstructionInv cfg (construction cfg).init [] :=
  ⟨rfl, rfl, fun _ _ => rfl, nofun, fun _ => by simp, nofun⟩

theorem constructionInv_of_reach (r : (construction cfg).Reach s h) : ConstructionInv cfg s h :=
  Machine.Run.invariant (I := ConstructionInv cfg) .init
    (fun _ hI _ hst => constructionInv_step hI hst) r

/-- **The toggles after construction** are those the bus asks for exactly when the replay was up to
date or has been followed by another event. -/
theorem construction_keeps_authorization (r : (construction cfg).Reach s h) (hd : s.ctor = .done) :
    s.client.activeFeatures = expectedFeatures cfg s.bus.lastEvent ↔ UpToDate cfg h :=
  (constructionInv_of_reach r).done hd

/-- Nothing is published while the client is built. -/
theorem construction_keeps_authorization_undisturbed : ∃ s h,
    (construction demoConfig).Reach s h ∧ s.ctor = .done ∧
      (s.client.activeFeatures = expectedFeatures demoConfig s.bus.lastEvent ↔
        UpToDate demoConfig h) :=
  have r := Machine.run_schedule (construction demoConfig) (fun _ _ => True)
    [.publish ⟨.offline⟩, .subscribe, .readLast, .replay, .publish ⟨.online⟩] rfl
  ⟨_, _, r, rfl, construction_keeps_authorization r rfl⟩

/-- Authorization is lost between `LastEvent` and the replay, and the client stays authorized. -/
theorem replay_overwrites_change : ¬ ∀ cfg s h, (construction cfg).Reach s h → s.ctor = .done →
    s.client.activeFeatures = expectedFeatures cfg s.bus.lastEvent := fun hall =>
  have r := Machine.run_schedule (construction demoConfig) (fun _ _ => True)
    [.publish ⟨.online⟩, .subscribe, .readLast, .publish ⟨.offline⟩, .replay] rfl
  absurd (hall _ _ _ r rfl) (by decide)

/-! ## Construction is part of the client's runs -/

theorem Fresh.authEvent {c : Client} (hc : Fresh cfg c) (event : AuthStateChangedEvent) :
    (client cfg).step c (.authEvent event) = some (c.onAuthStateChanged cfg event) := by
  have ha : c.auth = [] := by
    rw [hc]
    rfl
  simp [client, Client.step, ha]

/-- A step of the construction leaves the client alone or is an authorization event for it. -/
theorem client_step_of_construction {x : CtorAct} {s' : Construction} {e : List CtorEvent}
    (hI : ConstructionInv cfg s h) (hst : s.step cfg x = some (s', e)) :
    s'.client = s.client ∨
      ∃ event, (client cfg).step s.client (.authEvent event) = some (s'.client, []) := by
  have hev : ∀ {event c}, (s.client.onAuthStateChanged cfg event).1 = c →
      (client cfg).step s.client (.authEvent event) = some (c, []) := by
    intro event c h
    rw [hI.fresh.authEvent, ← h, hI.fresh.onAuthStateChanged]
  cases x with
  | subscribe | readLast =>
    obtain ⟨-, rfl, -⟩ := Machine.guarded_iff.mp hst
    exact .inl rfl
  | replay =>
    cases hs : s.ctor with
    | read last =>
      simp only [Construction.step, hs, Option.some.injEq, Prod.mk.injEq] at hst
      obtain ⟨rfl, -⟩ := hst
      cases last with
      | some event => exact .inr ⟨event, hev rfl⟩
      | none =>
        refine .inl ?_
        simp only [Construction.replay]
        rw [hI.fresh.applyFeatureUpdate]
        exact hI.fresh.symm
    | _ => simp [Construction.step, hs] at hst
  | publish event =>
    simp only [Construction.step, Option.some.injEq, Prod.mk.injEq] at hst
    obtain ⟨rfl, -⟩ := hst
    simp only [EventBus.publish, hI.listeners]
    split_ifs
    · exact .inl rfl
    · exact .inr ⟨event, hev rfl⟩

/-- Whatever happens during construction, the client it builds is one that a run of the client
reaches, by authorization events alone. -/
theorem client_of_construction (r : (construction cfg).Reach s h) :
    (client cfg).Reach s.client [] := by
  have hsim : (client cfg).Reach s.client (h.filterMap fun _ => none) := by
    refine r.simulate (·.client) (fun _ => none) fun {t k x t' e} hr _ hst => ?_
    rw [List.filterMap_eq_nil_iff.mpr fun _ _ => rfl]
    rcases client_step_of_construction (constructionInv_of_reach hr) hst with heq | ⟨event, he⟩
    · rw [heq]
      exact .refl
    · exact .single trivial he
  rwa [List.filterMap_eq_nil_iff.mpr fun _ _ => rfl] at hsim

end Zurg.Control
