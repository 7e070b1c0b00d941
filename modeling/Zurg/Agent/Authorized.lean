import Mathlib.Data.List.InsertIdx
import Zurg.Agent.System

/-!
# Zurg.Agent.Authorized — operations are accepted and started by authorization only

With a manager, nothing is accepted or started before the state has been published as online, and
whoever made it so had a reason (`accepted_has_grounds`): the manager's constructor publishes that
the state is unknown before the client is built.  If nothing is published between the constructor's
look at the last event and its replay, the toggles follow the bus from then on, and what is accepted
or started is so while the last event says online (`accepted_while_online`).
-/

namespace Zurg.Agent

open Lib
open Control (Client Config CtorPc Effect FeaturesInv Fresh Represents Sched expectedFeatures
  isTaskAllowed restrictedFeatures)
open Auth (Codec FileState)

/-! ## The toggles in the runs of the client -/

section Toggles

variable {cfg : Config} {a a' : Sched} {c c' : Client} {x : Control.Act} {h e : List Control.Event}

/-- Only authorization events change the toggles. -/
theorem activeFeatures_of_effect (he : Effect cfg a c x c' e a')
    (hx : ∀ event, x ≠ .authEvent event) : c'.activeFeatures = c.activeFeatures := by
  cases he with
  | sameFeatures => exact absurd rfl (hx _)
  | features => exact absurd rfl (hx _)
  | _ => rfl

/-- A task is accepted or started. -/
def Begins (t : Control.Task) (v : Control.Event) : Prop := v = .accepted t ∨ v = .started t

/-- What begins is allowed. -/
theorem allowed_of_begins (r : Represents a c) (hI : FeaturesInv cfg c h)
    (he : Effect cfg a c x c' e a') {t : Control.Task} {v : Control.Event} (hv : v ∈ e)
    (ht : Begins t v) : isTaskAllowed c.activeFeatures t.kind = true := by
  have hmem : .accepted t ∈ e ∨ .started t ∈ e := by
    rcases ht with rfl | rfl
    · exact .inl hv
    · exact .inr hv
  cases he with
  | accept hkey hval hal =>
    obtain rfl : t = _ := by simpa using hmem
    exact hal
  | take hc hq hw =>
    obtain rfl : t = _ := by simpa using hmem
    refine hI.queued t ?_
    rw [r.queue, hq]
    simp
  | _ => exact absurd hmem (by simp [Control.sendErrorFor])

end Toggles

/-! ## While the client is built -/

def AgentEvent.client? : AgentEvent → Option Control.Event
  | .client e => some e
  | _ => none

theorem filterMap_client (es : List Control.Event) :
    (es.map AgentEvent.client).filterMap AgentEvent.client? = es := by
  rw [List.filterMap_map]
  exact List.filterMap_some

/-- What `main` has still to do for the client. -/
def ctorScript : CtorPc → List MainStep
  | .start => constructorScript
  | .subscribed => [.readLast, .replay]
  | .read _ => [.replay]
  | .done => []

variable {codec : Codec} {cfg : Config} {s s' : Program} {x : AgentAct}
  {h e : List AgentEvent}

def Program.construction (s : Program) : Control.Construction :=
  { bus := s.bus, client := s.client, ctor := s.ctor }

/-- How far `main` has come, and what that means for the client and the bus. -/
structure BuildInv (cfg : Config) (s : Program) (h : List AgentEvent) : Prop where
  script : ∃ pre, s.script = pre ++ ctorScript s.ctor ∧ (∀ y ∈ pre, y.isConstructor = false) ∧
    (s.ctor ≠ .start → pre = [])
  building : s.ctor ≠ .done → ∃ k, Control.ConstructionInv cfg s.construction k
  listening : s.ctor = .done → s.bus.listeners = [0]
  client : (Control.client cfg).Reach s.client (h.filterMap AgentEvent.client?)

/-- The client listens from its subscription on. -/
theorem BuildInv.listeners (hI : BuildInv cfg s h) :
    s.bus.listeners = if s.ctor = .start then [] else [0] := by
  by_cases hd : s.ctor = .done
  · rw [hI.listening hd, if_neg (by simp [hd])]
  · obtain ⟨k, hk⟩ := hI.building hd
    exact hk.listeners

/-- What a `Publish` does to a client that listens. -/
theorem publish_listening {b : EventBus} (hb : b.listeners = [0]) (event : AuthStateChangedEvent)
    (c : Client) :
    (b.publish (Program.deliver cfg) event (c, [])).2 = c.onAuthStateChanged cfg event := by
  rw [EventBus.publish, hb]
  rfl

theorem publish_unheard {b : EventBus} (hb : b.listeners = []) (event : AuthStateChangedEvent)
    (c : Client) : (b.publish (Program.deliver cfg) event (c, [])).2 = (c, []) := by
  rw [EventBus.publish, hb]
  rfl

/-- A step of the client's constructor comes when the others are done. -/
theorem BuildInv.rest (hI : BuildInv cfg s h) {y : MainStep} {rest : List MainStep}
    (hy : s.script = y :: rest) (hc : y.isConstructor = true) :
    y :: rest = ctorScript s.ctor := by
  obtain ⟨pre, heq, hpre, -⟩ := hI.script
  rw [hy] at heq
  cases pre with
  | nil => exact heq
  | cons z pre =>
    obtain ⟨rfl, -⟩ := List.cons.inj heq
    exact absurd hc (by simp [hpre y])

theorem BuildInv.at_subscribe (hI : BuildInv cfg s h) {rest : List MainStep}
    (hy : s.script = .subscribe :: rest) : s.ctor = .start ∧ rest = ctorScript .subscribed := by
  have hrest := hI.rest hy rfl
  cases hc : s.ctor with
  | start =>
    rw [hc] at hrest
    exact ⟨rfl, (List.cons.inj hrest).2⟩
  | _ => simp [hc, ctorScript] at hrest

theorem BuildInv.at_readLast (hI : BuildInv cfg s h) {rest : List MainStep}
    (hy : s.script = .readLast :: rest) : s.ctor = .subscribed ∧ rest = [.replay] := by
  have hrest := hI.rest hy rfl
  cases hc : s.ctor with
  | subscribed =>
    rw [hc] at hrest
    exact ⟨rfl, (List.cons.inj hrest).2⟩
  | _ => simp [hc, ctorScript, constructorScript] at hrest

/-- The other steps come before the constructor has begun. -/
theorem BuildInv.before (hI : BuildInv cfg s h) {y : MainStep} {rest : List MainStep}
    (hy : s.script = y :: rest) (hc : y.isConstructor = false) : s.ctor = .start := by
  obtain ⟨pre, heq, -, hnil⟩ := hI.script
  by_contra hne
  rw [hnil hne, hy, List.nil_append] at heq
  cases hctor : s.ctor with
  | start => exact hne hctor
  | subscribed | read =>
    rw [hctor] at heq
    obtain ⟨rfl, -⟩ := List.cons.inj heq
    exact absurd hc (by decide)
  | done =>
    rw [hctor] at heq
    exact absurd heq (by simp [ctorScript])

theorem BuildInv.script_done (hI : BuildInv cfg s h) (hd : s.ctor = .done) : s.script = [] := by
  obtain ⟨pre, heq, -, hnil⟩ := hI.script
  rw [heq, hnil (by simp [hd]), hd]
  rfl

/-- Steps of `main` before the constructor leave the rest of the script as it is. -/
theorem BuildInv.script_tail (hI : BuildInv cfg s h) {script : List MainStep}
    (hs : script = s.script ∨ ∃ y, s.script = y :: script ∧ y.isConstructor = false) :
    ∃ pre, script = pre ++ ctorScript s.ctor ∧ (∀ y ∈ pre, y.isConstructor = false) ∧
      (s.ctor ≠ .start → pre = []) := by
  obtain ⟨pre, heq, hpre, hnil⟩ := hI.script
  rcases hs with rfl | ⟨y, hy, hc⟩
  · exact ⟨pre, heq, hpre, hnil⟩
  · rw [hy] at heq
    cases pre with
    | nil =>
      -- the head would be a step of the constructor
      rw [List.nil_append, hI.before hy hc] at heq
      obtain ⟨rfl, -⟩ := List.cons.inj heq
      exact absurd hc (by decide)
    | cons z pre =>
      obtain ⟨rfl, rfl⟩ := List.cons.inj heq
      refine ⟨pre, rfl, fun y hy => hpre y (List.mem_cons_of_mem _ hy), fun hne => ?_⟩
      exact absurd (hnil hne) (by simp)

theorem buildInv_move (hI : BuildInv cfg s h) (hm : s.Move cfg x s' e) :
    BuildInv cfg s' (h ++ e) := by
  have hclient : ∀ {k}, k.filterMap AgentEvent.client? = [] →
      (Control.client cfg).Reach s.client ((h ++ k).filterMap AgentEvent.client?) := by
    intro k hk
    rw [List.filterMap_append, hk, List.append_nil]
    exact hI.client
  cases hm with
  | idle hs =>
    refine ⟨hI.script_tail (hs.imp id fun ⟨_, y, hy, hc, _⟩ => ⟨y, hy, hc⟩), hI.building,
      hI.listening, hclient rfl⟩
  | call hf hs =>
    refine ⟨hI.script_tail (hs.imp And.left fun ⟨_, y, hy, hc, _⟩ => ⟨y, hy, hc⟩), hI.building,
      hI.listening, hclient rfl⟩
  | exchange => exact ⟨hI.script, hI.building, hI.listening, hclient rfl⟩
  | @publish i call returning hi hauth =>
    have hlisten := hI.listeners
    refine ⟨hI.script, fun hn => ?_, fun hd => ?_, ?_⟩
    · obtain ⟨k, hk⟩ := hI.building hn
      refine ⟨_, Control.constructionInv_publish hk ⟨call.newState⟩
        (r := ({ s.bus with lastEvents := some ⟨call.newState⟩ }, _)) (Prod.ext rfl ?_)⟩
      by_cases hs : s.ctor = .start
      · rw [if_pos hs] at hlisten
        rw [publish_unheard hlisten, EventBus.publish]
        exact congrArg (List.foldl _ s.client) hlisten
      · rw [if_neg hs] at hlisten
        rw [publish_listening hlisten]
        exact congrArg (List.foldl _ s.client) hlisten
    · exact hI.listening hd
    · rw [List.filterMap_append, List.filterMap_cons_none rfl, filterMap_client]
      by_cases hs : s.ctor = .start
      · rw [if_pos hs] at hlisten
        rw [publish_unheard hlisten]
        simpa using hI.client
      · rw [if_neg hs] at hlisten
        rw [publish_listening hlisten]
        refine hI.client.tail (a := .authEvent ⟨call.newState⟩) trivial ?_
        simp [Control.client, Control.Client.step, hauth]
  | subscribe hy hf =>
    obtain ⟨hctor, rfl⟩ := hI.at_subscribe hy
    refine ⟨⟨[], rfl, by simp, fun _ => rfl⟩, fun _ => ?_, fun hd => absurd hd (by simp),
      hclient rfl⟩
    obtain ⟨k, hk⟩ := hI.building (by simp [hctor])
    refine ⟨_, Control.constructionInv_step (x := .subscribe) hk (e := []) ?_⟩
    simp [Control.Construction.step, Program.construction, hctor]
  | readLast hy =>
    obtain ⟨hctor, rfl⟩ := hI.at_readLast hy
    refine ⟨⟨[], rfl, by simp, fun _ => rfl⟩, fun _ => ?_, fun hd => absurd hd (by simp),
      hclient rfl⟩
    obtain ⟨k, hk⟩ := hI.building (by simp [hctor])
    refine ⟨_, Control.constructionInv_step (x := .readLast) hk (e := []) ?_⟩
    simp [Control.Construction.step, Program.construction, hctor]
  | @replay now rest read hy hctor =>
    have hrest := hI.rest hy rfl
    rw [hctor] at hrest
    obtain ⟨-, rfl⟩ := List.cons.inj hrest
    obtain ⟨k, hk⟩ := hI.building (by simp [hctor])
    have hlisten := hI.listeners
    rw [hctor, if_neg (by simp)] at hlisten
    refine ⟨⟨[], rfl, by simp, fun _ => rfl⟩, fun hn => absurd rfl hn, fun _ => hlisten, ?_⟩
    have hst : s.construction.step cfg .replay = some
        ({ s.construction with client := s.construction.replay cfg read, ctor := .done },
          [.replayed read s.bus.lastEvent]) := by
      simp [Control.Construction.step, Program.construction, hctor]
    have hsame : Control.Construction.replay cfg { bus := s.bus, client := s.client } read =
        s.construction.replay cfg read := by
      cases read <;> rfl
    rw [List.append_nil, hsame]
    rcases Control.client_step_of_construction hk hst with heq | ⟨event, hev⟩
    · rw [show s.construction.replay cfg read = s.client from heq]
      exact hI.client
    · have hr : (Control.client cfg).Reach (s.construction.replay cfg read)
          (h.filterMap AgentEvent.client? ++ []) :=
        hI.client.tail (a := .authEvent event) trivial hev
      rwa [List.append_nil] at hr
  | client hd hne hst =>
    refine ⟨hI.script, fun hn => absurd hd hn, hI.listening, ?_⟩
    rw [List.filterMap_append, filterMap_client]
    exact hI.client.tail trivial hst

/-! ## The calls and the bus -/

/-- The events on the bus. -/
def AgentEvent.published? : AgentEvent → Option AuthStateChangedEvent
  | .published event => some event
  | _ => none

theorem last_append_client (h : List AgentEvent) (es : List Control.Event) :
    last AgentEvent.published? (h ++ es.map .client) = last AgentEvent.published? h := by
  have hnone : last AgentEvent.published? (es.map AgentEvent.client) = none := by
    refine last_eq_none_iff.mpr fun v hv => ?_
    obtain ⟨e, -, rfl⟩ := List.mem_map.mp hv
    rfl
  rw [last_append, hnone]
  rfl

/-- An element stays when another one is erased. -/
theorem mem_eraseIdx_or {α : Type} {l : List α} {i : ℕ} {x y : α} (hi : l[i]? = some x)
    (hy : y ∈ l) : y = x ∨ y ∈ l.eraseIdx i := by
  obtain ⟨j, hj⟩ := List.getElem?_of_mem hy
  by_cases hij : j = i
  · rw [hij, hi] at hj
    exact .inl (Option.some.inj hj).symm
  · exact .inr (List.mem_eraseIdx_iff_getElem?.mpr ⟨j, hij, hj⟩)

/-- Every call under way and every event has been decided on, with good reason. -/
structure CallsInv (s : Program) (h : List AgentEvent) : Prop where
  founded : ∀ call, .decided call ∈ h → call.Founded
  decided : ∀ call ∈ s.deciding ++ s.pending, .decided call ∈ h
  published : ∀ event, .published event ∈ h →
    ∃ call, .decided call ∈ h ∧ call.newState = event.state
  last : last AgentEvent.published? h = s.bus.lastEvent

theorem CallsInv.mem_last (hI : CallsInv s h) {event : AuthStateChangedEvent}
    (hl : s.bus.lastEvent = some event) : .published event ∈ h := by
  obtain ⟨v, hv, heq⟩ := exists_of_last_eq (hI.last.trans hl)
  cases v with
  | published ev =>
    obtain rfl := Option.some.inj heq
    exact hv
  | _ => exact absurd heq (by simp [AgentEvent.published?])

/-- Steps that make no call and publish nothing. -/
theorem CallsInv.frame (hI : CallsInv s h)
    (hd : s'.deciding ++ s'.pending ⊆ s.deciding ++ s.pending)
    (hb : s'.bus.lastEvent = s.bus.lastEvent) (es : List Control.Event) :
    CallsInv s' (h ++ es.map .client) where
  founded call hc := hI.founded call (by simpa using hc)
  decided call hc := List.mem_append_left _ (hI.decided call (hd hc))
  published event he := by
    obtain ⟨call, hc, hst⟩ := hI.published event (by simpa using he)
    exact ⟨call, List.mem_append_left _ hc, hst⟩
  last := by rw [last_append_client, hI.last, hb]

theorem callsInv_move (hI : CallsInv s h) (hm : s.Move cfg x s' e) : CallsInv s' (h ++ e) := by
  cases hm with
  | idle hs =>
    refine CallsInv.frame hI ?_ ?_ []
    · exact List.Subset.refl _
    · rfl
  | @call _ script files call hf hs =>
    refine ⟨fun c hc => ?_, fun c hc => ?_, fun event he => ?_, ?_⟩
    · rcases List.mem_append.mp hc with hc | hc
      · exact hI.founded c hc
      · obtain rfl : c = call := by simpa using hc
        exact hf
    · by_cases hcc : c = call
      · simp [hcc]
      · refine List.mem_append_left _ (hI.decided c ?_)
        simpa [hcc] using hc
    · obtain ⟨c, hc, hst⟩ := hI.published event (by simpa using he)
      exact ⟨c, List.mem_append_left _ hc, hst⟩
    · rw [last_append]
      exact hI.last
  | @exchange i call returning hi =>
    refine CallsInv.frame hI (fun c hc => ?_) ?_ []
    · rcases List.mem_append.mp hc with hc | hc
      · exact List.mem_append_left _ (List.eraseIdx_subset hc)
      · split_ifs at hc
        · rcases List.mem_append.mp hc with hc | hc
          · exact List.mem_append_right _ hc
          · rw [List.mem_singleton.mp hc]
            exact List.mem_append_left _ (List.mem_of_getElem? hi)
        · exact List.mem_append_right _ hc
    · rfl
  | @publish i call returning hi hauth =>
    refine ⟨fun c hc => hI.founded c (by simpa using hc), fun c hc => ?_, fun event he => ?_, ?_⟩
    · refine List.mem_append_left _ (hI.decided c ?_)
      rcases List.mem_append.mp hc with hc | hc
      · exact List.mem_append_left _ hc
      · exact List.mem_append_right _ (List.eraseIdx_subset hc)
    · rcases List.mem_append.mp he with he | he
      · obtain ⟨c, hc, hst⟩ := hI.published event he
        exact ⟨c, List.mem_append_left _ hc, hst⟩
      · obtain rfl : event = ⟨call.newState⟩ := by simpa using he
        exact ⟨call, List.mem_append_left _
          (hI.decided call (List.mem_append_right _ (List.mem_of_getElem? hi))), rfl⟩
    · rw [← List.singleton_append, ← List.append_assoc, last_append_client, last_append]
      rfl
  | subscribe | readLast | replay =>
    refine CallsInv.frame hI ?_ ?_ []
    · exact List.Subset.refl _
    · rfl
  | client hd hne hst =>
    refine CallsInv.frame hI ?_ ?_ _
    · exact List.Subset.refl _
    · rfl

theorem callsInv_init {script : List MainStep} {files : String → FileState} {c : Client} :
    CallsInv { script := script, files := files, client := c } [] :=
  ⟨by simp, by simp, by simp, rfl⟩

/-! ## Nothing begins before the state is online -/

/-- The toggles after an authorization event. -/
theorem activeFeatures_onAuthStateChanged (c : Client) (event : AuthStateChangedEvent) :
    (c.onAuthStateChanged cfg event).1.activeFeatures = Client.featuresFor cfg event.state := by
  unfold Client.onAuthStateChanged Client.applyFeatureUpdate
  split_ifs with heq
  · exact heq
  · rfl

theorem restricted_or_online (event : AuthStateChangedEvent) :
    Client.featuresFor cfg event.state = restrictedFeatures ∨ event = ⟨.online⟩ := by
  by_cases hon : event.state = .online
  · exact .inr (by cases event; exact congrArg _ hon)
  · exact .inl (if_neg hon)

/-- With a manager: before anything is published the client is not there, and until the state has
been online its toggles are off. -/
structure QuietInv (s : Program) (h : List AgentEvent) : Prop where
  silent : s.bus.lastEvent = none → s.ctor = .start ∧ (.createManager ∈ s.script ∨
    ∃ call ∈ s.deciding ++ s.pending, call.force = true ∧ call.byMain = true)
  read : ∀ read, s.ctor = .read read → ∃ event, read = some event ∧ .published event ∈ h
  done : s.ctor = .done →
    s.client.activeFeatures = restrictedFeatures ∨ .published ⟨.online⟩ ∈ h

theorem quietInv_move (hB : BuildInv cfg s h) (hC : CallsInv s h) (hI : QuietInv s h)
    (hm : s.Move cfg x s' e) : QuietInv s' (h ++ e) := by
  have hread : ∀ read, s.ctor = .read read →
      ∃ event, read = some event ∧ .published event ∈ h ++ e := by
    intro read hr
    obtain ⟨event, heq, hp⟩ := hI.read read hr
    exact ⟨event, heq, List.mem_append_left _ hp⟩
  have hdone : s.ctor = .done →
      s.client.activeFeatures = restrictedFeatures ∨ .published ⟨.online⟩ ∈ h ++ e :=
    fun hd => (hI.done hd).imp_right fun hp => List.mem_append_left _ hp
  cases hm with
  | idle hs =>
    refine ⟨fun hl => ?_, hread, hdone⟩
    obtain ⟨hstart, hcm | hcall⟩ := hI.silent hl
    · refine ⟨hstart, .inl ?_⟩
      rcases hs with rfl | ⟨-, y, hy, -, hne⟩
      · exact hcm
      · rw [hy] at hcm
        exact (List.mem_cons.mp hcm).resolve_left fun h => hne h.symm
    · exact ⟨hstart, .inr hcall⟩
  | @call _ script files call hf hs =>
    refine ⟨fun hl => ?_, hread, hdone⟩
    have hnew : ∀ c ∈ s.deciding ++ s.pending, c ∈ (s.deciding ++ [call]) ++ s.pending := by
      intro c hc
      simp only [List.mem_append, List.mem_singleton] at hc ⊢
      tauto
    obtain ⟨hstart, hcm | ⟨c, hc, hfm⟩⟩ := hI.silent hl
    · rcases hs with ⟨rfl, -⟩ | ⟨-, y, hy, -, hcreate⟩
      · exact ⟨hstart, .inl hcm⟩
      · rw [hy] at hcm
        rcases List.mem_cons.mp hcm with rfl | hcm
        · exact ⟨hstart, .inr ⟨call, by simp, hcreate rfl⟩⟩
        · exact ⟨hstart, .inl hcm⟩
    · exact ⟨hstart, .inr ⟨c, hnew c hc, hfm⟩⟩
  | @exchange i call returning hi =>
    refine ⟨fun hl => ?_, hread, hdone⟩
    obtain ⟨hstart, hcm | ⟨c, hc, hfm⟩⟩ := hI.silent hl
    · exact ⟨hstart, .inl hcm⟩
    · refine ⟨hstart, .inr ⟨c, ?_, hfm⟩⟩
      rcases List.mem_append.mp hc with hc | hc
      · rcases mem_eraseIdx_or hi hc with rfl | hc
        · -- a forced call goes on to publish
          have hforce : c.force = true := hfm.1
          simp [hforce]
        · exact List.mem_append_left _ hc
      · refine List.mem_append_right _ ?_
        split_ifs
        · exact List.mem_append_left _ hc
        · exact hc
  | @publish i call returning hi hauth =>
    refine ⟨fun hl => absurd hl (by simp [EventBus.lastEvent]), hread, fun hd => ?_⟩
    have hlisten := hB.listeners
    rw [hd, if_neg (by simp)] at hlisten
    rw [publish_listening hlisten, activeFeatures_onAuthStateChanged]
    refine (restricted_or_online ⟨call.newState⟩).imp id fun heq => ?_
    rw [← heq]
    simp
  | subscribe hy hf =>
    refine ⟨fun hl => ?_, fun r hr => absurd hr (by simp), fun hd => absurd hd (by simp)⟩
    obtain ⟨hstart, hcm | ⟨c, hc, hfm⟩⟩ := hI.silent hl
    · rw [hy, hB.rest hy rfl, hstart] at hcm
      exact absurd hcm (by decide)
    · have := List.all_eq_true.mp hf c hc
      simp [hfm.2] at this
  | readLast hy =>
    refine ⟨fun hl => ?_, fun r hr => ?_, fun hd => absurd hd (by simp)⟩
    · exact absurd ((hI.silent hl).1.symm.trans (hB.at_readLast hy).1) (by simp)
    · obtain rfl := CtorPc.read.inj hr
      cases hl : s.bus.lastEvent with
      | none => exact absurd ((hI.silent hl).1.symm.trans (hB.at_readLast hy).1) (by simp)
      | some event => exact ⟨event, rfl, List.mem_append_left _ (hC.mem_last hl)⟩
  | @replay now rest read hy hctor =>
    refine ⟨fun hl => ?_, fun r hr => absurd hr (by simp), fun _ => ?_⟩
    · exact absurd ((hI.silent hl).1.symm.trans hctor) (by simp)
    · obtain ⟨event, rfl, hp⟩ := hI.read read hctor
      have hact := @activeFeatures_onAuthStateChanged cfg s.client event
      refine (restricted_or_online event).imp (fun heq => hact.trans heq) fun heq => ?_
      rw [← heq]
      exact List.mem_append_left _ hp
  | client hd hne hst =>
    refine ⟨hI.silent, hread, fun _ => ?_⟩
    obtain ⟨a, ha⟩ := Control.represents_of_reach hB.client
    obtain ⟨a', he, -⟩ := Control.step_sim ha hst
    rw [activeFeatures_of_effect he hne]
    exact hdone hd

/-- Authorization events let nothing begin. -/
theorem not_begins_of_authEvent {a a' : Sched} {c c' : Client} {event : AuthStateChangedEvent}
    {es : List Control.Event} (he : Effect cfg a c (.authEvent event) c' es a') {v : Control.Event}
    (hv : v ∈ es) (t : Control.Task) : ¬ Begins t v := by
  cases he with
  | features hauth hcur =>
    obtain ⟨u, -, rfl⟩ := List.mem_map.mp hv
    simp [Begins]
  | reply hx => exact absurd hx (by simp [Control.Act.replies])
  | _ => exact absurd hv (by simp)

/-- When something begins, the client is built and allows it. -/
theorem begins_of_move (hB : BuildInv cfg s h) (hm : s.Move cfg x s' e) {pre post : List AgentEvent}
    {v : Control.Event} {t : Control.Task} (heq : e = pre ++ .client v :: post) (ht : Begins t v) :
    s.ctor = .done ∧ isTaskAllowed s.client.activeFeatures t.kind = true ∧
      ∃ es : List Control.Event, pre = es.map .client := by
  have hmem : .client v ∈ e := by simp [heq]
  obtain ⟨a, ha⟩ := Control.represents_of_reach hB.client
  cases hm with
  | @publish i call returning hi hauth =>
    exfalso
    have hlisten := hB.listeners
    have hv : v ∈ (s.bus.publish (Program.deliver cfg) ⟨call.newState⟩ (s.client, [])).2.2 := by
      simpa using hmem
    by_cases hs : s.ctor = .start
    · rw [if_pos hs] at hlisten
      rw [publish_unheard hlisten] at hv
      exact absurd hv List.not_mem_nil
    · rw [if_neg hs] at hlisten
      rw [publish_listening hlisten] at hv
      have hst : s.client.step cfg (.authEvent ⟨call.newState⟩) =
          some (s.client.onAuthStateChanged cfg ⟨call.newState⟩) := by
        simp [Control.Client.step, hauth]
      obtain ⟨a', he, -⟩ := Control.step_sim ha hst
      exact not_begins_of_authEvent he hv t ht
  | @client x c es hd hne hst =>
    obtain ⟨a', he, -⟩ := Control.step_sim ha hst
    obtain ⟨e₁, e₂, -, hpre, -⟩ := List.map_eq_append_iff.mp heq
    have hv : v ∈ es := by simpa using hmem
    exact ⟨hd, allowed_of_begins ha (Control.featuresInv_of_reach hB.client) he hv ht, e₁,
      hpre.symm⟩
  | _ => exact absurd hmem (by simp)

/-- Before a task is accepted or started the state has been online, for a reason. -/
def BeginsGranted : List AgentEvent → Prop :=
  Always fun pre x => ∀ v t, x = .client v → Begins t v →
    .published ⟨.online⟩ ∈ pre ∧
      ∃ call, .decided call ∈ pre ∧ call.newState = .online ∧ call.grounds.Grants

theorem BeginsGranted.move (hB : BuildInv cfg s h) (hC : CallsInv s h) (hQ : QuietInv s h)
    (hI : BeginsGranted h) (hm : s.Move cfg x s' e) : BeginsGranted (h ++ e) := by
  refine Always.append hI ?_
  rintro pre _ post heq v t rfl ht
  obtain ⟨hd, hal, -⟩ := begins_of_move hB hm heq ht
  have hon : .published ⟨.online⟩ ∈ h := by
    refine (hQ.done hd).resolve_left fun hr => ?_
    rw [hr, Control.isTaskAllowed_restricted] at hal
    exact absurd hal (by simp)
  obtain ⟨call, hc, hst⟩ := hC.published _ hon
  exact ⟨List.mem_append_left _ hon, call, List.mem_append_left _ hc, hst,
    hC.founded call hc hst⟩

/-! ## The toggles follow the bus -/

/-- The replay is of an event that asks for the same toggles as the last one on the bus. -/
def SteadyReplay (cfg : Config) (s : Program) : AgentAct → Prop
  | .main _ =>
    match s.ctor with
    | .read (some event) =>
      expectedFeatures cfg (some event) = expectedFeatures cfg s.bus.lastEvent
    | _ => True
  | _ => True

instance (cfg : Config) (s : Program) (x : AgentAct) : Decidable (SteadyReplay cfg s x) := by
  unfold SteadyReplay
  split
  · split <;> infer_instance
  · infer_instance

/-- The client that has been built has the toggles the bus asks for. -/
def Program.Tracks (cfg : Config) (s : Program) : Prop :=
  s.ctor = .done → s.client.activeFeatures = expectedFeatures cfg s.bus.lastEvent

theorem tracks_move (hB : BuildInv cfg s h) (hI : s.Tracks cfg) (hR : SteadyReplay cfg s x)
    (hm : s.Move cfg x s' e) : s'.Tracks cfg := by
  cases hm with
  | idle | call | exchange => exact hI
  | @publish i call returning hi hauth =>
    intro hd
    have hlisten := hB.listeners
    rw [show s.ctor = .done from hd, if_neg (by simp)] at hlisten
    rw [publish_listening hlisten, activeFeatures_onAuthStateChanged]
    rfl
  | subscribe | readLast => exact fun hd => absurd hd (by simp)
  | @replay now rest read hy hctor =>
    intro _
    cases read with
    | some event =>
      have hsame : expectedFeatures cfg (some event) = expectedFeatures cfg s.bus.lastEvent := by
        simpa [SteadyReplay, hctor] using hR
      exact (activeFeatures_onAuthStateChanged s.client event).trans hsame
    | none =>
      -- what has been published since has been delivered
      obtain ⟨k, hk⟩ := hB.building (by simp [hctor])
      have hact : s.client.activeFeatures = expectedFeatures cfg s.bus.lastEvent := hk.read hctor
      rw [← hact]
      simp [Control.Construction.replay, Client.applyFeatureUpdate]
  | client hd hne hst =>
    intro _
    obtain ⟨a, ha⟩ := Control.represents_of_reach hB.client
    obtain ⟨a', he, -⟩ := Control.step_sim ha hst
    rw [activeFeatures_of_effect he hne]
    exact hI hd

/-- What is accepted or started is so while the last event, if there has been one, says online. -/
def BeginsOnline : List AgentEvent → Prop :=
  Always fun pre x => ∀ v t, x = .client v → Begins t v →
    ∀ event, last AgentEvent.published? pre = some event → event.state = .online

theorem BeginsOnline.move (hB : BuildInv cfg s h) (hC : CallsInv s h) (hT : s.Tracks cfg)
    (hI : BeginsOnline h) (hm : s.Move cfg x s' e) : BeginsOnline (h ++ e) := by
  refine Always.append hI ?_
  rintro pre _ post heq v t rfl ht event hl
  obtain ⟨hd, hal, es, rfl⟩ := begins_of_move hB hm heq ht
  rw [last_append_client, hC.last] at hl
  by_contra hoff
  rw [hT hd, hl] at hal
  have hr : expectedFeatures cfg (some event) = restrictedFeatures := if_neg hoff
  rw [hr, Control.isTaskAllowed_restricted] at hal
  exact absurd hal (by simp)

/-! ## Agreement at rest -/

/-- The calls of `UpdateAuthState` alone. -/
def Program.publisher (s : Program) : Auth.Publisher :=
  { authState := s.authState, bus := s.bus, pending := s.pending.map (·.newState) }

/-- The call with the newest exchange publishes only while all calls that have still to publish
publish its state. -/
def PublishesInOrder (s : Program) : AgentAct → Prop
  | .publish i => Auth.NewestLast s.publisher (.publish i)
  | _ => True

instance (s : Program) (x : AgentAct) : Decidable (PublishesInOrder s x) := by
  unfold PublishesInOrder
  split <;> infer_instance

/-- Nothing has been exchanged yet, or the newest call publishes the stored state. -/
def Program.Stored (s : Program) : Prop :=
  s.bus.lastEvent = none ∧ s.pending = [] ∨ s.publisher.NewestStored

theorem stored_move (hI : s.Stored) (hO : PublishesInOrder s x) (hm : s.Move cfg x s' e) :
    s'.Stored := by
  cases hm with
  | idle | call | subscribe | readLast | replay | client => exact hI
  | @exchange i call returning hi =>
    by_cases hc : (call.force || s.authState ≠ call.newState) = true
    · -- the call has become the newest one
      simp only [if_pos hc]
      exact .inr (.inl (by simp [Program.publisher]))
    · simp only [if_neg hc]
      rcases hI with hI | hI
      · exact .inl hI
      · have hsame : s.authState = call.newState := by
          by_contra hne
          simp [hne] at hc
        refine .inr ?_
        rw [← hsame]
        exact hI
  | @publish i call returning hi hauth =>
    rcases hI with ⟨-, hp⟩ | hI
    · rw [hp] at hi
      exact absurd hi (by simp)
    · have hi' : s.publisher.pending[i]? = some call.newState := by
        simp [Program.publisher, hi]
      have hnew := Auth.newestStored_publish hI hO hi'
      rw [Auth.Publisher.publish] at hnew
      simp only [Program.publisher, List.eraseIdx_map] at hnew
      exact .inr hnew

/-- At rest the last event is the stored state. -/
theorem Program.Stored.lastEvent (hI : s.Stored) (hQ : QuietInv s h) (hd : s.ctor = .done)
    (hp : s.pending = []) : s.bus.lastEvent = some ⟨s.authState⟩ := by
  rcases hI with ⟨hl, -⟩ | hI | ⟨-, hl⟩
  · exact absurd (hd.symm.trans (hQ.silent hl).1) (by simp)
  · exact absurd hI (by simp [Program.publisher, hp])
  · exact hl

section Runs

variable {root : RootNode} {agentId : String} {tempDirectory : Option String}
  {files : String → FileState}

theorem authScript_not_constructor (auth : AuthConfig) :
    ∀ y ∈ authScript auth, y.isConstructor = false := by
  intro y hy
  unfold authScript at hy
  simp only [List.cons_append, List.append_assoc, List.mem_cons, List.mem_append, Option.mem_toList,
    Option.map_eq_some_iff, List.not_mem_nil, or_false] at hy
  rcases hy with rfl | hy | ⟨m, -, rfl⟩ | rfl | rfl
  · rfl
  · split_ifs at hy
    · exact absurd hy List.not_mem_nil
    · rw [List.mem_singleton.mp hy]
      rfl
  · rfl
  · rfl
  · rfl

theorem buildInv_init :
    BuildInv (clientConfig root agentId tempDirectory)
      (agent codec root agentId tempDirectory files).init [] where
  script := by
    refine ⟨(root.authEnabled.map authScript).getD [], rfl, fun y hy => ?_, fun hn => ?_⟩
    · cases ha : root.authEnabled with
      | none => simp [ha] at hy
      | some auth => exact authScript_not_constructor auth y (by simpa [ha] using hy)
    · exact absurd rfl hn
  building _ := ⟨[], .init⟩
  listening hd := absurd hd (by simp [agent])
  client := .refl

theorem inv_of_reach (r : (agent codec root agentId tempDirectory files).Reach s h) :
    BuildInv (clientConfig root agentId tempDirectory) s h ∧ CallsInv s h :=
  Machine.Run.invariant
    (I := fun s h => BuildInv (clientConfig root agentId tempDirectory) s h ∧ CallsInv s h)
    ⟨buildInv_init, callsInv_init⟩
    (fun _ hI _ hst => ⟨buildInv_move hI.1 (Program.move_of_step hst),
      callsInv_move hI.2 (Program.move_of_step hst)⟩) r

theorem quietInv_of_reach (hauth : root.authEnabled ≠ none)
    (r : (agent codec root agentId tempDirectory files).Reach s h) : QuietInv s h := by
  refine Machine.Run.invariant (I := QuietInv) ?_ (fun hr hI _ hst => ?_) r
  · obtain ⟨auth, ha⟩ := Option.ne_none_iff_exists'.mp hauth
    refine ⟨fun _ => ⟨rfl, .inl ?_⟩, fun _ hr => absurd hr (by simp [agent]),
      fun hd => absurd hd (by simp [agent])⟩
    simp [agent, mainScript, ha, authScript]
  · obtain ⟨hB, hC⟩ := inv_of_reach hr
    exact quietInv_move hB hC hI (Program.move_of_step hst)

/-- **With a manager, nothing is accepted or started before the first authorization**, and that had
its reason: a license that authorizes something, in online mode, a stream that ended with OK, or the
persisted license. -/
theorem accepted_has_grounds (hauth : root.authEnabled ≠ none)
    (r : (agent codec root agentId tempDirectory files).Reach s h) : BeginsGranted h := by
  refine Machine.Run.invariant (I := fun _ h => BeginsGranted h) .nil (fun hr hI _ hst => ?_) r
  obtain ⟨hB, hC⟩ := inv_of_reach hr
  exact hI.move hB hC (quietInv_of_reach hauth hr) (Program.move_of_step hst)

theorem tracks_of_run (r : (agent codec root agentId tempDirectory files).Run
    (SteadyReplay (clientConfig root agentId tempDirectory)) s h) :
    s.Tracks (clientConfig root agentId tempDirectory) := by
  refine Machine.Run.invariant
    (I := fun s _ => s.Tracks (clientConfig root agentId tempDirectory)) ?_ ?_ r
  · exact fun hd => absurd hd (by simp [agent])
  · intro s h x s' e hr hI hR hst
    exact tracks_move (inv_of_reach hr.reach).1 hI hR (Program.move_of_step hst)

/-- **Operations are accepted and started while the last event on the bus says online**, or before
there has been any, and the toggles of the client are those the bus asks for. -/
theorem accepted_while_online (r : (agent codec root agentId tempDirectory files).Run
    (SteadyReplay (clientConfig root agentId tempDirectory)) s h) :
    s.Tracks (clientConfig root agentId tempDirectory) ∧ BeginsOnline h := by
  refine ⟨tracks_of_run r, ?_⟩
  refine Machine.Run.invariant (I := fun _ h => BeginsOnline h) .nil ?_ r
  intro s h x s' e hr hI _ hst
  obtain ⟨hB, hC⟩ := inv_of_reach hr.reach
  exact hI.move hB hC (tracks_of_run hr) (Program.move_of_step hst)

/-- **At rest the client enforces the stored state**: when no call has still to publish, its toggles
are those the manager's state asks for. -/
theorem toggles_agree_at_rest (hauth : root.authEnabled ≠ none)
    (r : (agent codec root agentId tempDirectory files).Run (fun s x =>
      SteadyReplay (clientConfig root agentId tempDirectory) s x ∧ PublishesInOrder s x) s h)
    (hd : s.ctor = .done) (hp : s.pending = []) :
    s.client.activeFeatures =
      Client.featuresFor (clientConfig root agentId tempDirectory) s.authState := by
  have hT := tracks_of_run (r.mono fun _ _ => And.left) hd
  have hQ := quietInv_of_reach hauth r.reach
  have hS : s.Stored := by
    refine Machine.Run.invariant (I := fun s _ => s.Stored) (.inl ⟨rfl, rfl⟩) ?_ r
    intro s h x s' e _ hI hR hst
    exact stored_move hI hR.2 (Program.move_of_step hst)
  rw [hT, hS.lastEvent hQ hd hp]
  rfl

/-- **What the configuration switches off is never accepted or started**, whatever the licenses
say. -/
theorem disabled_never_begins {node : FeaturesNode} {kind : Control.Kind}
    (hroot : root.features = some node) (hoff : node.Disables kind)
    (r : (agent codec root agentId tempDirectory files).Reach s h) :
    ∀ v t, .client v ∈ h → Begins t v → t.kind ≠ kind := by
  have hreq := isTaskAllowed_of_disables hroot hoff agentId tempDirectory
  refine Machine.Run.invariant
    (I := fun _ h => ∀ v t, .client v ∈ h → Begins t v → t.kind ≠ kind) (by simp) ?_ r
  intro s h x s' e hr hI _ hst v t hv ht hk
  rcases List.mem_append.mp hv with hv | hv
  · exact hI v t hv ht hk
  · obtain ⟨hB, -⟩ := inv_of_reach hr
    obtain ⟨pre, post, heq⟩ := List.append_of_mem hv
    obtain ⟨-, hal, -⟩ := begins_of_move hB (Program.move_of_step hst) heq ht
    have := (Control.featuresInv_of_reach hB.client).allowed_requested hal
    rw [hk, hreq] at this
    exact absurd this (by simp)

end Runs

/-! ## Some runs -/

def pcapOff : FeaturesNode := { pcap := some false }

/-- Authorization in the default mode, and no packet captures. -/
def demoRoot : RootNode := { auth := some { enabled := some true }, features := some pcapOff }

def demoAgent : Machine Program AgentAct AgentEvent :=
  agent Auth.demoCodec demoRoot "agent" none fun _ => .missing

/-- A license arrives; a capture is rejected, and a command is accepted and started. -/
def licensed : List AgentAct :=
  [.main 0, .exchange 0, .publish 0, .main 0, .message Auth.demoLicense 0 true, .main 0,
    .exchange 0, .publish 0, .main 0, .main 0, .main 0, .client .run,
    .client (.message (.start ⟨1, some (.pcap {})⟩) true),
    .client (.message (.start ⟨2, some (.exec {})⟩) true), .client .insertStartOp,
    .client .ackStartOp, .client .workerCheck, .client .workerTake]

/-- Authorization is lost again. -/
def unlicensed : List AgentAct :=
  licensed ++ [.connection false, .exchange 0, .publish 0, .setModeAfter 0]

/-- The conditions on the runs of the demonstration. -/
abbrev demoSteady (s : Program) (x : AgentAct) : Prop :=
  SteadyReplay (clientConfig demoRoot "agent" none) s x ∧ PublishesInOrder s x

/-- The task of the command. -/
def demoTask : Control.Task := { ptr := 0, opId := 2, spec := .exec {} }

theorem accepted_has_grounds_licensed : ∃ s h, demoAgent.Reach s h ∧
    .client (.started demoTask) ∈ h ∧ BeginsGranted h :=
  have r := Machine.run_schedule demoAgent (fun _ _ => True) licensed rfl
  ⟨_, _, r, by decide, accepted_has_grounds (by decide) r⟩

theorem accepted_while_online_licensed : ∃ s h,
    demoAgent.Run (SteadyReplay (clientConfig demoRoot "agent" none)) s h ∧
      .client (.started demoTask) ∈ h ∧ BeginsOnline h :=
  have r := Machine.run_schedule demoAgent (SteadyReplay (clientConfig demoRoot "agent" none))
    licensed rfl
  ⟨_, _, r, by decide, (accepted_while_online r).2⟩

theorem toggles_agree_at_rest_unlicensed : ∃ s h, demoAgent.Run demoSteady s h ∧
    s.authState = .offline ∧ s.client.activeFeatures =
      Client.featuresFor (clientConfig demoRoot "agent" none) s.authState :=
  have r := Machine.run_schedule demoAgent demoSteady unlicensed rfl
  ⟨_, _, r, rfl, toggles_agree_at_rest (by decide) r rfl rfl⟩

theorem disabled_never_begins_licensed : ∃ s h, demoAgent.Reach s h ∧
    ∀ v t, .client v ∈ h → Begins t v → t.kind ≠ .pcap :=
  have r := Machine.run_schedule demoAgent (fun _ _ => True) licensed rfl
  ⟨_, _, r, disabled_never_begins rfl (show pcapOff.Disables .pcap from .inr rfl) r⟩

end Zurg.Agent
