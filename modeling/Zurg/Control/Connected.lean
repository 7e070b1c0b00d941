import Zurg.Control.Schedule
import Zurg.ControlStream.Delivery

/-!
# Zurg.Control.Connected — the control client over its stream client

`ControlCallbackClient` and the `ControlStreamClient` it owns, with all their threads.  What the
former hands to `EnqueueWrite` is enqueued in the latter at once, except for the errors of
`CancelAllLocked`, which are many: they are enqueued one by one.  The callbacks of the stream client
are the handlers of the control client.

A run of the whole projects to a run of each part (`client_of_connected`, `stream_of_connected`).
-/

namespace Zurg.Control

open Proto Lib ControlStream

structure Connected where
  client : Client
  stream : StreamClient Outgoing := {}
  /-- Inside the closed callback: the errors still to be enqueued. -/
  closing : Option (List Outgoing) := none

inductive ConnectedAct
  /-- A step of the control client that is not a callback of the stream client, or `OnMessage`. -/
  | client (x : Act)
  /-- The ready callback. -/
  | ready
  /-- The closed callback, up to the point where `CancelAllLocked` sends its errors. -/
  | closed
  | sendClosing
  /-- A step of the stream client that does not call back. -/
  | stream (x : StreamAct Outgoing)
  deriving DecidableEq, Repr

inductive ConnectedEvent
  | client (e : Event)
  | stream (e : StreamEvent Outgoing)
  deriving DecidableEq, Repr

def ConnectedEvent.client? : ConnectedEvent → Option Event
  | .client e => some e
  | .stream _ => none

def ConnectedEvent.stream? : ConnectedEvent → Option (StreamEvent Outgoing)
  | .client _ => none
  | .stream e => some e

/-- `EnqueueWrite` on each of `ms`. -/
def enqueueAll (s : StreamClient Outgoing) :
    List Outgoing → StreamClient Outgoing × List (StreamEvent Outgoing)
  | [] => (s, [])
  | m :: ms =>
    let r := s.enqueueWrite m
    let q := enqueueAll r.1 ms
    (q.1, r.2 ++ q.2)

namespace Connected

variable (cfg : Config) (s : Connected)

/-- The control client takes the step `x`, and what it sends is enqueued. -/
def perform (x : Act) : Option (Connected × List ConnectedEvent) :=
  match s.client.step cfg x with
  | none => none
  | some (c, es) =>
    let r := enqueueAll s.stream (sends es)
    some ({ s with client := c, stream := r.1 }, es.map .client ++ r.2.map .stream)

/-- The stream client takes the step `x`. -/
def transport (x : StreamAct Outgoing) : Option (Connected × List ConnectedEvent) :=
  match s.stream.step x with
  | none => none
  | some (t, es) => some ({ s with stream := t }, es.map .stream)

/-- The steps of the control client outside the ready and the closed callback.  Messages are read
from the time `OnStreamReady` has returned until `OnDone`. -/
def mayPerform : Act → Bool
  | .streamReady | .streamClosed => false
  | .message _ _ => s.stream.run = .waiting && s.stream.call = .active
  | _ => true

/-- The steps of the stream client by itself.  `Run` is called by the control client's `Run`;
`OnDone` comes when `OnMessage` has returned. -/
def mayTransport : StreamAct Outgoing → Bool
  | .enqueueWrite _ | .readyReturn | .closeReturn => false
  | .connect => s.client.worker ≠ .notStarted
  | .closeClear => s.client.server = .idle
  | _ => true

def step : ConnectedAct → Option (Connected × List ConnectedEvent)
  | .client x => if s.mayPerform x then s.perform cfg x else none
  | .ready =>
    if s.stream.run = .reactorSet ∧ s.closing = none then
      match s.perform cfg .streamReady with
      | none => none
      | some (t, es) =>
        match t.transport .readyReturn with
        | none => none
        | some (u, es') => some (u, es ++ es')
    else none
  | .closed =>
    if s.stream.call = .detached ∧ s.closing = none then
      match s.client.step cfg .streamClosed with
      | none => none
      | some (c, es) => some ({ s with client := c, closing := some (sends es) }, es.map .client)
    else none
  | .sendClosing =>
    match s.closing with
    | some (m :: ms) =>
      let r := s.stream.enqueueWrite m
      some ({ s with stream := r.1, closing := some ms }, r.2.map .stream)
    | _ => none
  | .stream .closeReturn =>
    if s.closing = some [] then { s with closing := none }.transport .closeReturn else none
  | .stream x => if s.mayTransport x then s.transport x else none

end Connected

/-- The control client with its stream client. -/
def connected (cfg : Config) : Machine Connected ConnectedAct ConnectedEvent where
  init := { client := Client.new cfg }
  step := Connected.step cfg

/-- What a step hands to `EnqueueWrite`. -/
def Connected.posts (cfg : Config) (s : Connected) : ConnectedAct → List Outgoing
  | .client x =>
    match s.client.step cfg x with
    | some (_, es) => sends es
    | none => []
  | .ready => [(makeHello cfg.agentId, none)]
  | .sendClosing =>
    match s.closing with
    | some (m :: _) => [m]
    | _ => []
  | _ => []

variable {cfg : Config} {s s' t : Connected} {x : ConnectedAct} {e : List ConnectedEvent}

/-! ## Projections -/

theorem filterMap_client_events (es : List Event) (ks : List (StreamEvent Outgoing)) :
    (es.map ConnectedEvent.client ++ ks.map ConnectedEvent.stream).filterMap
      ConnectedEvent.client? = es := by
  have hks : (ks.map ConnectedEvent.stream).filterMap ConnectedEvent.client? = [] :=
    List.filterMap_eq_nil_iff.mpr (by simp [ConnectedEvent.client?])
  rw [List.filterMap_append, hks, List.append_nil, List.filterMap_map]
  exact List.filterMap_some

theorem filterMap_stream_events (es : List Event) (ks : List (StreamEvent Outgoing)) :
    (es.map ConnectedEvent.client ++ ks.map ConnectedEvent.stream).filterMap
      ConnectedEvent.stream? = ks := by
  have hes : (es.map ConnectedEvent.client).filterMap ConnectedEvent.stream? = [] :=
    List.filterMap_eq_nil_iff.mpr (by simp [ConnectedEvent.stream?])
  rw [List.filterMap_append, hes, List.nil_append, List.filterMap_map]
  exact List.filterMap_some

theorem enqueues_start {s t : StreamClient Outgoing} {e : List (StreamEvent Outgoing)}
    (hs : Start s t e) : enqueues e = [] := by
  cases hs <;> rfl

/-- Only `EnqueueWrite` enqueues. -/
theorem enqueues_step {s t : StreamClient Outgoing} {y : StreamAct Outgoing}
    {e : List (StreamEvent Outgoing)} (hst : s.step y = some (t, e)) :
    enqueues e = match y with
      | .enqueueWrite m => [m]
      | _ => [] := by
  obtain ⟨u, e₁, e₂, hm, hs, rfl⟩ := step_moves hst
  rw [enqueues_append, enqueues_start hs, List.append_nil]
  cases hm <;> rfl

theorem enqueues_enqueueAll :
    ∀ (ms : List Outgoing) (s : StreamClient Outgoing), enqueues (enqueueAll s ms).2 = ms
  | [], _ => rfl
  | m :: ms, s => by
    have hm : enqueues (s.enqueueWrite m).2 = [m] := enqueues_step (y := .enqueueWrite m) rfl
    rw [enqueueAll, enqueues_append, hm, enqueues_enqueueAll ms]
    rfl

/-! ## A step of the whole is a step of each part -/

/-- What the parts do in a step of the whole: the control client takes at most one step, the stream
client goes on by steps of its own, and it enqueues what is posted. -/
structure PartsStep (cfg : Config) (E : StreamClient Outgoing → StreamAct Outgoing → Prop)
    (s : Connected) (x : ConnectedAct) (s' : Connected) (e : List ConnectedEvent) : Prop where
  client : s'.client = s.client ∧ e.filterMap ConnectedEvent.client? = [] ∨
    ∃ y, (Control.client cfg).step s.client y =
      some (s'.client, e.filterMap ConnectedEvent.client?)
  stream : (streamClient Outgoing).Steps E s.stream s'.stream
    (e.filterMap ConnectedEvent.stream?)
  posted : enqueues (e.filterMap ConnectedEvent.stream?) = s.posts cfg x

section PartsStep

variable {E : StreamClient Outgoing → StreamAct Outgoing → Prop}
  {P : StreamClient Outgoing → Outgoing → Prop}

/-- Enqueueing several messages is a run of `EnqueueWrite`s. -/
theorem steps_enqueueAll (hE : ∀ s m, P s m → E s (.enqueueWrite m))
    (hP : ∀ s m n, P s n → P (s.enqueueWrite m).1 n) :
    ∀ (ms : List Outgoing) (s : StreamClient Outgoing), (∀ m ∈ ms, P s m) →
      (streamClient Outgoing).Steps E s (enqueueAll s ms).1 (enqueueAll s ms).2
  | [], _, _ => .refl
  | m :: ms, s, hms =>
    (Machine.Steps.single (a := .enqueueWrite m) (hE s m (hms m (by simp))) rfl).trans
      (steps_enqueueAll hE hP ms _ fun n hn => hP s m n (hms n (by simp [hn])))

theorem PartsStep.of_events {g : List Event} {k : List (StreamEvent Outgoing)}
    (hc : s'.client = s.client ∧ g = [] ∨
      ∃ y, (Control.client cfg).step s.client y = some (s'.client, g))
    (hs : (streamClient Outgoing).Steps E s.stream s'.stream k)
    (hp : enqueues k = s.posts cfg x) :
    PartsStep cfg E s x s' (g.map .client ++ k.map .stream) := by
  refine ⟨?_, ?_, ?_⟩
  · rwa [filterMap_client_events]
  · rwa [filterMap_stream_events]
  · rwa [filterMap_stream_events]

theorem PartsStep.of_stream {k : List (StreamEvent Outgoing)} (hc : s'.client = s.client)
    (hs : (streamClient Outgoing).Steps E s.stream s'.stream k)
    (hp : enqueues k = s.posts cfg x) : PartsStep cfg E s x s' (k.map .stream) :=
  .of_events (g := []) (.inl ⟨hc, rfl⟩) hs hp

theorem partsStep_perform (hE : ∀ s m, P s m → E s (.enqueueWrite m))
    (hP : ∀ s m n, P s n → P (s.enqueueWrite m).1 n) {y : Act}
    (hst : s.perform cfg y = some (s', e)) (hposts : ∀ m ∈ s.posts cfg (.client y), P s.stream m) :
    PartsStep cfg E s (.client y) s' e := by
  unfold Connected.perform at hst
  cases hy : s.client.step cfg y with
  | none => simp [hy] at hst
  | some q =>
    obtain ⟨c, es⟩ := q
    simp only [hy, Option.some.injEq, Prod.mk.injEq] at hst
    obtain ⟨rfl, rfl⟩ := hst
    have hp : s.posts cfg (.client y) = sends es := by simp only [Connected.posts, hy]
    rw [hp] at hposts
    exact .of_events (.inr ⟨y, hy⟩) (steps_enqueueAll hE hP (sends es) s.stream hposts)
      (by rw [hp, enqueues_enqueueAll])

theorem partsStep_transport {y : StreamAct Outgoing} (hE : E s.stream y)
    (hst : s.transport y = some (s', e)) (hy : ∀ m, y ≠ .enqueueWrite m) :
    PartsStep cfg E s (.stream y) s' e := by
  unfold Connected.transport at hst
  cases hq : s.stream.step y with
  | none => simp [hq] at hst
  | some q =>
    obtain ⟨t, es⟩ := q
    simp only [hq, Option.some.injEq, Prod.mk.injEq] at hst
    obtain ⟨rfl, rfl⟩ := hst
    refine .of_stream rfl (.single hE hq) ?_
    rw [enqueues_step hq]
    cases y with
    | enqueueWrite m => exact absurd rfl (hy m)
    | _ => rfl

theorem posts_streamReady {q : Connected × List ConnectedEvent}
    (hst : s.perform cfg .streamReady = some q) :
    s.posts cfg (.client .streamReady) = s.posts cfg .ready := by
  by_cases hf : s.client.callbackFree
  · simp [Connected.posts, Client.step, hf, sends, Event.outgoing]
  · simp [Connected.perform, Client.step, hf] at hst

theorem step_stream {y : StreamAct Outgoing} (hy : y ≠ .closeReturn) :
    s.step cfg (.stream y) = if s.mayTransport y then s.transport y else none := by
  cases y with
  | closeReturn => exact absurd rfl hy
  | _ => rfl

/-- **A step of the whole is a step of each part.** -/
theorem partsStep (hE : ∀ s m, P s m → E s (.enqueueWrite m))
    (hP : ∀ s m n, P s n → P (s.enqueueWrite m).1 n) (hready : ∀ s, E s .readyReturn)
    (hst : s.step cfg x = some (s', e)) (hposts : ∀ m ∈ s.posts cfg x, P s.stream m)
    (hacts : ∀ y, x = .stream y → E s.stream y) : PartsStep cfg E s x s' e := by
  cases x with
  | client y =>
    simp only [Connected.step, Option.ite_none_right_eq_some] at hst
    exact partsStep_perform hE hP hst.2 hposts
  | ready =>
    simp only [Connected.step, Option.ite_none_right_eq_some] at hst
    obtain ⟨-, hst⟩ := hst
    cases hp : s.perform cfg .streamReady with
    | none => simp [hp] at hst
    | some q =>
      obtain ⟨t, es⟩ := q
      have hh : s.posts cfg (.client .streamReady) = s.posts cfg .ready := posts_streamReady hp
      have h₁ := partsStep_perform hE hP hp (hh ▸ hposts)
      cases ht : t.stream.step .readyReturn with
      | none => simp [hp, Connected.transport, ht] at hst
      | some q' =>
        obtain ⟨u, es'⟩ := q'
        simp only [hp, Connected.transport, ht, Option.some.injEq, Prod.mk.injEq] at hst
        obtain ⟨rfl, rfl⟩ := hst
        have hnil : es' = [] := by
          simp only [StreamClient.step, Option.ite_none_right_eq_some, Option.some.injEq,
            Prod.mk.injEq] at ht
          exact ht.2.2.symm
        subst hnil
        rw [List.map_nil, List.append_nil]
        refine ⟨h₁.client, ?_, h₁.posted.trans hh⟩
        rw [← List.append_nil (List.filterMap _ es)]
        exact h₁.stream.trans (.single (hready _) ht)
  | closed =>
    simp only [Connected.step, Option.ite_none_right_eq_some] at hst
    obtain ⟨-, hst⟩ := hst
    cases hc : s.client.step cfg .streamClosed with
    | none => simp [hc] at hst
    | some q =>
      simp only [hc, Option.some.injEq, Prod.mk.injEq] at hst
      obtain ⟨rfl, rfl⟩ := hst
      rw [← List.append_nil (List.map _ _)]
      exact .of_events (k := []) (.inr ⟨.streamClosed, hc⟩) .refl rfl
  | sendClosing =>
    simp only [Connected.step] at hst
    split at hst
    · rename_i m ms hc
      obtain ⟨rfl, rfl⟩ := Prod.mk.inj (Option.some.inj hst)
      have hp : s.posts cfg .sendClosing = [m] := by simp only [Connected.posts, hc]
      have hm : s.stream.step (.enqueueWrite m) = some (s.stream.enqueueWrite m) := rfl
      have hposted : enqueues (s.stream.enqueueWrite m).2 = [m] := enqueues_step hm
      have hsteps : (streamClient Outgoing).Steps E s.stream (s.stream.enqueueWrite m).1
          (s.stream.enqueueWrite m).2 := .single (hE s.stream m (hposts m (by simp [hp]))) hm
      exact .of_stream rfl hsteps (hposted.trans hp.symm)
    · simp at hst
  | stream y =>
    by_cases hy : y = .closeReturn
    · subst hy
      simp only [Connected.step, Option.ite_none_right_eq_some] at hst
      have hreturn : PartsStep cfg E { s with closing := none } (.stream .closeReturn) s' e :=
        partsStep_transport (hacts _ rfl) hst.2 (by simp)
      exact ⟨hreturn.client, hreturn.stream, hreturn.posted⟩
    · rw [step_stream hy, Option.ite_none_right_eq_some] at hst
      have hy' : ∀ m, y ≠ .enqueueWrite m := by
        rintro m rfl
        simp [Connected.mayTransport] at hst
      exact partsStep_transport (hacts y rfl) hst.2 hy'

end PartsStep

/-- The errors of the closed callback are set once and then sent one by one. -/
theorem step_closing (hst : s.step cfg x = some (s', e)) :
    s'.closing = s.closing ∨ s'.closing = none ∨
      (∃ c es, s.client.step cfg .streamClosed = some (c, es) ∧ s'.closing = some (sends es)) ∨
      ∃ m ms, s.closing = some (m :: ms) ∧ s'.closing = some ms := by
  have hperform : ∀ {s s' : Connected} {y e}, s.perform cfg y = some (s', e) →
      s'.closing = s.closing := by
    intro s s' y e h
    simp only [Connected.perform] at h
    split at h
    · exact nomatch h
    · obtain ⟨rfl, -⟩ := Prod.mk.inj (Option.some.inj h)
      rfl
  have htransport : ∀ {s s' : Connected} {y e}, s.transport y = some (s', e) →
      s'.closing = s.closing := by
    intro s s' y e h
    simp only [Connected.transport] at h
    split at h
    · exact nomatch h
    · obtain ⟨rfl, -⟩ := Prod.mk.inj (Option.some.inj h)
      rfl
  cases x with
  | client y =>
    simp only [Connected.step, Option.ite_none_right_eq_some] at hst
    exact .inl (hperform hst.2)
  | ready =>
    simp only [Connected.step, Option.ite_none_right_eq_some] at hst
    obtain ⟨-, hst⟩ := hst
    split at hst
    · exact nomatch hst
    · rename_i t es hp
      split at hst
      · exact nomatch hst
      · rename_i u es' ht
        obtain ⟨rfl, -⟩ := Prod.mk.inj (Option.some.inj hst)
        exact .inl ((htransport ht).trans (hperform hp))
  | closed =>
    simp only [Connected.step, Option.ite_none_right_eq_some] at hst
    obtain ⟨-, hst⟩ := hst
    split at hst
    · exact nomatch hst
    · rename_i c es hc
      obtain ⟨rfl, -⟩ := Prod.mk.inj (Option.some.inj hst)
      exact .inr (.inr (.inl ⟨c, es, hc, rfl⟩))
  | sendClosing =>
    simp only [Connected.step] at hst
    split at hst
    · rename_i m ms hc
      obtain ⟨rfl, -⟩ := Prod.mk.inj (Option.some.inj hst)
      exact .inr (.inr (.inr ⟨m, ms, hc, rfl⟩))
    · exact nomatch hst
  | stream y =>
    by_cases hy : y = .closeReturn
    · subst hy
      simp only [Connected.step, Option.ite_none_right_eq_some] at hst
      exact .inr (.inl (htransport hst.2))
    · rw [step_stream hy, Option.ite_none_right_eq_some] at hst
      exact .inl (htransport hst.2)

/-- A step of the control client posts what it sends. -/
theorem posts_client {y : Act} (hst : s.step cfg (.client y) = some (s', e)) :
    s.posts cfg (.client y) = sends (e.filterMap ConnectedEvent.client?) := by
  simp only [Connected.step, Option.ite_none_right_eq_some, Connected.perform] at hst
  cases hy : s.client.step cfg y with
  | none => simp [hy] at hst
  | some q =>
    simp only [hy, Option.some.injEq, Prod.mk.injEq] at hst
    rw [← hst.2.2, filterMap_client_events]
    simp only [Connected.posts, hy]

/-! ## A run of the whole is a run of each part -/

variable {C : Connected → ConnectedAct → Prop} {H : List ConnectedEvent}

/-- A step without a condition on the stream client. -/
theorem partsStep_any (hst : s.step cfg x = some (s', e)) :
    PartsStep cfg (fun _ _ => True) s x s' e :=
  partsStep (P := fun _ _ => True) (fun _ _ _ => trivial) (fun _ _ _ _ => trivial)
    (fun _ => trivial) hst (fun _ _ => trivial) (fun _ _ => trivial)

theorem client_of_connected (r : (connected cfg).Run C s H) :
    (client cfg).Reach s.client (H.filterMap ConnectedEvent.client?) := by
  refine Machine.Steps.simulate Connected.client ConnectedEvent.client? ?_ r
  intro t h a t' e _ _ hst
  rcases (partsStep_any hst).client with ⟨hc, he⟩ | ⟨y, hy⟩
  · rw [hc, he]
    exact .refl
  · exact .single trivial hy

theorem stream_of_connected (r : (connected cfg).Run C s H) :
    (streamClient Outgoing).Reach s.stream (H.filterMap ConnectedEvent.stream?) :=
  Machine.Steps.simulate Connected.stream ConnectedEvent.stream?
    (fun _ _ hst => (partsStep_any hst).stream) r

end Zurg.Control
