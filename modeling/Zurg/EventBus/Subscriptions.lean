import Zurg.EventBus
import Zurg.Lib.History
import Zurg.Lib.Machine
import Zurg.Lib.Ownership

/-!
# Zurg.EventBus.Subscriptions — `EventBus::SubscriptionToken`

A token stands for a subscription: it ends it when it is destroyed, assigned to, or told to, and
hands it on when it is moved from.  The machine runs the programs that can be written with tokens,
by any number of threads, as long as no two threads use one token at a time; the variables that hold
tokens are numbered, and so are the handles that the dispatcher gives out.

The invariant is that the listeners of the bus are the subscriptions that have begun and not ended,
and that each of them is owned by one token (`owned_and_delivered`).
-/

namespace Zurg

open Lib

/-- `SubscriptionToken`; whether `bus_` points to the bus. -/
structure SubscriptionToken where
  bus : Bool := false
  handle : ℕ := 0
  active : Bool := false
  deriving DecidableEq, Repr

namespace SubscriptionToken

/-- The token that `Subscribe` makes. -/
def subscribed (handle : ℕ) : SubscriptionToken := { bus := true, handle, active := true }

/-- The token that ends a subscription, if it is told to. -/
def owns (t : SubscriptionToken) : Option ℕ := if t.active && t.bus then some t.handle else none

/-- What `Unsubscribe` leaves of a token. -/
def unsubscribed (t : SubscriptionToken) : SubscriptionToken :=
  if t.active && t.bus then { t with active := false, bus := false } else t

/-- `MoveFrom`: the token moved to, and the one moved from. -/
def moveFrom (other : SubscriptionToken) : SubscriptionToken × SubscriptionToken :=
  ({ bus := other.bus, handle := other.handle, active := other.active },
    { other with active := false, bus := false })

@[simp] theorem owns_subscribed (l : ℕ) : (subscribed l).owns = some l := rfl

@[simp] theorem owns_default : ({} : SubscriptionToken).owns = none := rfl

@[simp] theorem owns_unsubscribed (t : SubscriptionToken) : t.unsubscribed.owns = none := by
  unfold unsubscribed owns
  by_cases h : (t.active && t.bus) = true
  · simp [h]
  · simp [h]

end SubscriptionToken

/-- The bus, and the tokens of the variables that are alive. -/
structure Subscriptions where
  bus : EventBus := {}
  /-- The next handle of the dispatcher. -/
  next : ℕ := 0
  tokens : ℕ → Option SubscriptionToken := fun _ => none

inductive TokenAct
  /-- `SubscriptionToken v;` -/
  | declare (v : ℕ)
  /-- `auto v = bus.Subscribe<..>(..);` -/
  | subscribe (v : ℕ)
  /-- `SubscriptionToken v = std::move(w);` -/
  | moveConstruct (v w : ℕ)
  /-- `v = std::move(w);` -/
  | moveAssign (v w : ℕ)
  | unsubscribe (v : ℕ)
  | destroy (v : ℕ)
  | publish (event : AuthStateChangedEvent)
  deriving DecidableEq, Repr

inductive TokenEvent
  | subscribed (l : ℕ)
  /-- The dispatcher is told to remove a listener. -/
  | ended (l : ℕ)
  /-- The listeners called, in this order. -/
  | published (event : AuthStateChangedEvent) (called : List ℕ)
  deriving DecidableEq, Repr

namespace Subscriptions

variable (s : Subscriptions)

def setToken (v : ℕ) (t : Option SubscriptionToken) : Subscriptions :=
  { s with tokens := Function.update s.tokens v t }

/-- `SubscriptionToken::Unsubscribe`, for the token `t`, as far as the bus is concerned. -/
def unsubscribe (t : SubscriptionToken) : Subscriptions × List TokenEvent :=
  match t.owns with
  | some l => ({ s with bus := s.bus.unsubscribe l }, [.ended l])
  | none => (s, [])

def step : TokenAct → Option (Subscriptions × List TokenEvent)
  | .declare v => if s.tokens v = none then some (s.setToken v (some {}), []) else none
  | .subscribe v =>
    if s.tokens v = none then
      some ({ s.setToken v (some (.subscribed s.next)) with
        bus := s.bus.subscribe s.next
        next := s.next + 1 }, [.subscribed s.next])
    else none
  | .moveConstruct v w =>
    match s.tokens v, s.tokens w with
    | none, some other =>
      let (new, old) := other.moveFrom
      some ((s.setToken v (some new)).setToken w (some old), [])
    | _, _ => none
  | .moveAssign v w =>
    match s.tokens v, s.tokens w with
    | some t, some other =>
      if v ≠ w then
        let (new, old) := other.moveFrom
        let (s', e) := s.unsubscribe t
        some ((s'.setToken v (some new)).setToken w (some old), e)
      else some (s, [])
    | _, _ => none
  | .unsubscribe v =>
    match s.tokens v with
    | some t =>
      let (s', e) := s.unsubscribe t
      some (s'.setToken v (some t.unsubscribed), e)
    | none => none
  | .destroy v =>
    match s.tokens v with
    | some t =>
      let (s', e) := s.unsubscribe t
      some (s'.setToken v none, e)
    | none => none
  | .publish event =>
    let r := s.bus.publish (fun l _ called => called ++ [l]) event []
    some ({ s with bus := r.1 }, [.published event r.2])

/-- The subscription that the token in `v` owns. -/
def owner (v : ℕ) : Option ℕ := (s.tokens v).bind SubscriptionToken.owns

end Subscriptions

/-- Programs with tokens. -/
def subscriptions : Machine Subscriptions TokenAct TokenEvent where
  init := {}
  step := Subscriptions.step

variable {s t : Subscriptions} {a : TokenAct} {h e : List TokenEvent} {o : ℕ → Option ℕ} {v w : ℕ}
  {n : Option ℕ}

/-! ## Who owns what -/

/-- What an action makes of the ownership of subscriptions. -/
def TokenAct.transfer (next : ℕ) (o : ℕ → Option ℕ) : TokenAct → ℕ → Option ℕ
  | .declare _ => o
  | .subscribe v => Function.update o v (some next)
  | .moveConstruct v w => if v = w then o else Function.update (Function.update o v (o w)) w none
  | .moveAssign v w => if v = w then o else Function.update (Function.update o v (o w)) w none
  | .unsubscribe v => Function.update o v none
  | .destroy v => Function.update o v none
  | .publish _ => o

/-- The subscription that an action ends. -/
def TokenAct.ends (o : ℕ → Option ℕ) : TokenAct → Option ℕ
  | .moveAssign v w => if v = w then none else o v
  | .unsubscribe v => o v
  | .destroy v => o v
  | _ => none

namespace Subscriptions

@[simp] theorem owner_setToken (v : ℕ) (x : Option SubscriptionToken) :
    (s.setToken v x).owner = Function.update s.owner v (x.bind SubscriptionToken.owns) := by
  funext u
  by_cases hu : u = v
  · subst hu
    simp [owner, setToken]
  · simp [owner, setToken, hu]

theorem owner_of_some {x : SubscriptionToken} (hv : s.tokens v = some x) : s.owner v = x.owns := by
  simp [owner, hv]

theorem owner_of_none (hv : s.tokens v = none) : s.owner v = none := by
  simp [owner, hv]

/-- An action after which `o` owns, and which has ended the subscription `l` if there is one. -/
structure After (s : Subscriptions) (o : ℕ → Option ℕ) (l : Option ℕ) (t : Subscriptions)
    (e : List TokenEvent) : Prop where
  owner : t.owner = o
  next : t.next = s.next
  listeners : t.bus.listeners = l.elim s.bus.listeners s.bus.listeners.erase
  events : e = (l.map TokenEvent.ended).toList

theorem after_unsubscribe (x : SubscriptionToken) :
    After s s.owner x.owns (s.unsubscribe x).1 (s.unsubscribe x).2 := by
  unfold unsubscribe
  cases x.owns with
  | none => exact ⟨rfl, rfl, rfl, rfl⟩
  | some l => exact ⟨rfl, rfl, rfl, rfl⟩

theorem After.setToken (ha : After s o n t e) (v : ℕ) (x : Option SubscriptionToken) :
    After s (Function.update o v (x.bind SubscriptionToken.owns)) n (t.setToken v x) e :=
  ⟨by rw [owner_setToken, ha.owner], ha.next, ha.listeners, ha.events⟩

theorem After.id : After s s.owner none s [] := ⟨rfl, rfl, rfl, rfl⟩

/-- A move from `w` to `v`, after which the subscription `n` of `v` is ended. -/
theorem After.move {y : SubscriptionToken} (ha : After s s.owner n t e)
    (hw : s.tokens w = some y) :
    After s (Function.update (Function.update s.owner v (s.owner w)) w none) n
      ((t.setToken v (some y.moveFrom.1)).setToken w (some y.moveFrom.2)) e := by
  rw [owner_of_some hw]
  exact (ha.setToken v (some y.moveFrom.1)).setToken w (some y.moveFrom.2)

/-- What an action does to the ownership and to the bus. -/
inductive Outcome (s t : Subscriptions) (e : List TokenEvent) : TokenAct → Prop
  | begins {v : ℕ} : s.owner v = none → t.owner = Function.update s.owner v (some s.next) →
      t.next = s.next + 1 → t.bus.listeners = s.bus.listeners ++ [s.next] →
      e = [.subscribed s.next] → Outcome s t e (.subscribe v)
  | publishes {event : AuthStateChangedEvent} : t.owner = s.owner → t.next = s.next →
      t.bus.listeners = s.bus.listeners → e = [.published event s.bus.listeners] →
      Outcome s t e (.publish event)
  | passesOn {a : TokenAct} : (∀ v, a ≠ .subscribe v) →
      (∀ v w, a = .moveConstruct v w → s.owner v = none) →
      After s (a.transfer s.next s.owner) (a.ends s.owner) t e → Outcome s t e a

theorem step_outcome (hst : s.step a = some (t, e)) : Outcome s t e a := by
  cases a with
  | declare v =>
    simp only [step, Option.ite_none_right_eq_some, Option.some.injEq, Prod.mk.injEq] at hst
    obtain ⟨hv, rfl, rfl⟩ := hst
    have ha := After.id.setToken (s := s) v (some {})
    have hnone : Function.update s.owner v none = s.owner :=
      Function.update_eq_self_iff.mpr (owner_of_none hv).symm
    rw [Option.bind_some, SubscriptionToken.owns_default, hnone] at ha
    exact .passesOn (by simp) (by simp) ha
  | subscribe v =>
    simp only [step, Option.ite_none_right_eq_some, Option.some.injEq, Prod.mk.injEq] at hst
    obtain ⟨hv, rfl, rfl⟩ := hst
    exact .begins (owner_of_none hv) (owner_setToken v _) rfl rfl rfl
  | moveConstruct v w =>
    simp only [step] at hst
    split at hst
    · rename_i y hv hw
      obtain ⟨rfl, rfl⟩ := Prod.mk.inj (Option.some.inj hst)
      have hne : v ≠ w := by
        rintro rfl
        simp [hv] at hw
      refine .passesOn (by simp) (fun v' w' h => ?_) ?_
      · obtain ⟨rfl, -⟩ := TokenAct.moveConstruct.inj h
        exact owner_of_none hv
      · simp only [TokenAct.transfer, if_neg hne]
        exact After.id.move hw
    · exact absurd hst (by simp)
  | moveAssign v w =>
    simp only [step] at hst
    split at hst
    · rename_i x y hv hw
      by_cases hne : v ≠ w
      · rw [if_pos hne] at hst
        obtain ⟨rfl, rfl⟩ := Prod.mk.inj (Option.some.inj hst)
        refine .passesOn (by simp) (by simp) ?_
        simp only [TokenAct.transfer, TokenAct.ends, if_neg hne, owner_of_some hv]
        exact (after_unsubscribe x).move hw
      · rw [if_neg hne] at hst
        obtain ⟨rfl, rfl⟩ := Prod.mk.inj (Option.some.inj hst)
        refine .passesOn (by simp) (by simp) ?_
        simp only [TokenAct.transfer, TokenAct.ends, if_pos (not_not.mp hne)]
        exact After.id
    · exact absurd hst (by simp)
  | unsubscribe v =>
    simp only [step] at hst
    split at hst
    · rename_i x hv
      obtain ⟨rfl, rfl⟩ := Prod.mk.inj (Option.some.inj hst)
      refine .passesOn (by simp) (by simp) ?_
      simp only [TokenAct.transfer, TokenAct.ends, owner_of_some hv]
      simpa using (after_unsubscribe x).setToken v (some x.unsubscribed)
    · exact absurd hst (by simp)
  | destroy v =>
    simp only [step] at hst
    split at hst
    · rename_i x hv
      obtain ⟨rfl, rfl⟩ := Prod.mk.inj (Option.some.inj hst)
      refine .passesOn (by simp) (by simp) ?_
      simp only [TokenAct.transfer, TokenAct.ends, owner_of_some hv]
      exact (after_unsubscribe x).setToken v none
    · exact absurd hst (by simp)
  | publish event =>
    obtain ⟨rfl, rfl⟩ := Prod.mk.inj (Option.some.inj hst)
    have hcalled : ∀ ls called : List ℕ,
        ls.foldl (fun called l => called ++ [l]) called = called ++ ls := by
      intro ls
      induction ls with
      | nil => simp
      | cons l ls ih => simp [ih]
    refine .publishes rfl rfl rfl ?_
    simp [EventBus.publish, hcalled]

end Subscriptions

/-! ## What is subscribed -/

def TokenEvent.subscribed? : TokenEvent → Option ℕ
  | .subscribed l => some l
  | _ => none

/-- The subscriptions that have begun, in their order. -/
def begun (h : List TokenEvent) : List ℕ := h.filterMap TokenEvent.subscribed?

/-- Those of them that have not ended. -/
def live (h : List TokenEvent) : List ℕ := (begun h).filter fun l => TokenEvent.ended l ∉ h

/-- An event reaches the subscriptions there are, in their order; only such a one is ended. -/
def Heard (pre : List TokenEvent) (x : TokenEvent) : Prop :=
  (∀ event called, x = .published event called → called = live pre) ∧
    ∀ l, x = .ended l → l ∈ live pre

structure SubscriptionsInv (s : Subscriptions) (h : List TokenEvent) : Prop where
  owned : OneOwner s.owner (live h)
  listeners : s.bus.listeners = live h
  begun : ∀ l ∈ begun h, l < s.next
  heard : Always Heard h

theorem ownership_transfer {rs : List ℕ} {n : ℕ} (ho : OneOwner o rs)
    (hfree : ∀ v w, a = .moveConstruct v w → o v = none) (hnew : ∀ v, a ≠ .subscribe v) :
    OneOwner (a.transfer n o) ((a.ends o).elim rs rs.erase) := by
  cases a with
  | declare v | publish event => exact ho
  | subscribe v => exact absurd rfl (hnew v)
  | moveConstruct v w =>
    simp only [TokenAct.transfer, TokenAct.ends]
    by_cases hne : v = w
    · rw [if_pos hne]
      exact ho
    · rw [if_neg hne]
      exact ho.handOn (hfree v w rfl)
  | moveAssign v w =>
    simp only [TokenAct.transfer, TokenAct.ends]
    by_cases hne : v = w
    · rw [if_pos hne, if_pos hne]
      exact ho
    · rw [if_neg hne, if_neg hne]
      -- `v` gives up what it has, and then gets what `w` has
      have hmove := (ho.release (v := v)).handOn (w := w) (Function.update_self v none o)
      rwa [Function.update_idem, Function.update_of_ne (Ne.symm hne)] at hmove
  | unsubscribe v | destroy v => exact ho.release

theorem exists_owner_of_ends {l : ℕ} (hl : a.ends o = some l) : ∃ v, o v = some l := by
  cases a with
  | moveAssign v w =>
    simp only [TokenAct.ends] at hl
    split_ifs at hl
    exact ⟨v, hl⟩
  | unsubscribe v | destroy v => exact ⟨v, hl⟩
  | declare v | subscribe v | moveConstruct v w | publish event =>
    exact absurd hl (by simp [TokenAct.ends])

theorem begun_append (h k : List TokenEvent) : begun (h ++ k) = begun h ++ begun k :=
  List.filterMap_append

theorem mem_begun_of_live {l : ℕ} (hl : l ∈ live h) : l ∈ begun h := (List.mem_filter.mp hl).1

/-- What has ended has begun. -/
theorem begun_of_ended {l : ℕ} (hH : Always Heard h) (hl : TokenEvent.ended l ∈ h) :
    l ∈ begun h := by
  obtain ⟨pre, post, rfl⟩ := List.append_of_mem hl
  rw [begun_append]
  exact List.mem_append_left _ (mem_begun_of_live ((hH pre _ post rfl).2 l rfl))

theorem live_published (event : AuthStateChangedEvent) (called : List ℕ) :
    live (h ++ [.published event called]) = live h := by
  simp [live, begun, TokenEvent.subscribed?]

theorem live_ended {l : ℕ} (hn : (live h).Nodup) : live (h ++ [.ended l]) = (live h).erase l := by
  rw [hn.erase_eq_filter]
  simp only [live, begun_append, List.filter_append, List.filter_filter]
  have hnil : begun [.ended l] = [] := rfl
  rw [hnil, List.filter_nil, List.append_nil]
  refine List.filter_congr fun k _ => ?_
  by_cases hk : k = l
  · simp [hk]
  · simp [hk]

theorem live_subscribed {l : ℕ} (hl : TokenEvent.ended l ∉ h) :
    live (h ++ [.subscribed l]) = live h ++ [l] := by
  have hone : begun [.subscribed l] = [l] := rfl
  simp [live, begun_append, hone, hl]

theorem subscriptionsInv_step (hI : SubscriptionsInv s h) (hst : s.step a = some (t, e)) :
    SubscriptionsInv t (h ++ e) := by
  cases Subscriptions.step_outcome hst with
  | begins hv howner hnext hlisteners he =>
    subst he
    have hfresh : s.next ∉ live h := fun hl =>
      Nat.lt_irrefl _ (hI.begun _ (mem_begun_of_live hl))
    have hended : TokenEvent.ended s.next ∉ h := fun hl =>
      Nat.lt_irrefl _ (hI.begun _ (begun_of_ended hI.heard hl))
    refine ⟨?_, ?_, ?_, hI.heard.snoc ⟨by simp, by simp⟩⟩
    · rw [live_subscribed hended, howner]
      exact hI.owned.acquire hv hfresh
    · rw [live_subscribed hended, hlisteners, hI.listeners]
    · intro l hl
      rw [begun_append, List.mem_append] at hl
      rw [hnext]
      rcases hl with hl | hl
      · exact Nat.lt_succ_of_lt (hI.begun l hl)
      · rw [List.mem_singleton.mp hl]
        exact Nat.lt_succ_self s.next
  | publishes howner hnext hlisteners he =>
    subst he
    refine ⟨?_, ?_, ?_, hI.heard.snoc ⟨?_, by simp⟩⟩
    · rw [live_published, howner]
      exact hI.owned
    · rw [live_published, hlisteners, hI.listeners]
    · rw [hnext]
      simpa [begun, TokenEvent.subscribed?] using hI.begun
    · intro event called heq
      rw [← (TokenEvent.published.inj heq).2, hI.listeners]
  | passesOn hnew hfree ha =>
    have howned := ownership_transfer (n := s.next) hI.owned hfree hnew
    rw [← ha.owner] at howned
    have hlisteners := ha.listeners
    have hevents := ha.events
    cases hends : a.ends s.owner with
    | none =>
      rw [hends] at howned hlisteners hevents
      subst hevents
      simp only [Option.map_none, Option.toList_none, List.append_nil]
      exact ⟨howned, hlisteners.trans hI.listeners, by rw [ha.next]; exact hI.begun, hI.heard⟩
    | some l =>
      rw [hends] at howned hlisteners
      obtain rfl : e = [.ended l] := by rw [hevents, hends]; rfl
      have hl : l ∈ live h := by
        obtain ⟨v, hv⟩ := exists_owner_of_ends hends
        exact hI.owned.mem hv
      refine ⟨?_, ?_, ?_, hI.heard.snoc ⟨by simp, ?_⟩⟩
      · rw [live_ended hI.owned.nodup]
        exact howned
      · rw [live_ended hI.owned.nodup, hlisteners, hI.listeners]
        rfl
      · rw [ha.next]
        simpa [begun, TokenEvent.subscribed?] using hI.begun
      · intro k hk
        rwa [← TokenEvent.ended.inj hk]

theorem subscriptionsInv_of_reach (r : subscriptions.Reach s h) : SubscriptionsInv s h := by
  have h0 : SubscriptionsInv {} [] := ⟨.empty, rfl, by simp [begun], .nil⟩
  refine Machine.Run.invariant h0 ?_ r
  intro s h a t e _ hI _ hst
  exact subscriptionsInv_step hI hst

theorem owner_of_step (hst : s.step a = some (t, e)) : t.owner = a.transfer s.next s.owner := by
  cases Subscriptions.step_outcome hst with
  | begins hv howner => exact howner
  | publishes howner => exact howner
  | passesOn hnew hfree ha => exact ha.owner

/-- **Subscriptions.**  In every program with tokens, the listeners of the bus are the subscriptions
that have begun and not ended, each owned by one token; each event is delivered to them once, in
their order; only a subscription there is is ended; and tokens hand their subscriptions on as the
program says. -/
theorem owned_and_delivered (r : subscriptions.Reach s h) :
    s.bus.listeners = live h ∧
    (live h).Nodup ∧
    (∀ l, l ∈ live h ↔ ∃ v, s.owner v = some l ∧ ∀ w, s.owner w = some l → w = v) ∧
    (∀ pre event called post, h = pre ++ .published event called :: post → called = live pre) ∧
    (∀ pre l post, h = pre ++ .ended l :: post → l ∈ live pre) ∧
    ∀ a t e, subscriptions.step s a = some (t, e) → t.owner = a.transfer s.next s.owner := by
  have hI := subscriptionsInv_of_reach r
  refine ⟨hI.listeners, hI.owned.nodup, fun l => ?_, fun pre event called post heq => ?_,
    fun pre l post heq => (hI.heard pre _ post heq).2 l rfl, fun a t e hst => owner_of_step hst⟩
  · rw [hI.owned.mem_iff]
    constructor
    · rintro ⟨v, hv⟩
      exact ⟨v, hv, fun w hw => hI.owned.unique w v l hw hv⟩
    · rintro ⟨v, hv, -⟩
      exact ⟨v, hv⟩
  · exact (hI.heard pre _ post heq).1 event called rfl

/-- A subscription is handed on, a second one assigned over, and the first variable destroyed. -/
def handedOn : List TokenAct :=
  [.subscribe 0, .declare 1, .moveAssign 1 0, .subscribe 2, .publish ⟨.online⟩, .moveAssign 2 1,
    .destroy 0, .destroy 1, .publish ⟨.offline⟩]

theorem owned_and_delivered_handedOn : ∃ s h pre, subscriptions.Reach s h ∧
    h = pre ++ [.published ⟨.offline⟩ [0]] ∧ live pre = [0] ∧ s.bus.listeners = live h := by
  obtain ⟨s, h, r, hlast⟩ := Machine.exists_run_schedule subscriptions (fun _ _ => True) handedOn
    (P := fun q => q.2 = [.subscribed 0, .subscribed 1, .published ⟨.online⟩ [0, 1], .ended 1] ++
      [.published ⟨.offline⟩ [0]]) (by decide +kernel)
  obtain ⟨hlisteners, -, -, hpublished, -⟩ := owned_and_delivered r
  exact ⟨s, h, _, r, hlast, (hpublished _ _ _ _ hlast).symm, hlisteners⟩

end Zurg
