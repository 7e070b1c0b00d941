import Mathlib.Data.Nat.Notation

/-!
# Zurg.EventBus — the bus that carries authorization changes (`event_bus.h`, `agent_events.h`)

`AuthStateChangedEvent` is the only type of event, so the dispatcher is the list of its listeners
and `last_events_` holds at most one event.  Every operation takes the bus mutex and is atomic.
-/

namespace Zurg

/-- `zurg::auth::AuthState`. -/
inductive AuthState
  | unknown
  | online
  | offline
  deriving DecidableEq, Repr

structure AuthStateChangedEvent where
  state : AuthState
  deriving DecidableEq, Repr

/-- The bus; a listener is known by a number. -/
structure EventBus where
  listeners : List ℕ := []
  lastEvents : Option AuthStateChangedEvent := none
  deriving DecidableEq, Repr

namespace EventBus

variable {σ : Type}

/-- `Subscribe`: the dispatcher appends the listener. -/
def subscribe (l : ℕ) (b : EventBus) : EventBus := { b with listeners := b.listeners ++ [l] }

/-- `Unsubscribe`: the dispatcher removes the listener of a handle. -/
def unsubscribe (l : ℕ) (b : EventBus) : EventBus := { b with listeners := b.listeners.erase l }

/-- `Publish`: every listener is called with the event, in the order of subscription, and the event
becomes the last one.  `deliver` is what a listener's callback does to the rest of the state. -/
def publish (deliver : ℕ → AuthStateChangedEvent → σ → σ) (e : AuthStateChangedEvent)
    (b : EventBus) (s : σ) : EventBus × σ :=
  ({ b with lastEvents := some e }, b.listeners.foldl (fun s l => deliver l e s) s)

/-- `LastEvent`. -/
def lastEvent (b : EventBus) : Option AuthStateChangedEvent := b.lastEvents

end EventBus

end Zurg
