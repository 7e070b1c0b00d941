import Mathlib.Data.List.AList
import Mathlib.Logic.Function.Basic
import Zurg.Lib.History
import Zurg.Lib.Machine

/-!
# Zurg.LoggerManager — `LoggerManager`: named loggers behind weak references

The manager, the loggers it has made and the threads that use them.  `st.mu` is held by one call at
a time, which goes from one look at a reference count to the next; between them users acquire and
release references.  The destructor of the last reference calls the deleter of the logger, which
calls `remove_logger_internal`.  Loggers and sinks are numbered.

A user may also give a reference to spdlog's own registry (`spdlog::register_logger`,
`spdlog::set_default_logger`) and take it back (`spdlog::drop`).  The repository's code never does,
but `LoggerManager::shutdown` ends in `spdlog::shutdown()`, which destroys all of these references
one after the other, with `st.mu` and the registry's own mutex held.

What the model leaves out: exceptions (an allocation that fails in `make_logger_locked` destroys
`created` at once), the names in spdlog's registry and, outside `spdlog::shutdown`, its mutex, and
what else users do with loggers.
-/

namespace Zurg.Logging

open Lib

/-- `spdlog::level::level_enum`. -/
inductive Level
  | trace
  | debug
  | info
  | warn
  | err
  | critical
  | off
  deriving DecidableEq, Repr

structure LoggerInfo where
  name : String := ""
  level : Level := .info
  active : Bool := false
  deriving DecidableEq, Repr

structure LoggerConfig where
  defaultLevel : Level := .info
  pattern : Option String := none
  deriving DecidableEq, Repr

/-- What the manager sets in a `spdlog::logger`. -/
structure Logger where
  name : String := ""
  sinks : List ℕ := []
  level : Level := .info
  deriving DecidableEq, Repr

/-- `set_pattern` of a logger with these sinks, if there is a pattern.  A `spdlog::logger` has no
pattern of its own: each of its sinks gets a formatter for the pattern. -/
def setPattern (sinks : List ℕ) (pattern : Option String) (patterns : ℕ → Option String) :
    ℕ → Option String := fun sink =>
  if sink ∈ sinks then pattern <|> patterns sink else patterns sink

structure ManagerState where
  sinks : List ℕ := []
  loggers : AList fun _ : String => ℕ := ∅
  pendingLevels : AList fun _ : String => Level := ∅
  config : LoggerConfig := {}
  initialized : Bool := false
  shuttingDown : Bool := false

/-- What is done with `st.mu` held, over several steps; the last is done by deleters. -/
inductive Op
  | init (config : LoggerConfig)
  | addSink (sink : Option ℕ)
  | logger (name : String)
  | setLevel (name : String) (level : Level)
  | listLoggers
  | shutdown
  | removeLoggerInternal (name : String) (ptr : ℕ)
  deriving DecidableEq, Repr

/-- Where the thread that holds `st.mu` stands. -/
inductive Pc
  /-- In `cleanup_expired_locked`, with these entries to come. -/
  | cleaning (rest : List String)
  /-- After it, with these entries to be looked up. -/
  | visiting (rest : List String)
  /-- With a temporary reference, about to destroy it. -/
  | holding (id : ℕ) (rest : List String)
  /-- In `spdlog::shutdown`, with these references to be destroyed. -/
  | dropping (rest : List ℕ)
  /-- What has been destroyed was the last reference: its destructor has called the deleter, which
  waits for `st.mu`. -/
  | deleting (id : ℕ) (rest : List String)
  deriving DecidableEq, Repr

/-- The temporary reference. -/
def Pc.temp : Pc → Option ℕ
  | .holding id _ => some id
  | _ => none

def Pc.isDropping : Pc → Bool
  | .dropping _ => true
  | _ => false

structure Call where
  op : Op
  pc : Pc
  /-- `out` of `list_loggers`. -/
  out : List LoggerInfo := []
  deriving DecidableEq, Repr

structure Process extends ManagerState where
  heap : ℕ → Logger := fun _ => {}
  /-- The pattern of each sink; `none` is the formatter that it came with. -/
  patterns : ℕ → Option String := fun _ => none
  /-- The number of loggers made so far. -/
  made : ℕ := 0
  /-- The references that users and spdlog's registry hold. -/
  refs : List ℕ := []
  /-- Those of them that spdlog's registry holds. -/
  registered : List ℕ := []
  /-- The loggers whose last reference has been destroyed outside `st.mu`; their deleters have not
  locked it yet. -/
  expired : List ℕ := []
  /-- The call that holds `st.mu`. -/
  call : Option Call := none

inductive Act
  /-- A thread calls the manager and locks `st.mu`. -/
  | call (op : Op)
  /-- The next step of the thread that holds `st.mu`. -/
  | proceed
  /-- A user copies a reference, or locks a weak one. -/
  | acquire (id : ℕ)
  | release (id : ℕ)
  /-- A user gives spdlog's registry a reference. -/
  | register (id : ℕ)
  /-- `spdlog::drop`. -/
  | drop (id : ℕ)
  /-- A deleter locks `st.mu`. -/
  | delete (id : ℕ)
  /-- A user sets the pattern of a sink. -/
  | setSinkPattern (sink : ℕ) (pattern : String)
  deriving DecidableEq, Repr

inductive Event
  | made (name : String) (id : ℕ)
  /-- `logger` returns. -/
  | returned (name : String) (logger : Option ℕ)
  /-- `list_loggers` returns. -/
  | listed (out : List LoggerInfo)
  | shutDown
  deriving DecidableEq, Repr

namespace Process

variable (s : Process)

/-- The temporary reference in the call, if there is a call. -/
def held : Option ℕ := s.call.bind (·.pc.temp)

/-- The reference count is positive. -/
def Alive (id : ℕ) : Prop := id ∈ s.refs ∨ s.held = some id

instance (id : ℕ) : Decidable (s.Alive id) := inferInstanceAs (Decidable (_ ∨ _))

/-- A user holds a reference. -/
def UserHolds (id : ℕ) : Prop := s.registered.count id < s.refs.count id

instance (id : ℕ) : Decidable (s.UserHolds id) := inferInstanceAs (Decidable (_ < _))

/-- `spdlog::shutdown` is under way, and holds the mutex of spdlog's registry. -/
def drops : Bool := s.call.any (·.pc.isDropping)

def goto (c : Call) (pc : Pc) : Process := { s with call := some { c with pc } }

def modify (id : ℕ) (f : Logger → Logger) : Process :=
  { s with heap := Function.update s.heap id (f (s.heap id)) }

def erase (name : String) : Process := { s with loggers := s.loggers.erase name }

/-- `weak_ptr::lock` of the entry of a name, if there is one. -/
def lock (name : String) : Option ℕ := (s.loggers.lookup name).filter fun id => s.Alive id

/-- One turn of `cleanup_expired_locked`. -/
def cleanupExpired (name : String) : Process :=
  match s.lock name with
  | some _ => s
  | none => s.erase name

/-- The end of `logger`: `make_logger_locked`, and the return of the reference. -/
def makeLoggerLocked (name : String) : Process × List Event :=
  match s.lock name with
  | some existing =>
    ({ s with refs := existing :: s.refs, call := none }, [.returned name (some existing)])
  | none =>
    ({ s with
      heap := Function.update s.heap s.made {
        name
        sinks := s.sinks
        level := (s.pendingLevels.lookup name).getD s.config.defaultLevel }
      patterns := setPattern s.sinks s.config.pattern s.patterns
      made := s.made + 1
      loggers := s.loggers.insert name s.made
      pendingLevels := s.pendingLevels.erase name
      refs := s.made :: s.refs
      call := none }, [.made name s.made, .returned name (some s.made)])

/-- `shutdown`, up to `spdlog::shutdown`. -/
def shutdown : Process :=
  { s with
    loggers := ∅
    pendingLevels := ∅
    sinks := []
    initialized := false
    shuttingDown := true
    config := {}
    call := some ⟨.shutdown, .dropping s.registered, []⟩ }

/-- The start of a call, up to `cleanup_expired_locked`. -/
def enter (op : Op) : Process × List Event :=
  let cleaning (s : Process) : Process × List Event :=
    ({ s with call := some ⟨op, .cleaning s.loggers.keys, []⟩ }, [])
  match op with
  | .init config => cleaning { s with config, initialized := true, shuttingDown := false }
  | .addSink none => (s, [])
  | .addSink (some sink) =>
    if s.shuttingDown then (s, []) else cleaning { s with sinks := s.sinks ++ [sink] }
  | .logger name => if s.shuttingDown then (s, [.returned name none]) else cleaning s
  | .setLevel _ _ => if s.shuttingDown then (s, []) else cleaning s
  | .listLoggers => cleaning s
  | .shutdown => (s.shutdown, [.shutDown])
  | .removeLoggerInternal _ _ => (s, [])

/-- The entries that a call looks up after `cleanup_expired_locked`. -/
def entries : Op → List String
  | .logger name | .setLevel name _ | .removeLoggerInternal name _ => [name]
  | .init _ | .addSink _ | .listLoggers => s.loggers.keys
  | .shutdown => []

/-- What a call does with a live logger. -/
def onLive (c : Call) (name : String) (id : ℕ) : Process × List LoggerInfo :=
  match c.op with
  | .init _ =>
    ({ s.modify id fun l => { l with level := s.config.defaultLevel } with
      patterns := setPattern (s.heap id).sinks s.config.pattern s.patterns }, c.out)
  | .addSink sink => (s.modify id fun l => { l with sinks := l.sinks ++ sink.toList }, c.out)
  | .setLevel _ level => (s.modify id fun l => { l with level }, c.out)
  | .listLoggers => (s, c.out ++ [{ name, level := (s.heap id).level, active := true }])
  | .removeLoggerInternal _ ptr => (if id ≠ ptr then s else s.erase name, c.out)
  | .logger _ | .shutdown => (s, c.out)

/-- What a call does with an entry whose logger is gone, or without an entry. -/
def onExpired (c : Call) (name : String) : Process × List LoggerInfo :=
  match c.op with
  | .setLevel _ level =>
    ({ s with pendingLevels := s.pendingLevels.insert name level }, c.out)
  | .listLoggers => (s, c.out ++ [{ name, active := false }])
  | .removeLoggerInternal _ _ => (s.erase name, c.out)
  | .init _ | .addSink _ | .logger _ | .shutdown => (s, c.out)

/-- `weak_ptr::lock`, and what follows from it. -/
def lookUp (c : Call) (name : String) (rest : List String) : Process :=
  match s.lock name with
  | some id =>
    let (s, out) := s.onLive c name id
    s.goto { c with out } (.holding id rest)
  | none =>
    let (s, out) := s.onExpired c name
    s.goto { c with out } (.visiting rest)

def visit (c : Call) (name : String) (rest : List String) : Process × List Event :=
  match c.op with
  | .logger name => s.makeLoggerLocked name
  | _ => (s.lookUp c name rest, [])

/-- The call returns. -/
def finish (c : Call) : Process × List Event :=
  ({ s with call := none }, if c.op = .listLoggers then [.listed c.out] else [])

/-- The next step of the call that holds `st.mu`. -/
def proceed (c : Call) : Option (Process × List Event) :=
  match c.pc with
  | .cleaning (name :: rest) => some ((s.cleanupExpired name).goto c (.cleaning rest), [])
  | .cleaning [] => some (s.goto c (.visiting (s.entries c.op)), [])
  | .visiting (name :: rest) => some (s.visit c name rest)
  | .visiting [] => some (s.finish c)
  | .holding id rest =>
    some (s.goto c (if id ∈ s.refs then .visiting rest else .deleting id rest), [])
  | .dropping (id :: rest) =>
    let s := { s with refs := s.refs.erase id, registered := rest }
    some (s.goto c (if id ∈ s.refs then .dropping rest else .deleting id []), [])
  | .dropping [] => some (s.finish c)
  | .deleting _ _ => none

/-- A reference is destroyed outside `st.mu`. -/
def release (id : ℕ) : Process :=
  let s := { s with refs := s.refs.erase id }
  if s.Alive id then s else { s with expired := id :: s.expired }

/-- A deleter enters `remove_logger_internal`. -/
def delete (id : ℕ) : Process :=
  let name := (s.heap id).name
  { s with
    expired := s.expired.erase id
    call := some ⟨.removeLoggerInternal name id, .visiting [name], []⟩ }

def step : Act → Option (Process × List Event)
  | .call op => if s.call = none then some (s.enter op) else none
  | .proceed => s.call.bind s.proceed
  | .acquire id => if s.Alive id then some ({ s with refs := id :: s.refs }, []) else none
  | .release id => if s.UserHolds id then some (s.release id, []) else none
  | .register id =>
    if id ∈ s.refs ∧ s.drops = false then
      some ({ s with refs := id :: s.refs, registered := id :: s.registered }, [])
    else none
  | .drop id =>
    if id ∈ s.registered ∧ id ∈ s.refs ∧ s.drops = false then
      some (({ s with registered := s.registered.erase id } : Process).release id, [])
    else none
  | .delete id => if s.call = none ∧ id ∈ s.expired then some (s.delete id, []) else none
  | .setSinkPattern sink pattern =>
    some ({ s with patterns := setPattern [sink] (some pattern) s.patterns }, [])

end Process

/-- The manager, from the first use of `state()`. -/
def loggerManager : Machine Process Act Event where
  init := {}
  step := Process.step

end Zurg.Logging
