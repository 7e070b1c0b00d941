import Zurg.LoggerManager.Registry

/-!
# Zurg.LoggerManager.Settings — settings pushed and settings pulled

`init`, `add_sink` and `set_level` push what they set to the loggers that are alive; a logger made
later takes it from the manager.  The two ways give a logger the same sinks, but not always the same
level or the same patterns (`settings_timeless_iff`): `init` sets the level of a live logger again,
and leaves a pending one; and a pattern reaches the sinks that are there when a logger is made, or
when `init` finds one alive.
-/

namespace Zurg.Logging

open Lib

/-! ## Patterns -/

section Pattern

variable {sinks sinks' : List ℕ} {sink : ℕ} {patterns : ℕ → Option String} {p : String}

theorem setPattern_of_mem (hs : sink ∈ sinks) :
    setPattern sinks (some p) patterns sink = some p := by
  simp [setPattern, hs]

theorem setPattern_of_not_mem {pattern : Option String} (hs : sink ∉ sinks) :
    setPattern sinks pattern patterns sink = patterns sink := by
  simp [setPattern, hs]

@[simp] theorem setPattern_none : setPattern sinks none patterns = patterns := by
  funext sink
  simp [setPattern]

/-- A pattern replaces the one before. -/
theorem setPattern_of_subset {pattern : Option String} (hsub : ∀ sink ∈ sinks, sink ∈ sinks') :
    setPattern sinks' (some p) (setPattern sinks pattern patterns) =
      setPattern sinks' (some p) patterns := by
  funext sink
  by_cases hs : sink ∈ sinks'
  · rw [setPattern_of_mem hs, setPattern_of_mem hs]
  · rw [setPattern_of_not_mem hs, setPattern_of_not_mem hs,
      setPattern_of_not_mem (mt (hsub sink) hs)]

theorem setPattern_setPattern (pattern : Option String) :
    setPattern sinks pattern (setPattern sinks pattern patterns) =
      setPattern sinks pattern patterns := by
  cases pattern with
  | none => rw [setPattern_none]
  | some p => exact setPattern_of_subset fun _ hs => hs

/-- To set the pattern of some sinks changes nothing if they have it. -/
theorem setPattern_eq_iff (hsub : ∀ sink ∈ sinks, sink ∈ sinks') :
    (∀ sink ∈ sinks', setPattern sinks (some p) patterns sink = patterns sink) ↔
      ∀ sink ∈ sinks, patterns sink = some p := by
  constructor
  · intro hall sink hs
    rw [← hall sink (hsub sink hs), setPattern_of_mem hs]
  · intro hall sink _
    by_cases hs : sink ∈ sinks
    · rw [setPattern_of_mem hs, hall sink hs]
    · rw [setPattern_of_not_mem hs]

end Pattern

/-! ## Calls, one after the other -/

/-- Only the thread that holds `st.mu` takes steps. -/
def Alone (_ : Process) (x : Act) : Prop := x = .proceed

/-- A call, from its lock of `st.mu` to its return, with nothing between. -/
def Performs (s : Process) (op : Op) (t : Process) : Prop :=
  ∃ u e k, loggerManager.step s (.call op) = some (u, e) ∧ loggerManager.Steps Alone u t k ∧
    t.call = none

def PerformsAll (s : Process) : List Op → Process → Prop
  | [], t => s = t
  | op :: ops, t => ∃ u, Performs s op u ∧ PerformsAll u ops t

namespace Op

/-- The call sets something, and makes no logger. -/
def configures : Op → Bool
  | .init _ | .addSink _ | .setLevel _ _ => true
  | .logger _ | .listLoggers | .shutdown | .removeLoggerInternal _ _ => false

def configOf : Op → Option LoggerConfig
  | .init config => some config
  | _ => none

def patternOf (op : Op) : Option String := op.configOf.bind (·.pattern)

/-- The level that `set_level` asks for. -/
def overrideOf (name : String) : Op → Option Level
  | .setLevel name' level => if name' = name then some level else none
  | _ => none

/-- The level that a live logger gets. -/
def levelOf (name : String) (op : Op) : Option Level :=
  op.configOf.map (·.defaultLevel) <|> op.overrideOf name

end Op

variable {s t u : Process} {h e : List Event} {op : Op} {name : String} {out : List LoggerInfo}
  {rest : List String}

theorem Performs.unique (hs : Performs s op t) (hs' : Performs s op u) : t = u := by
  obtain ⟨v, e, k, hv, rt, ht⟩ := hs
  obtain ⟨v', e', k', hv', ru, hu⟩ := hs'
  obtain ⟨rfl, -⟩ := Prod.mk.inj (Option.some.inj (hv.symm.trans hv'))
  refine rt.stuck_unique (fun _ _ _ hx hy => Eq.trans hx hy.symm) ?_ ru ?_
  · rintro _ rfl
    simp [loggerManager, Process.step, ht]
  · rintro _ rfl
    simp [loggerManager, Process.step, hu]

theorem Performs.reach (hs : Performs s op t) (r : loggerManager.Reach s h) :
    ∃ h, loggerManager.Reach t h := by
  obtain ⟨u, e, k, hu, rt, -⟩ := hs
  exact ⟨_, (r.tail trivial hu).trans (rt.mono fun _ _ _ => trivial)⟩

/-! ## One call -/

theorem proceeds_to {c : Call} (hcall : s.call = some c) (hst : s.proceed c = some (t, [])) :
    loggerManager.Steps Alone s t [] :=
  .single rfl (by simp [loggerManager, Process.step, hcall, hst])

theorem lock_congr (hloggers : t.loggers.lookup name = s.loggers.lookup name)
    (halive : ∀ id, t.Alive id ↔ s.Alive id) : t.lock name = s.lock name := by
  simp only [Process.lock, hloggers, halive]

theorem lock_erase (m : String) (hgone : s.lock name = none) :
    (s.erase name).lock m = s.lock m := by
  by_cases hm : m = name
  · subst hm
    rw [hgone, Process.lock_eq_none]
    intro id hl
    exact absurd rfl (lookup_erase_eq_some.mp hl).1
  · exact lock_congr (AList.lookup_erase_ne hm) fun _ => Iff.rfl

/-- In a call that has no temporary reference the users' ones are all there are. -/
theorem alive_goto {c : Call} {pc : Pc} (hcall : s.call = some c) (hc : c.pc.temp = none)
    (hpc : pc.temp = none) (id : ℕ) : (s.goto c pc).Alive id ↔ s.Alive id := by
  simp [Process.Alive, Process.held, Process.goto, hcall, hc, hpc]

/-- `cleanup_expired_locked` erases entries whose logger is gone. -/
theorem cleans (hcall : s.call = some ⟨op, .cleaning rest, out⟩) :
    ∃ t, loggerManager.Steps Alone s t [] ∧ t.call = some ⟨op, .visiting (t.entries op), out⟩ ∧
      t = { s with loggers := t.loggers, call := t.call } ∧ ∀ m, t.lock m = s.lock m := by
  induction rest generalizing s with
  | nil =>
    exact ⟨_, proceeds_to hcall rfl, rfl, rfl, fun m =>
      lock_congr rfl (alive_goto hcall rfl rfl)⟩
  | cons name rest ih =>
    obtain ⟨v, hv, hvcall, hlock⟩ : ∃ v, s.cleanupExpired name = v ∧ v.call = s.call ∧
        v = { s with loggers := v.loggers } ∧ ∀ m, v.lock m = s.lock m := by
      refine ⟨_, rfl, ?_⟩
      unfold Process.cleanupExpired
      cases hlock : s.lock name with
      | some id => exact ⟨rfl, rfl, fun _ => rfl⟩
      | none => exact ⟨rfl, rfl, fun m => lock_erase m hlock⟩
    obtain ⟨t, rt, htcall, ht, htlock⟩ := ih (s := v.goto ⟨op, .cleaning (name :: rest), out⟩
      (.cleaning rest)) rfl
    refine ⟨t, (proceeds_to hcall (by rw [← hv]; rfl)).trans rt, htcall, ?_, fun m => ?_⟩
    · rw [ht, hlock.1]
      rfl
    · rw [htlock, ← hlock.2 m]
      exact lock_congr rfl (alive_goto (hvcall.trans hcall) rfl rfl)

/-- What a call has done when it has looked up the entries of these names. -/
structure Visited (op : Op) (names : List String) (s t : Process) : Prop where
  same : t = { s with
    heap := t.heap, patterns := t.patterns, pendingLevels := t.pendingLevels, call := t.call }
  level : ∀ m id, s.lock m = some id → (t.heap id).level =
    if m ∈ names then (op.levelOf m).getD (s.heap id).level else (s.heap id).level
  sinks : op.patternOf ≠ none → ∀ id, (t.heap id).sinks = (s.heap id).sinks
  patterns : t.patterns =
    if ∀ m ∈ names, s.lock m = none then s.patterns
    else setPattern s.sinks op.patternOf s.patterns
  pending : ∀ m, t.pendingLevels.lookup m =
    ((if m ∈ names ∧ s.lock m = none then op.overrideOf m else none) <|>
      s.pendingLevels.lookup m)

theorem onLive_configures {id : ℕ} {pc : Pc} (hop : op.configures) (hentry : name ∈ s.entries op)
    (hconfig : ∀ config, op = .init config → s.config = config) :
    s.onLive ⟨op, pc, out⟩ name id =
      ({ s with
        heap := Function.update s.heap id { s.heap id with
          sinks := (s.heap id).sinks ++ op.added
          level := (op.levelOf name).getD (s.heap id).level }
        patterns := setPattern (s.heap id).sinks op.patternOf s.patterns }, out) := by
  cases op with
  | init config =>
    obtain rfl := hconfig config rfl
    simp [Process.onLive, Process.modify, Op.added, Op.levelOf, Op.patternOf, Op.configOf]
  | addSink sink =>
    simp [Process.onLive, Process.modify, Op.added, Op.levelOf, Op.patternOf, Op.configOf,
      Op.overrideOf]
  | setLevel name' level =>
    obtain rfl : name = name' := by simpa [Process.entries] using hentry
    simp [Process.onLive, Process.modify, Op.added, Op.levelOf, Op.patternOf, Op.configOf,
      Op.overrideOf]
  | _ => simp [Op.configures] at hop

theorem onExpired_configures (out : List LoggerInfo) (pc : Pc) (hop : op.configures)
    (hentry : name ∈ s.entries op) :
    ∃ pendingLevels, s.onExpired ⟨op, pc, out⟩ name = ({ s with pendingLevels }, out) ∧
      ∀ m, pendingLevels.lookup m =
        ((if m = name then op.overrideOf m else none) <|> s.pendingLevels.lookup m) := by
  cases op with
  | setLevel name' level =>
    obtain rfl : name = name' := by simpa [Process.entries] using hentry
    refine ⟨_, rfl, fun m => ?_⟩
    by_cases hm : m = name
    · subst hm
      simp [Op.overrideOf, AList.lookup_insert]
    · simp [hm, AList.lookup_insert_ne hm]
  | init | addSink => exact ⟨s.pendingLevels, rfl, fun m => by simp [Op.overrideOf]⟩
  | _ => simp [Op.configures] at hop

theorem added_of_pattern (hop : op.patternOf ≠ none) : op.added = [] := by
  cases op with
  | init config => rfl
  | _ => simp [Op.patternOf, Op.configOf] at hop

theorem lets_go {id : ℕ} (hcall : s.call = some ⟨op, .holding id rest, out⟩) (hid : id ∈ s.refs) :
    loggerManager.Steps Alone s (s.goto ⟨op, .holding id rest, out⟩ (.visiting rest)) [] :=
  proceeds_to hcall (by simp [Process.proceed, hid])

/-- The manager as it is for a call that configures. -/
structure Ready (op : Op) (names : List String) (s : Process) : Prop where
  entries : ∀ m ∈ names, m ∈ s.entries op
  config : ∀ config, op = .init config → s.config = config
  sinks : op.patternOf ≠ none → ∀ m id, s.lock m = some id → (s.heap id).sinks = s.sinks
  inj : ∀ m m' id, s.lock m = some id → s.lock m' = some id → m = m'

theorem visited_live {id : ℕ} {call : Option Call} (hI : Ready op (name :: rest) s)
    (hlock : s.lock name = some id) :
    Visited op [name] s { s with
      heap := Function.update s.heap id { s.heap id with
        sinks := (s.heap id).sinks ++ op.added
        level := (op.levelOf name).getD (s.heap id).level }
      patterns := setPattern (s.heap id).sinks op.patternOf s.patterns
      call } := by
  refine ⟨rfl, fun m i hm => ?_, fun hp i => ?_, ?_, fun m => ?_⟩
  · by_cases hi : i = id
    · subst hi
      obtain rfl := hI.inj _ _ _ hm hlock
      simp
    · have hne : m ≠ name := fun hname => hi (by simpa [hname, hlock, eq_comm] using hm)
      simp [hne, hi]
  · by_cases hi : i = id
    · subst hi
      simp [added_of_pattern hp]
    · simp [hi]
  · by_cases hp : op.patternOf = none
    · simp [hp]
    · simp [hlock, hI.sinks hp name id hlock]
  · have hnone : ¬ (m = name ∧ s.lock m = none) := by
      rintro ⟨rfl, hm⟩
      simp [hlock] at hm
    simp [hnone]

theorem visited_gone {pendingLevels : AList fun _ : String => Level} {call : Option Call}
    (hlock : s.lock name = none)
    (hpending : ∀ m, pendingLevels.lookup m =
      ((if m = name then op.overrideOf m else none) <|> s.pendingLevels.lookup m)) :
    Visited op [name] s { s with pendingLevels, call } := by
  refine ⟨rfl, fun m i hm => ?_, fun _ _ => rfl, by simp [hlock], fun m => ?_⟩
  · have hne : m ≠ name := by
      rintro rfl
      simp [hlock] at hm
    simp [hne]
  · have hm : m = name → s.lock m = none := fun hname => hname ▸ hlock
    simpa [and_iff_left_of_imp hm] using hpending m

/-- An entry is looked up, and the temporary reference, if there is one, destroyed. -/
theorem visits (hop : op.configures) (hI : Ready op (name :: rest) s)
    (hcall : s.call = some ⟨op, .visiting (name :: rest), out⟩) :
    ∃ t, loggerManager.Steps Alone s t [] ∧ t.call = some ⟨op, .visiting rest, out⟩ ∧
      Visited op [name] s t := by
  have hentry := hI.entries name (by simp)
  have hvisit : s.visit ⟨op, .visiting (name :: rest), out⟩ name rest =
      (s.lookUp ⟨op, .visiting (name :: rest), out⟩ name rest, []) := by
    cases op with
    | logger => simp [Op.configures] at hop
    | _ => rfl
  have hfirst := proceeds_to hcall (congrArg some hvisit)
  unfold Process.lookUp at hfirst
  cases hlock : s.lock name with
  | some id =>
    -- a user has the logger, so the temporary reference is not the last one
    have hid : id ∈ s.refs := (Process.lock_eq_some.mp hlock).2.resolve_right (by
      simp [Process.held, hcall, Pc.temp])
    simp only [hlock, onLive_configures hop hentry hI.config] at hfirst
    exact ⟨_, hfirst.trans (lets_go rfl hid), rfl, visited_live hI hlock⟩
  | none =>
    obtain ⟨pendingLevels, hexp, hpending⟩ :=
      onExpired_configures out (.visiting (name :: rest)) hop hentry
    simp only [hlock, hexp] at hfirst
    exact ⟨_, hfirst, rfl, visited_gone hlock hpending⟩

theorem Visited.lock {names : List String} (hv : Visited op names s t)
    (hs : s.held = none) (ht : t.held = none) (m : String) : t.lock m = s.lock m := by
  refine lock_congr (by rw [hv.same]) fun id => ?_
  simp only [Process.Alive, hs, ht]
  rw [hv.same]

theorem Visited.trans {names names' : List String} (hv : Visited op names s u)
    (hv' : Visited op names' u t) (hlock : ∀ m, u.lock m = s.lock m)
    (hdisj : ∀ m ∈ names, m ∉ names') : Visited op (names ++ names') s t where
  same := by rw [hv'.same, hv.same]
  level m id hm := by
    rw [hv'.level m id ((hlock m).trans hm), hv.level m id hm]
    by_cases hmem : m ∈ names
    · simp [hmem, hdisj m hmem]
    · simp [hmem]
  sinks hp id := by rw [hv'.sinks hp, hv.sinks hp]
  patterns := by
    rw [hv'.patterns]
    have hsinks : u.sinks = s.sinks := by rw [hv.same]
    simp only [hlock, hsinks, hv.patterns, List.forall_mem_append]
    by_cases hgone : ∀ m ∈ names, s.lock m = none
    · simp only [if_pos hgone, and_iff_right hgone]
    · rw [if_neg hgone, setPattern_setPattern, ite_self]
      exact (if_neg (mt And.left hgone)).symm
  pending m := by
    rw [hv'.pending, hv.pending, hlock]
    by_cases hmem : m ∈ names
    · simp [hmem, hdisj m hmem]
    · simp [hmem]

theorem visits_all (hop : op.configures) (hI : Ready op rest s) (hnodup : rest.Nodup)
    (hcall : s.call = some ⟨op, .visiting rest, out⟩) :
    ∃ t, loggerManager.Steps Alone s t [] ∧ t.call = none ∧ Visited op rest s t := by
  induction rest generalizing s with
  | nil =>
    have hlist : op ≠ .listLoggers := by
      rintro rfl
      simp [Op.configures] at hop
    exact ⟨{ s with call := none },
      proceeds_to hcall (by simp [Process.proceed, Process.finish, hlist]), rfl,
      ⟨rfl, by simp, fun _ _ => rfl, by simp, by simp⟩⟩
  | cons name rest ih =>
    obtain ⟨hname, hnodup⟩ := List.nodup_cons.mp hnodup
    obtain ⟨u, ru, hu, hv⟩ := visits hop hI hcall
    have hlock : ∀ m, u.lock m = s.lock m :=
      hv.lock (by simp [Process.held, hcall, Pc.temp]) (by simp [Process.held, hu, Pc.temp])
    have hready : Ready op rest u := by
      refine ⟨fun m hm => ?_, fun config hc => ?_, fun hp m id hm => ?_, fun m m' id hm hm' => ?_⟩
      · have hentry := hI.entries m (List.mem_cons_of_mem _ hm)
        rw [hv.same]
        cases op <;> exact hentry
      · rw [hv.same]
        exact hI.config config hc
      · rw [hv.sinks hp, hI.sinks hp m id (by rw [← hlock, hm]), hv.same]
      · exact hI.inj m m' id (by rw [← hlock, hm]) (by rw [← hlock, hm'])
    obtain ⟨t, rt, ht, hv'⟩ := ih hready hnodup hu
    exact ⟨t, ru.trans rt, ht, hv.trans hv' hlock (by simpa using hname)⟩

/-- What a call that configures leaves behind. -/
structure Configured (op : Op) (s t : Process) : Prop where
  idle : t.call = none
  opened : t.shuttingDown = false
  lock : ∀ m, t.lock m = s.lock m
  sinks : t.sinks = s.sinks ++ op.added
  config : t.config = op.configOf.getD s.config
  level : ∀ m id, s.lock m = some id →
    (t.heap id).level = (op.levelOf m).getD (s.heap id).level
  pending : ∀ m, s.lock m = none →
    t.pendingLevels.lookup m = (op.overrideOf m <|> s.pendingLevels.lookup m)
  pushed : (∃ m, s.lock m ≠ none) → t.patterns = setPattern s.sinks op.patternOf s.patterns
  alone : (∀ m, s.lock m = none) → t.patterns = s.patterns

/-- The call has locked `st.mu` and erased the entries of loggers that are gone. -/
structure Cleaned (op : Op) (s u : Process) : Prop where
  call : u.call = some ⟨op, .visiting (u.entries op), []⟩
  opened : u.shuttingDown = false
  lock : ∀ m, u.lock m = s.lock m
  sinks : u.sinks = s.sinks ++ op.added
  config : u.config = op.configOf.getD s.config
  heap : u.heap = s.heap
  patterns : u.patterns = s.patterns
  pending : u.pendingLevels = s.pendingLevels

theorem enters (hidle : s.call = none) (henter : s.enter op = (u, []))
    (hcall : u.call = some ⟨op, .cleaning u.loggers.keys, []⟩) (hopened : u.shuttingDown = false)
    (hsinks : u.sinks = s.sinks ++ op.added) (hconfig : u.config = op.configOf.getD s.config)
    (hsame : (u.heap, u.patterns, u.loggers, u.pendingLevels, u.refs) =
      (s.heap, s.patterns, s.loggers, s.pendingLevels, s.refs)) :
    ∃ v, loggerManager.step s (.call op) = some (u, []) ∧ loggerManager.Steps Alone u v [] ∧
      Cleaned op s v := by
  simp only [Prod.mk.injEq] at hsame
  obtain ⟨hheap, hpatterns, hloggers, hpending, hrefs⟩ := hsame
  obtain ⟨v, rv, hvcall, hv, hlock⟩ := cleans hcall
  refine ⟨v, by simp [loggerManager, Process.step, hidle, henter], rv, hvcall, ?_, fun m => ?_, ?_,
    ?_, ?_, ?_, ?_⟩
  · rw [hv, hopened]
  · refine (hlock m).trans (lock_congr (by rw [hloggers]) fun id => ?_)
    simp [Process.Alive, Process.held, hcall, hidle, hrefs, Pc.temp]
  · rw [hv, hsinks]
  · rw [hv, hconfig]
  · rw [hv, hheap]
  · rw [hv, hpatterns]
  · rw [hv, hpending]

theorem performs_cleaned (hop : op.configures) (hidle : s.call = none)
    (hopen : s.shuttingDown = false) :
    (∃ u v, loggerManager.step s (.call op) = some (u, []) ∧ loggerManager.Steps Alone u v [] ∧
      Cleaned op s v) ∨ op = .addSink none := by
  have hnil : s.sinks = s.sinks ++ [] := (List.append_nil _).symm
  have hshut : ¬ s.shuttingDown = true := by simp [hopen]
  cases op with
  | init config => exact .inl ⟨_, enters hidle rfl rfl rfl hnil rfl rfl⟩
  | setLevel name level => exact .inl ⟨_, enters hidle (if_neg hshut) rfl hopen hnil rfl rfl⟩
  | addSink sink =>
    cases sink with
    | none => exact .inr rfl
    | some sink => exact .inl ⟨_, enters hidle (if_neg hshut) rfl hopen rfl rfl rfl⟩
  | _ => simp [Op.configures] at hop

theorem configured_addSink_none (hidle : s.call = none) (hopen : s.shuttingDown = false) :
    Configured (.addSink none) s s where
  idle := hidle
  opened := hopen
  lock _ := rfl
  sinks := by simp [Op.added]
  config := rfl
  level _ _ _ := rfl
  pending _ _ := by simp [Op.overrideOf]
  pushed _ := by simp [Op.patternOf, Op.configOf, setPattern_none]
  alone _ := rfl

theorem overrideOf_of_not_mem (hm : name ∉ s.entries op) : op.overrideOf name = none := by
  cases op with
  | setLevel name' level =>
    have hne : name' ≠ name := by simpa [Process.entries, eq_comm] using hm
    simp [Op.overrideOf, hne]
  | _ => rfl

theorem configOf_of_not_mem (hlive : s.lock name ≠ none) (hm : name ∉ s.entries op) :
    op.configOf = none := by
  obtain ⟨id, hid⟩ := Option.ne_none_iff_exists'.mp hlive
  cases op with
  | init config => exact absurd (mem_keys_of_lookup (Process.lock_eq_some.mp hid).1) hm
  | _ => rfl

theorem sinks_of_lock {id : ℕ} (hI : Registry s h) (hidle : s.call = none)
    (hlock : s.lock name = some id) : (s.heap id).sinks = s.sinks := by
  obtain ⟨hl, ha⟩ := Process.lock_eq_some.mp hlock
  have hsinks := hI.sinks name id hl ha
  rwa [Process.owed_of_idle hidle, List.append_nil] at hsinks

theorem Cleaned.ready (hu : Cleaned op s u) (hI : Registry s h) (hidle : s.call = none) :
    Ready op (u.entries op) u := by
  refine ⟨fun _ hm => hm, ?_, fun hp m id hm => ?_, fun m m' id hm hm' => ?_⟩
  · rintro config rfl
    exact hu.config
  · have hsinks := sinks_of_lock hI hidle ((hu.lock m).symm.trans hm)
    rw [hu.heap, hsinks, hu.sinks, added_of_pattern hp, List.append_nil]
  · obtain ⟨hl, -⟩ := Process.lock_eq_some.mp ((hu.lock m).symm.trans hm)
    obtain ⟨hl', -⟩ := Process.lock_eq_some.mp ((hu.lock m').symm.trans hm')
    exact hI.lookup_inj hl hl'

theorem Cleaned.configured (hu : Cleaned op s u) (hv : Visited op (u.entries op) u t)
    (hidle : t.call = none) : Configured op s t where
  idle := hidle
  opened := by rw [hv.same, hu.opened]
  lock m := by
    have hheld : u.held = none := by rw [Process.held_of_call hu.call]; rfl
    rw [hv.lock hheld (Process.held_of_idle hidle), hu.lock]
  sinks := by rw [hv.same, hu.sinks]
  config := by rw [hv.same, hu.config]
  level m id hm := by
    rw [hv.level m id ((hu.lock m).trans hm), hu.heap]
    split_ifs with hmem
    · rfl
    · have hlive : u.lock m ≠ none := by simp [hu.lock, hm]
      simp [Op.levelOf, configOf_of_not_mem hlive hmem, overrideOf_of_not_mem hmem]
  pending m hm := by
    rw [hv.pending, hu.lock, hu.pending]
    by_cases hmem : m ∈ u.entries op
    · simp [hmem, hm]
    · simp [hmem, overrideOf_of_not_mem hmem]
  pushed hlive := by
    rw [hv.patterns, hu.patterns]
    by_cases hp : op.patternOf = none
    · simp only [hp, setPattern_none, ite_self]
    · -- the call is `init`, which looks up all entries
      obtain ⟨m, hm⟩ := hlive
      rw [← hu.lock] at hm
      have hmem : m ∈ u.entries op := by
        by_contra hmem
        exact hp (by simp [Op.patternOf, configOf_of_not_mem hm hmem])
      rw [if_neg fun hall => hm (hall m hmem), hu.sinks, added_of_pattern hp, List.append_nil]
  alone hnone := by
    rw [hv.patterns, if_pos fun m _ => (hu.lock m).trans (hnone m), hu.patterns]

theorem performs_configures (hop : op.configures) (hI : Registry s h) (hidle : s.call = none)
    (hopen : s.shuttingDown = false) : ∃ t, Performs s op t ∧ Configured op s t := by
  obtain ⟨u, v, hstep, rv, hv⟩ | rfl := performs_cleaned hop hidle hopen
  · obtain ⟨t, rt, ht, hvt⟩ := visits_all hop (hv.ready hI hidle) (v.entries_nodup op) hv.call
    exact ⟨t, ⟨u, [], [], hstep, rv.trans rt, ht⟩, hv.configured hvt ht⟩
  · exact ⟨s, ⟨s, [], [], by simp [loggerManager, Process.step, hidle, Process.enter], .refl,
      hidle⟩, configured_addSink_none hidle hopen⟩

/-! ## `logger` -/

/-- What `logger` leaves behind when it has made a logger. -/
structure Created (name : String) (s t : Process) : Prop where
  idle : t.call = none
  opened : t.shuttingDown = false
  sinks : t.sinks = s.sinks
  config : t.config = s.config
  here : ∃ id, t.lock name = some id ∧
    (t.heap id).level = (s.pendingLevels.lookup name).getD s.config.defaultLevel
  patterns : t.patterns = setPattern s.sinks s.config.pattern s.patterns

theorem performs_logger (hidle : s.call = none) (hopen : s.shuttingDown = false)
    (hnew : s.lock name = none) : ∃ t, Performs s (.logger name) t ∧ Created name s t := by
  have hcall : loggerManager.step s (.call (.logger name)) =
      some ({ s with call := some ⟨.logger name, .cleaning s.loggers.keys, []⟩ }, []) := by
    simp [loggerManager, Process.step, hidle, Process.enter, hopen]
  obtain ⟨v, rv, hvcall, hv, hvlock⟩ := cleans
    (s := { s with call := some ⟨.logger name, .cleaning s.loggers.keys, []⟩ }) rfl
  have hlock : v.lock name = none := by
    rw [hvlock, ← hnew]
    exact lock_congr rfl fun id => by simp [Process.Alive, Process.held, hidle, Pc.temp]
  have hmake : loggerManager.step v .proceed = some (v.makeLoggerLocked name) := by
    simp [loggerManager, Process.step, hvcall, Process.proceed, Process.entries, Process.visit]
  rw [Process.makeLoggerLocked, hlock] at hmake
  refine ⟨_, ⟨_, _, _, hcall, rv.trans (.single rfl hmake), rfl⟩, rfl, ?_, ?_, ?_,
    ⟨v.made, ?_, ?_⟩, ?_⟩
  · rw [hv]
    exact hopen
  · rw [hv]
  · rw [hv]
  · exact Process.lock_eq_some.mpr ⟨AList.lookup_insert _, .inl (List.mem_cons_self ..)⟩
  · rw [hv]
    simp
  · rw [hv]

/-! ## Calls -/

theorem PerformsAll.append {ops ops' : List Op} (hs : PerformsAll s ops u)
    (hu : PerformsAll u ops' t) : PerformsAll s (ops ++ ops') t := by
  induction ops generalizing s with
  | nil =>
    obtain rfl := hs
    exact hu
  | cons op ops ih =>
    obtain ⟨v, hv, hs⟩ := hs
    exact ⟨v, hv, ih hs⟩

theorem PerformsAll.unique {ops : List Op} (hs : PerformsAll s ops t) (hs' : PerformsAll s ops u) :
    t = u := by
  induction ops generalizing s with
  | nil => exact hs.symm.trans hs'
  | cons op ops ih =>
    obtain ⟨v, hv, hs⟩ := hs
    obtain ⟨v', hv', hs'⟩ := hs'
    obtain rfl := hv.unique hv'
    exact ih hs hs'

/-- Each pattern replaces the one before at all sinks that are there. -/
structure Painted (sinks : List ℕ) (patterns : ℕ → Option String) (calls : List Op)
    (patterns' : ℕ → Option String) : Prop where
  painted : ∀ before op after, Last Op.patternOf calls before op after →
    patterns' = setPattern (sinks ++ before.flatMap Op.added) op.patternOf patterns
  kept : last Op.patternOf calls = none → patterns' = patterns

theorem Painted.cons {sinks : List ℕ} {patterns patterns' : ℕ → Option String} {ops : List Op}
    (hp : Painted (sinks ++ op.added) (setPattern sinks op.patternOf patterns) ops patterns') :
    Painted sinks patterns (op :: ops) patterns' := by
  refine ⟨fun before op' after hl => ?_, fun hnone => ?_⟩
  · cases before with
    | nil =>
      obtain ⟨rfl, rfl⟩ := List.cons.inj hl.split
      rw [hp.kept (last_eq_none_iff.mpr hl.after)]
      simp
    | cons x before =>
      obtain ⟨rfl, hops⟩ := List.cons.inj hl.split
      rw [hp.painted before op' after ⟨hops, hl.here, hl.after⟩]
      obtain ⟨p, hp⟩ := Option.ne_none_iff_exists'.mp hl.here
      rw [hp, setPattern_of_subset fun sink hs => by simp [hs]]
      simp
  · obtain ⟨hops, hop⟩ : last Op.patternOf ops = none ∧ op.patternOf = none := by
      simpa [last_cons] using hnone
    rw [hp.kept hops, hop, setPattern_none]

/-- What calls that configure leave behind. -/
structure ConfiguredAll (ops : List Op) (s t : Process) : Prop where
  idle : t.call = none
  opened : t.shuttingDown = false
  lock : ∀ m, t.lock m = s.lock m
  sinks : t.sinks = s.sinks ++ ops.flatMap Op.added
  config : t.config = (last Op.configOf ops).getD s.config
  level : ∀ m id, s.lock m = some id →
    (t.heap id).level = (last (Op.levelOf m) ops).getD (s.heap id).level
  pending : ∀ m, s.lock m = none →
    t.pendingLevels.lookup m = (last (Op.overrideOf m) ops <|> s.pendingLevels.lookup m)
  pushed : (∃ m, s.lock m ≠ none) → Painted s.sinks s.patterns ops t.patterns
  alone : (∀ m, s.lock m = none) → t.patterns = s.patterns

theorem Configured.cons {ops : List Op} (hop : Configured op s u) (hops : ConfiguredAll ops u t) :
    ConfiguredAll (op :: ops) s t where
  idle := hops.idle
  opened := hops.opened
  lock m := (hops.lock m).trans (hop.lock m)
  sinks := by simp [hops.sinks, hop.sinks]
  config := by
    rw [hops.config, hop.config, last_cons]
    cases last Op.configOf ops <;> rfl
  level m id hm := by
    rw [hops.level m id ((hop.lock m).trans hm), hop.level m id hm, last_cons]
    cases last (Op.levelOf m) ops <;> rfl
  pending m hm := by
    rw [hops.pending m ((hop.lock m).trans hm), hop.pending m hm, last_cons]
    cases last (Op.overrideOf m) ops <;> rfl
  pushed hlive := by
    have hp := hops.pushed (by simpa only [hop.lock] using hlive)
    rw [hop.sinks, hop.pushed hlive] at hp
    exact hp.cons
  alone hnone := (hops.alone fun m => (hop.lock m).trans (hnone m)).trans (hop.alone hnone)

theorem performs_all {ops : List Op} (hops : ∀ op ∈ ops, op.configures)
    (r : loggerManager.Reach s h) (hidle : s.call = none) (hopen : s.shuttingDown = false) :
    ∃ t, PerformsAll s ops t ∧ ConfiguredAll ops s t ∧ ∃ h, loggerManager.Reach t h := by
  induction ops generalizing s h with
  | nil =>
    exact ⟨s, rfl, ⟨hidle, hopen, fun _ => rfl, by simp, rfl, fun _ _ _ => rfl, by simp,
      fun _ => ⟨fun before op after hl => by simpa using hl.split, fun _ => rfl⟩, fun _ => rfl⟩,
      h, r⟩
  | cons op ops ih =>
    obtain ⟨hop, hops⟩ := List.forall_mem_cons.mp hops
    obtain ⟨u, hu, hconf⟩ := performs_configures hop (registry_of_run r) hidle hopen
    obtain ⟨k, ru⟩ := hu.reach r
    obtain ⟨t, ht, hall, rt⟩ := ih hops ru hconf.idle hconf.opened
    exact ⟨t, ⟨u, hu, ht⟩, hconf.cons hall, rt⟩

/-! ## When the two ways agree -/

/-- What the manager sets in a logger, and in its sinks. -/
structure Settings where
  level : Level
  sinks : List ℕ
  patterns : List (Option String)
  deriving DecidableEq, Repr

def Process.settings (s : Process) (name : String) : Option Settings :=
  (s.lock name).map fun id =>
    { level := (s.heap id).level
      sinks := (s.heap id).sinks
      patterns := (s.heap id).sinks.map s.patterns }

/-- When it does not matter that a logger is made before the calls or after them.  The configuration
in force before the calls counts as their first `init`. -/
structure Timeless (s : Process) (name : String) (calls : List Op) : Prop where
  /-- The last `init`, if no `set_level` of the name follows it, has the level that was asked for
  before. -/
  level : ∀ before config after level,
    Last (Op.levelOf name) calls before (.init config) after →
    (last (Op.overrideOf name) before <|> s.pendingLevels.lookup name) = some level →
    config.defaultLevel = level
  /-- Where the last pattern is in force at the end, the sinks added after it had it before. -/
  added : ∀ before config after,
    Last Op.patternOf (.init s.config :: calls) before (.init config) after →
    (∀ op ∈ after, op.configOf = none) → ∀ sink ∈ after.flatMap Op.added,
      sink ∈ s.sinks ++ before.flatMap Op.added ∨ s.patterns sink = config.pattern
  /-- Where it is not, another logger has brought it to its sinks too, or they had it before. -/
  kept : ∀ before config after,
    Last Op.patternOf (.init s.config :: calls) before (.init config) after →
    (∃ op ∈ after, op.configOf ≠ none) →
    (before ≠ [] ∧ ∃ other, s.lock other ≠ none) ∨
      ∀ sink ∈ s.sinks ++ before.flatMap Op.added, s.patterns sink = config.pattern

theorem levelOf_eq_none_iff :
    op.levelOf name = none ↔ op.configOf = none ∧ op.overrideOf name = none := by
  simp [Op.levelOf]

section

variable {calls before after : List Op} {config config' : LoggerConfig} {pending : Option Level}

theorem last_of_init (hl : Last (Op.levelOf name) calls before (.init config) after) :
    last (Op.levelOf name) calls = some config.defaultLevel ∧
    last (Op.overrideOf name) calls = last (Op.overrideOf name) before ∧
    last Op.configOf calls = some config := by
  have hafter : ∀ op ∈ after, op.configOf = none ∧ op.overrideOf name = none := fun op hop =>
    levelOf_eq_none_iff.mp (hl.after op hop)
  refine ⟨hl.last_eq, ?_, ?_⟩
  · rw [hl.split, last_append, last_cons, last_eq_none_iff.mpr fun op hop => (hafter op hop).2]
    rfl
  · rw [hl.split, last_append, last_cons, last_eq_none_iff.mpr fun op hop => (hafter op hop).1]
    rfl

/-- The level pushed is the level pulled. -/
theorem level_agrees_iff :
    (last (Op.levelOf name) calls).getD (pending.getD config.defaultLevel) =
        (last (Op.overrideOf name) calls <|> pending).getD
          ((last Op.configOf calls).getD config).defaultLevel ↔
      ∀ before config after level, Last (Op.levelOf name) calls before (.init config) after →
        (last (Op.overrideOf name) before <|> pending) = some level →
        config.defaultLevel = level := by
  constructor
  · intro heq before config after level hl hlevel
    obtain ⟨hpushed, hover, hconfig⟩ := last_of_init hl
    simpa [hpushed, hover, hconfig, hlevel] using heq
  · intro hall
    by_cases hnone : last (Op.levelOf name) calls = none
    · have hops := fun op hop => levelOf_eq_none_iff.mp (last_eq_none_iff.mp hnone op hop)
      rw [hnone, last_eq_none_iff.mpr fun op hop => (hops op hop).1,
        last_eq_none_iff.mpr fun op hop => (hops op hop).2]
      rfl
    · obtain ⟨before, op, after, hl⟩ := exists_last hnone
      cases op with
      | init config' =>
        obtain ⟨hpushed, hover, hconfig⟩ := last_of_init hl
        rw [hpushed, hover, hconfig]
        cases hlevel : (last (Op.overrideOf name) before <|> pending) with
        | none => rfl
        | some level => exact hall before config' after level hl hlevel
      | setLevel name' level =>
        -- the level of `set_level` is the one pushed and the one pulled
        obtain rfl : name' = name := by
          by_contra hne
          exact hl.here (by simp [Op.levelOf, Op.configOf, Op.overrideOf, hne])
        have hafter := fun op hop => (levelOf_eq_none_iff.mp (hl.after op hop)).2
        rw [hl.last_eq, hl.split, last_append, last_cons, last_eq_none_iff.mpr hafter]
        simp [Op.levelOf, Op.configOf, Op.overrideOf]
      | _ => exact absurd rfl hl.here

variable {sinks : List ℕ} {patterns early late : ℕ → Option String}

theorem sinks_of_last
    (hl : Last Op.patternOf (.init config :: calls) before (.init config') after) :
    sinks ++ calls.flatMap Op.added =
      (sinks ++ before.flatMap Op.added) ++ after.flatMap Op.added := by
  have hcalls := congrArg (List.flatMap Op.added) hl.split
  simp only [List.flatMap_cons, List.flatMap_append, Op.added, List.nil_append] at hcalls
  rw [hcalls, List.append_assoc]

theorem config_of_last
    (hl : Last Op.patternOf (.init config :: calls) before (.init config') after) :
    (last Op.configOf calls).getD config = (last Op.configOf after).getD config' := by
  have hcalls := congrArg (last Op.configOf) hl.split
  rw [last_append, last_cons, last_cons] at hcalls
  cases hlast : last Op.configOf calls <;> cases hlast' : last Op.configOf after <;>
    simp_all [Op.configOf]

/-- The last pattern is in force at the end: a logger made then brings it to all sinks. -/
theorem added_agree_iff
    (hl : Last Op.patternOf (.init config :: calls) before (.init config') after)
    (hearly : Painted sinks patterns (.init config :: calls) early)
    (hafter : ∀ op ∈ after, op.configOf = none) :
    (sinks ++ calls.flatMap Op.added).map early = (sinks ++ calls.flatMap Op.added).map
        (setPattern (sinks ++ calls.flatMap Op.added)
          ((last Op.configOf calls).getD config).pattern late) ↔
      ∀ sink ∈ after.flatMap Op.added,
        sink ∈ sinks ++ before.flatMap Op.added ∨ patterns sink = config'.pattern := by
  obtain ⟨p, hp⟩ : ∃ p, config'.pattern = some p := Option.ne_none_iff_exists'.mp hl.here
  have hpainted : early = setPattern (sinks ++ before.flatMap Op.added) (some p) patterns :=
    hp ▸ hearly.painted before _ after hl
  rw [hpainted, config_of_last hl, last_eq_none_iff.mpr hafter, Option.getD_none, sinks_of_last hl,
    List.map_inj_left, hp, List.forall_mem_append, and_iff_right fun sink hs => ?_]
  · refine forall₂_congr fun sink hs => ?_
    rw [setPattern_of_mem (List.mem_append_right _ hs)]
    by_cases hmem : sink ∈ sinks ++ before.flatMap Op.added
    · simp only [setPattern_of_mem hmem, hmem, true_or]
    · simp only [setPattern_of_not_mem hmem, hmem, false_or]
  · rw [setPattern_of_mem hs, setPattern_of_mem (List.mem_append_left _ hs)]

/-- The last pattern is not in force any more: a logger made at the end brings none. -/
theorem kept_agree_iff {others : Prop}
    (hl : Last Op.patternOf (.init config :: calls) before (.init config') after)
    (hearly : Painted sinks patterns (.init config :: calls) early)
    (hothers : others → Painted sinks patterns calls late) (halone : ¬ others → late = patterns)
    (hlater : ∃ op ∈ after, op.configOf ≠ none) :
    (sinks ++ calls.flatMap Op.added).map early = (sinks ++ calls.flatMap Op.added).map
        (setPattern (sinks ++ calls.flatMap Op.added)
          ((last Op.configOf calls).getD config).pattern late) ↔
      (before ≠ [] ∧ others) ∨
        ∀ sink ∈ sinks ++ before.flatMap Op.added, patterns sink = config'.pattern := by
  obtain ⟨p, hp⟩ : ∃ p, config'.pattern = some p := Option.ne_none_iff_exists'.mp hl.here
  have hpainted : early = setPattern (sinks ++ before.flatMap Op.added) (some p) patterns :=
    hp ▸ hearly.painted before _ after hl
  have hend : ((last Op.configOf after).getD config').pattern = none := by
    have hsome : last Op.configOf after ≠ none := by simpa [last_eq_none_iff] using hlater
    obtain ⟨config'', hlast⟩ := Option.ne_none_iff_exists'.mp hsome
    obtain ⟨op, hop, hconf⟩ := exists_of_last_eq hlast
    simpa [hlast, Op.patternOf, hconf] using hl.after op hop
  have hsub : ∀ sink ∈ sinks ++ before.flatMap Op.added,
      sink ∈ (sinks ++ before.flatMap Op.added) ++ after.flatMap Op.added :=
    fun _ => List.mem_append_left _
  rw [hpainted, config_of_last hl, hend, setPattern_none, sinks_of_last hl, List.map_inj_left, hp]
  by_cases ho : others
  · cases before with
    | nil =>
      -- it is the pattern in force at the start, which only the new logger brings
      obtain ⟨-, rfl⟩ := List.cons.inj hl.split
      rw [(hothers ho).kept (last_eq_none_iff.mpr hl.after), setPattern_eq_iff hsub]
      simp
    | cons op before =>
      obtain ⟨rfl, hcalls⟩ := List.cons.inj hl.split
      have hlate : late = setPattern (sinks ++ before.flatMap Op.added) (some p) patterns :=
        hp ▸ (hothers ho).painted before _ after ⟨hcalls, hl.here, hl.after⟩
      simp [hlate, ho, Op.added]
  · rw [halone ho, setPattern_eq_iff hsub]
    simp [ho]

/-- There is no pattern at all. -/
theorem patterns_agree_of_none {others : Prop}
    (hnone : last Op.patternOf (.init config :: calls) = none)
    (hearly : Painted sinks patterns (.init config :: calls) early)
    (hothers : others → Painted sinks patterns calls late) (halone : ¬ others → late = patterns) :
    early = setPattern (sinks ++ calls.flatMap Op.added)
      ((last Op.configOf calls).getD config).pattern late := by
  obtain ⟨hconfig, hops⟩ := List.forall_mem_cons.mp (last_eq_none_iff.mp hnone)
  have hend : ((last Op.configOf calls).getD config).pattern = none := by
    cases hlast : last Op.configOf calls with
    | none => exact hconfig
    | some config' =>
      obtain ⟨op, hop, hconf⟩ := exists_of_last_eq hlast
      simpa [Op.patternOf, hconf] using hops op hop
  have hlate : late = patterns := by
    by_cases ho : others
    · exact (hothers ho).kept (last_eq_none_iff.mpr hops)
    · exact halone ho
  rw [hearly.kept hnone, hend, setPattern_none, hlate]

end

/-! ## A logger made before the calls, and one made after them -/

theorem settings_of_lock {id : ℕ} (hI : Registry s h) (hidle : s.call = none)
    (hlock : s.lock name = some id) :
    s.settings name = some ⟨(s.heap id).level, s.sinks, s.sinks.map s.patterns⟩ := by
  simp [Process.settings, hlock, sinks_of_lock hI hidle hlock]

/-- The settings of a logger that is made before the calls. -/
theorem settings_early {ops : List Op} (hops : ∀ op ∈ ops, op.configures)
    (r : loggerManager.Reach s h) (hidle : s.call = none) (hopen : s.shuttingDown = false)
    (hnew : s.lock name = none) :
    ∃ t, PerformsAll s (.logger name :: ops) t ∧
      Painted s.sinks s.patterns (.init s.config :: ops) t.patterns ∧
      t.settings name = some
        { level := (last (Op.levelOf name) ops).getD
            ((s.pendingLevels.lookup name).getD s.config.defaultLevel)
          sinks := s.sinks ++ ops.flatMap Op.added
          patterns := (s.sinks ++ ops.flatMap Op.added).map t.patterns } := by
  obtain ⟨u, hu, hmade⟩ := performs_logger hidle hopen hnew
  obtain ⟨k, ru⟩ := hu.reach r
  obtain ⟨id, hlock, hlevel⟩ := hmade.here
  obtain ⟨t, ht, hall, k', rt⟩ := performs_all hops ru hmade.idle hmade.opened
  have hpainted := hall.pushed ⟨name, by simp [hlock]⟩
  rw [hmade.patterns, hmade.sinks] at hpainted
  have hadded : (Op.init s.config).added = [] := rfl
  refine ⟨t, ⟨u, hu, ht⟩, Painted.cons (by rwa [hadded, List.append_nil]), ?_⟩
  rw [settings_of_lock (registry_of_run rt) hall.idle ((hall.lock name).trans hlock),
    hall.level name id hlock, hlevel, hall.sinks, hmade.sinks]

/-- The settings of a logger that is made after the calls. -/
theorem settings_late {ops : List Op} (hops : ∀ op ∈ ops, op.configures)
    (r : loggerManager.Reach s h) (hidle : s.call = none) (hopen : s.shuttingDown = false)
    (hnew : s.lock name = none) :
    ∃ t patterns, PerformsAll s (ops ++ [.logger name]) t ∧
      ((∃ m, s.lock m ≠ none) → Painted s.sinks s.patterns ops patterns) ∧
      ((¬ ∃ m, s.lock m ≠ none) → patterns = s.patterns) ∧
      t.settings name = some
        { level := (last (Op.overrideOf name) ops <|> s.pendingLevels.lookup name).getD
            ((last Op.configOf ops).getD s.config).defaultLevel
          sinks := s.sinks ++ ops.flatMap Op.added
          patterns := (s.sinks ++ ops.flatMap Op.added).map
            (setPattern (s.sinks ++ ops.flatMap Op.added)
              ((last Op.configOf ops).getD s.config).pattern patterns) } := by
  obtain ⟨u, hu, hall, k, ru⟩ := performs_all hops r hidle hopen
  obtain ⟨t, ht, hmade⟩ := performs_logger hall.idle hall.opened ((hall.lock name).trans hnew)
  obtain ⟨k', rt⟩ := ht.reach ru
  obtain ⟨id, hlock, hlevel⟩ := hmade.here
  refine ⟨t, u.patterns, hu.append ⟨t, ht, rfl⟩, hall.pushed,
    fun hnone => hall.alone (by simpa using hnone), ?_⟩
  rw [settings_of_lock (registry_of_run rt) hmade.idle hlock, hlevel, hall.pending name hnew,
    hmade.sinks, hmade.patterns, hall.sinks, hall.config]

/-- **A logger made before the calls ends with the settings of one made after them** if and only if
the calls are `Timeless`; the sinks are the same in any case. -/
theorem settings_timeless_iff {calls : List Op} (r : loggerManager.Reach s h)
    (hidle : s.call = none) (hopen : s.shuttingDown = false) (hnew : s.lock name = none)
    (hcalls : ∀ op ∈ calls, op.configures) :
    (∃ early, PerformsAll s (.logger name :: calls) early) ∧
    (∃ late, PerformsAll s (calls ++ [.logger name]) late) ∧
    ∀ early late, PerformsAll s (.logger name :: calls) early →
      PerformsAll s (calls ++ [.logger name]) late →
      early.settings name ≠ none ∧ late.settings name ≠ none ∧
      (early.settings name = late.settings name ↔ Timeless s name calls) := by
  obtain ⟨early, hearly, hpainted, hset⟩ := settings_early hcalls r hidle hopen hnew
  obtain ⟨late, patterns, hlate, hothers, halone, hset'⟩ := settings_late hcalls r hidle hopen hnew
  refine ⟨⟨early, hearly⟩, ⟨late, hlate⟩, fun t u ht hu => ?_⟩
  obtain rfl := ht.unique hearly
  obtain rfl := hu.unique hlate
  refine ⟨by simp [hset], by simp [hset'], ?_⟩
  rw [hset, hset', Option.some.injEq, Settings.mk.injEq, and_iff_right rfl, level_agrees_iff]
  constructor
  · rintro ⟨hlevel, hpatterns⟩
    exact ⟨hlevel,
      fun _ _ _ hl hafter => (added_agree_iff hl hpainted hafter).mp hpatterns,
      fun _ _ _ hl hlater => (kept_agree_iff hl hpainted hothers halone hlater).mp hpatterns⟩
  · intro hT
    refine ⟨hT.level, ?_⟩
    by_cases hnone : last Op.patternOf (.init s.config :: calls) = none
    · rw [patterns_agree_of_none hnone hpainted hothers halone]
    · obtain ⟨before, op, after, hl⟩ := exists_last hnone
      cases op with
      | init config =>
        by_cases hafter : ∀ op ∈ after, op.configOf = none
        · exact (added_agree_iff hl hpainted hafter).mpr (hT.added before config after hl hafter)
        · have hlater : ∃ op ∈ after, op.configOf ≠ none := by simpa using hafter
          exact (kept_agree_iff hl hpainted hothers halone hlater).mpr
            (hT.kept before config after hl hlater)
      | _ => exact absurd rfl hl.here

/-- Without `init` and without a pattern there is nothing that could differ. -/
theorem timeless_of_no_init {calls : List Op} (hcalls : ∀ op ∈ calls, op.configOf = none)
    (hconfig : s.config.pattern = none) : Timeless s name calls := by
  have hnone : ∀ before config after,
      ¬ Last Op.patternOf (.init s.config :: calls) before (.init config) after := by
    intro before config after hl
    have hall : ∀ op ∈ Op.init s.config :: calls, op.patternOf = none :=
      List.forall_mem_cons.mpr ⟨hconfig, fun op hop => by simp [Op.patternOf, hcalls op hop]⟩
    exact hl.here (hall _ (by rw [hl.split]; simp))
  refine ⟨fun before config after level hl _ => ?_, fun before config after hl => ?_,
    fun before config after hl => ?_⟩
  · exact absurd (hcalls (.init config) (by rw [hl.split]; simp)) (by simp [Op.configOf])
  · exact absurd hl (hnone before config after)
  · exact absurd hl (hnone before config after)

/-- A level and a sink are set. -/
theorem settings_timeless_iff_debug : ∃ early late,
    PerformsAll {} [.logger "core", .addSink (some 7), .setLevel "core" .debug] early ∧
    PerformsAll {} [.addSink (some 7), .setLevel "core" .debug, .logger "core"] late ∧
    early.settings "core" = late.settings "core" := by
  have hcalls : ∀ op ∈ [.addSink (some 7), .setLevel "core" .debug], Op.configures op := by decide
  obtain ⟨⟨early, hearly⟩, ⟨late, hlate⟩, hiff⟩ :=
    settings_timeless_iff .refl rfl rfl (rfl : Process.lock {} "core" = none) hcalls
  exact ⟨early, late, hearly, hlate, (hiff early late hearly hlate).2.2.mpr
    (timeless_of_no_init (by decide) rfl)⟩

instance (s : Process) (x : Act) : Decidable (Alone s x) := inferInstanceAs (Decidable (_ = _))

/-- Runs calls, each with its number of steps. -/
def exec (s : Process) : List (Op × ℕ) → Option Process
  | [] => some s
  | (op, steps) :: ops =>
    (s.step (.call op)).bind fun q =>
      (loggerManager.execIn Alone q.1 (List.replicate steps .proceed)).bind fun q =>
        if q.1.call = none then exec q.1 ops else none

theorem performsAll_of_exec {ops : List (Op × ℕ)} (hs : exec s ops = some t) :
    PerformsAll s (ops.map Prod.fst) t := by
  induction ops generalizing s with
  | nil => exact Option.some.inj hs
  | cons p ops ih =>
    obtain ⟨op, steps⟩ := p
    obtain ⟨⟨u, e⟩, hu, hs⟩ := Option.bind_eq_some_iff.mp hs
    obtain ⟨⟨v, k⟩, hv, hs⟩ := Option.bind_eq_some_iff.mp hs
    obtain ⟨hidle, hs⟩ := Option.ite_none_right_eq_some.mp hs
    exact ⟨v, ⟨u, e, k, hu, Machine.steps_of_execIn hv, hidle⟩, ih hs⟩

/-- `init` comes when the level of `set_level` is pending. -/
theorem override_outlives_init : ¬ ∀ s h name calls early late, loggerManager.Reach s h →
    s.call = none → s.shuttingDown = false → s.lock name = none →
    (∀ op ∈ calls, op.configures) → PerformsAll s (.logger name :: calls) early →
    PerformsAll s (calls ++ [.logger name]) late →
    early.settings name = late.settings name := by
  intro hall
  obtain ⟨early, he, hearly⟩ : ∃ t ∈ exec {} [(.logger "core", 2), (.setLevel "core" .debug, 5),
      (.init {}, 5)], t.settings "core" = some ⟨.info, [], []⟩ := by decide +kernel
  obtain ⟨late, hl, hlate⟩ : ∃ t ∈ exec {} [(.setLevel "core" .debug, 3), (.init {}, 2),
      (.logger "core", 2)], t.settings "core" = some ⟨.debug, [], []⟩ := by decide +kernel
  have heq := hall {} [] "core" [.setLevel "core" .debug, .init {}] early late .refl rfl rfl rfl
    (by decide) (performsAll_of_exec he) (performsAll_of_exec hl)
  rw [hearly, hlate] at heq
  exact absurd heq (by decide)

end Zurg.Logging
