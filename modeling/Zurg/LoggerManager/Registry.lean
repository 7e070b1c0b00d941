import Zurg.LoggerManager

/-!
# Zurg.LoggerManager.Registry — the logger registry

Of the loggers made since the last `shutdown`, those that are alive are registered, each under its
name, whatever the order of calls, releases and deleters (`registry_of_reach`).  While `add_sink` is
under way the loggers it has still to visit lack its sink (`Process.owed`).
-/

namespace Zurg.Logging

open Lib

/-! ## Maps -/

section Map

variable {α β : Type} [DecidableEq α] {l : AList fun _ : α => β} {a b : α} {x v : β}

theorem lookup_erase_eq_some :
    (l.erase a).lookup b = some x ↔ b ≠ a ∧ l.lookup b = some x := by
  by_cases hb : b = a
  · subst hb
    simp [AList.lookup_erase]
  · rw [AList.lookup_erase_ne hb, and_iff_right hb]

theorem lookup_insert_eq_some :
    (l.insert a v).lookup b = some x ↔ b = a ∧ x = v ∨ b ≠ a ∧ l.lookup b = some x := by
  by_cases hb : b = a
  · subst hb
    simp [AList.lookup_insert, eq_comm]
  · simp [AList.lookup_insert_ne hb, hb]

theorem mem_keys_of_lookup (h : l.lookup a = some x) : a ∈ l.keys :=
  AList.mem_keys.mp (AList.lookup_isSome.mp (by rw [h]; rfl))

end Map

/-- The entries to be looked up. -/
def Pc.rest : Pc → List String
  | .cleaning _ | .dropping _ => []
  | .visiting rest | .holding _ rest | .deleting _ rest => rest

/-- The logger of a name has still to be visited. -/
def Pc.toCome (name : String) : Pc → Bool
  | .cleaning _ => true
  | pc => name ∈ pc.rest

section

variable {name : String} {id : ℕ} {rest : List String}

@[simp] theorem Pc.toCome_visiting : (visiting rest).toCome name = decide (name ∈ rest) := rfl

@[simp] theorem Pc.toCome_holding : (holding id rest).toCome name = decide (name ∈ rest) := rfl

@[simp] theorem Pc.toCome_deleting : (deleting id rest).toCome name = decide (name ∈ rest) := rfl

end

/-- The sinks that a call adds to each logger. -/
def Op.added : Op → List ℕ
  | .addSink sink => sink.toList
  | _ => []

/-- The sinks that a call has still to add to the logger of a name. -/
def Call.owed (c : Call) (name : String) : List ℕ :=
  if c.pc.toCome name then c.op.added else []

namespace Process

variable (s : Process)

def owed (name : String) : List ℕ :=
  match s.call with
  | some c => c.owed name
  | none => []

/-- The deleter of a logger is in `remove_logger_internal`. -/
def Deletes (id : ℕ) : Prop :=
  ∃ c name, s.call = some c ∧ c.op = .removeLoggerInternal name id

/-- `add_sink` is under way. -/
def AddingSink : Prop := ∃ c sink, s.call = some c ∧ c.op = .addSink sink

end Process

structure Registry (s : Process) (h : List Event) : Prop where
  made : ∀ name id, .made name id ∈ h → id < s.made ∧ (s.heap id).name = name
  alive : ∀ id, s.Alive id → id < s.made
  registered : ∀ name id, s.loggers.lookup name = some id → Since .shutDown h (.made name id)
  live : ∀ name id, Since .shutDown h (.made name id) → s.Alive id →
    s.loggers.lookup name = some id
  returned : ∀ name id, Since .shutDown h (.returned name (some id)) →
    Since .shutDown h (.made name id)
  sinks : ∀ name id, s.loggers.lookup name = some id → s.Alive id →
    (s.heap id).sinks ++ s.owed name = s.sinks
  pending : ∀ name id, s.loggers.lookup name = some id → s.Alive id →
    s.pendingLevels.lookup name = none
  dead : ∀ id, id ∈ s.expired ∨ s.Deletes id → id < s.made ∧ ¬ s.Alive id
  nodup : ∀ c, s.call = some c → c.pc.rest.Nodup
  closed : s.shuttingDown = true → ∀ name id, ¬ Since .shutDown h (.made name id)
  opened : ∀ c name, s.call = some c → c.op = .logger name → s.shuttingDown = false

/-- What a step from a state that satisfies `Registry` does. -/
structure Next (s t : Process) (h e : List Event) : Prop where
  registry : Registry t (h ++ e)
  kept : .shutDown ∉ e → ∀ name id, s.loggers.lookup name = some id → s.Alive id →
    t.loggers.lookup name = some id
  same : ∀ name id r, .returned name r ∈ e → Since .shutDown h (.returned name (some id)) →
    s.Alive id → r = some id

variable {s t : Process} {h e : List Event} {c : Call} {name : String} {id : ℕ}

theorem registry_init : Registry {} [] where
  made := by simp
  alive := by simp [Process.Alive, Process.held]
  registered := by simp
  live := by simp
  returned := by simp
  sinks := by simp
  pending := by simp
  dead := by simp [Process.Deletes]
  nodup := by simp
  closed := by simp
  opened := by simp

namespace Process

theorem lock_eq_some : s.lock name = some id ↔ s.loggers.lookup name = some id ∧ s.Alive id := by
  simp [lock, Option.filter_eq_some_iff]

theorem lock_eq_none :
    s.lock name = none ↔ ∀ id, s.loggers.lookup name = some id → ¬ s.Alive id := by
  simp [lock, Option.filter_eq_none_iff]

theorem held_of_call (hc : s.call = some c) : s.held = c.pc.temp := by simp [held, hc]

theorem held_of_idle (hc : s.call = none) : s.held = none := by simp [held, hc]

theorem owed_of_call (hc : s.call = some c) (name : String) : s.owed name = c.owed name := by
  simp [owed, hc]

theorem owed_of_idle (hc : s.call = none) (name : String) : s.owed name = [] := by
  simp [owed, hc]

theorem owed_eq_nil (s : Process) (hadd : ¬ s.AddingSink) (name : String) : s.owed name = [] := by
  unfold owed
  split
  · next c hc =>
    unfold Call.owed
    cases hop : c.op with
    | addSink sink => exact absurd ⟨c, sink, hc, hop⟩ hadd
    | _ => simp [Op.added]
  · rfl

end Process

namespace Registry

/-- Two names never share a logger. -/
theorem lookup_inj (hI : Registry s h) {name' : String} (h₁ : s.loggers.lookup name = some id)
    (h₂ : s.loggers.lookup name' = some id) : name = name' := by
  rw [← (hI.made name id (hI.registered name id h₁).mem).2]
  exact (hI.made name' id (hI.registered name' id h₂).mem).2

/-- A step that makes no logger and unregisters no live one. -/
theorem move (hI : Registry s h)
    (hmade : t.made = s.made) (hname : ∀ id, (t.heap id).name = (s.heap id).name)
    (halive : ∀ id, t.Alive id → s.Alive id)
    (hloggers : ∀ name id, t.loggers.lookup name = some id → s.loggers.lookup name = some id)
    (hkeep : ∀ name id, s.loggers.lookup name = some id → s.Alive id →
      t.loggers.lookup name = some id)
    (hsinks : ∀ name id, t.loggers.lookup name = some id → s.loggers.lookup name = some id →
      s.Alive id → (s.heap id).sinks ++ s.owed name = s.sinks →
      (t.heap id).sinks ++ t.owed name = t.sinks)
    (hpending : ∀ name id, s.loggers.lookup name = some id → s.Alive id →
      s.pendingLevels.lookup name = none → t.pendingLevels.lookup name = none)
    (hdead : ∀ id, id ∈ t.expired ∨ t.Deletes id →
      (id ∈ s.expired ∨ s.Deletes id) ∨ s.Alive id ∧ ¬ t.Alive id)
    (hnodup : ∀ c, t.call = some c → c.pc.rest.Nodup)
    (hclosed : t.shuttingDown = true → s.shuttingDown = true)
    (hopened : ∀ c name, t.call = some c → c.op = .logger name → t.shuttingDown = false)
    (he : .shutDown ∉ e ∧ ∀ name id, .made name id ∉ e)
    (hret : ∀ name r, .returned name r ∈ e →
      r = none ∧ s.shuttingDown = true ∨ ∃ id, r = some id ∧ s.loggers.lookup name = some id) :
    Next s t h e := by
  have hsince : ∀ {name id}, Since .shutDown (h ++ e) (.made name id) ↔
      Since .shutDown h (.made name id) := Since.append_iff_of_not_mem he.1 (he.2 _ _)
  refine
    { registry :=
        { made := ?made
          alive := fun id ha => hmade ▸ hI.alive id (halive id ha)
          registered := fun name id hl => hsince.mpr (hI.registered name id (hloggers name id hl))
          live := ?live
          returned := ?returned
          sinks := ?sinks
          pending := ?pending
          dead := ?dead
          nodup := hnodup
          closed := fun hsd name id hs => hI.closed (hclosed hsd) name id (hsince.mp hs)
          opened := hopened }
      kept := fun _ => hkeep
      same := ?same }
  case made =>
    intro name id hm
    rw [hmade, hname]
    exact hI.made name id ((List.mem_append.mp hm).resolve_right (he.2 name id))
  case live =>
    intro name id hs ha
    have ha := halive id ha
    exact hkeep name id (hI.live name id (hsince.mp hs) ha) ha
  case returned =>
    intro name id hr
    rw [hsince]
    rcases Since.append_iff.mp hr with hr | hr
    · obtain ⟨hnone, -⟩ | ⟨i, hi, hl⟩ := hret name _ hr.mem
      · exact nomatch hnone
      · obtain rfl := Option.some.inj hi
        exact hI.registered name id hl
    · exact hI.returned name id hr.1
  case sinks =>
    intro name id hl ha
    have hl' := hloggers name id hl
    have ha' := halive id ha
    exact hsinks name id hl hl' ha' (hI.sinks name id hl' ha')
  case pending =>
    intro name id hl ha
    have hl' := hloggers name id hl
    have ha' := halive id ha
    exact hpending name id hl' ha' (hI.pending name id hl' ha')
  case dead =>
    intro id hd
    rw [hmade]
    rcases hdead id hd with hd | ⟨ha, hna⟩
    · exact ⟨(hI.dead id hd).1, fun ha => (hI.dead id hd).2 (halive id ha)⟩
    · exact ⟨hI.alive id ha, hna⟩
  case same =>
    intro name id r hr hs ha
    have hs := hI.returned name id hs
    obtain ⟨-, hsd⟩ | ⟨i, rfl, hl⟩ := hret name r hr
    · exact absurd hs (hI.closed hsd name id)
    · exact hl.symm.trans (hI.live name id hs ha)

/-- A step within a call. -/
theorem within (hI : Registry s h) (hc : s.call = some c) {u : Process} {pc : Pc}
    {out : List LoggerInfo}
    (hu : (u.made, u.refs, u.expired, u.shuttingDown) =
      (s.made, s.refs, s.expired, s.shuttingDown))
    (hname : ∀ id, (u.heap id).name = (s.heap id).name)
    (htemp : ∀ id, pc.temp = some id → s.Alive id)
    (hloggers : ∀ name id, u.loggers.lookup name = some id → s.loggers.lookup name = some id)
    (hkeep : ∀ name id, s.loggers.lookup name = some id → s.Alive id →
      u.loggers.lookup name = some id)
    (hsinks : ∀ name id, s.loggers.lookup name = some id → s.Alive id →
      (s.heap id).sinks ++ c.owed name = s.sinks →
      (u.heap id).sinks ++ Call.owed ⟨c.op, pc, out⟩ name = u.sinks)
    (hpending : ∀ name id, s.loggers.lookup name = some id → s.Alive id →
      s.pendingLevels.lookup name = none → u.pendingLevels.lookup name = none)
    (hnodup : pc.rest.Nodup) : Next s (u.goto { c with out } pc) h [] := by
  simp only [Prod.mk.injEq] at hu
  obtain ⟨hmade, hrefs, hexpired, hsd⟩ := hu
  refine hI.move hmade hname (fun id ha => ?_) hloggers hkeep (fun name id _ hl ha hs => ?_)
    hpending (fun id hd => .inl ?_) (fun c' hc' => ?_) (fun hsd' => hsd ▸ hsd')
    (fun c' name hc' hop => ?_) (by simp) (by simp)
  · rcases ha with ha | ha
    · exact .inl (hrefs ▸ ha)
    · exact htemp id ha
  · exact hsinks name id hl ha (by rwa [Process.owed_of_call hc] at hs)
  · refine hd.imp (fun hd => hexpired ▸ hd) ?_
    rintro ⟨c', name, hc', hop⟩
    obtain rfl := Option.some.inj hc'
    exact ⟨c, name, hc, hop⟩
  · obtain rfl := Option.some.inj hc'
    exact hnodup
  · obtain rfl := Option.some.inj hc'
    exact hsd.trans (hI.opened c name hc hop)

end Registry

/-! ## The steps of a call -/

namespace Process

theorem entries_nodup (s : Process) (op : Op) : (s.entries op).Nodup := by
  cases op with
  | logger | setLevel | removeLoggerInternal => exact List.nodup_singleton _
  | init | addSink | listLoggers => exact s.loggers.keys_nodup
  | shutdown => exact List.nodup_nil

/-- What is done with an entry whose logger is gone changes nothing else. -/
structure OnlyEntry (s u : Process) (name : String) : Prop where
  same : u = { s with loggers := u.loggers, pendingLevels := u.pendingLevels }
  other : ∀ name' ≠ name, u.loggers.lookup name' = s.loggers.lookup name' ∧
    u.pendingLevels.lookup name' = s.pendingLevels.lookup name'
  here : ∀ id, u.loggers.lookup name = some id → s.loggers.lookup name = some id

theorem onlyEntry_self (s : Process) (name : String) : s.OnlyEntry s name :=
  ⟨rfl, fun _ _ => ⟨rfl, rfl⟩, fun _ => id⟩

theorem onlyEntry_erase (s : Process) (name : String) : s.OnlyEntry (s.erase name) name :=
  ⟨rfl, fun _ hne => ⟨AList.lookup_erase_ne hne, rfl⟩,
    fun _ hl => (lookup_erase_eq_some.mp hl).2⟩

theorem onlyEntry_onExpired (s : Process) (c : Call) (name : String) :
    s.OnlyEntry (s.onExpired c name).1 name := by
  unfold onExpired
  split
  · exact ⟨rfl, fun _ hne => ⟨rfl, AList.lookup_insert_ne hne⟩, fun _ => id⟩
  · exact s.onlyEntry_self name
  · exact s.onlyEntry_erase name
  all_goals exact s.onlyEntry_self name

/-- What is done with a live logger is to set its level and the pattern of its sinks, or to add a
sink. -/
theorem onLive_eq (s : Process) (c : Call) (name : String)
    (hptr : ∀ name', c.op ≠ .removeLoggerInternal name' id) :
    ∃ heap patterns, (s.onLive c name id).1 = { s with heap, patterns } ∧
      ∀ i, (heap i).name = (s.heap i).name ∧
        (heap i).sinks = (s.heap i).sinks ++ if i = id then c.op.added else [] := by
  have hkept : ∀ i, (s.heap i).sinks = (s.heap i).sinks ++ if i = id then [] else [] := by simp
  unfold onLive
  cases hop : c.op with
  | removeLoggerInternal name' ptr =>
    have hne : id ≠ ptr := fun hid => hptr name' (hid ▸ hop)
    exact ⟨s.heap, s.patterns, by simp [hne], fun i => ⟨rfl, hkept i⟩⟩
  | logger _ => exact ⟨s.heap, s.patterns, rfl, fun i => ⟨rfl, hkept i⟩⟩
  | listLoggers | shutdown => exact ⟨s.heap, s.patterns, rfl, fun i => ⟨rfl, hkept i⟩⟩
  | _ =>
    refine ⟨_, _, rfl, fun i => ?_⟩
    by_cases hi : i = id
    · subst hi
      simp [Op.added, modify]
    · simp [modify, hi]

end Process

namespace Registry

variable {rest : List String} {pc : Pc} {out : List LoggerInfo}

theorem owed_of_ne (hpc : c.pc = .visiting (name :: rest))
    (hto : ∀ n, pc.toCome n = decide (n ∈ rest)) {name' : String} (hne : name' ≠ name) :
    Call.owed ⟨c.op, pc, out⟩ name' = c.owed name' := by
  simp [Call.owed, hpc, hto, hne]

/-- An entry whose logger is gone is passed over. -/
theorem onlyEntry (hI : Registry s h) (hc : s.call = some c) {u : Process}
    (hu : s.OnlyEntry u name) (hgone : s.lock name = none)
    (howed : ∀ name' ≠ name, Call.owed ⟨c.op, pc, out⟩ name' = c.owed name')
    (htemp : pc.temp = none) (hnodup : pc.rest.Nodup) :
    Next s (u.goto { c with out } pc) h [] := by
  have hne : ∀ {name' id}, s.loggers.lookup name' = some id → s.Alive id → name' ≠ name := by
    rintro name' id hl ha rfl
    exact Process.lock_eq_none.mp hgone id hl ha
  refine hI.within hc (by rw [hu.same]) (fun id => by rw [hu.same]) (by simp [htemp])
    (fun name' id hl => ?_) (fun name' id hl ha => ?_) (fun name' id hl ha hs => ?_)
    (fun name' id hl ha hp => ?_) hnodup
  · by_cases hname : name' = name
    · subst hname
      exact hu.here id hl
    · rwa [(hu.other name' hname).1] at hl
  · rwa [(hu.other name' (hne hl ha)).1]
  · rw [howed name' (hne hl ha), hu.same]
    exact hs
  · rwa [(hu.other name' (hne hl ha)).2]

/-- A live logger is visited. -/
theorem onLive (hI : Registry s h) (hc : s.call = some c) (hpc : c.pc = .visiting (name :: rest))
    (hlock : s.lock name = some id) :
    Next s ((s.onLive c name id).1.goto { c with out } (.holding id rest)) h [] := by
  obtain ⟨hl, ha⟩ := Process.lock_eq_some.mp hlock
  have hnodup : (name :: rest).Nodup := by simpa [hpc, Pc.rest] using hI.nodup c hc
  obtain ⟨heap, patterns, hu, hheap⟩ := Process.onLive_eq s c name fun name' hop =>
    (hI.dead id (.inr ⟨c, name', hc, hop⟩)).2 ha
  rw [hu]
  refine hI.within hc rfl (fun i => (hheap i).1) (fun i hi => ?_) (fun _ _ hl => hl)
    (fun _ _ hl _ => hl) (fun name' id' hl' _ hs => ?_) (fun _ _ _ _ hp => hp)
    (List.nodup_cons.mp hnodup).2
  · obtain rfl := Option.some.inj hi
    exact ha
  · rw [(hheap id').2]
    by_cases hname : name' = name
    · subst hname
      obtain rfl := Option.some.inj (hl.symm.trans hl')
      have hnot : name' ∉ rest := (List.nodup_cons.mp hnodup).1
      simpa [Call.owed, hpc, hnot] using hs
    · have hid : id' ≠ id := by
        rintro rfl
        exact hname (hI.lookup_inj hl' hl)
      rwa [if_neg hid, List.append_nil, owed_of_ne hpc (fun _ => rfl) hname]

/-- A call returns, having added its sink to every logger. -/
theorem leave (hI : Registry s h) (hc : s.call = some c) (howed : ∀ name, c.owed name = [])
    {refs : List ℕ} (hrefs : ∀ id ∈ refs, s.Alive id)
    (he : .shutDown ∉ e ∧ ∀ name id, .made name id ∉ e)
    (hret : ∀ name r, .returned name r ∈ e → ∃ id, r = some id ∧ s.loggers.lookup name = some id) :
    Next s { s with refs, call := none } h e := by
  refine hI.move rfl (fun _ => rfl) (fun id ha => ?_) (fun _ _ hl => hl) (fun _ _ hl _ => hl)
    (fun name id _ hl ha hs => ?_) (fun _ _ _ _ hp => hp) (fun id hd => ?_)
    (fun _ hc' => nomatch hc') (fun hsd => hsd) (fun _ _ hc' => nomatch hc') he
    fun name r hr => .inr (hret name r hr)
  · exact ha.elim (hrefs id) nofun
  · rwa [Process.owed_of_call hc, howed] at hs
  · refine hd.imp .inl ?_
    rintro ⟨c', name, hc', -⟩
    exact nomatch hc'

/-- `logger` makes a logger: there is none of that name. -/
theorem new (hI : Registry s h) (hc : s.call = some c) (hop : c.op = .logger name)
    (hlock : s.lock name = none) {l : Logger} (hname : l.name = name)
    (hsinks : l.sinks = s.sinks) {patterns : ℕ → Option String} :
    Next s { s with
      heap := Function.update s.heap s.made l
      patterns
      made := s.made + 1
      loggers := s.loggers.insert name s.made
      pendingLevels := s.pendingLevels.erase name
      refs := s.made :: s.refs
      call := none } h [.made name s.made, .returned name (some s.made)] := by
  have hsince : ∀ {n i}, Since .shutDown (h ++ [.made name s.made, .returned name (some s.made)])
      (.made n i) ↔ n = name ∧ i = s.made ∨ Since .shutDown h (.made n i) := by
    intro n i
    simp [Since.append_iff, Since.cons_iff, eq_comm]
  have hfresh : ∀ {n i}, .made n i ∈ h → i ≠ s.made := fun hm =>
    Nat.ne_of_lt (hI.made _ _ hm).1
  have hbound : ∀ {i}, s.Alive i → i ≠ s.made := fun ha => Nat.ne_of_lt (hI.alive _ ha)
  have hold : ∀ {n i}, s.loggers.lookup n = some i → i ≠ s.made := fun hl =>
    hfresh (hI.registered _ _ hl).mem
  have hother : ∀ {n i}, s.loggers.lookup n = some i → s.Alive i → n ≠ name := by
    rintro n i hl ha rfl
    exact Process.lock_eq_none.mp hlock i hl ha
  -- who is alive now was alive, or is the new one
  have halive : ∀ {i}, i ∈ s.made :: s.refs ∨ none = some i → i = s.made ∨ s.Alive i := fun ha =>
    (List.mem_cons.mp (ha.resolve_right nofun)).imp_right .inl
  refine
    { registry :=
        { made := ?made
          alive := ?alive
          registered := ?registered
          live := ?live
          returned := ?returned
          sinks := ?sinks
          pending := ?pending
          dead := ?dead
          nodup := fun _ hc' => nomatch hc'
          closed := ?closed
          opened := fun _ _ hc' => nomatch hc' }
      kept := ?kept
      same := ?same }
  case made =>
    intro n i hm
    rcases List.mem_append.mp hm with hm | hm
    · obtain ⟨hlt, hn⟩ := hI.made n i hm
      exact ⟨Nat.lt_succ_of_lt hlt, by simpa [Function.update_of_ne (hfresh hm)] using hn⟩
    · obtain ⟨rfl, rfl⟩ : n = name ∧ i = s.made := by simpa using hm
      exact ⟨Nat.lt_succ_self _, by simpa using hname⟩
  case alive =>
    intro i ha
    rcases halive ha with rfl | ha
    · exact Nat.lt_succ_self _
    · exact Nat.lt_succ_of_lt (hI.alive i ha)
  case registered =>
    intro n i hl
    rw [hsince]
    exact (lookup_insert_eq_some.mp hl).imp_right fun hl => hI.registered n i hl.2
  case live =>
    intro n i hs ha
    rcases hsince.mp hs with ⟨rfl, rfl⟩ | hs
    · exact AList.lookup_insert _
    · have ha := (halive ha).resolve_left (hfresh hs.mem)
      have hl := hI.live n i hs ha
      exact lookup_insert_eq_some.mpr (.inr ⟨hother hl ha, hl⟩)
  case returned =>
    intro n i hr
    have hr : (n = name ∧ i = s.made) ∨ Since .shutDown h (.returned n (some i)) := by
      simpa [Since.append_iff, Since.cons_iff, eq_comm] using hr
    rw [hsince]
    exact hr.imp_right (hI.returned n i)
  case sinks =>
    intro n i hl ha
    rcases lookup_insert_eq_some.mp hl with ⟨rfl, rfl⟩ | ⟨-, hl⟩
    · simp [Process.owed, hsinks]
    · have ha := (halive ha).resolve_left (hold hl)
      have hs := hI.sinks n i hl ha
      rw [Process.owed_of_call hc] at hs
      simpa [Process.owed, Function.update_of_ne (hold hl), Call.owed, hop, Op.added] using hs
  case pending =>
    intro n i hl ha
    rcases lookup_insert_eq_some.mp hl with ⟨rfl, rfl⟩ | ⟨hne, hl⟩
    · exact AList.lookup_erase _ _
    · have ha := (halive ha).resolve_left (hold hl)
      exact (AList.lookup_erase_ne hne).trans (hI.pending n i hl ha)
  case dead =>
    intro i hd
    have hd : i ∈ s.expired := hd.resolve_right fun ⟨c', n, hc', _⟩ => nomatch hc'
    obtain ⟨hlt, hna⟩ := hI.dead i (.inl hd)
    exact ⟨Nat.lt_succ_of_lt hlt, fun ha => (halive ha).elim (Nat.ne_of_lt hlt) hna⟩
  case closed =>
    intro hsd
    exact nomatch hsd.symm.trans (hI.opened c name hc hop)
  case kept =>
    intro _ n i hl ha
    exact lookup_insert_eq_some.mpr (.inr ⟨hother hl ha, hl⟩)
  case same =>
    intro n i r hr hs ha
    obtain ⟨rfl, rfl⟩ : n = name ∧ r = some s.made := by simpa using hr
    exact absurd rfl (hother (hI.live n i (hI.returned n i hs) ha) ha)

theorem makeLoggerLocked (hI : Registry s h) (hc : s.call = some c) (hop : c.op = .logger name) :
    Next s (s.makeLoggerLocked name).1 h (s.makeLoggerLocked name).2 := by
  unfold Process.makeLoggerLocked
  cases hlock : s.lock name with
  | some existing =>
    obtain ⟨hl, ha⟩ := Process.lock_eq_some.mp hlock
    refine hI.leave hc (fun n => ?_) (fun id hid => ?_) (by simp) (fun n r hr => ?_)
    · simp [Call.owed, hop, Op.added]
    · rcases List.mem_cons.mp hid with rfl | hid
      · exact ha
      · exact .inl hid
    · obtain ⟨rfl, rfl⟩ : n = name ∧ r = some existing := by simpa using hr
      exact ⟨existing, rfl, hl⟩
  | none => exact hI.new hc hop hlock rfl rfl

theorem lookUp (hI : Registry s h) (hc : s.call = some c) (hpc : c.pc = .visiting (name :: rest)) :
    Next s (s.lookUp c name rest) h [] := by
  unfold Process.lookUp
  cases hlock : s.lock name with
  | some id => exact hI.onLive hc hpc hlock
  | none =>
    have hnodup : (name :: rest).Nodup := by simpa [hpc, Pc.rest] using hI.nodup c hc
    exact hI.onlyEntry hc (s.onlyEntry_onExpired c name) hlock
      (fun _ hne => owed_of_ne hpc (fun _ => rfl) hne) rfl (List.nodup_cons.mp hnodup).2

theorem visit (hI : Registry s h) (hc : s.call = some c) (hpc : c.pc = .visiting (name :: rest)) :
    Next s (s.visit c name rest).1 h (s.visit c name rest).2 := by
  unfold Process.visit
  split
  · next name' hop => exact hI.makeLoggerLocked hc hop
  · exact hI.lookUp hc hpc

/-- `spdlog::shutdown` destroys a reference. -/
theorem drop (hI : Registry s h) (hc : s.call = some c) {l : List ℕ}
    (hpc : c.pc = .dropping (id :: l)) {pc : Pc}
    (hpc' : pc.temp = none ∧ pc.rest = [] ∧ ∀ name, pc.toCome name = false) :
    Next s (({ s with refs := s.refs.erase id, registered := l } : Process).goto c pc) h [] := by
  refine hI.move rfl (fun _ => rfl) (fun i ha => ?_) (fun _ _ hl => hl) (fun _ _ hl _ => hl)
    (fun name i _ _ _ hs => ?_) (fun _ _ _ _ hp => hp) (fun i hd => .inl ?_) (fun c' hc' => ?_)
    (fun hsd => hsd) (fun c' name hc' hop => ?_) (by simp) (by simp)
  · refine .inl (List.mem_of_mem_erase (ha.resolve_right fun hheld => ?_))
    rw [Process.held_of_call rfl, hpc'.1] at hheld
    exact nomatch hheld
  · have howed : c.owed name = [] := by simp [Call.owed, hpc, Pc.toCome, Pc.rest]
    have howed' : Call.owed { c with pc } name = [] := by
      simp only [Call.owed, hpc'.2.2]
      rfl
    rw [Process.owed_of_call hc, howed] at hs
    rw [Process.owed_of_call rfl, howed']
    exact hs
  · refine hd.imp_right ?_
    rintro ⟨c', name, hc', hop⟩
    obtain rfl := Option.some.inj hc'
    exact ⟨c, name, hc, hop⟩
  · obtain rfl := Option.some.inj hc'
    exact hpc'.2.1 ▸ List.nodup_nil
  · obtain rfl := Option.some.inj hc'
    exact hI.opened c name hc hop

/-- The next step of a call. -/
theorem proceed (hI : Registry s h) (hc : s.call = some c) (hst : s.proceed c = some (t, e)) :
    Next s t h e := by
  unfold Process.proceed at hst
  split at hst
  · -- an entry of `cleanup_expired_locked`
    next name rest hpc =>
    obtain ⟨rfl, rfl⟩ := Prod.mk.inj (Option.some.inj hst)
    unfold Process.cleanupExpired
    cases hlock : s.lock name with
    | some id =>
      exact hI.within hc rfl (fun _ => rfl) nofun (fun _ _ hl => hl) (fun _ _ hl _ => hl)
        (fun _ _ _ _ hs => by simpa [Call.owed, hpc, Pc.toCome] using hs) (fun _ _ _ _ hp => hp)
        List.nodup_nil
    | none =>
      exact hI.onlyEntry hc (s.onlyEntry_erase name) hlock
        (fun _ _ => by simp [Call.owed, hpc, Pc.toCome]) rfl List.nodup_nil
  · next hpc =>
    obtain ⟨rfl, rfl⟩ := Prod.mk.inj (Option.some.inj hst)
    refine hI.within hc rfl (fun _ => rfl) nofun (fun _ _ hl => hl) (fun _ _ hl _ => hl)
      (fun name id hl _ hs => ?_) (fun _ _ _ _ hp => hp) ?_
    · have howed : Call.owed ⟨c.op, .visiting (s.entries c.op), c.out⟩ name = c.owed name := by
        simp only [Call.owed, hpc, Pc.toCome_visiting]
        cases c.op with
        | addSink sink => simp [Process.entries, Pc.toCome, mem_keys_of_lookup hl]
        | _ => simp [Op.added]
      rwa [howed]
    · exact s.entries_nodup c.op
  · next name rest hpc =>
    obtain ⟨rfl, rfl⟩ := Prod.mk.inj (Option.some.inj hst)
    exact hI.visit hc hpc
  · next hpc =>
    obtain ⟨rfl, rfl⟩ := Prod.mk.inj (Option.some.inj hst)
    exact hI.leave hc (by simp [Call.owed, hpc]) (fun _ => .inl) (by split_ifs <;> simp)
      (by split_ifs <;> simp)
  · next id rest hpc =>
    obtain ⟨rfl, rfl⟩ := Prod.mk.inj (Option.some.inj hst)
    have hnodup : rest.Nodup := by simpa [hpc, Pc.rest] using hI.nodup c hc
    refine hI.within hc rfl (fun _ => rfl) ?_ (fun _ _ hl => hl) (fun _ _ hl _ => hl)
      (fun name id hl _ hs => ?_) (fun _ _ _ _ hp => hp) ?_
    · split_ifs <;> simp [Pc.temp]
    · split_ifs <;> simpa [Call.owed, hpc] using hs
    · split_ifs <;> exact hnodup
  · next id rest hpc =>
    obtain ⟨rfl, rfl⟩ := Prod.mk.inj (Option.some.inj hst)
    exact hI.drop hc hpc (by split_ifs <;> exact ⟨rfl, rfl, fun _ => rfl⟩)
  · next hpc =>
    obtain ⟨rfl, rfl⟩ := Prod.mk.inj (Option.some.inj hst)
    exact hI.leave hc (by simp [Call.owed, hpc, Pc.toCome, Pc.rest]) (fun _ => .inl)
      (by split_ifs <;> simp) (by split_ifs <;> simp)
  · exact nomatch hst

/-! ## The other steps -/

/-- A step that changes no more than who has references. -/
theorem references (hI : Registry s h) {refs registered expired : List ℕ}
    (halive : ∀ id, id ∈ refs ∨ s.held = some id → s.Alive id)
    (hexpired : ∀ id ∈ expired, id ∈ s.expired ∨ s.Alive id ∧ ¬ (id ∈ refs ∨ s.held = some id))
    (he : .shutDown ∉ e ∧ ∀ name id, .made name id ∉ e)
    (hret : ∀ name r, .returned name r ∈ e → r = none ∧ s.shuttingDown = true) :
    Next s { s with refs, registered, expired } h e := by
  refine hI.move rfl (fun _ => rfl) halive (fun _ _ hl => hl) (fun _ _ hl _ => hl)
    (fun _ _ _ _ _ hs => hs) (fun _ _ _ _ hp => hp) (fun id hd => ?_) hI.nodup (fun hsd => hsd)
    hI.opened he (fun name r hr => .inl (hret name r hr))
  rcases hd with hd | hd
  · exact (hexpired id hd).imp_left .inl
  · exact .inl (.inr hd)

/-- A call locks `st.mu`. -/
theorem cleaning (hI : Registry s h) (hc : s.call = none) {op : Op} {u : Process}
    (hu : (u.heap, u.made, u.refs, u.expired, u.loggers, u.pendingLevels) =
      (s.heap, s.made, s.refs, s.expired, s.loggers, s.pendingLevels))
    (hsinks : u.sinks = s.sinks ++ op.added)
    (hsd : u.shuttingDown = true → s.shuttingDown = true)
    (hlogger : ∀ name, op = .logger name → u.shuttingDown = false)
    (hop : ∀ name id, op ≠ .removeLoggerInternal name id) :
    Next s { u with call := some ⟨op, .cleaning u.loggers.keys, []⟩ } h [] := by
  simp only [Prod.mk.injEq] at hu
  obtain ⟨hheap, hmade, hrefs, hexpired, hloggers, hpending⟩ := hu
  refine hI.move hmade (fun _ => by rw [hheap]) (fun id ha => .inl ?_)
    (fun _ _ hl => hloggers ▸ hl) (fun _ _ hl _ => hloggers ▸ hl) (fun name id _ _ _ hs => ?_)
    (fun _ _ _ _ hp => hpending ▸ hp) (fun id hd => .inl (.inl ?_)) (fun c' hc' => ?_) hsd
    (fun c' name hc' hop' => ?_) (by simp) (by simp)
  · exact hrefs ▸ ha.resolve_right nofun
  · rw [Process.owed_of_idle hc, List.append_nil] at hs
    rw [hheap, hs]
    exact hsinks.symm
  · refine hexpired ▸ hd.resolve_right ?_
    rintro ⟨c', name, hc', hop'⟩
    obtain rfl := Option.some.inj hc'
    exact hop name id hop'
  · obtain rfl := Option.some.inj hc'
    exact List.nodup_nil
  · obtain rfl := Option.some.inj hc'
    exact hlogger name hop'

/-- After `shutdown` no logger counts any more. -/
theorem shutdown (hI : Registry s h) (hc : s.call = none) :
    Next s s.shutdown h [.shutDown] := by
  have hsince : ∀ {x}, x ≠ .shutDown → ¬ Since .shutDown (h ++ [.shutDown]) x := by
    intro x hx hs
    simp [Since.append_iff, Since.cons_iff, hx.symm] at hs
  have hnone : ∀ {name id}, s.shutdown.loggers.lookup name ≠ some id := by
    simp [Process.shutdown]
  have halive : ∀ id, s.shutdown.Alive id ↔ s.Alive id := by
    intro id
    simp [Process.Alive, Process.held, Process.shutdown, hc, Pc.temp]
  have hcall : ∀ c, s.shutdown.call = some c → c = ⟨.shutdown, .dropping s.registered, []⟩ :=
    fun c hc' => (Option.some.inj hc').symm
  exact
    { registry :=
        { made := fun name id hm => hI.made name id (by simpa using hm)
          alive := fun id ha => hI.alive id ((halive id).mp ha)
          registered := fun _ _ hl => absurd hl hnone
          live := fun _ _ hs => absurd hs (hsince (by simp))
          returned := fun _ _ hs => absurd hs (hsince (by simp))
          sinks := fun _ _ hl => absurd hl hnone
          pending := fun _ _ hl => absurd hl hnone
          dead := by
            rintro id (hd | ⟨c, name, hc', hop⟩)
            · have hdead := hI.dead id (.inl hd)
              exact ⟨hdead.1, fun ha => hdead.2 ((halive id).mp ha)⟩
            · rw [hcall c hc'] at hop
              exact nomatch hop
          nodup := by
            intro c hc'
            rw [hcall c hc']
            exact List.nodup_nil
          closed := fun _ _ _ => hsince (by simp)
          opened := by
            intro c name hc' hop
            rw [hcall c hc'] at hop
            exact nomatch hop }
      kept := by simp
      same := by simp }

theorem enter (hI : Registry s h) (hc : s.call = none) (op : Op) :
    Next s (s.enter op).1 h (s.enter op).2 := by
  have hsame : ∀ {e}, (.shutDown ∉ e ∧ ∀ name id, .made name id ∉ e) →
      (∀ name r, .returned name r ∈ e → r = none ∧ s.shuttingDown = true) → Next s s h e :=
    hI.references (fun _ ha => ha) (fun _ => .inl)
  have hnil : s.sinks = s.sinks ++ [] := (List.append_nil _).symm
  cases op with
  | init config => exact hI.cleaning hc rfl hnil nofun nofun nofun
  | addSink sink =>
    cases sink with
    | none => exact hsame (by simp [Process.enter]) (by simp [Process.enter])
    | some sink =>
      unfold Process.enter
      split_ifs with hsd
      · exact hsame (by simp) (by simp)
      · exact hI.cleaning hc rfl rfl (fun h => h) nofun nofun
  | logger name =>
    unfold Process.enter
    split_ifs with hsd
    · exact hsame (by simp) (by simp [hsd])
    · exact hI.cleaning hc rfl hnil (fun h => h) (fun _ _ => Bool.eq_false_iff.mpr hsd) nofun
  | setLevel name level =>
    unfold Process.enter
    split_ifs with hsd
    · exact hsame (by simp) (by simp)
    · exact hI.cleaning hc rfl hnil (fun h => h) nofun nofun
  | listLoggers => exact hI.cleaning hc rfl hnil (fun h => h) nofun nofun
  | shutdown => exact hI.shutdown hc
  | removeLoggerInternal name ptr => exact hsame (by simp [Process.enter]) (by simp [Process.enter])

theorem acquire (hI : Registry s h) (ha : s.Alive id) (registered : List ℕ) :
    Next s { s with refs := id :: s.refs, registered } h [] := by
  refine hI.references (fun i hi => ?_) (fun _ => .inl) (by simp) (by simp)
  rcases hi with hi | hi
  · rcases List.mem_cons.mp hi with rfl | hi
    · exact ha
    · exact .inl hi
  · exact .inr hi

/-- A reference is destroyed, by a user or by spdlog's registry. -/
theorem release (hI : Registry s h) (hid : id ∈ s.refs) (registered : List ℕ) :
    Next s (({ s with registered } : Process).release id) h [] := by
  have halive : ∀ i, i ∈ s.refs.erase id ∨ s.held = some i → s.Alive i := fun i hi =>
    hi.imp_left List.mem_of_mem_erase
  unfold Process.release
  dsimp only
  split_ifs with ha
  · exact hI.references halive (fun _ => .inl) (by simp) (by simp)
  · refine hI.references halive (fun i hi => ?_) (by simp) (by simp)
    rcases List.mem_cons.mp hi with rfl | hi
    · exact .inr ⟨.inl hid, ha⟩
    · exact .inl hi

/-- The patterns of sinks do not matter to the registry. -/
theorem patterns (hI : Registry s h) (patterns : ℕ → Option String) :
    Next s { s with patterns } h [] :=
  hI.move rfl (fun _ => rfl) (fun _ ha => ha) (fun _ _ hl => hl) (fun _ _ hl _ => hl)
    (fun _ _ _ _ _ hs => hs) (fun _ _ _ _ hp => hp) (fun _ hd => .inl hd) hI.nodup
    (fun hsd => hsd) hI.opened (by simp) (by simp)

theorem delete (hI : Registry s h) (hc : s.call = none) (hid : id ∈ s.expired) :
    Next s (s.delete id) h [] := by
  refine hI.move rfl (fun _ => rfl) (fun i hi => .inl (hi.resolve_right nofun)) (fun _ _ hl => hl)
    (fun _ _ hl _ => hl) (fun name i _ _ _ hs => ?_) (fun _ _ _ _ hp => hp)
    (fun i hd => .inl (.inl ?_)) (fun c' hc' => ?_) (fun hsd => hsd) (fun c' name hc' hop => ?_)
    (by simp) (by simp)
  · rw [Process.owed_of_idle hc] at hs
    simpa [Process.owed, Process.delete, Call.owed, Op.added] using hs
  · rcases hd with hd | ⟨c', name, hc', hop⟩
    · exact List.mem_of_mem_erase hd
    · obtain rfl := Option.some.inj hc'
      obtain ⟨-, rfl⟩ := Op.removeLoggerInternal.inj hop
      exact hid
  · obtain rfl := Option.some.inj hc'
    exact List.nodup_singleton _
  · obtain rfl := Option.some.inj hc'
    exact nomatch hop

theorem step {x : Act} (hI : Registry s h) (hst : s.step x = some (t, e)) :
    Next s t h e := by
  cases x with
  | call op =>
    simp only [Process.step, Option.ite_none_right_eq_some, Option.some.injEq] at hst
    obtain ⟨hc, hst⟩ := hst
    have hnext := hI.enter hc op
    rwa [hst] at hnext
  | proceed =>
    obtain ⟨c, hc, hst⟩ := Option.bind_eq_some_iff.mp hst
    exact hI.proceed hc hst
  | acquire id =>
    obtain ⟨ha, rfl, rfl⟩ := Machine.guarded_iff.mp hst
    exact hI.acquire ha s.registered
  | release id =>
    obtain ⟨hid, rfl, rfl⟩ := Machine.guarded_iff.mp hst
    exact hI.release (List.count_pos_iff.mp (Nat.zero_lt_of_lt hid)) s.registered
  | register id =>
    obtain ⟨⟨hid, -⟩, rfl, rfl⟩ := Machine.guarded_iff.mp hst
    exact hI.acquire (.inl hid) (id :: s.registered)
  | drop id =>
    obtain ⟨⟨-, hid, -⟩, rfl, rfl⟩ := Machine.guarded_iff.mp hst
    exact hI.release hid (s.registered.erase id)
  | delete id =>
    obtain ⟨⟨hc, hid⟩, rfl, rfl⟩ := Machine.guarded_iff.mp hst
    exact hI.delete hc hid
  | setSinkPattern sink pattern =>
    obtain ⟨rfl, rfl⟩ := Prod.mk.inj (Option.some.inj hst)
    exact hI.patterns _

end Registry

theorem registry_of_run (r : loggerManager.Reach s h) : Registry s h :=
  Machine.Run.invariant registry_init (fun _ hI _ hst => (hI.step hst).registry) r

/-- **The logger registry.**  After any run: at most one logger of a name made since the last
`shutdown` is alive; `logger` returns the one that is alive, if it has been returned since then; but
for an `add_sink` under way, registered live loggers have the sinks of the manager, in order; and
their names have no pending level.  And no step but `shutdown` unregisters a live logger. -/
theorem registry_of_reach (r : loggerManager.Reach s h) :
    (∀ name a b, Since .shutDown h (.made name a) → Since .shutDown h (.made name b) →
      s.Alive a → s.Alive b → a = b) ∧
    (∀ name id x t e logger, Since .shutDown h (.returned name (some id)) → s.Alive id →
      loggerManager.step s x = some (t, e) → .returned name logger ∈ e → logger = some id) ∧
    (¬ s.AddingSink → ∀ name id, s.loggers.lookup name = some id → s.Alive id →
      (s.heap id).sinks = s.sinks) ∧
    (∀ name id, s.loggers.lookup name = some id → s.Alive id →
      s.pendingLevels.lookup name = none) ∧
    ∀ x t e, loggerManager.step s x = some (t, e) → .shutDown ∉ e →
      ∀ name id, s.loggers.lookup name = some id → s.Alive id →
        t.loggers.lookup name = some id := by
  have hI := registry_of_run r
  refine ⟨fun name a b ha hb hla hlb => ?_, fun name id x t e logger hs ha hst hr => ?_,
    fun hadd name id hl ha => ?_, hI.pending, fun x t e hst he => (hI.step hst).kept he⟩
  · exact Option.some.inj ((hI.live name a ha hla).symm.trans (hI.live name b hb hlb))
  · exact (hI.step hst).same name id logger hr hs ha
  · rw [← hI.sinks name id hl ha, s.owed_eq_nil hadd, List.append_nil]

/-- The deleter of a logger comes when another one has taken its name. -/
def succeeded : List Act :=
  [.call (.addSink (some 7)), .proceed, .proceed,
    .call (.logger "core"), .proceed, .proceed, .release 0,
    .call (.logger "core"), .proceed, .proceed, .proceed, .delete 0, .proceed, .proceed, .proceed]

theorem registry_of_reach_succeeded : ∃ s h, loggerManager.Reach s h ∧
    .returned "core" (some 0) ∈ h ∧ s.loggers.lookup "core" = some 1 ∧ (s.heap 1).sinks = [7] := by
  obtain ⟨s, h, r, hreturned, hidle, hl, ha, hsinks⟩ := Machine.exists_run_schedule loggerManager
    (fun _ _ => True) succeeded (P := fun q => .returned "core" (some 0) ∈ q.2 ∧ q.1.call = none ∧
      q.1.loggers.lookup "core" = some 1 ∧ q.1.Alive 1 ∧ q.1.sinks = [7]) (by decide +kernel)
  have hadd : ¬ s.AddingSink := fun ⟨c, sink, hc, _⟩ => nomatch hidle.symm.trans hc
  exact ⟨s, h, r, hreturned, hl, ((registry_of_reach r).2.2.1 hadd "core" 1 hl ha).trans hsinks⟩

end Zurg.Logging
