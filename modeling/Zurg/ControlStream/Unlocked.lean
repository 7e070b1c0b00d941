import Zurg.Lib.History
import Zurg.ControlStream.Moves

/-!
# Zurg.ControlStream.Unlocked — `MaybeStartWriteLocked` without the lock

`OnStreamReady` calls `MaybeStartWriteLocked` and does not hold `write_mu_`.  Here each of its
accesses to `write_in_flight_`, `pending_writes_` and `current_write_` is a step of its own, between
which the other threads go on; all else is as in `StreamClient`.  A call that nobody interrupts is
the atomic step of that machine (`unlocked_of_reach`).

The check of the unlocked call can be out of date when it acts.  As long as it is not (`RaceFree`),
at most one write is outstanding on a stream and `current_write_` stays while it is written.
-/

namespace Zurg.ControlStream

open Lib

/-- Where the unlocked call stands. -/
inductive ReadyPc (μ : Type)
  /-- Not called yet, or returned. -/
  | outside
  /-- `write_in_flight_` was false. -/
  | readPending
  | readReactor
  /-- `reactor_` is stream `k`. -/
  | readFront (k : ℕ)
  | emplace (k : ℕ) (m : μ)
  | popFront (k : ℕ)
  | setInFlight (k : ℕ)
  | startWrite (k : ℕ)
  deriving DecidableEq, Repr

structure UnlockedClient (μ : Type) where
  client : StreamClient μ := {}
  ready : ReadyPc μ := .outside
  /-- The front of an empty deque or an empty `optional` has been used. -/
  undefined : Bool := false
  deriving DecidableEq, Repr

inductive UnlockedAct (μ : Type)
  /-- Anything but the unlocked call. -/
  | other (x : StreamAct μ)
  /-- The next access of the unlocked call. -/
  | ready
  deriving DecidableEq, Repr

inductive UnlockedEvent (μ : Type)
  | stream (v : StreamEvent μ)
  /-- `current_write_` takes the message `m`. -/
  | emplaced (m : μ)
  /-- `OnStreamClosed` has reset the state of the writes for stream `k`. -/
  | closed (k : ℕ)
  deriving DecidableEq, Repr

variable {μ : Type}

/-- Under the lock a message is put into `current_write_` right before it is started. -/
def StreamEvent.unlocked : StreamEvent μ → List (UnlockedEvent μ)
  | .startWrite k m => [.emplaced m, .stream (.startWrite k m)]
  | v => [.stream v]

def StreamAct.closedEvents (s : StreamClient μ) : StreamAct μ → List (UnlockedEvent μ)
  | .closeClear => [.closed s.streams]
  | _ => []

def StreamAct.isKick : StreamAct μ → Bool
  | .kick => true
  | _ => false

namespace UnlockedClient

variable (s : UnlockedClient μ)

/-- `OnStreamReady` returns. -/
def leave : UnlockedClient μ :=
  { s with client := { s.client with run := .waiting }, ready := .outside }

/-- The next access of the unlocked call. -/
def access : UnlockedClient μ × List (UnlockedEvent μ) :=
  match s.ready with
  | .outside =>
    if s.client.writeInFlight then (s.leave, []) else ({ s with ready := .readPending }, [])
  | .readPending =>
    if s.client.pendingWrites.isEmpty then (s.leave, []) else ({ s with ready := .readReactor }, [])
  | .readReactor =>
    match s.client.reactor with
    | none => (s.leave, [])
    | some k => ({ s with ready := .readFront k }, [])
  | .readFront k =>
    match s.client.pendingWrites with
    | [] => ({ s with undefined := true }, [])
    | m :: _ => ({ s with ready := .emplace k m }, [])
  | .emplace k m =>
    ({ s with client := { s.client with currentWrite := some m }, ready := .popFront k },
      [.emplaced m])
  | .popFront k =>
    match s.client.pendingWrites with
    | [] => ({ s with undefined := true }, [])
    | _ :: rest =>
      ({ s with client := { s.client with pendingWrites := rest }, ready := .setInFlight k }, [])
  | .setInFlight k =>
    ({ s with client := { s.client with writeInFlight := true }, ready := .startWrite k }, [])
  | .startWrite k =>
    match s.client.currentWrite with
    | none => ({ s with undefined := true }, [])
    | some m =>
      ({ s with client := { s.client with outstanding := some m, wrote := true } }.leave,
        [.stream (.startWrite k m)])

def step : UnlockedAct μ → Option (UnlockedClient μ × List (UnlockedEvent μ))
  | .other x =>
    if s.undefined || x.isKick then none
    else match s.client.step x with
      | none => none
      | some (c, e) =>
        some ({ s with client := c }, e.flatMap StreamEvent.unlocked ++ x.closedEvents s.client)
  | .ready => if s.undefined || s.client.run ≠ .readied then none else some s.access

end UnlockedClient

/-- The stream client with the unlocked call in steps. -/
def unlockedClient (μ : Type) : Machine (UnlockedClient μ) (UnlockedAct μ) (UnlockedEvent μ) where
  init := {}
  step := UnlockedClient.step

/-! ## At most one write -/

def UnlockedEvent.isStart (k : ℕ) : UnlockedEvent μ → Bool
  | .stream (.startWrite j _) => j == k
  | _ => false

def UnlockedEvent.isAnswer (k : ℕ) : UnlockedEvent μ → Bool
  | .stream (.writeDone j _ _) => j == k
  | _ => false

/-- The number of writes started on stream `k`. -/
def starts (k : ℕ) (h : List (UnlockedEvent μ)) : ℕ := h.countP (·.isStart k)

/-- The number of writes on stream `k` that gRPC has answered. -/
def answers (k : ℕ) (h : List (UnlockedEvent μ)) : ℕ := h.countP (·.isAnswer k)

/-- A write on stream `k` has not been answered. -/
def Unanswered (k : ℕ) (h : List (UnlockedEvent μ)) : Prop := answers k h < starts k h

instance (k : ℕ) (h : List (UnlockedEvent μ)) : Decidable (Unanswered k h) :=
  inferInstanceAs (Decidable (_ < _))

/-- A write is started on a stream when all earlier ones there have been answered, and
`current_write_` is replaced when nothing is being written on a stream that is not closed. -/
def OneWrite : List (UnlockedEvent μ) → Prop :=
  Always fun pre x =>
    (∀ k m, x = .stream (.startWrite k m) → ¬ Unanswered k pre) ∧
    ∀ m, x = .emplaced m → ∀ k, Unanswered k pre → .closed k ∈ pre

/-- The unlocked call is about to take the front of the pending writes. -/
def ReadyPc.atFront : ReadyPc μ → Bool
  | .readFront _ => true
  | _ => false

/-- The unlocked call has taken the front of the pending writes. -/
def ReadyPc.taken : ReadyPc μ → Bool
  | .emplace _ _ | .popFront _ | .setInFlight _ | .startWrite _ => true
  | _ => false

/-- The unlocked call takes the front when no write is in flight, and from then on until it has
started the write nobody else starts one or resets the state of the writes. -/
def RaceFree (s : UnlockedClient μ) : UnlockedAct μ → Prop
  | .ready => s.ready.atFront = true →
      s.client.writeInFlight = false ∧ s.client.pendingWrites ≠ []
  | .other (.enqueueWrite _) =>
    s.ready.taken = true → s.client.writeInFlight = true ∨ s.client.reactor = none
  | .other .closeClear => s.ready.taken = false
  | .other _ => True

/-! ## Writes started and answered -/

variable {c t : StreamClient μ} {x : StreamAct μ} {j k : ℕ} {m : μ} {ok : Bool}
  {h e : List (UnlockedEvent μ)}

def UnlockedEvent.quiet : UnlockedEvent μ → Bool
  | .closed _ | .stream (.enqueued _) | .stream .cleared => true
  | _ => false

@[simp] theorem starts_append (h e : List (UnlockedEvent μ)) :
    starts k (h ++ e) = starts k h + starts k e := List.countP_append

@[simp] theorem answers_append (h e : List (UnlockedEvent μ)) :
    answers k (h ++ e) = answers k h + answers k e := List.countP_append

@[simp] theorem starts_startWrite :
    starts k [.stream (.startWrite j m)] = if j = k then 1 else 0 := by
  simp [starts, UnlockedEvent.isStart, List.countP_cons]

@[simp] theorem starts_writeDone : starts k [.stream (.writeDone j m ok)] = 0 := rfl

@[simp] theorem starts_emplaced : starts k [.emplaced m] = 0 := rfl

@[simp] theorem answers_startWrite : answers k [.stream (.startWrite j m)] = 0 := rfl

@[simp] theorem answers_writeDone :
    answers k [.stream (.writeDone j m ok)] = if j = k then 1 else 0 := by
  simp [answers, UnlockedEvent.isAnswer, List.countP_cons]

@[simp] theorem answers_emplaced : answers k [.emplaced m] = 0 := rfl

theorem starts_quiet (hq : ∀ v ∈ e, v.quiet = true) : starts k e = 0 := by
  refine List.countP_eq_zero.mpr fun v hv hs => ?_
  have := hq v hv
  unfold UnlockedEvent.quiet at this
  split at this <;> simp [UnlockedEvent.isStart] at hs this

theorem answers_quiet (hq : ∀ v ∈ e, v.quiet = true) : answers k e = 0 := by
  refine List.countP_eq_zero.mpr fun v hv hs => ?_
  have := hq v hv
  unfold UnlockedEvent.quiet at this
  split at this <;> simp [UnlockedEvent.isAnswer] at hs this

theorem unanswered_quiet (hq : ∀ v ∈ e, v.quiet = true) :
    Unanswered k (h ++ e) ↔ Unanswered k h := by
  simp [Unanswered, starts_quiet hq, answers_quiet hq]

theorem OneWrite.quiet (hI : OneWrite h) (hq : ∀ v ∈ e, v.quiet = true) : OneWrite (h ++ e) := by
  refine Always.append hI fun pre v post heq => ?_
  have := hq v (by simp [heq])
  exact ⟨fun k m hv => by simp [hv, UnlockedEvent.quiet] at this,
    fun m hv => by simp [hv, UnlockedEvent.quiet] at this⟩

/-- What gRPC has to answer is what has been started on the latest stream and not been answered. -/
structure ClientInv (c : StreamClient μ) (h : List (UnlockedEvent μ)) : Prop where
  reactor : ∀ k, c.reactor = some k → k = c.streams
  inFlight : c.outstanding ≠ none → c.writeInFlight = true
  loopHead : c.run = .loopHead → ¬ c.Live
  latest : starts c.streams h = answers c.streams h + c.outstanding.toList.length
  later : ∀ k, c.streams < k → starts k h = 0 ∧ answers k h = 0
  earlier : ∀ k, k < c.streams → Unanswered k h → .closed k ∈ h
  closed : ¬ c.Live → c.streams = 0 ∨ .closed c.streams ∈ h
  noStream : c.streams = 0 → c.run = .loopHead ∧ c.outstanding = none ∧ c.reactor = none
  one : OneWrite h

theorem ClientInv.init : ClientInv ({} : StreamClient μ) [] where
  reactor := nofun
  inFlight h := absurd rfl h
  loopHead _ := by simp [StreamClient.Live]
  latest := rfl
  later _ _ := ⟨rfl, rfl⟩
  earlier _ hk := absurd hk (Nat.not_lt_zero _)
  closed _ := .inl rfl
  noStream _ := ⟨rfl, rfl, rfl⟩
  one := .nil

/-- When no write is outstanding, whatever is not answered was started on a closed stream. -/
theorem ClientInv.closed_of_unanswered (hI : ClientInv c h) (ho : c.outstanding = none)
    (hk : Unanswered k h) : .closed k ∈ h := by
  rcases Nat.lt_trichotomy k c.streams with hlt | rfl | hgt
  · exact hI.earlier k hlt hk
  · have := hI.latest
    simp only [ho, Option.toList_none, List.length_nil] at this
    exact absurd hk (by simp [Unanswered, this])
  · exact absurd hk (by simp [Unanswered, (hI.later k hgt).1])

/-- Steps that leave the stream and its outstanding write as they are. -/
theorem ClientInv.frame (hI : ClientInv c h) (hq : ∀ v ∈ e, v.quiet = true)
    (hk : t.streams = c.streams) (ho : t.outstanding = c.outstanding)
    (hr : t.reactor = c.reactor ∨ t.reactor = none ∨ t.reactor = some c.streams)
    (hf : t.outstanding ≠ none → t.writeInFlight = true) (hl : t.run = .loopHead → ¬ t.Live)
    (hc : ¬ t.Live → ¬ c.Live ∨ .closed c.streams ∈ e)
    (hz : c.streams = 0 → t.run = c.run ∧ t.reactor = c.reactor) : ClientInv t (h ++ e) where
  reactor k hkr := by
    rw [hk]
    rcases hr with hr | hr | hr
    · exact hI.reactor k (hr ▸ hkr)
    · exact nomatch hr.symm.trans hkr
    · exact (Option.some.inj (hr.symm.trans hkr)).symm
  inFlight := hf
  loopHead := hl
  latest := by
    rw [starts_append, answers_append, starts_quiet hq, answers_quiet hq, hk, ho]
    exact hI.latest
  later k hlt := by
    rw [starts_append, answers_append, starts_quiet hq, answers_quiet hq]
    exact hI.later k (hk ▸ hlt)
  earlier k hlt hun :=
    List.mem_append_left _ (hI.earlier k (hk ▸ hlt) ((unanswered_quiet hq).mp hun))
  closed hlive := by
    rw [hk]
    rcases hc hlive with h' | h'
    · exact (hI.closed h').imp_right (List.mem_append_left _)
    · exact .inr (List.mem_append_right _ h')
  noStream hs := by
    rw [hk] at hs
    rw [(hz hs).1, (hz hs).2, ho]
    exact hI.noStream hs
  one := hI.one.quiet hq

/-- gRPC answers. -/
theorem ClientInv.answered (hI : ClientInv c h) (ho : c.outstanding = some m)
    (hq : ∀ v ∈ e, v.quiet = true) (hk : t.streams = c.streams) (hr : t.reactor = c.reactor)
    (hn : t.outstanding = none) (hrun : t.run = c.run) (hcall : t.call = c.call) :
    ClientInv t (h ++ .stream (.writeDone c.streams m ok) :: e) where
  reactor k hkr := hk ▸ hI.reactor k (hr ▸ hkr)
  inFlight hne := absurd hn hne
  loopHead hrl := by
    unfold StreamClient.Live
    rw [hcall]
    exact hI.loopHead (hrun ▸ hrl)
  latest := by
    rw [List.append_cons, starts_append, answers_append, starts_quiet hq, answers_quiet hq, hk, hn]
    have := hI.latest
    rw [ho] at this
    simpa using this
  later k hlt := by
    have hne : c.streams ≠ k := Nat.ne_of_lt (hk ▸ hlt)
    rw [List.append_cons, starts_append, answers_append, starts_quiet hq, answers_quiet hq]
    simpa [hne] using hI.later k (hk ▸ hlt)
  earlier k hlt hun := by
    refine List.mem_append_left _ (hI.earlier k (hk ▸ hlt) ?_)
    have hne : c.streams ≠ k := Nat.ne_of_gt (hk ▸ hlt)
    rw [List.append_cons, unanswered_quiet hq] at hun
    simpa [Unanswered, hne] using hun
  closed hlive := by
    rw [hk]
    refine (hI.closed ?_).imp_right (List.mem_append_left _)
    unfold StreamClient.Live at hlive ⊢
    rwa [← hcall]
  noStream hs := ⟨hrun.trans (hI.noStream (hk ▸ hs)).1, hn, hr.trans (hI.noStream (hk ▸ hs)).2.2⟩
  one := by
    rw [List.append_cons]
    refine OneWrite.quiet (Always.snoc hI.one ⟨fun _ _ hv => ?_, fun _ hv => ?_⟩) hq
    · exact nomatch UnlockedEvent.stream.inj hv
    · exact nomatch hv

/-- Whoever starts a write on the latest stream. -/
theorem ClientInv.start (hI : ClientInv c h) (hs : c.streams ≠ 0) (ho : c.outstanding = none)
    (hk : t.streams = c.streams) (hr : t.reactor = c.reactor) (hn : t.outstanding = some m)
    (hf : t.writeInFlight = true) (hl : t.run = .loopHead → ¬ t.Live)
    (hc : ¬ t.Live → ¬ c.Live) :
    ClientInv t (h ++ [.stream (.startWrite c.streams m)]) where
  reactor k hkr := hk ▸ hI.reactor k (hr ▸ hkr)
  inFlight _ := hf
  loopHead := hl
  latest := by
    have := hI.latest
    rw [ho] at this
    rw [hk, hn]
    simpa using this
  later k hlt := by
    have hne : c.streams ≠ k := Nat.ne_of_lt (hk ▸ hlt)
    simpa [hne] using hI.later k (hk ▸ hlt)
  earlier k hlt hun := by
    have hne : c.streams ≠ k := Nat.ne_of_gt (hk ▸ hlt)
    refine List.mem_append_left _ (hI.earlier k (hk ▸ hlt) ?_)
    simpa [Unanswered, hne] using hun
  closed hlive := by
    rw [hk]
    exact (hI.closed (hc hlive)).imp_right (List.mem_append_left _)
  noStream hs' := absurd (hk ▸ hs') hs
  one := by
    refine Always.snoc hI.one ⟨fun k m' hv hun => ?_, nofun⟩
    obtain ⟨rfl, -⟩ := StreamEvent.startWrite.inj (UnlockedEvent.stream.inj hv)
    have := hI.latest
    rw [ho] at this
    simp [Unanswered, this] at hun

/-- `current_write_` takes a message when no write is outstanding. -/
theorem ClientInv.emplaced (hI : ClientInv c h) (ho : c.outstanding = none) (o : Option μ) :
    ClientInv { c with currentWrite := o } (h ++ [.emplaced m]) where
  reactor := hI.reactor
  inFlight := hI.inFlight
  loopHead := hI.loopHead
  latest := by
    simpa using hI.latest
  later k hlt := by
    simpa using hI.later k hlt
  earlier k hlt hun := by
    refine List.mem_append_left _ (hI.earlier k hlt ?_)
    simpa [Unanswered] using hun
  closed hlive := (hI.closed hlive).imp_right (List.mem_append_left _)
  noStream := hI.noStream
  one := Always.snoc hI.one ⟨fun _ _ hv => (nomatch hv), fun _ _ k hun =>
    hI.closed_of_unanswered ho hun⟩

/-! ## Steps under the lock -/

theorem clientInv_move {e : List (StreamEvent μ)} (hI : ClientInv c h) (hm : Move c x t e) :
    ClientInv t (h ++ (e.flatMap StreamEvent.unlocked ++ x.closedEvents c)) := by
  have hrunning : c.run ≠ .loopHead → c.streams ≠ 0 := fun hr hs => hr (hI.noStream hs).1
  cases hm with
  | push m =>
    refine hI.frame (e := [.stream (.enqueued m)]) ?_ rfl rfl (.inl rfl) hI.inFlight hI.loopHead
      .inl fun _ => ⟨rfl, rfl⟩
    simp [UnlockedEvent.quiet]
  | connect hr =>
    change ClientInv _ (h ++ [])
    rw [List.append_nil]
    have hnew := hI.later (c.streams + 1) (Nat.lt_succ_self _)
    refine ⟨fun k hk => (Option.some.inj hk).symm, fun hne => absurd rfl hne, nofun, ?_,
      fun k hlt => hI.later k (Nat.lt_of_succ_lt hlt), fun k hlt hun => ?_,
      fun hl => absurd (.inl rfl) hl, nofun, hI.one⟩
    · exact hnew.1.trans hnew.2.symm
    · -- the previous stream is done
      rcases Nat.lt_succ_iff_lt_or_eq.mp hlt with hlt | rfl
      · exact hI.earlier k hlt hun
      · rcases hI.closed (hI.loopHead hr) with hz | hcl
        · exact hI.closed_of_unanswered (hI.noStream hz).2.1 hun
        · exact hcl
  | startCall hr =>
    have hs := hrunning (by simp [hr])
    exact hI.frame (e := []) nofun rfl rfl (.inl rfl) hI.inFlight nofun
      (fun hl => absurd (.inr rfl) hl) fun h => absurd h hs
  | setReactor hr =>
    have hs := hrunning (by simp [hr])
    exact hI.frame (e := []) nofun rfl rfl (.inr (.inr rfl)) hI.inFlight nofun .inl
      fun h => absurd h hs
  | readyReturn hr | kick hr =>
    have hs := hrunning (by simp [hr])
    exact hI.frame (e := []) nofun rfl rfl (.inl rfl) hI.inFlight nofun .inl fun h => absurd h hs
  | @written m ho => exact hI.answered (e := []) ho nofun rfl rfl rfl rfl rfl
  | @failed m ho =>
    refine hI.answered (e := [.stream .cleared]) ho ?_ rfl rfl rfl rfl rfl
    simp [UnlockedEvent.quiet]
  | closeClear hc ho =>
    refine hI.frame (e := [.stream .cleared, .closed c.streams]) ?_ rfl rfl (.inl rfl)
      (fun hne => absurd ho hne) ?_ ?_ ?_
    · simp [UnlockedEvent.quiet]
    · simp [StreamClient.Live]
    · simp
    · exact fun _ => ⟨rfl, rfl⟩
  | closeDetach hc =>
    refine hI.frame (e := []) nofun rfl rfl (.inr (.inl rfl)) hI.inFlight ?_ ?_ ?_
    · simp [StreamClient.Live]
    · simp [StreamClient.Live, hc]
    · exact fun hs => ⟨rfl, (hI.noStream hs).2.2.symm⟩
  | closeReturn hc | closeDone hc =>
    refine hI.frame (e := []) nofun rfl rfl (.inl rfl) hI.inFlight ?_ ?_ fun _ => ⟨rfl, rfl⟩
    · simp [StreamClient.Live]
    · simp [StreamClient.Live, hc]
  | waitReturn hr hc hrr =>
    have hs := hrunning (by simp [hr])
    refine hI.frame (e := []) nofun rfl rfl (hrr.elim (.inr ∘ .inl) .inl) hI.inFlight ?_ .inl
      fun h => absurd h hs
    simp [StreamClient.Live, hc]

theorem clientInv_start {e : List (StreamEvent μ)} (hI : ClientInv c h) (hs : Start c t e) :
    ClientInv t (h ++ e.flatMap StreamEvent.unlocked) := by
  cases hs with
  | nothing => simpa using hI
  | @start k m rest hf hp hr =>
    have ho : c.outstanding = none := by
      by_contra hne
      exact nomatch hf.symm.trans (hI.inFlight hne)
    have hz : c.streams ≠ 0 := fun hz => nomatch hr.symm.trans (hI.noStream hz).2.2
    obtain rfl := hI.reactor k hr
    have hI' := hI.emplaced (m := m) ho (some m)
    have hflat : [StreamEvent.startWrite c.streams m].flatMap StreamEvent.unlocked =
        [UnlockedEvent.emplaced m] ++ [UnlockedEvent.stream (.startWrite c.streams m)] := rfl
    rw [hflat, ← List.append_assoc]
    exact hI'.start hz ho rfl rfl rfl rfl hI.loopHead id

/-! ## The unlocked call -/

variable {s s' : UnlockedClient μ}

/-- The stream that the unlocked call has read from `reactor_`. -/
def ReadyPc.stream : ReadyPc μ → Option ℕ
  | .readFront k | .emplace k _ | .popFront k | .setInFlight k | .startWrite k => some k
  | _ => none

theorem ReadyPc.taken_of_stream {r : ReadyPc μ} (hr : r.stream = none) : r.taken = false := by
  cases r with
  | outside | readPending | readReactor => rfl
  | _ => exact nomatch hr

theorem ReadyPc.stream_ne_none {r : ReadyPc μ} (hr : r.atFront = true ∨ r.taken = true) :
    r.stream ≠ none := by
  cases r with
  | outside | readPending | readReactor => simp [ReadyPc.atFront, ReadyPc.taken] at hr
  | _ => simp [ReadyPc.stream]

/-- What the unlocked call uses without a look is there. -/
def UnlockedClient.Filled (s : UnlockedClient μ) : Prop :=
  match s.ready with
  | .readFront _ | .popFront _ => s.client.pendingWrites ≠ []
  | .startWrite _ => s.client.currentWrite ≠ none
  | _ => True

/-- What an access of the unlocked call does. -/
inductive Access (s : UnlockedClient μ) :
    UnlockedClient μ → List (UnlockedEvent μ) → Prop
  | leave : s.ready.stream = none → Access s s.leave []
  | check {r : ReadyPc μ} : s.ready.stream = none → r.stream = none →
      Access s { s with ready := r } []
  | readReactor {k : ℕ} : s.ready.stream = none → s.client.reactor = some k →
      Access s { s with ready := .readFront k } []
  /-- What it uses is not there. -/
  | undefined : ¬ s.Filled → Access s { s with undefined := true } []
  | readFront {k : ℕ} {m : μ} {rest : List μ} : s.ready = .readFront k →
      s.client.pendingWrites = m :: rest → Access s { s with ready := .emplace k m } []
  | emplace {k : ℕ} {m : μ} : s.ready = .emplace k m →
      Access s { s with client := { s.client with currentWrite := some m }, ready := .popFront k }
        [.emplaced m]
  | popFront {k : ℕ} {m : μ} {rest : List μ} : s.ready = .popFront k →
      s.client.pendingWrites = m :: rest →
      Access s
        { s with client := { s.client with pendingWrites := rest }, ready := .setInFlight k } []
  | setInFlight {k : ℕ} : s.ready = .setInFlight k →
      Access s
        { s with client := { s.client with writeInFlight := true }, ready := .startWrite k } []
  | startWrite {k : ℕ} {m : μ} : s.ready = .startWrite k → s.client.currentWrite = some m →
      Access s
        { s with client := { s.client with outstanding := some m, wrote := true } }.leave
        [.stream (.startWrite k m)]

theorem access_cases (s : UnlockedClient μ) : Access s s.access.1 s.access.2 := by
  unfold UnlockedClient.access
  split
  · split_ifs
    · exact .leave (by simp [*, ReadyPc.stream])
    · exact .check (by simp [*, ReadyPc.stream]) rfl
  · split_ifs
    · exact .leave (by simp [*, ReadyPc.stream])
    · exact .check (by simp [*, ReadyPc.stream]) rfl
  · split
    · exact .leave (by simp [*, ReadyPc.stream])
    · exact .readReactor (by simp [*, ReadyPc.stream]) ‹_›
  · split
    · exact .undefined (by simp [*, UnlockedClient.Filled])
    · exact .readFront ‹_› ‹_›
  · exact .emplace ‹_›
  · split
    · exact .undefined (by simp [*, UnlockedClient.Filled])
    · exact .popFront ‹_› ‹_›
  · exact .setInFlight ‹_›
  · split
    · exact .undefined (by simp [*, UnlockedClient.Filled])
    · exact .startWrite ‹_› ‹_›

/-- Without what it uses the call can do nothing else. -/
theorem Access.of_not_filled {e : List (UnlockedEvent μ)} (ha : Access s s' e)
    (hempty : ¬ s.Filled) : s' = { s with undefined := true } := by
  cases ha with
  | undefined => rfl
  | leave hr | check hr | readReactor hr =>
    cases hready : s.ready <;> simp [hready, ReadyPc.stream, UnlockedClient.Filled] at hr hempty
  | readFront hr hp | popFront hr hp => simp [UnlockedClient.Filled, hr, hp] at hempty
  | startWrite hr hm => simp [UnlockedClient.Filled, hr, hm] at hempty
  | emplace hr | setInFlight hr => simp [UnlockedClient.Filled, hr] at hempty

theorem step_ready (hu : s.undefined = false) (hrun : s.client.run = .readied) :
    (unlockedClient μ).step s .ready = some s.access := by
  simp [unlockedClient, UnlockedClient.step, hu, hrun]

theorem step_ready_cases {e : List (UnlockedEvent μ)} (hst : s.step .ready = some (s', e)) :
    s.undefined = false ∧ s.client.run = .readied ∧ Access s s' e := by
  simp only [UnlockedClient.step, Option.ite_none_left_eq_some, Bool.or_eq_true,
    decide_eq_true_eq, not_or, Bool.not_eq_true, not_not] at hst
  obtain ⟨⟨hu, hrun⟩, hst⟩ := hst
  obtain ⟨rfl, rfl⟩ := Prod.mk.inj (Option.some.inj hst)
  exact ⟨hu, hrun, access_cases s⟩

theorem step_other_cases {e : List (UnlockedEvent μ)} (hst : s.step (.other x) = some (s', e)) :
    ∃ t f, s.client.step x = some (t, f) ∧ s.undefined = false ∧ x.isKick = false ∧
      s' = { s with client := t } ∧
      e = f.flatMap StreamEvent.unlocked ++ x.closedEvents s.client := by
  simp only [UnlockedClient.step, Option.ite_none_left_eq_some, Bool.or_eq_true, not_or,
    Bool.not_eq_true] at hst
  obtain ⟨⟨hu, hx⟩, hst⟩ := hst
  cases hc : s.client.step x with
  | none => simp [hc] at hst
  | some p =>
    simp only [hc, Option.some.injEq, Prod.mk.injEq] at hst
    exact ⟨p.1, p.2, rfl, hu, hx, hst.1.symm, hst.2.symm⟩

/-- From the check of `reactor_` on the call is about the latest stream; from when it has taken the
front no write is outstanding there. -/
def ReadyPc.Agrees (c : StreamClient μ) : ReadyPc μ → Prop
  | .outside | .readPending | .readReactor => True
  | .readFront k => k = c.streams
  | .emplace k _ => k = c.streams ∧ c.outstanding = none ∧ c.pendingWrites ≠ []
  | .popFront k => k = c.streams ∧ c.outstanding = none ∧ c.pendingWrites ≠ [] ∧
      c.currentWrite ≠ none
  | .setInFlight k => k = c.streams ∧ c.outstanding = none ∧ c.currentWrite ≠ none
  | .startWrite k => k = c.streams ∧ c.outstanding = none ∧ c.currentWrite ≠ none ∧
      c.writeInFlight = true

structure UnlockedInv (s : UnlockedClient μ) (h : List (UnlockedEvent μ)) : Prop where
  client : ClientInv s.client h
  inside : s.ready ≠ .outside → s.client.run = .readied
  agrees : s.ready.Agrees s.client
  undefined : s.undefined = false

theorem UnlockedInv.init : UnlockedInv ({} : UnlockedClient μ) [] :=
  ⟨.init, fun hout => absurd rfl hout, trivial, rfl⟩

/-- While the call is going on `Run` waits for it. -/
theorem run_readied {e : List (StreamEvent μ)} (hrun : c.run = .readied) (hx : x.isKick = false)
    (hst : c.step x = some (t, e)) : t.run = .readied ∧ t.streams = c.streams := by
  obtain ⟨u, e₁, e₂, hm, hs, -⟩ := step_moves hst
  have hu : u.run = .readied ∧ u.streams = c.streams := by
    cases hm with
    | connect hr | startCall hr | setReactor hr | readyReturn hr | waitReturn hr =>
      exact nomatch hr.symm.trans hrun
    | kick => exact nomatch hx
    | _ => exact ⟨hrun, rfl⟩
  cases hs with
  | nothing => exact hu
  | start => exact hu

/-- Without a start, an answer or a reset the writes stay as they are. -/
structure SameWrite (c t : StreamClient μ) : Prop where
  outstanding : t.outstanding = c.outstanding
  currentWrite : t.currentWrite = c.currentWrite
  inFlight : t.writeInFlight = c.writeInFlight
  pending : c.pendingWrites ≠ [] → t.pendingWrites ≠ []

theorem sameWrite_step {e : List (StreamEvent μ)} (hrun : c.run = .readied)
    (ho : c.outstanding = none) (hx : x.isKick = false) (hclose : x ≠ .closeClear)
    (henq : ∀ m, x = .enqueueWrite m → c.writeInFlight = true ∨ c.reactor = none)
    (hst : c.step x = some (t, e)) : SameWrite c t := by
  obtain ⟨u, e₁, e₂, hm, hs, rfl⟩ := step_moves hst
  cases hs with
  | nothing =>
    cases hm with
    | push m => exact ⟨rfl, rfl, rfl, by simp⟩
    | connect hr | startCall hr | setReactor hr | readyReturn hr | waitReturn hr =>
      exact nomatch hr.symm.trans hrun
    | kick => exact nomatch hx
    | written h | failed h => exact nomatch ho.symm.trans h
    | closeClear => exact absurd rfl hclose
    | closeDetach | closeReturn | closeDone => exact ⟨rfl, rfl, rfl, id⟩
  | start hf hp hr =>
    -- only `EnqueueWrite` could start one
    have hmay := mayStart_of_startWrite hst (List.mem_append_right _ (List.mem_singleton_self _))
    cases hm with
    | push m =>
      rcases henq m rfl with h | h
      · exact nomatch hf.symm.trans h
      · exact nomatch hr.symm.trans h
    | kick => exact nomatch hx
    | written h | failed h => exact nomatch ho.symm.trans h
    | _ => exact nomatch hmay

theorem ReadyPc.Agrees.frame {r : ReadyPc μ} (ha : r.Agrees c) (hs : SameWrite c t)
    (hk : t.streams = c.streams) : r.Agrees t := by
  cases r with
  | outside | readPending | readReactor => trivial
  | readFront k => exact Eq.trans ha hk.symm
  | emplace k m => exact ⟨ha.1.trans hk.symm, hs.outstanding.trans ha.2.1, hs.pending ha.2.2⟩
  | popFront k =>
    exact ⟨ha.1.trans hk.symm, hs.outstanding.trans ha.2.1, hs.pending ha.2.2.1,
      hs.currentWrite ▸ ha.2.2.2⟩
  | setInFlight k =>
    exact ⟨ha.1.trans hk.symm, hs.outstanding.trans ha.2.1, hs.currentWrite ▸ ha.2.2⟩
  | startWrite k =>
    exact ⟨ha.1.trans hk.symm, hs.outstanding.trans ha.2.1, hs.currentWrite ▸ ha.2.2.1,
      hs.inFlight.trans ha.2.2.2⟩

theorem ReadyPc.Agrees.outstanding {r : ReadyPc μ} (ha : r.Agrees c) (ht : r.taken = true) :
    c.outstanding = none := by
  cases r with
  | emplace | popFront | setInFlight | startWrite => exact ha.2.1
  | _ => exact nomatch ht

theorem agrees_other {e : List (StreamEvent μ)} (hI : UnlockedInv s h)
    (hC : RaceFree s (.other x)) (hx : x.isKick = false) (hst : s.client.step x = some (t, e)) :
    s.ready.Agrees t := by
  by_cases hout : s.ready = .outside
  · rw [hout]
    trivial
  have hrun := hI.inside hout
  obtain ⟨-, hk⟩ := run_readied hrun hx hst
  cases htaken : s.ready.taken with
  | true =>
    refine hI.agrees.frame (sameWrite_step hrun (hI.agrees.outstanding htaken) hx ?_ ?_ hst) hk
    · rintro rfl
      exact nomatch htaken.symm.trans hC
    · rintro m rfl
      exact hC htaken
  | false =>
    have ha := hI.agrees
    cases hr : s.ready with
    | readFront k =>
      rw [hr] at ha
      exact Eq.trans ha hk.symm
    | outside | readPending | readReactor => trivial
    | emplace | popFront | setInFlight | startWrite => simp [hr, ReadyPc.taken] at htaken

/-- The reset is an event of the move; what is started comes after it. -/
theorem unlocked_append {u : StreamClient μ} {e₁ e₂ : List (StreamEvent μ)} (hm : Move c x u e₁)
    (hs : Start u t e₂) : (e₁ ++ e₂).flatMap StreamEvent.unlocked ++ x.closedEvents c =
      e₁.flatMap StreamEvent.unlocked ++ x.closedEvents c ++ e₂.flatMap StreamEvent.unlocked := by
  cases hm with
  | closeClear =>
    cases hs with
    | nothing => simp
    | start _ hp => exact nomatch hp
  | _ => simp [StreamAct.closedEvents]

theorem clientInv_other {e : List (StreamEvent μ)} (hI : ClientInv c h)
    (hst : c.step x = some (t, e)) :
    ClientInv t (h ++ (e.flatMap StreamEvent.unlocked ++ x.closedEvents c)) := by
  obtain ⟨u, e₁, e₂, hm, hs, rfl⟩ := step_moves hst
  rw [unlocked_append hm hs, ← List.append_assoc]
  exact clientInv_start (clientInv_move hI hm) hs

theorem unlockedInv_other {e : List (UnlockedEvent μ)} (hI : UnlockedInv s h)
    (hC : RaceFree s (.other x)) (hst : s.step (.other x) = some (s', e)) :
    UnlockedInv s' (h ++ e) := by
  obtain ⟨t, f, hc, -, hx, rfl, rfl⟩ := step_other_cases hst
  exact ⟨clientInv_other hI.client hc, fun hout => (run_readied (hI.inside hout) hx hc).1,
    agrees_other (s := s) hI hC hx hc, hI.undefined⟩

/-- The call goes on, and the client is as it was. -/
theorem UnlockedInv.goOn (hI : UnlockedInv s h) (hrun : s.client.run = .readied) {r : ReadyPc μ}
    (ha : r.Agrees s.client) : UnlockedInv { s with ready := r } (h ++ []) := by
  rw [List.append_nil]
  exact ⟨hI.client, fun _ => hrun, ha, hI.undefined⟩

theorem clientInv_wait (hI : ClientInv c h) (hrun : c.run = .readied) :
    ClientInv { c with run := .waiting } h := by
  simpa [StreamAct.closedEvents] using clientInv_move hI (.kick hrun)

theorem UnlockedInv.leave (hI : UnlockedInv s h) (hrun : s.client.run = .readied) :
    UnlockedInv s.leave (h ++ []) := by
  rw [List.append_nil]
  exact ⟨clientInv_wait hI.client hrun, fun hout => absurd rfl hout, trivial, hI.undefined⟩

theorem ReadyPc.agrees_of_stream {r : ReadyPc μ} (hr : r.stream = none) : r.Agrees c := by
  cases r with
  | outside | readPending | readReactor => trivial
  | _ => exact nomatch hr

/-- Without a race the unlocked call finds what it has checked. -/
theorem UnlockedInv.filled (hI : UnlockedInv s h) (hC : RaceFree s .ready) : s.Filled := by
  have ha := hI.agrees
  unfold UnlockedClient.Filled
  cases hr : s.ready with
  | readFront k => exact (hC (by rw [hr]; rfl)).2
  | popFront k =>
    rw [hr] at ha
    exact ha.2.2.1
  | startWrite k =>
    rw [hr] at ha
    exact ha.2.2.1
  | _ => trivial

theorem unlockedInv_access (hI : UnlockedInv s h) (hC : RaceFree s .ready)
    (hrun : s.client.run = .readied) {e : List (UnlockedEvent μ)} (hacc : Access s s' e) :
    UnlockedInv s' (h ++ e) := by
  have ha := hI.agrees
  cases hacc with
  | leave => exact hI.leave hrun
  | check _ hr => exact hI.goOn hrun (ReadyPc.agrees_of_stream hr)
  | @readReactor k _ hk => exact hI.goOn hrun (hI.client.reactor k hk)
  | undefined hempty => exact absurd (hI.filled hC) hempty
  | @readFront k m rest hr hp =>
    obtain ⟨hf, hne⟩ := hC (by rw [hr]; rfl)
    rw [hr] at ha
    have ho : s.client.outstanding = none := by
      by_contra hout
      exact nomatch hf.symm.trans (hI.client.inFlight hout)
    exact hI.goOn hrun ⟨ha, ho, hne⟩
  | @emplace k m hr =>
    rw [hr] at ha
    exact ⟨hI.client.emplaced ha.2.1 (some m), fun _ => hrun,
      ⟨ha.1, ha.2.1, ha.2.2, nofun⟩, hI.undefined⟩
  | @popFront k m rest hr hp =>
    rw [hr] at ha
    obtain ⟨hk, ho, -, hcur⟩ := ha
    refine ⟨?_, fun _ => hrun, ⟨hk, ho, hcur⟩, hI.undefined⟩
    exact hI.client.frame (e := []) nofun rfl rfl (.inl rfl) hI.client.inFlight
      hI.client.loopHead .inl fun _ => ⟨rfl, rfl⟩
  | @setInFlight k hr =>
    rw [hr] at ha
    obtain ⟨hk, ho, hcur⟩ := ha
    refine ⟨?_, fun _ => hrun, ⟨hk, ho, hcur, rfl⟩, hI.undefined⟩
    exact hI.client.frame (e := []) nofun rfl rfl (.inl rfl) (fun _ => rfl)
      hI.client.loopHead .inl fun _ => ⟨rfl, rfl⟩
  | @startWrite k m hr hm =>
    rw [hr] at ha
    obtain ⟨rfl, ho, -, hf⟩ := ha
    have hz : s.client.streams ≠ 0 := fun hz =>
      nomatch hrun.symm.trans (hI.client.noStream hz).1
    refine ⟨?_, fun hout => absurd rfl hout, trivial, hI.undefined⟩
    exact hI.client.start hz ho rfl rfl rfl hf nofun id

theorem unlockedInv_of_run (r : (unlockedClient μ).Run RaceFree s h) : UnlockedInv s h := by
  refine Machine.Run.invariant (I := UnlockedInv) .init ?_ r
  intro s h a s' e _ hI hC hst
  cases a with
  | other x => exact unlockedInv_other hI hC hst
  | ready =>
    obtain ⟨-, hrun, hacc⟩ := step_ready_cases hst
    exact unlockedInv_access hI hC hrun hacc

/-- **At most one outstanding write per stream**, as long as the unlocked call is not overtaken. -/
theorem one_write_of_raceFree (r : (unlockedClient μ).Run RaceFree s h) :
    OneWrite h ∧ s.undefined = false :=
  ⟨(unlockedInv_of_run r).client.one, (unlockedInv_of_run r).undefined⟩

instance (s : UnlockedClient μ) : ∀ a, Decidable (RaceFree s a)
  | .ready => inferInstanceAs (Decidable (_ → _))
  | .other (.enqueueWrite _) => inferInstanceAs (Decidable (_ → _))
  | .other .closeClear => inferInstanceAs (Decidable (_ = false))
  | .other .connect | .other .startCall | .other .setReactor | .other .readyReturn | .other .kick
  | .other (.writeDone _) | .other .closeDetach | .other .closeReturn | .other .closeDone
  | .other .waitReturn => inferInstanceAs (Decidable True)

/-- A message is enqueued before the first stream, and written by the unlocked call. -/
def writtenByReady : List (UnlockedAct ℕ) :=
  [.other (.enqueueWrite 0), .other .connect, .other .startCall, .other .setReactor,
    .other .readyReturn, .ready, .ready, .ready, .ready, .ready, .ready, .ready, .ready,
    .other (.enqueueWrite 1), .other (.writeDone true)]

theorem one_write_of_raceFree_writtenByReady : ∃ s h,
    (unlockedClient ℕ).Run RaceFree s h ∧ starts 1 h = 2 ∧ answers 1 h = 1 ∧
      OneWrite h ∧ s.undefined = false :=
  have r := Machine.run_schedule (unlockedClient ℕ) RaceFree writtenByReady rfl
  ⟨_, _, r, rfl, rfl, one_write_of_raceFree r⟩

/-- Two messages are enqueued between the first access of the unlocked call and the second. -/
def overtaken : List (UnlockedAct ℕ) :=
  [.other .connect, .other .startCall, .other .setReactor, .other .readyReturn, .ready,
    .other (.enqueueWrite 1), .other (.enqueueWrite 2), .ready, .ready, .ready, .ready, .ready,
    .ready, .ready]

/-- The call starts the second message while the first is being written. -/
theorem two_writes_overtaken : ¬ ∀ s h, (unlockedClient ℕ).Reach s h → OneWrite h := by
  intro hall
  have r := Machine.run_schedule (unlockedClient ℕ) (fun _ _ => True) overtaken rfl
  have hlast := hall _ _ r
    [.stream (.enqueued 1), .emplaced 1, .stream (.startWrite 1 1), .stream (.enqueued 2),
      .emplaced 2] (.stream (.startWrite 1 2)) [] rfl
  exact hlast.1 1 2 rfl (by decide)

/-! ## Calls that nobody interrupts -/

def UnlockedEvent.stream? : UnlockedEvent μ → Option (StreamEvent μ)
  | .stream v => some v
  | _ => none

theorem stream?_unlocked (e : List (StreamEvent μ)) :
    (e.flatMap StreamEvent.unlocked).filterMap UnlockedEvent.stream? = e := by
  induction e with
  | nil => rfl
  | cons v e ih =>
    rw [List.flatMap_cons, List.filterMap_append, ih]
    cases v <;> rfl

theorem stream?_closedEvents (x : StreamAct μ) (c : StreamClient μ) :
    (x.closedEvents c).filterMap UnlockedEvent.stream? = [] := by
  cases x <;> rfl

/-- From the call of the unlocked `MaybeStartWriteLocked` to its return. -/
theorem steps_ready (hrun : c.run = .readied) : ∃ g,
    (unlockedClient μ).Steps RaceFree { client := c }
      { client := { c with run := .waiting }.maybeStartWriteLocked.1 } g ∧
    g.filterMap UnlockedEvent.stream? = { c with run := .waiting }.maybeStartWriteLocked.2 := by
  have hexec : ∀ {l : List (UnlockedAct μ)} {t g},
      (unlockedClient μ).execIn RaceFree { client := c } l = some (t, g) →
      (unlockedClient μ).Steps RaceFree { client := c } t g := Machine.steps_of_execIn
  unfold StreamClient.maybeStartWriteLocked
  cases hf : c.writeInFlight with
  | true =>
    refine ⟨[], hexec (l := [.ready]) ?_, rfl⟩
    simp [Machine.execIn, unlockedClient, UnlockedClient.step, UnlockedClient.access,
      UnlockedClient.leave, RaceFree, ReadyPc.atFront, hrun, hf]
  | false =>
    cases hp : c.pendingWrites with
    | nil =>
      refine ⟨[], hexec (l := [.ready, .ready]) ?_, rfl⟩
      simp [Machine.execIn, unlockedClient, UnlockedClient.step, UnlockedClient.access,
        UnlockedClient.leave, RaceFree, ReadyPc.atFront, hrun, hf, hp]
    | cons m rest =>
      cases hr : c.reactor with
      | none =>
        refine ⟨[], hexec (l := [.ready, .ready, .ready]) ?_, rfl⟩
        simp [Machine.execIn, unlockedClient, UnlockedClient.step, UnlockedClient.access,
          UnlockedClient.leave, RaceFree, ReadyPc.atFront, hrun, hf, hp, hr]
      | some k =>
        refine ⟨[.emplaced m, .stream (.startWrite k m)],
          hexec (l := List.replicate 8 .ready) ?_, rfl⟩
        simp [Machine.execIn, unlockedClient, UnlockedClient.step, UnlockedClient.access,
          UnlockedClient.leave, RaceFree, ReadyPc.atFront, hrun, hf, hp, hr, List.replicate]

/-- The stream client whose `OnStreamReady` starts a write in one step is this one when nobody
interrupts the unlocked call. -/
theorem unlocked_of_reach {h : List (StreamEvent μ)} (r : (streamClient μ).Reach c h) : ∃ g,
    (unlockedClient μ).Run RaceFree { client := c } g ∧ g.filterMap UnlockedEvent.stream? = h := by
  refine Machine.Run.invariant (I := fun c h => ∃ g,
    (unlockedClient μ).Run RaceFree { client := c } g ∧
      g.filterMap UnlockedEvent.stream? = h) ⟨[], .refl, rfl⟩ ?_ r
  rintro c h x t e - ⟨g, hg, rfl⟩ - hst
  suffices hx : ∃ g', (unlockedClient μ).Steps RaceFree { client := c } { client := t } g' ∧
      g'.filterMap UnlockedEvent.stream? = e by
    obtain ⟨g', hg', rfl⟩ := hx
    exact ⟨g ++ g', hg.trans hg', List.filterMap_append⟩
  cases hkick : x.isKick with
  | true =>
    obtain rfl : x = .kick := by
      cases x <;> simp [StreamAct.isKick] at hkick ⊢
    simp only [streamClient, StreamClient.step, Option.ite_none_right_eq_some] at hst
    obtain ⟨hrun, hst⟩ := hst
    obtain ⟨rfl, rfl⟩ := Prod.mk.inj (Option.some.inj hst)
    exact steps_ready hrun
  | false =>
    refine ⟨e.flatMap StreamEvent.unlocked ++ x.closedEvents c,
      .single (a := .other x) ?_ ?_, ?_⟩
    · cases x <;> simp [RaceFree, ReadyPc.taken]
    · replace hst : c.step x = some (t, e) := hst
      simp [unlockedClient, UnlockedClient.step, hkick, hst]
    · rw [List.filterMap_append, stream?_unlocked, stream?_closedEvents, List.append_nil]

end Zurg.ControlStream
