import Mathlib.Data.List.Basic

/-!
# Zurg.Lib.Machine — machines that emit events, their runs and the invariant rules

A machine is a partial step function: `step s a = none` says that `a` is not enabled in `s`, and
`step s a = some (s', e)` moves to `s'` and emits the events `e`.  Interleavings of several threads
are runs of one machine whose actions are the atomic steps of all the threads.

* `Steps C s t h`: from `s` the machine can reach `t`, every step taken satisfies `C`, and the
  events emitted on the way are `h`.  `Run C` starts in the initial state; `Reach` is `Run` without
  a condition.
* `Run.invariant`: what holds initially and is kept by each step holds after every run.
* `Steps.stuck_unique`: a run that has no choice of steps ends in one state only.
* `Steps.trades`, `Steps.spends`: what a run costs is paid for by the potential of the state it starts
  in, and by what it gains on the way.
* `exists_steps_of_variant`: where a step lowers the variant until `G` holds, `G` is reached.
* `Steps.simulate`: a machine whose every step is matched by steps of another one.
* `noting`: the machine that notes more about its steps than it emits.
* `logged`: the machine that carries its history, for conditions on a step and what came before it.
* `execIn`: runs that can be computed, for concrete schedules.
-/

namespace Zurg.Lib

variable {σ τ α β ε δ : Type}

/-- A machine: an initial state and a partial step that also says what it emits. -/
structure Machine (σ α ε : Type) where
  init : σ
  step : σ → α → Option (σ × List ε)

namespace Machine

variable (M : Machine σ α ε)

/-- `M` goes from `s` to the indexed state, emitting the indexed events, by steps satisfying `C`. -/
inductive Steps (C : σ → α → Prop) (s : σ) : σ → List ε → Prop
  | refl : Steps C s s []
  | tail {t u : σ} {h e : List ε} {a : α} : Steps C s t h → C t a → M.step t a = some (u, e) →
      Steps C s u (h ++ e)

/-- The runs from the initial state, every step of which satisfies `C`. -/
abbrev Run (C : σ → α → Prop) (s : σ) (h : List ε) : Prop := M.Steps C M.init s h

/-- All runs from the initial state. -/
abbrev Reach (s : σ) (h : List ε) : Prop := M.Run (fun _ _ => True) s h

variable {M} {C D : σ → α → Prop} {s t u : σ} {h k : List ε}

/-- A step with a guard. -/
theorem guarded_iff {c : Prop} [Decidable c] :
    (if c then some (s, h) else none) = some (t, k) ↔ c ∧ s = t ∧ h = k := by
  rw [Option.ite_none_right_eq_some, Option.some.injEq, Prod.mk.injEq]

theorem Steps.single {a : α} {e : List ε} (hc : C s a) (hs : M.step s a = some (t, e)) :
    M.Steps C s t e := by
  simpa using Steps.tail .refl hc hs

theorem Steps.trans (h₁ : M.Steps C s t h) (h₂ : M.Steps C t u k) : M.Steps C s u (h ++ k) := by
  induction h₂ with
  | refl => simpa using h₁
  | tail _ hc hs ih =>
    rw [← List.append_assoc]
    exact ih.tail hc hs

theorem Steps.mono (hCD : ∀ s a, C s a → D s a) (h₁ : M.Steps C s t h) : M.Steps D s t h := by
  induction h₁ with
  | refl => exact .refl
  | tail _ hc hs ih => exact ih.tail (hCD _ _ hc) hs

theorem Steps.head_cases (r : M.Steps C s t h) :
    s = t ∨ ∃ a u e k, C s a ∧ M.step s a = some (u, e) ∧ M.Steps C u t k := by
  induction r with
  | refl => exact .inl rfl
  | tail r hc hst ih =>
    rcases ih with rfl | ⟨a, u, e, k, ha, hu, ru⟩
    · exact .inr ⟨_, _, _, _, hc, hst, .refl⟩
    · exact .inr ⟨a, u, e, _, ha, hu, ru.tail hc hst⟩

/-- Where `C` leaves no choice, there is one way to a state from which it leaves no step. -/
theorem Steps.stuck_unique (hone : ∀ s a b, C s a → C s b → a = b)
    (r : M.Steps C s t h) (ht : ∀ a, C t a → M.step t a = none)
    (ru : M.Steps C s u k) (hu : ∀ a, C u a → M.step u a = none) : t = u := by
  obtain ⟨l, rt⟩ : ∃ l, M.Steps C t u l := by
    clear ht
    induction r with
    | refl => exact ⟨k, ru⟩
    | @tail m _ _ _ a _ hc hst ih =>
      obtain ⟨l, rm⟩ := ih
      rcases rm.head_cases with rfl | ⟨b, v, e, l', hb, hv, rv⟩
      · -- there is no step from `u`
        simp [hu a hc] at hst
      · obtain rfl := hone _ _ _ hc hb
        obtain ⟨rfl, -⟩ := Prod.mk.inj (Option.some.inj (hst.symm.trans hv))
        exact ⟨l', rv⟩
  rcases rt.head_cases with heq | ⟨a, v, e, l', ha, hv, -⟩
  · exact heq
  · simp [ht a ha] at hv

theorem Run.reach (r : M.Run C s h) : M.Reach s h := Steps.mono (fun _ _ _ => trivial) r

/-- **Invariant rule.**  The step may use that its source state is reached by such a run. -/
theorem Run.invariant {I : σ → List ε → Prop} (h0 : I M.init [])
    (hs : ∀ {s h a s' e}, M.Run C s h → I s h → C s a → M.step s a = some (s', e) → I s' (h ++ e))
    (r : M.Run C s h) : I s h := by
  induction r with
  | refl => exact h0
  | tail hr hc hst ih => exact hs hr ih hc hst

/-- **Accounts.**  If each step pays its cost from the potential `φ` and from what it gains, so does
a run. -/
theorem Steps.trades {P : σ → Prop} {cost gain : List ε → ℕ} {φ : σ → ℕ}
    (hcost : cost [] = 0) (hcost' : ∀ h k, cost (h ++ k) = cost h + cost k)
    (hgain : ∀ h k, gain (h ++ k) = gain h + gain k)
    (hs : ∀ {s a t e}, P s → C s a → M.step s a = some (t, e) →
      P t ∧ cost e + φ t ≤ φ s + gain e)
    (hP : P s) (r : M.Steps C s t h) : P t ∧ cost h + φ t ≤ φ s + gain h := by
  induction r with
  | refl => exact ⟨hP, by omega⟩
  | tail _ hc hst ih =>
    obtain ⟨hPt, hle⟩ := hs ih.1 hc hst
    refine ⟨hPt, ?_⟩
    rw [hcost', hgain]
    have := ih.2
    omega

/-- **Potentials.**  If each step pays its cost from the potential `φ`, so does a run. -/
theorem Steps.spends {P : σ → Prop} {cost : List ε → ℕ} {φ : σ → ℕ} (hnil : cost [] = 0)
    (happend : ∀ h k, cost (h ++ k) = cost h + cost k)
    (hs : ∀ {s a t e}, P s → C s a → M.step s a = some (t, e) → P t ∧ cost e + φ t ≤ φ s)
    (hP : P s) (r : M.Steps C s t h) : P t ∧ cost h + φ t ≤ φ s :=
  @Steps.trades _ _ _ M C s t h P cost (fun _ => 0) φ hnil happend (fun _ _ => rfl) hs hP r

/-- **Variants.**  If, as long as `G` does not hold, a step can lower the variant `φ`, then `G` can
be reached. -/
theorem exists_steps_of_variant {P G : σ → Prop} (φ : σ → ℕ)
    (hs : ∀ s, P s → ¬ G s → ∃ a t e, C s a ∧ M.step s a = some (t, e) ∧ P t ∧ φ t < φ s)
    (hP : P s) : ∃ t h, M.Steps C s t h ∧ G t := by
  induction hn : φ s using Nat.strongRecOn generalizing s with
  | ind n ih =>
    by_cases hG : G s
    · exact ⟨s, [], .refl, hG⟩
    · obtain ⟨a, t, e, hc, hst, hPt, hlt⟩ := hs s hP hG
      obtain ⟨u, k, r, hGu⟩ := ih (φ t) (hn ▸ hlt) hPt rfl
      exact ⟨u, e ++ k, (Steps.single hc hst).trans r, hGu⟩

/-- **Simulation.**  If `f` maps every step of `M` to steps of `N` emitting the image of what `M`
emits, it maps runs to runs. -/
theorem Steps.simulate {N : Machine τ β δ} {E : τ → β → Prop} (f : σ → τ) (g : ε → Option δ)
    (hs : ∀ {t h a t' e}, M.Steps C s t h → C t a → M.step t a = some (t', e) →
      N.Steps E (f t) (f t') (e.filterMap g))
    (r : M.Steps C s u h) : N.Steps E (f s) (f u) (h.filterMap g) := by
  induction r with
  | refl => exact .refl
  | tail hr hc hst ih =>
    rw [List.filterMap_append]
    exact ih.trans (hs hr hc hst)

/-- The machine that also notes something about each step. -/
def noting (M : Machine σ α ε) (note : σ → α → List δ) : Machine σ α (ε ⊕ δ) where
  init := M.init
  step s a := (M.step s a).map fun q => (q.1, q.2.map .inl ++ (note s a).map .inr)

theorem step_noting {note : σ → α → List δ} {a : α} {l : List (ε ⊕ δ)} :
    (M.noting note).step s a = some (t, l) ↔
      ∃ e, M.step s a = some (t, e) ∧ l = e.map .inl ++ (note s a).map .inr := by
  simp only [noting, Option.map_eq_some_iff, Prod.exists, Prod.ext_iff]
  constructor
  · rintro ⟨u, e, hst, rfl, hl⟩
    exact ⟨e, hst, hl.symm⟩
  · rintro ⟨e, hst, rfl⟩
    exact ⟨t, e, hst, rfl, rfl⟩

/-- Without the notes a run is one of the machine. -/
theorem Steps.of_noting {note : σ → α → List δ} {l : List (ε ⊕ δ)}
    (r : (M.noting note).Steps C s t l) : ∃ e, M.Steps C s t e := by
  induction r with
  | refl => exact ⟨[], .refl⟩
  | tail _ hc hst ih =>
    obtain ⟨e, hst, -⟩ := step_noting.mp hst
    exact ⟨_, ih.choose_spec.tail hc hst⟩

/-- The machine with its history in the state. -/
def logged (M : Machine σ α ε) : Machine (σ × List ε) α ε where
  init := (M.init, [])
  step p a := (M.step p.1 a).map fun q => ((q.1, p.2 ++ q.2), q.2)

theorem step_logged {p q : σ × List ε} {a : α} {e : List ε} :
    M.logged.step p a = some (q, e) ↔ M.step p.1 a = some (q.1, e) ∧ q.2 = p.2 ++ e := by
  simp only [logged, Option.map_eq_some_iff, Prod.exists, Prod.ext_iff]
  constructor
  · rintro ⟨t, k, hst, ⟨rfl, hq⟩, rfl⟩
    exact ⟨hst, hq.symm⟩
  · rintro ⟨hst, hq⟩
    exact ⟨q.1, e, hst, ⟨rfl, hq.symm⟩, rfl⟩

/-- What a logged run carries is its history, and without it the run is one of the machine. -/
theorem reach_of_logged {C : σ × List ε → α → Prop} {p : σ × List ε}
    (r : M.logged.Run C p h) : p.2 = h ∧ M.Reach p.1 h := by
  refine Run.invariant (I := fun p h => p.2 = h ∧ M.Reach p.1 h) ⟨rfl, .refl⟩ ?_ r
  rintro p h a q e _ ⟨rfl, hr⟩ _ hst
  obtain ⟨hst, hq⟩ := step_logged.mp hst
  exact ⟨hq, hr.tail trivial hst⟩

variable (M) (C) in
/-- Runs a schedule; `none` if an action is not enabled or violates `C`. -/
def execIn [∀ s a, Decidable (C s a)] : σ → List α → Option (σ × List ε)
  | s, [] => some (s, [])
  | s, a :: as =>
    if C s a then
      match M.step s a with
      | none => none
      | some (t, e) =>
        match execIn t as with
        | none => none
        | some (u, h) => some (u, e ++ h)
    else none

theorem steps_of_execIn [∀ s a, Decidable (C s a)] :
    ∀ {as : List α} {s t : σ} {h : List ε}, M.execIn C s as = some (t, h) → M.Steps C s t h
  | [], s, t, h, he => by
    simp only [execIn, Option.some.injEq, Prod.mk.injEq] at he
    obtain ⟨rfl, rfl⟩ := he
    exact .refl
  | a :: as, s, t, h, he => by
    simp only [execIn] at he
    split_ifs at he with hc
    cases hst : M.step s a with
    | none => simp [hst] at he
    | some r =>
      obtain ⟨m, e⟩ := r
      rw [hst] at he
      cases hrest : M.execIn C m as with
      | none => simp [hrest] at he
      | some q =>
        obtain ⟨u, k⟩ := q
        simp only [hrest, Option.some.injEq, Prod.mk.injEq] at he
        obtain ⟨rfl, rfl⟩ := he
        exact (Steps.single hc hst).trans (steps_of_execIn hrest)

/-- The run of a schedule that can be computed. -/
theorem run_schedule (M : Machine σ α ε) (C : σ → α → Prop) [∀ s a, Decidable (C s a)]
    (as : List α) {q : σ × List ε} (he : M.execIn C M.init as = some q) : M.Run C q.1 q.2 :=
  steps_of_execIn he

/-- The run of a schedule of which a property can be decided. -/
theorem exists_run_schedule (M : Machine σ α ε) (C : σ → α → Prop) [∀ s a, Decidable (C s a)]
    (as : List α) {P : σ × List ε → Prop} (hP : ∃ q ∈ M.execIn C M.init as, P q) :
    ∃ s h, M.Run C s h ∧ P (s, h) := by
  obtain ⟨q, hq, hP⟩ := hP
  exact ⟨q.1, q.2, run_schedule M C as hq, hP⟩

end Machine

end Zurg.Lib
