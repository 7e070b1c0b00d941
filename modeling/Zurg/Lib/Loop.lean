import Mathlib.Data.List.Induction

/-!
# Zurg.Lib.Loop — `for` loops with `continue` and `return`

`forEach f s l` runs the body `f` on the elements of `l`.  The body gives the new state, and a value
if it returns from the surrounding function.  `forEach_post` is the rule for loop invariants, which
speak of the part of the list that has been passed; `forEach_outcome` also follows the value that
the loop is left with.
-/

namespace Zurg.Lib

variable {σ α β ρ : Type}

def forEach (f : σ → α → σ × Option ρ) : σ → List α → σ × Option ρ
  | s, [] => (s, none)
  | s, a :: l =>
    match f s a with
    | (t, none) => forEach f t l
    | (t, some r) => (t, some r)

/-- `I` holds if the loop ran to its end, `R` if it was left by a `return`. -/
def LoopPost (I : σ → Prop) (R : σ → ρ → Prop) : σ × Option ρ → Prop
  | (s, none) => I s
  | (s, some r) => R s r

variable {f : σ → α → σ × Option ρ} {R : σ → ρ → Prop}

/-- The surrounding function is left with the image of what the loop returns. -/
theorem LoopPost.map {ρ' : Type} {g : ρ → ρ'} {I : σ → Prop} {Q : σ → ρ' → Prop}
    {q : σ × Option ρ} (h : LoopPost I R q) (hR : ∀ s r, R s r → Q s (g r)) :
    LoopPost I Q (q.1, q.2.map g) := by
  match q, h with
  | (s, none), h => exact h
  | (s, some r), h => exact hR s r h

/-- What every turn keeps, also the last one. -/
theorem forEach_invariant {P : σ → Prop} (hstep : ∀ s a, P s → P (f s a).1) {s : σ} {l : List α}
    (h : P s) : P (forEach f s l).1 := by
  induction l generalizing s with
  | nil => exact h
  | cons a l ih =>
    have ha := hstep s a h
    simp only [forEach]
    match hf : f s a with
    | (t, none) =>
      rw [hf] at ha
      exact ih ha
    | (t, some r) =>
      rw [hf] at ha
      exact ha

/-- **Loop invariants.**  `I pre s` is the invariant after the elements `pre`. -/
theorem forEach_post {I : List α → σ → Prop}
    (hstep : ∀ pre a s, I pre s → LoopPost (I (pre ++ [a])) R (f s a)) {s : σ} {l : List α} :
    ∀ pre, I pre s → LoopPost (I (pre ++ l)) R (forEach f s l) := by
  induction l generalizing s with
  | nil =>
    intro pre h
    rw [List.append_nil]
    exact h
  | cons a l ih =>
    intro pre h
    have ha := hstep pre a s h
    simp only [forEach]
    match hf : f s a with
    | (t, none) =>
      rw [hf] at ha
      have hl := ih (pre ++ [a]) ha
      rwa [List.append_assoc] at hl
    | (t, some r) =>
      rw [hf] at ha
      exact ha

theorem forEach_append_singleton (s : σ) (l : List α) (a : α) :
    forEach f s (l ++ [a]) =
      match forEach f s l with
      | (t, none) => f t a
      | (t, some r) => (t, some r) := by
  induction l generalizing s with
  | nil =>
    simp only [List.nil_append, forEach]
    match f s a with
    | (t, none) => rfl
    | (t, some r) => rfl
  | cons b l ih =>
    simp only [List.cons_append, forEach]
    match f s b with
    | (t, none) => exact ih t
    | (t, some r) => rfl

/-- **Outcomes.**  `Q pre q` says what has come of the elements `pre`, also if the loop was left at
one of them. -/
theorem forEach_outcome {Q : List α → σ × Option ρ → Prop} {s : σ} {l : List α}
    (hgo : ∀ pre a t, a ∈ l → Q pre (t, none) → Q (pre ++ [a]) (f t a))
    (hleft : ∀ pre a t r, Q pre (t, some r) → Q (pre ++ [a]) (t, some r))
    (h : Q [] (s, none)) : Q l (forEach f s l) := by
  induction l using List.reverseRecOn with
  | nil => exact h
  | append_singleton l a ih =>
    have hl := ih fun pre b t hb => hgo pre b t (List.mem_append_left _ hb)
    rw [forEach_append_singleton]
    match hf : forEach f s l with
    | (t, none) =>
      rw [hf] at hl
      exact hgo l a t (by simp) hl
    | (t, some r) =>
      rw [hf] at hl
      exact hleft l a t r hl

/-- The element at which a loop is left. -/
theorem forEach_left_iff {s : σ} {l : List α} {r : ρ} : (forEach f s l).2 = some r ↔
    ∃ pre a post, l = pre ++ a :: post ∧ (forEach f s pre).2 = none ∧
      (f (forEach f s pre).1 a).2 = some r := by
  induction l generalizing s with
  | nil => simp [forEach]
  | cons a l ih =>
    rcases hf : f s a with ⟨t, _ | r'⟩
    · simp only [forEach, hf]
      rw [ih]
      constructor
      · rintro ⟨pre, b, post, rfl, hgo, hleft⟩
        exact ⟨a :: pre, b, post, rfl, by simpa only [forEach, hf] using hgo,
          by simpa only [forEach, hf] using hleft⟩
      · rintro ⟨pre, b, post, heq, hgo, hleft⟩
        cases pre with
        | nil =>
          obtain ⟨rfl, -⟩ := List.cons.inj heq
          simp [forEach, hf] at hleft
        | cons c pre =>
          obtain ⟨rfl, rfl⟩ := List.cons.inj heq
          simp only [forEach, hf] at hgo hleft
          exact ⟨pre, b, post, rfl, hgo, hleft⟩
    · simp only [forEach, hf]
      constructor
      · intro h
        exact ⟨[], a, l, rfl, rfl, by simpa only [forEach, hf] using h⟩
      · rintro ⟨pre, b, post, heq, hgo, hleft⟩
        cases pre with
        | nil =>
          obtain ⟨rfl, -⟩ := List.cons.inj heq
          simpa only [forEach, hf] using hleft
        | cons c pre =>
          obtain ⟨rfl, -⟩ := List.cons.inj heq
          simp [forEach, hf] at hgo

/-! ## Where the loop has been -/

/-- The elements whose turn has come. -/
def reached (f : σ → α → σ × Option ρ) : σ → List α → List α
  | _, [] => []
  | s, a :: l =>
    a :: match f s a with
      | (t, none) => reached f t l
      | (_, some _) => []

theorem reached_prefix (s : σ) (l : List α) : reached f s l <+: l := by
  induction l generalizing s with
  | nil => exact List.prefix_rfl
  | cons a l ih =>
    simp only [reached, List.prefix_cons_inj]
    match f s a with
    | (t, none) => exact ih t
    | (t, some r) => exact List.nil_prefix

theorem reached_of_ended {s : σ} {l : List α} (h : (forEach f s l).2 = none) :
    reached f s l = l := by
  induction l generalizing s with
  | nil => rfl
  | cons a l ih =>
    simp only [forEach] at h
    simp only [reached, List.cons.injEq, true_and]
    match hf : f s a with
    | (t, none) =>
      rw [hf] at h
      exact ih h
    | (t, some r) =>
      rw [hf] at h
      exact nomatch h

/-- What each turn adds to a list. -/
theorem forEach_collect {g : σ → List β} {add : α → List β}
    (hstep : ∀ s a, g (f s a).1 = g s ++ add a) (s : σ) (l : List α) :
    g (forEach f s l).1 = g s ++ (reached f s l).flatMap add := by
  induction l generalizing s with
  | nil => simp [forEach, reached]
  | cons a l ih =>
    have ha := hstep s a
    simp only [forEach, reached, List.flatMap_cons]
    match hf : f s a with
    | (t, none) =>
      rw [hf] at ha
      rw [ih t, ha, List.append_assoc]
    | (t, some r) =>
      rw [hf] at ha
      rw [ha, List.flatMap_nil, List.append_nil]

end Zurg.Lib
