import Mathlib.Data.Finset.Max
import Mathlib.Data.Fintype.Basic
import Mathlib.Data.Fintype.Pi
import Zurg.Lib.Machine

/-!
# Zurg.Lib.Locks — what threads do with mutexes, and lock orders

`Code` is what is left of a function when only its mutexes are kept: scoped guards, waits on a
condition variable, other blocking calls, and control flow with the conditions forgotten.  Calls are
Lean calls, so the code of a function mentions the code of its callees.

Threads run such code, interleaved step by step (`threads`).  If every guard takes a mutex of higher
rank than all the mutexes held around it, and nobody blocks with a mutex held (`Code.ordered`), then
in every reachable state a mutex has one holder at most, nobody waits for itself, and as long as
some mutex is held some holder can go on without waiting for anything (`exists_moving_holder`).
-/

namespace Zurg.Lib.Locks

variable {μ ι : Type} [DecidableEq μ]

/-- What a piece of code does with mutexes. -/
inductive Code (μ : Type)
  | skip
  /-- The scope of a `lock_guard`. -/
  | guarded (m : μ) (body : Code μ)
  /-- `cv.wait(lock)`, in the scope of the lock of `m`. -/
  | wait (m : μ)
  /-- A call that waits for another thread or for time to pass. -/
  | block
  | seq (a b : Code μ)
  | choice (a b : Code μ)
  | loop (body : Code μ)
  deriving DecidableEq, Repr

namespace Code

/-- One after the other. -/
def all : List (Code μ) → Code μ
  | [] => skip
  | c :: cs => seq c (all cs)

/-- One of them. -/
def oneOf : List (Code μ) → Code μ
  | [] => skip
  | [c] => c
  | c :: cs => choice c (oneOf cs)

/-- With `held` held around it, the code takes mutexes in increasing rank only, and it blocks with
no mutex held but the one it waits with. -/
def ordered (rank : μ → ℕ) (held : List μ) : Code μ → Bool
  | skip => true
  | guarded m body => held.all (fun n => rank n < rank m) && body.ordered rank (m :: held)
  | wait m => held = [m]
  | block => held.isEmpty
  | seq a b => a.ordered rank held && b.ordered rank held
  | choice a b => a.ordered rank held && b.ordered rank held
  | loop body => body.ordered rank held

end Code

/-- What a thread has still to do. -/
inductive Item (μ : Type)
  | run (c : Code μ)
  | unlock (m : μ)
  /-- Inside `cv.wait(lock)`, with the mutex released. -/
  | waiting (m : μ)
  deriving DecidableEq, Repr

abbrev Thread (μ : Type) := List (Item μ)

/-- The mutexes a thread holds: those it has still to unlock, but for the one it waits with. -/
def held : Thread μ → List μ
  | [] => []
  | .run _ :: k => held k
  | .unlock m :: k => m :: held k
  | .waiting m :: k => (held k).erase m

/-- The next step of a thread; `b` decides branches and whether a loop goes on. -/
def advance (free : μ → Bool) (b : Bool) : Thread μ → Option (Thread μ)
  | [] => none
  | .unlock _ :: k => some k
  | .waiting m :: k => if free m then some k else none
  | .run c :: k =>
    match c with
    | .skip => some k
    | .guarded m body => if free m then some (.run body :: .unlock m :: k) else none
    | .wait m => some (.waiting m :: k)
    | .block => some k
    | .seq a c => some (.run a :: .run c :: k)
    | .choice a c => some (.run (if b then a else c) :: k)
    | .loop body => some (if b then .run body :: .run (.loop body) :: k else k)

/-- The thread waits for a notification, for another thread or for time to pass. -/
def Waits : Thread μ → Prop
  | .waiting _ :: _ => True
  | .run .block :: _ => True
  | _ => False

/-- The thread is about to take a mutex, by a guard or at the end of a wait. -/
def wants : Thread μ → Option μ
  | .run (.guarded m _) :: _ => some m
  | .waiting m :: _ => some m
  | _ => none

/-- Every mutex a thread holds or has still to take ranks above those it held before. -/
def Ranked (rank : μ → ℕ) : Thread μ → Prop
  | [] => True
  | .run c :: k => c.ordered rank (held k) = true ∧ Ranked rank k
  | .unlock m :: k => (∀ n ∈ held k, rank n < rank m) ∧ Ranked rank k
  | .waiting m :: k => held k = [m] ∧ Ranked rank k

variable {rank : μ → ℕ} {f : μ → Bool} {b : Bool} {t t' : Thread μ} {m : μ}

/-! ## One thread -/

theorem Ranked.advance (hr : Ranked rank t) (hst : advance f b t = some t') : Ranked rank t' := by
  match t with
  | [] => simp [Locks.advance] at hst
  | .unlock m :: k =>
    obtain rfl := Option.some.inj hst
    exact hr.2
  | .waiting m :: k =>
    obtain ⟨-, heq⟩ := Option.ite_none_right_eq_some.mp hst
    obtain rfl := Option.some.inj heq
    exact hr.2
  | .run c :: k =>
    obtain ⟨hc, hk⟩ := hr
    cases c with
    | skip | block =>
      obtain rfl := Option.some.inj hst
      exact hk
    | guarded m body =>
      obtain ⟨-, heq⟩ := Option.ite_none_right_eq_some.mp hst
      obtain rfl := Option.some.inj heq
      simp only [Code.ordered, Bool.and_eq_true, List.all_eq_true, decide_eq_true_eq] at hc
      exact ⟨hc.2, hc.1, hk⟩
    | wait m =>
      obtain rfl := Option.some.inj hst
      exact ⟨of_decide_eq_true hc, hk⟩
    | seq a c =>
      obtain rfl := Option.some.inj hst
      simp only [Code.ordered, Bool.and_eq_true] at hc
      exact ⟨hc.1, hc.2, hk⟩
    | choice a c =>
      obtain rfl := Option.some.inj hst
      simp only [Code.ordered, Bool.and_eq_true] at hc
      refine ⟨?_, hk⟩
      cases b
      · exact hc.2
      · exact hc.1
    | loop body =>
      obtain rfl := Option.some.inj hst
      cases b
      · exact hk
      · exact ⟨hc, hc, hk⟩

/-- A thread that blocks holds nothing. -/
theorem Ranked.held_of_waits (hr : Ranked rank t) (hw : Waits t) : held t = [] := by
  match t with
  | .waiting m :: k => simp [held, hr.1]
  | .run .block :: k => exact List.isEmpty_iff.mp hr.1

/-- A thread that takes a mutex by a guard holds only mutexes of lower rank. -/
theorem Ranked.lt_of_wants (hr : Ranked rank t) (hw : wants t = some m) :
    ∀ n ∈ held t, rank n < rank m := by
  match t with
  | .waiting m' :: k => simp [held, hr.1]
  | .run (.guarded m' body) :: k =>
    obtain rfl := Option.some.inj hw
    have hc := hr.1
    simp only [Code.ordered, Bool.and_eq_true, List.all_eq_true, decide_eq_true_eq] at hc
    exact hc.1

/-- Nobody waits for itself. -/
theorem Ranked.not_held_of_wants (hr : Ranked rank t) (hw : wants t = some m) : m ∉ held t :=
  fun hm => absurd (hr.lt_of_wants hw m hm) (Nat.lt_irrefl _)

/-- A step takes at most the mutex the thread wants, when it is free. -/
theorem held_advance (hst : advance f b t = some t') :
    held t' ⊆ held t ∨ ∃ m, wants t = some m ∧ f m = true ∧ held t' ⊆ m :: held t := by
  match t with
  | [] => simp [Locks.advance] at hst
  | .unlock m :: k =>
    obtain rfl := Option.some.inj hst
    exact .inl (List.subset_cons_self m _)
  | .waiting m :: k =>
    obtain ⟨hf, heq⟩ := Option.ite_none_right_eq_some.mp hst
    obtain rfl := Option.some.inj heq
    refine .inr ⟨m, rfl, hf, fun n hn => ?_⟩
    by_cases hnm : n = m
    · exact List.mem_cons.mpr (.inl hnm)
    · exact List.mem_cons.mpr (.inr ((List.mem_erase_of_ne hnm).mpr hn))
  | .run c :: k =>
    cases c with
    | skip | block | seq | choice =>
      obtain rfl := Option.some.inj hst
      exact .inl (List.Subset.refl _)
    | wait m =>
      obtain rfl := Option.some.inj hst
      exact .inl (List.erase_subset)
    | loop body =>
      obtain rfl := Option.some.inj hst
      cases b <;> exact .inl (List.Subset.refl _)
    | guarded m body =>
      obtain ⟨hf, heq⟩ := Option.ite_none_right_eq_some.mp hst
      obtain rfl := Option.some.inj heq
      exact .inr ⟨m, rfl, hf, List.Subset.refl _⟩

/-- A thread that neither blocks nor wants a mutex can go on. -/
theorem advance_isSome (hne : held t ≠ []) (hw : ¬ Waits t) (hf : ∀ m, wants t = some m →
    f m = true) : (advance f b t).isSome = true := by
  match t with
  | [] => exact absurd rfl hne
  | .unlock m :: k => rfl
  | .waiting m :: k => exact absurd trivial hw
  | .run c :: k =>
    cases c with
    | guarded m body => simp [advance, hf m rfl]
    | block => exact absurd trivial hw
    | _ => rfl

/-! ## All threads -/

variable [Fintype ι]

/-- Nobody holds `m`. -/
def free (s : ι → Thread μ) (m : μ) : Bool := decide (∀ i, m ∉ held (s i))

theorem free_iff {s : ι → Thread μ} : free s m = true ↔ ∀ i, m ∉ held (s i) := by
  simp [free]

variable [DecidableEq ι]

/-- The interleavings of the threads `code`. -/
def threads (code : ι → Code μ) : Machine (ι → Thread μ) (ι × Bool) Empty where
  init i := [.run (code i)]
  step s x := (advance (free s) x.2 (s x.1)).map fun t => (Function.update s x.1 t, [])

variable {code : ι → Code μ} {s : ι → Thread μ} {h : List Empty}

/-- The threads keep the lock order, and no mutex has two holders. -/
structure LockInv (rank : μ → ℕ) (s : ι → Thread μ) : Prop where
  ranked : ∀ i, Ranked rank (s i)
  exclusive : ∀ i j m, m ∈ held (s i) → m ∈ held (s j) → i = j

theorem lockInv_of_reach (hc : ∀ i, (code i).ordered rank [] = true)
    (r : (threads code).Reach s h) : LockInv rank s := by
  refine Machine.Run.invariant (I := fun s _ => LockInv rank s) ?_ ?_ r
  · exact ⟨fun i => ⟨hc i, trivial⟩, fun i j m hm => absurd hm List.not_mem_nil⟩
  · rintro s h ⟨p, b⟩ s' e - hI - hst
    obtain ⟨t, ht, heq⟩ := Option.map_eq_some_iff.mp hst
    obtain ⟨rfl, -⟩ := Prod.mk.inj heq
    -- what the thread holds afterwards was its own, or free
    have hheld : ∀ m, m ∈ held t → ∀ j, m ∈ held (s j) → j = p := by
      intro m hm j hj
      rcases held_advance ht with hsub | ⟨n, -, hf, hsub⟩
      · exact hI.exclusive j p m hj (hsub hm)
      · rcases List.mem_cons.mp (hsub hm) with rfl | hm
        · exact absurd hj (free_iff.mp hf j)
        · exact hI.exclusive j p m hj hm
    refine ⟨fun i => ?_, fun i j m hi hj => ?_⟩
    · by_cases hip : i = p
      · subst hip
        rw [Function.update_self]
        exact (hI.ranked i).advance ht
      · rw [Function.update_of_ne hip]
        exact hI.ranked i
    · by_cases hip : i = p
      · by_cases hjp : j = p
        · rw [hip, hjp]
        · rw [hip, Function.update_self] at hi
          rw [Function.update_of_ne hjp] at hj
          exact absurd (hheld m hi j hj) hjp
      · rw [Function.update_of_ne hip] at hi
        by_cases hjp : j = p
        · rw [hjp, Function.update_self] at hj
          exact absurd (hheld m hj i hi) hip
        · rw [Function.update_of_ne hjp] at hj
          exact hI.exclusive i j m hi hj

/-- **No deadlock.**  While a mutex is held, some holder can go on: it neither blocks nor wants a
mutex that is held. -/
theorem LockInv.exists_moving_holder (hI : LockInv rank s) {i : ι} (hm : m ∈ held (s i)) :
    ∃ j, held (s j) ≠ [] ∧ ¬ Waits (s j) ∧
      ∀ b, ((threads code).step s (j, b)).isSome = true := by
  -- the holder of a mutex of the highest rank
  obtain ⟨n, hn, hmax⟩ := Finset.exists_max_image
    (Finset.univ.biUnion fun j => (held (s j)).toFinset) rank ⟨m, by simpa using ⟨i, hm⟩⟩
  obtain ⟨j, hj⟩ : ∃ j, n ∈ held (s j) := by simpa using hn
  have hne : held (s j) ≠ [] := List.ne_nil_of_mem hj
  have hnw : ¬ Waits (s j) := fun hw => hne ((hI.ranked j).held_of_waits hw)
  refine ⟨j, hne, hnw, fun b => ?_⟩
  have hfree : ∀ q, wants (s j) = some q → free s q = true := by
    intro q hq
    refine free_iff.mpr fun k hk => ?_
    have hle : rank q ≤ rank n := hmax q (by simpa using ⟨k, hk⟩)
    have hlt : rank n < rank q := (hI.ranked j).lt_of_wants hq n hj
    omega
  have := advance_isSome (b := b) hne hnw hfree
  simpa [threads] using this

end Zurg.Lib.Locks
