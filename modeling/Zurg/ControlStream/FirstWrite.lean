import Zurg.Lib.History
import Zurg.ControlStream.Moves

/-!
# Zurg.ControlStream.FirstWrite — which message is the first one written on a stream

A stream can be written to from the moment `reactor_` is set, and `pending_writes_` is shared by
all streams.  So the first write of a stream is a greeting exactly if no other message is ahead of
the greetings when `reactor_` is set and no other message comes before the first write.
-/

namespace Zurg.ControlStream

open Lib

variable {μ : Type} {p : μ → Bool} {s t : StreamClient μ} {x : StreamAct μ}
  {h e : List (StreamEvent μ)}

/-- The first write started on each stream is a greeting. -/
def FirstWrite (p : μ → Bool) : List (StreamEvent μ) → Prop :=
  Always fun pre x => ∀ k m, x = .startWrite k m → (∀ m', .startWrite k m' ∉ pre) → p m = true

/-- No other message is pending ahead of the greetings. -/
def StreamClient.Greets (p : μ → Bool) (s : StreamClient μ) : Prop :=
  ∀ m ∈ s.pendingWrites.head?, p m = true

/-- A message enqueued now is not the first one written on a stream. -/
def StreamClient.Sheltered (s : StreamClient μ) : Prop :=
  s.reactor = none ∨ s.wrote = true ∨ s.writeInFlight = true ∨ s.pendingWrites ≠ []

/-- When `reactor_` is set no other message is ahead of the greetings (unless a write is in flight),
and while a stream waits for its first write, with nothing pending, only greetings are enqueued. -/
def GreetingFirst (p : μ → Bool) (s : StreamClient μ) : StreamAct μ → Prop
  | .enqueueWrite m => p m = true ∨ s.Sheltered
  | .connect => s.writeInFlight = true ∨ s.Greets p
  | .setReactor => s.wrote = true ∨ s.writeInFlight = true ∨ s.Greets p
  | _ => True

instance (s : StreamClient μ) : Decidable (s.Greets p) :=
  inferInstanceAs (Decidable (∀ m ∈ s.pendingWrites.head?, p m = true))

instance [DecidableEq μ] (s : StreamClient μ) : Decidable s.Sheltered :=
  inferInstanceAs (Decidable (_ ∨ _))

instance [DecidableEq μ] (s : StreamClient μ) (x : StreamAct μ) :
    Decidable (GreetingFirst p s x) := by
  cases x <;> unfold GreetingFirst <;> infer_instance

theorem Start.sheltered (hs : Start s t e) (hp : s.pendingWrites ≠ []) : t.Sheltered := by
  cases hs with
  | nothing => exact .inr (.inr (.inr hp))
  | start => exact .inr (.inl rfl)

/-- Whatever is enqueued next is not the first write of a stream. -/
theorem sheltered_enqueueWrite (s : StreamClient μ) (m : μ) : (s.enqueueWrite m).1.Sheltered :=
  (start_maybeStartWriteLocked _).sheltered (by simp)

structure FirstInv (p : μ → Bool) (s : StreamClient μ) (h : List (StreamEvent μ)) : Prop where
  stream : StreamInv s
  first : FirstWrite p h
  numbers : ∀ k m, .startWrite k m ∈ h → k ≤ s.streams ∧ (k = s.streams → s.wrote = true)
  wrote : s.wrote = true → ∃ m, .startWrite s.streams m ∈ h
  greets : ∀ k, s.reactor = some k → s.wrote = false → s.writeInFlight = false → s.Greets p

/-- Moves start no write, and most leave what was written on the latest stream alone. -/
theorem FirstInv.frame (hI : FirstInv p s h) (hS : StreamInv t) (hk : t.streams = s.streams)
    (hw : t.wrote = s.wrote) (he : ∀ k m, .startWrite k m ∉ e)
    (hg : ∀ k, t.reactor = some k → t.wrote = false → t.writeInFlight = false → t.Greets p) :
    FirstInv p t (h ++ e) where
  stream := hS
  first := by
    refine hI.first.append ?_
    rintro pre _ post rfl k m rfl
    exact absurd (by simp) (he k m)
  numbers k m hm := by
    rw [hk, hw]
    exact hI.numbers k m ((List.mem_append.mp hm).resolve_right (he k m))
  wrote hwt := by
    rw [hk]
    exact (hI.wrote (hw ▸ hwt)).imp fun _ => List.mem_append_left e
  greets := hg

theorem firstInv_move (hI : FirstInv p s h) (hC : GreetingFirst p s x) (hm : Move s x t e) :
    FirstInv p t (h ++ e) := by
  have hS := streamInv_move hI.stream hm
  cases hm with
  | push m =>
    refine hI.frame hS rfl rfl (by simp) fun k hr hw hf m' hm' => ?_
    cases hp : s.pendingWrites with
    | nil =>
      obtain rfl : m = m' := by simpa [hp] using hm'
      refine hC.resolve_right ?_
      rintro (h | h | h | h)
      · exact nomatch h.symm.trans hr
      · exact nomatch h.symm.trans hw
      · exact nomatch h.symm.trans hf
      · exact h hp
    | cons a rest => exact hI.greets k hr hw hf m' (by simpa [hp] using hm')
  | connect hr =>
    refine ⟨hS, by simpa using hI.first, fun k m hm => ?_, nofun, fun k _ _ hf => ?_⟩
    · have hk := (hI.numbers k m (by simpa using hm)).1
      exact ⟨Nat.le_succ_of_le hk, fun heq => absurd hk (by simp only at heq; omega)⟩
    · exact hC.resolve_left fun h => nomatch h.symm.trans hf
  | setReactor hr =>
    refine hI.frame hS rfl rfl (by simp) fun k _ hw hf => ?_
    rcases hC with h | h | h
    · exact nomatch h.symm.trans hw
    · exact nomatch h.symm.trans hf
    · exact h
  | written ho | failed ho =>
    refine hI.frame hS rfl rfl (by simp) fun k _ hw _ => ?_
    exact nomatch (hI.stream.outstanding _ ho).2.symm.trans hw
  | closeClear => exact hI.frame hS rfl rfl (by simp) fun k _ _ _ m hm => nomatch hm
  | closeDetach => exact hI.frame hS rfl rfl (by simp) fun k hr => nomatch hr
  | waitReturn hr hc hrr =>
    refine hI.frame hS rfl rfl (by simp) fun k hk => ?_
    rcases hrr with rfl | rfl
    · exact nomatch hk
    · exact hI.greets k hk
  | _ => exact hI.frame hS rfl rfl (by simp) hI.greets

theorem firstInv_start (hI : FirstInv p s h) (hs : Start s t e) : FirstInv p t (h ++ e) := by
  have hS := streamInv_start hI.stream hs
  cases hs with
  | nothing => rwa [List.append_nil]
  | @start k m rest hf hp hr =>
    have hk := hI.stream.reactor k hr
    refine ⟨hS, hI.first.snoc ?_, fun j m' hm => ?_,
      fun _ => ⟨m, by simp [StreamClient.started, hk]⟩, fun _ _ hw => nomatch hw⟩
    · rintro _ _ heq hno
      obtain ⟨rfl, rfl⟩ := StreamEvent.startWrite.inj heq
      refine hI.greets k hr ?_ hf m (by simp [hp])
      refine Bool.eq_false_iff.mpr fun hw => ?_
      obtain ⟨m', hm'⟩ := hI.wrote hw
      exact hno m' (hk ▸ hm')
    · rcases List.mem_append.mp hm with hm | hm
      · exact ⟨(hI.numbers j m' hm).1, fun _ => rfl⟩
      · obtain ⟨rfl, -⟩ := StreamEvent.startWrite.inj (List.mem_singleton.mp hm)
        exact ⟨Nat.le_of_eq hk, fun _ => rfl⟩

theorem firstInv_of_run (r : (streamClient μ).Run (GreetingFirst p) s h) : FirstInv p s h := by
  refine invariant_of_moves (I := FirstInv p) ?_ (fun hI hC hm => firstInv_move hI hC hm)
    (fun hI hs => firstInv_start hI hs) r
  exact ⟨.init, .nil, nofun, nofun, nofun⟩

/-! ## The condition is necessary -/

/-- Whoever enqueues now starts the first write of a stream with what is ahead. -/
theorem not_firstWrite_of_head {k : ℕ} {m : μ} {rest : List μ} (hr : s.reactor = some k)
    (hno : ∀ m', .startWrite k m' ∉ h) (hf : s.writeInFlight = false) (n : μ)
    (hp : s.pendingWrites ++ [n] = m :: rest) (hm : p m = false) :
    ¬ FirstWrite p (h ++ (s.enqueueWrite n).2) := by
  intro hfirst
  have he : (s.enqueueWrite n).2 = [.enqueued n, .startWrite k m] := by
    simp [StreamClient.enqueueWrite, StreamClient.maybeStartWriteLocked, hf, hp, hr]
  rw [he] at hfirst
  have := hfirst (h ++ [.enqueued n]) (.startWrite k m) [] (by simp) k m rfl
    (fun m' hm' => hno m' (by simpa using hm'))
  exact nomatch hm.symm.trans this

/-- What is ahead if the greetings are not. -/
theorem exists_head_of_not_greets (hg : ¬ s.Greets p) :
    ∃ m rest, s.pendingWrites = m :: rest ∧ p m = false := by
  cases hp : s.pendingWrites with
  | nil => exact absurd (fun m hm => by simp [hp] at hm) hg
  | cons m rest =>
    refine ⟨m, rest, rfl, Bool.eq_false_iff.mpr fun hm => hg fun m' hm' => ?_⟩
    obtain rfl : m = m' := by simpa [hp] using hm'
    exact hm

/-- **A step against the condition** starts a wrong first write, or the next message to be enqueued
does. -/
theorem greetingFirst_necessary {s' : StreamClient μ}
    (r : (streamClient μ).Run (GreetingFirst p) s h) (hst : s.step x = some (s', e))
    (hC : ¬ GreetingFirst p s x) :
    ∃ u k, (streamClient μ).Steps (fun _ _ => True) s' u k ∧ ¬ FirstWrite p (h ++ e ++ k) := by
  have hI := firstInv_of_run r
  have hfresh : s.wrote = false → ∀ m', .startWrite s.streams m' ∉ h := fun hw m' hm' =>
    nomatch hw.symm.trans ((hI.numbers _ m' hm').2 rfl)
  have hthen : ∀ {t : StreamClient μ}, some (t, []) = some (s', e) →
      t.writeInFlight = false → ∀ k, t.reactor = some k → (∀ m', .startWrite k m' ∉ h) →
      ∀ m rest, t.pendingWrites = m :: rest → p m = false →
      ∃ u k, (streamClient μ).Steps (fun _ _ => True) s' u k ∧ ¬ FirstWrite p (h ++ e ++ k) := by
    intro t heq hf k hr hno m rest hp hm
    obtain ⟨rfl, rfl⟩ := Prod.mk.inj (Option.some.inj heq)
    refine ⟨_, _, .single (a := .enqueueWrite m) trivial rfl, ?_⟩
    rw [List.append_nil]
    exact not_firstWrite_of_head hr hno hf m (by rw [hp]; rfl) hm
  cases x with
  | enqueueWrite m =>
    obtain ⟨rfl, rfl⟩ := Prod.mk.inj (Option.some.inj hst)
    simp only [GreetingFirst, StreamClient.Sheltered, not_or, Bool.not_eq_true, ne_eq,
      Classical.not_not] at hC
    obtain ⟨hm, hr, hw, hf, hp⟩ := hC
    obtain ⟨k, hk⟩ := Option.ne_none_iff_exists'.mp hr
    refine ⟨_, [], .refl, ?_⟩
    rw [List.append_nil]
    obtain rfl := hI.stream.reactor k hk
    exact not_firstWrite_of_head hk (hfresh hw) hf m (by rw [hp]; rfl) hm
  | connect =>
    simp only [StreamClient.step, Option.ite_none_right_eq_some] at hst
    simp only [GreetingFirst, not_or, Bool.not_eq_true] at hC
    obtain ⟨m, rest, hp, hm⟩ := exists_head_of_not_greets hC.2
    refine hthen hst.2 hC.1 _ rfl (fun m' hm' => ?_) m rest hp hm
    exact absurd (hI.numbers _ m' hm').1 (Nat.not_succ_le_self _)
  | setReactor =>
    simp only [StreamClient.step, Option.ite_none_right_eq_some] at hst
    simp only [GreetingFirst, not_or, Bool.not_eq_true] at hC
    obtain ⟨m, rest, hp, hm⟩ := exists_head_of_not_greets hC.2.2
    exact hthen hst.2 hC.2.1 _ rfl (hfresh hC.1) m rest hp hm
  | _ => exact absurd trivial hC

end Zurg.ControlStream
