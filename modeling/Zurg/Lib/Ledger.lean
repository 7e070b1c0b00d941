import Mathlib.Data.List.Nodup
import Mathlib.Data.List.Basic

/-!
# Zurg.Lib.Ledger — the books of a queue

What has been accepted into a queue, removed from it and started from its front, each in the order
it happened.  `Balanced` says that the items started and the items waiting are those accepted less
those removed, in the order of acceptance; it is kept when an item joins, when items leave from
anywhere in the queue, and when the first item is started.
-/

namespace Zurg.Lib

structure Ledger (τ : Type) where
  accepted : List τ := []
  removed : List τ := []
  started : List τ := []

namespace Ledger

variable {τ : Type} [DecidableEq τ] {l : Ledger τ} {queue rest : List τ} {t : τ}

structure Balanced (l : Ledger τ) (queue : List τ) : Prop where
  accounted : l.started ++ queue = l.accepted.filter (fun t => t ∉ l.removed)
  nodup : l.accepted.Nodup
  removed_subset : l.removed ⊆ l.accepted

namespace Balanced

theorem empty : Balanced ({} : Ledger τ) [] := ⟨rfl, List.nodup_nil, List.nil_subset _⟩

/-- Nothing is both started and waiting, and nothing is so twice. -/
theorem items_nodup (b : Balanced l queue) : (l.started ++ queue).Nodup :=
  b.accounted ▸ b.nodup.filter _

theorem started_nodup (b : Balanced l queue) : l.started.Nodup :=
  (List.nodup_append.mp b.items_nodup).1

theorem mem_accepted (b : Balanced l queue) (h : t ∈ l.started ++ queue) :
    t ∈ l.accepted ∧ t ∉ l.removed := by
  rw [b.accounted, List.mem_filter, decide_eq_true_eq] at h
  exact h

theorem not_started_of_removed (b : Balanced l queue) (h : t ∈ l.removed) : t ∉ l.started :=
  fun hs => (b.mem_accepted (List.mem_append_left _ hs)).2 h

theorem push (b : Balanced l queue) (h : t ∉ l.accepted) :
    Balanced { l with accepted := l.accepted ++ [t] } (queue ++ [t]) where
  accounted := by
    have ht : t ∉ l.removed := fun hm => h (b.removed_subset hm)
    simp only [List.filter_append, ← List.append_assoc, b.accounted]
    simp [ht]
  nodup := by
    rw [List.nodup_append]
    refine ⟨b.nodup, by simp, fun u hu v hv => ?_⟩
    rw [List.mem_singleton.mp hv]
    rintro rfl
    exact h hu
  removed_subset := List.subset_append_of_subset_left _ b.removed_subset

/-- The items satisfying `p` stay. -/
theorem retain (b : Balanced l queue) (p : τ → Bool) :
    Balanced { l with removed := l.removed ++ queue.filter (fun t => !p t) } (queue.filter p) where
  accounted := by
    have hkeep : ∀ t, decide (t ∉ l.removed ++ queue.filter fun t => !p t) =
        (decide (t ∉ queue.filter fun t => !p t) && decide (t ∉ l.removed)) := by
      intro t
      simp [Bool.and_comm]
    have hstarted : l.started.filter (fun t => t ∉ queue.filter fun t => !p t) = l.started := by
      refine List.filter_eq_self.mpr fun t ht => ?_
      have hq : t ∉ queue := fun hq => (List.nodup_append.mp b.items_nodup).2.2 t ht t hq rfl
      simp [hq]
    have hqueue : queue.filter (fun t => t ∉ queue.filter fun t => !p t) = queue.filter p := by
      refine List.filter_congr fun t ht => ?_
      simp [ht]
    simp only [hkeep, ← List.filter_filter, ← b.accounted, List.filter_append, hstarted, hqueue]
  nodup := b.nodup
  removed_subset := by
    refine List.append_subset.mpr ⟨b.removed_subset, fun t ht => ?_⟩
    exact (b.mem_accepted (List.mem_append_right _ (List.mem_filter.mp ht).1)).1

theorem take (b : Balanced l (t :: rest)) :
    Balanced { l with started := l.started ++ [t] } rest where
  accounted := by simpa using b.accounted
  nodup := b.nodup
  removed_subset := b.removed_subset

end Balanced

end Ledger

end Zurg.Lib
