import Mathlib.Data.List.Nodup
import Mathlib.Data.List.Basic
import Mathlib.Logic.Relation

/-!
# Zurg.Lib.SerialQueue — a queue of keyed items worked off one at a time

What a serial executor is for, without its threads and tables: items wait in a queue, at most one
item is being worked on, and no two items present carry the same key.  The last fact is a field, so
every operation has to keep it.  `Step` lists all that may happen to such a queue, and `Arises` says
that a queue comes about that way.
-/

namespace Zurg.Lib

/-- Items waiting and the item in work; keys are unique among them. -/
structure SerialQueue (τ κ : Type) (key : τ → κ) where
  current : Option τ
  queue : List τ
  nodup : ((current.toList ++ queue).map key).Nodup

namespace SerialQueue

variable {τ κ : Type} {key : τ → κ}

/-- All items present: the one in work, then the waiting ones. -/
def members (a : SerialQueue τ κ key) : List τ := a.current.toList ++ a.queue

theorem mem_members {a : SerialQueue τ κ key} {t : τ} :
    t ∈ a.members ↔ a.current = some t ∨ t ∈ a.queue := by
  simp [members]

theorem members_nodup (a : SerialQueue τ κ key) : a.members.Nodup := a.nodup.of_map key

theorem queue_nodup (a : SerialQueue τ κ key) : a.queue.Nodup :=
  (List.nodup_append.mp a.members_nodup).2.1

/-- Items present with the same key are the same item. -/
theorem eq_of_key {a : SerialQueue τ κ key} {t u : τ} (ht : t ∈ a.members) (hu : u ∈ a.members)
    (h : key t = key u) : t = u :=
  List.inj_on_of_nodup_map a.nodup ht hu h

theorem current_not_mem_queue {a : SerialQueue τ κ key} {t : τ} (h : a.current = some t) :
    t ∉ a.queue := by
  have hn := a.members_nodup
  rw [members, h, Option.toList_some, List.singleton_append, List.nodup_cons] at hn
  exact hn.1

def empty : SerialQueue τ κ key := ⟨none, [], List.nodup_nil⟩

/-- A new item joins at the end. -/
def push (a : SerialQueue τ κ key) (t : τ) (h : key t ∉ a.members.map key) :
    SerialQueue τ κ key where
  current := a.current
  queue := a.queue ++ [t]
  nodup := by
    rw [← List.append_assoc, List.map_append, List.nodup_append]
    refine ⟨a.nodup, by simp, ?_⟩
    simp only [List.map_cons, List.map_nil, List.mem_singleton]
    rintro k hk _ rfl rfl
    exact h hk

/-- Waiting items leave; those satisfying `p` stay, in their order. -/
def retain (a : SerialQueue τ κ key) (p : τ → Bool) : SerialQueue τ κ key where
  current := a.current
  queue := a.queue.filter p
  nodup := a.nodup.sublist (((List.filter_sublist).append_left _).map key)

/-- The first waiting item is taken into work. -/
def take (a : SerialQueue τ κ key) (t : τ) (rest : List τ) (hc : a.current = none)
    (hq : a.queue = t :: rest) : SerialQueue τ κ key where
  current := some t
  queue := rest
  nodup := by have := a.nodup; rwa [hc, hq] at this

/-- The item in work is done. -/
def finish (a : SerialQueue τ κ key) : SerialQueue τ κ key where
  current := none
  queue := a.queue
  nodup := a.nodup.sublist ((List.sublist_append_right _ _).map key)

@[simp] theorem current_push (a : SerialQueue τ κ key) (t : τ) (h) :
    (a.push t h).current = a.current := rfl
@[simp] theorem queue_push (a : SerialQueue τ κ key) (t : τ) (h) :
    (a.push t h).queue = a.queue ++ [t] := rfl
@[simp] theorem current_retain (a : SerialQueue τ κ key) (p : τ → Bool) :
    (a.retain p).current = a.current := rfl
@[simp] theorem queue_retain (a : SerialQueue τ κ key) (p : τ → Bool) :
    (a.retain p).queue = a.queue.filter p := rfl
@[simp] theorem current_take (a : SerialQueue τ κ key) (t : τ) (rest : List τ) (hc hq) :
    (a.take t rest hc hq).current = some t := rfl
@[simp] theorem queue_take (a : SerialQueue τ κ key) (t : τ) (rest : List τ) (hc hq) :
    (a.take t rest hc hq).queue = rest := rfl
@[simp] theorem current_finish (a : SerialQueue τ κ key) : a.finish.current = none := rfl
@[simp] theorem queue_finish (a : SerialQueue τ κ key) : a.finish.queue = a.queue := rfl

theorem members_retain_subset (a : SerialQueue τ κ key) (p : τ → Bool) :
    (a.retain p).members ⊆ a.members := by
  intro t ht
  rw [mem_members, current_retain, queue_retain] at ht
  exact mem_members.mpr (ht.imp_right fun h => (List.mem_filter.mp h).1)

theorem members_finish_subset (a : SerialQueue τ κ key) : a.finish.members ⊆ a.members :=
  fun _ ht => List.mem_append_right _ (by simpa [members] using ht)

theorem members_take (a : SerialQueue τ κ key) (t : τ) (rest : List τ) (hc hq) :
    (a.take t rest hc hq).members = a.members := by
  simp [members, hc, hq]

theorem members_push (a : SerialQueue τ κ key) (t : τ) (h) :
    (a.push t h).members = a.members ++ [t] := by
  simp [members]

/-- All that may happen to a serial queue in one step. -/
inductive Step : SerialQueue τ κ key → SerialQueue τ κ key → Prop
  | stay (a) : Step a a
  | push (a) (t : τ) (h) : Step a (a.push t h)
  | retain (a) (p : τ → Bool) : Step a (a.retain p)
  | take (a) (t : τ) (rest : List τ) (hc hq) : Step a (a.take t rest hc hq)
  | finish (a) : Step a a.finish

/-- The queue comes about from the empty one. -/
abbrev Arises (a : SerialQueue τ κ key) : Prop := Relation.ReflTransGen Step empty a

end SerialQueue

end Zurg.Lib
