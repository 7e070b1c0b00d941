import Mathlib.Data.List.Nodup
import Mathlib.Logic.Equiv.Basic

/-!
# Zurg.Lib.Ownership — resources that have one owner each

`owner v` is the resource that `v` owns, if it owns one, and `rs` lists the resources there are.
`OneOwner owner rs`: each resource has one owner, and nothing else is owned.  It is kept when an
owner without a resource acquires a new one, when an owner gives up what it has, and when a resource
is handed on to an owner without one.
-/

namespace Zurg.Lib

variable {V R : Type} {owner : V → Option R} {rs : List R} {v w : V} {r : R}

structure OneOwner (owner : V → Option R) (rs : List R) : Prop where
  nodup : rs.Nodup
  mem_iff : ∀ r, r ∈ rs ↔ ∃ v, owner v = some r
  unique : ∀ v w r, owner v = some r → owner w = some r → v = w

namespace OneOwner

theorem empty : OneOwner (fun _ : V => none) ([] : List R) :=
  ⟨List.nodup_nil, fun r => by simp, fun v w r hv => absurd hv (by simp)⟩

theorem mem (ho : OneOwner owner rs) (hv : owner v = some r) : r ∈ rs := (ho.mem_iff r).mpr ⟨v, hv⟩

variable [DecidableEq V]

theorem acquire (ho : OneOwner owner rs) (hv : owner v = none) (hr : r ∉ rs) :
    OneOwner (Function.update owner v (some r)) (rs ++ [r]) where
  nodup := by
    rw [← List.concat_eq_append]
    exact ho.nodup.concat hr
  mem_iff q := by
    rw [List.mem_append, List.mem_singleton, ho.mem_iff]
    constructor
    · rintro (⟨u, hu⟩ | rfl)
      · have hne : u ≠ v := by
          rintro rfl
          simp [hv] at hu
        exact ⟨u, by rw [Function.update_of_ne hne, hu]⟩
      · exact ⟨v, by rw [Function.update_self]⟩
    · rintro ⟨u, hu⟩
      by_cases huv : u = v
      · rw [huv, Function.update_self] at hu
        exact .inr (Option.some.inj hu).symm
      · rw [Function.update_of_ne huv] at hu
        exact .inl ⟨u, hu⟩
  unique u u' q hu hu' := by
    -- only `v` owns the new one
    have hnew : ∀ {x}, x ≠ v → owner x ≠ some r := fun _ hx => hr (ho.mem hx)
    by_cases huv : u = v <;> by_cases huv' : u' = v
    · rw [huv, huv']
    · rw [huv, Function.update_self] at hu
      rw [Function.update_of_ne huv', ← hu] at hu'
      exact absurd hu' (hnew huv')
    · rw [huv', Function.update_self] at hu'
      rw [Function.update_of_ne huv, ← hu'] at hu
      exact absurd hu (hnew huv)
    · rw [Function.update_of_ne huv] at hu
      rw [Function.update_of_ne huv'] at hu'
      exact ho.unique u u' q hu hu'

/-- What is left of the resources when `v` gives up its own. -/
theorem release [DecidableEq R] (ho : OneOwner owner rs) :
    OneOwner (Function.update owner v none) ((owner v).elim rs rs.erase) where
  nodup := by
    cases owner v with
    | none => exact ho.nodup
    | some r => exact ho.nodup.erase r
  mem_iff q := by
    have hout : (∃ u, Function.update owner v none u = some q) ↔ ∃ u, u ≠ v ∧ owner u = some q := by
      refine exists_congr fun u => ?_
      by_cases huv : u = v
      · simp [huv]
      · simp [huv]
    rw [hout]
    cases hv : owner v with
    | none =>
      rw [Option.elim_none, ho.mem_iff]
      refine exists_congr fun u => ⟨fun hu => ⟨?_, hu⟩, fun hu => hu.2⟩
      rintro rfl
      simp [hv] at hu
    | some r =>
      rw [Option.elim_some, ho.nodup.mem_erase_iff, ho.mem_iff]
      constructor
      · rintro ⟨hne, u, hu⟩
        refine ⟨u, ?_, hu⟩
        rintro rfl
        exact hne (Option.some.inj (hu.symm.trans hv))
      · rintro ⟨u, huv, hu⟩
        refine ⟨?_, u, hu⟩
        rintro rfl
        exact huv (ho.unique u v q hu hv)
  unique u u' q hu hu' := by
    have hsame : ∀ {x}, Function.update owner v none x = some q → owner x = some q := by
      intro x hx
      by_cases hxv : x = v
      · rw [hxv, Function.update_self] at hx
        exact absurd hx (by simp)
      · rwa [Function.update_of_ne hxv] at hx
    exact ho.unique u u' q (hsame hu) (hsame hu')

/-- `w` hands what it has on to `v`. -/
theorem handOn (ho : OneOwner owner rs) (hv : owner v = none) :
    OneOwner (Function.update (Function.update owner v (owner w)) w none) rs := by
  -- up to the names of the owners nothing happens
  have hswap : ∀ u, Function.update (Function.update owner v (owner w)) w none u =
      owner (Equiv.swap v w u) := by
    intro u
    by_cases hu : u = w
    · rw [hu, Function.update_self, Equiv.swap_apply_right, hv]
    · rw [Function.update_of_ne hu]
      by_cases huv : u = v
      · rw [huv, Function.update_self, Equiv.swap_apply_left]
      · rw [Function.update_of_ne huv, Equiv.swap_apply_of_ne_of_ne huv hu]
  refine ⟨ho.nodup, fun q => ?_, fun u u' q hu hu' => ?_⟩
  · rw [ho.mem_iff]
    simp only [hswap]
    exact ⟨fun ⟨u, hu⟩ => ⟨Equiv.swap v w u, by rw [Equiv.swap_apply_self, hu]⟩,
      fun ⟨u, hu⟩ => ⟨_, hu⟩⟩
  · rw [hswap] at hu hu'
    exact (Equiv.swap v w).injective (ho.unique _ _ q hu hu')

end OneOwner

end Zurg.Lib
