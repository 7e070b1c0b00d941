import Mathlib.Data.List.Basic

/-!
# Zurg.Lib.History — properties of an event and what came before it

`Always P h`: each event `x` of the history `h` satisfies `P pre x`, where `pre` is the part of `h`
before it.  Orders ("each answer comes after its question", "the first message is a greeting") are
of this form, and are proved event by event with `Always.append`.

`Since r h x`: the event `x` of `h` has no event `r` after it.

`last f h`: what `f` says of the last event of `h` of which it says something.
`Last f h pre x post`: that event is `x`, between `pre` and `post`.
-/

namespace Zurg.Lib

variable {ε : Type}

/-- An event of `h ++ [x]` is the last one or an event of `h`. -/
theorem snoc_eq_split {h pre post : List ε} {x y : ε} (heq : h ++ [x] = pre ++ y :: post) :
    (pre = h ∧ y = x ∧ post = []) ∨ ∃ post', post = post' ++ [x] ∧ h = pre ++ y :: post' := by
  rcases List.eq_nil_or_concat post with rfl | ⟨post', z, rfl⟩
  · obtain ⟨rfl, hxy⟩ := List.append_inj' heq rfl
    exact .inl ⟨rfl, (List.cons.inj hxy).1.symm, rfl⟩
  · rw [List.concat_eq_append, ← List.cons_append, ← List.append_assoc] at heq
    obtain ⟨rfl, hxz⟩ := List.append_inj' heq rfl
    exact .inr ⟨post', by rw [List.concat_eq_append, (List.cons.inj hxz).1], rfl⟩

/-- Each event of `h` satisfies `P` with its past. -/
def Always (P : List ε → ε → Prop) (h : List ε) : Prop :=
  ∀ pre x post, h = pre ++ x :: post → P pre x

namespace Always

variable {P : List ε → ε → Prop} {h e : List ε} {x : ε}

theorem nil : Always P [] := fun pre x post h => by simp at h

theorem append (hh : Always P h) (he : ∀ pre x post, e = pre ++ x :: post → P (h ++ pre) x) :
    Always P (h ++ e) := by
  intro pre x post heq
  rcases List.append_eq_append_iff.mp heq with ⟨m, rfl, hm⟩ | ⟨m, hm, hpost⟩
  · exact he m x post hm
  · cases m with
    | nil => simpa [hm] using he [] x post (by simpa using hpost.symm)
    | cons y m =>
      obtain ⟨rfl, rfl⟩ := List.cons.inj hpost
      exact hh pre x m hm

theorem snoc (hh : Always P h) (hx : P h x) : Always P (h ++ [x]) := by
  intro pre y post heq
  rcases snoc_eq_split heq with ⟨rfl, rfl, -⟩ | ⟨post', -, rfl⟩
  · exact hx
  · exact hh pre y post' rfl

theorem last (hh : Always P (h ++ [x])) : P h x := hh h x [] rfl

theorem of_append (hh : Always P (h ++ e)) : Always P h := fun pre x post heq =>
  hh pre x (post ++ e) (by simp [heq])

end Always

/-- `x` has happened after the last `r`. -/
def Since (r : ε) (h : List ε) (x : ε) : Prop := ∃ pre post, h = pre ++ x :: post ∧ r ∉ post

namespace Since

variable {r x y : ε} {h e : List ε}

theorem mem (hs : Since r h x) : x ∈ h := by
  obtain ⟨pre, post, rfl, -⟩ := hs
  simp

theorem append_iff : Since r (h ++ e) x ↔ Since r e x ∨ Since r h x ∧ r ∉ e := by
  constructor
  · rintro ⟨pre, post, heq, hr⟩
    rcases List.append_eq_append_iff.mp heq with ⟨m, rfl, hm⟩ | ⟨m, rfl, hm⟩
    · exact .inl ⟨m, post, hm, hr⟩
    · cases m with
      | nil => exact .inl ⟨[], post, by simpa using hm.symm, hr⟩
      | cons z m =>
        obtain ⟨rfl, rfl⟩ := List.cons.inj hm
        obtain ⟨hm, he⟩ := not_or.mp (mt List.mem_append.mpr hr)
        exact .inr ⟨⟨pre, m, rfl, hm⟩, he⟩
  · rintro (⟨pre, post, rfl, hr⟩ | ⟨⟨pre, post, rfl, hr⟩, he⟩)
    · exact ⟨h ++ pre, post, by rw [List.append_assoc], hr⟩
    · exact ⟨pre, post ++ e, by simp, by simp [hr, he]⟩

@[simp] theorem not_nil : ¬ Since r [] x := by
  rintro ⟨pre, post, heq, -⟩
  simp at heq

theorem cons_iff : Since r (y :: e) x ↔ Since r e x ∨ y = x ∧ r ∉ e := by
  have hone : Since r [y] x ↔ y = x := by
    constructor
    · intro hs
      exact (List.mem_singleton.mp hs.mem).symm
    · rintro rfl
      exact ⟨[], [], rfl, by simp⟩
  rw [← List.singleton_append, append_iff, hone]

/-- Events other than `r` and `x` leave it as it is. -/
theorem append_iff_of_not_mem (hr : r ∉ e) (hx : x ∉ e) : Since r (h ++ e) x ↔ Since r h x := by
  rw [append_iff, or_iff_right fun hs => hx hs.mem, and_iff_left hr]

end Since

section Last

variable {δ : Type} {f : ε → Option δ} {h pre post : List ε} {x : ε}

def last (f : ε → Option δ) (h : List ε) : Option δ := h.reverse.findSome? f

structure Last (f : ε → Option δ) (h pre : List ε) (x : ε) (post : List ε) : Prop where
  split : h = pre ++ x :: post
  here : f x ≠ none
  after : ∀ y ∈ post, f y = none

@[simp] theorem last_nil : last f [] = none := rfl

theorem last_append (h e : List ε) : last f (h ++ e) = (last f e <|> last f h) := by
  simp [last]

theorem last_cons (x : ε) (h : List ε) : last f (x :: h) = (last f h <|> f x) := by
  cases hx : f x <;> simp [last, hx]

theorem last_eq_none_iff : last f h = none ↔ ∀ x ∈ h, f x = none := by
  simp [last]

theorem exists_of_last_eq {b : δ} (hb : last f h = some b) : ∃ x ∈ h, f x = some b := by
  obtain ⟨x, hx, hb⟩ := List.exists_of_findSome?_eq_some hb
  exact ⟨x, List.mem_reverse.mp hx, hb⟩

/-- Before and after the last event of which `f` says something. -/
theorem exists_last (hh : last f h ≠ none) : ∃ pre x post, Last f h pre x post := by
  obtain ⟨b, hb⟩ := Option.ne_none_iff_exists'.mp hh
  obtain ⟨post, x, pre, heq, hx, hpost⟩ := List.findSome?_eq_some_iff.mp hb
  refine ⟨pre.reverse, x, post.reverse, ?_, by simp [hx], fun y hy => hpost y (by simpa using hy)⟩
  rw [← List.reverse_reverse h, heq]
  simp

theorem Last.last_eq (hl : Last f h pre x post) : last f h = f x := by
  obtain ⟨b, hb⟩ := Option.ne_none_iff_exists'.mp hl.here
  rw [hl.split, last_append, last_cons, last_eq_none_iff.mpr hl.after, hb]
  rfl

end Last

end Zurg.Lib
