import Mathlib.Algebra.Order.Ring.Int
import Mathlib.Tactic.SplitIfs

/-!
# Zurg.Lib.Codec — decoders, their inverses, and words of bytes

A decoder takes a value from the front of its input.  `Decodes d enc f P`: from what `enc` has
written for a value satisfying `P` the decoder `d` takes its image under `f`, and leaves the input
that follows.  Words of a fixed width are such a pair in both byte orders, and so is a list of items
that ends with the input (`decodeAll_flatMap`).
-/

namespace Zurg.Lib

variable {α β : Type}

abbrev Decoder (α : Type) := List UInt8 → Option (α × List UInt8)

/-- `d` takes `f a` back from what `enc` has written for `a`. -/
def Decodes (d : Decoder β) (enc : α → List UInt8) (f : α → β) (P : α → Prop) : Prop :=
  ∀ a rest, P a → d (enc a ++ rest) = some (f a, rest)

/-! ## Blocks -/

/-- The first `n` bytes. -/
def takeBytes (n : ℕ) : Decoder (List UInt8) := fun input =>
  if n ≤ input.length then some (input.take n, input.drop n) else none

theorem takeBytes_append {n : ℕ} {data : List UInt8} (h : data.length = n) (rest : List UInt8) :
    takeBytes n (data ++ rest) = some (data, rest) := by
  subst h
  simp [takeBytes]

theorem length_of_takeBytes {n : ℕ} {input data rest : List UInt8}
    (h : takeBytes n input = some (data, rest)) : input.length = n + rest.length := by
  unfold takeBytes at h
  split_ifs at h with hle
  obtain ⟨-, rfl⟩ := Prod.mk.inj (Option.some.inj h)
  rw [List.length_drop]
  omega

theorem length_taken {n : ℕ} {input data rest : List UInt8}
    (h : takeBytes n input = some (data, rest)) : data.length = n := by
  unfold takeBytes at h
  split_ifs at h with hle
  obtain ⟨rfl, -⟩ := Prod.mk.inj (Option.some.inj h)
  exact List.length_take_of_le hle

/-! ## Words -/

/-- The order of the bytes of a word. -/
inductive Endian
  | little
  | big
  deriving DecidableEq, Repr

/-- The `width` low bytes of `n`, the lowest first. -/
def lowBytes : (width n : ℕ) → List UInt8
  | 0, _ => []
  | width + 1, n => UInt8.ofNat n :: lowBytes width (n / 256)

def ofLowBytes : List UInt8 → ℕ
  | [] => 0
  | b :: bs => b.toNat + 256 * ofLowBytes bs

theorem length_lowBytes (width n : ℕ) : (lowBytes width n).length = width := by
  induction width generalizing n with
  | zero => rfl
  | succ width ih => rw [lowBytes, List.length_cons, ih]

theorem ofLowBytes_lowBytes {width n : ℕ} (h : n < 256 ^ width) :
    ofLowBytes (lowBytes width n) = n := by
  induction width generalizing n with
  | zero =>
    have : n = 0 := by simpa using h
    rw [this]
    rfl
  | succ width ih =>
    have hdiv : n / 256 < 256 ^ width := Nat.div_lt_of_lt_mul (by rwa [Nat.pow_succ'] at h)
    have hlow : (UInt8.ofNat n).toNat = n % 256 := UInt8.toNat_ofNat'
    rw [lowBytes, ofLowBytes, ih hdiv, hlow, Nat.mod_add_div]

namespace Endian

variable (e : Endian)

/-- A word of `width` bytes; higher bytes of `n` are lost. -/
def encode (width n : ℕ) : List UInt8 :=
  match e with
  | little => lowBytes width n
  | big => (lowBytes width n).reverse

def value (bytes : List UInt8) : ℕ :=
  match e with
  | little => ofLowBytes bytes
  | big => ofLowBytes bytes.reverse

def decode (width : ℕ) : Decoder ℕ := fun input =>
  (takeBytes width input).map fun r => (e.value r.1, r.2)

theorem length_encode (width n : ℕ) : (e.encode width n).length = width := by
  cases e with
  | little => exact length_lowBytes width n
  | big => exact (List.length_reverse ..).trans (length_lowBytes width n)

theorem length_of_decode {width n : ℕ} {input rest : List UInt8}
    (h : e.decode width input = some (n, rest)) : input.length = width + rest.length := by
  obtain ⟨⟨data, rest'⟩, ht, heq⟩ := Option.map_eq_some_iff.mp h
  rw [← (Prod.mk.inj heq).2]
  exact length_of_takeBytes ht

theorem value_encode {width n : ℕ} (h : n < 256 ^ width) : e.value (e.encode width n) = n := by
  cases e with
  | little => exact ofLowBytes_lowBytes h
  | big => rw [encode, value, List.reverse_reverse, ofLowBytes_lowBytes h]

theorem decodes (width : ℕ) : Decodes (e.decode width) (e.encode width) id (· < 256 ^ width) := by
  intro n rest hn
  rw [decode, takeBytes_append (e.length_encode width n), Option.map_some, e.value_encode hn, id]

end Endian

/-! ## Lists that end with the input -/

/-- Decodes items until the input is used up; an item that takes nothing is an error. -/
def decodeAll (d : Decoder α) (input : List UInt8) : Option (List α) :=
  if input = [] then some []
  else
    match d input with
    | none => none
    | some (a, rest) =>
      if rest.length < input.length then (decodeAll d rest).map (a :: ·) else none
termination_by input.length

theorem decodeAll_flatMap {d : Decoder β} {enc : α → List UInt8} {f : α → β} {P : α → Prop}
    (hd : Decodes d enc f P) (hne : ∀ a, enc a ≠ []) {l : List α} (hl : ∀ a ∈ l, P a) :
    decodeAll d (l.flatMap enc) = some (l.map f) := by
  induction l with
  | nil => simp [decodeAll]
  | cons a l ih =>
    have hpos : 0 < (enc a).length := List.length_pos_iff.mpr (hne a)
    have hlt : (l.flatMap enc).length < (enc a ++ l.flatMap enc).length := by
      rw [List.length_append]
      omega
    have hrest := ih fun b hb => hl b (List.mem_cons_of_mem a hb)
    rw [List.flatMap_cons, decodeAll, if_neg (by simp [hne a]), hd a _ (hl a List.mem_cons_self)]
    simp only [hlt, if_true, hrest, Option.map_some, List.map_cons]

/-- If each item takes as many bytes as `size` says, the input has the sum of them. -/
theorem length_of_decodeAll {d : Decoder α} {size : α → ℕ}
    (hd : ∀ input a rest, d input = some (a, rest) → input.length = size a + rest.length)
    {input : List UInt8} {l : List α} (h : decodeAll d input = some l) :
    input.length = (l.map size).sum := by
  fun_induction decodeAll d input generalizing l with
  | case1 =>
    obtain rfl := Option.some.inj h
    rfl
  | case2 => exact absurd h (by simp)
  | case3 input hne a rest hitem hlt ih =>
    obtain ⟨l', hl', rfl⟩ := Option.map_eq_some_iff.mp h
    rw [hd _ _ _ hitem, ih hl', List.map_cons, List.sum_cons]
  | case4 => exact absurd h (by simp)

end Zurg.Lib
