import Mathlib.Data.List.Infix
import Mathlib.Data.Int.Notation

/-!
# Zurg.Lib.Path — POSIX pathnames

A path is its characters, and is read as `std::filesystem::path` reads it: a root directory if it
begins with a separator, then names, then an empty element if it ends with a separator.  The
lexical operations are those of the standard.  A filename is its stem and its extension, which has
no period but the first (`extension_cases`).

A path is `Normal` when it is absolute and has no `.` and no `..`.  For such paths "relative to
`base` without a `..`" means "below `base`" (`notMem_dotDot_iff`).
-/

namespace Zurg.Lib

structure Path where
  chars : List Char
  deriving DecidableEq, Repr

namespace Path

variable (p q base : Path)

def ofString (s : String) : Path := ⟨s.toList⟩

def string : String := String.ofList p.chars

def isAbsolute : Bool := p.chars.head? == some '/'

/-- The names between the separators. -/
def names : List (List Char) := (p.chars.splitOn '/').filter (· ≠ [])

/-- The path ends with a separator that follows a name. -/
def isTrailed : Bool := p.chars.getLast? == some '/' && p.names ≠ []

/-- What the iteration over a path yields. -/
def elements : List (List Char) :=
  (if p.isAbsolute then [['/']] else []) ++ p.names ++ (if p.isTrailed then [[]] else [])

/-- `operator/`. -/
def append : Path :=
  if q.isAbsolute then q
  else if p.chars = [] ∨ p.chars.getLast? = some '/' then ⟨p.chars ++ q.chars⟩
  else ⟨p.chars ++ '/' :: q.chars⟩

instance : Div Path := ⟨append⟩

/-- What follows the last separator. -/
def filename : List Char := (p.chars.reverse.takeWhile (· ≠ '/')).reverse

def parentPath : Path :=
  if p.names = [] then p
  else
    let dir := ((p.chars.reverse.dropWhile (· ≠ '/')).dropWhile (· = '/')).reverse
    ⟨if dir = [] ∧ p.isAbsolute then ['/'] else dir⟩

/-- The filename without its extension, and the extension, which begins with the last period unless
this is the first character. -/
def stemExtension : List Char × List Char :=
  let name := p.filename
  let n := (name.reverse.takeWhile (· ≠ '.')).length + 1
  if name = ['.', '.'] ∨ name.length ≤ n then (name, [])
  else (name.take (name.length - n), name.drop (name.length - n))

def stem : List Char := p.stemExtension.1

def extension : List Char := p.stemExtension.2

/-- The names that stay when `.` and `name/..` are taken out; the innermost comes first. -/
def normalNames (absolute : Bool) : List (List Char) → List (List Char) → List (List Char)
  | stack, [] => stack
  | stack, name :: rest =>
    if name = ['.'] then normalNames absolute stack rest
    else if name = ['.', '.'] then
      match stack with
      | [] => normalNames absolute (if absolute then [] else [name]) rest
      | top :: below =>
        normalNames absolute (if top = ['.', '.'] then name :: stack else below) rest
    else normalNames absolute (name :: stack) rest

def lexicallyNormal : Path :=
  if p.chars = [] then p
  else
    let stack := normalNames p.isAbsolute [] p.names
    let last := p.filename
    let trailed : Bool := (last = [] ∨ last = ['.'] ∨ last = ['.', '.']) ∧ stack ≠ [] ∧
      stack.head? ≠ some ['.', '.']
    let chars := (if p.isAbsolute then ['/'] else []) ++ ['/'].intercalate stack.reverse ++
      (if trailed then ['/'] else [])
    ⟨if chars = [] then ['.'] else chars⟩

/-- What follows the longest common beginning. -/
def mismatch {α : Type} [DecidableEq α] : List α → List α → List α × List α
  | a :: as, b :: bs => if a = b then mismatch as bs else (a :: as, b :: bs)
  | as, bs => (as, bs)

/-- How many names deep the elements lead. -/
def depth (elements : List (List Char)) : ℤ :=
  (elements.countP fun e => e ≠ [] ∧ e ≠ ['.'] ∧ e ≠ ['.', '.']) -
    (elements.countP fun e => e = ['.', '.'])

/-- The elements of `lexically_relative`. -/
def lexicallyRelative : List (List Char) :=
  if p.isAbsolute ≠ base.isAbsolute then []
  else
    let r := mismatch p.elements base.elements
    let n := depth r.2
    if r.1 = [] ∧ r.2 = [] then [['.']]
    else if n < 0 then []
    else if n = 0 ∧ (r.1 = [] ∨ r.1.head? = some []) then [['.']]
    else List.replicate n.toNat ['.', '.'] ++ r.1

/-- Absolute, without `.` and `..`. -/
structure Normal : Prop where
  isAbsolute : p.isAbsolute = true
  names : ∀ e ∈ p.names, e ≠ ['.'] ∧ e ≠ ['.', '.']

instance : Decidable p.Normal :=
  decidable_of_iff (p.isAbsolute = true ∧ ∀ e ∈ p.names, e ≠ ['.'] ∧ e ≠ ['.', '.'])
    ⟨fun h => ⟨h.1, h.2⟩, fun h => ⟨h.1, h.2⟩⟩

/-- All names of `base` are the first names of `p`. -/
def Below : Prop := base.names <+: p.names

instance : Decidable (p.Below base) := inferInstanceAs (Decidable (_ <+: _))

variable {p q base}

theorem ne_nil_of_mem_names {e : List Char} (he : e ∈ p.names) : e ≠ [] := by
  simpa using (List.mem_filter.mp he).2

/-! ## What two paths have in common -/

section mismatch

variable {α : Type} [DecidableEq α]

/-- Both lists go on after the same beginning. -/
theorem exists_common (as bs : List α) :
    ∃ c, as = c ++ (mismatch as bs).1 ∧ bs = c ++ (mismatch as bs).2 := by
  induction as generalizing bs with
  | nil => exact ⟨[], by simp [mismatch]⟩
  | cons a as ih =>
    cases bs with
    | nil => exact ⟨[], by simp [mismatch]⟩
    | cons b bs =>
      by_cases h : a = b
      · obtain ⟨c, hc⟩ := ih bs
        refine ⟨a :: c, ?_⟩
        subst h
        simpa [mismatch] using hc
      · exact ⟨[], by simp [mismatch, h]⟩

theorem mismatch_append (c as bs : List α) :
    mismatch (c ++ as) (c ++ bs) = mismatch as bs := by
  induction c with
  | nil => rfl
  | cons x c ih => simpa [mismatch] using ih

end mismatch

/-! ## Relative to a base -/

/-- The elements after the root directory. -/
def tail (p : Path) : List (List Char) := p.names ++ (if p.isTrailed then [[]] else [])

theorem elements_of_isAbsolute (h : p.isAbsolute = true) : p.elements = ['/'] :: p.tail := by
  simp [elements, tail, h]

theorem tail_filter (p : Path) : p.tail.filter (· ≠ []) = p.names := by
  have hnames : p.names.filter (· ≠ []) = p.names :=
    List.filter_eq_self.mpr fun e he => by simpa using ne_nil_of_mem_names he
  rw [tail, List.filter_append, hnames]
  cases p.isTrailed <;> simp

theorem Normal.tail_no_dots (hp : p.Normal) : ∀ e ∈ p.tail, e ≠ ['.'] ∧ e ≠ ['.', '.'] := by
  intro e he
  rcases List.mem_append.mp he with he | he
  · exact hp.names e he
  · cases ht : p.isTrailed with
    | false => simp [ht] at he
    | true =>
      obtain rfl : e = [] := by simpa [ht] using he
      simp

theorem depth_of_no_dots (es : List (List Char)) (h : ∀ e ∈ es, e ≠ ['.'] ∧ e ≠ ['.', '.']) :
    depth es = es.countP (· ≠ []) := by
  have hup : es.countP (fun e => e = ['.', '.']) = 0 :=
    List.countP_eq_zero.mpr fun e he => by simpa using (h e he).2
  have hdown : es.countP (fun e => e ≠ [] ∧ e ≠ ['.'] ∧ e ≠ ['.', '.']) = es.countP (· ≠ []) :=
    List.countP_congr fun e he => by simp [h e he]
  rw [depth, hup, hdown]
  simp

/-- What is left of the base names a directory exactly if the path is not below. -/
theorem countP_mismatch_eq_zero_iff :
    (mismatch p.tail base.tail).2.countP (· ≠ []) = 0 ↔ p.Below base := by
  constructor
  · intro hzero
    obtain ⟨c, hp, hb⟩ := exists_common p.tail base.tail
    have hrest : (mismatch p.tail base.tail).2.filter (· ≠ []) = [] :=
      List.filter_eq_nil_iff.mpr (List.countP_eq_zero.mp hzero)
    refine ⟨(mismatch p.tail base.tail).1.filter (· ≠ []), ?_⟩
    calc base.names ++ (mismatch p.tail base.tail).1.filter (· ≠ [])
        = c.filter (· ≠ []) ++ (mismatch p.tail base.tail).1.filter (· ≠ []) := by
          rw [← tail_filter base, hb, List.filter_append, hrest, List.append_nil]
      _ = p.names := by rw [← List.filter_append, ← hp, tail_filter]
  · rintro ⟨rest, hrest⟩
    have htrail :
        (if base.isTrailed then [[]] else ([] : List (List Char))).countP (· ≠ []) = 0 := by
      cases base.isTrailed <;> simp
    obtain ⟨c, -, hc⟩ := exists_common (rest ++ if p.isTrailed then [[]] else [])
      (if base.isTrailed then [[]] else [])
    rw [tail, tail, ← hrest, List.append_assoc, mismatch_append]
    rw [hc, List.countP_append] at htrail
    exact (Nat.add_eq_zero_iff.mp htrail).2

/-- **A relative path leads upwards exactly if it leaves the base.** -/
theorem dotDot_notMem_iff (hp : p.Normal) (hb : base.Normal) :
    ['.', '.'] ∉ p.lexicallyRelative base ↔ p.Below base := by
  obtain ⟨c, hpc, hbc⟩ := exists_common p.tail base.tail
  have hskip : mismatch p.elements base.elements = mismatch p.tail base.tail := by
    rw [elements_of_isAbsolute hp.isAbsolute, elements_of_isAbsolute hb.isAbsolute]
    exact mismatch_append [['/']] _ _
  have hup : ['.', '.'] ∉ (mismatch p.tail base.tail).1 := fun he =>
    (hp.tail_no_dots _ (hpc ▸ List.mem_append_right _ he)).2 rfl
  have hdepth := depth_of_no_dots (mismatch p.tail base.tail).2 fun e he =>
    hb.tail_no_dots e (hbc ▸ List.mem_append_right _ he)
  rw [← countP_mismatch_eq_zero_iff, lexicallyRelative,
    if_neg (by simp [hp.isAbsolute, hb.isAbsolute]), hskip]
  generalize mismatch p.tail base.tail = r at hup hdepth ⊢
  simp only [hdepth]
  split_ifs with hnil hneg hsame
  · simp [hnil.2]
  · exact absurd hneg (Int.not_lt.mpr (Int.natCast_nonneg _))
  · simpa using hsame.1
  · simp [List.mem_replicate, hup]

/-! ## Filenames -/

theorem slash_notMem_filename : '/' ∉ p.filename := by
  intro h
  have := List.all_eq_true.mp List.all_takeWhile _ (List.mem_reverse.mp h)
  simp at this

/-- A suffix of the path is one of its filename. -/
theorem filename_append {s : List Char} (hs : '/' ∉ s) :
    filename ⟨p.chars ++ s⟩ = p.filename ++ s := by
  have hall : ∀ c ∈ s.reverse, (c ≠ '/' : Bool) = true := by
    intro c hc
    simpa using fun h : c = '/' => hs (h ▸ List.mem_reverse.mp hc)
  simp only [filename]
  rw [List.reverse_append, List.takeWhile_append_of_pos hall, List.reverse_append,
    List.reverse_reverse]

theorem filename_of_ends (h : p.chars = [] ∨ p.chars.getLast? = some '/') : p.filename = [] := by
  unfold filename
  rcases h with h | h
  · rw [h]
    rfl
  · obtain ⟨init, hinit⟩ := List.getLast?_eq_some_iff.mp h
    rw [hinit]
    simp

theorem isAbsolute_name {name : List Char} (hn : '/' ∉ name) :
    (⟨name⟩ : Path).isAbsolute = false := by
  cases name with
  | nil => rfl
  | cons c rest =>
    have : c ≠ '/' := fun h => hn (h ▸ List.mem_cons_self)
    simpa [isAbsolute] using this

theorem div_name {name : List Char} (hn : '/' ∉ name) : (p / ⟨name⟩ : Path) =
    ⟨if p.chars = [] ∨ p.chars.getLast? = some '/' then p.chars ++ name
      else p.chars ++ '/' :: name⟩ := by
  change p.append ⟨name⟩ = _
  rw [append, isAbsolute_name hn, if_neg Bool.false_ne_true]
  split_ifs <;> rfl

/-- The last name of `p / name`. -/
theorem filename_div {name : List Char} (hn : '/' ∉ name) :
    (p / ⟨name⟩ : Path).filename = name := by
  rw [div_name hn]
  split_ifs with h
  · rw [filename_append hn, filename_of_ends h, List.nil_append]
  · have hsplit : p.chars ++ '/' :: name = (p.chars ++ ['/']) ++ name := by simp
    have hends : filename ⟨p.chars ++ ['/']⟩ = [] := filename_of_ends (.inr (by simp))
    rw [hsplit]
    exact (filename_append (p := ⟨p.chars ++ ['/']⟩) hn).trans (by rw [hends, List.nil_append])

/-- A suffix of `p / name` is one of the name. -/
theorem chars_div_append {name s : List Char} (hn : '/' ∉ name) (hs : '/' ∉ s) :
    (p / ⟨name⟩ : Path).chars ++ s = (p / ⟨name ++ s⟩ : Path).chars := by
  have hns : '/' ∉ name ++ s := by simp [hn, hs]
  rw [div_name hn, div_name hns]
  dsimp only
  split_ifs <;> simp

/-- A directory as `weakly_canonical` writes it: no separator at the end, but for the root. -/
structure IsDirectory (p : Path) : Prop where
  isAbsolute : p.isAbsolute = true
  ends : p.chars = ['/'] ∨ p.chars.getLast? ≠ some '/'

instance (p : Path) : Decidable p.IsDirectory :=
  decidable_of_iff (p.isAbsolute = true ∧ (p.chars = ['/'] ∨ p.chars.getLast? ≠ some '/'))
    ⟨fun h => ⟨h.1, h.2⟩, fun h => ⟨h.1, h.2⟩⟩

theorem names_append {dir name : List Char} (hn : '/' ∉ name) (hne : name ≠ []) :
    names ⟨dir ++ '/' :: name⟩ = names ⟨dir⟩ ++ [name] := by
  simp only [names]
  rw [List.splitOn_append_cons_self, List.splitOn_eq_singleton hn, List.filter_append]
  simp [hne]

theorem IsDirectory.parentPath_div (h : p.IsDirectory) {name : List Char} (hn : '/' ∉ name)
    (hne : name ≠ []) : (p / ⟨name⟩ : Path).parentPath = p := by
  obtain ⟨dir, hdiv, hlast, hp⟩ : ∃ dir, (p / ⟨name⟩ : Path) = ⟨dir ++ '/' :: name⟩ ∧
      dir.getLast? ≠ some '/' ∧ p = ⟨if dir = [] then ['/'] else dir⟩ := by
    rw [div_name hn]
    rcases h.ends with hroot | hends
    · exact ⟨[], by simp [hroot], by simp, by rw [← hroot]; rfl⟩
    · have hnil : p.chars ≠ [] := by
        intro hnil
        have := h.isAbsolute
        simp [Path.isAbsolute, hnil] at this
      refine ⟨p.chars, ?_, hends, ?_⟩
      · rw [if_neg (not_or.mpr ⟨hnil, hends⟩)]
      · rw [if_neg hnil]
  have hnames : (p / ⟨name⟩ : Path).names ≠ [] := by
    rw [hdiv, names_append hn hne]
    simp
  have hall : ∀ c ∈ name.reverse, (c ≠ '/' : Bool) = true := by
    intro c hc
    simpa using fun h : c = '/' => hn (h ▸ List.mem_reverse.mp hc)
  have hstop : dir.reverse.dropWhile (· = '/') = dir.reverse := by
    cases hrev : dir.reverse with
    | nil => rfl
    | cons c rest =>
      have hc : dir.getLast? = some c := by rw [← List.head?_reverse, hrev]; rfl
      have : c ≠ '/' := fun h => hlast (h ▸ hc)
      simp [this]
  rw [parentPath, if_neg hnames, hdiv]
  simp only [List.reverse_append, List.reverse_cons, List.append_assoc, List.singleton_append,
    List.dropWhile_append_of_pos hall]
  rw [List.dropWhile_cons_of_neg (by simp), List.dropWhile_cons_of_pos (by simp), hstop,
    List.reverse_reverse, hp]
  by_cases hdir : dir = []
  · subst hdir
    rfl
  · simp [hdir]

theorem stem_append_extension : p.stem ++ p.extension = p.filename := by
  unfold stem extension stemExtension
  dsimp only
  split_ifs
  · exact List.append_nil _
  · exact List.take_append_drop _ _

theorem stemExtension_congr (h : p.filename = q.filename) : p.stemExtension = q.stemExtension := by
  unfold stemExtension
  rw [h]

/-- An extension is its last period and what follows. -/
theorem extension_cases : p.extension = [] ∨ ∃ e, p.extension = '.' :: e ∧ '.' ∉ e := by
  unfold extension stemExtension
  dsimp only
  split_ifs with h
  · exact .inl rfl
  · rw [not_or, Nat.not_le] at h
    have hsplit := List.takeWhile_append_dropWhile (p := (· ≠ '.')) (l := p.filename.reverse)
    have hnot : '.' ∉ p.filename.reverse.takeWhile (· ≠ '.') := by
      intro hm
      simpa using List.all_eq_true.mp List.all_takeWhile _ hm
    have hhead := List.head?_dropWhile_not (· ≠ '.') p.filename.reverse
    generalize p.filename.reverse.takeWhile (· ≠ '.') = e at h hsplit hnot ⊢
    cases hd : p.filename.reverse.dropWhile (· ≠ '.') with
    | nil =>
      rw [hd, List.append_nil] at hsplit
      rw [hsplit, List.length_reverse] at h
      omega
    | cons c rest =>
      rw [hd] at hhead
      obtain rfl : c = '.' := by simpa using hhead
      have hname : p.filename = rest.reverse ++ '.' :: e.reverse := by
        rw [← List.reverse_reverse p.filename, ← hsplit, hd]
        simp
      refine .inr ⟨e.reverse, ?_, by simpa using hnot⟩
      rw [hname]
      simp

end Path

end Zurg.Lib
