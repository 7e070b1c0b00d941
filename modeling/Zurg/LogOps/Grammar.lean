import Zurg.LogOps.Spelled

/-!
# Zurg.LogOps.Grammar — the lines that `ParseSpdlogLine` accepts

A line has three pairs of brackets: a time, a name and a level, with anything between and after
them.  The parser finds the parts of every such line, in the one way there is, and accepts it
exactly if it can read the time; it accepts no other line (`parses_by_grammar`).  The bounds it
checks on lengths decide nothing: a time that can be read is long enough.
-/

namespace Zurg.LogOps

open Proto

/-! ## Lines -/

/-- The parts of a line, with what stands between and after the brackets. -/
structure Parts where
  time : Bytes
  beforeName : Bytes := []
  name : Bytes
  beforeLevel : Bytes := []
  level : Bytes
  rest : Bytes := []
  deriving DecidableEq, Repr

def Parts.line (parts : Parts) : Bytes :=
  byte '[' :: (parts.time ++ byte ']' :: (parts.beforeName ++ byte '[' :: (parts.name ++
    byte ']' :: (parts.beforeLevel ++ byte '[' :: (parts.level ++ byte ']' :: parts.rest)))))

/-- No part goes beyond the bracket that ends it. -/
structure Parts.WellFormed (parts : Parts) : Prop where
  time : byte ']' ∉ parts.time
  beforeName : byte '[' ∉ parts.beforeName
  name : byte ']' ∉ parts.name
  beforeLevel : byte '[' ∉ parts.beforeLevel
  level : byte ']' ∉ parts.level

/-- What is read of the parts; the byte after the last bracket belongs to no part. -/
def Parts.value (parts : Parts) : Option ParsedLine :=
  (parseTime parts.time).map fun ts =>
    { ts := ts, levelLower := toLower parts.level, message := parts.rest.drop 1 }

variable {line time : Bytes} {p : ParsedLine} {parts parts' : Parts} {c : Char} {pos found : ℕ}

/-! ## Searching -/

/-- What a search finds splits the line. -/
theorem split_of_findFrom (h : findFrom c line pos = some found) :
    line.drop pos = substr line pos (found - pos) ++ byte c :: line.drop (found + 1) ∧
      byte c ∉ substr line pos (found - pos) ∧ pos ≤ found := by
  rw [findFrom] at h
  obtain ⟨i, hi, rfl⟩ := Option.map_eq_some_iff.mp h
  obtain ⟨hlt, hat, hbefore⟩ := List.findIdx?_eq_some_iff_getElem.mp hi
  rw [substr, Nat.add_sub_cancel_left]
  refine ⟨?_, ?_, Nat.le_add_right pos i⟩
  · rw [Nat.add_assoc, ← List.drop_drop, ← beq_iff_eq.mp hat, ← List.drop_eq_getElem_cons hlt,
      List.take_append_drop]
  · intro hmem
    obtain ⟨j, hj, heq⟩ := List.getElem_of_mem hmem
    rw [List.length_take] at hj
    rw [List.getElem_take] at heq
    exact hbefore j (by omega) (beq_iff_eq.mpr heq)

/-- Up to the first such byte there is one way to split. -/
theorem split_unique {b : UInt8} {s s' post post' : Bytes} (hs : b ∉ s) (hs' : b ∉ s')
    (h : s ++ b :: post = s' ++ b :: post') : s = s' ∧ post = post' := by
  induction s generalizing s' with
  | nil =>
    cases s' with
    | nil => exact ⟨rfl, (List.cons.inj h).2⟩
    | cons a s' => exact absurd (List.mem_cons.mpr (.inl (List.cons.inj h).1)) hs'
  | cons a s ih =>
    cases s' with
    | nil => exact absurd (List.mem_cons.mpr (.inl (List.cons.inj h).1.symm)) hs
    | cons a' s' =>
      obtain ⟨rfl, htail⟩ := List.cons.inj h
      obtain ⟨rfl, rfl⟩ :=
        ih (mt (List.mem_cons_of_mem a) hs) (mt (List.mem_cons_of_mem a) hs') htail
      exact ⟨rfl, rfl⟩

/-- **The parts of a line are determined by it.** -/
theorem Parts.line_injective (h : parts.WellFormed) (h' : parts'.WellFormed)
    (heq : parts.line = parts'.line) : parts = parts' := by
  obtain ⟨htime, h₁⟩ := split_unique h.time h'.time (List.cons.inj heq).2
  obtain ⟨hbeforeName, h₂⟩ := split_unique h.beforeName h'.beforeName h₁
  obtain ⟨hname, h₃⟩ := split_unique h.name h'.name h₂
  obtain ⟨hbeforeLevel, h₄⟩ := split_unique h.beforeLevel h'.beforeLevel h₃
  obtain ⟨hlevel, hrest⟩ := split_unique h.level h'.level h₄
  cases parts
  cases parts'
  simp_all

/-! ## Times -/

theorem length_of_parseTime {ts : Timestamp} (h : parseTime time = some ts) : 19 ≤ time.length := by
  obtain ⟨_, _, _, _, _, second, -, -, -, -, -, hsecond, -⟩ := exists_of_parseTime h
  rw [readInt, Option.ite_none_left_eq_some] at hsecond
  omega

theorem parseTime_of_short (h : time.length < 19) : parseTime time = none := by
  cases hts : parseTime time with
  | none => rfl
  | some ts =>
    have hle := length_of_parseTime hts
    omega

/-- A fraction does not reach the next power of ten, however many bytes it has. -/
theorem readFraction_le (factor nanos : ℕ) (s : Bytes) :
    readFraction factor nanos s ≤ nanos + (10 * factor - 1) := by
  induction s generalizing factor nanos with
  | nil => exact Nat.le_add_right _ _
  | cons c s ih =>
    rw [readFraction]
    cases hd : digit c with
    | none => exact Nat.le_add_right _ _
    | some d =>
      have hdigit := (digit_some hd).2.2
      have hmul : d * factor ≤ 9 * factor := Nat.mul_le_mul_right factor (by omega)
      have hrest := ih (factor / 10) (nanos + d * factor)
      dsimp only
      omega

theorem readNanos_lt (time : Bytes) : readNanos time < 10 ^ 9 := by
  unfold readNanos
  split_ifs
  · have hle := readFraction_le 100000000 0 (substr time 20 (min 9 (time.length - 20)))
    omega
  · decide

theorem nanos_of_parseTime {ts : Timestamp} (h : parseTime time = some ts) :
    0 ≤ ts.nanos ∧ ts.nanos < 10 ^ 9 := by
  simp only [parseTime, Option.bind_eq_bind, Option.bind_eq_some_iff] at h
  obtain ⟨_, -, _, -, _, -, _, -, _, -, _, -, h⟩ := h
  rw [Option.ite_none_left_eq_some] at h
  obtain rfl := Option.some.inj h.2
  have hlt := readNanos_lt time
  refine ⟨Int.natCast_nonneg _, ?_⟩
  show (readNanos time : ℤ) < 10 ^ 9
  omega

/-! ## The grammar -/

/-- The parts of an accepted line. -/
theorem exists_parts (h : parseSpdlogLine line = some p) :
    ∃ parts : Parts, parts.WellFormed ∧ parts.line = line := by
  simp only [parseSpdlogLine, Option.bind_eq_bind, Option.bind_none, Option.ite_none_left_eq_some,
    Option.bind_eq_some_iff] at h
  obtain ⟨hline, closeTime, h₁, -, -, -, -, levelOpen, h₂, levelClose, h₃, secondBracket, h₄,
    secondClose, h₅, -⟩ := h
  rw [not_or, not_not] at hline
  obtain ⟨hsplit₁, htime, -⟩ := split_of_findFrom h₁
  obtain ⟨hsplit₂, hbeforeName, -⟩ := split_of_findFrom h₂
  obtain ⟨hsplit₃, hname, -⟩ := split_of_findFrom h₃
  obtain ⟨hsplit₄, hbeforeLevel, -⟩ := split_of_findFrom h₄
  obtain ⟨hsplit₅, hlevel, -⟩ := split_of_findFrom h₅
  -- the first search has passed the bracket that opens the line
  rw [List.drop_zero] at hsplit₁
  obtain ⟨time, hopen⟩ : ∃ time, substr line 0 (closeTime - 0) = byte '[' :: time := by
    cases hpre : substr line 0 (closeTime - 0) with
    | nil =>
      rw [hpre] at hsplit₁
      rw [hsplit₁] at hline
      have hclosed : byte ']' = byte '[' := Option.some.inj hline.2
      exact absurd hclosed (by decide)
    | cons b time =>
      rw [hpre] at hsplit₁
      rw [hsplit₁] at hline
      exact ⟨time, by rw [Option.some.inj hline.2]⟩
  rw [hopen] at hsplit₁ htime
  refine ⟨{
    time := time
    beforeName := substr line (closeTime + 1) (levelOpen - (closeTime + 1))
    name := substr line (levelOpen + 1) (levelClose - (levelOpen + 1))
    beforeLevel := substr line (levelClose + 1) (secondBracket - (levelClose + 1))
    level := substr line (secondBracket + 1) (secondClose - (secondBracket + 1))
    rest := line.drop (secondClose + 1) }, ?_, ?_⟩
  · exact ⟨mt (List.mem_cons_of_mem _) htime, hbeforeName, hname, hbeforeLevel, hlevel⟩
  · rw [Parts.line]
    dsimp only
    rw [← hsplit₅, ← hsplit₄, ← hsplit₃, ← hsplit₂]
    exact hsplit₁.symm

/-- **The parser finds the parts**, whatever else the line has. -/
theorem parseSpdlogLine_line (h : parts.WellFormed) :
    parseSpdlogLine parts.line = parts.value := by
  have hopen : byte ']' ∉ byte '[' :: parts.time := by
    rw [List.mem_cons, not_or]
    exact ⟨by decide, h.time⟩
  generalize hline : parts.line = line
  have hhead : line.head? = some (byte '[') := by
    rw [← hline]
    rfl
  have hread : line.drop 0 = (byte '[' :: parts.time) ++ byte ']' :: (parts.beforeName ++
      byte '[' :: (parts.name ++ byte ']' :: (parts.beforeLevel ++ byte '[' :: (parts.level ++
        byte ']' :: parts.rest)))) := hline.symm
  have hlen : parts.time.length + 6 ≤ line.length := by
    rw [← hline]
    simp only [Parts.line, List.length_cons, List.length_append]
    omega
  obtain ⟨closeTime, h₁, hpos₁, hread₁⟩ := exists_findFrom hread hopen
  obtain ⟨levelOpen, h₂, hpos₂, hread₂⟩ := exists_findFrom hread₁ h.beforeName
  obtain ⟨levelClose, h₃, hpos₃, hread₃⟩ := exists_findFrom hread₂ h.name
  obtain ⟨secondBracket, h₄, hpos₄, hread₄⟩ := exists_findFrom hread₃ h.beforeLevel
  obtain ⟨secondClose, h₅, hpos₅, hread₅⟩ := exists_findFrom hread₄ h.level
  rw [List.length_cons] at hpos₁
  by_cases hshort : parts.time.length < 19
  · have hclose : closeTime < 20 := by omega
    rw [Parts.value, parseTime_of_short hshort, Option.map_none]
    simp only [parseSpdlogLine, Option.bind_eq_bind, h₁, Option.bind_some, if_pos hclose,
      Option.bind_none, ite_self]
  have htimePart : substr line 1 (closeTime - 1) = parts.time := by
    rw [← hline, Parts.line]
    have hpre : [byte '['].length = 1 := rfl
    exact substr_append hpre (by omega)
  have hlevelPart : substr line (secondBracket + 1) (secondClose - secondBracket - 1) =
      parts.level := by
    rw [substr, hread₄]
    exact List.take_left' (by omega)
  have hmessage : (if secondClose + 2 ≤ line.length then line.drop (secondClose + 2) else []) =
      parts.rest.drop 1 := by
    rw [← hread₅, List.drop_drop]
    split_ifs with hmore
    · rfl
    · exact (List.drop_eq_nil_of_le (by omega)).symm
  have hlong : ¬ (line.length < 22 ∨ line.head? ≠ some (byte '[')) := by
    rw [hhead, not_or]
    exact ⟨by omega, not_not.mpr rfl⟩
  have hclose : ¬ closeTime < 20 := by omega
  simp only [parseSpdlogLine, if_neg hlong, Option.bind_eq_bind, h₁, Option.bind_some,
    if_neg hclose, htimePart, if_neg hshort, h₂, h₃, h₄, h₅, hlevelPart, hmessage, Parts.value]
  cases parseTime parts.time <;> rfl

/-- **The lines that are accepted.**  A line that has parts has them in one way, and is read as they
are, so that what follows the level has no say in whether it is accepted; a line that has none is
rejected; and what is accepted has a fraction of a second below one. -/
theorem parses_by_grammar (line : Bytes) :
    (∀ parts : Parts, parts.WellFormed → parts.line = line →
      parseSpdlogLine line = parts.value ∧
      (∀ parts' : Parts, parts'.WellFormed → parts'.line = line → parts' = parts) ∧
      ∀ rest, (parseSpdlogLine { parts with rest }.line).map (fun p => (p.ts, p.levelLower)) =
        (parseSpdlogLine line).map fun p => (p.ts, p.levelLower)) ∧
    ((¬ ∃ parts : Parts, parts.WellFormed ∧ parts.line = line) → parseSpdlogLine line = none) ∧
    ∀ p, parseSpdlogLine line = some p → 0 ≤ p.ts.nanos ∧ p.ts.nanos < 10 ^ 9 := by
  refine ⟨?_, fun hno => ?_, fun p hp => nanos_of_parseTime (parseTime_of_accepted hp)⟩
  · rintro parts h rfl
    refine ⟨parseSpdlogLine_line h, fun parts' h' heq => Parts.line_injective h' h heq, ?_⟩
    intro rest
    have hrest : { parts with rest }.WellFormed :=
      ⟨h.time, h.beforeName, h.name, h.beforeLevel, h.level⟩
    rw [parseSpdlogLine_line h, parseSpdlogLine_line hrest, Parts.value, Parts.value,
      Option.map_map, Option.map_map]
    rfl
  · cases hp : parseSpdlogLine line with
    | none => rfl
    | some p => exact absurd (exists_parts hp) hno

/-- Nothing stands between the brackets, and there is no message; the name has a bracket. -/
theorem parses_by_grammar_tight :
    parseSpdlogLine (bytes "[2024-02-29 23:59:59.25][a[b][WARN]") =
      some ⟨⟨1709251199, 250000000⟩, bytes "warn", []⟩ := by
  let parts : Parts :=
    { time := bytes "2024-02-29 23:59:59.25", name := bytes "a[b", level := bytes "WARN" }
  have h : parts.WellFormed := ⟨by decide, by decide, by decide, by decide, by decide⟩
  have hline : parts.line = bytes "[2024-02-29 23:59:59.25][a[b][WARN]" := by decide
  rw [((parses_by_grammar _).1 parts h hline).1]
  decide

end Zurg.LogOps
