import Mathlib.Tactic.IntervalCases
import Mathlib.Tactic.Ring
import Zurg.Lib.Calendar
import Zurg.LogOps.Parse

/-!
# Zurg.LogOps.RoundTrip — `ParseSpdlogLine` inverts the layout it expects

A line is laid out as `[time] [name] [level] message`.  The first closing bracket ends the time, the
next one the name and the next one the level, so that what follows is the message whatever brackets
it has (`parseSpdlogLine_layout`).  The numbers of the time are read at fixed offsets, and `timegm`
counts the days of the calendar (`timegm_date`).
-/

namespace Zurg.LogOps

open Lib Proto

/-! ## What is written -/

def digitByte (d : ℕ) : UInt8 := UInt8.ofNat (48 + d)

/-- The last `len` decimal digits of a number, with zeros in front. -/
def padded : (len n : ℕ) → Bytes
  | 0, _ => []
  | len + 1, n => padded len (n / 10) ++ [digitByte (n % 10)]

/-- The decimal digits of a fraction, behind a point. -/
def renderFraction : Option (List (Fin 10)) → Bytes
  | none => []
  | some ds => byte '.' :: ds.map fun d : Fin 10 => digitByte d

/-- `YYYY-MM-DD HH:MM:SS(.fraction)`. -/
def renderTime (d : Date) (t : TimeOfDay) (fraction : Option (List (Fin 10))) : Bytes :=
  padded 4 d.year.toNat ++ (byte '-' :: (padded 2 d.month ++ (byte '-' :: (padded 2 d.day ++
    (byte ' ' :: (padded 2 t.hour ++ (byte ':' :: (padded 2 t.minute ++ (byte ':' ::
      (padded 2 t.second ++ renderFraction fraction))))))))))

/-- `[time] [name] [level] message`. -/
def layout (time name level message : Bytes) : Bytes :=
  byte '[' :: (time ++ byte ']' :: byte ' ' :: byte '[' :: (name ++ byte ']' :: byte ' ' ::
    byte '[' :: (level ++ byte ']' :: byte ' ' :: message)))

/-- The number that the digits of a fraction are. -/
def fractionValue : List (Fin 10) → ℕ
  | [] => 0
  | d :: ds => d * 10 ^ ds.length + fractionValue ds

/-- The fraction in billionths. -/
def fractionNanos : Option (List (Fin 10)) → ℕ
  | none => 0
  | some ds => fractionValue ds * 10 ^ (9 - ds.length)

/-! ## Digits -/

theorem digit_digitByte {d : ℕ} (h : d < 10) : digit (digitByte d) = some d := by
  have hall : ∀ d < 10, digit (digitByte d) = some d := by decide
  exact hall d h

theorem length_padded (len n : ℕ) : (padded len n).length = len := by
  induction len generalizing n with
  | zero => rfl
  | succ len ih => rw [padded, List.length_append, ih, List.length_singleton]

theorem readDigits_append (value : ℕ) (l : Bytes) (c : UInt8) :
    readDigits value (l ++ [c]) =
      (readDigits value l).bind fun v => (digit c).map (v * 10 + ·) := by
  induction l generalizing value with
  | nil =>
    simp only [List.nil_append, readDigits]
    cases digit c <;> rfl
  | cons a l ih =>
    simp only [List.cons_append, readDigits]
    cases digit a with
    | none => rfl
    | some d => exact ih _

theorem readDigits_padded {len n : ℕ} (h : n < 10 ^ len) :
    readDigits 0 (padded len n) = some n := by
  induction len generalizing n with
  | zero =>
    rw [Nat.lt_one_iff.mp h]
    rfl
  | succ len ih =>
    have hdiv : n / 10 < 10 ^ len := by
      rw [Nat.div_lt_iff_lt_mul (by omega)]
      rwa [Nat.pow_succ] at h
    rw [padded, readDigits_append, ih hdiv, digit_digitByte (Nat.mod_lt _ (by omega))]
    simp only [Option.bind_some, Option.map_some, Option.some.injEq]
    omega

theorem substr_append {pre s post : Bytes} {pos len : ℕ} (hpre : pre.length = pos)
    (hs : s.length = len) : substr (pre ++ (s ++ post)) pos len = s := by
  rw [substr, ← hpre, List.drop_left, ← hs, List.take_left]

/-- A number is read back where its digits stand. -/
theorem readInt_of_substr {time : Bytes} {pos len n : ℕ} (hlen : pos + len ≤ time.length)
    (h : substr time pos len = padded len n) (hn : n < 10 ^ len) :
    readInt time pos len = some n := by
  rw [readInt, if_neg (Nat.not_lt.mpr hlen), h]
  exact readDigits_padded hn

/-! ## Fractions -/

theorem fractionValue_lt (ds : List (Fin 10)) : fractionValue ds < 10 ^ ds.length := by
  induction ds with
  | nil => exact Nat.one_pos
  | cons d ds ih =>
    have hd := d.isLt
    rw [fractionValue, List.length_cons, Nat.pow_succ]
    calc d * 10 ^ ds.length + fractionValue ds < d * 10 ^ ds.length + 10 ^ ds.length :=
          Nat.add_lt_add_left ih _
      _ = (d + 1) * 10 ^ ds.length := (Nat.succ_mul _ _).symm
      _ ≤ 10 ^ ds.length * 10 := by
          rw [Nat.mul_comm]
          exact Nat.mul_le_mul_left _ hd

theorem fractionNanos_lt {fraction : Option (List (Fin 10))}
    (hlen : ∀ ds, fraction = some ds → ds.length ≤ 9) : fractionNanos fraction < 10 ^ 9 := by
  cases fraction with
  | none => exact Nat.pos_of_ne_zero (by decide)
  | some ds =>
    have hds := hlen ds rfl
    calc fractionValue ds * 10 ^ (9 - ds.length) < 10 ^ ds.length * 10 ^ (9 - ds.length) :=
          Nat.mul_lt_mul_of_pos_right (fractionValue_lt ds) (Nat.pow_pos (by omega))
      _ = 10 ^ 9 := by rw [← Nat.pow_add, Nat.add_sub_cancel' hds]

/-- The loop over the digits; its factor is the weight of the next one. -/
theorem readFraction_map (ds : List (Fin 10)) (k nanos : ℕ) (hlen : ds.length ≤ k) :
    readFraction (10 ^ k / 10) nanos (ds.map fun d : Fin 10 => digitByte d) =
      nanos + fractionValue ds * 10 ^ (k - ds.length) := by
  induction ds generalizing k nanos with
  | nil => simp [readFraction, fractionValue]
  | cons d ds ih =>
    rw [List.length_cons] at hlen
    obtain ⟨k, rfl⟩ : ∃ k', k = k' + 1 := ⟨k - 1, by omega⟩
    have hfactor : 10 ^ (k + 1) / 10 = 10 ^ k := by
      rw [Nat.pow_succ, Nat.mul_div_cancel _ (by omega)]
    have hweight : 10 ^ k = 10 ^ ds.length * 10 ^ (k - ds.length) := by
      rw [← Nat.pow_add, Nat.add_sub_cancel' (by omega)]
    rw [hfactor, List.map_cons, readFraction, digit_digitByte d.isLt]
    dsimp only
    rw [ih k _ (by omega), fractionValue, List.length_cons, Nat.add_sub_add_right, hweight]
    ring

/-! ## The calendar of `timegm` -/

theorem isLeap_iff {year : ℤ} : isLeap year = true ↔ Leap year := by
  unfold isLeap Leap
  simp only [Bool.and_eq_true, Bool.or_eq_true, decide_eq_true_eq, Int.dvd_iff_emod_eq_zero]

theorem daysInMonth_eq (year : ℤ) (month : ℕ) (hm : 1 ≤ month) (hm' : month ≤ 12) :
    daysInMonth (isLeap year) (month - 1) = monthLength year month := by
  interval_cases month
  case «2» =>
    unfold daysInMonth monthLength
    simp only [isLeap_iff]
  all_goals rfl

/-- The days from the epoch to a date, as `timegm` counts them. -/
def dayCount (d : Date) : ℤ :=
  daysBeforeYear d.year - daysBeforeYear 1970 + daysBeforeMonth (isLeap d.year) (d.month - 1) +
    (d.day - 1)

theorem daysBeforeMonth_succ (leap : Bool) (month : ℕ) :
    daysBeforeMonth leap (month + 1) = daysBeforeMonth leap month + daysInMonth leap month := by
  unfold daysBeforeMonth
  rw [List.range_succ, List.map_append, List.sum_append]
  simp

theorem daysBeforeYear_succ (year : ℤ) :
    daysBeforeYear (year + 1) = daysBeforeYear year + daysBeforeMonth (isLeap year) 12 := by
  have hyear : (daysBeforeMonth (isLeap year) 12 : ℤ) = if isLeap year then 366 else 365 := by
    cases isLeap year <;> rfl
  rw [hyear]
  unfold daysBeforeYear
  split_ifs with hleap
  · have := isLeap_iff.mp hleap
    unfold Leap at this
    omega
  · have := mt isLeap_iff.mpr hleap
    unfold Leap at this
    omega

/-- It grows by one with each day. -/
theorem dayCount_next (d : Date) : dayCount d.next = dayCount d + 1 := by
  have hmonth := daysBeforeMonth_succ (isLeap d.year) (d.month - 1)
  rw [daysInMonth_eq d.year d.month d.month_pos d.month_le, Nat.sub_add_cancel d.month_pos]
    at hmonth
  have hle := d.day_le
  unfold Date.next
  split_ifs with hday hlast
  · simp only [dayCount]
    omega
  · simp only [dayCount, Nat.add_sub_cancel]
    omega
  · have hm : d.month = 12 := by
      have := d.month_le
      omega
    have hyear := daysBeforeYear_succ d.year
    have hfirst : daysBeforeMonth (isLeap (d.year + 1)) 0 = 0 := rfl
    rw [hm] at hmonth hle hday
    simp only [dayCount, Date.newYear, Nat.sub_self, hfirst, hm]
    omega

/-- The first of January 1970. -/
def epoch : Date := .newYear 1970

theorem dayCount_after (n : ℕ) : dayCount (epoch.after n) = n := by
  rw [Date.count_after dayCount_next]
  exact Int.zero_add _

/-- `timegm` is the number of the day, and the time of day. -/
theorem timegm_date (d : Date) (t : TimeOfDay) :
    timegm (d.year - 1900) (d.month - 1) d.day t.hour t.minute t.second =
      dayCount d * 86400 + t.seconds := by
  have hm := d.month_pos
  have hm' := d.month_le
  have hcarry : ((d.month : ℤ) - 1) / 12 = 0 := by omega
  have hmonth : (((d.month : ℤ) - 1) % 12).toNat = d.month - 1 := by omega
  have hyear : d.year - 1900 + 1900 + 0 = d.year := by omega
  unfold timegm
  simp only [hcarry, hmonth, hyear, dayCount, TimeOfDay.seconds]
  push_cast
  ring

/-! ## The time -/

variable {d : Date} {t : TimeOfDay} {fraction : Option (List (Fin 10))}

theorem length_renderTime (d : Date) (t : TimeOfDay) (fraction : Option (List (Fin 10))) :
    (renderTime d t fraction).length = 19 + (renderFraction fraction).length := by
  simp only [renderTime, List.length_append, List.length_cons, length_padded]
  omega

/-- The fraction stands behind the seconds. -/
theorem renderTime_eq_append (d : Date) (t : TimeOfDay) (fraction : Option (List (Fin 10))) :
    renderTime d t fraction = renderTime d t none ++ renderFraction fraction := by
  simp only [renderTime, renderFraction, List.append_assoc, List.cons_append, List.append_nil]

theorem readNanos_renderTime (hlen : ∀ ds, fraction = some ds → ds.length ≤ 9) :
    readNanos (renderTime d t fraction) = fractionNanos fraction := by
  have hpre : (renderTime d t none).length = 19 := length_renderTime d t none
  rw [renderTime_eq_append]
  generalize renderTime d t none = pre at hpre ⊢
  unfold readNanos
  cases fraction with
  | none => rw [if_neg (by simp [renderFraction, hpre])]; rfl
  | some ds =>
    have hds := hlen ds rfl
    have hpoint : (pre ++ renderFraction (some ds))[19]? = some (byte '.') := by
      rw [List.getElem?_append_right (by omega), hpre]
      rfl
    have hfrac : substr (pre ++ renderFraction (some ds)) 20
        (min 9 ((pre ++ renderFraction (some ds)).length - 20)) =
          ds.map fun d : Fin 10 => digitByte d := by
      have hsplit : pre ++ renderFraction (some ds) =
          (pre ++ [byte '.']) ++ ((ds.map fun d : Fin 10 => digitByte d) ++ []) := by
        simp [renderFraction]
      have hmin : min 9 ((pre ++ renderFraction (some ds)).length - 20) = ds.length := by
        simp only [renderFraction, List.length_append, List.length_cons, List.length_map, hpre]
        omega
      rw [hmin, hsplit]
      exact substr_append (by simp [hpre]) (by simp)
    rw [if_pos ⟨by simp [renderFraction, hpre], hpoint⟩, hfrac]
    exact (readFraction_map ds 9 0 hds).trans (Nat.zero_add _)

/-- Each number of the time is read where it stands. -/
theorem readInt_renderTime (t : TimeOfDay) (fraction : Option (List (Fin 10)))
    (hy : d.year ≤ 9999) :
    readInt (renderTime d t fraction) 0 4 = some d.year.toNat ∧
    readInt (renderTime d t fraction) 5 2 = some d.month ∧
    readInt (renderTime d t fraction) 8 2 = some d.day ∧
    readInt (renderTime d t fraction) 11 2 = some t.hour ∧
    readInt (renderTime d t fraction) 14 2 = some t.minute ∧
    readInt (renderTime d t fraction) 17 2 = some t.second := by
  have hmonth_le := d.month_le
  have hday_le := d.day_le.trans (monthLength_le _ _)
  have hhour_lt := t.hour_lt
  have hminute_lt := t.minute_lt
  have hsecond_le := t.second_le
  have hlen := length_renderTime d t fraction
  refine ⟨?_, ?_, ?_, ?_, ?_, ?_⟩
  -- the digits of each number stand at a fixed offset, whatever they are
  all_goals exact readInt_of_substr (by omega) rfl (by omega)

/-- The time is read back. -/
theorem parseTime_renderTime (hy : 1970 ≤ d.year) (hy' : d.year ≤ 9999)
    (hlen : ∀ ds, fraction = some ds → ds.length ≤ 9) :
    parseTime (renderTime d t fraction) = some
      { seconds := dayCount d * 86400 + t.seconds, nanos := fractionNanos fraction } := by
  obtain ⟨hyear, hmonth, hday, hhour, hminute, hsecond⟩ := readInt_renderTime t fraction hy'
  obtain ⟨n, hn⟩ := Date.exists_after_newYear hy
  have hcount : dayCount d = n := by
    rw [← hn]
    exact dayCount_after n
  have hsecs : timegm (d.year.toNat - 1900) (d.month - 1) d.day t.hour t.minute t.second =
      dayCount d * 86400 + t.seconds := by
    rw [Int.toNat_of_nonneg (by omega), timegm_date]
  have hvalid : dayCount d * 86400 + t.seconds ≠ (-1 : ℤ) := by
    rw [hcount]
    omega
  simp only [parseTime, hyear, hmonth, hday, hhour, hminute, hsecond, Option.bind_eq_bind,
    Option.bind_some, hsecs, if_neg hvalid, readNanos_renderTime hlen]

/-! ## The line -/

/-- A search finds the first such byte, and what follows it is left to be read. -/
theorem exists_findFrom {c : Char} {line s post : Bytes} {pos : ℕ}
    (hline : line.drop pos = s ++ byte c :: post) (hs : byte c ∉ s) :
    ∃ found, findFrom c line pos = some found ∧ found = pos + s.length ∧
      line.drop (found + 1) = post := by
  refine ⟨pos + s.length, ?_, rfl, ?_⟩
  · have hnone : s.findIdx? (· == byte c) = none := by
      rw [List.findIdx?_eq_none_iff]
      intro x hx
      rw [beq_eq_false_iff_ne]
      rintro rfl
      exact hs hx
    rw [findFrom, hline, List.findIdx?_append, hnone]
    simp [List.findIdx?_cons]
  · rw [Nat.add_assoc, ← List.drop_drop, hline, ← List.drop_drop, List.drop_left]
    rfl

/-- The parts of a line are found again, whatever brackets its message has. -/
theorem parseSpdlogLine_layout {time name level message : Bytes} {ts : Timestamp}
    (htime : 19 ≤ time.length) (hts : parseTime time = some ts) (htime' : byte ']' ∉ time)
    (hname : byte ']' ∉ name) (hlevel : byte ']' ∉ level) :
    parseSpdlogLine (layout time name level message) =
      some { ts := ts, levelLower := toLower level, message := message } := by
  have hspace : byte '[' ∉ [byte ' '] := by decide
  have hopen : byte ']' ∉ byte '[' :: time := by
    rw [List.mem_cons, not_or]
    exact ⟨by decide, htime'⟩
  generalize hline : layout time name level message = line
  have hread : line.drop 0 = (byte '[' :: time) ++ byte ']' :: (byte ' ' :: byte '[' ::
      (name ++ byte ']' :: byte ' ' :: byte '[' :: (level ++ byte ']' :: byte ' ' :: message))) :=
    hline.symm
  have hhead : line.head? = some (byte '[') := by
    rw [← hline]
    rfl
  have hlen : line.length = time.length + name.length + level.length + message.length + 9 := by
    rw [← hline]
    simp only [layout, List.length_cons, List.length_append]
    omega
  obtain ⟨closeTime, h₁, hpos₁, hread₁⟩ := exists_findFrom hread hopen
  obtain ⟨levelOpen, h₂, hpos₂, hread₂⟩ :=
    exists_findFrom (s := [byte ' ']) hread₁ hspace
  obtain ⟨levelClose, h₃, hpos₃, hread₃⟩ := exists_findFrom hread₂ hname
  obtain ⟨secondBracket, h₄, hpos₄, hread₄⟩ :=
    exists_findFrom (s := [byte ' ']) hread₃ hspace
  obtain ⟨secondClose, h₅, hpos₅, hread₅⟩ := exists_findFrom hread₄ hlevel
  rw [List.length_cons] at hpos₁
  rw [List.length_singleton] at hpos₂ hpos₄
  have htimePart : substr line 1 (closeTime - 1) = time := by
    rw [← hline]
    have hpre : [byte '['].length = 1 := rfl
    exact substr_append hpre (by omega)
  have hlevelPart : substr line (secondBracket + 1) (secondClose - secondBracket - 1) = level := by
    rw [substr, hread₄]
    exact List.take_left' (by omega)
  have hmessage : line.drop (secondClose + 2) = message := by
    rw [← Nat.add_assoc secondClose 1 1, ← List.drop_drop, hread₅]
    rfl
  have hlong : ¬ (line.length < 22 ∨ line.head? ≠ some (byte '[')) := by
    rw [hhead, not_or]
    exact ⟨by omega, not_not.mpr rfl⟩
  have hclose : ¬ closeTime < 20 := by omega
  have hshort : ¬ time.length < 19 := by omega
  have hrest : secondClose + 2 ≤ line.length := by omega
  simp only [parseSpdlogLine, if_neg hlong, Option.bind_eq_bind, h₁, Option.bind_some,
    if_neg hclose, htimePart, if_neg hshort, hts, h₂, h₃, h₄, h₅, hlevelPart, if_pos hrest,
    hmessage]

/-- No byte of a time but its digits and what stands between them. -/
structure NotInTimes (c : UInt8) : Prop where
  digits : ∀ d < 10, c ≠ digitByte d
  marks : c ∉ [byte '-', byte ' ', byte ':', byte '.']

theorem notMem_padded {c : UInt8} (hc : NotInTimes c) (len n : ℕ) : c ∉ padded len n := by
  induction len generalizing n with
  | zero => exact List.not_mem_nil
  | succ len ih =>
    rw [padded, List.mem_append, List.mem_singleton, not_or]
    exact ⟨ih _, hc.digits _ (Nat.mod_lt _ (by omega))⟩

theorem notMem_renderTime {c : UInt8} (hc : NotInTimes c) (d : Date) (t : TimeOfDay)
    (fraction : Option (List (Fin 10))) : c ∉ renderTime d t fraction := by
  have hmarks := hc.marks
  simp only [List.mem_cons, not_or] at hmarks
  obtain ⟨hdash, hspace, hcolon, hpoint, -⟩ := hmarks
  have hfraction : c ∉ renderFraction fraction := by
    cases fraction with
    | none => exact List.not_mem_nil
    | some ds =>
      rw [renderFraction, List.mem_cons, not_or, List.mem_map]
      refine ⟨hpoint, ?_⟩
      rintro ⟨digit, -, heq⟩
      exact hc.digits _ digit.isLt heq.symm
  simp [renderTime, notMem_padded hc, hfraction, hdash, hspace, hcolon]

theorem notInTimes_bracket : NotInTimes (byte ']') := ⟨by decide, by decide⟩

/-- A line with a valid time is read back, whatever its parts. -/
theorem parseSpdlogLine_renderTime {name level : Bytes} (message : Bytes) (hy : 1970 ≤ d.year)
    (hy' : d.year ≤ 9999) (hlen : ∀ ds, fraction = some ds → ds.length ≤ 9)
    (hname : byte ']' ∉ name) (hlevel : byte ']' ∉ level) :
    parseSpdlogLine (layout (renderTime d t fraction) name level message) = some
      { ts := { seconds := dayCount d * 86400 + t.seconds, nanos := fractionNanos fraction }
        levelLower := toLower level
        message := message } := by
  have htime : 19 ≤ (renderTime d t fraction).length := by
    rw [length_renderTime]
    omega
  exact parseSpdlogLine_layout htime (parseTime_renderTime hy hy' hlen)
    (notMem_renderTime notInTimes_bracket d t fraction) hname hlevel

/-- **Parsing inverts rendering.**  The seconds are those of the days of the calendar since the
epoch and of the time of day. -/
theorem parse_inverts_layout {name level : Bytes} (d : Date) (t : TimeOfDay)
    (fraction : Option (List (Fin 10))) (message : Bytes) (hy : 1970 ≤ d.year)
    (hy' : d.year ≤ 9999) (hlen : ∀ ds, fraction = some ds → ds.length ≤ 9)
    (hname : byte ']' ∉ name) (hlevel : byte ']' ∉ level) :
    ∃ days : ℕ, epoch.after days = d ∧
      parseSpdlogLine (layout (renderTime d t fraction) name level message) = some
        { ts := { seconds := days * 86400 + t.seconds, nanos := fractionNanos fraction }
          levelLower := toLower level
          message := message } ∧
      fractionNanos fraction < 10 ^ 9 := by
  obtain ⟨days, hdays⟩ := Date.exists_after_newYear hy
  refine ⟨days, hdays, ?_, fractionNanos_lt hlen⟩
  have hcount : dayCount d = days := by
    rw [← hdays]
    exact dayCount_after days
  rw [parseSpdlogLine_renderTime message hy hy' hlen hname hlevel, hcount]

/-- A leap day, with a message of brackets. -/
theorem parse_inverts_layout_leapDay : ∃ days : ℕ,
    epoch.after days = ⟨2024, 2, 29, by decide, by decide, by decide, by decide⟩ ∧
    parseSpdlogLine (layout
        (renderTime ⟨2024, 2, 29, by decide, by decide, by decide, by decide⟩
          ⟨12, 0, 1, by decide, by decide, by decide⟩ (some [2, 5]))
        [byte 'a'] [byte 'I', byte 'n'] [byte ']', byte '[']) = some
      { ts := { seconds := days * 86400 + 43201, nanos := 250000000 }
        levelLower := [byte 'i', byte 'n']
        message := [byte ']', byte '['] } := by
  have hname : byte ']' ∉ [byte 'a'] := by decide
  have hlevel : byte ']' ∉ [byte 'I', byte 'n'] := by decide
  obtain ⟨days, hdays, hparse, -⟩ := parse_inverts_layout
    ⟨2024, 2, 29, by decide, by decide, by decide, by decide⟩
    ⟨12, 0, 1, by decide, by decide, by decide⟩ (some [2, 5]) [byte ']', byte '[']
    (by decide) (by decide) (by simp) hname hlevel
  exact ⟨days, hdays, hparse⟩

end Zurg.LogOps
