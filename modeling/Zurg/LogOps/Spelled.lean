import Mathlib.Data.List.Induction
import Zurg.LogOps.Filter
import Zurg.LogOps.RoundTrip

/-!
# Zurg.LogOps.Spelled — the time that an accepted line spells

`ParseSpdlogLine` reads six numbers at fixed offsets and checks that they are digits.  What stands
between them it does not look at, and a number out of range is carried over by `timegm`, so that a
line may be accepted and filed under another time.  A line carries the time it spells exactly if
what is not checked is in place (`carriesTime_iff`).
-/

namespace Zurg.LogOps

open Lib Proto

/-! ## What a line spells -/

/-- What stands between the first bracket of a line and the first closing one. -/
def timeField (line : Bytes) : Bytes := (line.drop 1).takeWhile (· != byte ']')

/-- The days from the beginning of the year 0 to the epoch (`after_daysToEpoch`). -/
def daysToEpoch : ℕ := 719528

/-- `YYYY-MM-DD HH:MM:SS` of the seconds since the epoch, in the years of four digits. -/
def renderSeconds (secs : ℤ) : Option Bytes :=
  let days := secs / 86400 + daysToEpoch
  let d := (Date.newYear 0).after days.toNat
  if 0 ≤ days ∧ d.year ≤ 9999 then some (renderTime d (.ofSeconds (secs % 86400).toNat) none)
  else none

/-- A time field is a time of the calendar, and the one of the timestamp. -/
structure CarriesTime (time : Bytes) (ts : Timestamp) : Prop where
  spelled : ∃ (d : Date) (t : TimeOfDay), 0 ≤ d.year ∧ d.year ≤ 9999 ∧ t.second < 60 ∧
    time.take 19 = renderTime d t none
  rendered : renderSeconds ts.seconds = some (time.take 19)

/-- The number that digits are. -/
def decimal (s : Bytes) : ℕ := s.foldl (fun n c => n * 10 + (c.toNat - 48)) 0

/-- What belongs between the numbers of a time. -/
def marks : List (ℕ × Char) := [(4, '-'), (7, '-'), (10, ' '), (13, ':'), (16, ':')]

/-- What `ParseSpdlogLine` does not check of a time: the bytes between its numbers, and that the
numbers are in range. -/
structure ValidTime (time : Bytes) : Prop where
  mark : ∀ m ∈ marks, time[m.1]? = some (byte m.2)
  month_pos : 1 ≤ decimal (substr time 5 2)
  month_le : decimal (substr time 5 2) ≤ 12
  day_pos : 1 ≤ decimal (substr time 8 2)
  day_le : decimal (substr time 8 2) ≤
    monthLength (decimal (substr time 0 4)) (decimal (substr time 5 2))
  hour_lt : decimal (substr time 11 2) < 24
  minute_lt : decimal (substr time 14 2) < 60
  second_lt : decimal (substr time 17 2) < 60

/-! ## Digits that have been read -/

theorem digit_some {c : UInt8} {d : ℕ} (h : digit c = some d) :
    digitByte d = c ∧ c.toNat - 48 = d ∧ d < 10 := by
  have hzero : (byte '0').toNat = 48 := rfl
  have hnine : (byte '9').toNat = 57 := rfl
  rw [digit, Option.ite_none_right_eq_some, UInt8.le_iff_toNat_le, UInt8.le_iff_toNat_le, hzero,
    hnine] at h
  obtain ⟨⟨hlow, hhigh⟩, h⟩ := h
  obtain rfl := Option.some.inj h
  refine ⟨?_, rfl, by omega⟩
  rw [digitByte, Nat.add_sub_cancel' hlow, UInt8.ofNat_toNat]

theorem decimal_append (l : Bytes) (c : UInt8) :
    decimal (l ++ [c]) = decimal l * 10 + (c.toNat - 48) := by
  rw [decimal, List.foldl_append]
  rfl

/-- Digits that are read as a number are its digits. -/
theorem readDigits_some {l : Bytes} {n : ℕ} (h : readDigits 0 l = some n) :
    padded l.length n = l ∧ decimal l = n ∧ n < 10 ^ l.length := by
  induction l using List.reverseRecOn generalizing n with
  | nil =>
    obtain rfl : 0 = n := Option.some.inj h
    exact ⟨rfl, rfl, Nat.one_pos⟩
  | append_singleton l c ih =>
    rw [readDigits_append, Option.bind_eq_some_iff] at h
    obtain ⟨v, hv, h⟩ := h
    obtain ⟨d, hd, rfl⟩ := Option.map_eq_some_iff.mp h
    obtain ⟨hpadded, hdecimal, hlt⟩ := ih hv
    obtain ⟨hbyte, hval, hd⟩ := digit_some hd
    have hdiv : (v * 10 + d) / 10 = v := by omega
    have hmod : (v * 10 + d) % 10 = d := by omega
    rw [List.length_append, List.length_singleton]
    refine ⟨?_, ?_, ?_⟩
    · rw [padded, hdiv, hmod, hpadded, hbyte]
    · rw [decimal_append, hdecimal, hval]
    · rw [Nat.pow_succ]
      omega

theorem readInt_some {time : Bytes} {pos len n : ℕ} (h : readInt time pos len = some n) :
    substr time pos len = padded len n ∧ decimal (substr time pos len) = n ∧ n < 10 ^ len := by
  rw [readInt, Option.ite_none_left_eq_some] at h
  obtain ⟨hle, h⟩ := h
  have hlen : (substr time pos len).length = len := by
    simp only [substr, List.length_take, List.length_drop]
    omega
  have hread := readDigits_some h
  rw [hlen] at hread
  exact ⟨hread.1.symm, hread.2⟩

theorem decimal_of_readInt {time : Bytes} {pos len n : ℕ} (h : readInt time pos len = some n) :
    decimal (substr time pos len) = n :=
  (readInt_some h).2.1

/-! ## The time, byte for byte -/

variable {time : Bytes} {d : Date} {t : TimeOfDay} {ts : Timestamp}

/-- The numbers of a date and a time of day stand at their places, with the marks between. -/
structure Spells (time : Bytes) (d : Date) (t : TimeOfDay) : Prop where
  mark : ∀ m ∈ marks, time[m.1]? = some (byte m.2)
  year : readInt time 0 4 = some d.year.toNat
  month : readInt time 5 2 = some d.month
  day : readInt time 8 2 = some d.day
  hour : readInt time 11 2 = some t.hour
  minute : readInt time 14 2 = some t.minute
  second : readInt time 17 2 = some t.second

theorem drop_of_readInt {pos len n : ℕ} (h : readInt time pos len = some n) :
    time.drop pos = padded len n ++ time.drop (pos + len) := by
  rw [← (readInt_some h).1, substr, ← List.drop_drop]
  exact (List.take_append_drop len _).symm

theorem drop_of_getElem? {pos : ℕ} {c : UInt8} (h : time[pos]? = some c) :
    time.drop pos = c :: time.drop (pos + 1) := by
  obtain ⟨hlt, hc⟩ := List.getElem?_eq_some_iff.mp h
  rw [List.drop_eq_getElem_cons hlt, hc]

theorem renderTime_append (d : Date) (t : TimeOfDay) (post : Bytes) :
    renderTime d t none ++ post =
      padded 4 d.year.toNat ++ (byte '-' :: (padded 2 d.month ++ (byte '-' :: (padded 2 d.day ++
        (byte ' ' :: (padded 2 t.hour ++ (byte ':' :: (padded 2 t.minute ++ (byte ':' ::
          (padded 2 t.second ++ post)))))))))) := by
  simp only [renderTime, renderFraction, List.append_assoc, List.cons_append, List.append_nil]

theorem Spells.take_eq (h : Spells time d t) : time.take 19 = renderTime d t none := by
  have hmark := h.mark
  simp only [marks, List.forall_mem_cons] at hmark
  obtain ⟨h4, h7, h10, h13, h16, -⟩ := hmark
  have htime : time = renderTime d t none ++ time.drop 19 := by
    rw [renderTime_append, ← drop_of_readInt h.second, ← drop_of_getElem? h16,
      ← drop_of_readInt h.minute, ← drop_of_getElem? h13, ← drop_of_readInt h.hour,
      ← drop_of_getElem? h10, ← drop_of_readInt h.day, ← drop_of_getElem? h7,
      ← drop_of_readInt h.month, ← drop_of_getElem? h4, ← drop_of_readInt h.year]
    rfl
  rw [htime]
  exact List.take_left' (length_renderTime d t none)

/-- A number in the first 19 bytes is read from these alone. -/
theorem readInt_take {pos len : ℕ} (h : pos + len ≤ 19) (hlen : 19 ≤ time.length) :
    readInt (time.take 19) pos len = readInt time pos len := by
  have hsub : substr (time.take 19) pos len = substr time pos len := by
    rw [substr, substr, List.drop_take, List.take_take, Nat.min_eq_left (by omega)]
  rw [readInt, readInt, hsub, List.length_take, Nat.min_eq_left hlen, if_neg (by omega),
    if_neg (by omega)]

theorem spells_of_take (hy : d.year ≤ 9999) (h : time.take 19 = renderTime d t none) :
    Spells time d t := by
  have hlen : 19 ≤ time.length := by
    have := congrArg List.length h
    rw [length_renderTime, List.length_take] at this
    omega
  have hmark : ∀ m ∈ marks, (renderTime d t none)[m.1]? = some (byte m.2) := by
    simp only [marks, List.forall_mem_cons]
    exact ⟨rfl, rfl, rfl, rfl, rfl, List.forall_mem_nil _⟩
  obtain ⟨hyear, hmonth, hday, hhour, hminute, hsecond⟩ := readInt_renderTime t none hy
  rw [← h, readInt_take (by omega) hlen] at hyear hmonth hday hhour hminute hsecond
  refine ⟨fun m hm => ?_, hyear, hmonth, hday, hhour, hminute, hsecond⟩
  have hlt : ∀ m ∈ marks, m.1 < 19 := by decide
  rw [← hmark m hm, ← h, List.getElem?_take_of_lt (hlt m hm)]

/-- A time field spells a time exactly if its first 19 bytes are its rendering. -/
theorem spells_iff (hy : d.year ≤ 9999) :
    Spells time d t ↔ time.take 19 = renderTime d t none :=
  ⟨Spells.take_eq, spells_of_take hy⟩

/-- What is not checked of a time is in place if it spells a date. -/
theorem Spells.validTime (h : Spells time d t) (hy : 0 ≤ d.year) (hs : t.second < 60) :
    ValidTime time := by
  have hmonth := decimal_of_readInt h.month
  have hday := decimal_of_readInt h.day
  have hlast : monthLength (decimal (substr time 0 4)) (decimal (substr time 5 2)) =
      monthLength d.year d.month := by
    rw [decimal_of_readInt h.year, hmonth, Int.toNat_of_nonneg hy]
  refine ⟨h.mark, ?_, ?_, ?_, ?_, ?_, ?_, ?_⟩
  · exact hmonth ▸ d.month_pos
  · exact hmonth ▸ d.month_le
  · exact hday ▸ d.day_pos
  · rw [hlast, hday]
    exact d.day_le
  · exact decimal_of_readInt h.hour ▸ t.hour_lt
  · exact decimal_of_readInt h.minute ▸ t.minute_lt
  · exact decimal_of_readInt h.second ▸ hs

/-! ## The seconds -/

theorem dayCount_newYear_zero : dayCount (.newYear 0) = -daysToEpoch := by decide

/-- The epoch comes so many days after the beginning of the year 0. -/
theorem after_daysToEpoch : (Date.newYear 0).after daysToEpoch = epoch := by
  obtain ⟨n, hn⟩ : ∃ n, (Date.newYear 0).after n = epoch :=
    Date.exists_after_newYear (by decide)
  have hcount := Date.count_after dayCount_next (.newYear 0) n
  rw [hn, dayCount_newYear_zero] at hcount
  have hepoch : dayCount epoch = 0 := dayCount_after 0
  obtain rfl : n = daysToEpoch := by omega
  exact hn

/-- The seconds of a date and a time of day are rendered as these. -/
theorem renderSeconds_date (hy : 0 ≤ d.year) (hy' : d.year ≤ 9999) (hs : t.second < 60) :
    renderSeconds (dayCount d * 86400 + t.seconds) = some (renderTime d t none) := by
  obtain ⟨n, hn⟩ := Date.exists_after_newYear hy
  have hcount : dayCount d = -daysToEpoch + n := by
    rw [← hn, Date.count_after dayCount_next, dayCount_newYear_zero]
  have hlt := t.seconds_lt hs
  have hdays : (dayCount d * 86400 + t.seconds) / 86400 + daysToEpoch = n := by omega
  have hsecs : ((dayCount d * 86400 + t.seconds) % 86400).toNat = t.seconds := by omega
  simp only [renderSeconds, hdays, hsecs, Int.toNat_natCast, hn, t.ofSeconds_seconds hs]
  exact if_pos ⟨Int.natCast_nonneg n, hy'⟩

/-! ## Accepted lines -/

/-- What `ParseSpdlogLine` has read of the time of a line it accepts. -/
theorem exists_of_parseTime (h : parseTime time = some ts) :
    ∃ year month day hour minute second : ℕ,
      readInt time 0 4 = some year ∧ readInt time 5 2 = some month ∧
      readInt time 8 2 = some day ∧ readInt time 11 2 = some hour ∧
      readInt time 14 2 = some minute ∧ readInt time 17 2 = some second ∧
      ts.seconds = timegm (year - 1900) (month - 1) day hour minute second := by
  simp only [parseTime, Option.bind_eq_bind, Option.bind_eq_some_iff] at h
  obtain ⟨year, hyear, month, hmonth, day, hday, hour, hhour, minute, hminute, second, hsecond, h⟩
    := h
  rw [Option.ite_none_left_eq_some] at h
  obtain ⟨-, h⟩ := h
  obtain rfl := Option.some.inj h
  exact ⟨year, month, day, hour, minute, second, hyear, hmonth, hday, hhour, hminute, hsecond, rfl⟩

theorem timeField_eq {line : Bytes} {closeTime : ℕ} (hopen : line.head? = some (byte '['))
    (hclose : findFrom ']' line 0 = some closeTime) :
    timeField line = substr line 1 (closeTime - 1) := by
  obtain ⟨rest, rfl⟩ : ∃ rest, line = byte '[' :: rest := by
    cases line with
    | nil => simp at hopen
    | cons c rest => exact ⟨rest, by rw [Option.some.inj hopen]⟩
  have hne : (byte '[' == byte ']') = false := by decide
  rw [findFrom, List.drop_zero, List.findIdx?_cons, hne] at hclose
  simp only [Bool.false_eq_true, if_false, Option.map_map, Option.map_eq_some_iff,
    Function.comp_apply, Nat.zero_add] at hclose
  obtain ⟨i, hi, rfl⟩ := hclose
  have hidx : rest.findIdx (· == byte ']') = i :=
    (List.findIdx?_eq_some_iff_findIdx_eq.mp hi).2
  rw [timeField, substr, List.drop_succ_cons, List.drop_zero, Nat.add_sub_cancel,
    List.takeWhile_eq_take_findIdx_not, ← hidx]
  simp only [bne, Bool.not_not]

/-- The timestamp of an accepted line has been read from its time field. -/
theorem parseTime_of_accepted {line : Bytes} {p : ParsedLine} (h : parseSpdlogLine line = some p) :
    parseTime (timeField line) = some p.ts := by
  simp only [parseSpdlogLine, Option.bind_eq_bind, Option.bind_none, Option.ite_none_left_eq_some,
    Option.bind_eq_some_iff] at h
  obtain ⟨hline, closeTime, hclose, -, -, ts, hts, _, -, _, -, _, -, _, -, h⟩ := h
  obtain rfl := Option.some.inj h
  rw [not_or, not_not] at hline
  rw [timeField_eq hline.2 hclose, hts]

theorem timeField_layout {name level message : Bytes} (h : byte ']' ∉ time) :
    timeField (layout time name level message) = time := by
  have hopen : ∀ c ∈ time, (c != byte ']') = true := by
    intro c hc
    rw [bne_iff_ne]
    rintro rfl
    exact h hc
  rw [timeField, layout, List.drop_succ_cons, List.drop_zero, List.takeWhile_append_of_pos hopen,
    List.takeWhile_cons_of_neg (by simp), List.append_nil]

/-- Six numbers in range are a date and a time of day. -/
theorem ValidTime.exists_spells (hvalid : ValidTime time) (h : parseTime time = some ts) :
    ∃ (d : Date) (t : TimeOfDay), 0 ≤ d.year ∧ d.year ≤ 9999 ∧ t.second < 60 ∧
      Spells time d t ∧ ts.seconds = dayCount d * 86400 + t.seconds := by
  obtain ⟨year, month, day, hour, minute, second, hyear, hmonth, hday, hhour, hminute, hsecond,
    hts⟩ := exists_of_parseTime h
  obtain ⟨hmark, hmonth₁, hmonth₂, hday₁, hday₂, hhour₁, hminute₁, hsecond₁⟩ := hvalid
  rw [decimal_of_readInt hyear, decimal_of_readInt hmonth, decimal_of_readInt hday] at hday₂
  rw [decimal_of_readInt hmonth] at hmonth₁ hmonth₂
  rw [decimal_of_readInt hday] at hday₁
  rw [decimal_of_readInt hhour] at hhour₁
  rw [decimal_of_readInt hminute] at hminute₁
  rw [decimal_of_readInt hsecond] at hsecond₁
  have hyear₁ := (readInt_some hyear).2.2
  let d : Date := ⟨year, month, day, hmonth₁, hmonth₂, hday₁, hday₂⟩
  let t : TimeOfDay := ⟨hour, minute, second, hhour₁, hminute₁, Nat.le_of_lt hsecond₁⟩
  refine ⟨d, t, Int.natCast_nonneg year, ?_, hsecond₁, ?_, ?_⟩
  · change (year : ℤ) ≤ 9999
    omega
  · exact ⟨hmark, hyear, hmonth, hday, hhour, hminute, hsecond⟩
  · rw [hts]
    exact timegm_date d t

/-- **An accepted line carries the time it spells** exactly if the bytes between its numbers are
the marks of a time and the numbers are in range. -/
theorem carriesTime_iff {line : Bytes} {p : ParsedLine} (h : parseSpdlogLine line = some p) :
    CarriesTime (timeField line) p.ts ↔ ValidTime (timeField line) := by
  constructor
  · rintro ⟨⟨d, t, hy, hy', hs, htake⟩, -⟩
    exact ((spells_iff hy').mpr htake).validTime hy hs
  · intro hvalid
    obtain ⟨d, t, hy, hy', hs, hspells, hts⟩ := hvalid.exists_spells (parseTime_of_accepted h)
    have htake := hspells.take_eq
    refine ⟨⟨d, t, hy, hy', hs, htake⟩, ?_⟩
    rw [htake, hts]
    exact renderSeconds_date hy hy' hs

/-- The lines of a sink carry their time. -/
theorem carriesTime_layout {fraction : Option (List (Fin 10))} {name level : Bytes}
    (message : Bytes) (hy : 1970 ≤ d.year) (hy' : d.year ≤ 9999) (hs : t.second < 60)
    (hlen : ∀ ds, fraction = some ds → ds.length ≤ 9) (hname : byte ']' ∉ name)
    (hlevel : byte ']' ∉ level) :
    ∃ p, parseSpdlogLine (layout (renderTime d t fraction) name level message) = some p ∧
      CarriesTime (timeField (layout (renderTime d t fraction) name level message)) p.ts := by
  have htake : (renderTime d t fraction).take 19 = renderTime d t none := by
    rw [renderTime_eq_append]
    exact List.take_left' (length_renderTime d t none)
  have hy₀ : 0 ≤ d.year := by omega
  refine ⟨_, parseSpdlogLine_renderTime message hy hy' hlen hname hlevel, ?_⟩
  rw [timeField_layout (notMem_renderTime notInTimes_bracket d t fraction)]
  refine ⟨⟨d, t, hy₀, hy', hs, htake⟩, ?_⟩
  rw [htake]
  exact renderSeconds_date hy₀ hy' hs

/-- The leap day of 2024, one second before midnight. -/
theorem carriesTime_iff_leapDay : ∃ p,
    parseSpdlogLine (bytes "[2024-02-29 23:59:59.250] [agent] [info] x") = some p ∧
    CarriesTime (timeField (bytes "[2024-02-29 23:59:59.250] [agent] [info] x")) p.ts := by
  have hline : bytes "[2024-02-29 23:59:59.250] [agent] [info] x" =
      layout (bytes "2024-02-29 23:59:59.250") (bytes "agent") (bytes "info") (bytes "x") := by
    decide +kernel
  have hts : parseTime (bytes "2024-02-29 23:59:59.250") = some ⟨1709251199, 250000000⟩ := by
    decide +kernel
  have hclosed : byte ']' ∉ bytes "2024-02-29 23:59:59.250" := by decide +kernel
  have hparse : parseSpdlogLine (layout (bytes "2024-02-29 23:59:59.250") (bytes "agent")
      (bytes "info") (bytes "x")) = some _ :=
    parseSpdlogLine_layout (by decide +kernel) hts hclosed (by decide +kernel) (by decide +kernel)
  rw [hline]
  refine ⟨_, hparse, (carriesTime_iff hparse).mpr ?_⟩
  rw [timeField_layout hclosed]
  exact ⟨by decide +kernel, by decide +kernel, by decide +kernel, by decide +kernel,
    by decide +kernel, by decide +kernel, by decide +kernel, by decide +kernel⟩

/-- The 31st of February is accepted, and filed under the third of March. -/
theorem filed_under_another_date :
    (∃ p, parseSpdlogLine (bytes "[2025-02-31 10:00:00.000] [agent] [info] x") = some p ∧
      renderSeconds p.ts.seconds = some (bytes "2025-03-03 10:00:00") ∧
      ¬ CarriesTime (timeField (bytes "[2025-02-31 10:00:00.000] [agent] [info] x")) p.ts) ∧
    ¬ ∀ line p, parseSpdlogLine line = some p → CarriesTime (timeField line) p.ts := by
  have hline : bytes "[2025-02-31 10:00:00.000] [agent] [info] x" =
      layout (bytes "2025-02-31 10:00:00.000") (bytes "agent") (bytes "info") (bytes "x") := by
    decide +kernel
  have hts : parseTime (bytes "2025-02-31 10:00:00.000") = some ⟨1740996000, 0⟩ := by
    decide +kernel
  have hclosed : byte ']' ∉ bytes "2025-02-31 10:00:00.000" := by decide +kernel
  have hparse : parseSpdlogLine (layout (bytes "2025-02-31 10:00:00.000") (bytes "agent")
      (bytes "info") (bytes "x")) = some _ :=
    parseSpdlogLine_layout (by decide +kernel) hts hclosed (by decide +kernel) (by decide +kernel)
  have hrender : renderSeconds 1740996000 = some (bytes "2025-03-03 10:00:00") := by
    let d : Date := ⟨2025, 3, 3, by decide, by decide, by decide, by decide⟩
    let t : TimeOfDay := ⟨10, 0, 0, by decide, by decide, by decide⟩
    have hdate : renderSeconds (dayCount d * 86400 + t.seconds) = some (renderTime d t none) :=
      renderSeconds_date (by decide) (by decide) (by decide)
    have hsecs : dayCount d * 86400 + t.seconds = 1740996000 := by decide +kernel
    have hbytes : renderTime d t none = bytes "2025-03-03 10:00:00" := by decide +kernel
    rw [← hsecs, ← hbytes]
    exact hdate
  have hnot : ∀ ts, ¬ CarriesTime (bytes "2025-02-31 10:00:00.000") ts := by
    rintro ts ⟨⟨d, t, hy, hy', hs, htake⟩, -⟩
    exact absurd ((spells_of_take hy' htake).validTime hy hs).day_le (by decide +kernel)
  rw [hline, timeField_layout hclosed]
  refine ⟨⟨_, hparse, hrender, hnot _⟩, fun h => ?_⟩
  have hcarries := h _ _ hparse
  rw [timeField_layout hclosed] at hcarries
  exact hnot _ hcarries

end Zurg.LogOps
