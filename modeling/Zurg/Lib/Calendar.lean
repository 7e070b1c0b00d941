import Mathlib.Data.Int.Notation
import Mathlib.Logic.Function.Iterate
import Mathlib.Tactic.SplitIfs

/-!
# Zurg.Lib.Calendar — the proleptic Gregorian calendar

A date is valid by its fields.  `Date.next` is the day after, and everything else is said by it:
`d.after n` is the `n`-th day after `d`, and a count of days is a function that grows by one with
each `next` (`count_after`).  From the first of January of a year every later date is reached
(`exists_after_newYear`).
-/

namespace Zurg.Lib

def Leap (year : ℤ) : Prop := 4 ∣ year ∧ (¬ 100 ∣ year ∨ 400 ∣ year)

instance (year : ℤ) : Decidable (Leap year) := inferInstanceAs (Decidable (_ ∧ _))

def monthLength (year : ℤ) : ℕ → ℕ
  | 2 => if Leap year then 29 else 28
  | 4 | 6 | 9 | 11 => 30
  | _ => 31

theorem monthLength_pos (year : ℤ) (month : ℕ) : 1 ≤ monthLength year month := by
  unfold monthLength
  split
  · split_ifs <;> omega
  all_goals omega

theorem monthLength_le (year : ℤ) (month : ℕ) : monthLength year month ≤ 31 := by
  unfold monthLength
  split
  · split_ifs <;> omega
  all_goals omega

/-- A valid date. -/
@[ext]
structure Date where
  year : ℤ
  month : ℕ
  day : ℕ
  month_pos : 1 ≤ month
  month_le : month ≤ 12
  day_pos : 1 ≤ day
  day_le : day ≤ monthLength year month
  deriving DecidableEq, Repr

/-- A time of day; a minute may end with a leap second. -/
structure TimeOfDay where
  hour : ℕ
  minute : ℕ
  second : ℕ
  hour_lt : hour < 24
  minute_lt : minute < 60
  second_le : second ≤ 60
  deriving DecidableEq, Repr

/-- The seconds since midnight. -/
def TimeOfDay.seconds (t : TimeOfDay) : ℕ := (t.hour * 60 + t.minute) * 60 + t.second

/-- The time of day after `n` seconds, in days without leap seconds. -/
def TimeOfDay.ofSeconds (n : ℕ) : TimeOfDay where
  hour := n / 3600 % 24
  minute := n / 60 % 60
  second := n % 60
  hour_lt := Nat.mod_lt _ (by omega)
  minute_lt := Nat.mod_lt _ (by omega)
  second_le := Nat.le_of_lt (Nat.mod_lt n (by omega))

theorem TimeOfDay.seconds_ofSeconds (n : ℕ) : (ofSeconds n).seconds = n % 86400 := by
  simp only [seconds, ofSeconds]
  omega

/-- Without a leap second the time of day is that of its seconds. -/
theorem TimeOfDay.ofSeconds_seconds (t : TimeOfDay) (h : t.second < 60) :
    ofSeconds t.seconds = t := by
  obtain ⟨hour, minute, second, hhour, hminute, _⟩ := t
  simp only [ofSeconds, seconds, TimeOfDay.mk.injEq] at h ⊢
  omega

theorem TimeOfDay.seconds_lt (t : TimeOfDay) (h : t.second < 60) : t.seconds < 86400 := by
  have hhour := t.hour_lt
  have hminute := t.minute_lt
  simp only [seconds]
  omega

namespace Date

/-- The first of January. -/
def newYear (year : ℤ) : Date := ⟨year, 1, 1, by omega, by omega, by omega, monthLength_pos _ _⟩

/-- The day after. -/
def next (d : Date) : Date :=
  if hd : d.day < monthLength d.year d.month then
    { d with day := d.day + 1, day_pos := by omega, day_le := hd }
  else if hm : d.month < 12 then
    { d with
      month := d.month + 1
      day := 1
      month_pos := by omega
      month_le := hm
      day_pos := by omega
      day_le := monthLength_pos _ _ }
  else newYear (d.year + 1)

/-- The `n`-th day after. -/
def after (d : Date) (n : ℕ) : Date := next^[n] d

@[simp] theorem after_zero (d : Date) : d.after 0 = d := rfl

theorem after_succ (d : Date) (n : ℕ) : d.after (n + 1) = (d.after n).next :=
  Function.iterate_succ_apply' next n d

/-- What grows by one each day counts the days. -/
theorem count_after {f : Date → ℤ} (hf : ∀ d, f d.next = f d + 1) (d : Date) (n : ℕ) :
    f (d.after n) = f d + n := by
  induction n with
  | zero => simp
  | succ n ih =>
    rw [after_succ, hf, ih]
    omega

theorem year_le_next (d : Date) : d.year ≤ d.next.year := by
  unfold next
  split_ifs
  · exact Int.le_refl _
  · exact Int.le_refl _
  · simp only [newYear]
    omega

theorem year_le_after (d : Date) (n : ℕ) : d.year ≤ (d.after n).year := by
  induction n with
  | zero => exact Int.le_refl _
  | succ n ih =>
    rw [after_succ]
    exact Int.le_trans ih (year_le_next _)

/-! ## Every date from a new year on -/

/-- The dates from `d` on. -/
def From (d e : Date) : Prop := ∃ n, d.after n = e

variable {d e : Date}

theorem From.next (h : From d e) : From d e.next := by
  obtain ⟨n, rfl⟩ := h
  exact ⟨n + 1, after_succ d n⟩

/-- With the first of a month come the other days of it. -/
theorem From.day {year : ℤ} {month : ℕ} (hm : 1 ≤ month) (hm' : month ≤ 12)
    (h : From d ⟨year, month, 1, hm, hm', by omega, monthLength_pos _ _⟩) (day : ℕ)
    (hday : 1 ≤ day) (hday' : day ≤ monthLength year month) :
    From d ⟨year, month, day, hm, hm', hday, hday'⟩ := by
  induction day with
  | zero => omega
  | succ day ih =>
    by_cases hfirst : day = 0
    · subst hfirst
      exact h
    · have hstep := (ih (by omega) (by omega)).next
      simp only [Date.next] at hstep
      rwa [dif_pos (by omega)] at hstep

/-- With a new year come the months of it. -/
theorem From.month {year : ℤ} (h : From d (newYear year)) (month : ℕ) (hm : 1 ≤ month)
    (hm' : month ≤ 12) :
    From d ⟨year, month, 1, hm, hm', by omega, monthLength_pos _ _⟩ := by
  induction month with
  | zero => omega
  | succ month ih =>
    by_cases hfirst : month = 0
    · subst hfirst
      exact h
    · have hlast := From.day _ _ (ih (by omega) (by omega)) (monthLength year month)
        (monthLength_pos _ _) (Nat.le_refl _)
      have hstep := hlast.next
      simp only [Date.next] at hstep
      rwa [dif_neg (Nat.lt_irrefl _), dif_pos (by omega)] at hstep

theorem From.year {year : ℤ} (h : From d (newYear year)) (n : ℕ) :
    From d (newYear (year + n)) := by
  induction n with
  | zero => simpa using h
  | succ n ih =>
    have hlast :=
      From.day _ _ (From.month ih 12 (by omega) (by omega)) 31 (by omega) (Nat.le_refl _)
    have hstep := hlast.next
    simp only [Date.next] at hstep
    rw [dif_neg (by simp [monthLength]), dif_neg (by omega)] at hstep
    rwa [Int.natCast_succ, ← Int.add_assoc]

/-- **Every date** from a new year on comes so many days after it. -/
theorem exists_after_newYear {year : ℤ} (h : year ≤ e.year) : ∃ n, (newYear year).after n = e := by
  have hyear := From.year (d := newYear year) ⟨0, rfl⟩ (e.year - year).toNat
  rw [show year + ((e.year - year).toNat : ℤ) = e.year by omega] at hyear
  exact From.day _ _ (hyear.month e.month e.month_pos e.month_le) e.day e.day_pos e.day_le

end Date

end Zurg.Lib
