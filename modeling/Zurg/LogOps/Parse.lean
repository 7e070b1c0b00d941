import Mathlib.Algebra.Order.Ring.Int
import Zurg.Proto

/-!
# Zurg.LogOps.Parse — `ParseSpdlogLine`

Lines are lists of bytes.  `timegm` is the proleptic Gregorian day count and carries over whatever
is out of range, as the C library does.
-/

namespace Zurg.LogOps

open Proto

/-- The byte of an ASCII character. -/
def byte (c : Char) : UInt8 := c.toUInt8

/-- `string_view::find` of a character, from `pos` on. -/
def findFrom (c : Char) (s : Bytes) (pos : ℕ) : Option ℕ :=
  ((s.drop pos).findIdx? (· == byte c)).map (pos + ·)

def substr (s : Bytes) (pos len : ℕ) : Bytes := (s.drop pos).take len

/-- `ToLower`, in the C locale. -/
def toLower (s : Bytes) : Bytes :=
  s.map fun ch => if byte 'A' ≤ ch ∧ ch ≤ byte 'Z' then ch + 32 else ch

/-! ## Numbers -/

def digit (c : UInt8) : Option ℕ :=
  if byte '0' ≤ c ∧ c ≤ byte '9' then some (c.toNat - (byte '0').toNat) else none

def readDigits : ℕ → Bytes → Option ℕ
  | value, [] => some value
  | value, c :: rest =>
    match digit c with
    | none => none
    | some d => readDigits (value * 10 + d) rest

/-- `read_int`. -/
def readInt (timePart : Bytes) (pos len : ℕ) : Option ℕ :=
  if timePart.length < pos + len then none else readDigits 0 (substr timePart pos len)

/-- The digits of the fraction, up to the first byte that is none. -/
def readFraction : (factor nanos : ℕ) → Bytes → ℕ
  | _, nanos, [] => nanos
  | factor, nanos, c :: rest =>
    match digit c with
    | none => nanos
    | some d => readFraction (factor / 10) (nanos + d * factor) rest

def readNanos (timePart : Bytes) : ℕ :=
  if timePart.length > 19 ∧ timePart[19]? = some (byte '.') then
    readFraction 100000000 0 (substr timePart 20 (min 9 (timePart.length - 20)))
  else 0

/-! ## Calendar -/

def isLeap (year : ℤ) : Bool := year % 4 = 0 && (year % 100 ≠ 0 || year % 400 = 0)

/-- Months are counted from 0. -/
def daysInMonth (leap : Bool) : ℕ → ℕ
  | 1 => if leap then 29 else 28
  | 3 | 5 | 8 | 10 => 30
  | _ => 31

def daysBeforeMonth (leap : Bool) (month : ℕ) : ℕ :=
  ((List.range month).map (daysInMonth leap)).sum

/-- The days from the beginning of the year 1 to that of `year`. -/
def daysBeforeYear (year : ℤ) : ℤ :=
  365 * (year - 1) + (year - 1) / 4 - (year - 1) / 100 + (year - 1) / 400

/-- `timegm`: seconds since 1970-01-01 00:00:00 UTC. -/
def timegm (tmYear tmMon tmMday tmHour tmMin tmSec : ℤ) : ℤ :=
  let year := tmYear + 1900 + tmMon / 12
  let days := daysBeforeYear year - daysBeforeYear 1970 +
    daysBeforeMonth (isLeap year) (tmMon % 12).toNat + (tmMday - 1)
  ((days * 24 + tmHour) * 60 + tmMin) * 60 + tmSec

/-! ## Lines -/

structure ParsedLine where
  ts : Timestamp
  levelLower : Bytes
  message : Bytes
  deriving DecidableEq, Repr

/-- The time between the first pair of brackets. -/
def parseTime (timePart : Bytes) : Option Timestamp := do
  let year ← readInt timePart 0 4
  let month ← readInt timePart 5 2
  let day ← readInt timePart 8 2
  let hour ← readInt timePart 11 2
  let minute ← readInt timePart 14 2
  let second ← readInt timePart 17 2
  let secs := timegm (year - 1900) (month - 1) day hour minute second
  -- `timegm` returns -1 on failure, and for one second of 1969
  if secs = -1 then none else some { seconds := secs, nanos := readNanos timePart }

/-- `ParseSpdlogLine`: `[time] [name] [level] message`. -/
def parseSpdlogLine (line : Bytes) : Option ParsedLine := do
  if line.length < 22 ∨ line.head? ≠ some (byte '[') then none
  let closeTime ← findFrom ']' line 0
  if closeTime < 20 then none
  let timePart := substr line 1 (closeTime - 1)
  if timePart.length < 19 then none
  let ts ← parseTime timePart
  let levelOpen ← findFrom '[' line (closeTime + 1)
  let levelClose ← findFrom ']' line (levelOpen + 1)
  let secondBracket ← findFrom '[' line (levelClose + 1)
  let secondClose ← findFrom ']' line (secondBracket + 1)
  let levelPart := substr line (secondBracket + 1) (secondClose - secondBracket - 1)
  let message := if secondClose + 2 ≤ line.length then line.drop (secondClose + 2) else []
  some { ts := ts, levelLower := toLower levelPart, message := message }

end Zurg.LogOps
