import Mathlib.Data.Int.Basic
import Mathlib.Tactic.Common

namespace AsterCore

/-- Durations are integers of nanoseconds, as in the standard library. -/
def durationMinute : Int := 60 * 1000000000
def durationHour : Int := 3600 * 1000000000
def durationDay : Int := 24 * durationHour

/-- `now.Unix()` of a clock reading in nanoseconds since the epoch. -/
def unixOf (now : Nat) : Int := (now : Int) / 1000000000

/-- `now.Add(-d).Unix()`; seconds are rounded down, also before the epoch. -/
def unixBefore (now : Nat) (d : Int) : Int := ((now : Int) - d) / 1000000000

/-- The start of the hour of a clock reading, `now.Unix() / 3600 * 3600`. After the epoch
this is also `now.UTC().Truncate(time.Hour).Unix()`. -/
def hourStart (now : Nat) : Int := unixOf now / 3600 * 3600

variable {a b : Nat}

theorem unixOf_mono (h : a ≤ b) : unixOf a ≤ unixOf b := by
  unfold unixOf
  omega

theorem unixOf_nonneg (now : Nat) : 0 ≤ unixOf now := by
  unfold unixOf
  omega

theorem unixBefore_mono (h : a ≤ b) (d : Int) : unixBefore a d ≤ unixBefore b d := by
  unfold unixBefore
  omega

theorem unixBefore_le_unixOf (now : Nat) {d : Int} (h : 0 ≤ d) : unixBefore now d ≤ unixOf now := by
  unfold unixBefore unixOf
  omega

theorem hourStart_bounds (now : Nat) : hourStart now ≤ unixOf now ∧ unixOf now < hourStart now + 3600 := by
  unfold hourStart
  omega

theorem hourStart_mono (h : a ≤ b) : hourStart a ≤ hourStart b := by
  have := unixOf_mono h
  unfold hourStart
  omega

theorem le_hourStart {now : Nat} {m : Int} (dvd : 3600 ∣ m) (le : m ≤ unixOf now) : m ≤ hourStart now := by
  unfold hourStart
  omega

/-- `start.UTC()` cut to its day: `time.Date(t.Year(), t.Month(), t.Day(), 0, 0, 0, 0, time.UTC).Unix()`. -/
def dayStart (start : Int) : Int := start / 86400 * 86400

def isLeapYear (year : Nat) : Bool := year % 4 == 0 && (year % 100 != 0 || year % 400 == 0)

def daysInMonth (year month : Nat) : Nat :=
  if month = 2 then (if isLeapYear year then 29 else 28)
  else if month = 4 ∨ month = 6 ∨ month = 9 ∨ month = 11 then 30
  else 31

/-- Walks month by month from the first day `first` of a month to the month that holds `day`
and returns that month's first day. -/
def monthWalk : Nat → Nat → Nat → Nat → Nat → Nat
  | 0, _, _, first, _ => first
  | fuel + 1, year, month, first, day =>
    if day < first + daysInMonth year month then first
    else if month = 12 then monthWalk fuel (year + 1) 1 (first + daysInMonth year month) day
    else monthWalk fuel year (month + 1) (first + daysInMonth year month) day

/-- The first day of the month of a day, in days since the epoch. The calendar repeats every
400 years, that is 146097 days. -/
def firstOfMonth (day : Int) : Int :=
  day / 146097 * 146097 + monthWalk ((day % 146097).toNat + 1) 1970 1 0 (day % 146097).toNat

/-- `time.Date(t.Year(), t.Month(), 1, 0, 0, 0, 0, time.UTC).Unix()`. -/
def monthStart (start : Int) : Int := firstOfMonth (start / 86400) * 86400

theorem daysInMonth_pos (year month : Nat) : 0 < daysInMonth year month := by
  unfold daysInMonth
  split_ifs <;> omega

theorem daysInMonth_le (year month : Nat) : daysInMonth year month ≤ 31 := by
  unfold daysInMonth
  split_ifs <;> omega

theorem monthWalk_bounds {fuel first day : Nat} (year month : Nat) (low : first ≤ day) (he : day < first + fuel) :
    monthWalk fuel year month first day ≤ day ∧
      day < monthWalk fuel year month first day + 31 := by
  induction fuel generalizing year month first with
  | zero => omega
  | succ _ ih =>
    have pos := daysInMonth_pos year month
    have le := daysInMonth_le year month
    unfold monthWalk
    split_ifs with hi last
    · omega
    · exact ih (year + 1) 1 (by omega) (by omega)
    · exact ih year (month + 1) (by omega) (by omega)

theorem firstOfMonth_bounds (day : Int) : firstOfMonth day ≤ day ∧ day < firstOfMonth day + 31 := by
  have walk := monthWalk_bounds 1970 1
    (Nat.zero_le (day % 146097).toNat) (by omega : (day % 146097).toNat < 0 + ((day % 146097).toNat + 1))
  unfold firstOfMonth
  omega

theorem firstOfMonth_january {day : Int} (low : 0 ≤ day) (high : day < 31) : firstOfMonth day = 0 := by
  have hs : (day % 146097).toNat < 31 := by omega
  have walk : monthWalk ((day % 146097).toNat + 1) 1970 1 0 (day % 146097).toNat = 0 := by
    unfold monthWalk
    rw [if_pos (by simpa [daysInMonth] using hs)]
  unfold firstOfMonth
  omega

section

variable (start : Int)

include start

theorem dayStart_bounds : dayStart start ≤ start ∧ start < dayStart start + 86400 := by
  unfold dayStart
  omega

theorem monthStart_bounds : monthStart start ≤ start ∧ start < monthStart start + 31 * 86400 := by
  have := firstOfMonth_bounds (start / 86400)
  unfold monthStart
  omega

theorem dayStart_dvd : 3600 ∣ dayStart start := by
  unfold dayStart
  omega

theorem monthStart_dvd : 3600 ∣ monthStart start := by
  unfold monthStart
  omega

theorem dayStart_hour : dayStart (start / 3600 * 3600) = dayStart start := by
  unfold dayStart
  omega

theorem monthStart_hour : monthStart (start / 3600 * 3600) = monthStart start := by
  unfold monthStart
  rw [show start / 3600 * 3600 / 86400 = start / 86400 by omega]

end

end AsterCore
