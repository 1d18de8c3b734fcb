/-!
# Calendar days

Days of the proleptic Gregorian calendar, counted from 1 January 1970. `dayNumber` counts the days
before a date from the days before its year and before its month; `dateOf` finds the year and the
month back by comparing against the same counts.
-/

namespace DurableFlow.Calendar

/-- A day of the calendar; year 0 is the year before year 1. -/
structure Date where
  year : Int
  month : Nat
  day : Nat
  deriving DecidableEq, Repr

/-- Every fourth year is a leap year, but of the full centuries only every fourth. -/
def isLeap (year : Int) : Bool := year % 4 == 0 && (year % 100 != 0 || year % 400 == 0)

/-- The days of a month, and 0 for a number that is no month. -/
def daysInMonth (year : Int) (month : Nat) : Nat :=
  if month = 2 then (if isLeap year then 29 else 28)
  else if month = 4 ∨ month = 6 ∨ month = 9 ∨ month = 11 then 30
  else if 1 ≤ month ∧ month ≤ 12 then 31
  else 0

/-- Whether the month has that day. -/
def Date.isValid (d : Date) : Bool := 1 ≤ d.day && d.day ≤ daysInMonth d.year d.month

/-- The days before 1 January of a year, counted from 1 January of year 1. -/
def daysBeforeYear (year : Int) : Int :=
  let y := year - 1
  365 * y + y / 4 - y / 100 + y / 400

/-- The days of a year before its `month`-th month. -/
def daysBeforeMonth (year : Int) : Nat → Nat
  | 0 => 0
  | m + 1 => daysBeforeMonth year m + daysInMonth year m

/-- The number of 1 January 1970 counted from 1 January of year 1. -/
def originDay : Int := 719162

/-- The days from 1 January 1970 to a date. -/
def dayNumber (d : Date) : Int :=
  daysBeforeYear d.year + daysBeforeMonth d.year d.month + (d.day - 1) - originDay

/-- The last of the months up to `month` that starts at or before the day of the year. -/
def monthOf (year : Int) (dayOfYear : Nat) : Nat → Nat
  | 0 => 1
  | m + 1 =>
    if daysBeforeMonth year (m + 1) ≤ dayOfYear then m + 1 else monthOf year dayOfYear m

/-- The date with a day number. -/
def dateOf (day : Int) : Date :=
  let n := day + originDay
  let guess := n * 400 / 146097 + 1
  let year :=
    if daysBeforeYear (guess + 1) ≤ n then guess + 1
    else if daysBeforeYear guess ≤ n then guess
    else guess - 1
  let dayOfYear := (n - daysBeforeYear year).toNat
  let month := monthOf year dayOfYear 12
  ⟨year, month, dayOfYear - daysBeforeMonth year month + 1⟩

example : dayNumber ⟨1970, 1, 1⟩ = 0 := by decide
example : dateOf (dayNumber ⟨2024, 2, 29⟩) = ⟨2024, 2, 29⟩ := by decide
example : dateOf (dayNumber ⟨-1, 12, 31⟩) = ⟨-1, 12, 31⟩ := by decide

end DurableFlow.Calendar
