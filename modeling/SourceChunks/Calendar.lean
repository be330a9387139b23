/-!
# The calendar

Days of the Gregorian calendar, carried back beyond its introduction, against the number of days
since 1 January 1970. The calendar repeats every 400 years, which have 146097 days.
-/

namespace SourceChunks

namespace Calendar

/-- A day of the calendar. -/
structure Date where
  /-- The year. -/
  year : Nat
  /-- The month, from zero for January to eleven for December. -/
  month : Nat
  /-- The day of the month, from one on. -/
  day : Nat
  deriving DecidableEq, Repr

/-- Whether a year has a 29th of February. -/
def isLeap (year : Nat) : Bool := year % 4 == 0 && (year % 100 != 0 || year % 400 == 0)

/-- The number of days in a year before each month. -/
def monthStarts (leap : Bool) : List Nat :=
  if leap then [0, 31, 60, 91, 121, 152, 182, 213, 244, 274, 305, 335]
  else [0, 31, 59, 90, 120, 151, 181, 212, 243, 273, 304, 334]

/-- The number of days from 1 January of the year one to 1 January of a year. -/
def daysBeforeYear (year : Nat) : Int :=
  let y : Int := year - 1
  365 * y + y / 4 - y / 100 + y / 400

/-- The number of days from 1 January of the year one to 1 January 1970. -/
def epoch : Int := 719162

/-- The number of days since 1 January 1970. The day of the month may be too small or too large, and
then counts into the months next to it. -/
def Date.toDays (d : Date) : Int :=
  daysBeforeYear d.year + ((monthStarts (isLeap d.year)).getD d.month 0 : Nat) + d.day - 1 - epoch

/-- The day that is so many days after 1 January 1970, from the year one on. -/
def Date.ofDays (days : Int) : Date :=
  let n := (days + epoch).toNat
  let cycle := n % 146097
  let century := min (cycle / 36524) 3
  let inCentury := cycle - century * 36524
  let inFour := inCentury % 1461
  let yearOfFour := min (inFour / 365) 3
  let year := 400 * (n / 146097) + 100 * century + 4 * (inCentury / 1461) + yearOfFour + 1
  let dayOfYear := inFour - yearOfFour * 365
  let started := (monthStarts (isLeap year)).takeWhile fun start => start ≤ dayOfYear
  ⟨year, started.length - 1, dayOfYear - started.getLastD 0 + 1⟩

example : Date.ofDays 0 = ⟨1970, 0, 1⟩ ∧ Date.ofDays (-1) = ⟨1969, 11, 31⟩ := by decide

example : Date.ofDays 11016 = ⟨2000, 1, 29⟩ ∧ Date.toDays ⟨2000, 1, 29⟩ = 11016 := by decide

end Calendar

end SourceChunks
