import Mathlib.Data.List.TakeWhile
import SourceChunks.Calendar

/-!
# Days and dates

A day is found again by its date, and dates are in the order of days. Days are counted in cycles of
400 years, in centuries, in fours of years and in years. The last century of a cycle, the last four
of such a century and the last year of any other four have one day more than the others, which is
why the quotients are cut off at three.
-/

namespace SourceChunks.Calendar

/-- The rule of the calendar: every fourth year, less the centuries that four hundred does not
divide. -/
theorem isLeap_iff {year : Nat} :
    isLeap year ↔ year % 4 = 0 ∧ (year % 100 ≠ 0 ∨ year % 400 = 0) := by
  simp [isLeap]

/-! ## Years -/

/-- The year of the day that comes so many days after 1 January of the year one. -/
def yearOf (n : Nat) : Nat :=
  let cycle := n % 146097
  let century := min (cycle / 36524) 3
  let inCentury := cycle - century * 36524
  400 * (n / 146097) + 100 * century + 4 * (inCentury / 1461) + min (inCentury % 1461 / 365) 3 + 1

/-- The number of days of that year before the day. -/
def dayOfYear (n : Nat) : Nat :=
  let cycle := n % 146097
  let inFour := (cycle - min (cycle / 36524) 3 * 36524) % 1461
  inFour - min (inFour / 365) 3 * 365

/-- A day in cycles, centuries, fours, years and days. A 366th day of a year is one of the last year
of a four, which is not the last four of a century unless the century is the last one of a cycle. -/
theorem exists_cycles (n : Nat) : ∃ cycles centuries fours years,
    centuries ≤ 3 ∧ fours ≤ 24 ∧ years ≤ 3 ∧
    yearOf n = 400 * cycles + 100 * centuries + 4 * fours + years + 1 ∧
    n = 146097 * cycles + 36524 * centuries + 1461 * fours + 365 * years + dayOfYear n ∧
    (dayOfYear n < 365 ∨ dayOfYear n = 365 ∧ years = 3 ∧ (fours < 24 ∨ centuries = 3)) := by
  refine ⟨n / 146097, min (n % 146097 / 36524) 3,
    (n % 146097 - min (n % 146097 / 36524) 3 * 36524) / 1461,
    min ((n % 146097 - min (n % 146097 / 36524) 3 * 36524) % 1461 / 365) 3,
    by omega, by omega, by omega, rfl, ?_, ?_⟩ <;>
  · simp only [dayOfYear]
    omega

/-- The days before a year and those of it together. -/
theorem daysBeforeYear_add_dayOfYear (n : Nat) :
    daysBeforeYear (yearOf n) + dayOfYear n = n := by
  obtain ⟨q, c, f, y, hc, hf, hy, hyear, hn, -⟩ := exists_cycles n
  have hyears : (yearOf n : Int) - 1 = 400 * q + 100 * c + 4 * f + y := by omega
  have hfours : (400 * q + 100 * c + 4 * f + y : Int) / 4 = 100 * q + 25 * c + f := by omega
  have hcenturies : (400 * q + 100 * c + 4 * f + y : Int) / 100 = 4 * q + c := by omega
  have hcycles : (400 * q + 100 * c + 4 * f + y : Int) / 400 = q := by omega
  simp only [daysBeforeYear, hyears, hfours, hcenturies, hcycles]
  omega

/-- A year has 365 days, or 366 if it is a leap year. -/
theorem dayOfYear_lt (n : Nat) : dayOfYear n < if isLeap (yearOf n) then 366 else 365 := by
  obtain ⟨q, c, f, y, hc, hf, hy, hyear, -, hday⟩ := exists_cycles n
  split
  · omega
  · next h =>
    rw [isLeap_iff, hyear] at h
    omega

/-! ## Months -/

/-- The date of the day that so many days of a year are before. -/
def ofDayOfYear (year day : Nat) : Date :=
  let started := (monthStarts (isLeap year)).takeWhile fun start => start ≤ day
  ⟨year, started.length - 1, day - started.getLastD 0 + 1⟩

/-- The date of a day of a year is one of its twelve months, of which none has more than 31 days,
and the days before its month and in it together are those of the year. -/
theorem ofDayOfYear_bounds {year day : Nat} (h : day < if isLeap year then 366 else 365) :
    (ofDayOfYear year day).month < 12 ∧ (ofDayOfYear year day).day ≤ 31 ∧
      (monthStarts (isLeap year)).getD (ofDayOfYear year day).month 0 + (ofDayOfYear year day).day =
        day + 1 := by
  have hall : ∀ leap : Bool, ∀ d < if leap then 366 else 365,
      let started := (monthStarts leap).takeWhile fun start => decide (start ≤ d)
      started.length - 1 < 12 ∧ d - started.getLastD 0 + 1 ≤ 31 ∧
        (monthStarts leap).getD (started.length - 1) 0 + (d - started.getLastD 0 + 1) = d + 1 := by
    decide +kernel
  exact hall (isLeap year) day h

/-! ## Dates -/

/-- A date is found from its number of days as a year and a day of that year. -/
theorem ofDays_eq (days : Int) : Date.ofDays days =
    ofDayOfYear (yearOf (days + epoch).toNat) (dayOfYear (days + epoch).toNat) := rfl

/-- A day from the year one on is found again by its date. -/
theorem toDays_ofDays {days : Int} (h : 0 ≤ days + epoch) : (Date.ofDays days).toDays = days := by
  have hyear := daysBeforeYear_add_dayOfYear (days + epoch).toNat
  obtain ⟨-, -, hday⟩ := ofDayOfYear_bounds (dayOfYear_lt (days + epoch).toNat)
  rw [ofDays_eq, Date.toDays]
  change daysBeforeYear (yearOf _) + ((monthStarts (isLeap (yearOf _))).getD _ 0 : Nat) + _ - 1 -
    epoch = days
  omega

/-- The fields of a date up to the end of the year 9999. -/
theorem ofDays_bounds {days : Int} (hlow : 0 ≤ days + epoch) (hhigh : days + epoch < 3652059) :
    (Date.ofDays days).year ≤ 9999 ∧ (Date.ofDays days).month < 12 ∧
      1 ≤ (Date.ofDays days).day ∧ (Date.ofDays days).day ≤ 31 := by
  obtain ⟨q, c, f, y, hc, hf, hy, hyear, hn, -⟩ := exists_cycles (days + epoch).toNat
  obtain ⟨hmonth, hday, -⟩ := ofDayOfYear_bounds (dayOfYear_lt (days + epoch).toNat)
  have hyear : yearOf (days + epoch).toNat ≤ 9999 := by omega
  rw [ofDays_eq]
  exact ⟨hyear, hmonth, Nat.le_add_left .., hday⟩

/-! ## Order -/

/-- A date comes before another one. -/
def Date.Before (d e : Date) : Prop :=
  d.year < e.year ∨ d.year = e.year ∧ (d.month < e.month ∨ d.month = e.month ∧ d.day < e.day)

/-- A year ends where the next one begins. -/
theorem daysBeforeYear_succ (year : Nat) :
    daysBeforeYear (year + 1) = daysBeforeYear year + if isLeap year then 366 else 365 := by
  simp only [daysBeforeYear, isLeap_iff]
  split <;> omega

/-- Later years begin later. -/
theorem daysBeforeYear_mono {year year' : Nat} (h : year ≤ year') :
    daysBeforeYear year ≤ daysBeforeYear year' := by
  simp only [daysBeforeYear]
  omega

/-- A later day is not in an earlier year. -/
theorem yearOf_mono {m n : Nat} (h : m ≤ n) : yearOf m ≤ yearOf n := by
  by_contra hlt
  have hyears := daysBeforeYear_mono (Nat.succ_le_of_lt (Nat.lt_of_not_le hlt))
  have hday := dayOfYear_lt n
  have hm := daysBeforeYear_add_dayOfYear m
  have hn := daysBeforeYear_add_dayOfYear n
  rw [Nat.succ_eq_add_one, daysBeforeYear_succ] at hyears
  split at hday <;> split at hyears <;> omega

/-- Of two days of a year the later one has the later date. -/
theorem ofDayOfYear_before {year day day' : Nat} (h : day < day')
    (hlast : day' < if isLeap year then 366 else 365) :
    (ofDayOfYear year day).Before (ofDayOfYear year day') := by
  obtain ⟨-, -, hday⟩ := ofDayOfYear_bounds (h.trans hlast)
  obtain ⟨-, -, hday'⟩ := ofDayOfYear_bounds hlast
  -- The months that have started by a day have started by a later one.
  have hmonths : (monthStarts (isLeap year)).takeWhile (fun start => decide (start ≤ day)) <+:
      (monthStarts (isLeap year)).takeWhile fun start => decide (start ≤ day') := by
    have hboth : (fun start => decide (start ≤ day)) =
        fun start => decide (decide (start ≤ day) = true ∧ decide (start ≤ day') = true) := by
      funext start
      simp only [decide_eq_true_eq, decide_eq_decide]
      omega
    rw [hboth, ← List.takeWhile_takeWhile]
    exact List.takeWhile_prefix _
  have hmonth : (ofDayOfYear year day).month ≤ (ofDayOfYear year day').month :=
    Nat.sub_le_sub_right hmonths.length_le 1
  rcases Nat.lt_or_eq_of_le hmonth with hlt | heq
  · exact .inr ⟨rfl, .inl hlt⟩
  · rw [heq] at hday
    exact .inr ⟨rfl, .inr ⟨heq, by omega⟩⟩

/-- No date comes before itself. -/
theorem Date.Before.irrefl (d : Date) : ¬ d.Before d := by
  simp [Before]

/-- Of two dates at most one comes before the other. -/
theorem Date.Before.asymm {d e : Date} (h : d.Before e) : ¬ e.Before d := by
  simp only [Before] at h ⊢
  omega

/-- A later day has a later date. -/
theorem ofDays_before {days days' : Int} (hfirst : 0 ≤ days + epoch) (h : days < days') :
    (Date.ofDays days).Before (Date.ofDays days') := by
  rw [ofDays_eq, ofDays_eq]
  have hlater : (days + epoch).toNat < (days' + epoch).toNat := by omega
  generalize (days + epoch).toNat = m at hlater
  generalize (days' + epoch).toNat = n at hlater
  have hm := daysBeforeYear_add_dayOfYear m
  have hn := daysBeforeYear_add_dayOfYear n
  rcases Nat.lt_or_eq_of_le (yearOf_mono hlater.le) with hlt | heq
  · exact .inl hlt
  · rw [heq] at hm ⊢
    exact ofDayOfYear_before (by omega) (dayOfYear_lt n)

/-- Days are in the order of their dates. -/
theorem ofDays_before_iff {days days' : Int} (hfirst : 0 ≤ days + epoch)
    (hfirst' : 0 ≤ days' + epoch) :
    (Date.ofDays days).Before (Date.ofDays days') ↔ days < days' := by
  constructor
  · intro h
    rcases Int.lt_trichotomy days days' with hlt | rfl | hgt
    · exact hlt
    · exact absurd h (Date.Before.irrefl _)
    · exact absurd h (ofDays_before hfirst' hgt).asymm
  · exact ofDays_before hfirst

/-- A day is known by the fields of its date. -/
theorem ofDays_eq_iff {days days' : Int} (hfirst : 0 ≤ days + epoch)
    (hfirst' : 0 ≤ days' + epoch) :
    (Date.ofDays days).year = (Date.ofDays days').year ∧
        (Date.ofDays days).month = (Date.ofDays days').month ∧
        (Date.ofDays days).day = (Date.ofDays days').day ↔
      days = days' := by
  refine ⟨?_, fun heq => heq ▸ ⟨rfl, rfl, rfl⟩⟩
  rintro ⟨hyear, hmonth, hday⟩
  rw [← toDays_ofDays hfirst, ← toDays_ofDays hfirst', Date.toDays, Date.toDays, hyear,
    hmonth, hday]

end SourceChunks.Calendar
