import Mathlib.Algebra.Ring.Int.Defs
import Mathlib.Data.List.TakeWhile
import SourceChunks.Instant
import SourceChunks.Proofs.Bytes.Decimal
import SourceChunks.Proofs.Calendar

/-!
# Instants told by their texts

The text of an instant tells the instant, as long as a clock can tell it that counts nanoseconds in
a word of 64 bits, except that the last second before 1970 cannot be told: its number is the one
that stands for a failure. Such texts sort as the instants do, that second included.
-/

namespace SourceChunks.Instant

/-! ## Parts -/

/-- A number that is written in the width that it may have is read back. -/
theorem readNumber_ofNatPadded {width low high n : Nat} (hwidth : 0 < width) (hn : n < 10 ^ width)
    (hlow : low ≤ n) (hhigh : n ≤ high) (t : Bytes) :
    readNumber width low high (Bytes.ofNatPadded width n ++ t) = some (n, t) := by
  have hlength := Bytes.length_ofNatPadded hwidth hn
  have hdigits : ((Bytes.ofNatPadded width n ++ t).take width).takeWhile Bytes.isDigit =
      Bytes.ofNatPadded width n := by
    rw [List.take_left' hlength, List.takeWhile_eq_self_iff]
    exact fun b hb => Bytes.isDigit_of_mem_ofNatPadded hb
  have hfits : ¬ ((Bytes.ofNatPadded width n).isEmpty ∨ n < low ∨ high < n) := by
    rw [List.isEmpty_iff_length_eq_zero, hlength]
    omega
  simp only [readNumber, hdigits, Bytes.digitsValue_ofNatPadded, if_neg hfits, List.drop_left]

/-- The parts after a number are read from what follows it. -/
theorem readParts_number {width low high n : Nat} (hwidth : 0 < width) (hn : n < 10 ^ width)
    (hlow : low ≤ n) (hhigh : n ≤ high) (rest : List Part) (b : UInt8) (t : Bytes) :
    readParts (.number width low high :: rest) (Bytes.ofNatPadded width n ++ b :: t) =
      (readParts rest (b :: t)).map fun r => (n :: r.1, r.2) := by
  rw [readParts, readNumber_ofNatPadded hwidth hn hlow hhigh, readParts.next]
  simp

/-- White space may be missing before a number. -/
theorem readParts_spacedNumber {width low high n : Nat} (hwidth : 0 < width) (hn : n < 10 ^ width)
    (hlow : low ≤ n) (hhigh : n ≤ high) (rest : List Part) (b : UInt8) (t : Bytes) :
    readParts (.spacedNumber width low high :: rest) (Bytes.ofNatPadded width n ++ b :: t) =
      (readParts rest (b :: t)).map fun r => (n :: r.1, r.2) := by
  have hread := readParts_number hwidth hn hlow hhigh rest b t
  obtain ⟨d, digits, heq, hspace⟩ := Bytes.exists_ofNatPadded_eq_cons width n
  simp only [heq, List.cons_append, readParts, if_neg hspace] at hread ⊢
  exact hread

/-- A mark in a format reads itself. -/
theorem readParts_mark (c : UInt8) (rest : List Part) (t : Bytes) :
    readParts (.mark c :: rest) (c :: t) = readParts rest t := by
  rw [readParts, if_pos rfl]

/-- The numbers of a date and a time of day are read back from their texts. -/
theorem readParts_dateTime {year month day hour minute second : Nat} (hyear : year ≤ 9999)
    (hmonth : month < 12) (hday : 1 ≤ day ∧ day ≤ 31) (hhour : hour < 24) (hminute : minute < 60)
    (hsecond : second < 60) (b : UInt8) (t : Bytes) :
    readParts parts (Bytes.ofNatPadded 4 year ++ 0x2D :: (Bytes.ofNatPadded 2 (month + 1) ++
      0x2D :: (Bytes.ofNatPadded 2 day ++ 0x54 :: (Bytes.ofNatPadded 2 hour ++
      0x3A :: (Bytes.ofNatPadded 2 minute ++ 0x3A :: (Bytes.ofNatPadded 2 second ++ b :: t)))))) =
      some ([year, month + 1, day, hour, minute, second], b :: t) := by
  obtain ⟨hday, hday'⟩ := hday
  rw [parts, readParts_number (by omega) (by omega) (by omega) hyear, readParts_mark,
    readParts_number (by omega) (by omega) (by omega) hmonth, readParts_mark,
    readParts_spacedNumber (by omega) (by omega) hday hday', readParts_mark,
    readParts_number (by omega) (by omega) (by omega) (by omega), readParts_mark,
    readParts_number (by omega) (by omega) (by omega) (by omega), readParts_mark,
    readParts_number (by omega) (by omega) (by omega) (by omega), readParts]
  rfl

/-- Six digits of a fraction are all that there is to read of it. -/
theorem readFraction_ofNatPadded {n : Nat} (hn : n < 10 ^ 6) :
    readFraction (0x2E :: (Bytes.ofNatPadded 6 n ++ bytes "Z")) = some n := by
  have hlength := Bytes.length_ofNatPadded (by omega) hn
  have hdigits : (Bytes.ofNatPadded 6 n ++ bytes "Z").takeWhile Bytes.isDigit =
      Bytes.ofNatPadded 6 n := by
    rw [List.takeWhile_append_of_pos fun b hb => Bytes.isDigit_of_mem_ofNatPadded hb]
    exact List.append_nil _
  have hfits : ¬ (Bytes.ofNatPadded 6 n).isEmpty := by
    rw [List.isEmpty_iff_length_eq_zero, hlength]
    omega
  have hscale : n * Nat.pow 10 (6 - 6) = n := Nat.mul_one n
  simp only [readFraction, hdigits, if_neg hfits, List.take_of_length_le hlength.le, hlength,
    Bytes.digitsValue_ofNatPadded, hscale]

/-! ## Instants -/

/-- An instant that a clock can tell which counts nanoseconds in a word of 64 bits. Its year is one
of those from 1677 to 2262. -/
structure Dated (t : Instant) : Prop where
  /-- It is not before the first nanosecond that the clock can tell. -/
  low : -2 ^ 63 ≤ 1000 * t.micros
  /-- It is not after the last nanosecond that the clock can tell. -/
  high : 1000 * t.micros < 2 ^ 63

/-- An instant that the clock can tell is what the clock tells at it. -/
theorem Dated.ofNanos_eq {t : Instant} (h : t.Dated) :
    ofNanos ((t.micros * 1000).bmod UInt64.size) = t := by
  obtain ⟨hlow, hhigh⟩ := h
  have hword : (t.micros * 1000).bmod UInt64.size = t.micros * 1000 := by
    rw [UInt64.size]
    exact Int.bmod_eq_of_le (by omega) (by omega)
  rw [hword, ofNanos, Int.mul_tdiv_cancel _ (by decide)]

/-- An instant of the last second before 1970. -/
def InLastSecond (t : Instant) : Prop := -1000000 ≤ t.micros ∧ t.micros < 0

instance (t : Instant) : Decidable t.InLastSecond :=
  inferInstanceAs (Decidable (-1000000 ≤ t.micros ∧ t.micros < 0))

/-- A second that is taken back makes up for a division that cuts off towards zero. -/
theorem split_eq (t : Instant) : t.split = (t.micros / 1000000, t.micros % 1000000) := by
  have hwhole := Int.mul_tdiv_add_tmod t.micros 1000000
  have hlow := Int.lt_tmod_of_pos t.micros (show (0 : Int) < 1000000 by decide)
  have hhigh := Int.tmod_lt_of_pos t.micros (show (0 : Int) < 1000000 by decide)
  rw [split]
  split
  · rw [Prod.mk.injEq]
    omega
  · rw [Prod.mk.injEq]
    omega

/-- The text of an instant is its date, its time of day and its fraction with marks between them. -/
theorem toText_eq (t : Instant) :
    let date := Calendar.Date.ofDays (t.micros / 1000000 / 86400)
    let time := (t.micros / 1000000 % 86400).toNat
    t.toText = Bytes.ofNatPadded 4 date.year ++ 0x2D :: (Bytes.ofNatPadded 2 (date.month + 1) ++
      0x2D :: (Bytes.ofNatPadded 2 date.day ++ 0x54 :: (Bytes.ofNatPadded 2 (time / 3600) ++
      0x3A :: (Bytes.ofNatPadded 2 (time / 60 % 60) ++ 0x3A :: (Bytes.ofNatPadded 2 (time % 60) ++
      0x2E :: (Bytes.ofNatPadded 6 (t.micros % 1000000).toNat ++ bytes "Z")))))) := by
  simp only [toText, split_eq, List.append_assoc]
  rfl

/-- An instant is told by its text, unless it is in the last second before 1970. -/
theorem ofText?_toText {t : Instant} (h : t.Dated) :
    ofText? t.toText = if t.InLastSecond then none else some t := by
  have hclock := h.ofNanos_eq
  obtain ⟨hlow, hhigh⟩ := h
  have hfirst : 0 ≤ t.micros / 1000000 / 86400 + Calendar.epoch := by
    rw [Calendar.epoch]
    omega
  have hlast : t.micros / 1000000 / 86400 + Calendar.epoch < 3652059 := by
    rw [Calendar.epoch]
    omega
  obtain ⟨hyear, hmonth, hday⟩ := Calendar.ofDays_bounds hfirst hlast
  have hhour : (t.micros / 1000000 % 86400).toNat / 3600 < 24 := by omega
  have hminute : (t.micros / 1000000 % 86400).toNat / 60 % 60 < 60 := by omega
  have hsecond : (t.micros / 1000000 % 86400).toNat % 60 < 60 := by omega
  have hread := readParts_dateTime hyear hmonth hday hhour hminute hsecond 0x2E
    (Bytes.ofNatPadded 6 (t.micros % 1000000).toNat ++ bytes "Z")
  have hfraction : (t.micros % 1000000).toNat < 10 ^ 6 := by omega
  have hspace : t.toText.dropWhile Bytes.isSpace = t.toText := by
    obtain ⟨d, digits, heq, hspace⟩ := Bytes.exists_ofNatPadded_eq_cons 4
      (Calendar.Date.ofDays (t.micros / 1000000 / 86400)).year
    rw [toText_eq, heq]
    exact List.dropWhile_cons_of_neg hspace
  rw [← toText_eq] at hread
  rw [ofText?, hspace, hread]
  simp only [Option.bind_eq_bind, Option.bind_some, readFraction_ofNatPadded hfraction,
    List.getD_cons_zero, List.getD_cons_succ, Nat.add_sub_cancel, Calendar.toDays_ofDays hfirst]
  -- The days and the time of day make the seconds again, and these and the fraction the instant.
  have hseconds : t.micros / 1000000 / 86400 * 86400 +
      ((t.micros / 1000000 % 86400).toNat / 3600 * 3600 +
        (t.micros / 1000000 % 86400).toNat / 60 % 60 * 60 +
        (t.micros / 1000000 % 86400).toNat % 60 : Nat) = t.micros / 1000000 := by
    omega
  have hmicros : t.micros / 1000000 * 1000000 + (t.micros % 1000000).toNat = t.micros := by omega
  have hunknown : t.micros / 1000000 = -1 ↔ t.InLastSecond := by
    unfold InLastSecond
    omega
  simp only [hseconds, hmicros, hunknown, hclock]

/-! ## Order -/

variable {t u : Instant}

/-- The number of days from 1 January 1970 to the day of an instant. -/
def days (t : Instant) : Int := t.micros / 1000000 / 86400

/-- The seconds that are over of the day of an instant. -/
def secondOfDay (t : Instant) : Nat := (t.micros / 1000000 % 86400).toNat

/-- The microseconds that are over of the second of an instant. -/
def microOfSecond (t : Instant) : Nat := (t.micros % 1000000).toNat

/-- The days of an instant on the clock are those of the calendar's years. -/
theorem Dated.days_bounds (h : t.Dated) :
    0 ≤ t.days + Calendar.epoch ∧ t.days + Calendar.epoch < 3652059 := by
  obtain ⟨hlow, hhigh⟩ := h
  rw [days, Calendar.epoch]
  omega

/-- Instants are in the order of days, of seconds in a day and of microseconds in a second. -/
theorem micros_lt_iff : t.micros < u.micros ↔ t.days < u.days ∨ t.days = u.days ∧
    (t.secondOfDay < u.secondOfDay ∨ t.secondOfDay = u.secondOfDay ∧
      t.microOfSecond < u.microOfSecond) := by
  simp only [days, secondOfDay, microOfSecond]
  omega

/-- Seconds of a day are in the order of hours, of minutes in an hour and of seconds in a minute. -/
theorem second_lt_iff {m n : Nat} :
    m < n ↔ m / 3600 < n / 3600 ∨ m / 3600 = n / 3600 ∧
      (m / 60 % 60 < n / 60 % 60 ∨ m / 60 % 60 = n / 60 % 60 ∧ m % 60 < n % 60) := by
  omega

/-- Seconds of a day are the same when hours, minutes and seconds are. -/
theorem second_eq_iff {m n : Nat} :
    m = n ↔ m / 3600 = n / 3600 ∧ m / 60 % 60 = n / 60 % 60 ∧ m % 60 = n % 60 := by
  omega

/-- Instants that a clock of nanoseconds can tell are in the order of their texts. -/
theorem toText_lt_iff (ht : t.Dated) (hu : u.Dated) :
    t.toText < u.toText ↔ t.micros < u.micros := by
  obtain ⟨hfirst, hlast⟩ := ht.days_bounds
  obtain ⟨hfirst', hlast'⟩ := hu.days_bounds
  obtain ⟨hyear, hmonth, -, hday⟩ := Calendar.ofDays_bounds hfirst hlast
  obtain ⟨hyear', hmonth', -, hday'⟩ := Calendar.ofDays_bounds hfirst' hlast'
  -- An order by several parts is an order by all fields of these parts.
  rw [micros_lt_iff, second_lt_iff (m := t.secondOfDay), second_eq_iff (m := t.secondOfDay),
    ← Calendar.ofDays_before_iff hfirst hfirst', ← Calendar.ofDays_eq_iff hfirst hfirst',
    Calendar.Date.Before, toText_eq, toText_eq]
  simp only [days, secondOfDay, microOfSecond] at *
  rw [Bytes.ofNatPadded_append_lt_iff (by omega) (by omega) (by omega), List.cons_lt_cons_self,
    Bytes.ofNatPadded_append_lt_iff (by omega) (by omega) (by omega), List.cons_lt_cons_self,
    Bytes.ofNatPadded_append_lt_iff (by omega) (by omega) (by omega), List.cons_lt_cons_self,
    Bytes.ofNatPadded_append_lt_iff (by omega) (by omega) (by omega), List.cons_lt_cons_self,
    Bytes.ofNatPadded_append_lt_iff (by omega) (by omega) (by omega), List.cons_lt_cons_self,
    Bytes.ofNatPadded_append_lt_iff (by omega) (by omega) (by omega), List.cons_lt_cons_self,
    Bytes.ofNatPadded_append_lt_iff (by omega) (by omega) (by omega)]
  simp only [List.lt_irrefl, and_false, or_false, Nat.add_lt_add_iff_right,
    Nat.add_right_cancel_iff, and_or_left, or_assoc, and_assoc]

/-! ## Instants of some years -/

/-- The instant at which a year begins. -/
def ofYear (year : Nat) : Instant := ⟨Calendar.Date.toDays ⟨year, 0, 1⟩ * 86400000000⟩

/-- An instant of the years from the first to the last one. -/
structure InYears (first last : Nat) (t : Instant) : Prop where
  /-- It is not before the first year. -/
  low : (ofYear first).micros ≤ t.micros
  /-- It is before the year after the last one. -/
  high : t.micros < (ofYear (last + 1)).micros

/-- The instants of these years are those of whole years that a clock can tell which counts
nanoseconds in a word of 64 bits. -/
theorem InYears.nanos_bounds (h : t.InYears 1678 2261) :
    -2 ^ 63 ≤ 1000 * t.micros ∧ 1000 * t.micros < 2 ^ 63 := by
  obtain ⟨hlow, hhigh⟩ := h
  have hfirst : (ofYear 1678).micros = -9214560000000000 := by decide
  have hlast : (ofYear (2261 + 1)).micros = 9214646400000000 := by decide
  omega

/-- Instants of these years can be told by the clock. -/
theorem InYears.dated (h : t.InYears 1678 2261) : t.Dated :=
  ⟨h.nanos_bounds.1, h.nanos_bounds.2⟩

/-- Each instant of the years 1678 to 2261 is told by its text, but for those of the last second
before 1970, which cannot be told, and of two such instants the earlier one has the smaller text.
A clock that counts nanoseconds in a word of 64 bits can tell them all. -/
theorem toText_tells_and_sorts (ht : t.InYears 1678 2261) (hu : u.InYears 1678 2261) :
    (¬ t.InLastSecond → ofText? t.toText = some t) ∧
      (t.InLastSecond → ofText? t.toText = none) ∧
      (t.micros < u.micros ↔ t.toText < u.toText) ∧
      -2 ^ 63 ≤ 1000 * t.micros ∧ 1000 * t.micros < 2 ^ 63 := by
  have hread := ofText?_toText ht.dated
  refine ⟨?_, ?_, (toText_lt_iff ht.dated hu.dated).symm, ht.nanos_bounds⟩
  · intro hnot
    rw [hread, if_neg hnot]
  · intro hsecond
    rw [hread, if_pos hsecond]

/-- A moment of a leap day is told, the last microsecond before 1970 is not, and their texts sort as
they do. -/
theorem toText_tells_and_sorts_leapDay :
    let t : Instant := ⟨-1⟩
    let u : Instant := ⟨951825600500000⟩
    t.InYears 1678 2261 ∧ u.InYears 1678 2261 ∧ u.toText = bytes "2000-02-29T12:00:00.500000Z" ∧
      ofText? t.toText = none ∧ ofText? u.toText = some u ∧ t.toText < u.toText := by
  intro t u
  have ht : t.InYears 1678 2261 := ⟨by decide, by decide⟩
  have hu : u.InYears 1678 2261 := ⟨by decide, by decide⟩
  obtain ⟨-, hsecond, hsort, -⟩ := toText_tells_and_sorts ht hu
  exact ⟨ht, hu, by decide +kernel, hsecond (by decide),
    (toText_tells_and_sorts hu ht).1 (by decide), hsort.mp (by decide)⟩

end SourceChunks.Instant
