import SourceChunks.Bytes
import SourceChunks.Calendar

/-!
# Instants and their texts

An instant is a number of microseconds since the beginning of 1970 in universal time. It is written
as a date and a time of day with six places of seconds, so the texts of instants sort as they do.
Reading is more lenient: fields may be short, the text may end after any field, and the fraction may
have any number of digits. Clocks count nanoseconds in a word of 64 bits, so a date before 1677 or
after 2262 is read as the one to which it wraps around, to the microsecond.
-/

namespace SourceChunks

/-- A moment in time. -/
structure Instant where
  /-- Microseconds since the beginning of 1970. -/
  micros : Int
  deriving DecidableEq, Repr, Inhabited

namespace Instant

/-- The instant of a clock that counts nanoseconds. -/
def ofNanos (n : Int) : Instant := ⟨n.tdiv 1000⟩

/-- The whole seconds of an instant and the microseconds beyond them. Division cuts off towards
zero, so before 1970 a second is taken back where a part of it is left over. -/
def split (t : Instant) : Int × Int :=
  let seconds := t.micros.tdiv 1000000
  let rest := t.micros.tmod 1000000
  if rest < 0 then (seconds - 1, rest + 1000000) else (seconds, rest)

/-- The text of an instant. -/
def toText (t : Instant) : Bytes :=
  let seconds := t.split.1
  let date := Calendar.Date.ofDays (seconds / 86400)
  let time := (seconds % 86400).toNat
  let two := Bytes.ofNatPadded 2
  Bytes.ofNatPadded 4 date.year ++ bytes "-" ++ two (date.month + 1) ++ bytes "-" ++ two date.day ++
    bytes "T" ++ two (time / 3600) ++ bytes ":" ++ two (time / 60 % 60) ++ bytes ":" ++
    two (time % 60) ++ bytes "." ++ Bytes.ofNatPadded 6 t.split.2.toNat ++ bytes "Z"

/-- A part of the text of an instant. -/
inductive Part where
  /-- A number of at most so many digits in a range. -/
  | number (width low high : Nat)
  /-- A number before which one byte of white space may stand. -/
  | spacedNumber (width low high : Nat)
  /-- A mark, in either case. -/
  | mark (b : UInt8)
  deriving DecidableEq, Repr

/-- The parts of the text of an instant up to the seconds: year, month, day, hour, minute, second. A
minute may have a leap second. -/
def parts : List Part :=
  [.number 4 0 9999, .mark 0x2D, .number 2 1 12, .mark 0x2D, .spacedNumber 2 1 31, .mark 0x54,
    .number 2 0 23, .mark 0x3A, .number 2 0 59, .mark 0x3A, .number 2 0 60]

/-- A number in a range. -/
def readNumber (width low high : Nat) (t : Bytes) : Option (Nat × Bytes) :=
  let digits := (t.take width).takeWhile Bytes.isDigit
  let value := Bytes.digitsValue digits
  if digits.isEmpty ∨ value < low ∨ high < value then none else some (value, t.drop digits.length)

/-- The numbers of a text that has the given parts, and what follows. The text may end after any
number, but not after a mark. -/
def readParts : List Part → Bytes → Option (List Nat × Bytes)
  | [], t => some ([], t)
  | .mark c :: rest, b :: t => if Bytes.lower b = Bytes.lower c then readParts rest t else none
  | .mark _ :: _, [] => none
  | .number width low high :: rest, t => next rest (readNumber width low high t)
  | .spacedNumber width low high :: rest, t =>
    let t := match t with
      | b :: after => if Bytes.isSpace b then after else b :: after
      | [] => []
    next rest (readNumber width low high t)
where
  /-- Go on after a number. -/
  next (rest : List Part) : Option (Nat × Bytes) → Option (List Nat × Bytes)
    | none => none
    | some (value, []) => some ([value], [])
    | some (value, t) => (readParts rest t).map fun (values, after) => (value :: values, after)

/-- The microseconds of a fraction, if one follows with at least one digit; more than six digits are
cut off. -/
def readFraction : Bytes → Option Nat
  | 0x2E :: t =>
    let digits := t.takeWhile Bytes.isDigit
    if digits.isEmpty then none
    else some (Bytes.digitsValue (digits.take 6) * Nat.pow 10 (6 - digits.length))
  | _ => some 0

/-- The instant that a text describes. Fields that are missing count as zero, so a missing day is
the last one of the month before. The last second before 1970 cannot be told from a failure. -/
def ofText? (t : Bytes) : Option Instant := do
  let (values, rest) ← readParts parts (t.dropWhile Bytes.isSpace)
  let field (i : Nat) : Nat := values.getD i 0
  let fraction ← readFraction rest
  let days := Calendar.Date.toDays ⟨field 0, field 1 - 1, field 2⟩
  let seconds := days * 86400 + (field 3 * 3600 + field 4 * 60 + field 5 : Nat)
  if seconds = -1 then none
  else some (ofNanos (((seconds * 1000000 + fraction) * 1000).bmod UInt64.size))

end Instant

end SourceChunks
