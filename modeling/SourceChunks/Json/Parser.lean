import SourceChunks.Bytes.Utf8
import SourceChunks.Json

/-!
# Reading documents

A document is read strictly: one value with white space around it and nothing else, except that a
byte order mark may come first. A zero byte is no end of the text and makes it no document. A whole
number that does not fit in 64 bits becomes a double, and a double too large to be finite is
refused. Of two members with one key the later one counts.

Each reader takes the text from some point on and answers what it read and the text after it.
-/

namespace SourceChunks.Json

/-- The text after white space. -/
def skipSpace (t : Bytes) : Bytes :=
  t.dropWhile fun b => b == 0x20 || b == 0x09 || b == 0x0A || b == 0x0D

/-! ## Strings -/

/-- One unit of the text between quotes. -/
inductive TextUnit where
  /-- A byte that stands for itself, or that a short escape stands for. -/
  | byte (b : UInt8)
  /-- A UTF-16 code unit written as four hexadecimal digits. -/
  | code (u : Nat)
  deriving DecidableEq, Repr

/-- The text up to the closing quote, with its escapes as they are written. -/
def readRaw : Bytes → Option (Bytes × Bytes)
  | [] => none
  | 0x22 :: rest => some ([], rest)
  | 0x5C :: b :: rest => (readRaw rest).map fun (raw, after) => (0x5C :: b :: raw, after)
  | b :: rest => (readRaw rest).map fun (raw, after) => (b :: raw, after)

/-- The byte that a backslash and one letter stand for. -/
def shortEscape? (b : UInt8) : Option UInt8 :=
  if b == 0x22 || b == 0x5C || b == 0x2F then some b
  else if b == 0x62 then some 0x08
  else if b == 0x66 then some 0x0C
  else if b == 0x6E then some 0x0A
  else if b == 0x72 then some 0x0D
  else if b == 0x74 then some 0x09
  else none

/-- The number that four hexadecimal digits stand for. -/
def hexCode? (a b c d : UInt8) : Option Nat := do
  return 4096 * (← Bytes.hexValue? a) + 256 * (← Bytes.hexValue? b) + 16 * (← Bytes.hexValue? c)
    + (← Bytes.hexValue? d)

/-- The units of a text between quotes. A control character must be escaped. -/
def textUnits? : Bytes → Option (List TextUnit)
  | [] => some []
  | 0x5C :: 0x75 :: a :: b :: c :: d :: rest => do
    let u ← hexCode? a b c d
    return .code u :: (← textUnits? rest)
  | 0x5C :: e :: rest => do
    let b ← shortEscape? e
    return .byte b :: (← textUnits? rest)
  | b :: rest => if b < 0x20 || b == 0x5C then none else (textUnits? rest).map (.byte b :: ·)

/-- The bytes of a list of units. The two halves of a surrogate pair make one scalar value, and
neither half may stand alone. -/
def assemble? : List TextUnit → Option Bytes
  | [] => some []
  | .byte b :: rest => (assemble? rest).map (b :: ·)
  | .code u :: .code v :: rest =>
    if 0xD800 ≤ u ∧ u < 0xDC00 then
      if 0xDC00 ≤ v ∧ v < 0xE000 then
        (assemble? rest).map
          (Bytes.encodeScalar (0x10000 + (u - 0xD800) * 1024 + (v - 0xDC00)) ++ ·)
      else none
    else if 0xDC00 ≤ u ∧ u < 0xE000 then none
    else (assemble? (.code v :: rest)).map (Bytes.encodeScalar u ++ ·)
  | .code u :: rest =>
    if 0xD800 ≤ u ∧ u < 0xE000 then none
    else (assemble? rest).map (Bytes.encodeScalar u ++ ·)

/-- A string, from just after its opening quote. -/
def readString (t : Bytes) : Option (Bytes × Bytes) := do
  let (raw, rest) ← readRaw t
  if Bytes.isUtf8 raw then return (← assemble? (← textUnits? raw), rest) else none

/-! ## Numbers -/

/-- The digits that a text starts with, at least one. -/
def readDigits (t : Bytes) : Option (Bytes × Bytes) :=
  let digits := t.takeWhile Bytes.isDigit
  if digits.isEmpty then none else some (digits, t.dropWhile Bytes.isDigit)

/-- The digits of a fraction with its point; none if there is no point. -/
def readFraction : Bytes → Option (Option Bytes × Bytes)
  | 0x2E :: rest => (readDigits rest).map fun (digits, after) => (some digits, after)
  | t => some (none, t)

/-- The sign that an exponent may have, and whether it is a minus. -/
def readSign : Bytes → Bool × Bytes
  | 0x2D :: rest => (true, rest)
  | 0x2B :: rest => (false, rest)
  | t => (false, t)

/-- An exponent with its letter; none if there is no letter. -/
def readExponent : Bytes → Option (Option Int × Bytes)
  | b :: rest =>
    if b == 0x65 || b == 0x45 then
      let (negative, rest) := readSign rest
      (readDigits rest).map fun (digits, after) =>
        let e : Int := Bytes.digitsValue digits
        (some (if negative then -e else e), after)
    else some (none, b :: rest)
  | [] => some (none, [])

/-- The value of a number from its parts. -/
def numberValue? (negative : Bool) (whole : Bytes) (fraction : Option Bytes)
    (exponent : Option Int) : Option Json :=
  let asDouble :=
    let digits := whole ++ fraction.getD []
    let x := Binary64.ofDecimal negative (Bytes.digitsValue digits)
      (exponent.getD 0 - (fraction.getD []).length)
    if x.isFinite then some (Json.double x) else none
  let n := Bytes.digitsValue whole
  match fraction, exponent with
  | none, none =>
    if negative then
      if 2 * n ≤ UInt64.size then some (.int (-n)) else asDouble
    else if n < UInt64.size then some (.int n) else asDouble
  | _, _ => asDouble

/-- A number from just after its sign. Its whole part has no leading zero unless it is zero. -/
def readMagnitude (negative : Bool) (t : Bytes) : Option (Json × Bytes) := do
  let (whole, t) ← readDigits t
  if whole.head? == some 0x30 && 1 < whole.length then none
  else
    let (fraction, t) ← readFraction t
    let (exponent, t) ← readExponent t
    return (← numberValue? negative whole fraction exponent, t)

/-- A number, which may have a minus before it. -/
def readNumber : Bytes → Option (Json × Bytes)
  | 0x2D :: rest => readMagnitude true rest
  | t => readMagnitude false t

/-! ## Values -/

mutual

/-- A value, after any white space. Each value, item and member uses up one unit of `fuel` and at
least one byte. -/
def readValue : Nat → Bytes → Option (Json × Bytes)
  | 0, _ => none
  | fuel + 1, t =>
    match skipSpace t with
    | 0x22 :: rest => (readString rest).map fun (text, after) => (.string text, after)
    | 0x5B :: rest =>
      match skipSpace rest with
      | 0x5D :: after => some (.array [], after)
      | _ => (readItems fuel rest).map fun (items, after) => (.array items, after)
    | 0x7B :: rest =>
      match skipSpace rest with
      | 0x7D :: after => some (.object [], after)
      | _ => (readMembers fuel rest).map fun (members, after) => (ofMembers members, after)
    | t =>
      match Bytes.stripPrefix? (bytes "true") t, Bytes.stripPrefix? (bytes "false") t,
        Bytes.stripPrefix? (bytes "null") t with
      | some after, _, _ => some (.bool true, after)
      | _, some after, _ => some (.bool false, after)
      | _, _, some after => some (.null, after)
      | none, none, none => readNumber t

/-- The items of an array that has some, with the closing bracket. -/
def readItems : Nat → Bytes → Option (List Json × Bytes)
  | 0, _ => none
  | fuel + 1, t => do
    let (v, t) ← readValue fuel t
    match skipSpace t with
    | 0x2C :: rest =>
      let (vs, after) ← readItems fuel rest
      return (v :: vs, after)
    | 0x5D :: after => return ([v], after)
    | _ => none

/-- The members of an object that has some, with the closing brace. -/
def readMembers : Nat → Bytes → Option (List (Bytes × Json) × Bytes)
  | 0, _ => none
  | fuel + 1, t => do
    match skipSpace t with
    | 0x22 :: rest =>
      let (k, t) ← readString rest
      match skipSpace t with
      | 0x3A :: rest =>
        let (v, t) ← readValue fuel rest
        match skipSpace t with
        | 0x2C :: rest =>
          let (ms, after) ← readMembers fuel rest
          return ((k, v) :: ms, after)
        | 0x7D :: after => return ([(k, v)], after)
        | _ => none
      | _ => none
    | _ => none

end

/-- The value of a document. -/
def parse? (t : Bytes) : Option Json := do
  let t := (Bytes.stripPrefix? [0xEF, 0xBB, 0xBF] t).getD t
  let (v, rest) ← readValue (2 * t.length + 2) t
  if (skipSpace rest).isEmpty then some v else none

end SourceChunks.Json
