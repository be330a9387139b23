import SourceChunks.Binary64.Shortest
import SourceChunks.Bytes.Utf8
import SourceChunks.Json

/-!
# Writing documents

A document is written on one line, or with each item and member on a line of its own. Members come
by increasing key. A text that is not well-formed UTF-8 cannot be written, so writing may fail.
There is no number for a double that is not finite: it is written as `null`.
-/

namespace SourceChunks.Json

/-- How doubles are laid out. -/
structure NumberFormat where
  /-- The least exponent of a power of ten above the number that is written positionally. -/
  leastPoint : Int
  /-- The greatest one. -/
  greatestPoint : Int
  /-- The least number of digits of a written exponent. -/
  exponentWidth : Nat

/-- From 0.0001 up to below 10 ^ 15 a double is written positionally, else with an exponent of at
least two digits. -/
def numberFormat : NumberFormat := ⟨-3, 15, 2⟩

/-- The text of a finite double: its shortest digits, always with a point or an exponent. -/
def doubleText (x : Binary64) : Bytes :=
  let sign := if x.isNegative then bytes "-" else []
  if x.isZero then sign ++ bytes "0.0"
  else
    let d := x.shortest
    let digits := Bytes.ofNat d.digits
    let point := d.exponent + digits.length
    let zeros (n : Int) := List.replicate n.toNat 0x30
    sign ++
      if numberFormat.leastPoint ≤ point ∧ point ≤ numberFormat.greatestPoint then
        if digits.length ≤ point then digits ++ zeros (point - digits.length) ++ bytes ".0"
        else if 0 < point then digits.take point.toNat ++ bytes "." ++ digits.drop point.toNat
        else bytes "0." ++ zeros (-point) ++ digits
      else
        let e := point - 1
        digits.take 1 ++ (if digits.length = 1 then [] else bytes "." ++ digits.drop 1) ++
          bytes "e" ++ (if e < 0 then bytes "-" else bytes "+") ++
          Bytes.ofNatPadded numberFormat.exponentWidth e.natAbs

/-- The written form of one byte of a text. -/
def escapeByte (b : UInt8) : Bytes :=
  if b == 0x22 then bytes "\\\""
  else if b == 0x5C then bytes "\\\\"
  else if b == 0x08 then bytes "\\b"
  else if b == 0x0C then bytes "\\f"
  else if b == 0x0A then bytes "\\n"
  else if b == 0x0D then bytes "\\r"
  else if b == 0x09 then bytes "\\t"
  else if b < 0x20 then bytes "\\u00" ++ Bytes.hex [b]
  else [b]

/-- A text between quotes, in front of what follows it. -/
def quote? (t tail : Bytes) : Option Bytes :=
  if Bytes.isUtf8 t then some (bytes "\"" ++ (t.flatMap escapeByte ++ (bytes "\"" ++ tail)))
  else none

/-- What stands between the parts of a document. -/
structure Layout where
  /-- The width of one level of indentation; none to write all on one line. -/
  indent : Option Nat

/-- A line break and the indentation of a level, or nothing on one line. -/
def Layout.lineBreak (l : Layout) (level : Nat) : Bytes :=
  match l.indent with
  | none => []
  | some width => Bytes.newline :: List.replicate (width * level) 0x20

/-- What stands between a key and its value. -/
def Layout.colon (l : Layout) : Bytes := if l.indent.isSome then bytes ": " else bytes ":"

mutual

/-- A value as it stands at a level of nesting, in front of what follows it. The text is built from
its end, so that what is inside a value is not copied again for the value around it. -/
def write? (l : Layout) (level : Nat) (v : Json) (tail : Bytes) : Option Bytes :=
  match v with
  | .null => some (bytes "null" ++ tail)
  | .bool b => some (if b then bytes "true" ++ tail else bytes "false" ++ tail)
  | .int i => some (Bytes.ofInt i ++ tail)
  | .double x => some ((if x.isFinite then doubleText x else bytes "null") ++ tail)
  | .string t => quote? t tail
  | .array [] => some (bytes "[]" ++ tail)
  | .array (v :: vs) => do
    let rest ← writeItems? l (level + 1) vs (l.lineBreak level ++ (bytes "]" ++ tail))
    let items ← write? l (level + 1) v rest
    return bytes "[" ++ (l.lineBreak (level + 1) ++ items)
  | .object [] => some (bytes "\x7b\x7d" ++ tail)
  | .object ((k, v) :: ms) => do
    let rest ← writeMembers? l (level + 1) ms (l.lineBreak level ++ (bytes "\x7d" ++ tail))
    let value ← write? l (level + 1) v rest
    let members ← quote? k (l.colon ++ value)
    return bytes "\x7b" ++ (l.lineBreak (level + 1) ++ members)

/-- The items after the first one, each with the comma before it. -/
def writeItems? (l : Layout) (level : Nat) (vs : List Json) (tail : Bytes) : Option Bytes :=
  match vs with
  | [] => some tail
  | v :: vs => do
    let rest ← writeItems? l level vs tail
    let items ← write? l level v rest
    return bytes "," ++ (l.lineBreak level ++ items)

/-- The members after the first one, each with the comma before it. -/
def writeMembers? (l : Layout) (level : Nat) (ms : List (Bytes × Json)) (tail : Bytes) :
    Option Bytes :=
  match ms with
  | [] => some tail
  | (k, v) :: ms => do
    let rest ← writeMembers? l level ms tail
    let value ← write? l level v rest
    let members ← quote? k (l.colon ++ value)
    return bytes "," ++ (l.lineBreak level ++ members)

end

/-- A document on one line. -/
def compact? (v : Json) : Option Bytes := write? ⟨none⟩ 0 v []

/-- A document with one line for each item and member, indented by `width` at each level. -/
def pretty? (width : Nat) (v : Json) : Option Bytes := write? ⟨some width⟩ 0 v []

end SourceChunks.Json
