/-!
# Byte strings

Texts, paths, keys and hashes are sequences of bytes: no part of this library reads them as
characters. Character classes are therefore the ASCII ones, and order is the order of bytes.
-/

namespace SourceChunks

/-- A byte string. Every text, path, key and hash of this library is one. -/
abbrev Bytes := List UInt8

/-- Equality is decided byte by byte and ends at the first difference, so that a look-up among many
keys stays cheap. -/
instance : DecidableEq Bytes := fun a b => decidable_of_iff ((a == b) = true) beq_iff_eq

/-- The bytes of a literal text. -/
def bytes (s : String) : Bytes := s.toUTF8.data.toList

namespace Bytes

/-- The line feed, which ends a line. -/
def newline : UInt8 := 0x0A

/-- The slash, which separates the names of a path. -/
def slash : UInt8 := 0x2F

/-- The backslash. -/
def backslash : UInt8 := 0x5C

/-- White space: the space and the five control characters from tab to carriage return. -/
def isSpace (b : UInt8) : Bool := b == 0x20 || (0x09 ≤ b && b ≤ 0x0D)

/-- A decimal digit. -/
def isDigit (b : UInt8) : Bool := 0x30 ≤ b && b ≤ 0x39

/-- The small letter of a capital letter; every other byte is its own. -/
def lower (b : UInt8) : UInt8 := if 0x41 ≤ b && b ≤ 0x5A then b + 0x20 else b

/-- A text in small letters. -/
def lowercase (t : Bytes) : Bytes := t.map lower

/-- A text that holds nothing but white space; the empty text is one. -/
def isBlank (t : Bytes) : Bool := t.all isSpace

/-- Whether `needle` occurs in a text as one contiguous run. -/
def hasInfix (needle : Bytes) : Bytes → Bool
  | [] => needle.isEmpty
  | b :: rest => needle.isPrefixOf (b :: rest) || hasInfix needle rest

/-- The rest of a text after a given beginning. -/
def stripPrefix? : Bytes → Bytes → Option Bytes
  | [], t => some t
  | _ :: _, [] => none
  | a :: start, b :: t => if a = b then stripPrefix? start t else none

/-- The text without the bytes that satisfy `drop` at either end. -/
def trim (drop : UInt8 → Bool) (t : Bytes) : Bytes :=
  ((t.dropWhile drop).reverse.dropWhile drop).reverse

/-- The decimal digits of a number, without leading zeros. -/
def ofNat (n : Nat) : Bytes :=
  if n < 10 then [0x30 + n.toUInt8] else ofNat (n / 10) ++ [0x30 + (n % 10).toUInt8]

/-- The decimal digits of an integer, after a minus sign if it is negative. -/
def ofInt : Int → Bytes
  | .ofNat n => ofNat n
  | .negSucc n => 0x2D :: ofNat (n + 1)

/-- The decimal digits of a number, with leading zeros up to a width. -/
def ofNatPadded (width n : Nat) : Bytes :=
  List.replicate (width - (ofNat n).length) 0x30 ++ ofNat n

/-- The number that a run of decimal digits stands for. -/
def digitsValue (digits : Bytes) : Nat :=
  digits.foldl (fun value d => 10 * value + (d.toNat - 0x30)) 0

/-- The hexadecimal digit of a number below sixteen, in small letters. -/
def hexDigit (n : UInt8) : UInt8 := if n < 10 then 0x30 + n else 0x57 + n

/-- Two hexadecimal digits for each byte. -/
def hex (t : Bytes) : Bytes :=
  t.flatMap fun (b : UInt8) => [hexDigit (b >>> 4), hexDigit (b &&& 0x0F)]

/-- The value of a hexadecimal digit in either case. -/
def hexValue? (b : UInt8) : Option Nat :=
  if isDigit b then some (b.toNat - 0x30)
  else if 0x61 ≤ b && b ≤ 0x66 then some (b.toNat - 0x57)
  else if 0x41 ≤ b && b ≤ 0x46 then some (b.toNat - 0x37)
  else none

/-- The four bytes of a word, the most significant one first. -/
def ofWord (w : UInt32) : Bytes :=
  [(w >>> 24).toUInt8, (w >>> 16).toUInt8, (w >>> 8).toUInt8, w.toUInt8]

end Bytes

end SourceChunks
