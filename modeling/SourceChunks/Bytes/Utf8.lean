import SourceChunks.Bytes

/-!
# Well-formed UTF-8

A document may hold only texts that are sequences of encoded scalar values: no stray or missing
continuation byte, no longer form than needed, no surrogate, nothing past the last scalar value.
All of that is decided by the number of continuation bytes that are owed and by the range that the
next one must lie in.
-/

namespace SourceChunks.Bytes

/-- What the rest of a text must start with. -/
structure Owed where
  /-- The number of continuation bytes still missing from the current scalar value. -/
  count : Nat
  /-- The least value of the next one. -/
  low : UInt8
  /-- The greatest value of the next one. -/
  high : UInt8
  deriving DecidableEq, Repr

/-- What is owed after the first byte of a scalar value, if one can start with it. -/
def Owed.after? (b : UInt8) : Option Owed :=
  if b ≤ 0x7F then some ⟨0, 0x80, 0xBF⟩
  else if b < 0xC2 then none
  else if b ≤ 0xDF then some ⟨1, 0x80, 0xBF⟩
  else if b == 0xE0 then some ⟨2, 0xA0, 0xBF⟩
  else if b == 0xED then some ⟨2, 0x80, 0x9F⟩
  else if b ≤ 0xEF then some ⟨2, 0x80, 0xBF⟩
  else if b == 0xF0 then some ⟨3, 0x90, 0xBF⟩
  else if b ≤ 0xF3 then some ⟨3, 0x80, 0xBF⟩
  else if b == 0xF4 then some ⟨3, 0x80, 0x8F⟩
  else none

/-- What is owed after one more byte. -/
def Owed.step? (o : Owed) (b : UInt8) : Option Owed :=
  if o.count = 0 then after? b
  else if o.low ≤ b ∧ b ≤ o.high then some ⟨o.count - 1, 0x80, 0xBF⟩
  else none

/-- What is owed after a text. -/
def Owed.run? (o : Owed) (t : Bytes) : Option Owed := t.foldlM step? o

/-- Whether a text is well-formed UTF-8. -/
def isUtf8 (t : Bytes) : Bool := (Owed.run? ⟨0, 0x80, 0xBF⟩ t).any fun o => o.count == 0

/-- The decoder reads a text in pieces: the second piece starts from the state that the first one
leaves. -/
theorem Owed.run?_append (o : Owed) (s t : Bytes) :
    o.run? (s ++ t) = (o.run? s).bind fun o' => o'.run? t := by
  simp [run?, List.foldlM_append]

/-- The bytes of a Unicode scalar value given by its code point. -/
def encodeScalar (c : Nat) : Bytes :=
  if c < 0x80 then [c.toUInt8]
  else if c < 0x800 then [(0xC0 + c / 64).toUInt8, (0x80 + c % 64).toUInt8]
  else if c < 0x10000 then
    [(0xE0 + c / 4096).toUInt8, (0x80 + c / 64 % 64).toUInt8, (0x80 + c % 64).toUInt8]
  else
    [(0xF0 + c / 262144).toUInt8, (0x80 + c / 4096 % 64).toUInt8, (0x80 + c / 64 % 64).toUInt8,
      (0x80 + c % 64).toUInt8]

end SourceChunks.Bytes
