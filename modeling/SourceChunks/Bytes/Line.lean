import SourceChunks.Bytes

/-!
# Lines

A text is cut into lines at its line feeds. A line feed ends a line, so a text that ends with one
has no further empty line after it, and the empty text has no lines.
-/

namespace SourceChunks.Bytes

/-- The pieces of a text that a byte ends. What comes after the last such byte is a piece too,
unless it is empty. -/
def pieces (stop : UInt8) : Bytes → List Bytes
  | [] => []
  | b :: rest =>
    if b = stop then [] :: pieces stop rest
    else match pieces stop rest with
      | [] => [[b]]
      | piece :: more => (b :: piece) :: more

/-- The lines of a text, without their line feeds. -/
def lines (t : Bytes) : List Bytes := pieces newline t

/-- Lines joined by line feeds, with none after the last line. -/
def unlines (ls : List Bytes) : Bytes := [newline].intercalate ls

/-- Every byte is part of a piece or ends one, so only the empty text has no pieces. -/
theorem pieces_eq_nil_iff {stop : UInt8} {t : Bytes} : pieces stop t = [] ↔ t = [] := by
  cases t with
  | nil => simp [pieces]
  | cons b rest =>
    simp only [pieces, reduceCtorEq, iff_false]
    split
    · simp
    · split <;> simp

/-- Where lines begin in a text if the first one begins at a given place and each one is followed by
its line feed. -/
def offsets (start : Nat) : List Bytes → List Nat
  | [] => []
  | line :: rest => start :: offsets (start + line.length + 1) rest

end SourceChunks.Bytes
