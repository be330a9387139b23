import SourceChunks.Bytes
import SourceChunks.Scalar

/-!
# Similarity of texts

Two texts are as similar as their edit distance is small beside the longer of them. The distance is
the least number of bytes that have to be inserted, deleted or replaced; it is computed row by row,
each row from the one before.
-/

namespace SourceChunks

namespace EditDistance

variable {α : Type} [DecidableEq α]

/-- The rest of a row of distances. `left` is the distance that the row has reached, `row` the
elements along it, and `above` the row before from the place of `left` on; `c` is the element that
this row adds. -/
def extendRow (c : α) : (left : Nat) → (row : List α) → (above : List Nat) → List Nat
  | left, r :: row, diagonal :: up :: above =>
    let here := min (min (up + 1) (left + 1)) (diagonal + if r = c then 0 else 1)
    here :: extendRow c here row (up :: above)
  | _, _, _ => []

/-- The row of distances after one more element of the other side. -/
def nextRow (row : List α) (above : List Nat) (c : α) : List Nat :=
  let left := above.headD 0 + 1
  left :: extendRow c left row above

/-- The distances of each beginning of `row` from a whole list. -/
def lastRow (row column : List α) : List Nat :=
  column.foldl (nextRow row) (List.range (row.length + 1))

/-- The least number of insertions, deletions and replacements that turn one list into another. The
shorter one goes along the rows. -/
def distance (a b : List α) : Nat :=
  let (row, column) := if a.length < b.length then (a, b) else (b, a)
  (lastRow row column).getLastD 0

end EditDistance

/-- The edit distance of two texts. -/
def Bytes.editDistance (a b : Bytes) : Nat := EditDistance.distance a b

/-- How similar two texts are, from zero to one: one less the edit distance over the length of the
longer text. The lengths alone bound the distance from below, and where even that bound leaves the
similarity under `floor` the answer is zero. -/
def similarity {α : Type} [Scalar α] (a b : Bytes) (floor : α) : α :=
  let longest := max a.length b.length
  if longest = 0 ∨ a = b then Scalar.ofNat 1
  else
    let gap := longest - min a.length b.length
    if Scalar.lt (Scalar.complement gap longest) floor then Scalar.ofNat 0
    else Scalar.complement (Bytes.editDistance a b) longest

end SourceChunks
