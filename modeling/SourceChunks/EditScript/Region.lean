import SourceChunks.EditScript

/-!
# Changed regions

The regions of an old text that an edit script touches, as ranges of its lines. An insertion deletes
no line, so its region is the line in front of which it inserts.
-/

namespace SourceChunks

/-- A range of lines, counted from one, with both ends in it. -/
structure LineRange where
  /-- The first line. -/
  first : Int
  /-- The last line. -/
  last : Int
  deriving DecidableEq, Repr

namespace LineRange

/-- The range moved down by a number of lines. -/
def shift (r : LineRange) (n : Int) : LineRange := ⟨r.first + n, r.last + n⟩

/-- The lines of a range. -/
def lines (r : LineRange) : List Int :=
  (List.range (r.last + 1 - r.first).toNat).map fun (i : Nat) => r.first + i

/-- The lines of a range are those from its first to its last, both included. -/
theorem mem_lines {r : LineRange} {n : Int} : n ∈ r.lines ↔ r.first ≤ n ∧ n ≤ r.last := by
  simp only [lines, List.mem_map, List.mem_range]
  constructor
  · rintro ⟨i, hi, rfl⟩
    omega
  · rintro ⟨hfirst, hlast⟩
    exact ⟨(n - r.first).toNat, by omega, by omega⟩

end LineRange

/-- The regions of the old text that an edit script touches. -/
def EditScript.regions (ops : List LineOp) : List LineRange :=
  (ops.filter fun op => op.kind ≠ .equal).map fun op =>
    let first : Int := op.oldBegin + 1
    ⟨first, max op.oldEnd first⟩

/-- The regions in which an old text differs from a new one. -/
def changedRegions (old new : Bytes) : List LineRange :=
  EditScript.regions (EditScript.ofTexts old new)

/-- A list without the elements that equal the one before them. -/
def dropRepeats : List Int → List Int
  | [] => []
  | [a] => [a]
  | a :: b :: rest => if a = b then dropRepeats (b :: rest) else a :: dropRepeats (b :: rest)

/-- The lines in some region, each once, in increasing order. -/
def expandRegions (regions : List LineRange) : List Int :=
  dropRepeats ((regions.flatMap LineRange.lines).mergeSort fun a b => a ≤ b)

end SourceChunks
