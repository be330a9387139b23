import SourceChunks.Proofs.Similarity.Edits

/-!
# The distance row by row

Each row of the computation has the fewest edits between every beginning of one list and a beginning
of the other one, which grows by one element from row to row. The last entry of the last row is
therefore the number for both lists in full, whichever of them goes along the rows.
-/

namespace SourceChunks.EditDistance

variable {α : Type} [DecidableEq α]

/-- The fewest edits between `column` and `done` with each beginning of `row` added to it. Both
`done` and `column` are given backwards, so that an element is added at the front. -/
def rowOfEdits (done column : List α) : (row : List α) → List Nat
  | [] => [fewestEdits done column]
  | r :: row => fewestEdits done column :: rowOfEdits (r :: done) column row

/-- Before the first element of the other list every element of the row is an edit. -/
theorem rowOfEdits_nil (done row : List α) :
    rowOfEdits done [] row = List.range' done.length (row.length + 1) := by
  induction row generalizing done with
  | nil => simp [rowOfEdits]
  | cons r row ih =>
    rw [rowOfEdits, ih, fewestEdits_nil_right, List.length_cons, List.length_cons,
      List.range'_succ (n := row.length + 1)]

/-- The rest of a row is computed from the entry to the left and from the row above. -/
theorem extendRow_rowOfEdits (c : α) (done column row : List α) :
    fewestEdits done (c :: column) ::
        extendRow c (fewestEdits done (c :: column)) row (rowOfEdits done column row) =
      rowOfEdits done (c :: column) row := by
  induction row generalizing done with
  | nil => simp [rowOfEdits, extendRow]
  | cons r row ih =>
    have hhere : min (min (fewestEdits (r :: done) column + 1) (fewestEdits done (c :: column) + 1))
        (fewestEdits done column + if r = c then 0 else 1) =
        fewestEdits (r :: done) (c :: column) := by
      rw [fewestEdits_cons_cons, Nat.min_comm (fewestEdits done (c :: column) + 1)]
    -- The entry above and the rest of the row above are the row of one more element.
    obtain ⟨rest, hrest⟩ : ∃ rest, rowOfEdits (r :: done) column row =
        fewestEdits (r :: done) column :: rest := by
      cases row <;> exact ⟨_, rfl⟩
    have ih := ih (r :: done)
    rw [hrest] at ih
    rw [rowOfEdits, rowOfEdits, hrest, extendRow, hhere, ih]

/-- The program's next row is that of one more element of the column. -/
theorem nextRow_rowOfEdits (c : α) (column row : List α) :
    nextRow row (rowOfEdits [] column row) c = rowOfEdits [] (c :: column) row := by
  have hleft : (rowOfEdits [] column row).headD 0 + 1 = fewestEdits [] (c :: column) := by
    cases row <;> simp [rowOfEdits]
  rw [nextRow, hleft]
  exact extendRow_rowOfEdits c [] column row

/-- The rows of all elements end with that of the whole column. -/
theorem foldl_nextRow (row rest column : List α) :
    rest.foldl (nextRow row) (rowOfEdits [] column row) =
      rowOfEdits [] (rest.reverse ++ column) row := by
  induction rest generalizing column with
  | nil => rfl
  | cons c rest ih =>
    rw [List.foldl_cons, nextRow_rowOfEdits, ih, List.reverse_cons, List.append_assoc,
      List.singleton_append]

/-- The last row has the fewest edits between each beginning of one list and the other list. -/
theorem lastRow_eq (row column : List α) :
    lastRow row column = rowOfEdits [] column.reverse row := by
  have hstart : List.range (row.length + 1) = rowOfEdits [] [] row := by
    rw [rowOfEdits_nil, List.length_nil, List.range_eq_range']
  rw [lastRow, hstart, foldl_nextRow, List.append_nil]

/-- The last place of a row tells the edits of the whole row. -/
theorem getLastD_rowOfEdits (done column row : List α) :
    (rowOfEdits done column row).getLastD 0 = fewestEdits (row.reverse ++ done) column := by
  induction row generalizing done with
  | nil => rfl
  | cons r row ih =>
    have hne : rowOfEdits (r :: done) column row ≠ [] := by
      cases row <;> exact List.cons_ne_nil _ _
    rw [rowOfEdits, List.getLastD_cons, List.reverse_cons, List.append_assoc, List.singleton_append,
      ← ih, List.getLastD_eq_getLast?, List.getLastD_eq_getLast?, List.getLast?_eq_some_getLast hne]
    rfl

/-- The rows end with the fewest edits between both lists. -/
theorem getLastD_lastRow (row column : List α) :
    (lastRow row column).getLastD 0 = fewestEdits row column := by
  rw [lastRow_eq, getLastD_rowOfEdits, List.append_nil, fewestEdits_reverse]

/-- The distance is the fewest single edits that turn one list into the other. -/
theorem distance_eq_fewestEdits (a b : List α) : distance a b = fewestEdits a b := by
  simp only [distance]
  split
  · exact getLastD_lastRow ..
  · rw [fewestEdits_comm]
    exact getLastD_lastRow ..

example : distance [1, 2, 3, 4] [1, 3, 5, 4] = 2 := by decide

end SourceChunks.EditDistance
