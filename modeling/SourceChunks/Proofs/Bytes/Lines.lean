import SourceChunks.Proofs.Chunk.Cutting
import SourceChunks.Proofs.Path

/-!
# Lines of joined texts

After a line feed the lines of a text begin anew, so a text that ends with one has its own lines
before those of what follows, and it is what its lines make up with a line feed each. Lines that are
joined are the lines of the text that they make, if the last one is not empty.
-/

namespace SourceChunks.Bytes

/-- A text is empty or ends with a line feed. -/
def EndsLine (t : Bytes) : Prop := t = [] ∨ t.getLast? = some newline

/-- A text that ends a line is empty or has a newline at its end. -/
theorem EndsLine.eq_nil_or_exists {t : Bytes} (h : t.EndsLine) :
    t = [] ∨ ∃ s, t = s ++ [newline] := h.imp_right List.getLast?_eq_some_iff.mp

/-- Texts are joined line by line where the first one ends a line. -/
theorem EndsLine.lines_append {t : Bytes} (h : t.EndsLine) (t' : Bytes) :
    lines (t ++ t') = lines t ++ lines t' := by
  rcases h.eq_nil_or_exists with rfl | ⟨s, rfl⟩
  · rfl
  · rw [List.append_assoc]
    exact Path.pieces_append_cons newline s t'

/-- A text that ends with a line feed lacks none. -/
theorem EndsLine.terminated_lines {t : Bytes} (h : t.EndsLine) : terminated (lines t) = t := by
  rcases h.eq_nil_or_exists with rfl | ⟨s, rfl⟩
  · rfl
  induction s with
  | nil => rfl
  | cons b s ih =>
    have ih := ih (.inr (List.getLast?_concat ..))
    rw [lines] at ih
    rw [List.cons_append, lines, pieces]
    split
    · next hb =>
      rw [hb]
      exact congrArg (newline :: ·) ih
    · split
      · next hnone =>
        rw [hnone] at ih
        simp [terminated] at ih
      · next piece more hpieces =>
        rw [hpieces] at ih
        exact congrArg (b :: ·) ih

/-- A line without line feeds is the one that its line feed ends. -/
theorem pieces_concat_of_notMem {stop : UInt8} {t : Bytes} (h : stop ∉ t) :
    pieces stop (t ++ [stop]) = [t] := by
  induction t with
  | nil => simp [pieces]
  | cons b t ih =>
    rw [List.mem_cons, not_or] at h
    rw [List.cons_append, pieces, if_neg (Ne.symm h.1), ih h.2]

/-- The lines of joined lines are these lines. -/
theorem lines_unlines {ls : List Bytes} (hlines : ∀ line ∈ ls, newline ∉ line) (hne : ls ≠ [])
    (hlast : ls.getLast hne ≠ []) : lines (unlines ls) = ls := by
  induction ls with
  | nil => exact absurd rfl hne
  | cons line rest ih =>
    obtain ⟨hline, hrest⟩ := List.forall_mem_cons.mp hlines
    cases rest with
    | nil =>
      rw [unlines, List.intercalate_singleton]
      exact Path.pieces_of_notMem hline hlast
    | cons line' rest =>
      have ih := ih hrest (List.cons_ne_nil _ _) (by rwa [List.getLast_cons] at hlast)
      rw [lines, unlines] at ih
      rw [lines, unlines, List.intercalate_cons_cons, List.append_assoc, List.singleton_append,
        Path.pieces_append_cons, pieces_concat_of_notMem hline, ih, List.singleton_append]

end SourceChunks.Bytes
