import Mathlib.Data.List.Nodup
import SourceChunks.Chunk
import SourceChunks.Bytes.Order

/-!
# The order of positions

Chunks are listed by file and then by first line. This is a total order up to chunks at one
position, so a list whose chunks have increasing positions is the only way to sort its chunks.
-/

namespace SourceChunks.Chunk

/-- The order by file first and then by line, as a proposition. -/
theorem positionLe_iff {a b : Chunk} :
    positionLe a b = true ↔
      a.filePath < b.filePath ∨ (a.filePath = b.filePath ∧ a.startLine ≤ b.startLine) := by
  simp [positionLe]

/-- Positions are ordered transitively. -/
theorem positionLe_trans (a b c : Chunk) (hab : positionLe a b = true)
    (hbc : positionLe b c = true) : positionLe a c = true := by
  rw [positionLe_iff] at *
  rcases hab with hab | ⟨hab, hline⟩
  · rcases hbc with hbc | ⟨hbc, -⟩
    · exact Or.inl (List.lt_trans hab hbc)
    · exact Or.inl (hbc ▸ hab)
  · rcases hbc with hbc | ⟨hbc, hline'⟩
    · exact Or.inl (hab ▸ hbc)
    · exact Or.inr ⟨hab.trans hbc, Int.le_trans hline hline'⟩

/-- Any two positions can be compared. -/
theorem positionLe_total (a b : Chunk) : (positionLe a b || positionLe b a) = true := by
  rw [Bool.or_eq_true, positionLe_iff, positionLe_iff]
  rcases Std.lt_trichotomy a.filePath b.filePath with h | h | h
  · exact Or.inl (Or.inl h)
  · rcases Int.le_total a.startLine b.startLine with hline | hline
    · exact Or.inl (Or.inr ⟨h, hline⟩)
    · exact Or.inr (Or.inr ⟨h.symm, hline⟩)
  · exact Or.inr (Or.inl h)

/-- Chunks that stand before each other are at one position. -/
theorem eq_position_of_positionLe {a b : Chunk} (hab : positionLe a b = true)
    (hba : positionLe b a = true) : a.filePath = b.filePath ∧ a.startLine = b.startLine := by
  rw [positionLe_iff] at hab hba
  rcases hab with hab | ⟨hpath, hab⟩
  · rcases hba with hba | ⟨hpath, -⟩
    · exact absurd (List.lt_trans hab hba) (List.lt_irrefl _)
    · exact absurd (hpath ▸ hab) (List.lt_irrefl _)
  · rcases hba with hba | ⟨-, hba⟩
    · exact absurd (hpath ▸ hba) (List.lt_irrefl _)
    · exact ⟨hpath, Int.le_antisymm hab hba⟩

/-- Sorting rearranges. -/
theorem sortByPosition_perm (cs : List Chunk) : (sortByPosition cs).Perm cs :=
  List.mergeSort_perm cs positionLe

/-- The result of sorting is in order. -/
theorem pairwise_sortByPosition (cs : List Chunk) :
    (sortByPosition cs).Pairwise fun a b => positionLe a b = true :=
  List.pairwise_mergeSort positionLe_trans positionLe_total cs

/-- Whether a chunk begins at a line of a file. -/
def standsAt (filePath : Bytes) (line : Int) (c : Chunk) : Bool :=
  c.filePath == filePath && c.startLine == line

/-- Sorting keeps the order of the chunks at one position. -/
theorem filter_standsAt_sortByPosition (cs : List Chunk) (filePath : Bytes) (line : Int) :
    (sortByPosition cs).filter (standsAt filePath line) = cs.filter (standsAt filePath line) := by
  have hlevel : (cs.filter (standsAt filePath line)).Pairwise fun a b => positionLe a b = true := by
    refine List.pairwise_of_forall_mem_list ?_
    intro a ha b hb
    have ha : a.filePath = filePath ∧ a.startLine = line := by
      simpa [standsAt] using (List.mem_filter.mp ha).2
    have hb : b.filePath = filePath ∧ b.startLine = line := by
      simpa [standsAt] using (List.mem_filter.mp hb).2
    exact positionLe_iff.mpr (.inr ⟨ha.1.trans hb.1.symm, Int.le_of_eq (ha.2.trans hb.2.symm)⟩)
  have hsublist : (cs.filter (standsAt filePath line)).Sublist (sortByPosition cs) :=
    List.sublist_mergeSort positionLe_trans positionLe_total hlevel List.filter_sublist
  have hboth := hsublist.filter (standsAt filePath line)
  simp only [List.filter_filter, Bool.and_self] at hboth
  have hlength := ((sortByPosition_perm cs).filter (standsAt filePath line)).length_eq
  exact (hboth.eq_of_length hlength.symm).symm

/-- Where first lines increase, chunks that begin at one line are one chunk. -/
theorem eq_of_startLine_eq {cs : List Chunk}
    (hlines : cs.Pairwise fun a b => a.startLine < b.startLine) {a b : Chunk} (ha : a ∈ cs)
    (hb : b ∈ cs) (h : a.startLine = b.startLine) : a = b := by
  have hnodup : (cs.map startLine).Nodup :=
    List.pairwise_map.mpr (hlines.imp fun hlt => Int.ne_of_lt hlt)
  exact List.inj_on_of_nodup_map hnodup ha hb h

/-- A list of one file with increasing first lines is what sorting makes of any rearrangement. -/
theorem sortByPosition_eq_of_perm {cs sorted : List Chunk} {filePath : Bytes}
    (hpath : ∀ c ∈ sorted, c.filePath = filePath)
    (hlines : sorted.Pairwise fun a b => a.startLine < b.startLine) (hperm : cs.Perm sorted) :
    sortByPosition cs = sorted := by
  have hsorted : sorted.Pairwise fun a b => positionLe a b = true := by
    refine hlines.imp_of_mem fun ha hb hlt => positionLe_iff.mpr (Or.inr ⟨?_, Int.le_of_lt hlt⟩)
    rw [hpath _ ha, hpath _ hb]
  refine ((sortByPosition_perm cs).trans hperm).eq_of_pairwise ?_ (pairwise_sortByPosition cs)
    hsorted
  intro a b ha hb hab hba
  have ha := ((sortByPosition_perm cs).trans hperm).mem_iff.mp ha
  exact eq_of_startLine_eq hlines ha hb (eq_position_of_positionLe hab hba).2

end SourceChunks.Chunk
