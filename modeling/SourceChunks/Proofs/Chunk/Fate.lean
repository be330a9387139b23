import Mathlib.Data.Int.Interval
import SourceChunks.ChunkDiff
import SourceChunks.Proofs.EditScript.Regions

/-!
# What an edit does to a chunk

The lines that an edit script touches tell what becomes of a chunk of the old text. If none of them
is in the chunk, all lines of the chunk stand in the new text as they stood in the old one, with
nothing between them. A chunk of which no line is kept counts as deleted, and one that counts as
modified has lines that are touched and lines that are not.
-/

namespace SourceChunks

namespace Chunk

variable {c : Chunk} {changed : List Int}

/-- A line of the text belongs to a chunk. -/
def HasLine (c : Chunk) (n : Int) : Prop := c.startLine ≤ n ∧ n ≤ c.endLine

/-- The lines of a chunk that change are counted by the set of its lines. -/
theorem length_filter_eq_card (hchanged : changed.Pairwise (· < ·)) {lines : Finset Int}
    (hlines : ∀ n, n ∈ lines ↔ c.HasLine n) :
    (changed.filter fun n => c.startLine ≤ n ∧ n ≤ c.endLine).length =
      (lines.filter (· ∈ changed)).card := by
  have hnodup := (hchanged.imp fun h => Int.ne_of_lt h).filter
    fun n => c.startLine ≤ n ∧ n ≤ c.endLine
  rw [← List.toFinset_card_of_nodup hnodup]
  congr 1
  ext n
  simp only [List.mem_toFinset, List.mem_filter, decide_eq_true_eq, Finset.mem_filter, hlines]
  exact and_comm

/-- What becomes of a chunk that has lines depends on whether none or all of them change. -/
theorem fate_cases (hchanged : changed.Pairwise (· < ·)) (hle : c.startLine ≤ c.endLine) :
    (c.fate changed = none ∧ ∀ n, c.HasLine n → n ∉ changed) ∨
    (c.fate changed = some .deleted ∧ ∀ n, c.HasLine n → n ∈ changed) ∨
    (c.fate changed = some .modified ∧ (∃ n, c.HasLine n ∧ n ∈ changed) ∧
      ∃ n, c.HasLine n ∧ n ∉ changed) := by
  have hcard : ((Finset.Icc c.startLine c.endLine).card : Int) = c.endLine - c.startLine + 1 := by
    rw [Int.card_Icc]
    omega
  have hmem (n : Int) : n ∈ Finset.Icc c.startLine c.endLine ↔ c.HasLine n := Finset.mem_Icc
  simp only [fate, if_neg (Int.not_lt.mpr hle), length_filter_eq_card hchanged hmem]
  by_cases hnone : ((Finset.Icc c.startLine c.endLine).filter (· ∈ changed)).card = 0
  · left
    rw [if_pos hnone]
    exact ⟨rfl, fun n hn => Finset.card_filter_eq_zero_iff.mp hnone n ((hmem n).mpr hn)⟩
  · have hsome : ∃ n, c.HasLine n ∧ n ∈ changed := by
      obtain ⟨n, hn⟩ := Finset.card_pos.mp (Nat.pos_of_ne_zero hnone)
      obtain ⟨hn, hchange⟩ := Finset.mem_filter.mp hn
      exact ⟨n, (hmem n).mp hn, hchange⟩
    right
    simp only [if_neg hnone, ← hcard, Int.natCast_inj, Finset.card_filter_eq_iff]
    by_cases hall : ∀ n ∈ Finset.Icc c.startLine c.endLine, n ∈ changed
    · left
      rw [if_pos hall]
      exact ⟨rfl, fun n hn => hall n ((hmem n).mpr hn)⟩
    · right
      rw [if_neg hall]
      obtain ⟨n, hn⟩ := not_forall.mp hall
      obtain ⟨hn, hkept⟩ := Classical.not_imp.mp hn
      exact ⟨rfl, hsome, n, (hmem n).mp hn, hkept⟩

end Chunk

/-! ## Lines of texts -/

/-- The line of a text that has a number, counted from one. -/
def Bytes.line? (t : Bytes) (n : Int) : Option Bytes :=
  if 1 ≤ n then (Bytes.lines t)[(n - 1).toNat]? else none

/-- Lines that one operation keeps stand in the new text at one distance from where they were. -/
theorem LineOp.Fits.line?_add {old new : Bytes} {op : LineOp}
    (h : op.Fits (Bytes.lines old) (Bytes.lines new)) (hkind : op.kind = .equal) {n : Int}
    (hbegin : op.oldBegin < n) (hend : n ≤ op.oldEnd) :
    ∃ line, old.line? n = some line ∧
      new.line? (n + (op.newBegin - op.oldBegin)) = some line := by
  obtain ⟨-, hline⟩ := h.equal hkind
  obtain ⟨line, hold, hnew⟩ := hline (n - 1 - op.oldBegin).toNat (by omega)
  refine ⟨line, ?_, ?_⟩
  · rw [Bytes.line?, if_pos (by omega), ← hold]
    congr 1
    omega
  · rw [Bytes.line?, if_pos (by omega), ← hnew]
    congr 1
    omega

/-- A chunk of a text that an edit leaves alone stands in the new text line by line at one distance
from where it was. A chunk of which no line is kept counts as deleted, and one that counts as
modified has a line in the changed regions and a line that is in none. -/
theorem Chunk.fate_changedRegions {old new : Bytes} {c : Chunk} (hfirst : 1 ≤ c.startLine)
    (hle : c.startLine ≤ c.endLine) (hlast : c.endLine ≤ (Bytes.lines old).length) :
    (c.fate (expandRegions (changedRegions old new)) = none → ∃ k : Int, ∀ n, c.HasLine n →
      ∃ line, old.line? n = some line ∧ new.line? (n + k) = some line) ∧
    ((∀ op ∈ EditScript.ofTexts old new, op.kind = .equal → ∀ n, c.HasLine n →
        ¬ (op.oldBegin < n ∧ n ≤ op.oldEnd)) →
      c.fate (expandRegions (changedRegions old new)) = some .deleted) ∧
    (c.fate (expandRegions (changedRegions old new)) = some .modified →
      (∃ n, c.HasLine n ∧ ∃ r ∈ changedRegions old new, r.first ≤ n ∧ n ≤ r.last) ∧
      ∃ n, c.HasLine n ∧ ∀ r ∈ changedRegions old new, ¬ (r.first ≤ n ∧ n ≤ r.last)) := by
  have hscript : EditScript.IsScript (Bytes.lines old) (Bytes.lines new)
      (EditScript.ofTexts old new) := EditScript.isScript_ofLines _ _
  have hcases := c.fate_cases (pairwise_lt_expandRegions (changedRegions old new)) hle
  refine ⟨fun hfate => ?_, fun hkept => ?_, fun hfate => ?_⟩
  · have huntouched : ∀ n, c.HasLine n → n ∉ expandRegions (changedRegions old new) := by
      rcases hcases with ⟨-, hnone⟩ | ⟨hother, -⟩ | ⟨hother, -⟩
      · exact hnone
      · exact absurd (hfate.symm.trans hother) nofun
      · exact absurd (hfate.symm.trans hother) nofun
    obtain ⟨op, hop, hkind, hbegin, hend⟩ := hscript.exists_keeps hfirst hle hlast
      fun n hn hn' => huntouched n ⟨hn, hn'⟩
    refine ⟨op.newBegin - op.oldBegin, fun n hn => ?_⟩
    obtain ⟨hn, hn'⟩ := hn
    exact (hscript.fits op hop).line?_add hkind (by omega) (by omega)
  · have htouched : ∀ n, c.HasLine n → n ∈ expandRegions (changedRegions old new) := by
      intro n hn
      have hbounds : c.startLine ≤ n ∧ n ≤ c.endLine := hn
      exact hscript.mem_expandRegions_of_not_kept (by omega) (by omega)
        fun op hop hkind => hkept op hop hkind n hn
    have hline : c.HasLine c.startLine := ⟨le_rfl, hle⟩
    rcases hcases with ⟨-, hnone⟩ | ⟨hdeleted, -⟩ | ⟨-, -, n, hn, hother⟩
    · exact absurd (htouched _ hline) (hnone _ hline)
    · exact hdeleted
    · exact absurd (htouched n hn) hother
  · rcases hcases with ⟨hother, -⟩ | ⟨hother, -⟩ | ⟨-, ⟨n, hn, htouched⟩, m, hm, huntouched⟩
    · exact absurd (hfate.symm.trans hother) nofun
    · exact absurd (hfate.symm.trans hother) nofun
    · refine ⟨⟨n, hn, mem_expandRegions.mp htouched⟩, m, hm, fun r hr hmem => ?_⟩
      exact huntouched (mem_expandRegions.mpr ⟨r, hr, hmem⟩)

/-- A line that is put in front of a text moves the chunks after the line it lands on. -/
theorem Chunk.fate_changedRegions_prepend :
    ({ (default : Chunk) with startLine := 2, endLine := 3 } : Chunk).fate
        (expandRegions (changedRegions (bytes "a\nb\nc") (bytes "x\na\nb\nc"))) = none ∧
      ∃ k : Int, ∀ n,
        ({ (default : Chunk) with startLine := 2, endLine := 3 } : Chunk).HasLine n →
          ∃ line, (bytes "a\nb\nc").line? n = some line ∧
            (bytes "x\na\nb\nc").line? (n + k) = some line := by
  have hfate : ({ (default : Chunk) with startLine := 2, endLine := 3 } : Chunk).fate
      (expandRegions (changedRegions (bytes "a\nb\nc") (bytes "x\na\nb\nc"))) = none := by
    decide +kernel
  exact ⟨hfate, (fate_changedRegions (by decide) (by decide) (by decide +kernel)).1 hfate⟩

end SourceChunks
