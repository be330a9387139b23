import SourceChunks.Proofs.Scalar
import SourceChunks.Proofs.Similarity.Rows

/-!
# Similarity without rounding

In exact numbers two texts are as similar as the fewest edits between them leave of the longer one.
A floor changes this only where it is not reached: the length of the texts calls for at least as
many edits as it lets through, so no text is set aside that comes up to the floor.
-/

namespace SourceChunks

open EditDistance

/-- How similar two texts are in exact numbers. Two empty texts are the same. -/
def likeness (a b : Bytes) : Rat := 1 - (fewestEdits a b : Rat) / (max a.length b.length : Nat)

/-- Texts of which the longer one is empty are both empty. -/
theorem eq_of_max_length_eq_zero {a b : Bytes} (h : max a.length b.length = 0) : a = b := by
  have ha : a.length = 0 := by omega
  have hb : b.length = 0 := by omega
  rw [List.length_eq_zero_iff.mp ha, List.length_eq_zero_iff.mp hb]

variable (a b : Bytes)

/-- The likeness is what the edits lack to the longer text. -/
theorem likeness_eq_complement :
    likeness a b = Scalar.complement (Bytes.editDistance a b) (max a.length b.length) := by
  rw [Scalar.complement_rat, Bytes.editDistance, distance_eq_fewestEdits, likeness]

/-- A likeness is not negative. -/
theorem likeness_nonneg : 0 ≤ likeness a b := by
  have hle : (fewestEdits a b : Rat) ≤ (max a.length b.length : Nat) := by
    exact_mod_cast fewestEdits_le_max a b
  exact sub_nonneg.mpr (div_le_one_of_le₀ hle (Nat.cast_nonneg _))

/-- A likeness is at most one. -/
theorem likeness_le_one : likeness a b ≤ 1 :=
  sub_le_self 1 (div_nonneg (Nat.cast_nonneg _) (Nat.cast_nonneg _))

/-- A likeness does not depend on the order of the texts. -/
theorem likeness_comm : likeness a b = likeness b a := by
  rw [likeness, likeness, fewestEdits_comm, Nat.max_comm]

/-- A text is wholly like itself. -/
theorem likeness_self : likeness a a = 1 := by
  rw [likeness, fewestEdits_self, Nat.cast_zero, zero_div, sub_zero]

/-- Only a text is wholly similar to itself. -/
theorem likeness_eq_one_iff : likeness a b = 1 ↔ a = b := by
  constructor
  · intro h
    rw [likeness, sub_eq_self, div_eq_zero_iff, Nat.cast_eq_zero, Nat.cast_eq_zero,
      fewestEdits_eq_zero_iff] at h
    exact h.elim id eq_of_max_length_eq_zero
  · rintro rfl
    exact likeness_self a

/-- A floor leaves the similarity as it is, unless the similarity is below it: then it may come out
as zero. -/
theorem similarity_cases (floor : Rat) :
    similarity a b floor = likeness a b ∨
      (similarity a b floor = 0 ∧ likeness a b < floor) := by
  rw [similarity]
  split
  · next hsame =>
    left
    rw [hsame.elim eq_of_max_length_eq_zero id, likeness_self]
    rfl
  · dsimp only
    split
    · next hbelow =>
      right
      have hgap := Scalar.complement_le_complement
        (max_sub_min_le_fewestEdits a b) (max a.length b.length)
      rw [← distance_eq_fewestEdits, ← Bytes.editDistance, ← likeness_eq_complement] at hgap
      rw [Scalar.lt_rat, decide_eq_true_eq] at hbelow
      exact ⟨rfl, hgap.trans_lt hbelow⟩
    · left
      exact (likeness_eq_complement a b).symm

/-- A floor that is reached makes no difference. -/
theorem similarity_of_le {floor : Rat} (h : floor ≤ likeness a b) :
    similarity a b floor = likeness a b := by
  rcases similarity_cases a b floor with heq | ⟨-, hlt⟩
  · exact heq
  · exact absurd h (not_le.mpr hlt)

end SourceChunks
