import Mathlib.Tactic.NormNum
import SourceChunks.ChunkDiff.Move
import SourceChunks.Proofs.Similarity

/-!
# Scores of moves without a floor

The floor under which similarities are not computed is the threshold of the moves themselves. It
makes no difference: scores that differ only below the threshold choose the same partners, and the
floor changes no score that comes up to it.
-/

namespace SourceChunks

namespace ChunkDiff

section Scores

variable {α : Type} [Scalar α]

variable {score score' : Bytes → Bytes → α} {threshold : α}

/-- Scores that differ only where neither comes up to the threshold choose the same partner. -/
theorem bestPartnerBy_congr
    (h : ∀ a b, score a b = score' a b ∨
      (Scalar.le threshold (score a b) = false ∧ Scalar.le threshold (score' a b) = false))
    (old : Chunk) (i : Nat) (best : Option Nat × α) (added : List (Chunk × Bool)) :
    bestPartnerBy score threshold old i best added =
      bestPartnerBy score' threshold old i best added := by
  induction added generalizing i best with
  | nil => rfl
  | cons e rest ih =>
    obtain ⟨new, free⟩ := e
    rw [bestPartnerBy, bestPartnerBy, ih]
    rcases h old.content new.content with heq | ⟨hbelow, hbelow'⟩
    · simp only [heq]
    · simp only [hbelow, hbelow', Bool.false_and, Bool.false_eq_true, if_false]

/-- Scores that differ only where neither comes up to the threshold detect the same moves. -/
theorem detectMovesBy_congr
    (h : ∀ a b, score a b = score' a b ∨
      (Scalar.le threshold (score a b) = false ∧ Scalar.le threshold (score' a b) = false))
    (deleted added : List Chunk) :
    detectMovesBy score threshold deleted added =
      detectMovesBy score' threshold deleted added := by
  have hmatch (marked : List (Chunk × Bool)) :
      matchMovesBy score threshold deleted marked =
        matchMovesBy score' threshold deleted marked := by
    induction deleted generalizing marked with
    | nil => rfl
    | cons old rest ih => simp only [matchMovesBy, bestPartnerBy_congr h, ih]
  exact hmatch _

end Scores

/-- With a threshold above zero, moves are those that the exact similarities give. -/
theorem detectMoves_eq_by_likeness {threshold : Rat} (h : 0 < threshold)
    (deleted added : List Chunk) :
    detectMoves threshold deleted added = detectMovesBy likeness threshold deleted added := by
  refine detectMovesBy_congr (fun a b => ?_) deleted added
  rcases similarity_cases a b threshold with heq | ⟨hzero, hlt⟩
  · exact .inl heq
  · right
    rw [hzero]
    simp only [Scalar.le_rat, decide_eq_false_iff_not, not_le]
    exact ⟨h, hlt⟩

end ChunkDiff

open EditDistance ChunkDiff in
/-- The similarity of two texts is one less the least number of single-byte edits between them over
the length of the longer one. A floor makes zero of it at most where the floor is not reached, so
that without one it is symmetric, lies between zero and one, and is one for equal texts only. With a
threshold above zero, moves come out as if no score had a floor. -/
theorem similarity_eq_likeness (a b : Bytes) :
    (IsLeast {n | EditedIn n a b} (fewestEdits a b) ∧
      likeness a b = if a = [] ∧ b = [] then 1
        else 1 - (fewestEdits a b : Rat) / (max a.length b.length : Nat)) ∧
    (∀ floor : Rat,
      (similarity a b floor = likeness a b ∨ similarity a b floor = 0) ∧
      (floor ≤ likeness a b → similarity a b floor = likeness a b)) ∧
    (∀ floor : Rat, floor ≤ 0 →
      similarity a b floor = likeness a b ∧
      (0 ≤ similarity a b floor ∧ similarity a b floor ≤ 1) ∧
      similarity a b floor = similarity b a floor ∧
      (similarity a b floor = 1 ↔ a = b)) ∧
    ∀ threshold : Rat, 0 < threshold → ∀ deleted added : List Chunk,
      detectMoves threshold deleted added =
        detectMovesBy (similarity · · threshold) threshold deleted added ∧
      detectMoves threshold deleted added =
        detectMovesBy (similarity · · (0 : Rat)) threshold deleted added := by
  have hfloor (a b : Bytes) {floor : Rat} (h : floor ≤ 0) :
      similarity a b floor = likeness a b :=
    similarity_of_le a b (h.trans (likeness_nonneg a b))
  refine ⟨⟨isLeast_fewestEdits a b, ?_⟩, fun floor => ⟨?_, similarity_of_le a b⟩, ?_, ?_⟩
  · split
    · next hempty => rw [hempty.1, hempty.2, likeness_self]
    · rfl
  · exact (similarity_cases a b floor).imp_right And.left
  · intro floor h
    rw [hfloor a b h, hfloor b a h]
    exact ⟨rfl, ⟨likeness_nonneg a b, likeness_le_one a b⟩, likeness_comm a b,
      likeness_eq_one_iff a b⟩
  · intro threshold h deleted added
    have hzero : (similarity · · (0 : Rat)) = likeness := by
      funext a b
      exact hfloor a b le_rfl
    rw [hzero]
    exact ⟨rfl, detectMoves_eq_by_likeness h deleted added⟩

open ChunkDiff in
/-- Three edits turn the one word into the other, so a floor of one half is reached. -/
theorem similarity_eq_likeness_kitten :
    ((1 / 2 : Rat) ≤ likeness (bytes "kitten") (bytes "sitting") ∧
      similarity (bytes "kitten") (bytes "sitting") (1 / 2 : Rat) =
        likeness (bytes "kitten") (bytes "sitting")) ∧
    ((0 : Rat) ≤ 0 ∧ similarity (bytes "kitten") (bytes "sitting") (0 : Rat) =
      likeness (bytes "kitten") (bytes "sitting")) ∧
    ((0 : Rat) < 17 / 20 ∧ ∀ deleted added : List Chunk,
      detectMoves (17 / 20 : Rat) deleted added =
        detectMovesBy (similarity · · (0 : Rat)) (17 / 20) deleted added) := by
  have hhalf : (1 / 2 : Rat) ≤ likeness (bytes "kitten") (bytes "sitting") := by
    rw [likeness_eq_complement, Scalar.complement_rat]
    decide +kernel
  have hthreshold : (0 : Rat) < 17 / 20 := by norm_num
  obtain ⟨-, hfloor, hzero, hmoves⟩ := similarity_eq_likeness (bytes "kitten") (bytes "sitting")
  exact ⟨⟨hhalf, (hfloor _).2 hhalf⟩, ⟨le_rfl, (hzero 0 le_rfl).1⟩, hthreshold,
    fun deleted added => (hmoves _ hthreshold deleted added).2⟩

end SourceChunks
