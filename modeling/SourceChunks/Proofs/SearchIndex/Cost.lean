import Mathlib.Tactic.NormNum
import Mathlib.Tactic.Positivity
import SourceChunks.Proofs.Dict
import SourceChunks.Proofs.Scalar
import SourceChunks.SearchIndex

/-!
# What a diff costs

The cost of a diff is the share of the records that change, at most all of them, and it jumps to all
of them once more than half as many are added or deleted. Both rules go the same way: more changes
never cost less, and among more records the same changes never cost more.
-/

namespace SourceChunks

/-- The number of chunks that come or go with a diff. -/
def ChunkDiff.turnover (d : ChunkDiff) : ℕ :=
  d.changes.countP fun c => c.kind = .added ∨ c.kind = .deleted

namespace SearchIndex

/-- The cost of some changes among `total` records, of which `turnover` come or go. -/
def costOf (total changes turnover : ℕ) : ℚ :=
  if total < 2 * turnover then 1 else min 1 (changes / total)

variable {total total' changes changes' turnover turnover' : ℕ}

/-- A cost is not negative. -/
theorem costOf_nonneg : 0 ≤ costOf total changes turnover := by
  unfold costOf
  split
  · exact zero_le_one
  · exact le_min zero_le_one (by positivity)

/-- A cost is at most one. -/
theorem costOf_le_one : costOf total changes turnover ≤ 1 := by
  unfold costOf
  split
  · exact le_rfl
  · exact min_le_left _ _

/-- More changes do not cost less. -/
theorem costOf_mono (hchanges : changes ≤ changes') (hturnover : turnover ≤ turnover') :
    costOf total changes turnover ≤ costOf total changes' turnover' := by
  by_cases hjump' : total < 2 * turnover'
  · rw [costOf.eq_1 total changes', if_pos hjump']
    exact costOf_le_one
  · have hjump : ¬ total < 2 * turnover := by omega
    rw [costOf, costOf, if_neg hjump, if_neg hjump']
    apply min_le_min_left
    gcongr

/-- Among more records the same changes do not cost more. -/
theorem costOf_anti (hpos : 0 < total) (htotal : total ≤ total') :
    costOf total' changes turnover ≤ costOf total changes turnover := by
  by_cases hjump : total < 2 * turnover
  · rw [costOf.eq_1 total, if_pos hjump]
    exact costOf_le_one
  · have hjump' : ¬ total' < 2 * turnover := by omega
    rw [costOf, costOf, if_neg hjump, if_neg hjump']
    apply min_le_min_left
    gcongr

/-- The cost is all from as many changes on as there are records, and the share of the records that
change below, unless too many come or go. -/
theorem costOf_eq (hpos : 0 < total) :
    costOf total changes turnover =
      if total ≤ changes ∨ total < 2 * turnover then 1 else (changes : ℚ) / total := by
  have hpos' : (0 : ℚ) < total := Nat.cast_pos.mpr hpos
  unfold costOf
  by_cases hjump : total < 2 * turnover
  · rw [if_pos hjump, if_pos (.inr hjump)]
  · rw [if_neg hjump]
    by_cases hall : total ≤ changes
    · rw [if_pos (.inl hall)]
      apply min_eq_left
      rw [one_le_div hpos']
      exact_mod_cast hall
    · rw [if_neg (not_or.mpr ⟨hall, hjump⟩)]
      apply min_eq_right
      rw [div_le_one hpos']
      exact_mod_cast (Nat.lt_of_not_le hall).le

/-! ## The cost of a diff -/

variable (x : SearchIndex) (d : ChunkDiff)

/-- Updating an empty index costs nothing. -/
theorem updateCost_of_size_eq_zero (h : x.size = 0) : (x.updateCost d : ℚ) = 0 := by
  unfold updateCost
  dsimp only
  rw [if_pos (.inl h), Scalar.ofNat_rat, Nat.cast_zero]

/-- A diff without changes needs no rule of its own among records. -/
theorem updateCost_eq_costOf (h : x.size ≠ 0) :
    (x.updateCost d : ℚ) = costOf x.size d.changes.length d.turnover := by
  unfold updateCost costOf ChunkDiff.turnover
  dsimp only
  by_cases hnone : d.changes = []
  · rw [if_pos (.inr hnone)]
    simp [hnone]
  · rw [if_neg (not_or.mpr ⟨h, hnone⟩)]
    simp only [Scalar.ofNat_rat, Scalar.least_rat, Nat.cast_one]

/-- With more ids an index has at least as many records. -/
theorem size_le_size {x x' : SearchIndex} (h : ∀ id, (x.get? id).isSome → (x'.get? id).isSome) :
    x.size ≤ x'.size := by
  have hkeys : x.records.keys ⊆ x'.records.keys := by
    intro id hid
    rw [← Dict.contains_iff_mem_keys] at hid ⊢
    exact h id hid
  have hnodup : x.records.keys.Nodup := x.records.sorted.nodup_keys
  have hle := (hnodup.subperm hkeys).length_le
  rwa [Dict.length_keys, Dict.length_keys] at hle

/-- An index keeps its ids when the record of a chunk is put in. -/
theorem isSome_get?_update {x : SearchIndex} (now : Int) (c : Chunk) {id : Bytes}
    (h : (x.get? id).isSome) : ((x.update now none (some c)).get? id).isSome := by
  show ((x.records.insert c.id (.ofChunk c)).get? id).isSome
  rw [Dict.get?_insert]
  split
  · rfl
  · exact h

/-- The cost of a diff lies between zero and one, and a diff that has the changes of another one and
more costs no less. Among records it is one from as many changes on as there are records, or if more
than half as many come or go, and the share of the records that change otherwise. When more ids are
indexed the diff costs no more than before. -/
theorem updateCost_grows_and_saturates (x : SearchIndex) (d : ChunkDiff) :
    (0 ≤ (x.updateCost d : ℚ) ∧ (x.updateCost d : ℚ) ≤ 1) ∧
    (∀ d' : ChunkDiff, d.changes.Sublist d'.changes → (x.updateCost d : ℚ) ≤ x.updateCost d') ∧
    (x.size ≠ 0 → (x.updateCost d : ℚ) =
      if x.size ≤ d.changes.length ∨ (x.size : ℚ) / 2 < d.turnover then 1
      else (d.changes.length : ℚ) / x.size) ∧
    (∀ x' : SearchIndex, x.size ≠ 0 → (∀ id, (x.get? id).isSome → (x'.get? id).isSome) →
      (x'.updateCost d : ℚ) ≤ x.updateCost d) := by
  by_cases hsize : x.size = 0
  · have hzero (d : ChunkDiff) : (x.updateCost d : ℚ) = 0 := x.updateCost_of_size_eq_zero d hsize
    simp only [hzero]
    exact ⟨⟨le_rfl, zero_le_one⟩, fun _ _ => le_rfl, fun h => absurd hsize h,
      fun _ h => absurd hsize h⟩
  · have hpos : 0 < x.size := Nat.pos_of_ne_zero hsize
    simp only [x.updateCost_eq_costOf _ hsize]
    refine ⟨⟨costOf_nonneg, costOf_le_one⟩, ?_, ?_, ?_⟩
    · intro d' hsub
      exact costOf_mono hsub.length_le (List.Sublist.countP_le hsub)
    · intro _
      have hhalf : (x.size : ℚ) / 2 < d.turnover ↔ x.size < 2 * d.turnover := by
        rw [div_lt_iff₀ two_pos, mul_comm]
        exact_mod_cast Iff.rfl
      rw [costOf_eq hpos]
      simp only [hhalf]
    · intro x' _ hids
      have hle := size_le_size hids
      rw [x'.updateCost_eq_costOf d (by omega)]
      exact costOf_anti hpos hle

/-- One of three records changes. It costs more if another one is deleted, which with an addition is
more than half of the records, and less among four records. -/
theorem updateCost_grows_and_saturates_oneOfThree :
    let chunk (id : Bytes) : Chunk := { (default : Chunk) with id := id }
    let change (kind : ChangeKind) : ChunkChange := ⟨[], kind, none, none, []⟩
    let x := (empty.rebuildFile [] [chunk (bytes "a"), chunk (bytes "b"), chunk (bytes "c")]).1
    let x' := x.update 0 none (some (chunk (bytes "d")))
    let d := ChunkDiff.ofChanges [change .modified] []
    let d' := ChunkDiff.ofChanges [change .added, change .modified, change .deleted] []
    x.size = 3 ∧ d.changes.Sublist d'.changes ∧ (x.updateCost d : ℚ) = 1 / 3 ∧
      (x.updateCost d : ℚ) ≤ x.updateCost d' ∧ (x'.updateCost d : ℚ) ≤ x.updateCost d := by
  intro chunk change x x' d d'
  have hsize : x.size = 3 := by decide
  have hchanges : d.changes.length = 1 := rfl
  have hturnover : d.turnover = 0 := by decide
  have hsub : d.changes.Sublist d'.changes := by decide
  obtain ⟨-, hmono, hvalue, hanti⟩ := updateCost_grows_and_saturates x d
  refine ⟨hsize, hsub, ?_, hmono d' hsub, hanti x' (by omega) fun _ => isSome_get?_update 0 _⟩
  rw [hvalue (by omega), hsize, hchanges, hturnover]
  norm_num

end SearchIndex

end SourceChunks
