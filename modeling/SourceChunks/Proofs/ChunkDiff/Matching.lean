import Mathlib.Data.List.Perm.Subperm
import SourceChunks.ChunkDiff.Move

/-!
# Matching moved chunks one to one

Deleted chunks choose one after another among the added ones that are still free. Whatever the
scores are, no position on either side is used twice: the deleted chunks of the pairs are some of
the deleted ones in their order, and the added chunks of the pairs are some of the added ones.
-/

namespace SourceChunks.ChunkDiff

variable {α : Type} [Scalar α] {score : Bytes → Bytes → α}

/-- The added chunks that no pair has taken. -/
def freeChunks (added : List (Chunk × Bool)) : List Chunk := (added.filter Prod.snd).map Prod.fst

/-- At the start every added chunk is free. -/
theorem freeChunks_map_true (added : List Chunk) :
    freeChunks (added.map fun c => (c, true)) = added := by
  simp [freeChunks, List.filter_map, Function.comp_def]

/-- Taking a free chunk removes it, and only it, from the free ones. -/
theorem freeChunks_set_perm {added : List (Chunk × Bool)} {i : Nat} {new : Chunk}
    (h : added[i]? = some (new, true)) :
    (new :: freeChunks (added.set i (new, false))).Perm (freeChunks added) := by
  induction added generalizing i with
  | nil => simp at h
  | cons e rest ih =>
    cases i with
    | zero =>
      obtain rfl : e = (new, true) := by simpa using h
      exact List.Perm.refl _
    | succ i =>
      have ih := ih (i := i) (by simpa using h)
      obtain ⟨c, free⟩ := e
      cases free with
      | false => exact ih
      | true => exact (List.Perm.swap c new _).trans (ih.cons c)

/-- The best partner is the one known before the list, or a free chunk of the list that the deleted
one may have moved to. -/
theorem bestPartnerBy_eq_some {threshold : α} {old : Chunk} {i j : Nat} {best : Option Nat × α}
    {added : List (Chunk × Bool)} (h : bestPartnerBy score threshold old i best added = some j) :
    best.1 = some j ∨
      ∃ k c, added[k]? = some (c, true) ∧ j = i + k ∧ mayMove old c = true := by
  induction added generalizing i best with
  | nil => exact Or.inl h
  | cons e rest ih =>
    obtain ⟨new, free⟩ := e
    rw [bestPartnerBy] at h
    rcases ih h with hbest | ⟨k, c, hk, hj, hmove⟩
    · split at hbest
      · next hfree =>
        obtain ⟨rfl, hmove⟩ : free = true ∧ mayMove old new = true := by simpa using hfree
        simp only at hbest
        split at hbest
        · exact Or.inr ⟨0, new, rfl, (Option.some.inj hbest).symm, hmove⟩
        · exact Or.inl hbest
      · exact Or.inl hbest
    · exact Or.inr ⟨k + 1, c, by simpa using hk, by omega, hmove⟩

/-- The position chosen from scratch is that of a free chunk. -/
theorem getElem?_of_bestPartnerBy {threshold least : α} {old : Chunk} {j : Nat}
    {added : List (Chunk × Bool)}
    (h : bestPartnerBy score threshold old 0 (none, least) added = some j) :
    ∃ c, added[j]? = some (c, true) ∧ mayMove old c = true := by
  rcases bestPartnerBy_eq_some h with hnone | ⟨k, c, hk, hj, hmove⟩
  · exact absurd hnone nofun
  · obtain rfl : j = k := by omega
    exact ⟨c, hk, hmove⟩

/-- Each deleted chunk is in at most one pair, and the pairs keep their order. -/
theorem fst_matchMovesBy_sublist (score : Bytes → Bytes → α) (threshold : α)
    (deleted : List Chunk) (added : List (Chunk × Bool)) :
    ((matchMovesBy score threshold deleted added).map Prod.fst).Sublist deleted := by
  fun_induction matchMovesBy score threshold deleted added with
  | case1 => exact List.Sublist.refl _
  | case2 added old rest hnone ih => exact ih.cons _
  | case3 added old rest i hi hnone ih => exact ih.cons _
  | case4 added old rest i hi new free hget ih => exact ih.cons_cons _

/-- Each added chunk is in at most one pair, and only if it is free. -/
theorem snd_matchMovesBy_subperm (score : Bytes → Bytes → α) (threshold : α)
    (deleted : List Chunk) (added : List (Chunk × Bool)) :
    ((matchMovesBy score threshold deleted added).map Prod.snd).Subperm (freeChunks added) := by
  fun_induction matchMovesBy score threshold deleted added with
  | case1 => exact List.nil_subperm
  | case2 added old rest hnone ih => exact ih
  | case3 added old rest i hi hnone ih => exact ih
  | case4 added old rest i hi new free hget ih =>
    obtain ⟨c, hc, -⟩ := getElem?_of_bestPartnerBy hi
    obtain ⟨rfl, rfl⟩ : new = c ∧ free = true := by simpa [hget] using hc
    exact ((List.subperm_cons new).mpr ih).trans (freeChunks_set_perm hget).subperm

/-- The deleted chunks that moved are some of the deleted ones. -/
theorem fst_detectMoves_subperm (threshold : α) (deleted added : List Chunk) :
    ((detectMoves threshold deleted added).map Prod.fst).Subperm deleted :=
  (fst_matchMovesBy_sublist _ threshold deleted _).subperm

/-- The added chunks that moved are some of the added ones. -/
theorem snd_detectMoves_subperm (threshold : α) (deleted added : List Chunk) :
    ((detectMoves threshold deleted added).map Prod.snd).Subperm added := by
  have h := snd_matchMovesBy_subperm (similarity · · threshold) threshold deleted
    (added.map fun c => (c, true))
  rwa [freeChunks_map_true] at h

end SourceChunks.ChunkDiff
