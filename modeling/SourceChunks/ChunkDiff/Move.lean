import SourceChunks.ChunkDiff
import SourceChunks.Similarity

/-!
# Moved chunks

A deleted chunk and an added chunk of the same kind at different places are one chunk that moved if
their contents are similar enough. Deleted chunks choose in their order, each the most similar of
the added chunks that are still free, the first of equally similar ones.
-/

namespace SourceChunks.ChunkDiff

variable {α : Type} [Scalar α]

/-- Whether a chunk could be another one at a new place. -/
def mayMove (old new : Chunk) : Bool :=
  new.nodeType == old.nodeType && !(new.filePath == old.filePath && new.startLine == old.startLine)

/-- The position of the best partner by some score in a list whose first position is `i`. Each
candidate comes with whether it is free, and `best` is the best one before them with its score. -/
def bestPartnerBy (score : Bytes → Bytes → α) (threshold : α) (old : Chunk) :
    (i : Nat) → (best : Option Nat × α) → List (Chunk × Bool) → Option Nat
  | _, best, [] => best.1
  | i, best, (new, free) :: rest =>
    let best :=
      if free && mayMove old new then
        let score := score old.content new.content
        if Scalar.le threshold score && Scalar.lt best.2 score then (some i, score) else best
      else best
    bestPartnerBy score threshold old (i + 1) best rest

/-- The pairs of moved chunks by some score, with the added ones marked as free or taken. -/
def matchMovesBy (score : Bytes → Bytes → α) (threshold : α) : (deleted : List Chunk) →
    (added : List (Chunk × Bool)) → List (Chunk × Chunk)
  | [], _ => []
  | old :: rest, added =>
    match bestPartnerBy score threshold old 0 (none, Scalar.ofNat 0) added with
    | none => matchMovesBy score threshold rest added
    | some i =>
      match added[i]? with
      | none => matchMovesBy score threshold rest added
      | some (new, _) =>
        (old, new) :: matchMovesBy score threshold rest (added.set i (new, false))

/-- The moved chunks by some score among deleted and added ones, in the order of the deleted ones.
-/
def detectMovesBy (score : Bytes → Bytes → α) (threshold : α) (deleted added : List Chunk) :
    List (Chunk × Chunk) :=
  matchMovesBy score threshold deleted (added.map fun c => (c, true))

/-- The moved chunks by the similarity of their contents, of which nothing counts that is below the
threshold. -/
def detectMoves (threshold : α) (deleted added : List Chunk) : List (Chunk × Chunk) :=
  detectMovesBy (similarity · · threshold) threshold deleted added

end SourceChunks.ChunkDiff
