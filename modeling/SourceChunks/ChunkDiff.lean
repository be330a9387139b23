import SourceChunks.Chunk
import SourceChunks.EditScript.Region
import SourceChunks.Scalar

/-!
# Differences between chunk lists

What becomes of each chunk of a file when its text changes: some are added, deleted, modified or
moved, the others stay unchanged.
-/

namespace SourceChunks

/-- What can happen to a chunk. -/
inductive ChangeKind where
  | added
  | modified
  | deleted
  | moved
  | renamed
  deriving DecidableEq, Repr

namespace ChangeKind

/-- Every kind of change. -/
def all : List ChangeKind := [.added, .modified, .deleted, .moved, .renamed]

/-- The name of a kind of change. -/
def name : ChangeKind → Bytes
  | .added => bytes "added"
  | .modified => bytes "modified"
  | .deleted => bytes "deleted"
  | .moved => bytes "moved"
  | .renamed => bytes "renamed"

/-- The kind of change of a name. -/
def ofName? (n : Bytes) : Option ChangeKind := all.find? fun k => k.name = n

/-- How certain a change of a kind is: a modification and a move are conclusions from what the
chunks have in common, an addition and a deletion are facts. -/
def confidence {α : Type} [Scalar α] : ChangeKind → α
  | .modified => Scalar.ofNat 9 / Scalar.ofNat 10
  | .moved => Scalar.ofNat 95 / Scalar.ofNat 100
  | .added | .deleted | .renamed => Scalar.ofNat 1

end ChangeKind

/-- A change of one chunk. -/
structure ChunkChange where
  /-- The id of the chunk that changes. -/
  id : Bytes
  /-- What happens to it. -/
  kind : ChangeKind
  /-- The chunk before the change, if there is one. -/
  old : Option Chunk
  /-- The chunk after the change, if there is one. -/
  new : Option Chunk
  /-- The lines that change. -/
  lines : List LineRange
  deriving DecidableEq

/-- The differences between two chunk lists. -/
structure ChunkDiff where
  /-- All changes, in the order additions, deletions, modifications, moves. -/
  changes : List ChunkChange
  /-- New chunks. -/
  added : List Chunk
  /-- Chunks that are gone. -/
  deleted : List Chunk
  /-- Chunks whose content changed, before and after. -/
  modified : List (Chunk × Chunk)
  /-- Chunks that are elsewhere now, before and after. -/
  moved : List (Chunk × Chunk)
  /-- Chunks that stayed as they were. -/
  unchanged : List Chunk
  /-- The number of chunks before. -/
  oldCount : Nat
  /-- The number of chunks after. -/
  newCount : Nat
  deriving DecidableEq

namespace ChunkDiff

/-- A diff known only by its changes and the chunks that did not change. -/
def ofChanges (changes : List ChunkChange) (unchanged : List Chunk) : ChunkDiff :=
  ⟨changes, [], [], [], [], unchanged, 0, 0⟩

/-- The number of chunks before and after and in each part of the diff. -/
def summary (d : ChunkDiff) : List (Bytes × Nat) :=
  [(bytes "total_old_chunks", d.oldCount), (bytes "total_new_chunks", d.newCount),
    (bytes "added", d.added.length), (bytes "deleted", d.deleted.length),
    (bytes "modified", d.modified.length), (bytes "moved", d.moved.length),
    (bytes "unchanged", d.unchanged.length)]

end ChunkDiff

/-- What becomes of a chunk when the given lines change, listed in increasing order: nothing if none
of them is in it, deletion if all of its lines are among them, else modification. A chunk without
lines counts as deleted. -/
def Chunk.fate (c : Chunk) (changedLines : List Int) : Option ChangeKind :=
  if c.endLine < c.startLine then some .deleted
  else
    let total := c.endLine - c.startLine + 1
    let overlap := (changedLines.filter fun n => c.startLine ≤ n ∧ n ≤ c.endLine).length
    if overlap = 0 then none
    else if (overlap : Int) = total then some .deleted
    else some .modified

end SourceChunks
