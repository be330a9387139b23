import SourceChunks.Chunk.Block
import SourceChunks.ChunkDiff.Move

/-!
# Comparing chunks with a new text

The chunks of the new text are matched with the old ones by id, the first chunk of each id counting
on either side. What has no match is added or deleted, unless the two of them are one chunk that
moved.
-/

namespace SourceChunks.ChunkDiff

/-- The first chunk with an id. -/
def findId? (id : Bytes) (chunks : List Chunk) : Option Chunk := chunks.find? fun c => c.id == id

/-- The first chunk of each id, leaving out the ids in `seen`. -/
def firstOfEachId : (seen : List Bytes) → List Chunk → List Chunk
  | _, [] => []
  | seen, c :: rest =>
    if seen.contains c.id then firstOfEachId seen rest
    else c :: firstOfEachId (c.id :: seen) rest

/-- What a new chunk is in comparison with the old ones. -/
inductive Match where
  | added (new : Chunk)
  | unchanged (new : Chunk)
  | modified (old new : Chunk)
  deriving DecidableEq

/-- Compare a new chunk with the old chunk of its id. -/
def Match.of (old : List Chunk) (new : Chunk) : Match :=
  match findId? new.id old with
  | none => .added new
  | some o => if o.content = new.content then .unchanged new else .modified o new

/-- The chunks without those of some ids. -/
def withoutIds (ids : List Bytes) (chunks : List Chunk) : List Chunk :=
  chunks.filter fun c => !ids.contains c.id

/-- The lines of the old file in which a chunk was modified. -/
def modifiedLines (old new : Chunk) : List LineRange :=
  (changedRegions old.content new.content).map fun r => r.shift (old.startLine - 1)

/-- All changes, in the order additions, deletions, modifications, moves. -/
def changesOf (added deleted : List Chunk) (modified moved : List (Chunk × Chunk)) :
    List ChunkChange :=
  let whole (c : Chunk) : List LineRange := [⟨c.startLine, c.endLine⟩]
  added.map (fun c => ⟨c.id, .added, none, some c, whole c⟩) ++
    deleted.map (fun c => ⟨c.id, .deleted, some c, none, whole c⟩) ++
    modified.map (fun (o, n) => ⟨n.id, .modified, some o, some n, modifiedLines o n⟩) ++
    moved.map (fun (o, n) => ⟨n.id, .moved, some o, some n, whole n⟩)

/-- The differences between two chunk lists. -/
def ofChunks {α : Type} [Scalar α] (threshold : α) (old new : List Chunk) : ChunkDiff :=
  let matched := (firstOfEachId [] new).map (Match.of old)
  let added := matched.filterMap fun m => match m with | .added c => some c | _ => none
  let unchanged := matched.filterMap fun m => match m with | .unchanged c => some c | _ => none
  let modified := matched.filterMap fun m => match m with | .modified o n => some (o, n) | _ => none
  let deleted := firstOfEachId (new.map Chunk.id) old
  let moved := detectMoves threshold deleted added
  let deleted := withoutIds (moved.map fun m => m.1.id) deleted
  let added := withoutIds (moved.map fun m => m.2.id) added
  ⟨changesOf added deleted modified moved, added, deleted, modified, moved, unchanged, old.length,
    new.length⟩

/-- The path that the chunks of a new text belong to: the given one, or that of the first old chunk
if none is given. -/
def resolvePath (filePath : Bytes) (old : List Chunk) : Bytes :=
  if filePath.isEmpty then (old.head?.map Chunk.filePath).getD [] else filePath

/-- The differences between a chunk list and the chunks of a new text. -/
def compute {α : Type} [Scalar α] (threshold : α) (old : List Chunk) (text : Bytes)
    (language : Language) (filePath : Bytes) : ChunkDiff :=
  ofChunks threshold old (chunkText language (resolvePath filePath old) text)

end SourceChunks.ChunkDiff
