import SourceChunks.ChunkDiff
import SourceChunks.Dict

/-!
# Applying differences

A chunk list is brought up to date by a diff, or by the chunks of the regions that changed. Either
way the result is ordered by position.
-/

namespace SourceChunks

/-- Carry out one change on chunks kept by id. -/
def ChunkChange.apply (byId : Dict Chunk) (change : ChunkChange) : Dict Chunk :=
  let byId := match change.old with
    | some old => byId.erase old.id
    | none => byId
  match change.new with
  | some new => if change.kind = .deleted then byId else byId.insert new.id new
  | none => byId

/-- The chunks after a diff: its changes carried out in their order, then its unchanged chunks put
in. Of chunks with one id the last one counts. -/
def ChunkDiff.apply (old : List Chunk) (diff : ChunkDiff) : List Chunk :=
  let put (byId : Dict Chunk) (c : Chunk) : Dict Chunk := byId.insert c.id c
  let changed := diff.changes.foldl ChunkChange.apply (old.foldl put Dict.empty)
  Chunk.sortByPosition (diff.unchanged.foldl put changed).values

/-- Whether a chunk has a line in a range. -/
def Chunk.overlaps (c : Chunk) (r : LineRange) : Bool :=
  c.startLine ≤ r.last && r.first ≤ c.endLine

/-- The chunks that stay beside the ones of changed regions: those outside the regions whose id has
not come before. -/
def keepOutside (regions : List LineRange) : (ids : List Bytes) → List Chunk → List Chunk
  | _, [] => []
  | ids, c :: rest =>
    if ids.contains c.id || regions.any c.overlaps then keepOutside regions ids rest
    else c :: keepOutside regions (c.id :: ids) rest

/-- The chunks of changed regions together with the chunks of the whole file that they leave
standing. -/
def mergeChunks (full incremental : List Chunk) (regions : List LineRange) : List Chunk :=
  Chunk.sortByPosition
    (incremental ++ keepOutside regions (incremental.map Chunk.id) full)

end SourceChunks
