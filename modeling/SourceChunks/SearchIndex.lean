import SourceChunks.ChunkDiff
import SourceChunks.Dict
import SourceChunks.Instant

/-!
# The search index

The index has one record for each chunk id, in which contents are searched without regard to case.
It follows a file either by the changes of a diff, each of which is logged, or by replacing all
records of the file.
-/

namespace SourceChunks

/-- What the index knows of a chunk. -/
structure IndexRecord where
  /-- The content in small letters. -/
  content : Bytes
  /-- The kind of construct. -/
  nodeType : Bytes
  /-- The path of the file. -/
  filePath : Bytes
  /-- The lines. -/
  lines : LineRange
  deriving DecidableEq, Repr

/-- The record of a chunk. -/
def IndexRecord.ofChunk (c : Chunk) : IndexRecord :=
  ⟨Bytes.lowercase c.content, c.nodeType, c.filePath, ⟨c.startLine, c.endLine⟩⟩

/-- What an update did. -/
inductive IndexAction where
  | add
  | update
  | delete
  deriving DecidableEq, Repr

/-- The name of an action. -/
def IndexAction.name : IndexAction → Bytes
  | .add => bytes "add"
  | .update => bytes "update"
  | .delete => bytes "delete"

/-- An update that was carried out. -/
structure IndexUpdate where
  /-- The id that was removed. -/
  oldId : Option Bytes
  /-- The id that was put in. -/
  newId : Option Bytes
  /-- When it was carried out. -/
  time : Instant
  deriving DecidableEq, Repr

/-- What an update did: without a new id it deletes, without an old one it adds. -/
def IndexUpdate.action (u : IndexUpdate) : IndexAction :=
  if u.newId.isNone then .delete else if u.oldId.isNone then .add else .update

/-- Records of chunks by id, and the updates that led to them. -/
structure SearchIndex where
  /-- The records. -/
  records : Dict IndexRecord
  /-- The updates, the first one first. -/
  log : List IndexUpdate
  deriving DecidableEq

namespace SearchIndex

/-- An index without records. -/
def empty : SearchIndex := ⟨Dict.empty, []⟩

/-- The number of records. -/
def size (x : SearchIndex) : Nat := x.records.size

/-- The record of an id. -/
def get? (x : SearchIndex) (id : Bytes) : Option IndexRecord := x.records.get? id

/-- Put the record of a chunk in. -/
def putChunk (records : Dict IndexRecord) (c : Chunk) : Dict IndexRecord :=
  records.insert c.id (.ofChunk c)

/-- Remove the record of the old chunk, put that of the new one in, and log it. -/
def update (x : SearchIndex) (now : Int) (old new : Option Chunk) : SearchIndex :=
  let records := match old with
    | some c => x.records.erase c.id
    | none => x.records
  let records := match new with
    | some c => putChunk records c
    | none => records
  ⟨records, x.log ++ [⟨old.map Chunk.id, new.map Chunk.id, Instant.ofNanos now⟩]⟩

/-- Carry out the changes of a diff in their order. -/
def applyDiff (x : SearchIndex) (now : Int) (diff : ChunkDiff) : SearchIndex :=
  diff.changes.foldl (fun x change => x.update now change.old change.new) x

/-- What carrying out a diff costs beside rebuilding: the share of the records that change, all of
it if more than half of them are added or deleted. Where there is nothing to do or nothing indexed
the cost is zero. -/
def updateCost {α : Type} [Scalar α] (x : SearchIndex) (diff : ChunkDiff) : α :=
  let total := x.size
  if total = 0 ∨ diff.changes = [] then Scalar.ofNat 0
  else
    let coming := diff.changes.countP fun c => c.kind = .added ∨ c.kind = .deleted
    if total < 2 * coming then Scalar.ofNat 1
    else Scalar.least (Scalar.ofNat 1) (Scalar.ofNat diff.changes.length / Scalar.ofNat total)

/-- The ids of the records whose content has a text in it, without regard to case, in byte order. -/
def search (x : SearchIndex) (query : Bytes) : List Bytes :=
  let needle := Bytes.lowercase query
  (x.records.filter fun _ r => Bytes.hasInfix needle r.content).keys

/-- Replace all records of a file by those of some chunks; the answer is how many were removed. -/
def rebuildFile (x : SearchIndex) (filePath : Bytes) (chunks : List Chunk) : SearchIndex × Nat :=
  let kept := x.records.filter fun _ r => r.filePath != filePath
  ({ x with records := chunks.foldl putChunk kept }, x.size - kept.size)

/-- Whether all of some chunks have records. -/
def containsAll (x : SearchIndex) (chunks : List Chunk) : Bool :=
  chunks.all fun c => (x.get? c.id).isSome

end SearchIndex

end SourceChunks
