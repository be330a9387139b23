import SourceChunks.Chunk.Document
import SourceChunks.Instant
import SourceChunks.Sha256.Hasher

/-!
# Entries of the disk cache

The chunks of a file are kept on disk as a document of their own, the blob of the file, whose name
is made from the path of the file. The blob also says which content of the file the chunks belong
to.
-/

namespace SourceChunks

/-- The chunks of a file and where they come from. -/
structure CacheEntry where
  /-- The path of the file. -/
  filePath : Bytes
  /-- The hash of the content that has these chunks. -/
  contentHash : Bytes
  /-- When the entry was stored. -/
  timestamp : Instant
  /-- The name of the language. -/
  language : Bytes
  /-- An object of further information. -/
  metadata : Json
  /-- The chunks. -/
  chunks : List Chunk
  deriving DecidableEq

namespace CacheEntry

/-- The entry of chunks that are stored now. Its language is that of the first chunk, and what is
not an object does not count as metadata. -/
def ofChunks (now : Int) (filePath : Bytes) (chunks : List Chunk) (contentHash : Bytes)
    (metadata : Json) : CacheEntry where
  filePath := filePath
  contentHash := contentHash
  timestamp := Instant.ofNanos now
  language := (chunks.head?.map Chunk.language).getD []
  metadata := if metadata.isObject then metadata else Json.emptyObject
  chunks := chunks

/-- The members of the document of an entry. -/
def members (e : CacheEntry) : List (Bytes × Json) :=
  [(bytes "file_hash", .string e.contentHash), (bytes "timestamp", .string e.timestamp.toText),
    (bytes "language", .string e.language), (bytes "metadata", e.metadata),
    (bytes "chunks", .array (e.chunks.map Chunk.toJson))]

/-- The document of an entry. -/
def toJson (e : CacheEntry) : Json := Json.ofMembers e.members

/-- Give a chunk that lacks them the path and the language of its entry. -/
def complete (filePath language : Bytes) (c : Chunk) : Chunk :=
  { c with
    filePath := if c.filePath.isEmpty then filePath else c.filePath
    language := if c.language.isEmpty then language else c.language }

/-- The entry of a document. A text that is no timestamp counts as now. -/
def ofJson? (now : Int) (filePath : Bytes) (v : Json) : Option CacheEntry := do
  let language ← v.optional? "language" Json.text? []
  let timestamp ← v.optional? "timestamp" Json.text? []
  let chunks ← (← v.required? "chunks" some).elements.mapM Chunk.ofJson?
  return {
    filePath
    contentHash := ← v.required? "file_hash" Json.text?
    timestamp := (Instant.ofText? timestamp).getD (Instant.ofNanos now)
    language
    metadata := ← v.optional? "metadata" some Json.emptyObject
    chunks := chunks.map (complete filePath language) }

/-- The version of the form that blobs have. -/
def formatVersion : Int := 1

/-- The name of the blob of a file. -/
def blobName (filePath : Bytes) : Bytes := Sha256.hexOf filePath ++ bytes ".blob"

/-- The blob of an entry. -/
def toBlob (e : CacheEntry) : Json :=
  Json.ofMembers (e.members ++
    [(bytes "format_version", .int formatVersion), (bytes "file_path", .string e.filePath)])

/-- The entry of a blob, which must have the right version. -/
def ofBlob? (now : Int) (filePath : Bytes) (v : Json) : Option CacheEntry := do
  let version ← v.optional? "format_version" Json.int32? 0
  if version = formatVersion then ofJson? now filePath v else none

end CacheEntry

end SourceChunks
