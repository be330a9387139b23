import SourceChunks.DiskCache.Entry

/-!
# The index of the disk cache

The index has a record for each file in the cache. The record repeats what the blob says, so that
the cache can tell without reading the blob whether it is out of date.
-/

namespace SourceChunks

/-- What the index knows of the entry of a file. -/
structure CacheRecord where
  /-- The hash of the content that has the chunks. -/
  contentHash : Bytes
  /-- The text of the time when the entry was stored. -/
  timestamp : Bytes
  /-- The number of chunks. -/
  chunkCount : Nat
  /-- The name of the blob. -/
  blobName : Bytes
  deriving DecidableEq, Repr

namespace CacheRecord

/-- The record of an entry. -/
def ofEntry (e : CacheEntry) : CacheRecord :=
  ⟨e.contentHash, e.timestamp.toText, e.chunks.length, CacheEntry.blobName e.filePath⟩

/-- The document of a record. -/
def toJson (r : CacheRecord) : Json :=
  Json.ofMembers
    [(bytes "file_hash", .string r.contentHash), (bytes "timestamp", .string r.timestamp),
      (bytes "chunk_count", .int r.chunkCount), (bytes "cache_file", .string r.blobName)]

/-- The record of a document; only the hash has to be there. -/
def ofJson? (filePath : Bytes) (v : Json) : Option CacheRecord := do
  return {
    contentHash := ← v.required? "file_hash" Json.text?
    timestamp := ← v.optional? "timestamp" Json.text? []
    chunkCount := ← v.optional? "chunk_count" Json.nat64? 0
    blobName := ← v.optional? "cache_file" Json.text? (CacheEntry.blobName filePath) }

/-- The document of an index. -/
def indexToJson (records : Dict CacheRecord) : Json :=
  Json.ofMembers (records.entries.map fun r => (r.1, r.2.toJson))

/-- The index of a document. -/
def indexOfJson? (v : Json) : Option (Dict CacheRecord) := do
  let records ← v.keyedElements.mapM fun r => (ofJson? r.1 r.2).map fun record => (r.1, record)
  return Dict.ofList records

end CacheRecord

end SourceChunks
