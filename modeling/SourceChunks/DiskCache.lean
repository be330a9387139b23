import SourceChunks.DiskCache.Record
import SourceChunks.FileTree.Edit
import SourceChunks.Json.Parser
import SourceChunks.Json.Printer
import SourceChunks.Scalar

/-!
# The disk cache

The chunks of files are kept in a directory, one blob a file, beside an index that is written anew
whenever it changes. The index is first written next to the old one and then takes its place. An
operation that fails keeps what it has done so far. Files are opened before it is known whether the
disk takes their texts, and what they held is gone by then.
-/

namespace SourceChunks

/-- How operations on the cache ended. -/
structure CacheCounts where
  /-- How many entries were stored. -/
  stores : Nat
  /-- How many look-ups there were. -/
  retrievals : Nat
  /-- How many of them found an entry. -/
  hits : Nat
  /-- How many found no record. -/
  misses : Nat
  /-- How many found the record of another content. -/
  hashMismatches : Nat
  /-- How many found a record without a blob. -/
  desyncs : Nat
  /-- How many found a blob that cannot be understood, and how many blobs could not be written. -/
  errors : Nat
  deriving DecidableEq, Repr

/-- The counts before anything happened. -/
def CacheCounts.zero : CacheCounts := ⟨0, 0, 0, 0, 0, 0, 0⟩

/-- What a look-up finds. -/
inductive CacheLookup where
  | hit (entry : CacheEntry)
  | notFound
  | hashMismatch
  | blobMissing
  | corrupt
  deriving DecidableEq

namespace CacheLookup

/-- The entry that was found. -/
def found? : CacheLookup → Option CacheEntry
  | .hit e => some e
  | _ => none

/-- The name of what was found. -/
def status : CacheLookup → Bytes
  | .hit _ => bytes "hit"
  | .notFound => bytes "not_found"
  | .hashMismatch => bytes "hash_mismatch"
  | .blobMissing => bytes "blob_missing"
  | .corrupt => bytes "corrupt"

/-- Count a look-up that ended so. -/
def count (l : CacheLookup) (n : CacheCounts) : CacheCounts :=
  let n := { n with retrievals := n.retrievals + 1 }
  match l with
  | .hit _ => { n with hits := n.hits + 1 }
  | .notFound => { n with misses := n.misses + 1 }
  | .hashMismatch => { n with hashMismatches := n.hashMismatches + 1 }
  | .blobMissing => { n with desyncs := n.desyncs + 1 }
  | .corrupt => { n with errors := n.errors + 1 }

end CacheLookup

/-- A cache in a directory. -/
structure DiskCache where
  /-- All files, those of the cache among them. -/
  files : FileTree
  /-- The path of the directory. -/
  directory : Bytes
  /-- The index. -/
  records : Dict CacheRecord
  /-- The counts since the cache was opened. -/
  counts : CacheCounts
  /-- The disk that the files are on. -/
  device : FileTree.Device

namespace DiskCache

/-- The name of the file that holds the index. -/
def indexName : Bytes := bytes "index.json"

/-- The path of the index of a cache. -/
def indexPath (c : DiskCache) : Bytes := Path.join c.directory indexName

/-- The path of a blob of a cache. -/
def blobPath (c : DiskCache) (name : Bytes) : Bytes := Path.join c.directory name

/-- The index in a file; without a file it is empty. -/
def loadIndex (files : FileTree) (path : Bytes) : Except Failure (Dict CacheRecord) :=
  match files.read? path with
  | none => .ok Dict.empty
  | some text =>
    match (Json.parse? text).bind CacheRecord.indexOfJson? with
    | none => .error (.malformedIndex path)
    | some records => .ok records

/-- Open the cache in a directory, which is made if it is missing. -/
def openAt (files : FileTree) (directory : Bytes) (device : FileTree.Device := .roomy) :
    FileTree × Except Failure DiskCache :=
  match files.makeDirectories directory with
  | (files, .error e) => (files, .error (.cacheDirectory directory e))
  | (files, .ok ()) =>
    (files, (loadIndex files (Path.join directory indexName)).map fun records =>
      ⟨files, directory, records, .zero, device⟩)

/-- Write the index to its file. -/
def saveIndex (c : DiskCache) : DiskCache × Except Failure Unit :=
  let path := c.indexPath
  let draft := path ++ bytes ".tmp"
  match c.files.writeText c.device draft ((CacheRecord.indexToJson c.records).pretty? 2) with
  | .unopened => (c, .error (.unwritableIndex ⟨draft, false⟩))
  | .malformed files => ({ c with files }, .error .malformedDocument)
  | .unfinished files => ({ c with files }, .error (.unwritableIndex ⟨draft, true⟩))
  | .finished files =>
    match files.rename draft path with
    | .error e => ({ c with files }, .error (.unreplaceableIndex path e))
    | .ok files => ({ c with files }, .ok ())

/-- Write the blob of an entry, and then its record; the answer tells whether the blob could be
written. If the disk does not take the blob, the old blob is gone and the old record stays. -/
def writeEntry (c : DiskCache) (e : CacheEntry) : DiskCache × Except Failure Bool :=
  match c.files.writeText c.device (c.blobPath (CacheEntry.blobName e.filePath))
      e.toBlob.compact? with
  | .unopened => (c, .ok false)
  | .malformed files => ({ c with files }, .error .malformedDocument)
  | .unfinished files => ({ c with files }, .ok false)
  | .finished files =>
    ({ c with files, records := c.records.insert e.filePath (.ofEntry e) }, .ok true)

/-- Remove the record of a file and its blob. -/
def removeEntry (c : DiskCache) (filePath : Bytes) : DiskCache :=
  match c.records.get? filePath with
  | none => c
  | some r =>
    { c with
      files := c.files.remove (c.blobPath r.blobName)
      records := c.records.erase filePath }

/-- Read the blob of a record. -/
def readEntry (c : DiskCache) (now : Int) (filePath : Bytes) (r : CacheRecord) : CacheLookup :=
  match c.files.read? (c.blobPath r.blobName) with
  | none => .blobMissing
  | some text =>
    match (Json.parse? text).bind (CacheEntry.ofBlob? now filePath) with
    | none => .corrupt
    | some e => .hit e

/-- Store the chunks of a file whose content has a hash; the answer tells whether that was
possible. -/
def store (c : DiskCache) (now : Int) (filePath : Bytes) (chunks : List Chunk)
    (contentHash : Bytes) (metadata : Json) : DiskCache × Except Failure Bool :=
  match c.writeEntry (.ofChunks now filePath chunks contentHash metadata) with
  | (c, .error f) => (c, .error f)
  | (c, .ok false) => ({ c with counts.errors := c.counts.errors + 1 }, .ok false)
  | (c, .ok true) =>
    match c.saveIndex with
    | (c, .error f) => (c, .error f)
    | (c, .ok ()) => ({ c with counts.stores := c.counts.stores + 1 }, .ok true)

/-- What the cache has for a file, of a certain content if a hash is given. -/
def lookup (c : DiskCache) (now : Int) (filePath : Bytes) (contentHash : Option Bytes) :
    CacheLookup :=
  match c.records.get? filePath with
  | none => .notFound
  | some r =>
    if contentHash.any (· ≠ r.contentHash) then .hashMismatch else c.readEntry now filePath r

/-- Look up a file, and count how that ended. -/
def retrieve (c : DiskCache) (now : Int) (filePath : Bytes) (contentHash : Option Bytes) :
    DiskCache × CacheLookup :=
  let found := c.lookup now filePath contentHash
  ({ c with counts := found.count c.counts }, found)

/-- Remove some files from the cache and write the index; the answer is how many there were. -/
def removeAll (c : DiskCache) (filePaths : List Bytes) : DiskCache × Except Failure Nat :=
  let (c, saved) := (filePaths.foldl removeEntry c).saveIndex
  (c, saved.map fun () => filePaths.length)

/-- Remove a file; the answer is how many were in the cache. -/
def invalidate (c : DiskCache) (filePath : Bytes) : DiskCache × Except Failure Nat :=
  c.removeAll (if c.records.contains filePath then [filePath] else [])

/-- Whether a record is older than an instant. One whose time cannot be read is older than any. -/
def isOlder (limit : Instant) (r : CacheRecord) : Bool :=
  (Instant.ofText? r.timestamp).all fun t => t.micros < limit.micros

/-- Remove the files that were stored before an instant; the answer is how many there were. -/
def invalidateOlder (c : DiskCache) (limit : Instant) : DiskCache × Except Failure Nat :=
  c.removeAll (c.records.filter fun _ r => isOlder limit r).keys

/-- Remove all files; the answer is how many there were. -/
def invalidateAll (c : DiskCache) : DiskCache × Except Failure Nat := c.removeAll c.records.keys

/-- Whether a file is in the index. -/
def contains (c : DiskCache) (filePath : Bytes) : Bool := c.records.contains filePath

/-- The number of files in the index. -/
def size (c : DiskCache) : Nat := c.records.size

/-- The number of bytes of all blobs. -/
def blobBytes (c : DiskCache) : Nat :=
  c.records.values.foldr (fun r total =>
    ((c.files.fileAt? (c.blobPath r.blobName)).map List.length).getD 0 + total) 0

/-- The share of look-ups that found an entry. -/
def hitRate {α : Type} [Scalar α] (c : DiskCache) : α :=
  Scalar.ofNat c.counts.hits / Scalar.ofNat (max 1 c.counts.retrievals)

end DiskCache

end SourceChunks
