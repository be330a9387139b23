import SourceChunks.ChunkDiff.Apply
import SourceChunks.ChunkDiff.Compute
import SourceChunks.DiskCache
import SourceChunks.MemoryCache
import SourceChunks.Monitor
import SourceChunks.SearchIndex

/-!
# The pipeline

The pipeline chunks files again and again as they change, and keeps an index of the chunks. A
content that was chunked before is answered from memory or from disk. Where the disk has the chunks
of another content of the file, only the differences go to the index, unless there are so many of
them that the file is indexed anew.
-/

namespace SourceChunks

/-- Where the chunks of a file come from. -/
inductive ChunkSource where
  /-- The memory cache. -/
  | memory
  /-- The disk cache. -/
  | disk
  /-- The chunks of the previous content, with the differences carried out. The file was then either
  indexed anew or the differences were put into the index. -/
  | update (diff : ChunkDiff) (reindexed : Bool)
  /-- The text, as the disk cache answered so. -/
  | text (found : CacheLookup)

namespace ChunkSource

/-- The name of what the caches found. -/
def status : ChunkSource → Bytes
  | .memory | .disk => bytes "hit"
  | .update _ _ => CacheLookup.hashMismatch.status
  | .text found => found.status

/-- The differences that were carried out. -/
def diff? : ChunkSource → Option ChunkDiff
  | .update diff _ => some diff
  | _ => none

/-- Whether the chunks come from the memory cache. -/
def isMemory : ChunkSource → Bool
  | .memory => true
  | _ => false

/-- Whether the file was indexed anew because its content is new. -/
def isReindexed : ChunkSource → Bool
  | .memory | .disk => false
  | .update _ reindexed => reindexed
  | .text _ => true

end ChunkSource

/-- The chunks of a file. -/
structure ProcessedFile where
  /-- The chunks. -/
  chunks : List Chunk
  /-- The hash of the content. -/
  contentHash : Bytes
  /-- Where the chunks come from. -/
  source : ChunkSource

/-- The caches, the index and what was measured. -/
structure Pipeline where
  /-- How similar two chunks must be to count as one that moved. -/
  moveThreshold : Float
  /-- The cost of an update from which on a file is indexed anew. -/
  rebuildThreshold : Float
  /-- The cache on disk. -/
  disk : DiskCache
  /-- The cache in memory. -/
  memory : MemoryCache
  /-- The index. -/
  index : SearchIndex
  /-- What was measured. -/
  monitor : Monitor Float

namespace Pipeline

/-- A pipeline with the given settings, which opens its disk cache. -/
def openAt (files : FileTree) (s : Settings) : FileTree × Except Failure Pipeline :=
  let (files, disk) := DiskCache.openAt files s.cacheDirectory
  (files, disk.map fun disk =>
    ⟨s.moveThreshold, s.rebuildThreshold, disk, .new s, .empty, .new s.metricWindow⟩)

/-- Measure how long something takes, however it ends. -/
def timed {α : Type} (p : Pipeline) (now : Int) (operation : String)
    (f : Pipeline → Pipeline × α) : Pipeline × α :=
  let (monitor, timer) := Measurement.start p.monitor now (bytes operation)
  let (p, a) := f { p with monitor }
  ({ p with monitor := (timer.stop p.monitor now).1 }, a)

/-- Index a file anew. -/
def reindex (p : Pipeline) (filePath : Bytes) (chunks : List Chunk) : Pipeline :=
  { p with index := (p.index.rebuildFile filePath chunks).1 }

/-- Index a file anew if one of its chunks is not in the index. -/
def ensureIndexed (p : Pipeline) (filePath : Bytes) (chunks : List Chunk) : Pipeline :=
  if p.index.containsAll chunks then p else p.reindex filePath chunks

/-- Keep the chunks of a content in memory. -/
def keepInMemory (p : Pipeline) (now : Int) (filePath contentHash : Bytes) (chunks : List Chunk) :
    Pipeline :=
  { p with memory := p.memory.putChunks now filePath contentHash chunks }

/-- Look for the chunks of a content on disk. -/
def lookUp (p : Pipeline) (now : Int) (filePath : Bytes) (contentHash : Option Bytes) :
    Pipeline × CacheLookup :=
  let (disk, found) := p.disk.retrieve now filePath contentHash
  ({ p with disk }, found)

/-- The entry of the previous content, if the disk cache has one that can be read. -/
def previous? (p : Pipeline) (now : Int) (filePath : Bytes) (found : CacheLookup) :
    Pipeline × Option CacheEntry :=
  if found = .hashMismatch then
    let (p, found) := p.lookUp now filePath none
    (p, found.found?)
  else (p, none)

/-- Chunk a text by carrying out its differences from the previous content. -/
def update (p : Pipeline) (now : Int) (filePath text language : Bytes) (previous : CacheEntry) :
    Pipeline × Except Failure (List Chunk × ChunkSource) :=
  let (p, diff) := p.timed now "incremental.diff" fun p =>
    (p, (Language.named language).map fun l =>
      ChunkDiff.compute p.moveThreshold previous.chunks text l filePath)
  match diff with
  | .error f => (p, .error f)
  | .ok diff =>
    let chunks := diff.apply previous.chunks
    let cost := p.index.updateCost diff
    let p := { p with monitor := p.monitor.record now (bytes "incremental.update_cost") cost }
    if Scalar.le p.rebuildThreshold cost || !p.index.containsAll previous.chunks then
      (p.reindex filePath chunks, .ok (chunks, .update diff true))
    else
      ({ p with index := p.index.applyDiff now diff }, .ok (chunks, .update diff false))

/-- Chunk a text without regard to what came before. -/
def chunkAnew (p : Pipeline) (now : Int) (filePath text language : Bytes) (found : CacheLookup) :
    Pipeline × Except Failure (List Chunk × ChunkSource) :=
  p.timed now "incremental.chunk" fun p =>
    match Language.named language with
    | .error f => (p, .error f)
    | .ok l =>
      let chunks := chunkText l filePath text
      (p.reindex filePath chunks, .ok (chunks, .text found))

/-- Keep the chunks of a content in both caches, in memory in place of all else that is known of the
file. It does not matter whether there can be a file for them on disk. -/
def remember (p : Pipeline) (now : Int) (filePath contentHash language : Bytes)
    (chunks : List Chunk) : Pipeline × Except Failure Unit :=
  p.timed now "incremental.store" fun p =>
    let p := { p with memory := (p.memory.invalidateFile filePath).1 }
    let p := p.keepInMemory now filePath contentHash chunks
    let metadata := Json.ofMembers [(bytes "language", .string language)]
    let (disk, stored) := p.disk.store now filePath chunks contentHash metadata
    ({ p with disk }, stored.map fun _ => ())

/-- Chunk a text that neither cache has, and remember its chunks. -/
def processNew (p : Pipeline) (now : Int) (filePath text language contentHash : Bytes)
    (found : CacheLookup) : Pipeline × Except Failure ProcessedFile :=
  let (p, previous) := p.previous? now filePath found
  let (p, r) := match previous with
    | some e => p.update now filePath text language e
    | none => p.chunkAnew now filePath text language found
  match r with
  | .error f => (p, .error f)
  | .ok (chunks, source) =>
    let (p, stored) := p.remember now filePath contentHash language chunks
    (p, stored.map fun () => ⟨chunks, contentHash, source⟩)

/-- The chunks of a text of a file, and the index brought up to date. -/
def processText (p : Pipeline) (now : Int) (filePath text language : Bytes) :
    Pipeline × Except Failure ProcessedFile :=
  p.timed now "incremental.process_file" fun p =>
    let (p, contentHash) := p.timed now "incremental.hash" fun p => (p, Sha256.hexOf text)
    let (memory, cached) := p.memory.getChunks now filePath contentHash
    let p := { p with memory }
    match cached with
    | some chunks => (p.ensureIndexed filePath chunks, .ok ⟨chunks, contentHash, .memory⟩)
    | none =>
      let (p, found) := p.timed now "incremental.cache_lookup" fun p =>
        p.lookUp now filePath (some contentHash)
      match found.found? with
      | some e =>
        let p := p.ensureIndexed filePath e.chunks
        (p.keepInMemory now filePath contentHash e.chunks, .ok ⟨e.chunks, contentHash, .disk⟩)
      | none => p.processNew now filePath text language contentHash found

/-- The chunks of a file, whose language is told by its extension if it is not given. -/
def processFile (p : Pipeline) (now : Int) (path : Bytes) (language : Option Bytes) :
    Pipeline × Except Failure ProcessedFile :=
  let byExtension := (Language.ofExtension? (Path.extension path)).map Language.name
  let language := language.getD (byExtension.getD [])
  if language.isEmpty then (p, .error (.undeterminedLanguage path))
  else
    let (p, text) := p.timed now "incremental.read" fun p => (p, p.disk.files.readText path)
    match text with
    | .error f => (p, .error f)
    | .ok text => p.processText now path text language

/-- Drop all that is known of a file. -/
def forget (p : Pipeline) (filePath : Bytes) : Pipeline × Except Failure Unit :=
  let p := { p with memory := (p.memory.invalidateFile filePath).1 }
  let (disk, removed) := p.disk.invalidate filePath
  let p := { p with disk }
  match removed with
  | .error f => (p, .error f)
  | .ok _ => (p.reindex filePath [], .ok ())

end Pipeline

end SourceChunks
