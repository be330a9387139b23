import SourceChunks.Chunk
import SourceChunks.MemoryCache.Lru
import SourceChunks.Settings

/-!
# The memory cache

Chunk lists, query results and other values are kept in memory, in four bounded caches. A key tells
by what stands before its first colon which of them it belongs to, so a flood of one kind of entry
does not push out another kind. Keys of chunk lists and query results also name their file, so all
entries of a file can be dropped at once.
-/

namespace SourceChunks

/-- A value kept in memory. -/
inductive Cached where
  | text (t : Bytes)
  | chunks (cs : List Chunk)
  | ids (list : List Bytes)
  | number (n : Int)
  deriving DecidableEq

/-- About how many bytes a value takes: its texts, and a fixed size for each chunk, each id and a
number. -/
def Cached.byteSize : Cached → Nat
  | .text t => t.length
  | .chunks cs =>
    cs.length * 320 +
      cs.foldr (fun c total => c.content.length + c.filePath.length + c.id.length + total) 0
  | .ids list => list.length * 32 + list.foldr (fun id total => id.length + total) 0
  | .number _ => 16

/-- One of the caches. -/
inductive CacheLevel where
  | ast
  | chunk
  | query
  | default
  deriving DecidableEq, Repr

namespace CacheLevel

/-- The caches in the order of their names. -/
def all : List CacheLevel := [.ast, .chunk, .default, .query]

/-- The name of a cache. -/
def name : CacheLevel → Bytes
  | .ast => bytes "ast"
  | .chunk => bytes "chunk"
  | .query => bytes "query"
  | .default => bytes "default"

/-- The cache that a key belongs to. -/
def ofKey (key : Bytes) : CacheLevel :=
  if ¬ key.contains 0x3A then .default
  else
    let start := key.takeWhile (· != 0x3A)
    ([CacheLevel.ast, .chunk, .query].find? fun l => l.name = start).getD .default

end CacheLevel

/-- The caches that are kept in memory. -/
structure MemoryCache where
  /-- Syntax trees. -/
  ast : Lru Cached
  /-- Chunk lists. -/
  chunk : Lru Cached
  /-- Query results. -/
  query : Lru Cached
  /-- Everything else. -/
  default : Lru Cached
  deriving DecidableEq

namespace MemoryCache

/-- Empty caches of the sizes and with the lifetime that are set. -/
def new (s : Settings) : MemoryCache :=
  ⟨.new s.astCacheSize s.defaultTtlSeconds, .new s.chunkCacheSize s.defaultTtlSeconds,
    .new s.queryCacheSize s.defaultTtlSeconds, .new s.defaultCacheSize s.defaultTtlSeconds⟩

/-- One of the caches. -/
def level (m : MemoryCache) : CacheLevel → Lru Cached
  | .ast => m.ast
  | .chunk => m.chunk
  | .query => m.query
  | .default => m.default

/-- Replace one of the caches. -/
def setLevel (m : MemoryCache) (c : Lru Cached) : CacheLevel → MemoryCache
  | .ast => { m with ast := c }
  | .chunk => { m with chunk := c }
  | .query => { m with query := c }
  | .default => { m with default := c }

/-- Change one of the caches and answer. -/
def onLevel {α : Type} (m : MemoryCache) (l : CacheLevel) (f : Lru Cached → Lru Cached × α) :
    MemoryCache × α :=
  let (c, a) := f (m.level l)
  (m.setLevel c l, a)

/-- Change each of the caches and answer the sum of the answers. -/
def onAllLevels (m : MemoryCache) (f : Lru Cached → Lru Cached × Nat) : MemoryCache × Nat :=
  CacheLevel.all.foldl (fun (m, total) l =>
    let (m, n) := m.onLevel l f
    (m, total + n)) (m, 0)

/-- The sum of a number over the caches. -/
def total (m : MemoryCache) (f : Lru Cached → Nat) : Nat :=
  CacheLevel.all.foldr (fun l sum => f (m.level l) + sum) 0

/-- Read the value under a key. -/
def get (m : MemoryCache) (now : Int) (key : Bytes) : MemoryCache × Option Cached :=
  m.onLevel (.ofKey key) fun c => c.get now key

/-- Put a value under a key. -/
def put (m : MemoryCache) (now : Int) (key : Bytes) (value : Cached) (ttlSeconds : Int) :
    MemoryCache :=
  let l := CacheLevel.ofKey key
  m.setLevel ((m.level l).put now key value value.byteSize ttlSeconds) l

/-- Remove the entry under a key; the answer tells whether there was one. -/
def invalidate (m : MemoryCache) (key : Bytes) : MemoryCache × Bool :=
  m.onLevel (.ofKey key) fun c => c.invalidate key

/-- Remove the entries whose keys match a pattern; the answer is how many are gone. -/
def invalidatePattern (m : MemoryCache) (pattern : Bytes) : MemoryCache × Nat :=
  let g := Glob.parse pattern
  m.onAllLevels fun c => c.invalidatePattern g

/-- Remove the entries that have outlived their lifetimes; the answer is how many are gone. -/
def evictExpired (m : MemoryCache) (now : Int) : MemoryCache × Nat :=
  m.onAllLevels fun c => c.evictExpired now

/-- Remove all entries. -/
def clear (m : MemoryCache) : MemoryCache := (m.onAllLevels fun c => (c.clear, 0)).1

/-- The number of entries. -/
def size (m : MemoryCache) : Nat := m.total Lru.size

/-- About how many bytes all entries take. -/
def byteSize (m : MemoryCache) : Nat := m.total Lru.bytes

/-- The share of reads that found a value. -/
def hitRate {α : Type} [Scalar α] (m : MemoryCache) : α :=
  Lru.rate (m.total Lru.hits) (m.total Lru.misses)

/-! ## Entries of files -/

/-- The key of the chunk list of a file whose content has a hash. -/
def chunksKey (filePath contentHash : Bytes) : Bytes :=
  bytes "chunk:" ++ filePath ++ bytes ":" ++ contentHash

/-- The key of the result of a query in a file. -/
def queryKey (filePath query : Bytes) : Bytes :=
  bytes "query:" ++ filePath ++ bytes ":" ++ query

/-- Keep the chunk list of a file whose content has a hash. -/
def putChunks (m : MemoryCache) (now : Int) (filePath contentHash : Bytes) (chunks : List Chunk) :
    MemoryCache :=
  m.put now (chunksKey filePath contentHash) (.chunks chunks) 0

/-- The chunk list that is kept for a file whose content has a hash. -/
def getChunks (m : MemoryCache) (now : Int) (filePath contentHash : Bytes) :
    MemoryCache × Option (List Chunk) :=
  let (m, value) := m.get now (chunksKey filePath contentHash)
  (m, value.bind fun v => match v with | .chunks cs => some cs | _ => none)

/-- Keep the result of a query in a file. -/
def putQuery (m : MemoryCache) (now : Int) (filePath query : Bytes) (ids : List Bytes) :
    MemoryCache :=
  m.put now (queryKey filePath query) (.ids ids) 0

/-- The result that is kept of a query in a file. -/
def getQuery (m : MemoryCache) (now : Int) (filePath query : Bytes) :
    MemoryCache × Option (List Bytes) :=
  let (m, value) := m.get now (queryKey filePath query)
  (m, value.bind fun v => match v with | .ids list => some list | _ => none)

/-- The pattern of the keys that name a file between two colons. -/
def filePattern (filePath : Bytes) : Bytes :=
  bytes "*:" ++ Glob.escape filePath ++ bytes ":*"

/-- Drop the entries whose keys name a file; the answer is how many are gone. -/
def invalidateFile (m : MemoryCache) (filePath : Bytes) : MemoryCache × Nat :=
  m.invalidatePattern (filePattern filePath)

end MemoryCache

end SourceChunks
