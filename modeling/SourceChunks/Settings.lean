import SourceChunks.FileTree.Access
import SourceChunks.Json.Field
import SourceChunks.Json.Parser
import SourceChunks.Json.Printer

/-!
# Settings

What can be set, with defaults, and the file that settings are read from. A file that cannot be
understood in full is ignored in full.
-/

namespace SourceChunks

/-- The settings of the program. -/
structure Settings where
  /-- The directory of the cache. -/
  cacheDirectory : Bytes
  /-- How many free resources of each type are kept. -/
  maxPoolSize : Nat
  /-- How many files of a batch are worked on at a time. -/
  maxWorkers : Nat
  /-- How many files a batch has. -/
  batchSize : Nat
  /-- How similar two chunks must be to count as one that moved. -/
  moveThreshold : Float
  /-- The cost of an update from which on the records of a file are rebuilt. -/
  rebuildThreshold : Float
  /-- How many samples of each metric are kept. -/
  metricWindow : Nat
  /-- The size of the memory cache of syntax trees. -/
  astCacheSize : Nat
  /-- The size of the memory cache of chunk lists. -/
  chunkCacheSize : Nat
  /-- The size of the memory cache of query results. -/
  queryCacheSize : Nat
  /-- The size of the memory cache of everything else. -/
  defaultCacheSize : Nat
  /-- How long entries of the memory cache live; they live for ever if it is not positive. -/
  defaultTtlSeconds : Int
  /-- Whether to report more. -/
  verbose : Bool

namespace Settings

/-- The settings that hold where nothing is set. -/
def defaults : Settings where
  cacheDirectory := bytes ".chunkr_cache"
  maxPoolSize := 50
  maxWorkers := 4
  batchSize := 20
  moveThreshold := 0.85
  rebuildThreshold := 1.0
  metricWindow := 1000
  astCacheSize := 100
  chunkCacheSize := 500
  queryCacheSize := 200
  defaultCacheSize := 100
  defaultTtlSeconds := 0
  verbose := false

instance : Inhabited Settings := ⟨defaults⟩

/-- A member that has a default; what is not an object has no members. -/
def setting? {α : Type} (v : Json) (key : String) (read? : Json → Option α) (default : α) :
    Option α :=
  match v.member? (bytes key) with
  | none => some default
  | some m => read? m

/-- The settings of a document, if all that it sets has the right form. -/
def ofJson? (v : Json) : Option Settings := do
  let d := defaults
  let float? (m : Json) : Option Float := m.double?.map Binary64.toFloat
  return {
    cacheDirectory := ← setting? v "cache_dir" Json.text? d.cacheDirectory
    maxPoolSize := ← setting? v "max_pool_size" Json.nat64? d.maxPoolSize
    maxWorkers := ← setting? v "max_workers" Json.nat64? d.maxWorkers
    batchSize := ← setting? v "batch_size" Json.nat64? d.batchSize
    moveThreshold := ← setting? v "move_similarity_threshold" float? d.moveThreshold
    rebuildThreshold := ← setting? v "rebuild_cost_threshold" float? d.rebuildThreshold
    metricWindow := ← setting? v "metric_window" Json.nat64? d.metricWindow
    astCacheSize := ← setting? v "ast_cache_size" Json.nat64? d.astCacheSize
    chunkCacheSize := ← setting? v "chunk_cache_size" Json.nat64? d.chunkCacheSize
    queryCacheSize := ← setting? v "query_cache_size" Json.nat64? d.queryCacheSize
    defaultCacheSize := ← setting? v "default_cache_size" Json.nat64? d.defaultCacheSize
    defaultTtlSeconds := ← setting? v "default_ttl_seconds" Json.int64? d.defaultTtlSeconds
    verbose := ← setting? v "verbose" Json.truth? d.verbose }

/-- The settings with at least one worker and at least one file in a batch. -/
def atLeastOne (s : Settings) : Settings :=
  { s with maxWorkers := max s.maxWorkers 1, batchSize := max s.batchSize 1 }

/-- The settings of the file at a path; the defaults if there is none or it has not the right
form. -/
def load (t : FileTree) (path : Bytes) : Settings :=
  match t.read? path with
  | none => defaults
  | some content =>
    match (Json.parse? content).bind ofJson? with
    | none => defaults
    | some s => s.atLeastOne

/-- The document of settings. -/
def toJson (s : Settings) : Json :=
  let double (x : Float) : Json := .double (.ofFloat x)
  Json.ofMembers
    [(bytes "cache_dir", .string s.cacheDirectory), (bytes "max_pool_size", .int s.maxPoolSize),
      (bytes "max_workers", .int s.maxWorkers), (bytes "batch_size", .int s.batchSize),
      (bytes "move_similarity_threshold", double s.moveThreshold),
      (bytes "rebuild_cost_threshold", double s.rebuildThreshold),
      (bytes "metric_window", .int s.metricWindow), (bytes "ast_cache_size", .int s.astCacheSize),
      (bytes "chunk_cache_size", .int s.chunkCacheSize),
      (bytes "query_cache_size", .int s.queryCacheSize),
      (bytes "default_cache_size", .int s.defaultCacheSize),
      (bytes "default_ttl_seconds", .int s.defaultTtlSeconds), (bytes "verbose", .bool s.verbose)]

/-- Write settings to a file. Where no file can be nothing is written, and nobody looks whether the
disk takes the text. -/
def save (s : Settings) (t : FileTree) (path : Bytes) : FileTree × Except Failure Unit :=
  let text := s.toJson.pretty? 4
  let outcome := if text.isSome then .ok () else .error .malformedDocument
  match t.writeText .roomy path text with
  | .unopened => (t, outcome)
  | .malformed t | .unfinished t | .finished t => (t, outcome)

end Settings

end SourceChunks
