import SourceChunks.DiskCache

/-!
# Exchanging disk caches

The content of a cache can be put into one document, and a cache can take over the content of such a
document. Nothing changes unless every entry of the document can be understood.
-/

namespace SourceChunks.DiskCache

/-- The document of a cache. Entries that cannot be read are left out. -/
def exportDocument (c : DiskCache) (now : Int) : Json :=
  let entries := c.records.entries.filterMap fun r =>
    (c.readEntry now r.1 r.2).found?.map fun e => (r.1, e.toJson)
  Json.ofMembers
    [(bytes "index", CacheRecord.indexToJson c.records),
      (bytes "entries", Json.ofMembers entries)]

/-- Write the document of a cache to a file. -/
def exportTo (c : DiskCache) (now : Int) (path : Bytes) : DiskCache × Except Failure Unit :=
  match c.files.writeText c.device path ((c.exportDocument now).pretty? 2) with
  | .unopened => (c, .error (.unwritableExport ⟨path, false⟩))
  | .malformed files => ({ c with files }, .error .malformedDocument)
  | .unfinished files => ({ c with files }, .error (.unwritableExport ⟨path, true⟩))
  | .finished files => ({ c with files }, .ok ())

/-- The entries of a document. -/
def entriesOf (now : Int) (document : Json) : Except Failure (List CacheEntry) :=
  match document.member? (bytes "entries") with
  | some (.object entries) =>
    match entries.mapM fun e => CacheEntry.ofJson? now e.1 e.2 with
    | some es => .ok es
    | none => .error .malformedImport
  | _ => .error .importWithoutEntries

/-- Write entries one after another; the answer is how many could be written. -/
def writeEntries : (c : DiskCache) → List CacheEntry → DiskCache × Except Failure Nat
  | c, [] => (c, .ok 0)
  | c, e :: rest =>
    match c.writeEntry e with
    | (c, .error f) => (c, .error f)
    | (c, .ok false) => writeEntries { c with counts.errors := c.counts.errors + 1 } rest
    | (c, .ok true) =>
      let (c, written) := writeEntries { c with counts.stores := c.counts.stores + 1 } rest
      (c, written.map (· + 1))

/-- Replace all entries of a cache by those of a document; the answer is how many there are. -/
def importDocument (c : DiskCache) (now : Int) (document : Json) :
    DiskCache × Except Failure Nat :=
  match entriesOf now document with
  | .error f => (c, .error f)
  | .ok entries =>
    match (c.records.keys.foldl removeEntry c).writeEntries entries with
    | (c, .error f) => (c, .error f)
    | (c, .ok n) =>
      let (c, saved) := c.saveIndex
      (c, saved.map fun () => n)

/-- Replace all entries of a cache by those of the document in a file. -/
def importFrom (c : DiskCache) (now : Int) (path : Bytes) : DiskCache × Except Failure Nat :=
  match c.files.read? path with
  | none => (c, .error (.unreadableImport path))
  | some text =>
    match Json.parse? text with
    | none => (c, .error (.unparsableImport path))
    | some document => c.importDocument now document

end SourceChunks.DiskCache
