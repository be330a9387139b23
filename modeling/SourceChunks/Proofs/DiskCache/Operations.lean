import Mathlib.Algebra.Group.Int.Defs
import SourceChunks.Proofs.DiskCache.Refinement
import SourceChunks.Proofs.Instant

/-!
# What a disk cache answers

A run of a cache is a list of operations, among them the opening of its directory. A cache that is
new answers as a map from paths to entries does, whichever operations are carried out in whichever
order. Only the time of an entry may be lost: what was stored in the last second before 1970 is
shown with the time of the look-up and counts as older than any instant.
-/

namespace SourceChunks

/-- What may be asked of a cache. Times are in nanoseconds. -/
inductive CacheOperation where
  /-- The chunks of a file are stored. -/
  | store (now : Int) (filePath : Bytes) (chunks : List Chunk) (contentHash : Bytes)
    (metadata : Json)
  /-- A file is looked up. -/
  | retrieve (now : Int) (filePath : Bytes) (contentHash : Option Bytes)
  /-- A file is removed. -/
  | invalidate (filePath : Bytes)
  /-- The files that were stored before an instant are removed. -/
  | invalidateOlder (limit : Instant)
  /-- All files are removed. -/
  | invalidateAll
  /-- The directory is opened again. -/
  | reopen

/-- What a cache answers. -/
inductive CacheAnswer where
  /-- Whether chunks were stored. -/
  | stored (written : Bool)
  /-- What was found. -/
  | found (result : CacheLookup)
  /-- How many files were removed. -/
  | removed (count : Nat)
  /-- The directory was opened. -/
  | opened
  /-- An operation failed. -/
  | failed (failure : Failure)
  deriving DecidableEq

/-- The answer to an operation that may fail. -/
def CacheAnswer.of {α : Type} (answer : α → CacheAnswer) : Except Failure α → CacheAnswer
  | .ok a => answer a
  | .error f => .failed f

namespace DiskCache

/-- Open the directory of a cache again. -/
def reopen (c : DiskCache) : DiskCache × Except Failure Unit :=
  match openAt c.files c.directory c.device with
  | (files, .error f) => ({ c with files }, .error f)
  | (_, .ok c) => (c, .ok ())

/-- Carry out an operation. -/
def perform (c : DiskCache) : CacheOperation → DiskCache × CacheAnswer
  | .store now filePath chunks contentHash metadata =>
    (c.store now filePath chunks contentHash metadata).map id (.of .stored)
  | .retrieve now filePath contentHash => (c.retrieve now filePath contentHash).map id .found
  | .invalidate filePath => (c.invalidate filePath).map id (.of .removed)
  | .invalidateOlder limit => (c.invalidateOlder limit).map id (.of .removed)
  | .invalidateAll => c.invalidateAll.map id (.of .removed)
  | .reopen => c.reopen.map id (.of fun _ => .opened)

end DiskCache

namespace CacheOperation

/-- The answers of a machine to operations that it carries out one after another. -/
def answers {σ : Type} (step : σ → CacheOperation → σ × CacheAnswer) :
    σ → List CacheOperation → List CacheAnswer
  | _, [] => []
  | s, op :: rest => (step s op).2 :: answers step (step s op).1 rest

/-- Two machines whose states stay related and that answer alike then give the same answers. -/
theorem answers_eq {σ τ : Type} {step : σ → CacheOperation → σ × CacheAnswer}
    {step' : τ → CacheOperation → τ × CacheAnswer} {related : σ → τ → Prop}
    {ops : List CacheOperation}
    (hstep : ∀ op ∈ ops, ∀ s t, related s t →
      (step s op).2 = (step' t op).2 ∧ related (step s op).1 (step' t op).1)
    {s : σ} {t : τ} (h : related s t) : answers step s ops = answers step' t ops := by
  induction ops generalizing s t with
  | nil => rfl
  | cons op rest ih =>
    obtain ⟨hanswer, hrelated⟩ := hstep op (List.mem_cons_self ..) s t h
    have hrest := ih (fun op hop => hstep op (List.mem_cons_of_mem _ hop)) hrelated
    rw [answers, answers, hanswer, hrest]

/-- What an operation does to a map from paths to entries, and its answer. The time of an entry is
known later only as far as `known` tells. -/
def onMap (known : Instant → Option Instant) (d : Dict CacheEntry) :
    CacheOperation → Dict CacheEntry × CacheAnswer
  | .store now filePath chunks contentHash metadata =>
    (d.insert filePath (.ofChunks now filePath chunks contentHash metadata), .stored true)
  | .retrieve now filePath contentHash =>
    (d, .found <| match d.get? filePath with
      | none => .notFound
      | some e =>
        if contentHash.any (· ≠ e.contentHash) then .hashMismatch
        else .hit { e with timestamp := (known e.timestamp).getD (.ofNanos now) })
  | .invalidate filePath => (d.erase filePath, .removed (if d.contains filePath then 1 else 0))
  | .invalidateOlder limit =>
    let isOlder (e : CacheEntry) : Bool := (known e.timestamp).all fun t => t.micros < limit.micros
    (d.filter fun _ e => !isOlder e, .removed (d.filter fun _ e => isOlder e).size)
  | .invalidateAll => (Dict.empty, .removed d.size)
  | .reopen => (d, .opened)

/-- The path under which an operation stores chunks, if it does. -/
def storedPath? : CacheOperation → Option Bytes
  | .store _ filePath _ _ _ => some filePath
  | _ => none

/-- The paths under which chunks are stored. -/
def storedPaths (ops : List CacheOperation) : Set Bytes := {f | f ∈ ops.filterMap storedPath?}

end CacheOperation

/-! ## What is known of an entry -/

/-- What can be told later of the time of an entry. -/
def Instant.told? (t : Instant) : Option Instant := if t.InLastSecond then none else some t

/-- An entry of which nothing is lost but perhaps its time. -/
structure CacheEntry.Complete (e : CacheEntry) : Prop where
  /-- Its time is one that the clock can tell. -/
  dated : e.timestamp.Dated
  /-- Each chunk says of which file it is. -/
  filePath : ∀ c ∈ e.chunks, c.filePath ≠ []
  /-- Each chunk says in which language it is. -/
  language : ∀ c ∈ e.chunks, c.language ≠ []

/-- What a clock tells that counts nanoseconds in 64 bits is an instant that it can tell. -/
theorem Instant.dated_ofNanos {now : Int} (hlow : -2 ^ 63 ≤ now) (hhigh : now < 2 ^ 63) :
    (Instant.ofNanos now).Dated := by
  have hmicros : (Instant.ofNanos now).micros =
      now / 1000 + if 0 ≤ now ∨ 1000 ∣ now then 0 else 1 := Int.tdiv_eq_ediv
  constructor <;> split at hmicros <;> omega

namespace CacheEntry.Complete

variable {e : CacheEntry}

/-- What is read back of a complete entry. -/
theorem restored_eq (h : e.Complete) (now : Int) :
    e.restored now = { e with timestamp := e.timestamp.told?.getD (.ofNanos now) } := by
  have hchunks : e.chunks.map (complete e.filePath e.language) = e.chunks := by
    refine (List.map_congr_left ?_).trans (List.map_id' _)
    intro c hc
    have hpath : (if c.filePath.isEmpty then e.filePath else c.filePath) = c.filePath :=
      if_neg fun hempty => h.filePath c hc (List.isEmpty_iff.mp hempty)
    have hlanguage : (if c.language.isEmpty then e.language else c.language) = c.language :=
      if_neg fun hempty => h.language c hc (List.isEmpty_iff.mp hempty)
    rw [CacheEntry.complete, hpath, hlanguage]
  rw [restored, hchunks, Instant.ofText?_toText h.dated, Instant.told?]

/-- The record of an entry is older than an instant if the time of the entry is or is not known. -/
theorem isOlder_ofEntry (h : e.Complete) (limit : Instant) :
    DiskCache.isOlder limit (.ofEntry e) =
      e.timestamp.told?.all fun t => t.micros < limit.micros := by
  rw [DiskCache.isOlder, CacheRecord.ofEntry, Instant.ofText?_toText h.dated, Instant.told?]

end CacheEntry.Complete

/-! ## The cache and the map -/

namespace DiskCache

variable {c : DiskCache} {paths : Set Bytes} {d : Dict CacheEntry}

/-- A cache stands for a dictionary of complete entries. -/
structure Models (c : DiskCache) (paths : Set Bytes) (d : Dict CacheEntry) : Prop where
  /-- The index and the blobs hold the entries. -/
  represents : c.Represents paths d.get?
  /-- The entries are complete. -/
  complete : ∀ f e, d.get? f = some e → e.Complete

/-- The records of entries that satisfy a test are under the paths of the entries. -/
theorem Models.keys_filter_records (h : c.Models paths d) {p : CacheRecord → Bool}
    {q : CacheEntry → Bool} (hpq : ∀ f e, d.get? f = some e → p (.ofEntry e) = q e) :
    (c.records.filter fun _ r => p r).keys = (d.filter fun _ e => q e).keys := by
  apply Dict.keys_eq_of_isSome
  intro f
  rw [Dict.get?_filter, Dict.get?_filter, h.represents.records]
  cases he : d.get? f with
  | none => rfl
  | some e =>
    have htest := hpq f e he
    cases hq : q e <;> simp [Option.filter, htest, hq]

/-- An operation that removes files from the cache leaves those of the dictionary that are not among
them. -/
theorem Models.removeAll (h : c.Models paths d) (hnames : Set.InjOn CacheEntry.blobName paths)
    {fs : List Bytes} {d' : Dict CacheEntry}
    (hd' : ∀ f, d'.get? f = if f ∈ fs then none else d.get? f) :
    ∃ c', c.removeAll fs = (c', .ok fs.length) ∧ c'.Models paths d' := by
  obtain ⟨c', hremove, -, hrepresents⟩ := h.represents.removeAll hnames fs
  refine ⟨c', hremove, ?_, ?_⟩
  · rwa [← funext hd'] at hrepresents
  · intro f e he
    rw [hd' f] at he
    split at he
    · exact absurd he nofun
    · exact h.complete f e he

/-- A file that is removed is counted if it has an entry. -/
theorem Models.invalidate (h : c.Models paths d) (hnames : Set.InjOn CacheEntry.blobName paths)
    (f : Bytes) : ∃ c', c.invalidate f = (c', .ok (if d.contains f then 1 else 0)) ∧
      c'.Models paths (d.erase f) := by
  have hcontains : c.records.contains f = d.contains f := by
    rw [Dict.contains, Dict.contains, h.represents.records, Option.isSome_map]
  have hget (g : Bytes) : (d.erase f).get? g =
      if g ∈ (if d.contains f then [f] else []) then none else d.get? g := by
    rw [Dict.get?_erase, Dict.contains]
    by_cases hg : g = f
    · cases he : d.get? f <;> simp [hg, he]
    · cases he : d.get? f <;> simp [hg]
  obtain ⟨c', hremove, hmodels⟩ := h.removeAll hnames hget
  refine ⟨c', ?_, hmodels⟩
  have hcount : (if d.contains f then [f] else []).length = if d.contains f then 1 else 0 := by
    split <;> rfl
  rw [DiskCache.invalidate, hcontains, hremove, hcount]

/-- The files that are removed because they are older than an instant are those of which nothing
later is known. -/
theorem Models.invalidateOlder (h : c.Models paths d)
    (hnames : Set.InjOn CacheEntry.blobName paths) (limit : Instant) :
    let isOlder (e : CacheEntry) : Bool := e.timestamp.told?.all fun t => t.micros < limit.micros
    ∃ c', c.invalidateOlder limit = (c', .ok (d.filter fun _ e => isOlder e).size) ∧
      c'.Models paths (d.filter fun _ e => !isOlder e) := by
  intro isOlder
  have hkeys : (c.records.filter fun _ r => DiskCache.isOlder limit r).keys =
      (d.filter fun _ e => isOlder e).keys :=
    h.keys_filter_records fun f e he => (h.complete f e he).isOlder_ofEntry limit
  obtain ⟨c', hremove, hmodels⟩ := h.removeAll hnames (Dict.get?_filter_not d isOlder)
  refine ⟨c', ?_, hmodels⟩
  rw [DiskCache.invalidateOlder, hkeys, hremove, Dict.length_keys]

/-- When all files are removed no entry is left. -/
theorem Models.invalidateAll (h : c.Models paths d)
    (hnames : Set.InjOn CacheEntry.blobName paths) :
    ∃ c', c.invalidateAll = (c', .ok d.size) ∧ c'.Models paths Dict.empty := by
  have hkeys : c.records.keys = d.keys := by
    apply Dict.keys_eq_of_isSome
    intro f
    rw [h.represents.records, Option.isSome_map]
  have hget (g : Bytes) : (Dict.empty : Dict CacheEntry).get? g =
      if g ∈ d.keys then none else d.get? g := by
    cases he : d.get? g with
    | none => rw [ite_self, Dict.get?_empty]
    | some e => rw [if_pos (Dict.mem_keys_iff.mpr ⟨e, he⟩), Dict.get?_empty]
  obtain ⟨c', hremove, hmodels⟩ := h.removeAll hnames hget
  refine ⟨c', ?_, hmodels⟩
  rw [DiskCache.invalidateAll, hkeys, hremove, Dict.length_keys]

/-- Chunks that are stored become the entry of their file. -/
theorem Models.store (h : c.Models paths d) (hnames : Set.InjOn CacheEntry.blobName paths)
    {now : Int} {f : Bytes} (hf : f ∈ paths) {chunks : List Chunk} {contentHash : Bytes}
    {metadata : Json}
    (hstorable : (CacheEntry.ofChunks now f chunks contentHash metadata).Storable)
    (hcomplete : (CacheEntry.ofChunks now f chunks contentHash metadata).Complete) :
    ∃ c', c.store now f chunks contentHash metadata = (c', .ok true) ∧
      c'.Models paths (d.insert f (.ofChunks now f chunks contentHash metadata)) := by
  obtain ⟨c', hstore, -, hrepresents⟩ := h.represents.store hnames now hf hstorable
  refine ⟨c', hstore, ?_, ?_⟩
  · have hget : Function.update d.get? f (some (.ofChunks now f chunks contentHash metadata)) =
        (d.insert f (.ofChunks now f chunks contentHash metadata)).get? := by
      funext g
      rw [Function.update_apply, Dict.get?_insert]
    rwa [hget] at hrepresents
  · intro g e he
    rw [Dict.get?_insert] at he
    split at he
    · obtain rfl := Option.some.inj he
      exact hcomplete
    · exact h.complete g e he

/-- A look-up finds the entry of the file. -/
theorem Models.lookup_eq (h : c.Models paths d) (now : Int) (f : Bytes)
    (contentHash : Option Bytes) : c.lookup now f contentHash = match d.get? f with
      | none => .notFound
      | some e =>
        if contentHash.any (· ≠ e.contentHash) then .hashMismatch
        else .hit { e with timestamp := e.timestamp.told?.getD (.ofNanos now) } := by
  rw [h.represents.lookup_eq]
  cases he : d.get? f with
  | none => rfl
  | some e => simp only [(h.complete f e he).restored_eq]

/-- What was opened again stands for the same dictionary. -/
theorem Models.reopen (h : c.Models paths d) :
    ∃ c', c.reopen = (c', .ok ()) ∧ c'.Models paths d := by
  obtain ⟨c', hopen, -, -, hrepresents⟩ := h.represents.openAt h.represents.takes
  refine ⟨c', ?_, hrepresents, h.complete⟩
  rw [DiskCache.reopen, hopen]

/-! ## Runs -/

/-- What is stored can be read back: its texts are well-formed, each chunk says of which file and in
which language it is, and the clock counts nanoseconds in 64 bits. -/
def CanReadBack : CacheOperation → Prop
  | .store now filePath chunks contentHash metadata =>
    (-2 ^ 63 ≤ now ∧ now < 2 ^ 63) ∧
      (CacheEntry.ofChunks now filePath chunks contentHash metadata).Storable ∧
      ∀ c ∈ chunks, c.filePath ≠ [] ∧ c.language ≠ []
  | _ => True

/-- A cache that was opened where there are no records. -/
structure IsNew (c : DiskCache) : Prop where
  openAt_eq : ∃ files directory files', openAt files directory = (files', .ok c)
  records_eq : c.records = Dict.empty

/-- A cache in normal use: it was opened where there are no records, its files can be written, and
what is stored in it can be read back. -/
structure NormalUse (c : DiskCache) (ops : List CacheOperation) : Prop where
  isNew : c.IsNew
  writable : ∀ n ∈ fileNames (CacheOperation.storedPaths ops), c.files.CanWrite c.directory n
  canReadBack : ∀ op ∈ ops, CanReadBack op

/-- At first the cache stands for the empty dictionary. -/
theorem NormalUse.models {ops : List CacheOperation} (h : c.NormalUse ops) :
    c.Models (CacheOperation.storedPaths ops) Dict.empty := by
  obtain ⟨⟨files, directory, files', hopen⟩, hrecords⟩ := h.isNew
  exact ⟨represents_of_openAt hopen hrecords h.writable, nofun⟩

/-- An operation has the same answer and the same effect for the cache and for the dictionary. -/
theorem NormalUse.perform_onMap {ops : List CacheOperation} {c₀ : DiskCache}
    (huse : c₀.NormalUse ops)
    (hnames : Set.InjOn CacheEntry.blobName (CacheOperation.storedPaths ops))
    {op : CacheOperation} (hop : op ∈ ops) (h : c.Models (CacheOperation.storedPaths ops) d) :
    (c.perform op).2 = (op.onMap Instant.told? d).2 ∧
      (c.perform op).1.Models (CacheOperation.storedPaths ops) (op.onMap Instant.told? d).1 := by
  cases op with
  | store now f chunks contentHash metadata =>
    obtain ⟨⟨hlow, hhigh⟩, hstorable, hnamed⟩ := huse.canReadBack _ hop
    have hpath : f ∈ CacheOperation.storedPaths ops := List.mem_filterMap.mpr ⟨_, hop, rfl⟩
    have hcomplete : (CacheEntry.ofChunks now f chunks contentHash metadata).Complete :=
      ⟨Instant.dated_ofNanos hlow hhigh, fun c hc => (hnamed c hc).1, fun c hc => (hnamed c hc).2⟩
    obtain ⟨c', hstore, hmodels⟩ := h.store hnames hpath hstorable hcomplete
    rw [perform, hstore]
    exact ⟨rfl, hmodels⟩
  | retrieve now f contentHash =>
    have hlookup := h.lookup_eq now f contentHash
    refine ⟨congrArg CacheAnswer.found hlookup, h.represents.with_counts _, h.complete⟩
  | invalidate f =>
    obtain ⟨c', hremove, hmodels⟩ := h.invalidate hnames f
    rw [perform, hremove]
    exact ⟨rfl, hmodels⟩
  | invalidateOlder limit =>
    obtain ⟨c', hremove, hmodels⟩ := h.invalidateOlder hnames limit
    rw [perform, hremove]
    exact ⟨rfl, hmodels⟩
  | invalidateAll =>
    obtain ⟨c', hremove, hmodels⟩ := h.invalidateAll hnames
    rw [perform, hremove]
    exact ⟨rfl, hmodels⟩
  | reopen =>
    obtain ⟨c', hopen, hmodels⟩ := h.reopen
    rw [perform, hopen]
    exact ⟨rfl, hmodels⟩

/-- Where blobs have distinct names, a cache in normal use answers as the dictionary does. -/
theorem NormalUse.answers_eq {ops : List CacheOperation} (huse : c.NormalUse ops)
    (hnames : Set.InjOn CacheEntry.blobName (CacheOperation.storedPaths ops)) :
    CacheOperation.answers perform c ops =
      CacheOperation.answers (CacheOperation.onMap Instant.told?) Dict.empty ops :=
  CacheOperation.answers_eq (fun _ hop _ _ => huse.perform_onMap hnames hop) huse.models

/-- Blobs have distinct names where the hashes of their paths do not collide. -/
theorem injOn_blobName (hpaths : Set.InjOn Sha256.hexOf paths) :
    Set.InjOn CacheEntry.blobName paths :=
  fun _ hf _ hg heq => hpaths hf hg (List.append_cancel_right heq)

/-- A cache in normal use answers every run as a map from paths to entries does, of whose entries
the times are known except for those of the last second before 1970. -/
theorem answers_perform {ops : List CacheOperation} (huse : c.NormalUse ops)
    (hpaths : Set.InjOn Sha256.hexOf (CacheOperation.storedPaths ops)) :
    CacheOperation.answers perform c ops =
      CacheOperation.answers (CacheOperation.onMap Instant.told?) Dict.empty ops :=
  huse.answers_eq (injOn_blobName hpaths)

/-! ## A cache that is new -/

/-- The cache that is opened where there are no files. -/
def fresh : DiskCache :=
  ⟨.directory [(bytes "cache", .empty)], bytes "cache", Dict.empty, .zero, .roomy⟩

/-- The cache opened where there are no files is a new one. -/
theorem isNew_fresh : fresh.IsNew := ⟨⟨.empty, bytes "cache", _, rfl⟩, rfl⟩

/-- It is in normal use as long as nothing is stored but what can be read back of one file. -/
theorem normalUse_fresh {ops : List CacheOperation}
    (hpaths : ∀ f ∈ CacheOperation.storedPaths ops, f = bytes "a")
    (hops : ∀ op ∈ ops, CanReadBack op) : fresh.NormalUse ops where
  isNew := isNew_fresh
  writable := by
    rintro n (rfl | rfl | ⟨f, hf, rfl⟩)
    · decide +kernel
    · decide +kernel
    · rw [hpaths f hf]
      decide +kernel
  canReadBack := hops

/-- The hash of one path does not collide. -/
theorem injOn_hexOf_of_forall_eq (hpaths : ∀ f ∈ paths, f = bytes "a") :
    Set.InjOn Sha256.hexOf paths := by
  intro f hf g hg _
  rw [hpaths f hf, hpaths g hg]

/-- A chunk that says all there is to say. -/
def fullChunk : Chunk where
  language := bytes "c"
  filePath := bytes "b"
  nodeType := bytes "block"
  startLine := -1
  endLine := 7
  byteStart := 3
  byteEnd := 2
  parentContext := bytes "struct s"
  content := bytes "int x;\n"
  id := bytes "id"
  parentId := some (bytes "s")
  references := [bytes "x", bytes "x"]
  dependencies := [bytes "y"]
  metadata := .array [.null, .bool true]

/-- The chunk of the example can be stored. -/
theorem storable_fullChunk : fullChunk.Storable where
  id_utf8 := by decide +kernel
  language_utf8 := by decide +kernel
  filePath_utf8 := by decide +kernel
  nodeType_utf8 := by decide +kernel
  parentContext_utf8 := by decide +kernel
  content_utf8 := by decide +kernel
  parentId_utf8 := by decide +kernel
  references_utf8 := by decide +kernel
  dependencies_utf8 := by decide +kernel
  startLine_int32 := ⟨by decide, by decide⟩
  endLine_int32 := ⟨by decide, by decide⟩
  byteStart_lt := by decide +kernel
  byteEnd_lt := by decide +kernel
  metadata_faithful := by
    apply Json.Faithful.array
    simp only [List.forall_mem_cons, List.not_mem_nil, false_implies, implies_true, and_true]
    exact ⟨.null, .bool true⟩

/-- A file is stored, looked up before and after the directory is opened again, and removed by its
age; then it is stored without chunks one second before 1970 and removed by its age again. -/
def storeAndRemove : List CacheOperation :=
  [.store 1000 (bytes "a") [fullChunk] (bytes "h") (.object [(bytes "k", .int 1)]),
    .retrieve 2000 (bytes "a") (some (bytes "h")), .reopen,
    .retrieve 3000 (bytes "a") (some (bytes "g")), .invalidateOlder ⟨1⟩,
    .retrieve 4000 (bytes "a") none, .invalidateOlder ⟨2⟩,
    .store (-1000000000) (bytes "a") [] (bytes "g") .null, .retrieve 5000 (bytes "a") none,
    .invalidate (bytes "b"), .invalidateOlder ⟨-1000000⟩, .retrieve 6000 (bytes "a") none]

/-- What has no chunks can be read back. -/
theorem canReadBack_nil : CanReadBack (.store (-1000000000) (bytes "a") [] (bytes "g") .null) := by
  have hentry : (CacheEntry.ofChunks (-1000000000) (bytes "a") [] (bytes "g") .null).Storable := {
    filePath_utf8 := by decide +kernel
    contentHash_utf8 := by decide +kernel
    language_utf8 := by decide +kernel
    metadata_faithful := .object List.Pairwise.nil nofun nofun
    chunks_storable := nofun
    chunkCount_lt := by decide }
  exact ⟨by decide, hentry, nofun⟩

/-- All of the run can be read back. -/
theorem canReadBack_storeAndRemove : ∀ op ∈ storeAndRemove, CanReadBack op := by
  have hentry : (CacheEntry.ofChunks 1000 (bytes "a") [fullChunk] (bytes "h")
      (.object [(bytes "k", .int 1)])).Storable := {
    filePath_utf8 := by decide +kernel
    contentHash_utf8 := by decide +kernel
    language_utf8 := by decide +kernel
    metadata_faithful := by
      refine .object (List.pairwise_singleton _ _) (by decide +kernel) ?_
      intro m hm
      rw [List.mem_singleton.mp hm]
      exact .int (by decide) (by decide)
    chunks_storable := by
      intro c hc
      rw [List.mem_singleton.mp hc]
      exact storable_fullChunk
    chunkCount_lt := by decide }
  have hfirst : CanReadBack (.store 1000 (bytes "a") [fullChunk] (bytes "h")
      (.object [(bytes "k", .int 1)])) := ⟨by decide, hentry, by decide⟩
  simp only [storeAndRemove, List.forall_mem_cons, List.not_mem_nil, false_implies, implies_true,
    and_true]
  exact ⟨hfirst, trivial, trivial, trivial, trivial, trivial, trivial, canReadBack_nil, trivial,
    trivial, trivial, trivial⟩

/-- The answers of such a run are those of the map. -/
theorem answers_perform_storeAndRemove : fresh.NormalUse storeAndRemove ∧
    Set.InjOn Sha256.hexOf (CacheOperation.storedPaths storeAndRemove) ∧
    CacheOperation.answers perform fresh storeAndRemove =
      CacheOperation.answers (CacheOperation.onMap Instant.told?) Dict.empty storeAndRemove := by
  have hpath : ∀ f ∈ CacheOperation.storedPaths storeAndRemove, f = bytes "a" := by
    intro f hf
    have hmem : f ∈ [bytes "a", bytes "a"] := hf
    rcases List.mem_pair.mp hmem with rfl | rfl <;> rfl
  have huse := normalUse_fresh hpath canReadBack_storeAndRemove
  have hpaths := injOn_hexOf_of_forall_eq hpath
  exact ⟨huse, hpaths, answers_perform huse hpaths⟩

/-! ## The last second before 1970 -/

/-- A file without chunks is stored one second before 1970 and looked up five microseconds later. -/
def lastSecond : List CacheOperation :=
  [.store (-1000000000) (bytes "a") [] (bytes "g") .null, .retrieve (-999995000) (bytes "a") none]

/-- It is found with the time of the look-up, not with that of the entry. -/
theorem answers_perform_ne_known : fresh.NormalUse lastSecond ∧
    Set.InjOn Sha256.hexOf (CacheOperation.storedPaths lastSecond) ∧
    CacheOperation.answers perform fresh lastSecond ≠
      CacheOperation.answers (CacheOperation.onMap some) Dict.empty lastSecond := by
  have hpath : ∀ f ∈ CacheOperation.storedPaths lastSecond, f = bytes "a" :=
    fun f hf => List.mem_singleton.mp hf
  have hops : ∀ op ∈ lastSecond, CanReadBack op := by
    intro op hop
    rcases List.mem_pair.mp hop with rfl | rfl
    · exact canReadBack_nil
    · trivial
  have huse := normalUse_fresh hpath hops
  have hpaths := injOn_hexOf_of_forall_eq hpath
  refine ⟨huse, hpaths, ?_⟩
  rw [huse.answers_eq (injOn_blobName hpaths)]
  decide +kernel

end DiskCache

end SourceChunks
