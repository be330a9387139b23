import SourceChunks.Proofs.DiskCache.Transfer
import SourceChunks.Proofs.FileTree.Entries

/-!
# What lies in the directory of a cache

Between operations the index on disk is the one in memory, the blobs in the directory are those that
the index names, and each blob says of its entry what the record says. Storing, removing and taking
over documents change blobs, the index in memory and the index on disk one after the other, so the
three agree only when the operation is over. The one thing that a blob may not tell as its record
does is a time of the last second before 1970.
-/

namespace SourceChunks.DiskCache

variable {c c' c₀ : DiskCache} {paths : Set Bytes} {m : Bytes → Option CacheEntry}

/-! ## The listing of the directory -/

/-- What was written out and taken by the disk is in a file. -/
theorem exists_write_of_finished {files files' : FileTree} {device : FileTree.Device} {path : Bytes}
    {text? : Option Bytes} (h : files.writeText device path text? = .finished files') :
    ∃ left, files.write path left = .ok files' := by
  refine ⟨device.leaves path text?, ?_⟩
  unfold FileTree.writeText at h
  cases hwrite : files.write path (device.leaves path text?) with
  | error f =>
    rw [hwrite] at h
    exact absurd h nofun
  | ok files'' =>
    rw [hwrite] at h
    cases text? with
    | none => exact absurd h nofun
    | some text =>
      simp only at h
      split at h
      · exact absurd h nofun
      · rw [FileTree.Written.finished.inj h]

/-- An entry that was written has a text in its blob. -/
theorem exists_write_of_writeEntry {e : CacheEntry} (h : c.writeEntry e = (c', .ok true)) :
    ∃ text, c.files.write (c.blobPath (CacheEntry.blobName e.filePath)) text = .ok c'.files := by
  unfold DiskCache.writeEntry at h
  cases hwrite : c.files.writeText c.device (c.blobPath (CacheEntry.blobName e.filePath))
      e.toBlob.compact? with
  | unopened | malformed files | unfinished files =>
    rw [hwrite] at h
    exact absurd (congrArg Prod.snd h) nofun
  | finished files =>
    rw [hwrite] at h
    obtain ⟨rfl, -⟩ := Prod.mk.inj h
    exact exists_write_of_finished hwrite

/-- An index that was written was written beside the old one and took its place. -/
theorem exists_rename_of_saveIndex (h : c.saveIndex = (c', .ok ())) :
    ∃ text files, c.files.write (Path.join c.directory draftName) text = .ok files ∧
      files.rename (Path.join c.directory draftName) (Path.join c.directory indexName) =
        .ok c'.files := by
  simp only [saveIndex, draft_eq] at h
  cases hwrite : c.files.writeText c.device (Path.join c.directory draftName)
      ((CacheRecord.indexToJson c.records).pretty? 2) with
  | unopened | malformed files | unfinished files =>
    rw [hwrite] at h
    cases h
  | finished files =>
    simp only [hwrite, indexPath] at h
    obtain ⟨left, hleft⟩ := exists_write_of_finished hwrite
    cases hrename : files.rename (Path.join c.directory draftName)
        (Path.join c.directory indexName) with
    | error f =>
      rw [hrename] at h
      cases h
    | ok files' =>
      rw [hrename] at h
      obtain ⟨rfl, -⟩ := Prod.mk.inj h
      exact ⟨left, files, hleft, hrename⟩

section Listing

variable {place : Place} {names : Set Bytes} (hfolder : c.files.Folder c.directory place names)

include hfolder

/-- The blob of an entry that was written is listed, and nothing else comes or goes. -/
theorem hasEntry_writeEntry {e : CacheEntry} (hname : CacheEntry.blobName e.filePath ∈ names)
    (h : c.writeEntry e = (c', .ok true)) (n : Bytes) : c'.files.HasEntry c.directory n ↔
      n = CacheEntry.blobName e.filePath ∨ c.files.HasEntry c.directory n := by
  obtain ⟨text, hwrite⟩ := exists_write_of_writeEntry h
  exact hfolder.hasEntry_write hname hwrite n

/-- When the index was written, nothing has come or gone but the index and its draft. -/
theorem hasEntry_saveIndex (hdraft : draftName ∈ names) (hindex : indexName ∈ names)
    (h : c.saveIndex = (c', .ok ())) {n : Bytes} (hn : n ≠ indexName) (hn' : n ≠ draftName) :
    c'.files.HasEntry c.directory n ↔ c.files.HasEntry c.directory n := by
  obtain ⟨text, files, hwrite, hrename⟩ := exists_rename_of_saveIndex h
  obtain ⟨written, hwritten, hfolder', -⟩ := hfolder.exists_write hdraft text
  obtain rfl := Except.ok.inj (hwrite.symm.trans hwritten)
  have hread := FileTree.read?_of_find?_file (FileTree.find?_write hwrite)
  rw [hfolder'.hasEntry_rename hdraft hindex (by decide) hread hrename,
    hfolder.hasEntry_write hdraft hwrite]
  simp [hn, hn']

end Listing

/-! ## Blobs that are listed -/

/-- The ending of the names of blobs. -/
def blobEnding : Bytes := bytes ".blob"

/-- A cache holds a map, and the blobs in its directory are those of the entries of the map. -/
structure Keeps (c : DiskCache) (paths : Set Bytes) (m : Bytes → Option CacheEntry) : Prop
    extends Holds c paths m where
  /-- A blob is listed if there is an entry for it. -/
  hasEntry_iff : ∀ n, blobEnding <:+ n →
    (c.files.HasEntry c.directory n ↔ ∃ f, (m f).isSome ∧ n = CacheEntry.blobName f)

/-- The index is a file that tells what the cache has in memory. -/
def HasIndex (c : DiskCache) : Prop :=
  ∃ text, c.files.read? c.indexPath = some text ∧
    (Json.parse? text).bind CacheRecord.indexOfJson? = some c.records

/-- The index file reads as the records in memory. -/
theorem HasIndex.loadIndex_eq (h : c.HasIndex) : loadIndex c.files c.indexPath = .ok c.records := by
  obtain ⟨text, hread, hparse⟩ := h
  rw [loadIndex, hread]
  simp only [hparse]

/-- An index that can be read from its file is told by it. -/
theorem hasIndex_of_loadIndex {text : Bytes} (hread : c.files.read? c.indexPath = some text)
    (hload : loadIndex c.files c.indexPath = .ok c.records) : c.HasIndex := by
  refine ⟨text, hread, ?_⟩
  simp only [loadIndex, hread] at hload
  cases hparse : (Json.parse? text).bind CacheRecord.indexOfJson? with
  | none =>
    rw [hparse] at hload
    cases hload
  | some records =>
    rw [hparse] at hload
    rw [Except.ok.inj hload]

/-- A cache that holds a map has the index in memory on disk, too, once it was written. -/
theorem Holds.hasIndex_of_saveIndex (h : c.Holds paths m) (hsave : c.saveIndex = (c', .ok ())) :
    c'.HasIndex := by
  obtain ⟨place, hfolder⟩ := h.folder
  have hzero : 0 ∉ c.directory :=
    (hfolder.canWrite (indexName_mem paths)).notMem_zero plain_indexName
  obtain ⟨files', hsave', hrepresents⟩ := h.saveIndex
  obtain ⟨rfl, -⟩ := Prod.mk.inj (hsave'.symm.trans hsave)
  rcases saveIndex_cases hzero with
    ⟨files, f, hfail, -⟩ | ⟨files, left, text, hsaved, -, -, -, hread⟩
  · exact absurd (congrArg Prod.snd (hsave.symm.trans hfail)) nofun
  · obtain ⟨heq, -⟩ := Prod.mk.inj (hsaved.symm.trans hsave)
    obtain rfl : files = files' := congrArg DiskCache.files heq
    exact hasIndex_of_loadIndex hread hrepresents.index

/-- A cache keeps a map, and the index on disk is the one in memory. It is in its file once any file
has changed. -/
structure InOrder (c : DiskCache) (start : FileTree) (paths : Set Bytes)
    (m : Bytes → Option CacheEntry) : Prop extends Keeps c paths m where
  /-- The index can be read back. -/
  loadIndex_eq : loadIndex c.files c.indexPath = .ok c.records
  /-- Before it is written for the first time no file has changed. -/
  changed : c.files = start ∨ c.HasIndex

variable {start : FileTree}

/-- What is counted makes no difference to the order on disk. -/
theorem InOrder.with_counts (h : c.InOrder start paths m) (counts : CacheCounts) :
    InOrder { c with counts } start paths m :=
  ⟨⟨h.toHolds.with_counts counts, h.hasEntry_iff⟩, h.loadIndex_eq, h.changed⟩

namespace Keeps

/-- What is counted makes no difference to the entries that are kept. -/
theorem with_counts (h : c.Keeps paths m) (counts : CacheCounts) :
    Keeps { c with counts } paths m := ⟨h.toHolds.with_counts counts, h.hasEntry_iff⟩

/-- The index of a cache that keeps a map can be written, and then it is in order. -/
theorem saveIndex (h : c.Keeps paths m) (start : FileTree) :
    ∃ files, c.saveIndex = ({ c with files }, .ok ()) ∧
      InOrder { c with files } start paths m := by
  obtain ⟨files, hsave, hrepresents⟩ := h.toHolds.saveIndex
  obtain ⟨place, hfolder⟩ := h.folder
  have hindex := h.toHolds.hasIndex_of_saveIndex hsave
  refine ⟨files, hsave, ⟨hrepresents.toHolds, ?_⟩, hindex.loadIndex_eq, Or.inr hindex⟩
  intro n hn
  -- Neither the index nor its draft is named like a blob.
  have hne : n ≠ indexName := by
    rintro rfl
    exact absurd hn (by decide)
  have hne' : n ≠ draftName := by
    rintro rfl
    exact absurd hn (by decide)
  exact (hasEntry_saveIndex hfolder (draftName_mem paths) (indexName_mem paths) hsave
    hne hne').trans
    (h.hasEntry_iff n hn)

variable (hnames : Set.InjOn CacheEntry.blobName paths)

include hnames

/-- When the entry of one file changes and its blob comes or goes with it, the blobs that are listed
are still those of the entries. -/
theorem hasEntry_iff_update (h : c.Keeps paths m) {files : FileTree} {f : Bytes} (hf : f ∈ paths)
    {e? : Option CacheEntry}
    (hfiles : ∀ n, files.HasEntry c.directory n ↔
      if n = CacheEntry.blobName f then e?.isSome = true else c.files.HasEntry c.directory n)
    {n : Bytes} (hn : blobEnding <:+ n) : files.HasEntry c.directory n ↔
      ∃ g, (Function.update m f e? g).isSome ∧ n = CacheEntry.blobName g := by
  rw [hfiles]
  split
  · next heq =>
    constructor
    · intro he
      exact ⟨f, by rwa [Function.update_self], heq⟩
    · rintro ⟨g, hg, hblob⟩
      -- No other entry has a blob of this name.
      by_cases hgf : g = f
      · rwa [hgf, Function.update_self] at hg
      · rw [Function.update_of_ne hgf] at hg
        obtain ⟨e, he⟩ := Option.isSome_iff_exists.mp hg
        obtain ⟨hpath, -⟩ := h.entry g e he
        exact absurd (hnames hpath hf (hblob.symm.trans heq)) hgf
  · next hne =>
    rw [h.hasEntry_iff n hn]
    have hother {g : Bytes} (hblob : n = CacheEntry.blobName g) : g ≠ f := by
      rintro rfl
      exact hne hblob
    constructor
    · rintro ⟨g, hg, hblob⟩
      exact ⟨g, by rwa [Function.update_of_ne (hother hblob)], hblob⟩
    · rintro ⟨g, hg, hblob⟩
      rw [Function.update_of_ne (hother hblob)] at hg
      exact ⟨g, hg, hblob⟩

/-- Writing an entry puts it into the map and its blob into the directory. -/
theorem writeEntry (h : c.Keeps paths m) {e : CacheEntry} (hpath : e.filePath ∈ paths)
    (he : e.Storable) : ∃ c', c.writeEntry e = (c', .ok true) ∧ c'.directory = c.directory ∧
      c'.Keeps paths (Function.update m e.filePath (some e)) := by
  obtain ⟨c', hwrite, hdirectory, hholds⟩ := h.toHolds.writeEntry hnames hpath he
  obtain ⟨place, hfolder⟩ := h.folder
  refine ⟨c', hwrite, hdirectory, hholds, fun n hn => ?_⟩
  rw [hdirectory]
  refine h.hasEntry_iff_update hnames hpath (fun n => ?_) hn
  rw [hasEntry_writeEntry hfolder (blobName_mem hpath) hwrite]
  split <;> simp [*]

/-- Removing an entry takes it out of the map and its blob out of the directory. -/
theorem removeEntry (h : c.Keeps paths m) (f : Bytes) :
    (c.removeEntry f).Keeps paths (Function.update m f none) := by
  obtain ⟨hdirectory, hholds⟩ := h.toHolds.removeEntry hnames f
  refine ⟨hholds, fun n hn => ?_⟩
  rw [hdirectory]
  have hrecord := h.records f
  cases he : m f with
  | none =>
    rw [he] at hrecord
    have hsame : c.removeEntry f = c := by
      rw [DiskCache.removeEntry, hrecord]
      rfl
    rw [hsame, Function.update_eq_self_iff.mpr he.symm]
    exact h.hasEntry_iff n hn
  | some e =>
    obtain ⟨hpath, rfl, -⟩ := h.entry f e he
    obtain ⟨place, hfolder⟩ := h.folder
    rw [he] at hrecord
    refine h.hasEntry_iff_update hnames hpath (fun n => ?_) hn
    have hfiles : (c.removeEntry e.filePath).files =
        c.files.remove (c.blobPath (CacheEntry.blobName e.filePath)) := by
      rw [DiskCache.removeEntry, hrecord]
      rfl
    rw [hfiles, blobPath, hfolder.hasEntry_remove (blobName_mem hpath)]
    split <;> simp [*]

/-- Removing entries one after another leaves a map of which the directory has the blobs. -/
theorem foldl_removeEntry (h : c.Keeps paths m) (fs : List Bytes) :
    ∃ m', (fs.foldl DiskCache.removeEntry c).Keeps paths m' := by
  induction fs generalizing c m with
  | nil => exact ⟨m, h⟩
  | cons f rest ih => exact ih (h.removeEntry hnames f)

/-- So does writing entries one after another. -/
theorem writeEntries (h : c.Keeps paths m) {es : List CacheEntry}
    (hes : ∀ e ∈ es, e.filePath ∈ paths ∧ e.Storable) :
    ∃ c' n m', c.writeEntries es = (c', .ok n) ∧ c'.Keeps paths m' := by
  induction es generalizing c m with
  | nil => exact ⟨c, 0, m, rfl, h⟩
  | cons e rest ih =>
    obtain ⟨⟨hpath, hstorable⟩, hrest⟩ := List.forall_mem_cons.mp hes
    obtain ⟨c₁, hwrite, -, hkeeps⟩ := h.writeEntry hnames hpath hstorable
    obtain ⟨c₂, n, m', hwrites, hkeeps'⟩ :=
      ih (hkeeps.with_counts { c₁.counts with stores := c₁.counts.stores + 1 }) hrest
    refine ⟨c₂, n + 1, m', ?_, hkeeps'⟩
    rw [DiskCache.writeEntries, hwrite]
    simp only [hwrites]
    rfl

end Keeps

/-! ## Runs -/

namespace InOrder

variable (hnames : Set.InjOn CacheEntry.blobName paths)

include hnames

/-- A cache stays in order when files are removed from it. -/
theorem removeAll (h : c.InOrder start paths m) (fs : List Bytes) :
    ∃ m', (c.removeAll fs).1.InOrder start paths m' := by
  obtain ⟨m', hkeeps⟩ := h.toKeeps.foldl_removeEntry hnames fs
  obtain ⟨files, hsave, hinOrder⟩ := hkeeps.saveIndex start
  refine ⟨m', ?_⟩
  rw [DiskCache.removeAll, hsave]
  exact hinOrder

/-- It stays in order with every operation that gives it nothing but what can be stored. -/
theorem perform (h : c.InOrder start paths m) {op : CacheOperation}
    (hop : ∀ e, op.given? = some e → e.filePath ∈ paths ∧ e.Storable) :
    ∃ m', (c.perform op).1.InOrder start paths m' := by
  cases op with
  | store now f chunks contentHash metadata =>
    obtain ⟨hf, hstorable⟩ := hop _ rfl
    obtain ⟨c', hwrite, -, hkeeps⟩ := h.toKeeps.writeEntry hnames hf hstorable
    obtain ⟨files, hsave, hinOrder⟩ := hkeeps.saveIndex start
    refine ⟨Function.update m f (some (.ofChunks now f chunks contentHash metadata)), ?_⟩
    rw [DiskCache.perform, store, hwrite]
    simp only [hsave]
    exact hinOrder.with_counts _
  | retrieve now f contentHash => exact ⟨m, h.with_counts _⟩
  | invalidate f => exact h.removeAll hnames _
  | invalidateOlder limit => exact h.removeAll hnames _
  | invalidateAll => exact h.removeAll hnames _
  | reopen =>
    obtain ⟨place, hfolder⟩ := h.folder
    refine ⟨m, ?_⟩
    rw [DiskCache.perform, reopen_of_isDirectoryAt (hfolder.canWrite (indexName_mem paths)).1,
      h.loadIndex_eq]
    exact h.with_counts .zero

/-- It stays in order when it takes over a document, and when the document is refused. -/
theorem importDocument (h : c.InOrder start paths m) {now : Int} {document : Json}
    (hes : ∀ e ∈ imported now document, e.filePath ∈ paths ∧ e.Storable) :
    ∃ m', (c.importDocument now document).1.InOrder start paths m' := by
  rw [DiskCache.importDocument]
  cases hentries : entriesOf now document with
  | error f => exact ⟨m, h⟩
  | ok es =>
    obtain ⟨m₁, hcleared⟩ := h.toKeeps.foldl_removeEntry hnames c.records.keys
    obtain ⟨c', n, m', hwrites, hkeeps⟩ :=
      hcleared.writeEntries hnames fun e he => hes e ⟨es, hentries, he⟩
    obtain ⟨files, hsave, hinOrder⟩ := hkeeps.saveIndex start
    refine ⟨m', ?_⟩
    simp only [hwrites, hsave]
    exact hinOrder

end InOrder

/-- A cache is in use for some paths: operations are carried out on it, and it takes over documents.
All that it is given is of these paths and can be stored. -/
inductive UsedFor (c₀ : DiskCache) (paths : Set Bytes) : DiskCache → Prop
  | start : UsedFor c₀ paths c₀
  | perform {c : DiskCache} (h : UsedFor c₀ paths c) (op : CacheOperation)
      (hop : ∀ e, op.given? = some e → e.filePath ∈ paths ∧ e.Storable) :
      UsedFor c₀ paths (c.perform op).1
  | importDocument {c : DiskCache} (h : UsedFor c₀ paths c) (now : Int) (document : Json)
      (himportable : Importable now document)
      (hpaths : ∀ e ∈ imported now document, e.filePath ∈ paths) :
      UsedFor c₀ paths (c.importDocument now document).1
  | importFrom {c : DiskCache} (h : UsedFor c₀ paths c) (now : Int) (path : Bytes)
      (hpath : ¬ c.files.isDirectoryAt path)
      (hentries : ∀ e ∈ c.importedFrom now path,
        e.filePath ∈ paths ∧ e.chunks.length < UInt64.size) :
      UsedFor c₀ paths (c.importFrom now path).1

/-- A cache that was opened where there were neither records nor blobs, and in whose directory the
files of some paths can be written. -/
structure StartsEmpty (c : DiskCache) (paths : Set Bytes) : Prop extends c.IsNew where
  not_hasEntry : ∀ n, blobEnding <:+ n → ¬ c.files.HasEntry c.directory n
  canWrite : ∀ n ∈ fileNames paths, c.files.CanWrite c.directory n

/-- At first there is nothing to keep. -/
theorem StartsEmpty.inOrder (h : c.StartsEmpty paths) :
    c.InOrder c.files paths fun _ => none := by
  obtain ⟨files, directory, files', hopen⟩ := h.openAt_eq
  have hrepresents := represents_of_openAt hopen h.records_eq h.canWrite
  refine ⟨⟨hrepresents.toHolds, fun n hn => ?_⟩, hrepresents.index, Or.inl rfl⟩
  exact iff_of_false (h.not_hasEntry n hn) (by simp)

/-- A cache in use is in order. -/
theorem UsedFor.exists_inOrder (h : c₀.UsedFor paths c) (hstart : c₀.StartsEmpty paths)
    (hnames : Set.InjOn CacheEntry.blobName paths) : ∃ m, c.InOrder c₀.files paths m := by
  induction h with
  | start => exact ⟨_, hstart.inOrder⟩
  | perform h op hop ih =>
    obtain ⟨m, hm⟩ := ih
    exact hm.perform hnames hop
  | importDocument h now document himportable hpaths ih =>
    obtain ⟨m, hm⟩ := ih
    exact hm.importDocument hnames fun e he => ⟨hpaths e he, himportable.storable he⟩
  | @importFrom c h now path hpath hentries ih =>
    obtain ⟨m, hm⟩ := ih
    rw [DiskCache.importFrom]
    split
    · exact ⟨m, hm⟩
    · next text hread =>
      split
      · exact ⟨m, hm⟩
      · next document hparse =>
        have himportable : Importable now document := importable_of_parse? hparse fun e he =>
          (hentries e ⟨text, document, hread, hparse, he⟩).2
        exact hm.importDocument hnames fun e he =>
          ⟨(hentries e ⟨text, document, hread, hparse, he⟩).1, himportable.storable he⟩

/-! ## The layout -/

/-- The blob of a record says what the record says: it has the same hash and the same time, and it
is read as the entry of the path with this hash and this number of chunks. Also the time is read if
it is told. -/
def Repeats (c : DiskCache) (f : Bytes) (r : CacheRecord) : Prop :=
  (∃ text blob, c.files.read? (c.blobPath r.blobName) = some text ∧ Json.parse? text = some blob ∧
    blob.member? (bytes "file_hash") = some (.string r.contentHash) ∧
    blob.member? (bytes "timestamp") = some (.string r.timestamp)) ∧
  ∀ now, ∃ e, c.readEntry now f r = .hit e ∧ e.filePath = f ∧ e.contentHash = r.contentHash ∧
    e.chunks.length = r.chunkCount ∧ (Instant.IsTold r.timestamp → e.timestamp.toText = r.timestamp)

/-- The index in memory, the index on disk and the blobs of a cache agree. -/
structure LaidOut (c : DiskCache) : Prop where
  /-- The index on disk is the one in memory. -/
  loadIndex_eq : loadIndex c.files c.indexPath = .ok c.records
  /-- Each record names the blob of its path. -/
  blobName_eq : ∀ f r, c.records.get? f = some r → r.blobName = CacheEntry.blobName f
  /-- The blobs in the directory are those that are named. -/
  hasEntry_iff : ∀ n, blobEnding <:+ n →
    (c.files.HasEntry c.directory n ↔ ∃ f r, c.records.get? f = some r ∧ r.blobName = n)
  /-- Each of them repeats its record. -/
  repeats : ∀ f r, c.records.get? f = some r → c.Repeats f r

/-- A time that is told is read as it was. -/
theorem toText_timestamp_restored {e : CacheEntry} (h : Instant.IsTold e.timestamp.toText)
    (now : Int) : (e.restored now).timestamp.toText = e.timestamp.toText := by
  obtain ⟨t, hdated, hsecond, htext⟩ := h
  have htold : Instant.ofText? t.toText = some t := by
    rw [Instant.ofText?_toText hdated, if_neg hsecond]
  simp only [CacheEntry.restored, htext, htold, Option.getD_some]

/-- The blob of an entry repeats its record. -/
theorem Holds.repeats (h : c.Holds paths m) {f : Bytes} {e : CacheEntry} (he : m f = some e) :
    c.Repeats f (.ofEntry e) := by
  obtain ⟨-, rfl, -⟩ := h.entry f e he
  obtain ⟨text, hread, hparse⟩ := h.blob _ e he
  have hmember := Json.forall_member?_ofMembers e.nodup_keys_blobMembers
  rw [← CacheEntry.toBlob_eq] at hmember
  refine ⟨⟨text, e.toBlob, hread, hparse, ?_, ?_⟩, fun now => ?_⟩
  · exact hmember (bytes "file_hash", .string e.contentHash)
      (by simp [CacheEntry.blobMembers, CacheEntry.members])
  · exact hmember (bytes "timestamp", .string e.timestamp.toText)
      (by simp [CacheEntry.blobMembers, CacheEntry.members])
  · exact ⟨e.restored now, h.tells.readEntry_ofEntry now he, rfl, rfl, List.length_map _,
      fun htold => toText_timestamp_restored htold now⟩

/-- A cache in order is laid out. -/
theorem laidOut_of_inOrder (h : c.InOrder start paths m) : c.LaidOut := by
  have hrecord {f : Bytes} {r : CacheRecord} (hr : c.records.get? f = some r) :
      ∃ e, m f = some e ∧ r = .ofEntry e ∧ r.blobName = CacheEntry.blobName f := by
    rw [h.records] at hr
    obtain ⟨e, he, rfl⟩ := Option.map_eq_some_iff.mp hr
    obtain ⟨-, rfl, -⟩ := h.entry f e he
    exact ⟨e, he, rfl, rfl⟩
  refine ⟨h.loadIndex_eq, fun f r hr => ?_, fun n hn => ?_, fun f r hr => ?_⟩
  · obtain ⟨-, -, -, hname⟩ := hrecord hr
    exact hname
  · rw [h.hasEntry_iff n hn]
    constructor
    · rintro ⟨f, hf, rfl⟩
      obtain ⟨r, hr⟩ : ∃ r, c.records.get? f = some r := by
        rw [← Option.isSome_iff_exists, h.records, Option.isSome_map, hf]
      obtain ⟨-, -, -, hname⟩ := hrecord hr
      exact ⟨f, r, hr, hname⟩
    · rintro ⟨f, r, hr, rfl⟩
      obtain ⟨e, he, -, hname⟩ := hrecord hr
      exact ⟨f, Option.isSome_iff_exists.mpr ⟨e, he⟩, hname⟩
  · obtain ⟨e, he, rfl, -⟩ := hrecord hr
    exact h.toHolds.repeats he

/-- After each operation the files of a cache are laid out by its index, and its index is in its
file unless no file has changed since the beginning. -/
theorem UsedFor.laidOut (h : c₀.UsedFor paths c) (hstart : c₀.StartsEmpty paths)
    (hpaths : Set.InjOn Sha256.hexOf paths) : c.LaidOut ∧ (c.files = c₀.files ∨ c.HasIndex) := by
  obtain ⟨m, hm⟩ := h.exists_inOrder hstart (injOn_blobName hpaths)
  exact ⟨laidOut_of_inOrder hm, hm.changed⟩

/-! ## A cache of one file -/

/-- The cache that is opened where there are no files starts empty. -/
theorem startsEmpty_fresh : fresh.StartsEmpty {bytes "a"} := by
  refine ⟨isNew_fresh, ?_, ?_⟩
  · rintro n - ⟨es, hfind, hn⟩
    have hempty : fresh.files.find? fresh.directory = some (.directory []) := rfl
    obtain rfl := FileTree.directory.inj (Option.some.inj (hempty.symm.trans hfind))
    exact absurd hn List.not_mem_nil
  · rintro n (rfl | rfl | ⟨f, rfl, rfl⟩)
    · decide +kernel
    · decide +kernel
    · decide +kernel

/-- It can be given any entry of one file that can be stored. -/
theorem UsedFor.perform_storesFile (h : fresh.UsedFor {bytes "a"} c) {op : CacheOperation}
    {e : CacheEntry} (hop : StoresFile op e) : fresh.UsedFor {bytes "a"} (c.perform op).1 := by
  refine .perform h op fun e' he' => ?_
  obtain rfl := Option.some.inj (hop.given_eq.symm.trans he')
  exact ⟨hop.filePath_eq, hop.storable⟩

/-- A file is stored twice, the second time with chunks, and the directory is opened again. The
files are laid out then. -/
theorem laidOut_storeTwice :
    (((fresh.perform (storeFor (bytes "g"))).1.perform storeFull).1.perform .reopen).1.LaidOut := by
  have hfirst : StoresFile (storeFor (bytes "g")) _ :=
    ⟨rfl, rfl, by decide, storable_storeFor (by decide), nofun⟩
  have hsecond : StoresFile storeFull _ :=
    ⟨rfl, rfl, canReadBack_storeAndRemove storeFull List.mem_cons_self⟩
  have hused : fresh.UsedFor {bytes "a"} _ :=
    .perform ((UsedFor.start.perform_storesFile hfirst).perform_storesFile hsecond) .reopen nofun
  exact (hused.laidOut startsEmpty_fresh (injOn_hexOf_of_forall_eq fun f hf => hf)).1

/-! ## The last second before 1970 -/

/-- What was stored one second before 1970 is read from its blob with the time of reading, five
microseconds later, which is not the time that the record tells. -/
theorem readEntry_storeBefore1970_ne : fresh.StartsEmpty {bytes "a"} ∧
    Set.InjOn Sha256.hexOf {bytes "a"} ∧
    fresh.UsedFor {bytes "a"} (fresh.perform storeBefore1970).1 ∧
    ∃ r e, (fresh.perform storeBefore1970).1.records.get? (bytes "a") = some r ∧
      (fresh.perform storeBefore1970).1.readEntry (-999995000) (bytes "a") r = .hit e ∧
      e.timestamp.toText ≠ r.timestamp := by
  have hstored : StoresFile storeBefore1970 _ := ⟨rfl, rfl, canReadBack_nil⟩
  have hentry := StoresFile.get?_eq
    (CacheEntry.ofChunks (-1000000000) (bytes "a") [] (bytes "g") .null)
  refine ⟨startsEmpty_fresh, injOn_hexOf_of_forall_eq fun f hf => hf,
    UsedFor.start.perform_storesFile hstored, .ofEntry _, _, ?_,
    hstored.tells.readEntry_ofEntry (-999995000) hentry, ?_⟩
  · rw [hstored.tells.records, hentry, Option.map_some]
  · have htold : Instant.ofText? (Instant.ofNanos (-1000000000)).toText = none := by
      rw [Instant.ofText?_toText (Instant.dated_ofNanos (by decide) (by decide))]
      decide
    have htime := CacheEntry.timestamp_restored (e := CacheEntry.ofChunks (-1000000000)
      (bytes "a") [] (bytes "g") .null) htold (-999995000)
    rw [htime]
    decide +kernel

end SourceChunks.DiskCache
