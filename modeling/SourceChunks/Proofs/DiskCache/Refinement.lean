import Mathlib.Data.Set.Function
import Mathlib.Logic.Function.Basic
import SourceChunks.DiskCache
import SourceChunks.Proofs.DiskCache.Entry
import SourceChunks.Proofs.FileTree.Folder
import SourceChunks.Proofs.Sha256.Digest

/-!
# The disk cache as a map

A cache in a directory whose files can be written, on a disk that takes what is written, stands for
a map from paths to entries. The index in memory and the blobs on disk together hold the map, and
the index on disk repeats the one in memory, so opening the directory again finds the same map. This
takes that the blobs of the paths that are used have distinct names.
-/

namespace SourceChunks

/-! ## The names of the files -/

/-- The name of a blob is a digest with an ending. -/
theorem CacheEntry.length_blobName (filePath : Bytes) : (blobName filePath).length = 69 := by
  rw [blobName, List.length_append, Sha256.length_hexOf]
  rfl

/-- A name of another length is not the name of a blob. -/
theorem CacheEntry.blobName_ne {n : Bytes} (hn : n.length ≠ 69) (filePath : Bytes) :
    blobName filePath ≠ n := by
  intro heq
  apply hn
  rw [← heq]
  exact length_blobName filePath

/-- A digest with an ending that is plain text stands for itself in a path. -/
theorem CacheEntry.plain_blobName (filePath : Bytes) : Path.Plain (blobName filePath) := by
  have hnotMem {b : UInt8} (hb : Bytes.hexValue? b = none) (hb' : b ∉ bytes ".blob") :
      b ∉ blobName filePath := by
    intro hmem
    rcases List.mem_append.mp hmem with hdigest | hending
    · exact Sha256.notMem_hexOf hb filePath hdigest
    · exact hb' hending
  refine ⟨blobName_ne (by decide) filePath, hnotMem (by decide) (by decide),
    hnotMem (by decide) (by decide), ?_⟩
  intro hdots
  rcases (Bool.or_eq_true ..).mp hdots with h | h
  · exact blobName_ne (by decide) filePath (beq_iff_eq.mp h)
  · exact blobName_ne (by decide) filePath (beq_iff_eq.mp h)

namespace DiskCache

/-- The name under which the index is written at first. -/
def draftName : Bytes := indexName ++ bytes ".tmp"

/-- The name of the index is a plain one. -/
theorem plain_indexName : Path.Plain indexName := by constructor <;> decide

/-- The name of the draft is a plain one. -/
theorem plain_draftName : Path.Plain draftName := by constructor <;> decide

/-- The draft of the index lies beside it. -/
theorem draft_eq (c : DiskCache) :
    c.indexPath ++ bytes ".tmp" = Path.join c.directory draftName := by
  rw [indexPath, plain_indexName.join_eq, plain_draftName.join_eq]
  split <;> simp [draftName]

/-- The names of the files that a cache may have for some paths. -/
def fileNames (paths : Set Bytes) : Set Bytes :=
  {n | n = indexName ∨ n = draftName ∨ ∃ f ∈ paths, n = CacheEntry.blobName f}

/-- The index is a file of the cache. -/
theorem indexName_mem (paths : Set Bytes) : indexName ∈ fileNames paths := Or.inl rfl

/-- The draft is a file of the cache. -/
theorem draftName_mem (paths : Set Bytes) : draftName ∈ fileNames paths := Or.inr (Or.inl rfl)

/-- The blob of each path is a file of the cache. -/
theorem blobName_mem {paths : Set Bytes} {f : Bytes} (hf : f ∈ paths) :
    CacheEntry.blobName f ∈ fileNames paths := Or.inr (Or.inr ⟨f, hf, rfl⟩)

/-- A file of a cache can be written: it can be opened, and the disk takes every text for it. -/
structure CanWrite (c : DiskCache) (n : Bytes) : Prop where
  opened : c.files.CanWrite c.directory n
  takes : ∀ text, c.device (Path.join c.directory n) text = .whole

/-- All files of the cache have plain names. -/
theorem plain_of_mem_fileNames {paths : Set Bytes} {n : Bytes} (hn : n ∈ fileNames paths) :
    Path.Plain n := by
  rcases hn with rfl | rfl | ⟨f, -, rfl⟩
  · exact plain_indexName
  · exact plain_draftName
  · exact CacheEntry.plain_blobName f

/-! ## What a cache tells -/

/-- The index in memory and the blobs on disk tell the entries of a map from paths to entries. -/
structure Tells (c : DiskCache) (m : Bytes → Option CacheEntry) : Prop where
  /-- The index has the records of the entries. -/
  records : ∀ f, c.records.get? f = (m f).map .ofEntry
  /-- Entries are those of their paths. -/
  entry : ∀ f e, m f = some e → e.filePath = f ∧ e.Storable
  /-- The blob of each entry can be read back. -/
  blob : ∀ f e, m f = some e → ∃ text,
    c.files.read? (c.blobPath (CacheEntry.blobName f)) = some text ∧
      Json.parse? text = some e.toBlob

namespace Tells

variable {c : DiskCache} {m : Bytes → Option CacheEntry}

/-- Records of told entries can be stored. -/
theorem allStorable (h : c.Tells m) : CacheRecord.AllStorable c.records := by
  intro f r hr
  rw [h.records] at hr
  obtain ⟨e, he, rfl⟩ := Option.map_eq_some_iff.mp hr
  obtain ⟨hpath, hstorable⟩ := h.entry f e he
  exact ⟨hpath ▸ hstorable.filePath_utf8, CacheRecord.storable_ofEntry hstorable⟩

/-- The blob of an entry is read as the entry. -/
theorem readEntry_ofEntry (h : c.Tells m) (now : Int) {f : Bytes} {e : CacheEntry}
    (he : m f = some e) : c.readEntry now f (.ofEntry e) = .hit (e.restored now) := by
  obtain ⟨text, hread, hparse⟩ := h.blob f e he
  obtain ⟨rfl, hstorable⟩ := h.entry f e he
  have hname : (CacheRecord.ofEntry e).blobName = CacheEntry.blobName e.filePath := rfl
  simp only [readEntry, hname, hread, hparse, Option.bind_some, hstorable.ofBlob?_toBlob]

/-- A look-up finds the entry of the map, unless another content is asked for. -/
theorem lookup_eq (h : c.Tells m) (now : Int) (f : Bytes) (contentHash : Option Bytes) :
    c.lookup now f contentHash = match m f with
      | none => .notFound
      | some e =>
        if contentHash.any (· ≠ e.contentHash) then .hashMismatch else .hit (e.restored now) := by
  rw [lookup, h.records]
  cases he : m f with
  | none => rfl
  | some e =>
    simp only [Option.map_some, h.readEntry_ofEntry now he]
    rfl

end Tells

/-! ## What a cache holds -/

/-- The index in memory and the blobs on disk hold a map from paths to entries. -/
structure Holds (c : DiskCache) (paths : Set Bytes) (m : Bytes → Option CacheEntry) : Prop where
  /-- The files of the cache can be opened. -/
  folder : ∃ place, c.files.Folder c.directory place (fileNames paths)
  /-- The disk takes what is written to them. -/
  takes : ∀ n ∈ fileNames paths, ∀ text, c.device (Path.join c.directory n) text = .whole
  /-- The index has the records of the entries. -/
  records : ∀ f, c.records.get? f = (m f).map .ofEntry
  /-- Entries are of paths that are used, and are entries of these. -/
  entry : ∀ f e, m f = some e → f ∈ paths ∧ e.filePath = f ∧ e.Storable
  /-- The blob of each entry can be read back. -/
  blob : ∀ f e, m f = some e → ∃ text,
    c.files.read? (c.blobPath (CacheEntry.blobName f)) = some text ∧
      Json.parse? text = some e.toBlob

/-- Beside that the index on disk is the one in memory. -/
structure Represents (c : DiskCache) (paths : Set Bytes) (m : Bytes → Option CacheEntry) : Prop
    extends Holds c paths m where
  /-- The index can be read back. -/
  index : loadIndex c.files c.indexPath = .ok c.records

variable {c : DiskCache} {paths : Set Bytes} {m : Bytes → Option CacheEntry}

/-- A cache that holds a map tells its entries. -/
theorem Holds.tells (h : c.Holds paths m) : c.Tells m :=
  ⟨h.records, fun f e he => (h.entry f e he).2, h.blob⟩

/-- The records of a cache that holds a map can be stored. -/
theorem Holds.allStorable (h : c.Holds paths m) : CacheRecord.AllStorable c.records :=
  h.tells.allStorable

/-- Writing the index makes the disk agree with the memory, and changes no blob. -/
theorem Holds.saveIndex (h : c.Holds paths m) :
    ∃ files, c.saveIndex = ({ c with files }, .ok ()) ∧
      Represents { c with files } paths m := by
  obtain ⟨place, hfolder⟩ := h.folder
  obtain ⟨text, htext, hparse⟩ := h.allStorable.faithful.exists_pretty? 2
  obtain ⟨files, hwrite, hfolder', hread⟩ :=
    hfolder.exists_writeText (draftName_mem paths) (h.takes _ (draftName_mem paths) text)
  have hne : draftName ≠ indexName := by decide
  have hdraft : files.read? (Path.join c.directory draftName) = some text := by
    rw [hread _ (draftName_mem paths), if_pos rfl]
  obtain ⟨files', hrename, hfolder'', hread'⟩ :=
    hfolder'.exists_rename (draftName_mem paths) (indexName_mem paths) hne hdraft
  have hsave : c.saveIndex = ({ c with files := files' }, .ok ()) := by
    unfold DiskCache.saveIndex
    simp only [htext, draft_eq, hwrite]
    unfold indexPath
    simp only [hrename]
  -- Neither the draft nor the index is the blob of a file.
  have hblobs : ∀ f ∈ paths, files'.read? (c.blobPath (CacheEntry.blobName f)) =
      c.files.read? (c.blobPath (CacheEntry.blobName f)) := by
    intro f hf
    have hindexName : CacheEntry.blobName f ≠ indexName := CacheEntry.blobName_ne (by decide) f
    have hdraftName : CacheEntry.blobName f ≠ draftName := CacheEntry.blobName_ne (by decide) f
    rw [blobPath, hread' _ (blobName_mem hf), if_neg hindexName, if_neg hdraftName,
      hread _ (blobName_mem hf), if_neg hdraftName]
  have hindex : files'.read? (Path.join c.directory indexName) = some text := by
    rw [hread' _ (indexName_mem paths), if_pos rfl]
  refine ⟨files', hsave, {
    folder := ⟨place, hfolder''⟩
    takes := h.takes
    records := h.records
    entry := h.entry
    blob := ?_
    index := ?_ }⟩
  · intro f e he
    obtain ⟨hf, -, -⟩ := h.entry f e he
    obtain ⟨blob, hblob, hparse⟩ := h.blob f e he
    exact ⟨blob, (hblobs f hf).trans hblob, hparse⟩
  · simp only [loadIndex, indexPath, hindex, hparse, Option.bind_some,
      h.allStorable.indexOfJson?_indexToJson]

/-- What a cache holds does not depend on what it has counted. -/
theorem Holds.with_counts (h : c.Holds paths m) (counts : CacheCounts) :
    Holds { c with counts } paths m := ⟨h.folder, h.takes, h.records, h.entry, h.blob⟩

/-- What is counted makes no difference to the map that a cache represents. -/
theorem Represents.with_counts (h : c.Represents paths m) (counts : CacheCounts) :
    Represents { c with counts } paths m := ⟨h.toHolds.with_counts counts, h.index⟩

/-- A look-up finds the entry of the map, unless another content is asked for. -/
theorem Holds.lookup_eq (h : c.Holds paths m) (now : Int) (f : Bytes) (contentHash : Option Bytes) :
    c.lookup now f contentHash = match m f with
      | none => .notFound
      | some e =>
        if contentHash.any (· ≠ e.contentHash) then .hashMismatch else .hit (e.restored now) :=
  h.tells.lookup_eq now f contentHash

/-! ## Storing and removing -/

variable (hnames : Set.InjOn CacheEntry.blobName paths)

include hnames

/-- When the blob and the record of one file change, the entry of that file changes in the map.
Either both come from an entry or both are gone. -/
theorem Holds.update (h : c.Holds paths m) {files : FileTree} {records : Dict CacheRecord}
    {f : Bytes} (hf : f ∈ paths) {e? : Option CacheEntry} {blob? : Option Bytes} {place : Place}
    (hfolder : files.Folder c.directory place (fileNames paths))
    (hread : ∀ n ∈ fileNames paths, files.read? (Path.join c.directory n) =
      if n = CacheEntry.blobName f then blob? else c.files.read? (Path.join c.directory n))
    (hrecords : ∀ g, records.get? g = if g = f then e?.map .ofEntry else c.records.get? g)
    (hentry : ∀ e, e? = some e → e.filePath = f ∧ e.Storable ∧
      ∃ text, blob? = some text ∧ Json.parse? text = some e.toBlob) :
    Holds { c with files, records } paths (Function.update m f e?) where
  folder := ⟨place, hfolder⟩
  takes := h.takes
  records := by
    intro g
    rw [hrecords, Function.update_apply]
    split
    · rfl
    · exact h.records g
  entry := by
    intro g e he
    rw [Function.update_apply] at he
    split at he
    · next heq =>
      obtain ⟨hpath, hstorable, -⟩ := hentry e he
      exact ⟨heq ▸ hf, hpath.trans heq.symm, hstorable⟩
    · exact h.entry g e he
  blob := by
    intro g e he
    rw [Function.update_apply] at he
    split at he
    · next heq =>
      obtain ⟨-, -, text, htext, hparse⟩ := hentry e he
      refine ⟨text, ?_, hparse⟩
      rw [blobPath, heq, hread _ (blobName_mem hf), if_pos rfl, htext]
    · next hne =>
      obtain ⟨hg, -, -⟩ := h.entry g e he
      obtain ⟨text, hblob, hparse⟩ := h.blob g e he
      have hname : CacheEntry.blobName g ≠ CacheEntry.blobName f :=
        fun heq => hne (hnames hg hf heq)
      refine ⟨text, ?_, hparse⟩
      rw [blobPath, hread _ (blobName_mem hg), if_neg hname]
      exact hblob

/-- Writing an entry puts it into the map. -/
theorem Holds.writeEntry (h : c.Holds paths m) {e : CacheEntry} (hpath : e.filePath ∈ paths)
    (he : e.Storable) : ∃ c', c.writeEntry e = (c', .ok true) ∧ c'.directory = c.directory ∧
      c'.Holds paths (Function.update m e.filePath (some e)) := by
  obtain ⟨place, hfolder⟩ := h.folder
  obtain ⟨text, htext, hparse⟩ := he.faithful.exists_compact?
  obtain ⟨files, hwrite, hfolder', hread⟩ :=
    hfolder.exists_writeText (blobName_mem hpath) (h.takes _ (blobName_mem hpath) text)
  refine ⟨{ c with files, records := c.records.insert e.filePath (.ofEntry e) }, ?_, rfl, ?_⟩
  · unfold DiskCache.writeEntry blobPath
    simp only [htext, hwrite]
  · refine h.update hnames hpath hfolder' hread (fun g => Dict.get?_insert ..) ?_
    rintro _ ⟨⟩
    exact ⟨rfl, he, text, rfl, hparse⟩

/-- Storing the chunks of a file puts their entry into the map. -/
theorem Represents.store (h : c.Represents paths m) (now : Int) {filePath : Bytes}
    (hpath : filePath ∈ paths) {chunks : List Chunk} {contentHash : Bytes} {metadata : Json}
    (he : (CacheEntry.ofChunks now filePath chunks contentHash metadata).Storable) :
    ∃ c', c.store now filePath chunks contentHash metadata = (c', .ok true) ∧
      c'.directory = c.directory ∧ c'.Represents paths (Function.update m filePath
        (some (.ofChunks now filePath chunks contentHash metadata))) := by
  obtain ⟨c', hwrite, hdirectory, hholds⟩ := h.toHolds.writeEntry hnames hpath he
  obtain ⟨files, hsave, hrepresents⟩ := hholds.saveIndex
  refine ⟨{ c' with files, counts.stores := c'.counts.stores + 1 }, ?_, hdirectory,
    hrepresents.with_counts _⟩
  rw [DiskCache.store, hwrite]
  simp only [hsave]

/-- Removing an entry takes it out of the map. -/
theorem Holds.removeEntry (h : c.Holds paths m) (f : Bytes) :
    (c.removeEntry f).directory = c.directory ∧
      (c.removeEntry f).Holds paths (Function.update m f none) := by
  have hrecord := h.records f
  rw [DiskCache.removeEntry, hrecord]
  cases he : m f with
  | none => exact ⟨rfl, by rwa [Function.update_eq_self_iff.mpr he.symm]⟩
  | some e =>
    obtain ⟨place, hfolder⟩ := h.folder
    obtain ⟨hf, hpath, -⟩ := h.entry f e he
    have hname : (CacheRecord.ofEntry e).blobName = CacheEntry.blobName f := by
      rw [← hpath]
      rfl
    obtain ⟨hfolder', hread⟩ := hfolder.read?_remove (blobName_mem hf)
    simp only [Option.map_some, hname]
    exact ⟨trivial, h.update hnames hf hfolder' hread (fun g => Dict.get?_erase ..) nofun⟩

/-- Removing entries one after another takes them out of the map. -/
theorem Holds.foldl_removeEntry (h : c.Holds paths m) (fs : List Bytes) :
    (fs.foldl DiskCache.removeEntry c).directory = c.directory ∧
      (fs.foldl DiskCache.removeEntry c).Holds paths fun f => if f ∈ fs then none else m f := by
  induction fs generalizing c m with
  | nil => exact ⟨rfl, by simpa using h⟩
  | cons f rest ih =>
    obtain ⟨hdirectory, hholds⟩ := h.removeEntry hnames f
    obtain ⟨hdirectory', hholds'⟩ := ih hholds
    refine ⟨hdirectory'.trans hdirectory, ?_⟩
    have hmap : (fun g => if g ∈ f :: rest then none else m g) =
        fun g => if g ∈ rest then none else Function.update m f none g := by
      funext g
      by_cases hg : g = f <;> by_cases hrest : g ∈ rest <;> simp [hg, hrest]
    rw [hmap]
    exact hholds'

/-- Removing files takes their entries out of the map. -/
theorem Represents.removeAll (h : c.Represents paths m) (fs : List Bytes) :
    ∃ c', c.removeAll fs = (c', .ok fs.length) ∧ c'.directory = c.directory ∧
      c'.Represents paths fun f => if f ∈ fs then none else m f := by
  obtain ⟨hdirectory, hholds⟩ := h.toHolds.foldl_removeEntry hnames fs
  obtain ⟨files, hsave, hrepresents⟩ := hholds.saveIndex
  refine ⟨{ fs.foldl DiskCache.removeEntry c with files }, ?_, hdirectory, hrepresents⟩
  rw [DiskCache.removeAll, hsave]
  rfl

/-- Removing a file takes its entry out of the map. -/
theorem Represents.invalidate (h : c.Represents paths m) (f : Bytes) :
    ∃ c' n, c.invalidate f = (c', .ok n) ∧ c'.directory = c.directory ∧
      c'.Represents paths (Function.update m f none) := by
  obtain ⟨c', hremove, hdirectory, hrepresents⟩ := h.removeAll hnames
    (if c.records.contains f then [f] else [])
  refine ⟨c', _, hremove, hdirectory, ?_⟩
  have hmap : (fun g => if g ∈ (if c.records.contains f then [f] else []) then none else m g) =
      Function.update m f none := by
    funext g
    rw [Function.update_apply]
    by_cases hg : g = f
    · rw [if_pos hg, hg]
      cases he : m f with
      | none => simp
      | some e => simp [Dict.contains, h.records, he]
    · rw [if_neg hg]
      split <;> simp [hg]
  rwa [hmap] at hrepresents

omit hnames

/-! ## Opening -/

/-- A directory that has a cache is opened as it is, on any disk that takes what is written. -/
theorem Represents.openAt (h : c.Represents paths m) {device : FileTree.Device}
    (htakes : ∀ n ∈ fileNames paths, ∀ text, device (Path.join c.directory n) text = .whole) :
    ∃ c', DiskCache.openAt c.files c.directory device = (c.files, .ok c') ∧
      c'.directory = c.directory ∧ c'.files = c.files ∧ c'.Represents paths m := by
  obtain ⟨place, hfolder⟩ := h.folder
  have hdirectory : c.files.isDirectoryAt c.directory := by
    rw [FileTree.isDirectoryAt_iff, FileTree.find?, hfolder.resolve]
    exact hfolder.directory
  have hmake := FileTree.makeDirectories_of_isDirectoryAt hdirectory
  refine ⟨⟨c.files, c.directory, c.records, .zero, device⟩, ?_, rfl, rfl,
    ⟨h.folder, htakes, h.records, h.entry, h.blob⟩, h.index⟩
  have hindex := h.index
  rw [indexPath] at hindex
  rw [DiskCache.openAt, hmake]
  simp only [hindex, Except.map]

/-- A cache that was opened has the index that is on disk, and is on the disk that was given. -/
theorem loadIndex_of_openAt {files files' : FileTree} {directory : Bytes}
    {device : FileTree.Device} (hopen : DiskCache.openAt files directory device = (files', .ok c)) :
    loadIndex c.files c.indexPath = .ok c.records ∧ c.device = device := by
  unfold DiskCache.openAt at hopen
  split at hopen
  · exact absurd (congrArg Prod.snd hopen) nofun
  · next files'' hmake =>
    obtain ⟨-, hload⟩ := Prod.mk.inj hopen
    cases hindex : loadIndex files'' (Path.join directory indexName) with
    | error e =>
      rw [hindex] at hload
      exact absurd hload nofun
    | ok records =>
      rw [hindex] at hload
      obtain rfl := Except.ok.inj hload
      exact ⟨hindex, rfl⟩

/-- A directory without records that is opened has an empty cache, if the files of the cache can be
opened there. -/
theorem represents_of_openAt {files files' : FileTree} {directory : Bytes}
    (hopen : DiskCache.openAt files directory = (files', .ok c)) (hempty : c.records = Dict.empty)
    (hwrite : ∀ n ∈ fileNames paths, c.files.CanWrite c.directory n) :
    c.Represents paths fun _ => none := by
  obtain ⟨hload, hdevice⟩ := loadIndex_of_openAt hopen
  obtain ⟨place, hfolder⟩ := FileTree.exists_folder ⟨_, indexName_mem paths⟩
    (fun n hn => plain_of_mem_fileNames hn) hwrite
  refine ⟨⟨⟨place, hfolder⟩, fun n _ text => ?_, fun f => ?_, nofun, nofun⟩, hload⟩
  · rw [hdevice]
    rfl
  · rw [hempty]
    rfl

end DiskCache

end SourceChunks
