import SourceChunks.DiskCache.Exchange
import SourceChunks.Proofs.DiskCache.Writing
import SourceChunks.Proofs.Instant

/-!
# Caches in documents

A cache whose blobs can be read is told whole by its document, and a cache that takes over this
document tells the same entries, once read. Reading an entry twice or more is the same as reading it
once, but for its time where the text of the time does not tell it.
-/

namespace SourceChunks

/-! ## Entries that are read more than once -/

/-- A text that tells an instant: that of an instant which a clock of nanoseconds can tell and which
is not in the last second before 1970. -/
def Instant.IsTold (text : Bytes) : Prop :=
  ∃ t : Instant, t.Dated ∧ ¬ t.InLastSecond ∧ text = t.toText

namespace CacheEntry

variable {e e' : CacheEntry}

/-- The entry with its time left out. -/
def undated (e : CacheEntry) : CacheEntry := { e with timestamp := ⟨0⟩ }

/-- An entry is known by its time and the rest. -/
theorem eq_of_undated_eq (h : e.undated = e'.undated) (htime : e.timestamp = e'.timestamp) :
    e = e' := by
  cases e
  cases e'
  simp only [undated, mk.injEq, true_and] at h htime ⊢
  exact ⟨h.1, h.2.1, htime, h.2.2⟩

/-- A chunk that was completed is complete. -/
theorem complete_complete (filePath language : Bytes) (c : Chunk) :
    complete filePath language (complete filePath language c) = complete filePath language c := by
  cases hpath : c.filePath <;> cases hlanguage : c.language <;> simp [complete, hpath, hlanguage]

/-- Apart from its time, an entry that was read is read as itself. -/
theorem undated_restored_restored (e : CacheEntry) (now now' now'' : Int) :
    ((e.restored now).restored now').undated = (e.restored now'').undated := by
  have hchunks : (e.chunks.map (complete e.filePath e.language)).map
      (complete e.filePath e.language) = e.chunks.map (complete e.filePath e.language) := by
    rw [List.map_map]
    exact List.map_congr_left fun c _ => complete_complete e.filePath e.language c
  simp only [undated, restored, hchunks]

/-- An entry that went through a document: it was read for the export and again for the import. -/
def carried (now now' : Int) (e : CacheEntry) : CacheEntry := (e.restored now).restored now'

/-- If its time is told, an entry that was read is read as itself, whenever this is. -/
theorem restored_restored (h : Instant.IsTold e.timestamp.toText) (now now' now'' : Int) :
    (e.restored now).restored now' = e.restored now'' := by
  obtain ⟨t, hdated, hsecond, htext⟩ := h
  have htold : Instant.ofText? t.toText = some t := by
    rw [Instant.ofText?_toText hdated, if_neg hsecond]
  have hrestored (now : Int) : (e.restored now).timestamp = t := by
    simp only [restored, htext, htold, Option.getD_some]
  apply eq_of_undated_eq (undated_restored_restored e now now' now'')
  rw [hrestored, restored]
  simp only [hrestored, htold, Option.getD_some]

/-- If its time is not told, an entry that was read has the time at which it was read. -/
theorem timestamp_restored (h : Instant.ofText? e.timestamp.toText = none) (now : Int) :
    (e.restored now).timestamp = .ofNanos now := by
  simp only [restored, h, Option.getD_none]

end CacheEntry

namespace DiskCache

variable {c : DiskCache} {paths : Set Bytes} {m : Bytes → Option CacheEntry}

/-! ## The document of a cache -/

/-- The entries of a map that a cache has records of, in the order of their paths. -/
def told (c : DiskCache) (m : Bytes → Option CacheEntry) : List CacheEntry :=
  c.records.keys.filterMap m

namespace Tells

/-- A path of the index has an entry. -/
theorem exists_of_mem_keys (h : c.Tells m) {f : Bytes} (hf : f ∈ c.records.keys) :
    ∃ e, m f = some e := by
  obtain ⟨r, hr⟩ := Dict.mem_keys_iff.mp hf
  rw [h.records] at hr
  obtain ⟨e, he, -⟩ := Option.map_eq_some_iff.mp hr
  exact ⟨e, he⟩

/-- The entries of a cache are those of the map. -/
theorem mem_told_iff (h : c.Tells m) {e : CacheEntry} : e ∈ c.told m ↔ m e.filePath = some e := by
  rw [told, List.mem_filterMap]
  constructor
  · rintro ⟨f, -, he⟩
    rwa [(h.entry f e he).1]
  · intro he
    have hrecord : c.records.get? e.filePath = some (.ofEntry e) := by
      rw [h.records, he]
      rfl
    exact ⟨e.filePath, Dict.mem_keys_iff.mpr ⟨_, hrecord⟩, he⟩

/-- There is one entry for each path of the index. -/
theorem map_filePath_told (h : c.Tells m) :
    (c.told m).map CacheEntry.filePath = c.records.keys := by
  have hkeys : ∀ fs : List Bytes, (∀ f ∈ fs, f ∈ c.records.keys) →
      (fs.filterMap m).map CacheEntry.filePath = fs := by
    intro fs
    induction fs with
    | nil => exact fun _ => rfl
    | cons f rest ih =>
      intro hfs
      obtain ⟨hf, hrest⟩ := List.forall_mem_cons.mp hfs
      obtain ⟨e, he⟩ := h.exists_of_mem_keys hf
      rw [List.filterMap_cons_some he, List.map_cons, (h.entry f e he).1, ih hrest]
  exact hkeys c.records.keys fun _ => id

/-- A cache tells as many entries as it has records. -/
theorem length_told (h : c.Tells m) : (c.told m).length = c.size := by
  rw [← List.length_map CacheEntry.filePath, h.map_filePath_told, Dict.length_keys, size]

/-- The first entry of a path is the one of the map. -/
theorem find?_told (h : c.Tells m) (f : Bytes) : (c.told m).find? (·.filePath = f) = m f := by
  cases he : m f with
  | none =>
    rw [List.find?_eq_none]
    intro e he' hpath
    have hentry := h.mem_told_iff.mp he'
    rw [of_decide_eq_true hpath, he] at hentry
    exact absurd hentry nofun
  | some e =>
    obtain ⟨hpath, -⟩ := h.entry f e he
    have hmem : e ∈ c.told m := h.mem_told_iff.mpr (hpath.symm ▸ he)
    cases hfind : (c.told m).find? (·.filePath = f) with
    | none => exact absurd (decide_eq_true hpath) (List.find?_eq_none.mp hfind e hmem)
    | some e' =>
      have hentry := h.mem_told_iff.mp (List.mem_of_find?_eq_some hfind)
      have hpath' : e'.filePath = f := by simpa using List.find?_some hfind
      rw [hpath', he] at hentry
      exact hentry.symm

/-- What a document has of an entry: its path, and its document as it was read. -/
theorem filterMap_readEntry (h : c.Tells m) (now : Int) :
    (c.records.entries.filterMap fun r =>
      (c.readEntry now r.1 r.2).found?.map fun e => (r.1, e.toJson)) =
      (c.told m).map fun e => (e.filePath, (e.restored now).toJson) := by
  rw [told, Dict.keys, List.filterMap_map, List.map_filterMap]
  apply List.filterMap_congr
  rintro ⟨f, r⟩ hr
  have hrecord : c.records.get? f = some r := Dict.get?_eq_some_iff.mpr hr
  rw [h.records] at hrecord
  obtain ⟨e, he, rfl⟩ := Option.map_eq_some_iff.mp hrecord
  obtain ⟨rfl, -⟩ := h.entry f e he
  simp only [h.readEntry_ofEntry now he, CacheLookup.found?, Option.map_some, Function.comp, he]

/-- The entries of a document are in the order of their paths. -/
theorem sorted_told (h : c.Tells m) (now : Int) :
    Entries.Sorted ((c.told m).map fun e => (e.filePath, (e.restored now).toJson)) := by
  have hkeys : (c.told m).Pairwise fun e e' => e.filePath < e'.filePath := by
    rw [← List.pairwise_map, h.map_filePath_told]
    exact c.records.pairwise_keys
  exact List.pairwise_map.mpr hkeys

/-- The document of a cache can be written and read back. -/
theorem faithful_exportDocument (h : c.Tells m) (now : Int) :
    Json.Faithful (c.exportDocument now) := by
  have hentries : Json.Faithful (Json.ofMembers
      ((c.told m).map fun e => (e.filePath, (e.restored now).toJson))) := by
    apply Json.faithful_ofMembers
    intro v hv
    obtain ⟨e, he, rfl⟩ := List.mem_map.mp hv
    obtain ⟨-, hstorable⟩ := h.entry _ e (h.mem_told_iff.mp he)
    exact ⟨hstorable.filePath_utf8, (hstorable.restored now).faithful_toJson⟩
  rw [exportDocument, h.filterMap_readEntry]
  refine Json.faithful_ofMembers ?_
  simp only [List.forall_mem_cons, List.not_mem_nil, false_implies, implies_true, and_true]
  exact ⟨⟨by decide, h.allStorable.faithful⟩, ⟨by decide, hentries⟩⟩

/-- The entries of the document of a cache are those of the cache, read twice. -/
theorem entriesOf_exportDocument (h : c.Tells m) (now now' : Int) :
    entriesOf now' (c.exportDocument now) =
      .ok ((c.told m).map (CacheEntry.carried now now')) := by
  have hmember : (c.exportDocument now).member? (bytes "entries") =
      some (.object ((c.told m).map fun e => (e.filePath, (e.restored now).toJson))) := by
    rw [exportDocument, h.filterMap_readEntry, Json.ofMembers_of_sorted (h.sorted_told now)]
    refine Json.member?_ofMembers ?_ (List.mem_cons_of_mem _ List.mem_cons_self)
    simp only [List.map_cons, List.map_nil]
    decide
  -- The blob was read for the export, and its document is read for the import.
  have hread : ((c.told m).map fun e => (e.filePath, (e.restored now).toJson)).mapM
      (fun e => CacheEntry.ofJson? now' e.1 e.2) =
        some ((c.told m).map (CacheEntry.carried now now')) := by
    apply Json.mapM_map_eq_some_map
    intro e he
    obtain ⟨-, hstorable⟩ := h.entry _ e (h.mem_told_iff.mp he)
    exact (hstorable.restored now).ofJson?_toJson now'
  rw [entriesOf, hmember]
  simp only [hread]

/-- What a cache writes to a file is read as its document, unless no file can be opened. The disk
has to take the document. -/
theorem exportTo_cases (h : c.Tells m) (now : Int) {path : Bytes}
    (htakes : ∀ text, c.device path text = .whole) :
    c.exportTo now path = (c, .error (.unwritableExport ⟨path, false⟩)) ∨
    ∃ files text, c.exportTo now path = ({ c with files }, .ok ()) ∧
      files.read? path = some text ∧ Json.parse? text = some (c.exportDocument now) := by
  obtain ⟨text, htext, hparse⟩ := (h.faithful_exportDocument now).exists_pretty? 2
  cases hwrite : c.files.write path text with
  | error e =>
    left
    rw [exportTo, htext, (FileTree.cannotOpen_of_write hwrite).writeText]
  | ok files =>
    right
    refine ⟨files, text, ?_, FileTree.read?_of_find?_file (FileTree.find?_write hwrite), hparse⟩
    rw [exportTo, htext, FileTree.writeText_of_whole (htakes text) hwrite]

end Tells

/-- What is imported from a file is the document in it. -/
theorem importFrom_of_parse? {path text : Bytes} {document : Json} (now : Int)
    (hread : c.files.read? path = some text) (hparse : Json.parse? text = some document) :
    c.importFrom now path = c.importDocument now document := by
  rw [importFrom, hread]
  simp only [hparse]

/-! ## Taking over a document -/

/-- A cache after all of its entries were removed. Its index on disk still has them. -/
def cleared (c : DiskCache) : DiskCache := c.records.keys.foldl DiskCache.removeEntry c

/-- Removing an entry removes its record, and nothing else happens to the index. -/
theorem removeEntry_eq (c : DiskCache) (f : Bytes) : (c.removeEntry f).directory = c.directory ∧
    ∀ g, (c.removeEntry f).records.get? g = if g = f then none else c.records.get? g := by
  unfold DiskCache.removeEntry
  split
  · next hnone =>
    refine ⟨rfl, fun g => ?_⟩
    split
    · next heq => rw [heq, hnone]
    · rfl
  · exact ⟨rfl, fun g => Dict.get?_erase ..⟩

/-- Removing entries one after another removes their records. -/
theorem foldl_removeEntry_eq (c : DiskCache) (fs : List Bytes) :
    (fs.foldl DiskCache.removeEntry c).directory = c.directory ∧
      ∀ g, (fs.foldl DiskCache.removeEntry c).records.get? g =
        if g ∈ fs then none else c.records.get? g := by
  induction fs generalizing c with
  | nil => exact ⟨rfl, fun g => (if_neg List.not_mem_nil).symm⟩
  | cons f rest ih =>
    obtain ⟨hdirectory, hrecords⟩ := removeEntry_eq c f
    obtain ⟨hdirectory', hrecords'⟩ := ih (c.removeEntry f)
    refine ⟨hdirectory'.trans hdirectory, fun g => ?_⟩
    rw [List.foldl_cons, hrecords', hrecords]
    by_cases hg : g = f <;> by_cases hrest : g ∈ rest <;> simp [hg, hrest]

/-- Clearing a cache does not move its directory. -/
theorem directory_cleared (c : DiskCache) : c.cleared.directory = c.directory :=
  (foldl_removeEntry_eq c c.records.keys).1

/-- No records are left then. -/
theorem records_cleared (c : DiskCache) : c.cleared.records = Dict.empty := by
  apply Dict.ext_get?
  intro f
  rw [cleared, (foldl_removeEntry_eq c c.records.keys).2, Dict.get?_empty]
  split
  · rfl
  · next hf =>
    cases hr : c.records.get? f with
    | none => rfl
    | some r => exact absurd (Dict.mem_keys_iff.mpr ⟨r, hr⟩) hf

/-- A cache without entries holds none, if its files can be written. -/
theorem holds_cleared (hwrite : ∀ n ∈ fileNames paths, c.cleared.CanWrite n) :
    c.cleared.Holds paths fun _ => none := by
  obtain ⟨place, hfolder⟩ := FileTree.exists_folder ⟨_, indexName_mem paths⟩
    (fun n hn => plain_of_mem_fileNames hn) fun n hn => (hwrite n hn).opened
  refine ⟨⟨place, hfolder⟩, fun n hn => (hwrite n hn).takes, fun f => ?_, nofun, nofun⟩
  rw [records_cleared]
  rfl

/-- What is found of a path in a list or else in a map, if the head of the list goes to the map. -/
theorem find?_cons_or {e : CacheEntry} {es : List CacheEntry}
    (he : e.filePath ∉ es.map CacheEntry.filePath) (m : Bytes → Option CacheEntry) (f : Bytes) :
    ((e :: es).find? (·.filePath = f)).or (m f) =
      (es.find? (·.filePath = f)).or (Function.update m e.filePath (some e) f) := by
  by_cases hf : e.filePath = f
  · have hnone : es.find? (·.filePath = f) = none := by
      rw [List.find?_eq_none]
      intro e' he' hpath'
      exact he (List.mem_map.mpr ⟨e', he', (of_decide_eq_true hpath').trans hf.symm⟩)
    simp only [List.find?_cons, hf, decide_true, hnone, Function.update_self, Option.some_or,
      Option.none_or]
  · rw [List.find?_cons_of_neg (by simpa using hf), Function.update_of_ne (Ne.symm hf)]

variable (hnames : Set.InjOn CacheEntry.blobName paths)

include hnames

/-- Writing entries of different paths puts each of them into the map. -/
theorem Holds.writeEntries (h : c.Holds paths m) {es : List CacheEntry}
    (hes : ∀ e ∈ es, e.filePath ∈ paths ∧ e.Storable)
    (hnodup : (es.map CacheEntry.filePath).Nodup) :
    ∃ c', c.writeEntries es = (c', .ok es.length) ∧ c'.directory = c.directory ∧
      c'.Holds paths fun f => (es.find? (·.filePath = f)).or (m f) := by
  induction es generalizing c m with
  | nil => exact ⟨c, rfl, rfl, h⟩
  | cons e rest ih =>
    obtain ⟨⟨hpath, hstorable⟩, hrest⟩ := List.forall_mem_cons.mp hes
    obtain ⟨hfirst, hnodup⟩ := List.nodup_cons.mp hnodup
    obtain ⟨c₁, hwrite, hdirectory, hholds⟩ := h.writeEntry hnames hpath hstorable
    obtain ⟨c₂, hwrites, hdirectory', hholds'⟩ :=
      ih (hholds.with_counts { c₁.counts with stores := c₁.counts.stores + 1 }) hrest hnodup
    refine ⟨c₂, ?_, hdirectory'.trans hdirectory, ?_⟩
    · rw [DiskCache.writeEntries, hwrite]
      simp only [hwrites]
      rfl
    · rwa [funext fun f => find?_cons_or hfirst m f]

/-- The files of a cache in normal use can be written once its entries are removed. -/
theorem Holds.canWrite_cleared (h : c.Holds paths m) :
    ∀ n ∈ fileNames paths, c.cleared.CanWrite n := by
  obtain ⟨-, hholds⟩ := h.foldl_removeEntry hnames c.records.keys
  obtain ⟨place, hfolder⟩ := hholds.folder
  exact fun n hn => ⟨hfolder.canWrite hn, hholds.takes n hn⟩

/-- A cache that takes over a document represents its entries, and what it had is gone. -/
theorem represents_importDocument
    (hwrite : ∀ n ∈ fileNames paths, c.cleared.CanWrite n) {now : Int}
    {document : Json} {es : List CacheEntry} (hentries : entriesOf now document = .ok es)
    (hes : ∀ e ∈ es, e.filePath ∈ paths ∧ e.Storable)
    (hnodup : (es.map CacheEntry.filePath).Nodup) :
    ∃ c', c.importDocument now document = (c', .ok es.length) ∧ c'.directory = c.directory ∧
      c'.Represents paths fun f => es.find? (·.filePath = f) := by
  obtain ⟨c₁, hwrites, hdirectory, hholds⟩ := (holds_cleared hwrite).writeEntries hnames hes hnodup
  obtain ⟨files, hsave, hrepresents⟩ := hholds.saveIndex
  refine ⟨{ c₁ with files }, ?_, hdirectory.trans c.directory_cleared, ?_⟩
  · rw [cleared] at hwrites
    rw [DiskCache.importDocument, hentries]
    simp only [hwrites, hsave]
    rfl
  · simpa only [Option.or_none] using hrepresents

omit hnames

/-- The entries of a cache are those of its files. -/
theorem Tells.contains_of_mem_told (h : c.Tells m) {e : CacheEntry} (he : e ∈ c.told m) :
    c.contains e.filePath ∧ e.Storable := by
  have hentry := h.mem_told_iff.mp he
  refine ⟨?_, (h.entry _ e hentry).2⟩
  rw [contains, Dict.contains, h.records, hentry]
  rfl

/-- A cache takes over what another one tells, as it is read twice. -/
theorem Tells.represents_importDocument {b : DiskCache} (h : c.Tells m)
    (hnames : Set.InjOn CacheEntry.blobName {f | c.contains f})
    (hwrite : ∀ n ∈ fileNames {f | c.contains f}, b.cleared.CanWrite n)
    (now now' : Int) :
    ∃ b', b.importDocument now' (c.exportDocument now) = (b', .ok c.size) ∧
      b'.Represents {f | c.contains f}
        fun f => (m f).map (CacheEntry.carried now now') := by
  have hes : ∀ e ∈ (c.told m).map (CacheEntry.carried now now'),
      e.filePath ∈ {f | c.contains f} ∧ e.Storable := by
    intro e' he'
    obtain ⟨e, he, rfl⟩ := List.mem_map.mp he'
    obtain ⟨hcontains, hstorable⟩ := h.contains_of_mem_told he
    exact ⟨hcontains, (hstorable.restored now).restored now'⟩
  have hnodup : (((c.told m).map (CacheEntry.carried now now')).map
      CacheEntry.filePath).Nodup := by
    have hpaths : ((c.told m).map (CacheEntry.carried now now')).map
        CacheEntry.filePath = c.records.keys := by
      rw [List.map_map]
      exact h.map_filePath_told
    rw [hpaths]
    exact c.records.sorted.nodup_keys
  obtain ⟨b', himport, -, hrepresents⟩ := DiskCache.represents_importDocument hnames hwrite
    (h.entriesOf_exportDocument now now') hes hnodup
  refine ⟨b', ?_, ?_⟩
  · rw [himport, List.length_map, h.length_told]
  · have hmap (f : Bytes) : ((c.told m).map (CacheEntry.carried now now')).find?
        (·.filePath = f) = (m f).map (CacheEntry.carried now now') := by
      rw [List.find?_map, ← h.find?_told f]
      rfl
    rwa [funext hmap] at hrepresents

/-! ## Blobs that are gone -/

/-- The blobs of a cache are files of its directory under the names of their paths. -/
def OwnsBlobs (c : DiskCache) : Prop :=
  ∀ f r, c.records.get? f = some r →
    r.blobName = CacheEntry.blobName f ∧ c.files.CanWrite c.directory (CacheEntry.blobName f)

/-- After entries were removed their blobs cannot be read, and neither can those that could not be
read before. -/
theorem read?_foldl_removeEntry {place : Place} {names : Set Bytes}
    (hfolder : c.files.Folder c.directory place names)
    (hown : ∀ f r, c.records.get? f = some r →
      r.blobName = CacheEntry.blobName f ∧ CacheEntry.blobName f ∈ names)
    {fs : List Bytes} {n : Bytes} (hn : n ∈ names)
    (h : c.files.read? (c.blobPath n) = none ∨
      ∃ f ∈ fs, c.contains f ∧ n = CacheEntry.blobName f) :
    (fs.foldl DiskCache.removeEntry c).files.read? (c.blobPath n) = none := by
  -- By induction on what is left to remove: a blob is gone already, or is the one of an entry that
  -- is still there and will be removed.
  induction fs generalizing c with
  | nil =>
    rcases h with h | ⟨f, hf, -⟩
    · exact h
    · exact absurd hf List.not_mem_nil
  | cons g rest ih =>
    rw [List.foldl_cons, DiskCache.removeEntry]
    cases hr : c.records.get? g with
    | none =>
      refine ih hfolder hown (h.imp_right ?_)
      rintro ⟨f, hf, hcontains, hname⟩
      have hne : f ≠ g := by
        rintro rfl
        rw [contains, Dict.contains, hr] at hcontains
        exact Bool.false_ne_true hcontains
      exact ⟨f, List.mem_of_ne_of_mem hne hf, hcontains, hname⟩
    | some r =>
      obtain ⟨hname, hmem⟩ := hown g r hr
      obtain ⟨hfolder', hread⟩ := hfolder.read?_remove hmem
      simp only [hname]
      refine ih hfolder' ?_ ?_
      · intro f r' hr'
        rw [Dict.get?_erase] at hr'
        split at hr'
        · exact absurd hr'.symm (Option.some_ne_none r')
        · exact hown f r' hr'
      · rw [blobPath, blobPath, hread n hn]
        split
        · exact Or.inl rfl
        · next hne =>
          refine h.imp_right ?_
          rintro ⟨f, hf, hcontains, hblob⟩
          have hfg : f ≠ g := by
            rintro rfl
            exact hne hblob
          refine ⟨f, List.mem_of_ne_of_mem hfg hf, ?_, hblob⟩
          rw [contains, Dict.contains, Dict.get?_erase, if_neg hfg]
          exact hcontains

/-- The blobs of a cache that owns them are gone with its entries. -/
theorem OwnsBlobs.read?_cleared (h : c.OwnsBlobs) {f : Bytes} (hf : c.contains f) :
    c.cleared.files.read? (c.blobPath (CacheEntry.blobName f)) = none := by
  have hcanWrite : ∀ n ∈ CacheEntry.blobName '' {f | c.contains f},
      c.files.CanWrite c.directory n := by
    rintro _ ⟨f, hf, rfl⟩
    obtain ⟨r, hr⟩ := Option.isSome_iff_exists.mp hf
    exact (h f r hr).2
  have hplain : ∀ n ∈ CacheEntry.blobName '' {f | c.contains f}, Path.Plain n := by
    rintro _ ⟨f, -, rfl⟩
    exact CacheEntry.plain_blobName f
  have hname : CacheEntry.blobName f ∈ CacheEntry.blobName '' {f | c.contains f} := ⟨f, hf, rfl⟩
  have hkey : f ∈ c.records.keys := Dict.mem_keys_iff.mpr (Option.isSome_iff_exists.mp hf)
  obtain ⟨place, hfolder⟩ := FileTree.exists_folder ⟨_, hname⟩ hplain hcanWrite
  refine read?_foldl_removeEntry hfolder (fun g r hr => ?_) hname (Or.inr ⟨f, hkey, hf, rfl⟩)
  have hg : c.contains g := Option.isSome_iff_exists.mpr ⟨r, hr⟩
  exact ⟨(h g r hr).1, g, hg, rfl⟩

/-- Entries are written under the names of their blobs only. -/
theorem changesOnly_writeEntries (hzero : 0 ∉ c.directory) (es : List CacheEntry) :
    (c.writeEntries es).1.directory = c.directory ∧ (c.writeEntries es).1.device = c.device ∧
      c.files.ChangesOnly (c.writeEntries es).1.files c.directory
        {n | ∃ e ∈ es, n = CacheEntry.blobName e.filePath} := by
  induction es generalizing c with
  | nil => exact ⟨rfl, rfl, .refl ..⟩
  | cons e rest ih =>
    have hfirst : {CacheEntry.blobName e.filePath} ⊆
        {n | ∃ e' ∈ e :: rest, n = CacheEntry.blobName e'.filePath} := by
      rintro _ rfl
      exact ⟨e, List.mem_cons_self, rfl⟩
    have hrest : {n | ∃ e' ∈ rest, n = CacheEntry.blobName e'.filePath} ⊆
        {n | ∃ e' ∈ e :: rest, n = CacheEntry.blobName e'.filePath} := by
      rintro n ⟨e', he', hn⟩
      exact ⟨e', List.mem_cons_of_mem _ he', hn⟩
    unfold DiskCache.writeEntries
    rcases writeEntry_cases hzero e with
      ⟨hwrite, -⟩ | ⟨files, left, r, hwrite, hr, -, hchanges, -⟩ |
      ⟨files, left, text, hwrite, -, -, hchanges, -⟩
    · rw [hwrite]
      obtain ⟨hdirectory, hdevice, hmore⟩ :=
        @ih { c with counts.errors := c.counts.errors + 1 } hzero
      exact ⟨hdirectory, hdevice, hmore.mono hrest⟩
    · rcases hr with rfl | ⟨rfl, -⟩
      · rw [hwrite]
        obtain ⟨hdirectory, hdevice, hmore⟩ :=
          @ih { c with files, counts.errors := c.counts.errors + 1 } hzero
        exact ⟨hdirectory, hdevice, (hchanges.mono hfirst).trans (hmore.mono hrest)⟩
      · rw [hwrite]
        exact ⟨rfl, rfl, hchanges.mono hfirst⟩
    · rw [hwrite]
      obtain ⟨hdirectory, hdevice, hmore⟩ := @ih { c with
        files
        records := c.records.insert e.filePath (.ofEntry e)
        counts.stores := c.counts.stores + 1 } hzero
      exact ⟨hdirectory, hdevice, (hchanges.mono hfirst).trans (hmore.mono hrest)⟩

/-- A cache that owns its blobs has none of them any more after it took over a document, unless the
document has an entry with a blob of this name. -/
theorem OwnsBlobs.read?_importDocument (h : c.OwnsBlobs) (hzero : 0 ∉ c.directory) {now : Int}
    {document : Json} {es : List CacheEntry} (hentries : entriesOf now document = .ok es)
    {f : Bytes}
    (hf : c.contains f)
    (hother : ∀ e ∈ es, CacheEntry.blobName e.filePath ≠ CacheEntry.blobName f) :
    (c.importDocument now document).1.files.read? (c.blobPath (CacheEntry.blobName f)) = none := by
  have hplain := CacheEntry.plain_blobName f
  have hcleared := h.read?_cleared hf
  obtain ⟨hdirectory, -, hchanges⟩ := changesOnly_writeEntries (c.directory_cleared.symm ▸ hzero) es
  rw [directory_cleared] at hdirectory hchanges
  have hwritten : (c.cleared.writeEntries es).1.files.read?
      (c.blobPath (CacheEntry.blobName f)) = none := by
    refine (FileTree.read?_congr (hchanges.find?_eq _ hplain ?_)).trans hcleared
    rintro ⟨e, he, hname⟩
    exact hother e he hname.symm
  have hsaved : (c.cleared.writeEntries es).1.saveIndex.1.files.read?
      (c.blobPath (CacheEntry.blobName f)) = none := by
    rcases saveIndex_cases (hdirectory.symm ▸ hzero) with
      ⟨files, e, hsave, -, hindex⟩ | ⟨files, left, text, hsave, -, -, hindex, -⟩
    · rw [hdirectory] at hindex
      rw [hsave]
      exact (FileTree.read?_congr (hindex.find?_eq _ hplain (blobName_ne_draftName f))).trans
        hwritten
    · rw [hdirectory] at hindex
      rw [hsave]
      refine (FileTree.read?_congr (hindex.find?_eq _ hplain ?_)).trans hwritten
      rintro (heq | heq)
      · exact blobName_ne_draftName f heq
      · exact blobName_ne_indexName f heq
  rw [cleared] at hwritten hsaved
  rw [DiskCache.importDocument, hentries]
  simp only
  split
  · next hwrites => rwa [hwrites] at hwritten
  · next hwrites => rwa [hwrites] at hsaved

end DiskCache

end SourceChunks
