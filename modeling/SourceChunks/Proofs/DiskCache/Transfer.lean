import SourceChunks.Proofs.DiskCache.Exchange
import SourceChunks.Proofs.DiskCache.Gate
import SourceChunks.Proofs.Json.WellFormed

/-!
# Caches that take over other caches

However a cache came to its entries, by storing them or by taking over documents, its own document
carries them into any other cache, which then answers every look-up as the first one did, and into
the cache itself. Only a time that its text does not tell is not carried over: what was stored in
the last second before 1970 gets the time of the export.
-/

namespace SourceChunks

/-- What was found, with the time left out. -/
def CacheLookup.undated : CacheLookup → CacheLookup
  | .hit e => .hit e.undated
  | other => other

namespace DiskCache

variable {c c₀ a b : DiskCache} {s : Set CacheEntry} {gated : Prop}

/-! ## Importing keeps a cache sound -/

/-- Writing entries that can be read back keeps a cache sound. -/
theorem Sound.writeEntries (h : c.Sound s gated) (hzero : 0 ∉ c.directory)
    (hnames : gated → Set.InjOn CacheEntry.blobName (CacheEntry.filePath '' s))
    {es : List CacheEntry} (hes : ∀ e ∈ es, e ∈ s ∧ e.Legible) :
    (c.writeEntries es).1.directory = c.directory ∧ (c.writeEntries es).1.Sound s gated := by
  induction es generalizing c with
  | nil => exact ⟨rfl, h⟩
  | cons e rest ih =>
    obtain ⟨⟨he, hlegible⟩, hrest⟩ := List.forall_mem_cons.mp hes
    unfold DiskCache.writeEntries
    rcases h.writeEntry hzero hnames he hlegible with
      ⟨files, r, hwrite, rfl | rfl, hsound, -⟩ | ⟨c', hwrite, hdirectory, hsound⟩
    · rw [hwrite]
      exact ih (hsound.with_counts { c.counts with errors := c.counts.errors + 1 }) hzero hrest
    · rw [hwrite]
      exact ⟨rfl, hsound⟩
    · rw [hwrite]
      obtain ⟨hdirectory', hsound'⟩ := ih
        (hsound.with_counts { c'.counts with stores := c'.counts.stores + 1 })
        (hdirectory.symm ▸ hzero) hrest
      exact ⟨hdirectory'.trans hdirectory, hsound'⟩

/-- Taking over a document whose entries can be read back keeps a cache sound. -/
theorem Sound.importDocument (h : c.Sound s gated) (hzero : 0 ∉ c.directory)
    (hnames : gated → Set.InjOn CacheEntry.blobName (CacheEntry.filePath '' s)) {now : Int}
    {document : Json}
    (hes : ∀ es, entriesOf now document = .ok es → ∀ e ∈ es, e ∈ s ∧ e.Legible) :
    (c.importDocument now document).1.directory = c.directory ∧
      (c.importDocument now document).1.Sound s gated := by
  unfold DiskCache.importDocument
  cases hentries : entriesOf now document with
  | error f => exact ⟨rfl, h⟩
  | ok es =>
    obtain ⟨hdirectory, hsound⟩ := h.foldl_removeEntry hzero hnames c.records.keys
    obtain ⟨hdirectory', hsound'⟩ :=
      hsound.writeEntries (hdirectory.symm ▸ hzero) hnames (hes es hentries)
    have hwritten := hdirectory'.trans hdirectory
    simp only
    split
    · next hwrites =>
      rw [hwrites] at hwritten hsound'
      exact ⟨hwritten, hsound'⟩
    · next c' n hwrites =>
      rw [hwrites] at hwritten hsound'
      rcases hsound'.saveIndex (hwritten.symm ▸ hzero) with
        ⟨files, hsave, hsaved, -⟩ | ⟨files, f, hsave, -, hsaved⟩
      · rw [hsave]
        exact ⟨hwritten, hsaved⟩
      · rw [hsave]
        exact ⟨hwritten, hsaved⟩

/-! ## Caches in use -/

/-- The entries that come with a document. -/
def imported (now : Int) (document : Json) : Set CacheEntry :=
  {e | ∃ es, entriesOf now document = .ok es ∧ e ∈ es}

/-- The entries that come with the document in a file. -/
def importedFrom (c : DiskCache) (now : Int) (path : Bytes) : Set CacheEntry :=
  {e | ∃ text document, c.files.read? path = some text ∧ Json.parse? text = some document ∧
    e ∈ imported now document}

/-- A document of which a cache can take over the entries: it can be written and read back, and the
chunks can be counted. -/
structure Importable (now : Int) (document : Json) : Prop where
  faithful : Json.Faithful document
  chunkCount_lt : ∀ e ∈ imported now document, e.chunks.length < UInt64.size

/-- The entries of such a document can be stored. -/
theorem Importable.storable {now : Int} {document : Json} (h : Importable now document)
    {e : CacheEntry} (he : e ∈ imported now document) : e.Storable := by
  have hcount := h.chunkCount_lt e he
  obtain ⟨es, hentries, he⟩ := he
  unfold entriesOf at hentries
  split at hentries
  · next members hmember =>
    split at hentries
    · next es' hread =>
      obtain rfl := Except.ok.inj hentries
      obtain ⟨m, hm, hentry⟩ := Json.exists_mem_of_mapM_eq_some hread he
      cases h.faithful.of_member? hmember with
      | object _ keys_utf8 members_faithful =>
        exact CacheEntry.storable_of_ofJson? (members_faithful m hm) (keys_utf8 m hm) hentry hcount
    · exact absurd hentries nofun
  · exact absurd hentries nofun

/-- Of a document that was read, whatever bytes it was read from, the entries can be taken over if
their chunks can be counted. -/
theorem importable_of_parse? {now : Int} {text : Bytes} {document : Json}
    (hparse : Json.parse? text = some document)
    (hcount : ∀ e ∈ imported now document, e.chunks.length < UInt64.size) :
    Importable now document := ⟨Json.faithful_of_parse? hparse, hcount⟩

/-- A cache is used for some time and is given entries. Operations are carried out on it, and it
takes over documents; before its directory is opened again, it is there and has the index that the
cache has in memory. Between that other files change, those of the cache may get lost, and the disk
takes more or less than before. No directory lies where a file is read. -/
inductive UsedWith (c₀ : DiskCache) : Set CacheEntry → DiskCache → Prop
  | start : UsedWith c₀ ∅ c₀
  | perform {s : Set CacheEntry} {c : DiskCache} (h : UsedWith c₀ s c) (op : CacheOperation)
      (hlegible : ∀ e, op.given? = some e → e.Legible)
      (hreopen : op = .reopen → c.files.isDirectoryAt c.directory ∧ c.Current) :
      UsedWith c₀ (s ∪ {e | op.given? = some e}) (c.perform op).1
  | importDocument {s : Set CacheEntry} {c : DiskCache} (h : UsedWith c₀ s c) (now : Int)
      (document : Json) (himportable : Importable now document) :
      UsedWith c₀ (s ∪ imported now document) (c.importDocument now document).1
  | importFrom {s : Set CacheEntry} {c : DiskCache} (h : UsedWith c₀ s c) (now : Int) (path : Bytes)
      (hpath : ¬ c.files.isDirectoryAt path)
      (hcount : ∀ e ∈ c.importedFrom now path, e.chunks.length < UInt64.size) :
      UsedWith c₀ (s ∪ c.importedFrom now path) (c.importFrom now path).1
  | disturb {s : Set CacheEntry} {c : DiskCache} (h : UsedWith c₀ s c) {files : FileTree}
      {device : FileTree.Device} (hspares : c.Spares files)
      (hreads : ReadsFiles { c with files, device }) : UsedWith c₀ s { c with files, device }

/-- A cache in use is sound, and its blobs are those of its records. -/
theorem UsedWith.sound (h : c₀.UsedWith s c) (hnew : c₀.IsNew) (hzero : 0 ∉ c₀.directory)
    (hpaths : Set.InjOn Sha256.hexOf (CacheEntry.filePath '' s)) :
    c.directory = c₀.directory ∧ c.Sound s True := by
  induction h with
  | start => exact ⟨rfl, hnew.sound.1⟩
  | @perform s c h op hlegible hreopen ih =>
    obtain ⟨hdirectory, hsound⟩ := ih (hpaths.mono (Set.image_mono Set.subset_union_left))
    have hleads := (hsound.mono Set.subset_union_left id).leadsTo_perform (hdirectory ▸ hzero)
      (fun _ => injOn_blobName hpaths) (fun e he => ⟨Or.inr he, hlegible e he⟩)
      (fun hop => ⟨(hreopen hop).1, fun _ => (hreopen hop).2⟩)
    exact ⟨hleads.directory_eq.trans hdirectory, hleads.sound⟩
  | @importDocument s c h now document himportable ih =>
    obtain ⟨hdirectory, hsound⟩ := ih (hpaths.mono (Set.image_mono Set.subset_union_left))
    have hes (es : List CacheEntry) (hentries : entriesOf now document = .ok es)
        (e : CacheEntry) (he : e ∈ es) : e ∈ s ∪ imported now document ∧ e.Legible :=
      ⟨Or.inr ⟨es, hentries, he⟩, fun _ => himportable.storable ⟨es, hentries, he⟩⟩
    obtain ⟨hdirectory', hsound'⟩ := (hsound.mono Set.subset_union_left id).importDocument
      (hdirectory ▸ hzero) (fun _ => injOn_blobName hpaths) hes
    exact ⟨hdirectory'.trans hdirectory, hsound'⟩
  | @importFrom s c h now path hpath hcount ih =>
    obtain ⟨hdirectory, hsound⟩ := ih (hpaths.mono (Set.image_mono Set.subset_union_left))
    have hsound := hsound.mono (Set.subset_union_left (t := c.importedFrom now path)) id
    unfold DiskCache.importFrom
    split
    · exact ⟨hdirectory, hsound⟩
    · next text hread =>
      split
      · exact ⟨hdirectory, hsound⟩
      · next document hparse =>
        have himportable : Importable now document := importable_of_parse? hparse fun e he =>
          hcount e ⟨text, document, hread, hparse, he⟩
        have hes (es : List CacheEntry) (hentries : entriesOf now document = .ok es)
            (e : CacheEntry) (he : e ∈ es) : e ∈ s ∪ c.importedFrom now path ∧ e.Legible :=
          ⟨Or.inr ⟨text, document, hread, hparse, es, hentries, he⟩,
            fun _ => himportable.storable ⟨es, hentries, he⟩⟩
        obtain ⟨hdirectory', hsound'⟩ := hsound.importDocument (hdirectory ▸ hzero)
          (fun _ => injOn_blobName hpaths) hes
        exact ⟨hdirectory'.trans hdirectory, hsound'⟩
  | disturb h hspares _ ih =>
    obtain ⟨hdirectory, hsound⟩ := ih hpaths
    exact ⟨hdirectory, hsound.of_spares hspares _⟩

/-! ## Taking over another cache -/

/-- The files of a sound cache were given to it. -/
theorem Sound.contains_subset (h : c.Sound s gated) :
    {f | c.contains f} ⊆ CacheEntry.filePath '' s := by
  intro f hf
  obtain ⟨r, hr⟩ := Option.isSome_iff_exists.mp hf
  obtain ⟨e, he, -, rfl, -⟩ := h.memory f r hr
  exact ⟨e, he, rfl⟩

/-- The blobs of all entries of a cache can be read. -/
def Readable (c : DiskCache) (now : Int) : Prop :=
  ∀ f r, c.records.get? f = some r → ∃ e, c.readEntry now f r = .hit e

/-- What a cache tells can be read, and each look-up is a hit. -/
theorem Tells.readable {m : Bytes → Option CacheEntry} (h : c.Tells m) (now : Int) :
    c.Readable now := by
  intro f r hr
  rw [h.records] at hr
  obtain ⟨e, he, rfl⟩ := Option.map_eq_some_iff.mp hr
  exact ⟨e.restored now, h.readEntry_ofEntry now he⟩

/-- A file is found as it is read, if its content is the one that is asked for. -/
theorem Tells.retrieve_eq_hit {m : Bytes → Option CacheEntry} (h : c.Tells m) {f : Bytes}
    {e : CacheEntry} (he : m f = some e) (now : Int) {contentHash : Option Bytes}
    (hasked : ∀ x ∈ contentHash, x = e.contentHash) :
    (c.retrieve now f contentHash).2 = .hit (e.restored now) := by
  rw [retrieve, h.lookup_eq, he]
  refine if_neg ?_
  intro hother
  obtain ⟨x, hx, hne⟩ := (Option.any_eq_true ..).mp hother
  exact of_decide_eq_true hne (hasked x hx)

/-- A sound cache whose blobs can be read tells the entries that it was given. -/
theorem Sound.exists_tells (h : c.Sound s True) {now : Int} (hread : c.Readable now) :
    ∃ m, c.Tells m := by
  -- The map is chosen path by path, since an entry is known only by its record and its blob.
  have hentry (f : Bytes) : ∃ e? : Option CacheEntry,
      c.records.get? f = e?.map .ofEntry ∧ ∀ e, e? = some e → (e.filePath = f ∧ e.Storable) ∧
        ∃ text, c.files.read? (c.blobPath (CacheEntry.blobName f)) = some text ∧
          Json.parse? text = some e.toBlob := by
    cases hr : c.records.get? f with
    | none => exact ⟨none, rfl, nofun⟩
    | some r =>
      obtain ⟨e', he'⟩ := hread f r hr
      obtain ⟨e, -, hstorable, hpath, rfl, -, hblob⟩ :=
        h.exists_of_readEntry_eq_hit trivial hr he'
      refine ⟨some e, rfl, ?_⟩
      rintro _ ⟨⟩
      exact ⟨⟨hpath, hstorable⟩, hblob⟩
  choose m hm using hentry
  exact ⟨m, fun f => (hm f).1, fun f e he => ((hm f).2 e he).1, fun f e he => ((hm f).2 e he).2⟩

/-- The time of a file in a cache is told by the text of its record, if there is one. -/
def TellsTime (c : DiskCache) (f : Bytes) : Prop :=
  ∀ r, c.records.get? f = some r → Instant.IsTold r.timestamp

/-- One cache has the entries of another one and no others. -/
structure Reproduces (b a : DiskCache) : Prop where
  /-- It has the same files. -/
  contains_eq : ∀ f, b.contains f = a.contains f
  /-- Look-ups end alike and find the same, whenever they are made, perhaps but for the time. -/
  undated_retrieve_eq : ∀ now now' f contentHash,
    (b.retrieve now f contentHash).2.undated = (a.retrieve now' f contentHash).2.undated
  /-- They find the same time, too, if it is told. -/
  retrieve_eq : ∀ f, a.TellsTime f → ∀ now now' contentHash,
    (b.retrieve now f contentHash).2 = (a.retrieve now' f contentHash).2
  /-- The index on disk is the one in memory. -/
  loadIndex_eq : loadIndex b.files b.indexPath = .ok b.records

/-- A cache that represents what another one tells, as it is read twice, reproduces the other one.
-/
theorem Tells.reproduces {m : Bytes → Option CacheEntry} (h : a.Tells m) {paths : Set Bytes}
    {now now' : Int}
    (hb : b.Represents paths fun f => (m f).map (CacheEntry.carried now now')) :
    b.Reproduces a where
  contains_eq f := by
    simp only [contains, Dict.contains, hb.records, h.records, Option.isSome_map]
  undated_retrieve_eq t t' f contentHash := by
    rw [retrieve, retrieve, hb.lookup_eq, h.lookup_eq]
    cases m f with
    | none => rfl
    | some e =>
      have hentry : ((e.carried now now').restored t).undated = (e.restored t').undated := by
        rw [CacheEntry.carried, CacheEntry.undated_restored_restored (e.restored now) now' t t,
          CacheEntry.undated_restored_restored]
      have hhash : (e.carried now now').contentHash = e.contentHash := rfl
      simp only [Option.map_some, hhash]
      split
      · rfl
      · exact congrArg CacheLookup.hit hentry
  retrieve_eq f htime t t' contentHash := by
    rw [retrieve, retrieve, hb.lookup_eq, h.lookup_eq]
    cases he : m f with
    | none => rfl
    | some e =>
      have htold : Instant.IsTold e.timestamp.toText :=
        htime (.ofEntry e) (by rw [h.records, he, Option.map_some])
      have hentry : (e.carried now now').restored t = e.restored t' := by
        rw [CacheEntry.carried, CacheEntry.restored_restored htold now now' now,
          CacheEntry.restored_restored htold now t t']
      have hhash : (e.carried now now').contentHash = e.contentHash := rfl
      simp only [Option.map_some, hhash, hentry]
  loadIndex_eq := hb.index

/-- A cache `b'` has come in place of `b` and has the entries of `a`, and nothing is left of those
of `b`. -/
structure Replaces (b' b a : DiskCache) : Prop extends b'.Reproduces a where
  /-- If the blobs of the old cache were its own, those whose names are not in use again are gone.
  -/
  read?_eq_none : b.OwnsBlobs → ∀ f, b.contains f →
    (∀ g, a.contains g → CacheEntry.blobName g ≠ CacheEntry.blobName f) →
    b'.files.read? (b.blobPath (CacheEntry.blobName f)) = none

/-- A cache that takes over what another one tells replaces its entries by those of the other one.
-/
theorem Tells.importDocument_replaces {m : Bytes → Option CacheEntry} (h : a.Tells m)
    (hnames : Set.InjOn CacheEntry.blobName {f | a.contains f})
    (hwrite : ∀ n ∈ fileNames {f | a.contains f}, b.cleared.CanWrite n)
    (now now' : Int) :
    ∃ b', b.importDocument now' (a.exportDocument now) = (b', .ok a.size) ∧ b'.Replaces b a := by
  obtain ⟨b', himport, hrepresents⟩ := h.represents_importDocument hnames hwrite now now'
  refine ⟨b', himport, h.reproduces hrepresents, fun hown f hf hother => ?_⟩
  have hzero : 0 ∉ b.directory := b.directory_cleared ▸
    (hwrite _ (indexName_mem _)).opened.notMem_zero plain_indexName
  have hes : ∀ e ∈ (a.told m).map (CacheEntry.carried now now'),
      CacheEntry.blobName e.filePath ≠ CacheEntry.blobName f := by
    intro e' he'
    obtain ⟨e, he, rfl⟩ := List.mem_map.mp he'
    exact hother e.filePath (h.contains_of_mem_told he).1
  have hgone := hown.read?_importDocument hzero (h.entriesOf_exportDocument now now') hf hes
  rwa [himport] at hgone

/-- What is exported from a cache in use whose blobs can be read replaces the entries of any cache
that imports it, be it the cache itself, as long as the files of that cache can be written once its
own entries are removed. It does so, too, if it goes through a file that the disk takes. -/
theorem UsedWith.exists_replaces (h : c₀.UsedWith s a) (hnew : c₀.IsNew) (hzero : 0 ∉ c₀.directory)
    (hpaths : Set.InjOn Sha256.hexOf (CacheEntry.filePath '' s)) {now : Int}
    (hread : a.Readable now)
    (hwrite : ∀ n ∈ fileNames {f | a.contains f}, b.cleared.CanWrite n)
    (now' : Int) :
    ∃ b', b.importDocument now' (a.exportDocument now) = (b', .ok a.size) ∧ b'.Replaces b a ∧
      ∀ path, (∀ text, a.device path text = .whole) →
        a.exportTo now path = (a, .error (.unwritableExport ⟨path, false⟩)) ∨
        ∃ a', a.exportTo now path = (a', .ok ()) ∧
          (b.files.read? path = a'.files.read? path →
            b.importFrom now' path = (b', .ok a.size)) := by
  -- The other cache matters only for what can be written: what it had is removed first.
  obtain ⟨-, hsound⟩ := h.sound hnew hzero hpaths
  obtain ⟨m, hm⟩ := hsound.exists_tells hread
  obtain ⟨b', himport, hreplaces⟩ :=
    hm.importDocument_replaces (injOn_blobName (hpaths.mono hsound.contains_subset)) hwrite now now'
  refine ⟨b', himport, hreplaces, fun path htakes => ?_⟩
  rcases hm.exportTo_cases now htakes with hexport | ⟨files, text, hexport, htext, hparse⟩
  · exact Or.inl hexport
  · refine Or.inr ⟨_, hexport, fun hsame => ?_⟩
    rw [importFrom_of_parse? now' (hsame.trans htext) hparse, himport]

/-! ## Caches of one file -/

/-- An operation stores an entry of a file. -/
structure StoresFile (op : CacheOperation) (e : CacheEntry) : Prop where
  given_eq : op.given? = some e
  filePath_eq : e.filePath = bytes "a"
  canReadBack : CanReadBack op

namespace StoresFile

variable {op op' : CacheOperation} {e e' : CacheEntry}

/-- The operation is a store of the path, and the entry is made of its arguments. -/
theorem exists_eq (h : StoresFile op e) : ∃ now chunks contentHash metadata,
    op = .store now (bytes "a") chunks contentHash metadata ∧
      e = .ofChunks now (bytes "a") chunks contentHash metadata := by
  obtain ⟨hgiven, hpath, -⟩ := h
  cases op with
  | store now f chunks contentHash metadata =>
    obtain rfl := Option.some.inj hgiven
    obtain rfl : f = bytes "a" := hpath
    exact ⟨now, chunks, contentHash, metadata, rfl, rfl⟩
  | retrieve | invalidate | invalidateOlder | invalidateAll | reopen => exact absurd hgiven nofun

/-- The entry that is stored can be stored. -/
theorem storable (h : StoresFile op e) : e.Storable := by
  have hread := h.canReadBack
  obtain ⟨now, chunks, contentHash, metadata, rfl, rfl⟩ := h.exists_eq
  exact hread.2.1

/-- The path is the only one that is stored. -/
theorem mem_storedPaths_iff (h : StoresFile op e) {f : Bytes} :
    f ∈ CacheOperation.storedPaths [op] ↔ f = bytes "a" := by
  obtain ⟨now, chunks, contentHash, metadata, rfl, rfl⟩ := h.exists_eq
  exact List.mem_singleton

/-- A new cache is used with this entry. -/
theorem usedWith (h : StoresFile op e) :
    fresh.UsedWith (∅ ∪ {e' | op.given? = some e'}) (fresh.perform op).1 := by
  refine .perform .start op ?_ ?_
  · intro e' he' _
    obtain rfl := Option.some.inj (h.given_eq.symm.trans he')
    exact h.storable
  · rintro rfl
    exact absurd h.given_eq nofun

/-- There is one path, and its hash does not collide. -/
theorem injOn_hexOf (h : StoresFile op e) :
    Set.InjOn Sha256.hexOf (CacheEntry.filePath '' (∅ ∪ {e' | op.given? = some e'})) := by
  apply injOn_hexOf_of_forall_eq
  rintro _ ⟨e', he' | he', rfl⟩
  · exact absurd he' (Set.notMem_empty e')
  · obtain rfl := Option.some.inj (h.given_eq.symm.trans he')
    exact h.filePath_eq

/-- The cache has this entry then. -/
theorem models (h : StoresFile op e) : (fresh.perform op).1.Models
    (CacheOperation.storedPaths [op]) (Dict.empty.insert (bytes "a") e) := by
  have hpaths : ∀ f ∈ CacheOperation.storedPaths [op], f = bytes "a" :=
    fun f => h.mem_storedPaths_iff.mp
  have hops : ∀ op' ∈ [op], CanReadBack op' := by
    intro op' hop'
    rw [List.mem_singleton.mp hop']
    exact h.canReadBack
  have huse := normalUse_fresh hpaths hops
  obtain ⟨-, hmodels⟩ := huse.perform_onMap (injOn_blobName (injOn_hexOf_of_forall_eq hpaths))
    (List.mem_singleton_self op) huse.models
  obtain ⟨now, chunks, contentHash, metadata, rfl, rfl⟩ := h.exists_eq
  exact hmodels

/-- The new cache then tells this entry and nothing else. -/
theorem tells (h : StoresFile op e) :
    (fresh.perform op).1.Tells (Dict.empty.insert (bytes "a") e).get? :=
  h.models.represents.tells

/-- The path has the entry. -/
theorem get?_eq (e : CacheEntry) : (Dict.empty.insert (bytes "a") e).get? (bytes "a") = some e :=
  (Dict.get?_insert ..).trans (if_pos rfl)

/-- The path is the only key of the index. -/
theorem keys_records (h : StoresFile op e) : (fresh.perform op).1.records.keys = [bytes "a"] := by
  have hkeys : (Dict.empty.insert (bytes "a") e).keys = [bytes "a"] := rfl
  rw [← hkeys]
  apply Dict.keys_eq_of_isSome
  intro f
  rw [h.tells.records, Option.isSome_map]

/-- The index has one record. -/
theorem size_eq (h : StoresFile op e) : (fresh.perform op).1.size = 1 := by
  rw [size, ← Dict.length_keys, h.keys_records]
  rfl

/-- Two such caches have files of the same names, which can be written. -/
theorem canWrite (h : StoresFile op e) (h' : StoresFile op' e') :
    ∀ n ∈ fileNames {f | (fresh.perform op).1.contains f},
      (fresh.perform op').1.cleared.CanWrite n := by
  have hpaths : ∀ f ∈ CacheOperation.storedPaths [op'], f = bytes "a" :=
    fun f => h'.mem_storedPaths_iff.mp
  have hwrite := h'.models.represents.toHolds.canWrite_cleared
    (injOn_blobName (injOn_hexOf_of_forall_eq hpaths))
  rintro n (rfl | rfl | ⟨f, hf, rfl⟩)
  · exact hwrite _ (indexName_mem _)
  · exact hwrite _ (draftName_mem _)
  · have hkey : f ∈ (fresh.perform op).1.records.keys :=
      Dict.mem_keys_iff.mpr (Option.isSome_iff_exists.mp hf)
    rw [h.keys_records] at hkey
    exact hwrite _ (blobName_mem (h'.mem_storedPaths_iff.mpr (List.mem_singleton.mp hkey)))

end StoresFile

/-- A file is stored with a chunk that says all there is to say. -/
def storeFull : CacheOperation :=
  .store 1000 (bytes "a") [fullChunk] (bytes "h") (.object [(bytes "k", .int 1)])

/-- The entry of this file replaces the one that another cache has of it. -/
theorem exists_replaces_storeFull : ∃ b',
    (fresh.perform (storeFor (bytes "g"))).1.importDocument 3000
        ((fresh.perform storeFull).1.exportDocument 2000) = (b', .ok 1) ∧
      (b'.retrieve 4000 (bytes "a") (some (bytes "h"))).2 =
        ((fresh.perform storeFull).1.retrieve 5000 (bytes "a") (some (bytes "h"))).2 ∧
      (b'.retrieve 4000 (bytes "a") (some (bytes "h"))).2.found?.isSome := by
  have hfull : StoresFile storeFull _ :=
    ⟨rfl, rfl, canReadBack_storeAndRemove storeFull List.mem_cons_self⟩
  have hother : StoresFile (storeFor (bytes "g")) _ :=
    ⟨rfl, rfl, by decide, storable_storeFor (by decide), nofun⟩
  obtain ⟨b', himport, hreplaces, -⟩ := hfull.usedWith.exists_replaces isNew_fresh (by decide)
    hfull.injOn_hexOf (hfull.tells.readable 2000) (hfull.canWrite hother) 3000
  have htime : (fresh.perform storeFull).1.TellsTime (bytes "a") := by
    intro r hr
    rw [hfull.tells.records] at hr
    obtain rfl := Option.some.inj hr
    exact ⟨.ofNanos 1000, Instant.dated_ofNanos (by decide) (by decide), by decide, rfl⟩
  have hsame := hreplaces.retrieve_eq (bytes "a") htime 4000 5000 (some (bytes "h"))
  refine ⟨b', hfull.size_eq ▸ himport, hsame, ?_⟩
  rw [hsame, hfull.tells.retrieve_eq_hit (StoresFile.get?_eq _) 5000
    (by simp [CacheEntry.ofChunks])]
  rfl

/-! ## The last second before 1970 -/

/-- A file without chunks is stored one second before 1970. -/
def storeBefore1970 : CacheOperation := .store (-1000000000) (bytes "a") [] (bytes "g") .null

/-- Five microseconds later the cache takes over its own document, and the file gets the time at
which this happens. -/
theorem retrieve_importDocument_ne :
    ∃ s b', fresh.UsedWith s (fresh.perform storeBefore1970).1 ∧
      Set.InjOn Sha256.hexOf (CacheEntry.filePath '' s) ∧
      (fresh.perform storeBefore1970).1.Readable (-999995000) ∧
      (fresh.perform storeBefore1970).1.importDocument (-999995000)
        ((fresh.perform storeBefore1970).1.exportDocument (-999995000)) = (b', .ok 1) ∧
      (b'.retrieve (-999995000) (bytes "a") none).2 ≠
        ((fresh.perform storeBefore1970).1.retrieve (-1000000000) (bytes "a") none).2 := by
  have hstored : StoresFile storeBefore1970 _ := ⟨rfl, rfl, canReadBack_nil⟩
  have hnames : Set.InjOn CacheEntry.blobName
      {f | (fresh.perform storeBefore1970).1.contains f} := by
    obtain ⟨-, hsound⟩ := hstored.usedWith.sound isNew_fresh (by decide) hstored.injOn_hexOf
    exact injOn_blobName (hstored.injOn_hexOf.mono hsound.contains_subset)
  obtain ⟨b', himport, hrepresents⟩ := hstored.tells.represents_importDocument hnames
    (hstored.canWrite hstored) (-999995000) (-999995000)
  refine ⟨_, b', hstored.usedWith, hstored.injOn_hexOf, hstored.tells.readable _,
    hstored.size_eq ▸ himport, ?_⟩
  have hentry := StoresFile.get?_eq
    (CacheEntry.ofChunks (-1000000000) (bytes "a") [] (bytes "g") .null)
  have htaken := congrArg (Option.map fun e : CacheEntry =>
    (e.restored (-999995000)).restored (-999995000)) hentry
  rw [hrepresents.toHolds.tells.retrieve_eq_hit htaken _ (by simp),
    hstored.tells.retrieve_eq_hit hentry _ (by simp)]
  intro heq
  have htimes := congrArg CacheEntry.timestamp (CacheLookup.hit.inj heq)
  -- Each time the entry is read it gets the time of reading, which is not told either.
  have hstart : Instant.ofText? (Instant.ofNanos (-1000000000)).toText = none := by
    rw [Instant.ofText?_toText (Instant.dated_ofNanos (by decide) (by decide))]
    decide
  have hlater : Instant.ofText? (Instant.ofNanos (-999995000)).toText = none := by
    rw [Instant.ofText?_toText (Instant.dated_ofNanos (by decide) (by decide))]
    decide
  have hexported := CacheEntry.timestamp_restored (e := CacheEntry.ofChunks (-1000000000)
    (bytes "a") [] (bytes "g") .null) hstart (-999995000)
  have himported := CacheEntry.timestamp_restored (hexported ▸ hlater) (-999995000)
  have hfound := CacheEntry.timestamp_restored (himported ▸ hlater) (-999995000)
  have hbefore := CacheEntry.timestamp_restored (e := CacheEntry.ofChunks (-1000000000)
    (bytes "a") [] (bytes "g") .null) hstart (-1000000000)
  rw [hfound, hbefore] at htimes
  exact absurd htimes (by decide)

end DiskCache

end SourceChunks
