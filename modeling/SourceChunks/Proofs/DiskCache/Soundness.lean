import SourceChunks.Proofs.DiskCache.Operations
import SourceChunks.Proofs.DiskCache.Writing
import SourceChunks.Proofs.Json.Truncation

/-!
# Caches that are sound

Whether or not an operation fails, the records of a cache, those in memory and those on disk, stay
records of entries that were given to it. A cache also gates if every blob of a record in memory
that can be understood is the one of the entry of the record. It stops doing so when it is opened
with an index that is not the one that it had in memory.

A disk may take only a part of a text. Blobs and the index are objects, of which no part can be
understood that lacks the end, so this is no worse than the loss of the file.
-/

namespace SourceChunks

/-- What is written of an entry can be read back. An entry that cannot be written out is legible,
for nothing is written of it. -/
def CacheEntry.Legible (e : CacheEntry) : Prop := e.toBlob.compact?.isSome → e.Storable

/-- Nothing can be understood of a blob that lacks its end. -/
theorem CacheEntry.Legible.parse?_eq_none {e : CacheEntry} (h : e.Legible) {left : Bytes}
    (hcut : FileTree.IsCut left e.toBlob.compact?) : Json.parse? left = none := by
  cases htext : e.toBlob.compact? with
  | none =>
    rw [htext] at hcut
    obtain rfl := List.prefix_nil.mp hcut
    decide
  | some text =>
    rw [htext] at hcut
    have hfaithful := (h (Option.isSome_iff_exists.mpr ⟨text, htext⟩)).faithful
    rw [CacheEntry.toBlob_eq] at hfaithful htext
    exact Json.Faithful.parse?_eq_none hfaithful htext hcut

/-- Where a blob was written, all that can be understood of it is the document of its entry. -/
theorem CacheEntry.Legible.eq_toBlob {e : CacheEntry} (h : e.Legible) {text left : Bytes} {v : Json}
    (htext : e.toBlob.compact? = some text)
    (hleft : left = text ∨ FileTree.IsCut left e.toBlob.compact?)
    (hparse : Json.parse? left = some v) : v = e.toBlob := by
  rcases hleft with rfl | hcut
  · have hstorable : e.Storable := h (Option.isSome_iff_exists.mpr ⟨left, htext⟩)
    obtain ⟨text, htext', hparse'⟩ := hstorable.faithful.exists_compact?
    obtain rfl : left = text := Option.some.inj (htext.symm.trans htext')
    exact Option.some.inj (hparse.symm.trans hparse')
  · exact absurd ((h.parse?_eq_none hcut).symm.trans hparse) nofun

/-- Nothing can be understood of an index that lacks its end. -/
theorem CacheRecord.AllStorable.parse?_eq_none {records : Dict CacheRecord}
    (h : AllStorable records) {left text : Bytes}
    (htext : (indexToJson records).pretty? 2 = some text)
    (hcut : FileTree.IsCut left (some text)) : Json.parse? left = none :=
  Json.Faithful.parse?_eq_none h.faithful htext hcut

namespace DiskCache

variable {c c' : DiskCache} {s s' : Set CacheEntry} {gated gated' : Prop}

/-! ## Records of entries -/

/-- Records are those of entries that can be stored, under the paths of the entries. -/
def RecordsOf (s : Set CacheEntry) (records : Dict CacheRecord) : Prop :=
  ∀ f r, records.get? f = some r → ∃ e ∈ s, e.Storable ∧ e.filePath = f ∧ r = .ofEntry e

namespace RecordsOf

variable {records records' : Dict CacheRecord}

/-- Without records there is none that needs an entry. -/
theorem empty : RecordsOf s Dict.empty := nofun

/-- Records of some entries are records of more entries. -/
theorem mono (h : RecordsOf s records) (hs : s ⊆ s') : RecordsOf s' records := by
  intro f r hr
  obtain ⟨e, he, hentry⟩ := h f r hr
  exact ⟨e, hs he, hentry⟩

/-- Fewer records are still records of the entries. -/
theorem of_le (h : RecordsOf s records)
    (hrecords : ∀ f r, records'.get? f = some r → records.get? f = some r) : RecordsOf s records' :=
  fun f r hr => h f r (hrecords f r hr)

/-- Storing an entry adds its record. -/
theorem insert (h : RecordsOf s records) {e : CacheEntry} (he : e ∈ s) (hstorable : e.Storable) :
    RecordsOf s (records.insert e.filePath (.ofEntry e)) := by
  intro f r hr
  rw [Dict.get?_insert] at hr
  split at hr
  · next hf => exact ⟨e, he, hstorable, hf.symm, (Option.some.inj hr).symm⟩
  · exact h f r hr

/-- The blob in a record is that of its path. -/
theorem blobName_eq (h : RecordsOf s records) {f : Bytes} {r : CacheRecord}
    (hr : records.get? f = some r) : r.blobName = CacheEntry.blobName f := by
  obtain ⟨e, -, -, rfl, rfl⟩ := h f r hr
  rfl

/-- Records of entries can be stored. -/
theorem allStorable (h : RecordsOf s records) : CacheRecord.AllStorable records := by
  intro f r hr
  obtain ⟨e, -, hstorable, rfl, rfl⟩ := h f r hr
  exact ⟨hstorable.filePath_utf8, CacheRecord.storable_ofEntry hstorable⟩

end RecordsOf

/-! ## What holds after every operation -/

/-- The records of a cache are those of entries of a set. If the cache is gated, a blob that can be
understood is the one of the entry of its record. -/
structure Sound (c : DiskCache) (s : Set CacheEntry) (gated : Prop) : Prop where
  /-- This holds for the records in memory. -/
  memory : RecordsOf s c.records
  /-- It holds for the records on disk. -/
  disk : ∀ records, loadIndex c.files c.indexPath = .ok records → RecordsOf s records
  /-- It holds for the blobs of the records in memory. -/
  blob : gated → ∀ f r text v, c.records.get? f = some r →
    c.files.read? (c.blobPath (CacheEntry.blobName f)) = some text → Json.parse? text = some v →
    ∃ e ∈ s, e.Storable ∧ e.filePath = f ∧ r = .ofEntry e ∧ v = e.toBlob

/-- The index on disk has no records but those in memory. -/
def Current (c : DiskCache) : Prop :=
  ∀ records, loadIndex c.files c.indexPath = .ok records →
    ∀ f r, records.get? f = some r → c.records.get? f = some r

/-- What a cache has on disk may be lost and damaged, but nothing comes to it. -/
structure Spares (c : DiskCache) (files : FileTree) : Prop where
  /-- The index is the one that was there, or there is nothing in it. -/
  index : ∀ records, loadIndex files c.indexPath = .ok records →
    records = Dict.empty ∨ loadIndex c.files c.indexPath = .ok records
  /-- Blobs of records that can be understood were there. -/
  blob : ∀ f r text v, c.records.get? f = some r →
    files.read? (c.blobPath (CacheEntry.blobName f)) = some text → Json.parse? text = some v →
    c.files.read? (c.blobPath (CacheEntry.blobName f)) = some text

/-- No directory lies where a cache reads a file: the index, or a blob that is named in the index,
be it in memory or on disk. -/
structure ReadsFiles (c : DiskCache) : Prop where
  index : ¬ c.files.isDirectoryAt c.indexPath
  blob : ∀ records, records = c.records ∨ loadIndex c.files c.indexPath = .ok records →
    ∀ f r, records.get? f = some r → ¬ c.files.isDirectoryAt (c.blobPath r.blobName)

/-- An index that is read as before or is not there any more has no new records. -/
theorem loadIndex_of_read? {files files' : FileTree} {p : Bytes}
    (h : files'.find? p = files.find? p ∨ files'.find? p = none) {records : Dict CacheRecord}
    (hload : loadIndex files' p = .ok records) :
    records = Dict.empty ∨ loadIndex files p = .ok records := by
  rcases h with h | h
  · right
    rwa [loadIndex, FileTree.read?_congr h] at hload
  · left
    rw [loadIndex, FileTree.read?_of_find?_none h] at hload
    exact (Except.ok.inj hload).symm

/-- An index is read as before where only other files have changed. -/
theorem loadIndex_of_changesOnly {files : FileTree} {names : Set Bytes}
    (hchanges : c.files.ChangesOnly files c.directory names) (hnames : indexName ∉ names)
    (records : Dict CacheRecord) (hload : loadIndex files c.indexPath = .ok records) :
    records = Dict.empty ∨ loadIndex c.files c.indexPath = .ok records :=
  loadIndex_of_read? (Or.inl (hchanges.find?_eq _ plain_indexName hnames)) hload

/-- An index that was written is read as it was in memory, or not at all if it lacks its end. -/
theorem eq_of_loadIndex {records records' : Dict CacheRecord}
    (h : CacheRecord.AllStorable records) {files : FileTree} {p left text : Bytes}
    (htext : (CacheRecord.indexToJson records).pretty? 2 = some text)
    (hleft : left = text ∨ FileTree.IsCut left (some text)) (hread : files.read? p = some left)
    (hload : loadIndex files p = .ok records') : records' = records := by
  obtain ⟨text', htext', hparse⟩ := h.faithful.exists_pretty? 2
  obtain rfl : text = text' := Option.some.inj (htext.symm.trans htext')
  rcases hleft with rfl | hcut
  · simp only [loadIndex, hread, hparse, Option.bind_some, h.indexOfJson?_indexToJson] at hload
    exact (Except.ok.inj hload).symm
  · simp only [loadIndex, hread, h.parse?_eq_none htext hcut, Option.bind_none] at hload
    cases hload

/-- An index on disk stays one of records in memory when it loses records. -/
theorem Current.of_le (h : c.Current) (hrecords : c'.records = c.records)
    (hindex : ∀ records, loadIndex c'.files c'.indexPath = .ok records →
      records = Dict.empty ∨ loadIndex c.files c.indexPath = .ok records) : c'.Current := by
  intro records hload f r hr
  rw [hrecords]
  rcases hindex records hload with rfl | hold
  · exact absurd hr nofun
  · exact h records hold f r hr

/-- When a directory that is there is opened again no file changes and the index on disk is read. -/
theorem reopen_of_isDirectoryAt (hdir : c.files.isDirectoryAt c.directory) :
    c.reopen = match loadIndex c.files c.indexPath with
      | .error f => (c, .error f)
      | .ok records => (⟨c.files, c.directory, records, .zero, c.device⟩, .ok ()) := by
  have hmake := FileTree.makeDirectories_of_isDirectoryAt hdir
  rw [DiskCache.reopen, openAt, hmake, indexPath]
  cases hload : loadIndex c.files (Path.join c.directory indexName) with
  | error f => simp only [hload, Except.map]
  | ok records => simp only [hload, Except.map]

namespace Sound

/-- A sound cache is sound for more entries and under a stronger gate. -/
theorem mono (h : c.Sound s gated) (hs : s ⊆ s') (hgated : gated' → gated) : c.Sound s' gated' where
  memory := h.memory.mono hs
  disk records hload := (h.disk records hload).mono hs
  blob hg f r text v hr htext hparse := by
    obtain ⟨e, he, hentry⟩ := h.blob (hgated hg) f r text v hr htext hparse
    exact ⟨e, hs he, hentry⟩

/-- A cache that only loses records and files stays sound. -/
theorem of_le (h : c.Sound s gated)
    (hrecords : ∀ f r, c'.records.get? f = some r → c.records.get? f = some r)
    (hindex : ∀ records, loadIndex c'.files c'.indexPath = .ok records →
      records = Dict.empty ∨ loadIndex c.files c.indexPath = .ok records)
    (hblob : gated → ∀ f r text v, c'.records.get? f = some r →
      c'.files.read? (c'.blobPath (CacheEntry.blobName f)) = some text → Json.parse? text = some v →
      c.files.read? (c.blobPath (CacheEntry.blobName f)) = some text) : c'.Sound s gated where
  memory := h.memory.of_le hrecords
  disk records hload := by
    rcases hindex records hload with rfl | hold
    · exact RecordsOf.empty
    · exact h.disk records hold
  blob hg f r text v hr htext hparse :=
    h.blob hg f r text v (hrecords f r hr) (hblob hg f r text v hr htext hparse) hparse

/-- Other files than those of the cache may change, and what the disk takes. -/
theorem of_spares (h : c.Sound s gated) {files : FileTree} (hspares : c.Spares files)
    (device : FileTree.Device) : Sound { c with files, device } s gated :=
  h.of_le (fun _ _ => id) hspares.index fun _ => hspares.blob

/-- What a cache has counted makes no difference. -/
theorem with_counts (h : c.Sound s gated) (counts : CacheCounts) :
    Sound { c with counts } s gated := ⟨h.memory, h.disk, h.blob⟩

/-- Nor does the disk as long as nothing is written. -/
theorem with_device (h : c.Sound s gated) (device : FileTree.Device) :
    Sound { c with device } s gated := ⟨h.memory, h.disk, h.blob⟩

/-- Writing the index changes no records and no blobs. If it succeeds, the index on disk is the one
in memory, and otherwise a file could not be written. -/
theorem saveIndex (h : c.Sound s gated) (hzero : 0 ∉ c.directory) :
    (∃ files, c.saveIndex = ({ c with files }, .ok ()) ∧ Sound { c with files } s gated ∧
      Current { c with files }) ∨
    ∃ files f, c.saveIndex = ({ c with files }, .error f) ∧ f ≠ .malformedDocument ∧
      Sound { c with files } s gated := by
  obtain ⟨text, htext, hparse⟩ := h.memory.allStorable.faithful.exists_pretty? 2
  have hblob {files : FileTree} {names : Set Bytes} (hnames : names ⊆ {draftName, indexName})
      (hchanges : c.files.ChangesOnly files c.directory names) (f : Bytes) :
      files.read? (c.blobPath (CacheEntry.blobName f)) =
        c.files.read? (c.blobPath (CacheEntry.blobName f)) := by
    refine FileTree.read?_congr (hchanges.find?_eq _ (CacheEntry.plain_blobName f) ?_)
    intro hmem
    rcases hnames hmem with heq | heq
    · exact blobName_ne_draftName f heq
    · exact blobName_ne_indexName f heq
  rcases saveIndex_cases hzero with ⟨files, f, hsave, hmalformed, hchanges⟩ |
    ⟨files, left, text', hsave, htext', hleft, hchanges, hindex⟩
  · right
    refine ⟨files, f, hsave, ?_, ?_⟩
    · intro hf
      exact absurd (htext.symm.trans (hmalformed hf)) nofun
    · have hindex := loadIndex_of_changesOnly hchanges (by decide : indexName ≠ draftName)
      refine h.of_le (fun _ _ => id) hindex ?_
      intro _ f _ text v _ htext _
      exact (hblob (fun _ => Or.inl) hchanges f).symm.trans htext
  · left
    have hload (records : Dict CacheRecord) (hrecords : loadIndex files c.indexPath = .ok records) :
        records = c.records :=
      eq_of_loadIndex h.memory.allStorable htext' hleft hindex hrecords
    refine ⟨files, hsave, ⟨h.memory, ?_, ?_⟩, ?_⟩
    · intro records hrecords
      exact hload records hrecords ▸ h.memory
    · intro hg f r text v hr htext hparse
      exact h.blob hg f r text v hr ((hblob subset_rfl hchanges f).symm.trans htext) hparse
    · intro records hrecords f r hr
      exact hload records hrecords ▸ hr

/-- The blobs of other files have other names. -/
theorem blobName_ne (h : c.Sound s gated)
    (hnames : Set.InjOn CacheEntry.blobName (CacheEntry.filePath '' s)) {f g : Bytes}
    {r : CacheRecord}
    (hg : c.records.get? g = some r) (hf : f ∈ CacheEntry.filePath '' s) (hne : g ≠ f) :
    CacheEntry.blobName g ≠ CacheEntry.blobName f := by
  obtain ⟨e, he, -, rfl, -⟩ := h.memory g r hg
  exact fun heq => hne (hnames ⟨e, he, rfl⟩ hf heq)

/-- Writing the blob of one file leaves the blobs of other records as they read. -/
theorem read?_of_changesOnly (h : c.Sound s gated)
    (hnames : Set.InjOn CacheEntry.blobName (CacheEntry.filePath '' s)) {f g : Bytes}
    {r : CacheRecord} {files : FileTree} (hf : f ∈ CacheEntry.filePath '' s)
    (hchanges : c.files.ChangesOnly files c.directory {CacheEntry.blobName f})
    (hg : c.records.get? g = some r) (hne : g ≠ f) :
    files.read? (c.blobPath (CacheEntry.blobName g)) =
      c.files.read? (c.blobPath (CacheEntry.blobName g)) :=
  FileTree.read?_congr
    (hchanges.find?_eq _ (CacheEntry.plain_blobName g) (h.blobName_ne hnames hg hf hne))

/-- Writing an entry that can be read back keeps a cache sound. Where it succeeds the entry has
become one of those of the cache, and otherwise the records are the same. -/
theorem writeEntry (h : c.Sound s gated) (hzero : 0 ∉ c.directory)
    (hnames : gated → Set.InjOn CacheEntry.blobName (CacheEntry.filePath '' s)) {e : CacheEntry}
    (he : e ∈ s) (hlegible : e.Legible) :
    (∃ files r, c.writeEntry e = ({ c with files }, r) ∧
      (r = .ok false ∨ r = .error .malformedDocument) ∧
      Sound { c with files } s gated ∧ (c.Current → Current { c with files })) ∨
    ∃ c', c.writeEntry e = (c', .ok true) ∧ c'.directory = c.directory ∧ c'.Sound s gated := by
  have hpath : e.filePath ∈ CacheEntry.filePath '' s := Set.mem_image_of_mem _ he
  rcases writeEntry_cases hzero e with ⟨hwrite, -⟩ |
    ⟨files, left, r, hwrite, hr, hcut, hchanges, hread⟩ |
    ⟨files, left, text, hwrite, htext, hleft, hchanges, hread⟩
  · exact Or.inl ⟨c.files, _, hwrite, .inl rfl, h, id⟩
  · left
    have hindex := loadIndex_of_changesOnly hchanges (indexName_notMem e.filePath)
    refine ⟨files, r, hwrite, hr.imp_right And.left, h.of_le (fun _ _ => id) hindex ?_,
      fun hcurrent => hcurrent.of_le rfl hindex⟩
    intro hg f r text v hr htext hparse
    by_cases hf : f = e.filePath
    · rw [hf] at htext
      obtain rfl := Option.some.inj (hread.symm.trans htext)
      exact absurd ((hlegible.parse?_eq_none hcut).symm.trans hparse) nofun
    · exact (h.read?_of_changesOnly (hnames hg) hpath hchanges hr hf).symm.trans htext
  · right
    have hstorable : e.Storable := hlegible (Option.isSome_iff_exists.mpr ⟨text, htext⟩)
    refine ⟨_, hwrite, rfl, h.memory.insert he hstorable, ?_, ?_⟩
    · intro records hload
      rcases loadIndex_of_changesOnly hchanges (indexName_notMem e.filePath) records hload with
        rfl | hold
      · exact RecordsOf.empty
      · exact h.disk records hold
    · intro hg f r text' v hr htext' hparse
      rw [Dict.get?_insert] at hr
      split at hr
      · next hf =>
        subst hf
        obtain rfl := Option.some.inj hr
        obtain rfl : left = text' := Option.some.inj (hread.symm.trans htext')
        exact ⟨e, he, hstorable, rfl, rfl, hlegible.eq_toBlob htext hleft hparse⟩
      · next hf =>
        have hsame := h.read?_of_changesOnly (hnames hg) hpath hchanges hr hf
        exact h.blob hg f r text' v hr (hsame.symm.trans htext') hparse

/-- Removing a file keeps a cache sound. -/
theorem removeEntry (h : c.Sound s gated) (hzero : 0 ∉ c.directory)
    (hnames : gated → Set.InjOn CacheEntry.blobName (CacheEntry.filePath '' s)) (f : Bytes) :
    (c.removeEntry f).directory = c.directory ∧ (c.removeEntry f).Sound s gated := by
  cases hrecord : c.records.get? f with
  | none =>
    unfold DiskCache.removeEntry
    rw [hrecord]
    exact ⟨rfl, h⟩
  | some r =>
    have hremove : c.removeEntry f = { c with
        files := c.files.remove (c.blobPath (CacheEntry.blobName f))
        records := c.records.erase f } := by
      unfold DiskCache.removeEntry
      rw [hrecord]
      simp only [h.memory.blobName_eq hrecord]
    have hrecords (g : Bytes) (r' : CacheRecord) (hr' : (c.records.erase f).get? g = some r') :
        g ≠ f ∧ c.records.get? g = some r' := by
      rw [Dict.get?_erase] at hr'
      split at hr'
      · exact absurd hr' nofun
      · next hne => exact ⟨hne, hr'⟩
    rw [hremove]
    refine ⟨rfl, h.of_le (fun g r' hr' => (hrecords g r' hr').2) ?_ ?_⟩
    · intro records hload
      have hindex := FileTree.find?_remove_of_ne (t := c.files) hzero (CacheEntry.plain_blobName f)
        plain_indexName (blobName_ne_indexName f).symm
      exact loadIndex_of_read? hindex hload
    · intro hg g r' text v hr' htext _
      obtain ⟨hne, hold⟩ := hrecords g r' hr'
      obtain ⟨e, he, -, rfl, -⟩ := h.memory f r hrecord
      have hname := h.blobName_ne (hnames hg) hold (Set.mem_image_of_mem _ he) hne
      have hblob := FileTree.find?_remove_of_ne (t := c.files) hzero
        (CacheEntry.plain_blobName e.filePath) (CacheEntry.plain_blobName g) hname
      rcases hblob with hsame | hgone
      · exact (FileTree.read?_congr hsame).symm.trans htext
      · exact absurd ((FileTree.read?_of_find?_none hgone).symm.trans htext) nofun

/-- Removing files one after another keeps a cache sound. -/
theorem foldl_removeEntry (h : c.Sound s gated) (hzero : 0 ∉ c.directory)
    (hnames : gated → Set.InjOn CacheEntry.blobName (CacheEntry.filePath '' s)) (fs : List Bytes) :
    (fs.foldl DiskCache.removeEntry c).directory = c.directory ∧
      (fs.foldl DiskCache.removeEntry c).Sound s gated := by
  induction fs generalizing c with
  | nil => exact ⟨rfl, h⟩
  | cons f rest ih =>
    obtain ⟨hdirectory, hsound⟩ := h.removeEntry hzero hnames f
    obtain ⟨hdirectory', hsound'⟩ := ih hsound (hdirectory.symm ▸ hzero)
    exact ⟨hdirectory'.trans hdirectory, hsound'⟩

/-- Removing files keeps a cache sound. If this succeeds, the index on disk is the one in memory. -/
theorem removeAll (h : c.Sound s gated) (hzero : 0 ∉ c.directory)
    (hnames : gated → Set.InjOn CacheEntry.blobName (CacheEntry.filePath '' s)) (fs : List Bytes) :
    ∃ c' r, c.removeAll fs = (c', r) ∧ c'.directory = c.directory ∧ c'.Sound s gated ∧
      ((∃ n, r = .ok n ∧ c'.Current) ∨ ∃ f, r = .error f ∧ f ≠ .malformedDocument) := by
  obtain ⟨hdirectory, hsound⟩ := h.foldl_removeEntry hzero hnames fs
  rcases hsound.saveIndex (hdirectory.symm ▸ hzero) with
    ⟨files, hsave, hsound', hcurrent⟩ | ⟨files, f, hsave, hf, hsound'⟩
  · refine ⟨{ fs.foldl DiskCache.removeEntry c with files }, .ok fs.length, ?_, hdirectory, hsound',
      Or.inl ⟨_, rfl, hcurrent⟩⟩
    rw [DiskCache.removeAll, hsave]
    rfl
  · refine ⟨{ fs.foldl DiskCache.removeEntry c with files }, .error f, ?_, hdirectory, hsound',
      Or.inr ⟨f, rfl, hf⟩⟩
    rw [DiskCache.removeAll, hsave]
    rfl

/-- Storing what can be read back keeps a cache sound. If this succeeds, the index on disk is the
one in memory, and if it fails before the index is written, the index on disk is as current as it
was. -/
theorem store (h : c.Sound s gated) (hzero : 0 ∉ c.directory)
    (hnames : gated → Set.InjOn CacheEntry.blobName (CacheEntry.filePath '' s)) {now : Int}
    {filePath : Bytes} {chunks : List Chunk} {contentHash : Bytes} {metadata : Json}
    (he : .ofChunks now filePath chunks contentHash metadata ∈ s)
    (hlegible : (CacheEntry.ofChunks now filePath chunks contentHash metadata).Legible) :
    ∃ c' r, c.store now filePath chunks contentHash metadata = (c', r) ∧
      c'.directory = c.directory ∧ c'.Sound s gated ∧
      ((r = .ok true ∧ c'.Current) ∨
        (r = .ok false ∨ r = .error .malformedDocument) ∧ (c.Current → c'.Current) ∨
        ∃ f, r = .error f ∧ f ≠ .malformedDocument) := by
  rcases h.writeEntry hzero hnames he hlegible with
    ⟨files, r, hwrite, rfl | rfl, hsound, hcurrent⟩ | ⟨c', hwrite, hdirectory, hsound⟩
  · refine ⟨{ c with files, counts.errors := c.counts.errors + 1 }, .ok false, ?_, rfl,
      hsound.with_counts _, Or.inr (Or.inl ⟨Or.inl rfl, hcurrent⟩)⟩
    rw [DiskCache.store, hwrite]
  · refine ⟨{ c with files }, .error .malformedDocument, ?_, rfl, hsound,
      Or.inr (Or.inl ⟨Or.inr rfl, hcurrent⟩)⟩
    rw [DiskCache.store, hwrite]
  · rcases hsound.saveIndex (hdirectory.symm ▸ hzero) with
      ⟨files, hsave, hsound', hcurrent⟩ | ⟨files, f, hsave, hf, hsound'⟩
    · refine ⟨{ c' with files, counts.stores := c'.counts.stores + 1 }, .ok true, ?_, hdirectory,
        hsound'.with_counts _, Or.inl ⟨rfl, hcurrent⟩⟩
      rw [DiskCache.store, hwrite]
      simp only [hsave]
    · refine ⟨{ c' with files }, .error f, ?_, hdirectory, hsound', Or.inr (Or.inr ⟨f, rfl, hf⟩)⟩
      rw [DiskCache.store, hwrite]
      simp only [hsave]

/-- Opening a directory again that is there keeps a cache sound if it does not gate or if the index
is current. -/
theorem reopen (h : c.Sound s gated) (hdir : c.files.isDirectoryAt c.directory)
    (hcurrent : gated → c.Current) :
    ∃ c' r, c.reopen = (c', r) ∧ c'.directory = c.directory ∧ c'.Sound s gated ∧
      (r = .ok () ∧ c'.Current ∨ (∃ f, r = .error f) ∧ (c.Current → c'.Current)) := by
  rw [reopen_of_isDirectoryAt hdir]
  cases hload : loadIndex c.files c.indexPath with
  | error f => exact ⟨c, .error f, rfl, rfl, h, Or.inr ⟨⟨f, rfl⟩, id⟩⟩
  | ok records =>
    refine ⟨⟨c.files, c.directory, records, .zero, c.device⟩, .ok (), rfl, rfl, ⟨?_, h.disk, ?_⟩,
      Or.inl ⟨rfl, ?_⟩⟩
    · exact h.disk records hload
    · intro hg f r text v hr
      exact h.blob hg f r text v (hcurrent hg records hload f r hr)
    · intro records' hload' f r hr
      obtain rfl := Except.ok.inj (hload.symm.trans hload')
      exact hr

end Sound

end DiskCache

end SourceChunks
