import SourceChunks.Proofs.DiskCache.Histories

/-!
# Stores that fail

A store that fails has changed nothing of the other files that the cache has, neither in memory nor
on disk. Of the file itself nothing has changed either if its blob could not be opened. In all other
cases the blob is no longer the one that was there: it is opened before it is known whether the
entry can be written out and whether the disk takes it, and it is not put back when the index cannot
be written.
-/

namespace SourceChunks.DiskCache

variable {c c' c₀ : DiskCache} {s : Set CacheEntry} {gated : Prop} {history : CacheHistory}
variable {f p : Bytes}

/-- Every look-up of a file ends in one cache as it does in the other. -/
def SameAnswers (c c' : DiskCache) (f : Bytes) : Prop :=
  ∀ now contentHash, (c'.retrieve now f contentHash).2 = (c.retrieve now f contentHash).2

/-- How a look-up ends depends on the record of the file and on the blob that it names. -/
theorem sameAnswers_of_read? (hrecord : c'.records.get? f = c.records.get? f)
    (hblob : ∀ r, c.records.get? f = some r →
      c'.files.read? (c'.blobPath r.blobName) = c.files.read? (c.blobPath r.blobName)) :
    c.SameAnswers c' f := by
  intro now contentHash
  change c'.lookup now f contentHash = c.lookup now f contentHash
  rw [lookup, lookup, hrecord]
  cases hr : c.records.get? f with
  | none => rfl
  | some r => simp only [readEntry, hblob r hr]

/-- Counting an error makes no difference to what is found, nor to what is found when the directory
has been opened again. -/
theorem sameAnswers_with_counts (counts : CacheCounts) :
    c.SameAnswers { c with counts } f ∧ (reopen { c with counts }).2 = c.reopen.2 ∧
      c.reopen.1.SameAnswers (reopen { c with counts }).1 f := by
  refine ⟨sameAnswers_of_read? rfl fun _ _ => rfl, ?_⟩
  rw [reopen, reopen]
  rcases openAt c.files c.directory c.device with ⟨files, e | c'⟩
  · exact ⟨rfl, sameAnswers_of_read? rfl fun _ _ => rfl⟩
  · exact ⟨rfl, sameAnswers_of_read? rfl fun _ _ => rfl⟩

/-! ## What has changed by then -/

/-- Nothing of a cache changes but the record and the blob of one file and the draft of the index,
and its directory is there. -/
structure TouchesOnly (c c' : DiskCache) (p : Bytes) : Prop where
  directory_eq : c'.directory = c.directory
  records_eq : ∀ f, f ≠ p → c'.records.get? f = c.records.get? f
  files : c.files.ChangesOnly c'.files c.directory {CacheEntry.blobName p, draftName}
  isDirectoryAt : c'.files.isDirectoryAt c.directory

/-- When the blob of a file cannot be opened, a store of it does nothing but count an error. -/
theorem store_of_cannotOpen (h : c.files.CannotOpen (c.blobPath (CacheEntry.blobName p)))
    (now : Int) (chunks : List Chunk) (contentHash : Bytes) (metadata : Json) :
    c.store now p chunks contentHash metadata =
      ({ c with counts.errors := c.counts.errors + 1 }, .ok false) := by
  rw [store, writeEntry]
  simp only [CacheEntry.ofChunks, h.writeText]

/-- A store succeeds, or it changes nothing but the count of errors, or it fails having touched only
what belongs to its file. -/
theorem store_cases (hzero : 0 ∉ c.directory) (hdir : c.directory ≠ []) (now : Int) (p : Bytes)
    (chunks : List Chunk) (contentHash : Bytes) (metadata : Json) :
    (c.store now p chunks contentHash metadata).2 = .ok true ∨
    c.store now p chunks contentHash metadata =
      ({ c with counts.errors := c.counts.errors + 1 }, .ok false) ∨
    ∃ c' r, c.store now p chunks contentHash metadata = (c', r) ∧ c.TouchesOnly c' p := by
  have hwritten {files : FileTree} {text : Bytes}
      (hread : files.read? (c.blobPath (CacheEntry.blobName p)) = some text) :
      files.isDirectoryAt c.directory :=
    FileTree.isDirectoryAt_of_read? hzero hdir (CacheEntry.plain_blobName p) hread
  rcases writeEntry_cases hzero (.ofChunks now p chunks contentHash metadata) with ⟨hwrite, -⟩ |
    ⟨files, left, r, hwrite, hr, -, hchanges, hread⟩ |
    ⟨files, left, text, hwrite, -, -, hchanges, hread⟩
  · right; left
    rw [store, hwrite]
  · right; right
    have hmono : c.files.ChangesOnly files c.directory {CacheEntry.blobName p, draftName} :=
      hchanges.mono fun _ => Or.inl
    rcases hr with rfl | ⟨rfl, -⟩
    · refine ⟨{ c with files, counts.errors := c.counts.errors + 1 }, .ok false, ?_, rfl,
        fun _ _ => rfl, hmono, hwritten hread⟩
      rw [store, hwrite]
    · refine ⟨{ c with files }, .error .malformedDocument, ?_, rfl, fun _ _ => rfl, hmono,
        hwritten hread⟩
      rw [store, hwrite]
  · obtain ⟨c₁, hc₁⟩ : ∃ c₁ : DiskCache, c₁ = { c with
        files, records := c.records.insert p
          (.ofEntry (.ofChunks now p chunks contentHash metadata)) } := ⟨_, rfl⟩
    have hwrite₁ : c.writeEntry (.ofChunks now p chunks contentHash metadata) = (c₁, .ok true) :=
      hc₁ ▸ hwrite
    have hdirectory : c₁.directory = c.directory := by rw [hc₁]
    rcases saveIndex_cases (hdirectory ▸ hzero) with
      ⟨files', e, hsave, -, hdraft⟩ | ⟨files', left', text', hsave, -⟩
    · right; right
      refine ⟨{ c₁ with files := files' }, .error e, ?_, hdirectory, ?_, ?_, ?_⟩
      · rw [store, hwrite₁]
        simp only [hsave]
      · intro f hf
        rw [hc₁, Dict.get?_insert, if_neg hf]
      · have hdraft' : files.ChangesOnly files' c.directory {draftName} := by
          rwa [hc₁] at hdraft
        exact (hchanges.mono fun _ => Or.inl).trans (hdraft'.mono fun _ => Or.inr)
      · rw [hc₁] at hdraft
        exact hdraft.sameDirectories.isDirectoryAt (hwritten hread)
    · left
      rw [store, hwrite₁]
      simp only [hsave]

namespace TouchesOnly

/-- The blob of another file and the index are as they were. -/
theorem read?_eq (h : c.TouchesOnly c' p) {n : Bytes} (hn : Path.Plain n)
    (hblob : n ≠ CacheEntry.blobName p) (hdraft : n ≠ draftName) :
    c'.files.read? (c'.blobPath n) = c.files.read? (c.blobPath n) := by
  have hfind :
      c'.files.find? (Path.join c.directory n) = c.files.find? (Path.join c.directory n) := by
    apply h.files.find?_eq n hn
    rintro (heq | heq)
    · exact hblob heq
    · exact hdraft heq
  rw [blobPath, blobPath, h.directory_eq]
  exact FileTree.read?_congr hfind

/-- What touches only one file leaves the index on disk as it reads. -/
theorem loadIndex_eq (h : c.TouchesOnly c' p) :
    loadIndex c'.files c'.indexPath = loadIndex c.files c.indexPath := by
  have hread := h.read?_eq plain_indexName (blobName_ne_indexName p).symm (by decide)
  have hpath : c'.indexPath = c.indexPath := by rw [indexPath, indexPath, h.directory_eq]
  rw [blobPath, blobPath] at hread
  rw [loadIndex, loadIndex, indexPath, indexPath, hread, h.directory_eq]

/-- Files whose blobs have other names are found as before. -/
theorem sameAnswers (h : c.TouchesOnly c' p) (hrecords : RecordsOf s c.records)
    (hf : CacheEntry.blobName f ≠ CacheEntry.blobName p) : c.SameAnswers c' f := by
  have hne : f ≠ p := by
    rintro rfl
    exact hf rfl
  apply sameAnswers_of_read? (h.records_eq f hne)
  intro r hr
  rw [hrecords.blobName_eq hr]
  exact h.read?_eq (CacheEntry.plain_blobName f) hf (blobName_ne_draftName f)

/-- This is also so when the directory has been opened again. -/
theorem reopen (h : c.TouchesOnly c' p) (hmemory : RecordsOf s c.records)
    (hdisk : ∀ records, loadIndex c.files c.indexPath = .ok records → RecordsOf s records)
    (hf : CacheEntry.blobName f ≠ CacheEntry.blobName p) :
    c'.reopen.2 = c.reopen.2 ∧ c.reopen.1.SameAnswers c'.reopen.1 f := by
  have hdir' : c'.files.isDirectoryAt c'.directory := h.directory_eq.symm ▸ h.isDirectoryAt
  have hdir : c.files.isDirectoryAt c.directory :=
    h.files.sameDirectories.symm.isDirectoryAt h.isDirectoryAt
  rw [reopen_of_isDirectoryAt hdir, reopen_of_isDirectoryAt hdir', h.loadIndex_eq]
  cases hload : loadIndex c.files c.indexPath with
  | error e => exact ⟨rfl, h.sameAnswers hmemory hf⟩
  | ok records =>
    have hopened : TouchesOnly ⟨c.files, c.directory, records, .zero, c.device⟩
        ⟨c'.files, c'.directory, records, .zero, c'.device⟩ p :=
      ⟨h.directory_eq, fun _ _ => rfl, h.files, h.isDirectoryAt⟩
    exact ⟨rfl, hopened.sameAnswers (hdisk records hload) hf⟩

end TouchesOnly

/-! ## After a run -/

/-- The directory of a cache that was opened has a path. -/
theorem IsNew.directory_ne_nil (h : c.IsNew) : c.directory ≠ [] := by
  obtain ⟨⟨files, directory, files', hopen⟩, -⟩ := h
  have hdirectory : c.directory = directory := by
    unfold openAt at hopen
    split at hopen
    · exact absurd (congrArg Prod.snd hopen) nofun
    · cases hload : loadIndex _ (Path.join directory indexName) with
      | error e =>
        rw [hload] at hopen
        exact absurd (congrArg Prod.snd hopen) nofun
      | ok records =>
        rw [hload] at hopen
        obtain rfl := Except.ok.inj (congrArg Prod.snd hopen)
        rfl
  rintro hnil
  rw [← hdirectory, hnil] at hopen
  exact absurd (congrArg Prod.snd hopen) nofun

/-- A store that fails after some run makes no difference to the other files, whether they are
looked up at once or after the directory was opened again. If it fails because the blob could not be
opened, it makes no difference to its own file either. -/
theorem Run.sameAnswers_of_failed_store (h : Run c₀ history c) (hnew : c₀.IsNew)
    (hzero : 0 ∉ c₀.directory) (hlegible : ∀ e ∈ history.given, e.Legible) {now : Int}
    {chunks : List Chunk} {contentHash : Bytes} {metadata : Json} {c' : DiskCache}
    {r : Except Failure Bool} (hstore : c.store now p chunks contentHash metadata = (c', r))
    (hfailed : r ≠ .ok true)
    (hf : c.files.CannotOpen (c.blobPath (CacheEntry.blobName p)) ∨
      Sha256.hexOf f ≠ Sha256.hexOf p) :
    c.SameAnswers c' f ∧ c'.reopen.2 = c.reopen.2 ∧ c.reopen.1.SameAnswers c'.reopen.1 f := by
  obtain ⟨hdirectory, hsound, -⟩ := h.sound hnew hzero hlegible
  rcases hf with hcannot | hhash
  · obtain ⟨rfl, -⟩ := Prod.mk.inj ((store_of_cannotOpen hcannot ..).symm.trans hstore)
    exact sameAnswers_with_counts _
  · have hcases := store_cases (hdirectory ▸ hzero) (hdirectory ▸ hnew.directory_ne_nil) now p
      chunks contentHash metadata
    rw [hstore] at hcases
    rcases hcases with hok | hnothing | ⟨c'', r', hends, htouches⟩
    · exact absurd hok hfailed
    · obtain ⟨rfl, -⟩ := Prod.mk.inj hnothing
      exact sameAnswers_with_counts _
    · obtain ⟨rfl, rfl⟩ := Prod.mk.inj hends
      have hname : CacheEntry.blobName f ≠ CacheEntry.blobName p :=
        fun heq => hhash (List.append_cancel_right heq)
      exact ⟨htouches.sameAnswers hsound.memory hname,
        htouches.reopen hsound.memory hsound.disk hname⟩

/-- What becomes of the answer to a look-up when nothing can be understood of the blob any more. -/
def spoilt : CacheLookup → CacheLookup
  | .notFound => .notFound
  | .hashMismatch => .hashMismatch
  | .hit _ | .blobMissing | .corrupt => .corrupt

/-- Where nothing can be understood of the blob of a file, the file is found no more. -/
theorem lookup_of_spoilt_blob (h : RecordsOf s c.records) {files : FileTree} {left : Bytes}
    (hread : files.read? (c.blobPath (CacheEntry.blobName p)) = some left)
    (hparse : Json.parse? left = none) (counts : CacheCounts) (now : Int)
    (contentHash : Option Bytes) :
    lookup { c with files, counts } now p contentHash = spoilt (c.lookup now p contentHash) := by
  rw [lookup, lookup]
  cases hr : c.records.get? p with
  | none => rfl
  | some r =>
    have hcorrupt : readEntry { c with files, counts } now p r = .corrupt := by
      have hpath : blobPath { c with files, counts } r.blobName =
          c.blobPath (CacheEntry.blobName p) := by
        rw [h.blobName_eq hr, blobPath, blobPath]
      simp only [readEntry, hpath, hread, hparse, Option.bind_none]
    have hspoilt : spoilt (c.readEntry now p r) = .corrupt := by
      rw [readEntry]
      split
      · rfl
      · split <;> rfl
    by_cases hmismatch : contentHash.any (· ≠ r.contentHash)
    · simp only [if_pos hmismatch, spoilt]
    · simp only [if_neg hmismatch, hcorrupt, hspoilt]

/-- When the blob of a file was opened, but its entry could not be written out or the disk did not
take it, the file is found no more. -/
theorem Run.retrieve_of_spoilt_store (h : Run c₀ history c) (hnew : c₀.IsNew)
    (hzero : 0 ∉ c₀.directory) (hlegible : ∀ e ∈ history.given, e.Legible) {now : Int}
    {chunks : List Chunk} {contentHash : Bytes} {metadata : Json} {c' : DiskCache}
    {r : Except Failure Bool}
    (hentry : (CacheEntry.ofChunks now p chunks contentHash metadata).Legible)
    (hopens : ¬ c.files.CannotOpen (c.blobPath (CacheEntry.blobName p)))
    (hstore : c.store now p chunks contentHash metadata = (c', r))
    (hfailed : r = .ok false ∨
      (CacheEntry.ofChunks now p chunks contentHash metadata).toBlob.compact? = none)
    (now' : Int) (asked : Option Bytes) :
    (c'.retrieve now' p asked).2 = spoilt (c.retrieve now' p asked).2 := by
  obtain ⟨hdirectory, hsound, -⟩ := h.sound hnew hzero hlegible
  rcases writeEntry_cases (hdirectory ▸ hzero) (.ofChunks now p chunks contentHash metadata) with
    ⟨-, hcannot⟩ | ⟨files, left, w, hwrite, hw, hcut, -, hread⟩ |
    ⟨files, left, text, hwrite, htext, -, -, -⟩
  · exact absurd hcannot hopens
  · have hparse := hentry.parse?_eq_none hcut
    unfold store at hstore
    rw [hwrite] at hstore
    rcases hw with rfl | ⟨rfl, -⟩
    · obtain ⟨rfl, -⟩ := Prod.mk.inj hstore
      exact lookup_of_spoilt_blob hsound.memory hread hparse _ now' asked
    · obtain ⟨rfl, -⟩ := Prod.mk.inj hstore
      exact lookup_of_spoilt_blob hsound.memory hread hparse _ now' asked
  · -- The blob was written, so what failed is the index, and then a failure is answered.
    rcases hfailed with rfl | hmalformed
    · unfold store at hstore
      rw [hwrite] at hstore
      split at hstore
      · exact absurd (congrArg Prod.snd hstore) nofun
      · next heq => exact absurd (congrArg Prod.snd heq) nofun
      · split at hstore
        · exact absurd (congrArg Prod.snd hstore) nofun
        · exact absurd (congrArg Prod.snd hstore) nofun
    · exact absurd (hmalformed.symm.trans htext) nofun

/-! ## Failing after a success -/

/-- A hash that is not a text: an entry of such a content cannot be written out. -/
def noText : Bytes := [0xFF]

/-- A store of one file that fails makes no difference to another one. -/
theorem sameAnswers_of_failed_store_storedOnce :
    Run fresh [storedFor (bytes "h")] storedOnce ∧
    (storedOnce.store 0 (bytes "b") [] noText .null).2 ≠ .ok true ∧
    storedOnce.SameAnswers (storedOnce.store 0 (bytes "b") [] noText .null).1 (bytes "a") := by
  have hfailed :
      (storedOnce.store 0 (bytes "b") [] noText .null).2 = .error .malformedDocument := by
    decide +kernel
  have hne : (storedOnce.store 0 (bytes "b") [] noText .null).2 ≠ .ok true := by
    rw [hfailed]
    exact nofun
  have hhash : Sha256.hexOf (bytes "a") ≠ Sha256.hexOf (bytes "b") := by decide +kernel
  obtain ⟨hsame, -⟩ := Run.sameAnswers_of_failed_store run_storedOnce isNew_fresh (by decide)
    legible_storedOnce (Prod.eta _).symm hne (Or.inr hhash)
  exact ⟨run_storedOnce, hne, hsame⟩

/-- A store of a file that fails makes a difference to this file: its entry is gone. -/
theorem retrieve_corrupt_of_failed_store :
    Run fresh [storedFor (bytes "h")] storedOnce ∧
    (storedOnce.store 0 (bytes "a") [] noText .null).2 = .error .malformedDocument ∧
    (storedOnce.retrieve 0 (bytes "a") (some (bytes "h"))).2.status = bytes "hit" ∧
    ((storedOnce.store 0 (bytes "a") [] noText .null).1.retrieve 0 (bytes "a")
      (some (bytes "h"))).2.status = bytes "corrupt" :=
  ⟨run_storedOnce, by decide +kernel, by decide +kernel, by decide +kernel⟩

end SourceChunks.DiskCache
