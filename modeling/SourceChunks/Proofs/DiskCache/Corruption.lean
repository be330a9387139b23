import SourceChunks.Proofs.DiskCache.FailedStores
import SourceChunks.Proofs.DiskCache.Shape
import SourceChunks.Proofs.DiskCache.Transfer

/-!
# Blobs that are corrupt

The index of a cache is its own as long as nobody else writes to the file of the index, whatever
happens to the blobs. Every look-up then ends in one of five ways, which are told apart by the
record and the blob of its file alone; it is counted once and changes nothing else.
-/

namespace SourceChunks

/-! ## Counters -/

/-- The counter of the look-ups that end as one does. -/
def CacheLookup.counter : CacheLookup → CacheCounts → Nat
  | .hit _ => CacheCounts.hits
  | .notFound => CacheCounts.misses
  | .hashMismatch => CacheCounts.hashMismatches
  | .blobMissing => CacheCounts.desyncs
  | .corrupt => CacheCounts.errors

/-- To count a look-up adds one to its own counter and nothing to the others. -/
theorem CacheLookup.counter_count (l l' : CacheLookup) (n : CacheCounts) :
    l'.counter (l.count n) = l'.counter n + if l'.status = l.status then 1 else 0 := by
  cases l <;> cases l' <;> rfl

/-- Operations other than look-ups count no look-up. They may count errors of their own. -/
structure CacheCounts.KeepsLooks (n n' : CacheCounts) : Prop where
  retrievals_eq : n'.retrievals = n.retrievals
  hits_eq : n'.hits = n.hits
  misses_eq : n'.misses = n.misses
  hashMismatches_eq : n'.hashMismatches = n.hashMismatches
  desyncs_eq : n'.desyncs = n.desyncs
  errors_le : n.errors ≤ n'.errors

namespace CacheCounts.KeepsLooks

variable {n n' n'' : CacheCounts}

/-- Unchanged counts count no look-up. -/
theorem of_eq (h : n' = n) : n.KeepsLooks n' := by
  subst h
  exact ⟨rfl, rfl, rfl, rfl, rfl, Nat.le_refl _⟩

/-- Operations that count no look-up count none together. -/
theorem trans (h : n.KeepsLooks n') (h' : n'.KeepsLooks n'') : n.KeepsLooks n'' where
  retrievals_eq := h'.retrievals_eq.trans h.retrievals_eq
  hits_eq := h'.hits_eq.trans h.hits_eq
  misses_eq := h'.misses_eq.trans h.misses_eq
  hashMismatches_eq := h'.hashMismatches_eq.trans h.hashMismatches_eq
  desyncs_eq := h'.desyncs_eq.trans h.desyncs_eq
  errors_le := h.errors_le.trans h'.errors_le

end CacheCounts.KeepsLooks

namespace DiskCache

variable {c c' c'' c₀ : DiskCache}

/-! ## An index of one's own -/

/-- A record of a path that a cache has made itself: it can be read back, and it names the blob of
the path. -/
structure IsOwnRecord (f : Bytes) (r : CacheRecord) : Prop where
  filePath_utf8 : Bytes.isUtf8 f
  storable : r.Storable
  blobName_eq : r.blobName = CacheEntry.blobName f

/-- All records are of this kind. -/
def OwnRecords (records : Dict CacheRecord) : Prop :=
  ∀ f r, records.get? f = some r → IsOwnRecord f r

/-- Without records all records are the cache's own. -/
theorem OwnRecords.empty : OwnRecords Dict.empty := nofun

/-- The cache's own records can be stored. -/
theorem OwnRecords.allStorable {records : Dict CacheRecord} (h : OwnRecords records) :
    CacheRecord.AllStorable records :=
  fun f r hr => ⟨(h f r hr).filePath_utf8, (h f r hr).storable⟩

/-- An entry that could be written out has a record of this kind. -/
theorem isOwnRecord_ofEntry {e : CacheEntry} {text : Bytes} (htext : e.toBlob.compact? = some text)
    (hcount : e.chunks.length < UInt64.size) : IsOwnRecord e.filePath (.ofEntry e) := by
  have hwritable := Json.writable_of_compact? (Option.isSome_iff_exists.mpr ⟨text, htext⟩)
  have hmember := Json.forall_member?_ofMembers e.nodup_keys_blobMembers
  rw [← CacheEntry.toBlob_eq] at hmember
  have hhash := hmember (bytes "file_hash", .string e.contentHash)
    (by simp [CacheEntry.blobMembers, CacheEntry.members])
  exact {
    filePath_utf8 := (CacheEntry.isUtf8_of_writable hwritable).1
    storable := {
      contentHash_utf8 := (hwritable.of_member? hhash).isUtf8
      timestamp_utf8 := e.timestamp.ascii_toText.isUtf8
      chunkCount_lt := hcount
      blobName_utf8 := (Bytes.ascii_append.mpr ⟨Bytes.ascii_hex _, by decide⟩).isUtf8 }
    blobName_eq := rfl }

/-- The index of a cache, in memory and on disk, was written by the cache itself. -/
structure OwnIndex (c : DiskCache) : Prop where
  notMem_zero : 0 ∉ c.directory
  memory : OwnRecords c.records
  disk : ∀ records, loadIndex c.files c.indexPath = .ok records → OwnRecords records

/-- Files change and records are lost, but what is read of the index on disk was there before. -/
theorem OwnIndex.of_le (h : c.OwnIndex) (hdirectory : c'.directory = c.directory)
    (hrecords : ∀ f r, c'.records.get? f = some r → c.records.get? f = some r)
    (hindex : ∀ records, loadIndex c'.files c'.indexPath = .ok records →
      records = Dict.empty ∨ loadIndex c.files c.indexPath = .ok records) : c'.OwnIndex where
  notMem_zero := hdirectory ▸ h.notMem_zero
  memory f r hr := h.memory f r (hrecords f r hr)
  disk records hload := by
    rcases hindex records hload with rfl | hold
    · exact .empty
    · exact h.disk records hold

/-- Another state of a cache whose index is still its own and that has counted no more look-ups. -/
structure Proceeds (c c' : DiskCache) : Prop where
  ownIndex : c.OwnIndex → c'.OwnIndex
  keepsLooks : c.counts.KeepsLooks c'.counts

namespace Proceeds

/-- A cache that does nothing proceeds. -/
theorem refl (c : DiskCache) : c.Proceeds c := ⟨id, .of_eq rfl⟩

/-- What proceeds twice proceeds. -/
theorem trans (h : c.Proceeds c') (h' : c'.Proceeds c'') : c.Proceeds c'' :=
  ⟨fun hown => h'.ownIndex (h.ownIndex hown), h.keepsLooks.trans h'.keepsLooks⟩

/-- Counting what was stored and what went wrong. -/
theorem with_counts {counts : CacheCounts} (h : c.counts.KeepsLooks counts) :
    c.Proceeds { c with counts } :=
  ⟨fun hown => ⟨hown.notMem_zero, hown.memory, hown.disk⟩, h⟩

/-- Writing the index keeps it the cache's own and counts no look-up, also if it fails. -/
theorem saveIndex (c : DiskCache) : c.Proceeds c.saveIndex.1 := by
  constructor
  · intro hown
    rcases saveIndex_cases hown.notMem_zero with
      ⟨files, f, hsave, -, hchanges⟩ | ⟨files, left, text, hsave, htext, hleft, -, hindex⟩
    · rw [hsave]
      exact hown.of_le rfl (fun _ _ => id)
        (loadIndex_of_changesOnly hchanges (by decide : indexName ≠ draftName))
    · rw [hsave]
      refine ⟨hown.notMem_zero, hown.memory, fun records hload => ?_⟩
      obtain rfl := eq_of_loadIndex hown.memory.allStorable htext hleft hindex hload
      exact hown.memory
  · refine .of_eq ?_
    simp only [DiskCache.saveIndex]
    split
    · rfl
    · rfl
    · rfl
    · split <;> rfl

/-- Writing an entry of as many chunks as can be counted. -/
theorem writeEntry (c : DiskCache) {e : CacheEntry} (hcount : e.chunks.length < UInt64.size) :
    c.Proceeds (c.writeEntry e).1 := by
  constructor
  · intro hown
    rcases writeEntry_cases hown.notMem_zero e with
      ⟨hwrite, -⟩ | ⟨files, left, r, hwrite, -, -, hchanges, -⟩ |
      ⟨files, left, text, hwrite, htext, -, hchanges, -⟩
    · rw [hwrite]
      exact hown
    · rw [hwrite]
      exact hown.of_le rfl (fun _ _ => id)
        (loadIndex_of_changesOnly hchanges (indexName_notMem e.filePath))
    · rw [hwrite]
      have hdisk : OwnIndex { c with files } := hown.of_le rfl (fun _ _ => id)
        (loadIndex_of_changesOnly hchanges (indexName_notMem e.filePath))
      refine ⟨hown.notMem_zero, fun f r hr => ?_, hdisk.disk⟩
      rw [Dict.get?_insert] at hr
      split at hr
      · next heq =>
        obtain rfl := Option.some.inj hr
        exact heq ▸ isOwnRecord_ofEntry htext hcount
      · exact hown.memory f r hr
  · refine .of_eq ?_
    unfold DiskCache.writeEntry
    split <;> rfl

/-- A removal keeps the index the cache's own and counts no look-up. -/
theorem removeEntry (c : DiskCache) (f : Bytes) : c.Proceeds (c.removeEntry f) := by
  unfold DiskCache.removeEntry
  split
  · exact .refl c
  · next r hr =>
    refine ⟨fun hown => hown.of_le rfl ?_ fun records hload => ?_, .of_eq rfl⟩
    · intro g r' hr'
      rw [Dict.get?_erase] at hr'
      split at hr'
      · exact absurd hr' nofun
      · exact hr'
    · rw [(hown.memory f r hr).blobName_eq] at hload
      exact loadIndex_of_read? (FileTree.find?_remove_of_ne hown.notMem_zero
        (CacheEntry.plain_blobName f) plain_indexName (blobName_ne_indexName f).symm) hload

/-- Removals one after another keep the index the cache's own and count no look-up. -/
theorem foldl_removeEntry (c : DiskCache) (fs : List Bytes) :
    c.Proceeds (fs.foldl DiskCache.removeEntry c) := by
  induction fs generalizing c with
  | nil => exact .refl c
  | cons f rest ih => exact (removeEntry c f).trans (ih _)

/-- Removals that write the index at the end keep it the cache's own and count no look-up. -/
theorem removeAll (c : DiskCache) (fs : List Bytes) : c.Proceeds (c.removeAll fs).1 :=
  (foldl_removeEntry c fs).trans (saveIndex _)

/-- A store keeps the index the cache's own and counts no look-up, whether it succeeds or not. -/
theorem store (c : DiskCache) (now : Int) (f : Bytes) {chunks : List Chunk} (contentHash : Bytes)
    (metadata : Json) (hcount : chunks.length < UInt64.size) :
    c.Proceeds (c.store now f chunks contentHash metadata).1 := by
  have hwrite := writeEntry c (e := .ofChunks now f chunks contentHash metadata) hcount
  unfold DiskCache.store
  split
  · next heq => rwa [heq] at hwrite
  · next heq =>
    rw [heq] at hwrite
    exact hwrite.trans (with_counts ⟨rfl, rfl, rfl, rfl, rfl, Nat.le_succ _⟩)
  · next c₁ heq =>
    rw [heq] at hwrite
    have hsave := hwrite.trans (saveIndex c₁)
    split
    · next hsaved => rwa [hsaved] at hsave
    · next hsaved =>
      rw [hsaved] at hsave
      exact hsave.trans (with_counts ⟨rfl, rfl, rfl, rfl, rfl, Nat.le_refl _⟩)

/-- Writing entries one after another keeps the index the cache's own and counts no look-up. -/
theorem writeEntries (c : DiskCache) {es : List CacheEntry}
    (hcount : ∀ e ∈ es, e.chunks.length < UInt64.size) : c.Proceeds (c.writeEntries es).1 := by
  induction es generalizing c with
  | nil => exact .refl c
  | cons e rest ih =>
    obtain ⟨he, hrest⟩ := List.forall_mem_cons.mp hcount
    have hwrite := writeEntry c he
    unfold DiskCache.writeEntries
    split
    · next heq => rwa [heq] at hwrite
    · next c₁ heq =>
      rw [heq] at hwrite
      have hcounted : c₁.Proceeds { c₁ with counts.errors := c₁.counts.errors + 1 } :=
        with_counts ⟨rfl, rfl, rfl, rfl, rfl, Nat.le_succ _⟩
      exact (hwrite.trans hcounted).trans (ih _ hrest)
    · next c₁ heq =>
      rw [heq] at hwrite
      have hcounted : c₁.Proceeds { c₁ with counts.stores := c₁.counts.stores + 1 } :=
        with_counts ⟨rfl, rfl, rfl, rfl, rfl, Nat.le_refl _⟩
      exact (hwrite.trans hcounted).trans (ih _ hrest)

/-- An accepted document leaves an index of the cache's own, a refused one leaves the cache as it
was. -/
theorem importDocument (c : DiskCache) (now : Int) {document : Json}
    (hcount : ∀ e ∈ imported now document, e.chunks.length < UInt64.size) :
    c.Proceeds (c.importDocument now document).1 := by
  unfold DiskCache.importDocument
  split
  · exact .refl c
  · next es hentries =>
    have hwrites := (foldl_removeEntry c c.records.keys).trans
      (writeEntries _ fun e he => hcount e ⟨es, hentries, he⟩)
    split
    · next heq => rwa [heq] at hwrites
    · next heq =>
      rw [heq] at hwrites
      exact hwrites.trans (saveIndex _)

/-- An import keeps the index the cache's own, whatever is at the path. -/
theorem importFrom (c : DiskCache) (now : Int) (path : Bytes)
    (hcount : ∀ e ∈ c.importedFrom now path, e.chunks.length < UInt64.size) :
    c.Proceeds (c.importFrom now path).1 := by
  unfold DiskCache.importFrom
  split
  · exact .refl c
  · next text hread =>
    split
    · exact .refl c
    · next document hparse =>
      exact importDocument c now fun e he => hcount e ⟨text, document, hread, hparse, he⟩

end Proceeds

/-! ## What a look-up answers -/

/-- How a look-up has to end, given the record and the blob of the file. -/
inductive Answers (c : DiskCache) (now : Int) (f : Bytes) (contentHash : Option Bytes) :
    CacheLookup → Prop
  /-- There is no record. -/
  | notFound (hrecord : c.records.get? f = none) : Answers c now f contentHash .notFound
  /-- The record is one of another content than was asked for. -/
  | hashMismatch {r : CacheRecord} (hrecord : c.records.get? f = some r)
    (hasked : ∃ x ∈ contentHash, x ≠ r.contentHash) : Answers c now f contentHash .hashMismatch
  /-- There is a fitting record and no blob. -/
  | blobMissing {r : CacheRecord} (hrecord : c.records.get? f = some r)
    (hasked : ∀ x ∈ contentHash, x = r.contentHash)
    (hblob : c.files.read? (c.blobPath (CacheEntry.blobName f)) = none) :
    Answers c now f contentHash .blobMissing
  /-- There is a fitting record with a blob that is no document of the right shape. -/
  | corrupt {r : CacheRecord} {text : Bytes} (hrecord : c.records.get? f = some r)
    (hasked : ∀ x ∈ contentHash, x = r.contentHash)
    (hblob : c.files.read? (c.blobPath (CacheEntry.blobName f)) = some text)
    (hshape : ∀ v, Json.parse? text = some v → ¬ CacheEntry.IsBlob v) :
    Answers c now f contentHash .corrupt
  /-- There is a fitting record with a blob of the right shape, whose entry is found. -/
  | hit {r : CacheRecord} {text : Bytes} {v : Json} {e : CacheEntry}
    (hrecord : c.records.get? f = some r) (hasked : ∀ x ∈ contentHash, x = r.contentHash)
    (hblob : c.files.read? (c.blobPath (CacheEntry.blobName f)) = some text)
    (hparse : Json.parse? text = some v) (hshape : CacheEntry.IsBlob v)
    (hentry : CacheEntry.ofBlob? now f v = some e) : Answers c now f contentHash (.hit e)

/-- Look-ups in a cache with an index of its own end as they have to. -/
theorem OwnIndex.answers_lookup (h : c.OwnIndex) (now : Int) (f : Bytes)
    (contentHash : Option Bytes) : c.Answers now f contentHash (c.lookup now f contentHash) := by
  rw [lookup]
  cases hr : c.records.get? f with
  | none => exact .notFound hr
  | some r =>
    simp only
    split
    · next hother =>
      obtain ⟨x, hx, hne⟩ := (Option.any_eq_true ..).mp hother
      exact .hashMismatch hr ⟨x, hx, of_decide_eq_true hne⟩
    · next hsame =>
      have hasked : ∀ x ∈ contentHash, x = r.contentHash := by
        intro x hx
        by_contra hne
        exact hsame ((Option.any_eq_true ..).mpr ⟨x, hx, decide_eq_true hne⟩)
      rw [readEntry, (h.memory f r hr).blobName_eq]
      cases hblob : c.files.read? (c.blobPath (CacheEntry.blobName f)) with
      | none => exact .blobMissing hr hasked hblob
      | some text =>
        simp only
        cases hentry : (Json.parse? text).bind (CacheEntry.ofBlob? now f) with
        | none =>
          refine .corrupt hr hasked hblob fun v hparse hshape => ?_
          rw [hparse, Option.bind_some] at hentry
          have hsome := (CacheEntry.isSome_ofBlob? now f v).mpr hshape
          rw [hentry] at hsome
          exact absurd hsome Bool.false_ne_true
        | some e =>
          obtain ⟨v, hparse, hread⟩ := Option.bind_eq_some_iff.mp hentry
          exact .hit hr hasked hblob hparse
            ((CacheEntry.isSome_ofBlob? now f v).mp (Option.isSome_iff_exists.mpr ⟨e, hread⟩)) hread

/-- What happens to one blob makes no difference to files whose paths have another hash. -/
theorem OwnIndex.sameAnswers (h : c.OwnIndex) {p f : Bytes} {files : FileTree}
    (hfiles : ∀ n, Path.Plain n → n ≠ CacheEntry.blobName p →
      files.find? (Path.join c.directory n) = c.files.find? (Path.join c.directory n))
    (hhash : Sha256.hexOf f ≠ Sha256.hexOf p) : c.SameAnswers { c with files } f := by
  refine sameAnswers_of_read? rfl fun r hr => ?_
  have hname : CacheEntry.blobName f ≠ CacheEntry.blobName p :=
    fun heq => hhash (List.append_cancel_right heq)
  rw [(h.memory f r hr).blobName_eq]
  exact FileTree.read?_congr (hfiles _ (CacheEntry.plain_blobName f) hname)

/-! ## Look-ups of a run -/

/-- How many of some look-ups ended as one does. -/
def endings (looks : List CacheLookup) (l : CacheLookup) : Nat := looks.countP (l.status = ·.status)

/-- Each look-up ends in one of five ways. -/
theorem length_eq_endings (e : CacheEntry) (looks : List CacheLookup) : looks.length =
    endings looks (.hit e) + endings looks .notFound + endings looks .hashMismatch +
      endings looks .blobMissing + endings looks .corrupt := by
  induction looks with
  | nil => rfl
  | cons l rest ih =>
    have hone : (if (CacheLookup.hit e).status = l.status then 1 else 0) +
        (if CacheLookup.notFound.status = l.status then 1 else 0) +
        (if CacheLookup.hashMismatch.status = l.status then 1 else 0) +
        (if CacheLookup.blobMissing.status = l.status then 1 else 0) +
        (if CacheLookup.corrupt.status = l.status then 1 else 0) = 1 := by
      cases l <;> rfl
    simp only [endings, List.countP_cons, List.length_cons, decide_eq_true_eq] at ih ⊢
    omega

/-- The counts of a cache tell how its look-ups ended. Errors are counted for other reasons, too. -/
structure Tallies (looks : List CacheLookup) (n : CacheCounts) : Prop where
  retrievals_eq : n.retrievals = looks.length
  counter_eq : ∀ l : CacheLookup, l ≠ .corrupt → l.counter n = endings looks l
  corrupt_le : endings looks .corrupt ≤ n.errors

namespace Tallies

variable {looks : List CacheLookup} {n n' : CacheCounts}

/-- Without look-ups there is nothing to tally. -/
theorem nil : Tallies [] .zero where
  retrievals_eq := rfl
  counter_eq l _ := by cases l <;> rfl
  corrupt_le := Nat.le_refl 0

/-- Counts tally as before while no look-up is counted. -/
theorem of_keepsLooks (h : Tallies looks n) (hkeeps : n.KeepsLooks n') : Tallies looks n' where
  retrievals_eq := hkeeps.retrievals_eq.trans h.retrievals_eq
  counter_eq l hl := by
    rw [← h.counter_eq l hl]
    cases l with
    | hit e => exact hkeeps.hits_eq
    | notFound => exact hkeeps.misses_eq
    | hashMismatch => exact hkeeps.hashMismatches_eq
    | blobMissing => exact hkeeps.desyncs_eq
    | corrupt => exact absurd rfl hl
  corrupt_le := h.corrupt_le.trans hkeeps.errors_le

/-- One more look-up adds to those that ended as it did. -/
theorem endings_concat (looks : List CacheLookup) (l l' : CacheLookup) :
    endings (looks ++ [l]) l' = endings looks l' + if l'.status = l.status then 1 else 0 := by
  simp only [endings, List.countP_append, List.countP_singleton, decide_eq_true_eq]

/-- The counts tally after one more look-up that is counted. -/
theorem count (h : Tallies looks n) (l : CacheLookup) : Tallies (looks ++ [l]) (l.count n) where
  retrievals_eq := by
    rw [List.length_append, List.length_singleton, ← h.retrievals_eq]
    cases l <;> rfl
  counter_eq l' hl' := by
    rw [CacheLookup.counter_count, endings_concat, h.counter_eq l' hl']
  corrupt_le := by
    have hcounter := CacheLookup.counter_count l .corrupt n
    have hle := h.corrupt_le
    rw [endings_concat]
    simp only [CacheLookup.counter] at hcounter
    omega

/-- All look-ups were counted, each of them once. -/
theorem retrievals_eq_sum (h : Tallies looks n) : n.retrievals =
    n.hits + n.misses + n.hashMismatches + n.desyncs + endings looks .corrupt := by
  have hlength := length_eq_endings ⟨[], [], ⟨0⟩, [], .null, []⟩ looks
  have hhits := h.counter_eq (.hit ⟨[], [], ⟨0⟩, [], .null, []⟩) nofun
  have hmisses := h.counter_eq .notFound nofun
  have hmismatches := h.counter_eq .hashMismatch nofun
  have hdesyncs := h.counter_eq .blobMissing nofun
  simp only [CacheLookup.counter] at hhits hmisses hmismatches hdesyncs
  rw [h.retrievals_eq, hlength, hhits, hmisses, hmismatches, hdesyncs]

end Tallies

/-- The look-ups since a cache was opened, after one more answer of it. -/
def looksAfter (looks : List CacheLookup) : CacheAnswer → List CacheLookup
  | .found l => looks ++ [l]
  | .opened => []
  | _ => looks

/-- A cache is used. Operations are carried out on it, for which its directory is there when it is
opened again, and it takes over documents; all chunks can be counted. Between that any file may
change but that of the index, and the disk may take more or less than before. No directory lies
where a file is read. -/
inductive Exposed (c₀ : DiskCache) : List CacheLookup → DiskCache → Prop
  | start : Exposed c₀ [] c₀
  | perform {looks : List CacheLookup} {c : DiskCache} (h : Exposed c₀ looks c)
      (op : CacheOperation) (hcount : ∀ e, op.given? = some e → e.chunks.length < UInt64.size)
      (hdir : op = .reopen → c.files.isDirectoryAt c.directory) :
      Exposed c₀ (looksAfter looks (c.perform op).2) (c.perform op).1
  | importDocument {looks : List CacheLookup} {c : DiskCache} (h : Exposed c₀ looks c) (now : Int)
      (document : Json) (hcount : ∀ e ∈ imported now document, e.chunks.length < UInt64.size) :
      Exposed c₀ looks (c.importDocument now document).1
  | importFrom {looks : List CacheLookup} {c : DiskCache} (h : Exposed c₀ looks c) (now : Int)
      (path : Bytes) (hpath : ¬ c.files.isDirectoryAt path)
      (hcount : ∀ e ∈ c.importedFrom now path, e.chunks.length < UInt64.size) :
      Exposed c₀ looks (c.importFrom now path).1
  | disturb {looks : List CacheLookup} {c : DiskCache} (h : Exposed c₀ looks c) {files : FileTree}
      {device : FileTree.Device} (hindex : files.read? c.indexPath = c.files.read? c.indexPath)
      (hreads : ReadsFiles { c with files, device }) : Exposed c₀ looks { c with files, device }

/-- A cache that was opened where there are no records has an index of its own and has counted
nothing. -/
theorem IsNew.ownIndex (h : c.IsNew) (hzero : 0 ∉ c.directory) :
    c.OwnIndex ∧ Tallies [] c.counts := by
  obtain ⟨⟨files, directory, files', hopen⟩, hempty⟩ := h
  have hload := (loadIndex_of_openAt hopen).1
  have hcounts : c.counts = .zero := by
    unfold openAt at hopen
    split at hopen
    · exact absurd (congrArg Prod.snd hopen) nofun
    · obtain ⟨-, hopened⟩ := Prod.mk.inj hopen
      cases hindex : loadIndex _ (Path.join directory indexName) with
      | error e =>
        rw [hindex] at hopened
        exact absurd hopened nofun
      | ok records =>
        rw [hindex] at hopened
        obtain rfl := Except.ok.inj hopened
        rfl
  refine ⟨⟨hzero, hempty ▸ .empty, fun records hrecords => ?_⟩, hcounts ▸ .nil⟩
  obtain rfl := Except.ok.inj (hload.symm.trans hrecords)
  exact hempty ▸ .empty

variable {looks : List CacheLookup}

/-- An operation leaves a cache with an index of its own, and the counts tell of the look-ups. -/
theorem OwnIndex.perform (h : c.OwnIndex) (htallies : Tallies looks c.counts) {op : CacheOperation}
    (hcount : ∀ e, op.given? = some e → e.chunks.length < UInt64.size)
    (hdir : op = .reopen → c.files.isDirectoryAt c.directory) :
    (c.perform op).1.OwnIndex ∧
      Tallies (looksAfter looks (c.perform op).2) (c.perform op).1.counts := by
  have hother {c' : DiskCache} (hproceeds : c.Proceeds c') {α : Type} (answer : α → CacheAnswer)
      (hanswer : ∀ a, looksAfter looks (answer a) = looks) (r : Except Failure α) :
      c'.OwnIndex ∧ Tallies (looksAfter looks (.of answer r)) c'.counts := by
    refine ⟨hproceeds.ownIndex h, ?_⟩
    have hlooks : looksAfter looks (.of answer r) = looks := by
      cases r with
      | error f => rfl
      | ok a => exact hanswer a
    rw [hlooks]
    exact htallies.of_keepsLooks hproceeds.keepsLooks
  cases op with
  | store now f chunks contentHash metadata =>
    exact hother (.store c now f contentHash metadata (hcount _ rfl)) _ (fun _ => rfl) _
  | retrieve now f contentHash =>
    exact ⟨⟨h.notMem_zero, h.memory, h.disk⟩, htallies.count _⟩
  | invalidate f => exact hother (.removeAll c _) _ (fun _ => rfl) _
  | invalidateOlder limit => exact hother (.removeAll c _) _ (fun _ => rfl) _
  | invalidateAll => exact hother (.removeAll c _) _ (fun _ => rfl) _
  | reopen =>
    rw [DiskCache.perform, reopen_of_isDirectoryAt (hdir rfl)]
    cases hload : loadIndex c.files c.indexPath with
    | error f => exact ⟨h, htallies⟩
    | ok records => exact ⟨⟨h.notMem_zero, h.disk records hload, h.disk⟩, .nil⟩

/-- However the blobs of a cache are damaged, its index stays its own, and its counts tell of the
look-ups since it was opened. -/
theorem Exposed.ownIndex (h : c₀.Exposed looks c) (hnew : c₀.IsNew) (hzero : 0 ∉ c₀.directory) :
    c.OwnIndex ∧ Tallies looks c.counts := by
  induction h with
  | start => exact hnew.ownIndex hzero
  | perform h op hcount hdir ih =>
    obtain ⟨hown, htallies⟩ := ih
    exact hown.perform htallies hcount hdir
  | @importDocument looks c h now document hcount ih =>
    obtain ⟨hown, htallies⟩ := ih
    have hproceeds := Proceeds.importDocument c now hcount
    exact ⟨hproceeds.ownIndex hown, htallies.of_keepsLooks hproceeds.keepsLooks⟩
  | @importFrom looks c h now path _ hcount ih =>
    obtain ⟨hown, htallies⟩ := ih
    have hproceeds := Proceeds.importFrom c now path hcount
    exact ⟨hproceeds.ownIndex hown, htallies.of_keepsLooks hproceeds.keepsLooks⟩
  | @disturb looks c h files device hindex _ ih =>
    obtain ⟨hown, htallies⟩ := ih
    refine ⟨hown.of_le rfl (fun _ _ => id) fun records hload => Or.inr ?_, htallies⟩
    have hread : files.read? c.indexPath = c.files.read? c.indexPath := hindex
    rw [← hload, loadIndex, loadIndex, ← hread]
    rfl

/-! ## Corruption is confined -/

/-- Whatever is wrong with blobs shows in the look-ups of their own files and nowhere else. -/
structure Confines (c : DiskCache) (looks : List CacheLookup) : Prop where
  /-- Look-ups end in the way that the record and the blob of the file call for. -/
  answers : ∀ now f contentHash, c.Answers now f contentHash (c.retrieve now f contentHash).2
  /-- They change nothing but the counts, and there the number of look-ups and one counter. -/
  counts : ∀ now f contentHash, ∃ counts,
    (c.retrieve now f contentHash).1 = { c with counts } ∧ counts.stores = c.counts.stores ∧
      counts.retrievals = c.counts.retrievals + 1 ∧
      ∀ l : CacheLookup, l.counter counts = l.counter c.counts +
        if l.status = (c.retrieve now f contentHash).2.status then 1 else 0
  /-- The look-ups so far have been counted under their endings. -/
  tallies : Tallies looks c.counts
  /-- Together the counters make up for all of them, with one error for each that found a corrupt
  blob. -/
  retrievals_eq : c.counts.retrievals = c.counts.hits + c.counts.misses + c.counts.hashMismatches +
    c.counts.desyncs + endings looks .corrupt
  /-- Whatever happens to the blob of one path makes no difference to another path. -/
  sameAnswers : ∀ p files, (∀ n, Path.Plain n → n ≠ CacheEntry.blobName p →
      files.find? (Path.join c.directory n) = c.files.find? (Path.join c.directory n)) →
    ∀ f, Sha256.hexOf f ≠ Sha256.hexOf p → c.SameAnswers { c with files } f

/-- In all states that a cache can come to while any of its files but the index may be damaged, the
damage to blobs is confined. -/
theorem Exposed.confines (h : c₀.Exposed looks c) (hnew : c₀.IsNew) (hzero : 0 ∉ c₀.directory) :
    c.Confines looks := by
  obtain ⟨hown, htallies⟩ := h.ownIndex hnew hzero
  exact {
    answers := hown.answers_lookup
    counts := fun now f contentHash => by
      refine ⟨(c.lookup now f contentHash).count c.counts, rfl, ?_, ?_,
        fun l => CacheLookup.counter_count _ l _⟩
      · cases c.lookup now f contentHash <;> rfl
      · cases c.lookup now f contentHash <;> rfl
    tallies := htallies
    retrievals_eq := htallies.retrievals_eq_sum
    sameAnswers := fun p files hfiles f hhash => hown.sameAnswers hfiles hhash }

/-- The files of a cache in which a file was stored, with its blob damaged. -/
def damaged : FileTree :=
  (storedOnce.files.write (storedOnce.blobPath (CacheEntry.blobName (bytes "a")))
    (bytes "?")).toOption.getD storedOnce.files

/-- A file is stored, its blob is damaged, and then it is looked up. -/
def damagedOnce : DiskCache × CacheAnswer :=
  { storedOnce with files := damaged }.perform (.retrieve 0 (bytes "a") none)

/-- The index is read as before, and no directory has come. -/
theorem read?_damaged :
    damaged.read? storedOnce.indexPath = storedOnce.files.read? storedOnce.indexPath ∧
      ¬ damaged.isDirectoryAt storedOnce.indexPath ∧
      ¬ damaged.isDirectoryAt (storedOnce.blobPath (CacheEntry.blobName (bytes "a"))) := by
  decide +kernel

/-- The blob turns out to be corrupt, and that is all there is to it. -/
theorem confines_damagedOnce :
    damagedOnce.2 = .found .corrupt ∧ damagedOnce.1.Confines [.corrupt] := by
  have hanswer : damagedOnce.2 = .found .corrupt := by decide +kernel
  have hexposed : fresh.Exposed [.corrupt] damagedOnce.1 := by
    have hstart : fresh.Exposed [] fresh := .start
    have hstored := hstart.perform (storeFor (bytes "h"))
      (fun e he => Option.some.inj he ▸ by decide) nofun
    have hwritten : (fresh.perform (storeFor (bytes "h"))).2 = .stored true := by decide +kernel
    have hlooks : looksAfter [] damagedOnce.2 = [.corrupt] := by rw [hanswer]; rfl
    rw [hwritten] at hstored
    obtain ⟨hread, hindex, hblob⟩ := read?_damaged
    have hdamaged : fresh.Exposed [] { storedOnce with files := damaged } :=
      hstored.disturb hread (readsFiles_storedOnce hread hindex hblob)
    rw [← hlooks]
    exact hdamaged.perform (.retrieve 0 (bytes "a") none) nofun nofun
  exact ⟨hanswer, hexposed.confines isNew_fresh (by decide)⟩

end DiskCache

end SourceChunks
