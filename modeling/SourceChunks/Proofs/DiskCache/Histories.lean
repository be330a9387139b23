import SourceChunks.Proofs.DiskCache.Soundness

/-!
# Histories of a disk cache

Between the operations on a cache other files may change, and the disk may run full, so that
operations fail in any way they can, and what the cache has on disk may be lost or damaged. In every
such history the records, those in memory and those on disk, are records of entries that were given
to the cache. Beyond that, blobs are those of the records as long as the directory is not opened
again while its index is behind.
-/

namespace SourceChunks

/-- The entry that an operation stores, if it does. -/
def CacheOperation.given? : CacheOperation → Option CacheEntry
  | .store now filePath chunks contentHash metadata =>
    some (.ofChunks now filePath chunks contentHash metadata)
  | _ => none

/-- Operations on a cache with their answers, the first one first. -/
abbrev CacheHistory := List (CacheOperation × CacheAnswer)

namespace CacheHistory

/-- The entries that were given to the cache, also those that could not be stored. -/
def given (history : CacheHistory) : Set CacheEntry := {e | ∃ x ∈ history, x.1.given? = some e}

/-- Whether the index on disk is behind the one in memory after an operation. An operation that
writes the index brings it up to date or fails; a document that cannot be written out fails before.
-/
def behindAfter (behind : Bool) : CacheOperation × CacheAnswer → Bool
  | (_, .stored true) | (_, .removed _) | (_, .opened) => false
  | (.reopen, .failed _) => behind
  | (_, .failed f) => behind || f ≠ .malformedDocument
  | _ => behind

/-- Whether the index on disk is behind the one in memory. -/
def isBehind (history : CacheHistory) : Bool := history.foldl behindAfter false

/-- The hashes of paths do not collide, and the directory is not opened while its index is behind.
-/
structure Orderly (history : CacheHistory) : Prop where
  hexOf_injOn : Set.InjOn Sha256.hexOf (CacheEntry.filePath '' history.given)
  reopened : ∀ before answer after, history = before ++ (.reopen, answer) :: after →
    isBehind before = false

variable {history : CacheHistory} {x : CacheOperation × CacheAnswer}

/-- What was given stays given. -/
theorem given_subset_concat : given history ⊆ given (history ++ [x]) :=
  fun _ ⟨y, hy, he⟩ => ⟨y, List.mem_append_left _ hy, he⟩

/-- The entry of the last operation is given. -/
theorem mem_given_concat {e : CacheEntry} (h : x.1.given? = some e) : e ∈ given (history ++ [x]) :=
  ⟨x, List.mem_append_right _ (List.mem_singleton_self x), h⟩

/-- Whether the index is behind follows from whether it was and from the last operation. -/
theorem isBehind_concat : isBehind (history ++ [x]) = behindAfter (isBehind history) x := by
  rw [isBehind, isBehind, List.foldl_append, List.foldl_cons, List.foldl_nil]

/-- An operation that fails to write the index leaves it behind. -/
theorem behindAfter_failed (behind : Bool) {op : CacheOperation} {f : Failure} (hop : op ≠ .reopen)
    (hf : f ≠ .malformedDocument) : behindAfter behind (op, .failed f) = true := by
  cases op with
  | reopen => exact absurd rfl hop
  | store | retrieve | invalidate | invalidateOlder | invalidateAll => simp [behindAfter, hf]

/-- A history with an orderly end was orderly before. -/
theorem Orderly.of_concat (h : Orderly (history ++ [x])) : Orderly history where
  hexOf_injOn := h.hexOf_injOn.mono (Set.image_mono given_subset_concat)
  reopened := by
    rintro before answer after rfl
    exact h.reopened before answer (after ++ [x]) (by simp)

/-- When the directory is opened its index is not behind. -/
theorem Orderly.isBehind_of_reopen {answer : CacheAnswer}
    (h : Orderly (history ++ [(.reopen, answer)])) : isBehind history = false :=
  h.reopened history answer [] rfl

end CacheHistory

namespace DiskCache

variable {c c' : DiskCache} {s : Set CacheEntry} {gated : Prop}

/-- After an operation and its answer a cache is sound, and its index on disk is current if it is
not behind. -/
structure LeadsTo (c : DiskCache) (s : Set CacheEntry) (gated : Prop)
    (x : CacheOperation × CacheAnswer) (c' : DiskCache) : Prop where
  directory_eq : c'.directory = c.directory
  sound : c'.Sound s gated
  current : ∀ behind, CacheHistory.behindAfter behind x = false → (behind = false → c.Current) →
    c'.Current

/-- Operations that remove files end alike. -/
theorem Sound.leadsTo_removeAll (h : c.Sound s gated) (hzero : 0 ∉ c.directory)
    (hnames : gated → Set.InjOn CacheEntry.blobName (CacheEntry.filePath '' s))
    (op : CacheOperation) (hop : op ≠ .reopen) (fs : List Bytes) :
    c.LeadsTo s gated (op, .of .removed (c.removeAll fs).2) (c.removeAll fs).1 := by
  obtain ⟨c', r, hremove, hdirectory, hsound, ⟨n, rfl, hcurrent⟩ | ⟨f, rfl, hf⟩⟩ :=
    h.removeAll hzero hnames fs
  · rw [hremove]
    exact ⟨hdirectory, hsound, fun _ _ _ => hcurrent⟩
  · rw [hremove]
    refine ⟨hdirectory, hsound, fun behind hbehind _ => ?_⟩
    have htrue : CacheHistory.behindAfter behind (op, .failed f) = true :=
      CacheHistory.behindAfter_failed behind hop hf
    exact absurd (htrue.symm.trans hbehind) nofun

/-- Storing an entry that can be read back keeps a cache sound. -/
theorem Sound.leadsTo_store (h : c.Sound s gated) (hzero : 0 ∉ c.directory)
    (hnames : gated → Set.InjOn CacheEntry.blobName (CacheEntry.filePath '' s)) {now : Int}
    {f : Bytes} {chunks : List Chunk} {contentHash : Bytes} {metadata : Json}
    (he : .ofChunks now f chunks contentHash metadata ∈ s)
    (hlegible : (CacheEntry.ofChunks now f chunks contentHash metadata).Legible) :
    c.LeadsTo s gated (.store now f chunks contentHash metadata,
        .of .stored (c.store now f chunks contentHash metadata).2)
      (c.store now f chunks contentHash metadata).1 := by
  obtain ⟨c', r, hstore, hdirectory, hsound,
    ⟨rfl, hcurrent⟩ | ⟨rfl | rfl, hcurrent⟩ | ⟨e, rfl, he⟩⟩ := h.store hzero hnames he hlegible
  · rw [hstore]
    exact ⟨hdirectory, hsound, fun _ _ _ => hcurrent⟩
  · rw [hstore]
    exact ⟨hdirectory, hsound, fun behind hbehind hold => hcurrent (hold hbehind)⟩
  · rw [hstore]
    refine ⟨hdirectory, hsound, fun behind hbehind hold => hcurrent (hold ?_)⟩
    exact (Bool.or_eq_false_iff.mp hbehind).1
  · rw [hstore]
    refine ⟨hdirectory, hsound, fun behind hbehind _ => ?_⟩
    have htrue : CacheHistory.behindAfter behind
        (.store now f chunks contentHash metadata, .failed e) = true :=
      CacheHistory.behindAfter_failed behind nofun he
    exact absurd (htrue.symm.trans hbehind) nofun

/-- Opening a directory that is there keeps a cache sound if its index is current. -/
theorem Sound.leadsTo_reopen (h : c.Sound s gated) (hdir : c.files.isDirectoryAt c.directory)
    (hcurrent : gated → c.Current) :
    c.LeadsTo s gated (.reopen, .of (fun _ => .opened) c.reopen.2) c.reopen.1 := by
  obtain ⟨c', r, hopen, hdirectory, hsound, ⟨rfl, hcurrent'⟩ | ⟨⟨f, rfl⟩, hcurrent'⟩⟩ :=
    h.reopen hdir hcurrent
  · rw [hopen]
    exact ⟨hdirectory, hsound, fun _ _ _ => hcurrent'⟩
  · rw [hopen]
    exact ⟨hdirectory, hsound, fun behind hbehind hold => hcurrent' (hold hbehind)⟩

/-- Every operation keeps a cache sound, if what is stored is one of its entries and can be read
back, and if the directory is there and its index is current when it is opened again. -/
theorem Sound.leadsTo_perform (h : c.Sound s gated) (hzero : 0 ∉ c.directory)
    (hnames : gated → Set.InjOn CacheEntry.blobName (CacheEntry.filePath '' s))
    {op : CacheOperation}
    (hentry : ∀ e, op.given? = some e → e ∈ s ∧ e.Legible)
    (hreopen : op = .reopen → c.files.isDirectoryAt c.directory ∧ (gated → c.Current)) :
    c.LeadsTo s gated (op, (c.perform op).2) (c.perform op).1 := by
  cases op with
  | store now filePath chunks contentHash metadata =>
    obtain ⟨he, hlegible⟩ := hentry _ rfl
    exact h.leadsTo_store hzero hnames he hlegible
  | retrieve now filePath contentHash =>
    exact ⟨rfl, h.with_counts _, fun behind hbehind hcurrent => hcurrent hbehind⟩
  | invalidate filePath => exact h.leadsTo_removeAll hzero hnames (.invalidate filePath) nofun _
  | invalidateOlder limit => exact h.leadsTo_removeAll hzero hnames (.invalidateOlder limit) nofun _
  | invalidateAll => exact h.leadsTo_removeAll hzero hnames .invalidateAll nofun _
  | reopen =>
    obtain ⟨hdir, hcurrent⟩ := hreopen rfl
    exact h.leadsTo_reopen hdir hcurrent

/-! ## Runs -/

/-- A cache is used for some time. Operations are carried out on it, for which its directory is
there when it is opened again, and between them other files change, those of the cache may get lost,
and the disk takes more or less than before. No directory comes to lie where the cache reads a file,
for reading it would fail in a way that is not told here. -/
inductive Run (c₀ : DiskCache) : CacheHistory → DiskCache → Prop
  | start : Run c₀ [] c₀
  | perform {history : CacheHistory} {c : DiskCache} (h : Run c₀ history c) (op : CacheOperation)
      (hdir : op = .reopen → c.files.isDirectoryAt c.directory) :
      Run c₀ (history ++ [(op, (c.perform op).2)]) (c.perform op).1
  | disturb {history : CacheHistory} {c : DiskCache} (h : Run c₀ history c) {files : FileTree}
      {device : FileTree.Device} (hspares : c.Spares files)
      (hreads : ReadsFiles { c with files, device }) : Run c₀ history { c with files, device }

variable {c₀ : DiskCache} {history : CacheHistory}

/-- An operation is carried out and answers something. -/
theorem Run.perform_of_eq (h : Run c₀ history c) {op : CacheOperation} {answer : CacheAnswer}
    (hdir : op = .reopen → c.files.isDirectoryAt c.directory)
    (hanswer : (c.perform op).2 = answer) :
    Run c₀ (history ++ [(op, answer)]) (c.perform op).1 :=
  hanswer ▸ h.perform op hdir

/-- A new cache is sound. -/
theorem IsNew.sound (h : c.IsNew) : c.Sound s gated ∧ c.Current := by
  obtain ⟨⟨files, directory, files', hopen⟩, hempty⟩ := h
  have hload := (loadIndex_of_openAt hopen).1
  refine ⟨⟨?_, ?_, ?_⟩, ?_⟩
  · rw [hempty]
    exact RecordsOf.empty
  · intro records hrecords
    obtain rfl := Except.ok.inj (hload.symm.trans hrecords)
    rw [hempty]
    exact RecordsOf.empty
  · intro _ f r text v hr
    rw [hempty] at hr
    exact absurd hr nofun
  · intro records hrecords f r hr
    obtain rfl := Except.ok.inj (hload.symm.trans hrecords)
    exact hr

/-- After a run of a new cache its records are those of entries that were given to it. It gates if
the run was orderly, and then the index on disk is current if it is not behind. -/
theorem Run.sound (h : Run c₀ history c) (hnew : c₀.IsNew) (hzero : 0 ∉ c₀.directory)
    (hlegible : ∀ e ∈ history.given, e.Legible) : c.directory = c₀.directory ∧
      c.Sound history.given history.Orderly ∧ (history.isBehind = false → c.Current) := by
  induction h with
  | start =>
    obtain ⟨hsound, hcurrent⟩ := hnew.sound
    exact ⟨rfl, hsound, fun _ => hcurrent⟩
  | @perform history c h op hdir ih =>
    obtain ⟨hdirectory, hsound, hcurrent⟩ :=
      ih fun e he => hlegible e (CacheHistory.given_subset_concat he)
    have hnames : (history ++ [(op, (c.perform op).2)]).Orderly →
        Set.InjOn CacheEntry.blobName
          (CacheEntry.filePath '' (history ++ [(op, (c.perform op).2)]).given) :=
      fun horderly => injOn_blobName horderly.hexOf_injOn
    have hentry : ∀ e, op.given? = some e →
        e ∈ (history ++ [(op, (c.perform op).2)]).given ∧ e.Legible := by
      intro e he
      have hmem : e ∈ (history ++ [(op, (c.perform op).2)]).given :=
        CacheHistory.mem_given_concat he
      exact ⟨hmem, hlegible e hmem⟩
    have hreopen : op = .reopen → c.files.isDirectoryAt c.directory ∧
        ((history ++ [(op, (c.perform op).2)]).Orderly → c.Current) := by
      rintro rfl
      exact ⟨hdir rfl, fun horderly => hcurrent horderly.isBehind_of_reopen⟩
    obtain ⟨hdirectory', hsound', hcurrent'⟩ := (hsound.mono CacheHistory.given_subset_concat
      CacheHistory.Orderly.of_concat).leadsTo_perform (hdirectory ▸ hzero) hnames hentry hreopen
    refine ⟨hdirectory'.trans hdirectory, hsound', fun hbehind => ?_⟩
    rw [CacheHistory.isBehind_concat] at hbehind
    exact hcurrent' _ hbehind hcurrent
  | disturb h hspares _ ih =>
    obtain ⟨hdirectory, hsound, hcurrent⟩ := ih hlegible
    exact ⟨hdirectory, hsound.of_spares hspares _,
      fun hbehind => (hcurrent hbehind).of_le rfl hspares.index⟩

/-! ## Runs with one file -/

/-- A file without chunks is stored for a content. -/
def storeFor (contentHash : Bytes) : CacheOperation :=
  .store 0 (bytes "a") [] contentHash .null

/-- What is stored for a content in plain letters can be read back. -/
theorem storable_storeFor {contentHash : Bytes} (hascii : Bytes.Ascii contentHash) :
    (CacheEntry.ofChunks 0 (bytes "a") [] contentHash .null).Storable where
  filePath_utf8 := have hpath : Bytes.Ascii (bytes "a") := by decide
    hpath.isUtf8
  contentHash_utf8 := hascii.isUtf8
  language_utf8 := Bytes.ascii_nil.isUtf8
  metadata_faithful := .object List.Pairwise.nil nofun nofun
  chunks_storable := nofun
  chunkCount_lt := Nat.zero_lt_succ _

/-- The file is stored. -/
def storedFor (contentHash : Bytes) : CacheOperation × CacheAnswer :=
  (storeFor contentHash, .stored true)

/-- The file is stored for two contents only, and the directory may be opened again. -/
def OfOneFile (history : CacheHistory) : Prop :=
  ∀ x ∈ history, x.1 = .reopen ∨ x.1 = storeFor (bytes "h") ∨ x.1 = storeFor (bytes "g")

/-- All entries are then of one path and can be read back. -/
theorem OfOneFile.mem_given (h : OfOneFile history) {e : CacheEntry}
    (he : e ∈ history.given) : e.filePath = bytes "a" ∧ e.Storable := by
  obtain ⟨x, hx, hentry⟩ := he
  rcases h x hx with hop | hop | hop
  · rw [hop] at hentry
    exact absurd hentry nofun
  · rw [hop] at hentry
    obtain rfl := Option.some.inj hentry
    exact ⟨rfl, storable_storeFor (by decide)⟩
  · rw [hop] at hentry
    obtain rfl := Option.some.inj hentry
    exact ⟨rfl, storable_storeFor (by decide)⟩

/-- Paths do not collide then. -/
theorem OfOneFile.injOn_hexOf (h : OfOneFile history) :
    Set.InjOn Sha256.hexOf (CacheEntry.filePath '' history.given) := by
  apply injOn_hexOf_of_forall_eq
  rintro f ⟨e, he, rfl⟩
  exact (h.mem_given he).1

/-- A cache in which a file is stored. -/
def storedOnce : DiskCache := (fresh.perform (storeFor (bytes "h"))).1

/-- The file can be stored once in a new cache, as the history tells. -/
theorem run_storedOnce : Run fresh [storedFor (bytes "h")] storedOnce :=
  Run.start.perform_of_eq nofun (by decide +kernel)

/-- What was given to it can be read back. -/
theorem legible_storedOnce : ∀ e ∈ CacheHistory.given [storedFor (bytes "h")], e.Legible := by
  have hfile : OfOneFile [storedFor (bytes "h")] := by simp [OfOneFile, storedFor]
  exact fun e he _ => (hfile.mem_given he).2

/-- It has no record of another file. -/
theorem eq_of_get?_storedOnce {f : Bytes} {r : CacheRecord}
    (h : storedOnce.records.get? f = some r) : f = bytes "a" := by
  have hkeys : storedOnce.records.keys = [bytes "a"] := by decide +kernel
  have hf : f ∈ storedOnce.records.keys := Dict.mem_keys_iff.mpr ⟨r, h⟩
  rwa [hkeys, List.mem_singleton] at hf

/-- No directory lies where it reads a file, if its index is read as before and neither the index
nor the blob of the file is a directory. -/
theorem readsFiles_storedOnce {files : FileTree} {device : FileTree.Device}
    (hread : files.read? storedOnce.indexPath = storedOnce.files.read? storedOnce.indexPath)
    (hindex : ¬ files.isDirectoryAt storedOnce.indexPath)
    (hblob : ¬ files.isDirectoryAt (storedOnce.blobPath (CacheEntry.blobName (bytes "a")))) :
    ReadsFiles { storedOnce with files, device } where
  index := hindex
  blob := by
    obtain ⟨-, hsound, hcurrent⟩ :=
      run_storedOnce.sound isNew_fresh (by decide) legible_storedOnce
    have hload : loadIndex files storedOnce.indexPath =
        loadIndex storedOnce.files storedOnce.indexPath := by
      rw [loadIndex, loadIndex, hread]
    intro records hrecords f r hr
    -- The index on disk is the one in memory, which has one record.
    have hrecord : storedOnce.records.get? f = some r := by
      rcases hrecords with rfl | hdisk
      · exact hr
      · exact hcurrent rfl records (hload ▸ hdisk) f r hr
    rw [hsound.memory.blobName_eq hrecord, eq_of_get?_storedOnce hrecord]
    exact hblob

end DiskCache

end SourceChunks
