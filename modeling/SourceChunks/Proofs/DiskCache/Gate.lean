import SourceChunks.Proofs.DiskCache.Histories

/-!
# Look-ups that ask for a content

What is found for a content was stored for this content, whichever operations failed before, as long
as the directory is not opened while its index is behind. A blob is written before the index, and
the two are not compared when the blob is read: an index that is behind lets the blob of another
content pass for the one that is asked for.
-/

namespace SourceChunks

/-- What is found is what was looked up. -/
theorem CacheLookup.eq_hit_of_found? {l : CacheLookup} {e : CacheEntry} (h : l.found? = some e) :
    l = .hit e := by
  cases l with
  | hit e' => exact congrArg CacheLookup.hit (Option.some.inj h)
  | notFound | hashMismatch | blobMissing | corrupt => exact absurd h nofun

namespace DiskCache

variable {c c₀ : DiskCache} {s : Set CacheEntry} {gated : Prop} {history : CacheHistory}

/-- What a cache that gates reads for a record is the entry of the record, whose blob is there. -/
theorem Sound.exists_of_readEntry_eq_hit (h : c.Sound s gated) (hg : gated) {now : Int} {f : Bytes}
    {r : CacheRecord} (hr : c.records.get? f = some r) {e : CacheEntry}
    (hhit : c.readEntry now f r = .hit e) :
    ∃ e' ∈ s, e'.Storable ∧ e'.filePath = f ∧ r = .ofEntry e' ∧ e = e'.restored now ∧
      ∃ text, c.files.read? (c.blobPath (CacheEntry.blobName f)) = some text ∧
        Json.parse? text = some e'.toBlob := by
  unfold readEntry at hhit
  rw [h.memory.blobName_eq hr] at hhit
  split at hhit
  · exact absurd hhit nofun
  · next text htext =>
    split at hhit
    · exact absurd hhit nofun
    · next found hfound =>
      obtain rfl := CacheLookup.hit.inj hhit
      obtain ⟨v, hparse, hread⟩ := Option.bind_eq_some_iff.mp hfound
      obtain ⟨e', he', hstorable, rfl, rfl, rfl⟩ := h.blob hg f r text v hr htext hparse
      rw [hstorable.ofBlob?_toBlob] at hread
      exact ⟨e', he', hstorable, rfl, rfl, (Option.some.inj hread).symm, text, htext, hparse⟩

/-- What a cache that gates finds is one of its entries, of the content that is asked for. -/
theorem Sound.exists_of_lookup_eq_hit (h : c.Sound s gated) (hg : gated) {now : Int} {f : Bytes}
    {contentHash : Option Bytes} {e : CacheEntry} (hhit : c.lookup now f contentHash = .hit e) :
    ∃ e' ∈ s, e'.filePath = f ∧ (∀ x ∈ contentHash, e'.contentHash = x) ∧ e = e'.restored now := by
  unfold lookup at hhit
  cases hr : c.records.get? f with
  | none =>
    rw [hr] at hhit
    exact absurd hhit nofun
  | some r =>
    simp only [hr] at hhit
    split at hhit
    · exact absurd hhit nofun
    · next hasked =>
      obtain ⟨e', he', -, hpath, rfl, hrestored, -⟩ := h.exists_of_readEntry_eq_hit hg hr hhit
      have hcontent : ∀ x ∈ contentHash, e'.contentHash = x := by
        intro x hx
        rw [Option.mem_def.mp hx, Option.any_some, decide_eq_true_eq, not_not] at hasked
        exact hasked.symm
      exact ⟨e', he', hpath, hcontent, hrestored⟩

/-- In every run in which the directory is not opened while its index is behind, what is found of a
file for a content was given to the cache for this file and this content. Operations may have
failed, and files may have been lost or damaged. -/
theorem Run.exists_store_of_hit (h : Run c₀ history c) (hnew : c₀.IsNew) (hzero : 0 ∉ c₀.directory)
    (hlegible : ∀ e ∈ history.given, e.Legible) (horderly : history.Orderly) {now : Int}
    {f contentHash : Bytes} {e : CacheEntry}
    (hhit : (c.retrieve now f (some contentHash)).2 = .hit e) :
    e.contentHash = contentHash ∧ ∃ stored chunks metadata answer,
      (.store stored f chunks contentHash metadata, answer) ∈ history ∧
      e = (CacheEntry.ofChunks stored f chunks contentHash metadata).restored now := by
  obtain ⟨-, hsound, -⟩ := h.sound hnew hzero hlegible
  obtain ⟨e', ⟨⟨op, answer⟩, hop, he'⟩, rfl, hcontent, rfl⟩ :=
    hsound.exists_of_lookup_eq_hit horderly hhit
  have hhash : e'.contentHash = contentHash := hcontent contentHash rfl
  refine ⟨hhash, ?_⟩
  cases op with
  | store stored g chunks x metadata =>
    obtain rfl := Option.some.inj he'
    obtain rfl : x = contentHash := hhash
    exact ⟨stored, chunks, metadata, answer, hop, rfl⟩
  | retrieve | invalidate | invalidateOlder | invalidateAll | reopen => exact absurd he' nofun

/-! ## A directory in the way

While there is a directory at the path of the draft, the index cannot be written.
-/

/-- A file could not be stored for a content because of the directory in the way. -/
def failedFor (contentHash : Bytes) : CacheOperation × CacheAnswer :=
  (storeFor contentHash, .failed (.unwritableIndex ⟨bytes "cache/index.json.tmp", false⟩))

/-- The files of a cache with a directory in the way. -/
def obstruct (files : FileTree) : FileTree := files.put [bytes "cache", draftName] .empty

/-- A new cache in whose way there is a directory. -/
def obstructed : DiskCache := { fresh with files := obstruct fresh.files }

/-- The cache with a directory in its way is a new one. -/
theorem isNew_obstructed : obstructed.IsNew := ⟨⟨obstructed.files, bytes "cache", _, rfl⟩, rfl⟩

/-- What was stored is found for its content, also if the index could not be written. -/
theorem exists_store_of_hit_obstructed :
    ∃ c e, Run obstructed [failedFor (bytes "h")] c ∧
      (c.retrieve 0 (bytes "a") (some (bytes "h"))).2 = .hit e ∧ e.contentHash = bytes "h" := by
  have hrun : Run obstructed [failedFor (bytes "h")]
      (obstructed.perform (storeFor (bytes "h"))).1 :=
    Run.start.perform_of_eq (by simp [storeFor]) (by decide +kernel)
  have hfile : OfOneFile [failedFor (bytes "h")] := by simp [OfOneFile, failedFor]
  have hlegible : ∀ e ∈ CacheHistory.given [failedFor (bytes "h")], e.Legible :=
    fun e he _ => (hfile.mem_given he).2
  have horderly : CacheHistory.Orderly [failedFor (bytes "h")] := by
    refine ⟨hfile.injOn_hexOf, ?_⟩
    intro before answer after heq
    have hmem : (.reopen, answer) ∈ [failedFor (bytes "h")] := by simp [heq]
    cases List.mem_singleton.mp hmem
  have hfound : ((obstructed.perform (storeFor (bytes "h"))).1.retrieve 0 (bytes "a")
      (some (bytes "h"))).2.found?.isSome := by decide +kernel
  obtain ⟨e, he⟩ := Option.isSome_iff_exists.mp hfound
  have hhit := CacheLookup.eq_hit_of_found? he
  obtain ⟨hcontent, -⟩ :=
    Run.exists_store_of_hit hrun isNew_obstructed (by decide) hlegible horderly hhit
  exact ⟨_, e, hrun, hhit, hcontent⟩

/-! ## An index that is behind -/

/-- A cache in which a file is stored, with a directory in the way. -/
def storedOnceObstructed : DiskCache := { storedOnce with files := obstruct storedOnce.files }

/-- The same cache after the file could not be stored for another content. -/
def leftBehind : DiskCache := (storedOnceObstructed.perform (storeFor (bytes "g"))).1

/-- The directory in the way makes no difference to the index and the blob, and lies at neither. -/
theorem read?_obstruct :
    let blob := storedOnce.blobPath (CacheEntry.blobName (bytes "a"))
    (obstruct storedOnce.files).read? storedOnce.indexPath =
        storedOnce.files.read? storedOnce.indexPath ∧
      (obstruct storedOnce.files).read? blob = storedOnce.files.read? blob ∧
      ¬ (obstruct storedOnce.files).isDirectoryAt storedOnce.indexPath ∧
      ¬ (obstruct storedOnce.files).isDirectoryAt blob := by
  decide +kernel

/-- The directory in the way does no harm to the index and the blob. -/
theorem spares_storedOnce : storedOnce.Spares (obstruct storedOnce.files) where
  index records hrecords := by
    rw [loadIndex, read?_obstruct.1] at hrecords
    exact .inr hrecords
  blob f r text v hr htext _ := by
    rw [eq_of_get?_storedOnce hr] at htext ⊢
    exact read?_obstruct.2.1.symm.trans htext

/-- A file is stored for a content, then it cannot be stored for another one, and the directory is
opened again. -/
def reopenedBehind : CacheHistory :=
  [storedFor (bytes "h"), failedFor (bytes "g"), (.reopen, .opened)]

/-- This can happen to a cache. -/
theorem run_reopenedBehind : Run fresh reopenedBehind (leftBehind.perform .reopen).1 := by
  have hdirectory : leftBehind.files.isDirectoryAt leftBehind.directory := by decide +kernel
  have hfailed : Run fresh [storedFor (bytes "h"), failedFor (bytes "g")]
      leftBehind :=
    (run_storedOnce.disturb spares_storedOnce (readsFiles_storedOnce read?_obstruct.1
      read?_obstruct.2.2.1 read?_obstruct.2.2.2)).perform_of_eq nofun (by decide +kernel)
  exact hfailed.perform_of_eq (fun _ => hdirectory) (by decide +kernel)

/-- The file is then found for the first content as it was stored for the other one. -/
theorem exists_hit_of_other_content :
    ∃ c e, Run fresh reopenedBehind c ∧ (∀ e ∈ reopenedBehind.given, e.Storable) ∧
      Set.InjOn Sha256.hexOf (CacheEntry.filePath '' reopenedBehind.given) ∧
      (c.retrieve 0 (bytes "a") (some (bytes "h"))).2 = .hit e ∧ e.contentHash ≠ bytes "h" := by
  have hfile : OfOneFile reopenedBehind := by
    simp [OfOneFile, reopenedBehind, storedFor, failedFor]
  have hfound : ((leftBehind.perform .reopen).1.retrieve 0 (bytes "a")
      (some (bytes "h"))).2.found?.map CacheEntry.contentHash = some (bytes "g") := by
    decide +kernel
  obtain ⟨e, he, hcontent⟩ := Option.map_eq_some_iff.mp hfound
  have hother : e.contentHash ≠ bytes "h" := by
    rw [hcontent]
    decide
  exact ⟨_, e, run_reopenedBehind, fun e he => (hfile.mem_given he).2,
    hfile.injOn_hexOf, CacheLookup.eq_hit_of_found? he, hother⟩

end DiskCache

end SourceChunks
