import SourceChunks.Proofs.DiskCache.Refinement
import SourceChunks.Proofs.FileTree.Neighbours

/-!
# What operations change

Each operation on a cache writes under a few names of its directory and may fail at each of them.
The lemmas here say for every way in which an operation can end which files it has changed by then,
and which records it has.
-/

namespace SourceChunks

namespace FileTree

/-- What is left of a text that lacks its end. Of a document without a text nothing is left. -/
def IsCut (left : Bytes) (text? : Option Bytes) : Prop := left <+: (text?.getD []).dropLast

/-- No file can be opened for writing at a path. -/
def CannotOpen (t : FileTree) (p : Bytes) : Prop := ∃ e, t.write p [] = .error e

/-- Whether a file can be opened does not depend on what will be written. -/
theorem write_eq_error_iff {t : FileTree} {p content content' : Bytes} {e : FileError} :
    t.write p content = .error e ↔ t.write p content' = .error e := by
  unfold write
  cases t.resolve p with
  | error e => rfl
  | ok place =>
    cases place with
    | none => rfl
    | some place =>
      simp only [bind, Except.bind, pure, Except.pure]
      split
      · rfl
      · exact ⟨nofun, nofun⟩

/-- No file can be opened where one cannot be written. -/
theorem cannotOpen_of_write {t : FileTree} {p content : Bytes} {e : FileError}
    (h : t.write p content = .error e) : t.CannotOpen p := ⟨e, write_eq_error_iff.mp h⟩

/-- Where no file can be opened no text is written. -/
theorem CannotOpen.writeText {t : FileTree} {p : Bytes} (h : t.CannotOpen p) (device : Device)
    (text? : Option Bytes) : t.writeText device p text? = .unopened := by
  obtain ⟨e, he⟩ := h
  rw [FileTree.writeText, write_eq_error_iff.mp he]

/-- A disk leaves a text as it is, or a part of it that lacks the end. -/
theorem Taken.left_eq_or_isCut (taken : Taken) (text : Bytes) :
    taken.left text = text ∧ taken.isNoticed = false ∨ IsCut (taken.left text) (some text) := by
  cases taken with
  | whole => exact .inl ⟨rfl, rfl⟩
  | part length noticed => exact .inr (List.take_prefix length _)

/-- When a text is to be written at a path, either no file can be opened there, or it is there, and
it lacks the end of the text if the document has none or if it is noticed that the disk does not
take it. What is not noticed may be lacking as well. -/
theorem writeText_cases {t : FileTree} {dir n : Bytes} (hzero : 0 ∉ dir) (hn : Path.Plain n)
    (device : Device) (text? : Option Bytes) :
    (t.writeText device (Path.join dir n) text? = .unopened ∧ t.CannotOpen (Path.join dir n)) ∨
    ∃ t' left, t.ChangesOnly t' dir {n} ∧ t'.find? (Path.join dir n) = some (.file left) ∧
      (t.writeText device (Path.join dir n) text? = .malformed t' ∧ text? = none ∧
          IsCut left text? ∨
        t.writeText device (Path.join dir n) text? = .unfinished t' ∧ IsCut left text? ∨
        ∃ text, t.writeText device (Path.join dir n) text? = .finished t' ∧ text? = some text ∧
          (left = text ∨ IsCut left text?)) := by
  unfold writeText
  cases hwrite : t.write (Path.join dir n) (device.leaves (Path.join dir n) text?) with
  | error e => exact .inl ⟨rfl, cannotOpen_of_write hwrite⟩
  | ok t' =>
    obtain ⟨hchanges, hfind⟩ := changesOnly_write hzero hn hwrite
    refine .inr ⟨t', _, hchanges, hfind, ?_⟩
    cases text? with
    | none => exact .inl ⟨rfl, rfl, List.prefix_rfl⟩
    | some text =>
      right
      rcases (device (Path.join dir n) text).left_eq_or_isCut text with ⟨hall, hquiet⟩ | hcut
      · exact .inr ⟨text, if_neg (by simp [hquiet]), rfl, .inl hall⟩
      · cases hnoticed : (device (Path.join dir n) text).isNoticed with
        | true => exact .inl ⟨if_pos hnoticed, hcut⟩
        | false => exact .inr ⟨text, if_neg (by simp [hnoticed]), rfl, .inr hcut⟩

end FileTree

namespace DiskCache

variable {c : DiskCache}

/-- Neither the index nor its draft is a blob. -/
theorem blobName_ne_indexName (f : Bytes) : CacheEntry.blobName f ≠ indexName :=
  CacheEntry.blobName_ne (by decide) f

/-- The index is not among the files that writing an entry changes. -/
theorem indexName_notMem (f : Bytes) : indexName ∉ ({CacheEntry.blobName f} : Set Bytes) :=
  fun heq => blobName_ne_indexName f (Set.mem_singleton_iff.mp heq).symm

/-- No blob has the name of the draft. -/
theorem blobName_ne_draftName (f : Bytes) : CacheEntry.blobName f ≠ draftName :=
  CacheEntry.blobName_ne (by decide) f

/-! ## Writing an entry -/

/-- When an entry is written, either no file can be opened and nothing changes; or the blob is cut
off, because the entry cannot be written out or the disk does not take it, and the records stay; or
the record is written and, as far as one can tell, the blob. -/
theorem writeEntry_cases (hzero : 0 ∉ c.directory) (e : CacheEntry) :
    (c.writeEntry e = (c, .ok false) ∧
      c.files.CannotOpen (c.blobPath (CacheEntry.blobName e.filePath))) ∨
    (∃ files left r, c.writeEntry e = ({ c with files }, r) ∧
      (r = .ok false ∨ r = .error .malformedDocument ∧ e.toBlob.compact? = none) ∧
      FileTree.IsCut left e.toBlob.compact? ∧
      c.files.ChangesOnly files c.directory {CacheEntry.blobName e.filePath} ∧
      files.read? (c.blobPath (CacheEntry.blobName e.filePath)) = some left) ∨
    ∃ files left text, c.writeEntry e =
        ({ c with files, records := c.records.insert e.filePath (.ofEntry e) }, .ok true) ∧
      e.toBlob.compact? = some text ∧ (left = text ∨ FileTree.IsCut left e.toBlob.compact?) ∧
      c.files.ChangesOnly files c.directory {CacheEntry.blobName e.filePath} ∧
      files.read? (c.blobPath (CacheEntry.blobName e.filePath)) = some left := by
  have hplain := CacheEntry.plain_blobName e.filePath
  unfold writeEntry blobPath
  rcases c.files.writeText_cases hzero hplain c.device e.toBlob.compact? with
    ⟨hwrite, hcannot⟩ | ⟨files, left, hchanges, hfind, ⟨hwrite, htext, hcut⟩ | ⟨hwrite, hcut⟩ |
      ⟨text, hwrite, htext, hleft⟩⟩
  · exact .inl ⟨by rw [hwrite], hcannot⟩
  · exact .inr (.inl ⟨files, left, _, by rw [hwrite], .inr ⟨rfl, htext⟩, hcut, hchanges,
      FileTree.read?_of_find?_file hfind⟩)
  · exact .inr (.inl ⟨files, left, _, by rw [hwrite], .inl rfl, hcut, hchanges,
      FileTree.read?_of_find?_file hfind⟩)
  · exact .inr (.inr ⟨files, left, text, by rw [hwrite], htext, hleft, hchanges,
      FileTree.read?_of_find?_file hfind⟩)

/-! ## Writing the index -/

/-- When the index is written, either something fails and the index on disk stays the old one, or
the text of the index is in its file, unless its end got lost without notice. -/
theorem saveIndex_cases (hzero : 0 ∉ c.directory) :
    (∃ files f, c.saveIndex = ({ c with files }, .error f) ∧
      (f = .malformedDocument → (CacheRecord.indexToJson c.records).pretty? 2 = none) ∧
      c.files.ChangesOnly files c.directory {draftName}) ∨
    ∃ files left text, c.saveIndex = ({ c with files }, .ok ()) ∧
      (CacheRecord.indexToJson c.records).pretty? 2 = some text ∧
      (left = text ∨ FileTree.IsCut left (some text)) ∧
      c.files.ChangesOnly files c.directory {draftName, indexName} ∧
      files.read? c.indexPath = some left := by
  simp only [saveIndex, draft_eq]
  rcases c.files.writeText_cases hzero plain_draftName c.device
      ((CacheRecord.indexToJson c.records).pretty? 2) with
    ⟨hwrite, -⟩ | ⟨files, left, hchanges, hfind, ⟨hwrite, htext, -⟩ | ⟨hwrite, -⟩ |
      ⟨text, hwrite, htext, hleft⟩⟩
  · simp only [hwrite]
    exact .inl ⟨c.files, _, rfl, nofun, .refl ..⟩
  · simp only [hwrite]
    exact .inl ⟨files, _, rfl, fun _ => htext, hchanges⟩
  · simp only [hwrite]
    exact .inl ⟨files, _, rfl, nofun, hchanges⟩
  · simp only [hwrite]
    cases hrename : files.rename (Path.join c.directory draftName) c.indexPath with
    | error e => exact .inl ⟨files, _, rfl, nofun, hchanges⟩
    | ok files' =>
      obtain ⟨hrenamed, hindex⟩ := FileTree.changesOnly_rename hzero plain_draftName plain_indexName
        (by decide) hfind hrename
      exact .inr ⟨files', left, text, rfl, htext, htext ▸ hleft,
        (hchanges.mono fun _ => Or.inl).trans hrenamed, FileTree.read?_of_find?_file hindex⟩

end DiskCache

end SourceChunks
