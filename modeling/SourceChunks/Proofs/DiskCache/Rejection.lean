import SourceChunks.Proofs.DiskCache.Transfer
import SourceChunks.Proofs.DiskCache.WellFormed

/-!
# Documents that a cache refuses

Whether a cache takes over a document is decided before anything of the cache is touched: either the
document is refused, which leaves the cache as it is, or its entries can be written out and nothing
but the file system can get in the way any more.
-/

namespace SourceChunks

/-- A failure that tells of an argument that is not valid. -/
def Failure.IsInvalidArgument : Failure → Prop
  | .unsupportedLanguage _ | .undeterminedLanguage _ | .unknownResource _ | .emptyFactory _
  | .unreadableImport _ | .unparsableImport _ | .importWithoutEntries | .malformedImport => True
  | _ => False

namespace DiskCache

variable {c : DiskCache} {accepted : Prop}

/-! ## Entries of a document -/

/-- The entries that are read from a document of well-formed texts have such texts. -/
theorem wellFormed_of_entriesOf {now : Int} {document : Json} {es : List CacheEntry}
    (h : document.Writable) (hentries : entriesOf now document = .ok es) :
    ∀ e ∈ es, e.WellFormed := by
  rcases entriesOf_cases now document with ⟨-, members, es', hmember, hread, heq⟩ | ⟨-, heq | heq⟩
  · obtain rfl := Except.ok.inj (heq.symm.trans hentries)
    intro e he
    obtain ⟨m, hm, hentry⟩ := Json.exists_mem_of_mapM_eq_some hread he
    cases h.of_member? hmember with
    | object keys_utf8 members_writable =>
      exact CacheEntry.wellFormed_of_ofJson? (members_writable m hm) (keys_utf8 m hm) hentry
  · exact absurd (heq.symm.trans hentries) nofun
  · exact absurd (heq.symm.trans hentries) nofun

/-! ## Writing the index -/

/-- The file of the index and its draft can be written once the entries of the cache are removed. -/
def CanRewriteIndex (c : DiskCache) : Prop :=
  ∀ n ∈ ({indexName, draftName} : Set Bytes), c.cleared.CanWrite n

/-- Where the file of the index and its draft can be opened and the disk takes the draft, the index
is written if it can be written out. -/
theorem exists_saveIndex {place : Place} {names : Set Bytes}
    (hfolder : c.files.Folder c.directory place names) (hdraft : draftName ∈ names)
    (hindex : indexName ∈ names)
    (htakes : ∀ text, c.device (Path.join c.directory draftName) text = .whole) {text : Bytes}
    (htext : (CacheRecord.indexToJson c.records).pretty? 2 = some text) :
    ∃ files, c.saveIndex = ({ c with files }, .ok ()) := by
  obtain ⟨files, hwrite, hfolder', hread⟩ := hfolder.exists_writeText hdraft (htakes text)
  obtain ⟨files', hrename, -⟩ := hfolder'.exists_rename hdraft hindex (by decide)
    ((hread _ hdraft).trans (if_pos rfl))
  refine ⟨files', ?_⟩
  simp only [saveIndex, htext, draft_eq, hwrite]
  rw [indexPath, hrename]

/-- The index can still be written after entries were written. -/
theorem exists_saveIndex_writeEntries (hwrite : c.CanRewriteIndex) (es : List CacheEntry)
    (hrecords : CacheRecord.AllWellFormed (c.cleared.writeEntries es).1.records) :
    ∃ files, (c.cleared.writeEntries es).1.saveIndex =
      ({ (c.cleared.writeEntries es).1 with files }, .ok ()) := by
  have hplain : ∀ n ∈ ({indexName, draftName} : Set Bytes), Path.Plain n := by
    rintro n (rfl | rfl)
    · exact plain_indexName
    · exact plain_draftName
  have hzero : 0 ∉ c.cleared.directory :=
    (hwrite _ (Or.inl rfl)).opened.notMem_zero plain_indexName
  obtain ⟨place, hfolder⟩ := FileTree.exists_folder ⟨indexName, Or.inl rfl⟩ hplain
    fun n hn => (hwrite n hn).opened
  obtain ⟨hdirectory, hdevice, hchanges⟩ := changesOnly_writeEntries hzero es
  obtain ⟨text, htext⟩ := hrecords.writable.exists_pretty? 2
  have hfolder' := hfolder.of_sameDirectories hchanges.sameDirectories
  have htakes := (hwrite draftName (Or.inr rfl)).takes
  rw [← hdirectory] at hfolder' htakes
  rw [← hdevice] at htakes
  exact exists_saveIndex hfolder' (Or.inr rfl) (Or.inl rfl) htakes htext

/-! ## How an import ends -/

/-- The ways in which an import into a cache can end, if a document is accepted or not. -/
inductive ImportEnds (c : DiskCache) (accepted : Prop) : DiskCache × Except Failure Nat → Prop
  /-- A document that is not accepted is refused as an argument, and the cache, its files and its
  counts are what they were. -/
  | refused (f : Failure) (hrefused : ¬ accepted) (hinvalid : f.IsInvalidArgument) :
    ImportEnds c accepted (c, .error f)
  /-- A document that is accepted is taken over. -/
  | taken (c' : DiskCache) (n : Nat) (haccepted : accepted) : ImportEnds c accepted (c', .ok n)
  /-- Only the file of the index may be in the way. -/
  | unwritten (c' : DiskCache) (f : Failure) (haccepted : accepted) (hindex : f.IsIndexFailure)
    (hwrite : ¬ c.CanRewriteIndex) : ImportEnds c accepted (c', .error f)

/-- What is refused leaves the cache as it is. -/
theorem ImportEnds.eq_of_not {r : DiskCache × Except Failure Nat} (h : c.ImportEnds accepted r)
    (hrefused : ¬ accepted) : ∃ f, r = (c, .error f) ∧ f.IsInvalidArgument := by
  cases h with
  | refused f _ hinvalid => exact ⟨f, rfl, hinvalid⟩
  | taken c' n haccepted => exact absurd haccepted hrefused
  | unwritten c' f haccepted _ _ => exact absurd haccepted hrefused

/-- A document of well-formed texts is taken over if it has the shape of the document of a cache,
and is refused otherwise. -/
theorem importDocument_ends (c : DiskCache) (now : Int) {document : Json} (h : document.Writable) :
    c.ImportEnds (IsDocument document) (c.importDocument now document) := by
  rcases entriesOf_cases now document with ⟨haccepted, -, es, -, -, heq⟩ | ⟨hrefused, heq | heq⟩
  · have hcleared : CacheRecord.AllWellFormed c.cleared.records :=
      c.records_cleared ▸ CacheRecord.allWellFormed_empty
    obtain ⟨c', n, hwrites, hrecords⟩ :=
      exists_writeEntries (wellFormed_of_entriesOf h heq) hcleared
    have hsaves (hwrite : c.CanRewriteIndex) :
        ∃ files, c'.saveIndex = ({ c' with files }, .ok ()) := by
      have hsave := exists_saveIndex_writeEntries hwrite es
      rw [hwrites] at hsave
      exact hsave hrecords
    rw [cleared] at hwrites
    rw [importDocument, heq]
    simp only [hwrites]
    rcases saveIndex_of_allWellFormed hrecords with ⟨files, hsave⟩ | ⟨files, f, hsave, hindex⟩
    · rw [hsave]
      exact .taken _ n haccepted
    · rw [hsave]
      refine .unwritten _ f haccepted hindex fun hwrite => ?_
      obtain ⟨files', hsave'⟩ := hsaves hwrite
      exact absurd (hsave.symm.trans hsave') (by simp)
  · rw [importDocument, heq]
    exact .refused _ hrefused trivial
  · rw [importDocument, heq]
    exact .refused _ hrefused trivial

/-- Every import either leaves the cache as it is and tells that the argument is not valid, or takes
over a document of the right shape, of which the file system alone can keep it. So it is with any
document of well-formed texts, and with what is in any file, or if there is none. -/
theorem import_ends (c : DiskCache) (now : Int) :
    (∀ document : Json, document.Writable →
      c.ImportEnds (IsDocument document) (c.importDocument now document)) ∧
    ∀ path, ¬ c.files.isDirectoryAt path →
      c.ImportEnds (∃ text document, c.files.read? path = some text ∧
        Json.parse? text = some document ∧ IsDocument document) (c.importFrom now path) := by
  -- A directory could not be read at all.
  refine ⟨fun document h => c.importDocument_ends now h, fun path _ => ?_⟩
  unfold importFrom
  split
  · next hread =>
    refine .refused _ ?_ trivial
    rintro ⟨text, document, htext, -⟩
    exact absurd (hread.symm.trans htext) nofun
  · next text hread =>
    split
    · next hparse =>
      refine .refused _ ?_ trivial
      rintro ⟨text', document, htext, hdocument, -⟩
      obtain rfl := Option.some.inj (hread.symm.trans htext)
      exact absurd (hparse.symm.trans hdocument) nofun
    · next document hparse =>
      have haccepted : (∃ text document, c.files.read? path = some text ∧
          Json.parse? text = some document ∧ IsDocument document) ↔ IsDocument document := by
        refine ⟨?_, fun h => ⟨text, document, hread, hparse, h⟩⟩
        rintro ⟨text', document', htext, hdocument, h⟩
        obtain rfl := Option.some.inj (hread.symm.trans htext)
        obtain rfl := Option.some.inj (hparse.symm.trans hdocument)
        exact h
      rw [haccepted]
      exact c.importDocument_ends now (Json.writable_of_parse? hparse)

/-- A document with two entries. The first has no chunks, and in the only chunk of the second the
first line is told by something else than in `startLine`. -/
def twoEntries (startLine : Json) : Json :=
  let chunk := Json.ofMembers [(bytes "chunk_id", .string (bytes "i")),
    (bytes "node_type", .string (bytes "block")), (bytes "start_line", startLine),
    (bytes "end_line", .int 1), (bytes "content", .string (bytes "x"))]
  let entry (chunks : List Json) := Json.ofMembers
    [(bytes "file_hash", .string (bytes "h")), (bytes "chunks", .array chunks)]
  Json.ofMembers [(bytes "entries",
    Json.ofMembers [(bytes "a", entry []), (bytes "b", entry [chunk])])]

/-- If the line is a text, the whole document is refused; if it is a number, the document is taken
over. -/
theorem import_ends_twoEntries :
    (∃ f, storedOnce.importDocument 5000 (twoEntries (.string (bytes "1"))) =
      (storedOnce, .error f) ∧ f.IsInvalidArgument) ∧
    ∃ c' n, storedOnce.importDocument 5000 (twoEntries (.int 1)) = (c', .ok n) := by
  have hwritable (startLine : Json) (h : (twoEntries startLine).compact?.isSome) :=
    (import_ends storedOnce 5000).1 (twoEntries startLine) (Json.writable_of_compact? h)
  constructor
  · refine (hwritable (.string (bytes "1")) (by decide +kernel)).eq_of_not ?_
    rcases entriesOf_cases 5000 (twoEntries (.string (bytes "1"))) with
      ⟨-, -, es, -, -, heq⟩ | ⟨hrefused, -⟩
    · exact absurd (show entriesOf 5000 (twoEntries (.string (bytes "1"))) =
        .error .malformedImport by rfl) (heq ▸ nofun)
    · exact hrefused
  · have haccepted : IsDocument (twoEntries (.int 1)) := by
      rcases entriesOf_cases 5000 (twoEntries (.int 1)) with ⟨haccepted, -⟩ | ⟨-, hrefused⟩
      · exact haccepted
      · have hread : (entriesOf 5000 (twoEntries (.int 1))).isOk := by rfl
        rcases hrefused with heq | heq
        · exact absurd (heq ▸ hread) nofun
        · exact absurd (heq ▸ hread) nofun
    have hstored : StoresFile (storeFor (bytes "h")) _ :=
      ⟨rfl, rfl, by decide, storable_storeFor (by decide), nofun⟩
    have hwrite : storedOnce.CanRewriteIndex := by
      rintro n (rfl | rfl)
      · exact hstored.canWrite hstored _ (indexName_mem _)
      · exact hstored.canWrite hstored _ (draftName_mem _)
    have hends := hwritable (.int 1) (by decide +kernel)
    generalize storedOnce.importDocument 5000 (twoEntries (.int 1)) = r at hends ⊢
    cases hends with
    | refused f hrefused _ => exact absurd haccepted hrefused
    | taken c' n _ => exact ⟨c', n, rfl⟩
    | unwritten c' f _ _ hunwritten => exact absurd hwrite hunwritten

end DiskCache

end SourceChunks
