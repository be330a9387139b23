import SourceChunks.Proofs.DiskCache.Shape
import SourceChunks.Proofs.DiskCache.Writing

/-!
# Entries of well-formed texts

An entry that is read from a document of well-formed texts has such texts itself. So its blob can be
written out, and so can an index with its record: if writing fails, the file system is to blame.
-/

namespace SourceChunks

namespace Json.Writable

variable {α : Type} {p : α → Prop} {doc : Json} {key : String} {read? : Json → Option α}
  {default a : α}

/-- What is read from each value that can be written holds for what is read from a member that must
be there. -/
theorem of_required? (h : Writable doc) (hread : doc.required? key read? = some a)
    (hp : ∀ v a, Writable v → read? v = some a → p a) : p a := by
  obtain ⟨v, hmember, hv⟩ := Option.bind_eq_some_iff.mp hread
  exact hp v a (h.of_member? hmember) hv

/-- It holds for what is read from a member that may be missing, if it holds for the default. -/
theorem of_optional? (h : Writable doc) (hread : doc.optional? key read? default = some a)
    (hp : ∀ v a, Writable v → read? v = some a → p a) (hdefault : p default) : p a := by
  unfold optional? at hread
  split at hread
  · split at hread
    · obtain rfl := Option.some.inj hread
      exact hdefault
    · next v hmember => exact hp v a (h.of_member? hmember) hread
  · exact absurd hread nofun

/-- What a walk through a document meets can be written if the document can. -/
theorem of_mem_elements {v : Json} (h : Writable doc) (hv : v ∈ doc.elements) : Writable v := by
  cases h with
  | null => exact absurd hv List.not_mem_nil
  | bool b => exact List.mem_singleton.mp hv ▸ .bool b
  | int i => exact List.mem_singleton.mp hv ▸ .int i
  | double x => exact List.mem_singleton.mp hv ▸ .double x
  | string utf8 => exact List.mem_singleton.mp hv ▸ .string utf8
  | array items_writable => exact items_writable v hv
  | object _ members_writable =>
    obtain ⟨m, hm, rfl⟩ := List.mem_map.mp hv
    exact members_writable m hm

/-- A text in a document that can be written is UTF-8. -/
theorem isUtf8_of_text? (v : Json) (t : Bytes) (h : Writable v) (hread : v.text? = some t) :
    Bytes.isUtf8 t := by
  cases h with
  | string utf8 =>
    obtain rfl := Option.some.inj hread
    exact utf8
  | null | bool | int | double | array | object => exact absurd hread nofun

/-- The texts of a list in a document that can be written are UTF-8. -/
theorem isUtf8_of_texts? (v : Json) (ts : List Bytes) (h : Writable v)
    (hread : v.texts? = some ts) :
    ∀ t ∈ ts, Bytes.isUtf8 t := by
  cases h with
  | @array items items_writable =>
    intro t ht
    obtain ⟨v, hv, htext⟩ := exists_mem_of_mapM_eq_some hread ht
    exact isUtf8_of_text? v t (items_writable v hv) htext
  | null | bool | int | double | string | object => exact absurd hread nofun

/-- The empty object can be written. -/
theorem emptyObject : Writable emptyObject := .object (by simp) (by simp)

/-- A list of UTF-8 texts can be written. -/
theorem texts {ts : List Bytes} (h : ∀ t ∈ ts, Bytes.isUtf8 t) :
    Writable (.array (ts.map .string)) := by
  apply Writable.array
  intro v hv
  obtain ⟨t, ht, rfl⟩ := List.mem_map.mp hv
  exact .string (h t ht)

end Json.Writable

/-! ## Chunks -/

namespace Chunk

/-- A chunk all texts of which are well-formed. -/
structure WellFormed (c : Chunk) : Prop where
  id_utf8 : Bytes.isUtf8 c.id
  language_utf8 : Bytes.isUtf8 c.language
  filePath_utf8 : Bytes.isUtf8 c.filePath
  nodeType_utf8 : Bytes.isUtf8 c.nodeType
  parentContext_utf8 : Bytes.isUtf8 c.parentContext
  content_utf8 : Bytes.isUtf8 c.content
  parentId_utf8 : ∀ p ∈ c.parentId, Bytes.isUtf8 p
  references_utf8 : ∀ r ∈ c.references, Bytes.isUtf8 r
  dependencies_utf8 : ∀ d ∈ c.dependencies, Bytes.isUtf8 d
  metadata_writable : Json.Writable c.metadata

/-- The document of a chunk of well-formed texts can be written. -/
theorem WellFormed.writable {c : Chunk} (h : c.WellFormed) : Json.Writable c.toJson := by
  have hparent : Json.Writable ((c.parentId.map .string).getD .null) := by
    cases hp : c.parentId with
    | none => exact .null
    | some p => exact .string (h.parentId_utf8 p hp)
  rw [toJson_eq]
  refine Json.writable_ofMembers ?_
  simp only [members, List.forall_mem_cons, List.not_mem_nil, false_implies, implies_true, and_true]
  exact ⟨⟨by decide, .string h.id_utf8⟩, ⟨by decide, .string h.language_utf8⟩,
    ⟨by decide, .string h.filePath_utf8⟩, ⟨by decide, .string h.nodeType_utf8⟩,
    ⟨by decide, .int _⟩, ⟨by decide, .int _⟩, ⟨by decide, .int _⟩, ⟨by decide, .int _⟩,
    ⟨by decide, .string h.parentContext_utf8⟩, ⟨by decide, .string h.content_utf8⟩,
    ⟨by decide, .texts h.references_utf8⟩, ⟨by decide, .texts h.dependencies_utf8⟩,
    ⟨by decide, h.metadata_writable⟩, ⟨by decide, hparent⟩⟩

/-- A chunk that is read from a document of well-formed texts has such texts. -/
theorem wellFormed_of_ofJson? {v : Json} {c : Chunk} (h : Json.Writable v)
    (hread : ofJson? v = some c) : c.WellFormed := by
  unfold ofJson? at hread
  obtain ⟨id, hid, hread⟩ := Option.bind_eq_some_iff.mp hread
  obtain ⟨nodeType, hnodeType, hread⟩ := Option.bind_eq_some_iff.mp hread
  obtain ⟨startLine, -, hread⟩ := Option.bind_eq_some_iff.mp hread
  obtain ⟨endLine, -, hread⟩ := Option.bind_eq_some_iff.mp hread
  obtain ⟨content, hcontent, hread⟩ := Option.bind_eq_some_iff.mp hread
  obtain ⟨language, hlanguage, hread⟩ := Option.bind_eq_some_iff.mp hread
  obtain ⟨filePath, hfilePath, hread⟩ := Option.bind_eq_some_iff.mp hread
  obtain ⟨byteStart, -, hread⟩ := Option.bind_eq_some_iff.mp hread
  obtain ⟨byteEnd, -, hread⟩ := Option.bind_eq_some_iff.mp hread
  obtain ⟨parentContext, hparentContext, hread⟩ := Option.bind_eq_some_iff.mp hread
  obtain ⟨references, hreferences, hread⟩ := Option.bind_eq_some_iff.mp hread
  obtain ⟨dependencies, hdependencies, hread⟩ := Option.bind_eq_some_iff.mp hread
  obtain ⟨metadata, hmetadata, hread⟩ := Option.bind_eq_some_iff.mp hread
  obtain rfl := Option.some.inj hread
  have hrequired {key : String} {t : Bytes} (ht : v.required? key Json.text? = some t) :
      Bytes.isUtf8 t := h.of_required? (p := fun t => Bytes.isUtf8 t)
        ht Json.Writable.isUtf8_of_text?
  have htext {key : String} {t : Bytes} (ht : v.optional? key Json.text? [] = some t) :
      Bytes.isUtf8 t :=
    h.of_optional? (p := fun t => Bytes.isUtf8 t) ht Json.Writable.isUtf8_of_text?
      Bytes.ascii_nil.isUtf8
  have htexts {key : String} {ts : List Bytes} (hts : v.optional? key Json.texts? [] = some ts) :
      ∀ t ∈ ts, Bytes.isUtf8 t :=
    h.of_optional? (p := fun ts => ∀ t ∈ ts, Bytes.isUtf8 t) hts Json.Writable.isUtf8_of_texts?
      (by simp)
  exact {
    id_utf8 := hrequired hid
    language_utf8 := htext hlanguage
    filePath_utf8 := htext hfilePath
    nodeType_utf8 := hrequired hnodeType
    parentContext_utf8 := htext hparentContext
    content_utf8 := hrequired hcontent
    parentId_utf8 := fun _ hp => hrequired hp
    references_utf8 := htexts hreferences
    dependencies_utf8 := htexts hdependencies
    metadata_writable := h.of_optional? hmetadata (fun _ _ hv heq => Option.some.inj heq ▸ hv)
      Json.Writable.emptyObject }

end Chunk

/-! ## Entries -/

namespace CacheEntry

/-- An entry all texts of which are well-formed. -/
structure WellFormed (e : CacheEntry) : Prop where
  filePath_utf8 : Bytes.isUtf8 e.filePath
  contentHash_utf8 : Bytes.isUtf8 e.contentHash
  language_utf8 : Bytes.isUtf8 e.language
  metadata_writable : Json.Writable e.metadata
  chunks_wellFormed : ∀ c ∈ e.chunks, c.WellFormed

/-- The blob of an entry of well-formed texts can be written. -/
theorem WellFormed.writable {e : CacheEntry} (h : e.WellFormed) : Json.Writable e.toBlob := by
  have hchunks : Json.Writable (.array (e.chunks.map Chunk.toJson)) := by
    apply Json.Writable.array
    intro v hv
    obtain ⟨c, hc, rfl⟩ := List.mem_map.mp hv
    exact (h.chunks_wellFormed c hc).writable
  rw [toBlob_eq]
  refine Json.writable_ofMembers ?_
  simp only [blobMembers, members, List.forall_mem_append, List.forall_mem_cons, List.not_mem_nil,
    false_implies, implies_true, and_true]
  exact ⟨⟨⟨by decide, .string h.contentHash_utf8⟩,
    ⟨by decide, .string e.timestamp.ascii_toText.isUtf8⟩, ⟨by decide, .string h.language_utf8⟩,
    ⟨by decide, h.metadata_writable⟩, ⟨by decide, hchunks⟩⟩,
    ⟨by decide, .int _⟩, ⟨by decide, .string h.filePath_utf8⟩⟩

/-- A chunk keeps well-formed texts when it is given the path and the language of its entry. -/
theorem wellFormed_complete {filePath language : Bytes} {c : Chunk} (h : c.WellFormed)
    (hpath : Bytes.isUtf8 filePath) (hlanguage : Bytes.isUtf8 language) :
    (complete filePath language c).WellFormed :=
  { h with
    filePath_utf8 := by
      change Bytes.isUtf8 (if c.filePath.isEmpty then filePath else c.filePath)
      split
      · exact hpath
      · exact h.filePath_utf8
    language_utf8 := by
      change Bytes.isUtf8 (if c.language.isEmpty then language else c.language)
      split
      · exact hlanguage
      · exact h.language_utf8 }

/-- An entry that is read from a document of well-formed texts has such texts. -/
theorem wellFormed_of_ofJson? {now : Int} {filePath : Bytes} {v : Json} {e : CacheEntry}
    (h : Json.Writable v) (hpath : Bytes.isUtf8 filePath)
    (hread : ofJson? now filePath v = some e) :
    e.WellFormed := by
  unfold ofJson? at hread
  obtain ⟨language, hlanguage, hread⟩ := Option.bind_eq_some_iff.mp hread
  obtain ⟨timestamp, -, hread⟩ := Option.bind_eq_some_iff.mp hread
  obtain ⟨items, hitems, hread⟩ := Option.bind_eq_some_iff.mp hread
  obtain ⟨chunks, hchunks, hread⟩ := Option.bind_eq_some_iff.mp hread
  obtain ⟨contentHash, hcontentHash, hread⟩ := Option.bind_eq_some_iff.mp hread
  obtain ⟨metadata, hmetadata, hread⟩ := Option.bind_eq_some_iff.mp hread
  obtain rfl := Option.some.inj hread
  have hlanguage : Bytes.isUtf8 language :=
    h.of_optional? (p := fun t => Bytes.isUtf8 t) hlanguage Json.Writable.isUtf8_of_text?
      Bytes.ascii_nil.isUtf8
  have hitems : Json.Writable items :=
    h.of_required? hitems fun _ _ hv heq => Option.some.inj heq ▸ hv
  exact {
    filePath_utf8 := hpath
    contentHash_utf8 :=
      h.of_required? (p := fun t => Bytes.isUtf8 t) hcontentHash Json.Writable.isUtf8_of_text?
    language_utf8 := hlanguage
    metadata_writable := h.of_optional? hmetadata (fun _ _ hv heq => Option.some.inj heq ▸ hv)
      Json.Writable.emptyObject
    chunks_wellFormed := by
      intro c hc
      obtain ⟨c', hc', rfl⟩ := List.mem_map.mp hc
      obtain ⟨v, hv, hchunk⟩ := Json.exists_mem_of_mapM_eq_some hchunks hc'
      exact wellFormed_complete (Chunk.wellFormed_of_ofJson? (hitems.of_mem_elements hv) hchunk)
        hpath hlanguage }

end CacheEntry

/-! ## The index -/

namespace CacheRecord

/-- A record all texts of which are well-formed. -/
structure WellFormed (r : CacheRecord) : Prop where
  contentHash_utf8 : Bytes.isUtf8 r.contentHash
  timestamp_utf8 : Bytes.isUtf8 r.timestamp
  blobName_utf8 : Bytes.isUtf8 r.blobName

/-- The record of a well-formed entry is well formed. -/
theorem wellFormed_ofEntry {e : CacheEntry} (h : e.WellFormed) : (ofEntry e).WellFormed where
  contentHash_utf8 := h.contentHash_utf8
  timestamp_utf8 := e.timestamp.ascii_toText.isUtf8
  blobName_utf8 := (Bytes.ascii_append.mpr ⟨Bytes.ascii_hex _, by decide⟩).isUtf8

/-- Records of well-formed texts under well-formed paths. -/
def AllWellFormed (records : Dict CacheRecord) : Prop :=
  ∀ filePath r, records.get? filePath = some r → Bytes.isUtf8 filePath ∧ r.WellFormed

/-- Without records all records are well formed. -/
theorem allWellFormed_empty : AllWellFormed Dict.empty := by
  intro f r hr
  rw [Dict.get?_empty] at hr
  exact absurd hr nofun

/-- Records stay well formed when a well-formed entry is stored. -/
theorem AllWellFormed.insert {records : Dict CacheRecord} (h : AllWellFormed records)
    {e : CacheEntry} (he : e.WellFormed) :
    AllWellFormed (records.insert e.filePath (ofEntry e)) := by
  intro f r hr
  rw [Dict.get?_insert] at hr
  split at hr
  · next heq =>
    obtain rfl := Option.some.inj hr
    exact ⟨heq ▸ he.filePath_utf8, wellFormed_ofEntry he⟩
  · exact h f r hr

/-- An index of such records can be written. -/
theorem AllWellFormed.writable {records : Dict CacheRecord} (h : AllWellFormed records) :
    Json.Writable (indexToJson records) := by
  apply Json.writable_ofMembers
  intro m hm
  obtain ⟨⟨f, r⟩, hr, rfl⟩ := List.mem_map.mp hm
  obtain ⟨hpath, hrecord⟩ := h f r (Dict.get?_eq_some_iff.mpr hr)
  refine ⟨hpath, Json.writable_ofMembers ?_⟩
  simp only [List.forall_mem_cons, List.not_mem_nil, false_implies, implies_true, and_true]
  exact ⟨⟨by decide, .string hrecord.contentHash_utf8⟩, ⟨by decide, .string hrecord.timestamp_utf8⟩,
    ⟨by decide, .int _⟩, ⟨by decide, .string hrecord.blobName_utf8⟩⟩

end CacheRecord

/-! ## Writing -/

/-- The file of an index cannot be written or put in its place. -/
def Failure.IsIndexFailure : Failure → Prop
  | .unwritableIndex _ | .unreplaceableIndex _ _ => True
  | _ => False

namespace DiskCache

variable {c : DiskCache}

/-- A text that is there is not malformed. -/
theorem writeText_some_ne_malformed {files files' : FileTree} {device : FileTree.Device}
    {path text : Bytes} : files.writeText device path (some text) ≠ .malformed files' := by
  unfold FileTree.writeText
  split
  · exact nofun
  · simp only
    split <;> exact nofun

/-- When an entry of well-formed texts is written, it is only its file that may not be there to be
written, or the disk that does not take it. -/
theorem writeEntry_of_wellFormed {e : CacheEntry} (he : e.WellFormed) :
    (∃ files, c.writeEntry e = ({ c with files }, .ok false)) ∨ ∃ files, c.writeEntry e =
      ({ c with files, records := c.records.insert e.filePath (.ofEntry e) }, .ok true) := by
  obtain ⟨text, htext⟩ := he.writable.exists_compact?
  rw [writeEntry, htext]
  cases hwrite : c.files.writeText c.device (c.blobPath (CacheEntry.blobName e.filePath))
      (some text) with
  | unopened => exact Or.inl ⟨c.files, rfl⟩
  | malformed files => exact absurd hwrite writeText_some_ne_malformed
  | unfinished files => exact Or.inl ⟨files, rfl⟩
  | finished files => exact Or.inr ⟨files, rfl⟩

/-- Entries of well-formed texts are written without failure, and their records have well-formed
texts. -/
theorem exists_writeEntries {es : List CacheEntry} (hes : ∀ e ∈ es, e.WellFormed)
    (h : CacheRecord.AllWellFormed c.records) :
    ∃ c' n, c.writeEntries es = (c', .ok n) ∧ CacheRecord.AllWellFormed c'.records := by
  induction es generalizing c with
  | nil => exact ⟨c, 0, rfl, h⟩
  | cons e rest ih =>
    obtain ⟨he, hrest⟩ := List.forall_mem_cons.mp hes
    rw [writeEntries]
    rcases writeEntry_of_wellFormed (c := c) he with ⟨files, hwrite⟩ | ⟨files, hwrite⟩
    · rw [hwrite]
      exact @ih { c with files, counts.errors := c.counts.errors + 1 } hrest h
    · obtain ⟨c', n, hwrites, hrecords⟩ := @ih { c with
        files
        records := c.records.insert e.filePath (.ofEntry e)
        counts.stores := c.counts.stores + 1 } hrest (h.insert he)
      rw [hwrite]
      simp only [hwrites]
      exact ⟨c', n + 1, rfl, hrecords⟩

/-- When an index of well-formed texts is written, it is only its file that may not be there to be
written, or the disk that does not take it. -/
theorem saveIndex_of_allWellFormed (h : CacheRecord.AllWellFormed c.records) :
    (∃ files, c.saveIndex = ({ c with files }, .ok ())) ∨
      ∃ files f, c.saveIndex = ({ c with files }, .error f) ∧ f.IsIndexFailure := by
  obtain ⟨text, htext⟩ := h.writable.exists_pretty? 2
  simp only [saveIndex, htext]
  cases hwrite : c.files.writeText c.device (c.indexPath ++ bytes ".tmp") (some text) with
  | unopened => exact Or.inr ⟨c.files, _, rfl, trivial⟩
  | malformed files => exact absurd hwrite writeText_some_ne_malformed
  | unfinished files => exact Or.inr ⟨files, _, rfl, trivial⟩
  | finished files =>
    simp only
    cases files.rename (c.indexPath ++ bytes ".tmp") c.indexPath with
    | error e => exact Or.inr ⟨files, _, rfl, trivial⟩
    | ok files' => exact Or.inl ⟨files', rfl⟩

end DiskCache

end SourceChunks
