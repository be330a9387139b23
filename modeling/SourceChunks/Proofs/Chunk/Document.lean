import SourceChunks.Chunk.Document
import SourceChunks.Proofs.Chunk.Cutting
import SourceChunks.Proofs.Json.Field

/-!
# Chunks read back from their documents

A chunk comes back from its document with every field, provided that its fields have the widths that
the document leaves them. The chunks of a well-formed text are of this kind.
-/

namespace SourceChunks

namespace Chunk

/-- A chunk whose fields a document can hold. -/
structure Storable (c : Chunk) : Prop where
  id_utf8 : Bytes.isUtf8 c.id
  language_utf8 : Bytes.isUtf8 c.language
  filePath_utf8 : Bytes.isUtf8 c.filePath
  nodeType_utf8 : Bytes.isUtf8 c.nodeType
  parentContext_utf8 : Bytes.isUtf8 c.parentContext
  content_utf8 : Bytes.isUtf8 c.content
  parentId_utf8 : ∀ p ∈ c.parentId, Bytes.isUtf8 p
  references_utf8 : ∀ r ∈ c.references, Bytes.isUtf8 r
  dependencies_utf8 : ∀ d ∈ c.dependencies, Bytes.isUtf8 d
  startLine_int32 : Json.IsInt32 c.startLine
  endLine_int32 : Json.IsInt32 c.endLine
  byteStart_lt : c.byteStart < UInt64.size
  byteEnd_lt : c.byteEnd < UInt64.size
  metadata_faithful : Json.Faithful c.metadata

/-- The members of the document of a chunk. -/
def members (c : Chunk) : List (Bytes × Json) :=
  [(bytes "chunk_id", .string c.id),
    (bytes "language", .string c.language),
    (bytes "file_path", .string c.filePath),
    (bytes "node_type", .string c.nodeType),
    (bytes "start_line", .int c.startLine),
    (bytes "end_line", .int c.endLine),
    (bytes "byte_start", .int c.byteStart),
    (bytes "byte_end", .int c.byteEnd),
    (bytes "parent_context", .string c.parentContext),
    (bytes "content", .string c.content),
    (bytes "references", .array (c.references.map .string)),
    (bytes "dependencies", .array (c.dependencies.map .string)),
    (bytes "metadata", c.metadata),
    (bytes "parent_chunk_id", (c.parentId.map .string).getD .null)]

/-- A chunk's document consists of its members. -/
theorem toJson_eq (c : Chunk) : c.toJson = Json.ofMembers c.members := rfl

/-- No two members of the document have one name. -/
theorem nodup_keys_members (c : Chunk) : (c.members.map Prod.fst).Nodup := by
  simp only [members, List.map_cons, List.map_nil]
  decide +kernel

/-- The document of a chunk can be written and read back. -/
theorem Storable.faithful {c : Chunk} (h : c.Storable) : Json.Faithful c.toJson := by
  have hparent : Json.Faithful ((c.parentId.map .string).getD .null) := by
    cases hp : c.parentId with
    | none => exact .null
    | some p => exact .string (h.parentId_utf8 p hp)
  rw [toJson_eq]
  refine Json.faithful_ofMembers ?_
  simp only [members, List.forall_mem_cons, List.not_mem_nil, false_implies, implies_true, and_true]
  exact ⟨⟨by decide, .string h.id_utf8⟩, ⟨by decide, .string h.language_utf8⟩,
    ⟨by decide, .string h.filePath_utf8⟩, ⟨by decide, .string h.nodeType_utf8⟩,
    ⟨by decide, h.startLine_int32.faithful⟩, ⟨by decide, h.endLine_int32.faithful⟩,
    ⟨by decide, Json.faithful_ofNat h.byteStart_lt⟩,
    ⟨by decide, Json.faithful_ofNat h.byteEnd_lt⟩, ⟨by decide, .string h.parentContext_utf8⟩,
    ⟨by decide, .string h.content_utf8⟩, ⟨by decide, Json.faithful_texts h.references_utf8⟩,
    ⟨by decide, Json.faithful_texts h.dependencies_utf8⟩, ⟨by decide, h.metadata_faithful⟩,
    ⟨by decide, hparent⟩⟩

/-- A chunk is read back from its document with all its fields. -/
theorem Storable.ofJson?_toJson {c : Chunk} (h : c.Storable) : ofJson? c.toJson = some c := by
  have hparent : ((c.parentId.map Json.string).getD .null).text? = c.parentId := by
    cases c.parentId <;> rfl
  have hmember := Json.forall_member?_ofMembers c.nodup_keys_members
  rw [toJson_eq]
  generalize Json.ofMembers c.members = doc at hmember
  simp only [members, List.forall_mem_cons, List.not_mem_nil, false_implies, implies_true,
    and_true] at hmember
  obtain ⟨hid, hlanguage, hfilePath, hnodeType, hstartLine, hendLine, hbyteStart, hbyteEnd,
    hparentContext, hcontent, hreferences, hdependencies, hmetadata, hparentId⟩ := hmember
  simp only [ofJson?, Json.required?_of_member? hid, Json.required?_of_member? hnodeType,
    Json.required?_of_member? hstartLine, Json.required?_of_member? hendLine,
    Json.required?_of_member? hcontent, Json.optional?_of_member? hlanguage,
    Json.optional?_of_member? hfilePath, Json.optional?_of_member? hbyteStart,
    Json.optional?_of_member? hbyteEnd, Json.optional?_of_member? hparentContext,
    Json.optional?_of_member? hreferences, Json.optional?_of_member? hdependencies,
    Json.optional?_of_member? hmetadata, hparentId, Json.text?.eq_1, Json.texts?_array,
    Json.int32?_int h.startLine_int32, Json.int32?_int h.endLine_int32,
    Json.nat64?_int h.byteStart_lt, Json.nat64?_int h.byteEnd_lt, Option.bind_eq_bind,
    Option.bind_some, Option.pure_def, hparent]

/-- What is read of a faithful document can be stored. -/
theorem storable_of_ofJson? {v : Json} {c : Chunk} (h : Json.Faithful v)
    (hread : ofJson? v = some c) : c.Storable := by
  unfold ofJson? at hread
  -- The fields are read one after another.
  obtain ⟨id, hid, hread⟩ := Option.bind_eq_some_iff.mp hread
  obtain ⟨nodeType, hnodeType, hread⟩ := Option.bind_eq_some_iff.mp hread
  obtain ⟨startLine, hstartLine, hread⟩ := Option.bind_eq_some_iff.mp hread
  obtain ⟨endLine, hendLine, hread⟩ := Option.bind_eq_some_iff.mp hread
  obtain ⟨content, hcontent, hread⟩ := Option.bind_eq_some_iff.mp hread
  obtain ⟨language, hlanguage, hread⟩ := Option.bind_eq_some_iff.mp hread
  obtain ⟨filePath, hfilePath, hread⟩ := Option.bind_eq_some_iff.mp hread
  obtain ⟨byteStart, hbyteStart, hread⟩ := Option.bind_eq_some_iff.mp hread
  obtain ⟨byteEnd, hbyteEnd, hread⟩ := Option.bind_eq_some_iff.mp hread
  obtain ⟨parentContext, hparentContext, hread⟩ := Option.bind_eq_some_iff.mp hread
  obtain ⟨references, hreferences, hread⟩ := Option.bind_eq_some_iff.mp hread
  obtain ⟨dependencies, hdependencies, hread⟩ := Option.bind_eq_some_iff.mp hread
  obtain ⟨metadata, hmetadata, hread⟩ := Option.bind_eq_some_iff.mp hread
  obtain rfl := Option.some.inj hread
  have hrequired {key : String} {t : Bytes} (ht : v.required? key Json.text? = some t) :
      Bytes.isUtf8 t := h.of_required? (p := fun t => Bytes.isUtf8 t) ht Json.isUtf8_of_text?
  have htext {key : String} {t : Bytes} (ht : v.optional? key Json.text? [] = some t) :
      Bytes.isUtf8 t :=
    h.of_optional? (p := fun t => Bytes.isUtf8 t) ht Json.isUtf8_of_text? Bytes.ascii_nil.isUtf8
  have htexts {key : String} {ts : List Bytes} (hts : v.optional? key Json.texts? [] = some ts) :
      ∀ t ∈ ts, Bytes.isUtf8 t :=
    h.of_optional? (p := fun ts => ∀ t ∈ ts, Bytes.isUtf8 t) hts Json.isUtf8_of_texts? nofun
  have hint {key : String} {i : Int} (hi : v.required? key Json.int32? = some i) :
      Json.IsInt32 i := h.of_required? hi fun v i _ => Json.isInt32_of_int32? v i
  have hnat {key : String} {n : Nat} (hn : v.optional? key Json.nat64? 0 = some n) :
      n < UInt64.size :=
    h.of_optional? (p := (· < UInt64.size)) hn (fun v n _ => Json.lt_of_nat64? v n) (by decide)
  exact {
    id_utf8 := hrequired hid
    language_utf8 := htext hlanguage
    filePath_utf8 := htext hfilePath
    nodeType_utf8 := hrequired hnodeType
    parentContext_utf8 := htext hparentContext
    content_utf8 := hrequired hcontent
    parentId_utf8 := fun _ hp => hrequired hp
    references_utf8 := htexts hreferences
    dependencies_utf8 := htexts hdependencies
    startLine_int32 := hint hstartLine
    endLine_int32 := hint hendLine
    byteStart_lt := hnat hbyteStart
    byteEnd_lt := hnat hbyteEnd
    metadata_faithful := h.of_optional? hmetadata (fun _ _ hv heq => Option.some.inj heq ▸ hv)
      Json.faithful_emptyObject }

end Chunk

/-! ## Chunks of a text -/

/-- A text of a file of a size that the fields of a chunk have room for: both are well-formed, the
length is a number of 64 bits, and the numbers of the lines have 32 bits and a sign. -/
structure Processable (filePath text : Bytes) : Prop where
  filePath_utf8 : Bytes.isUtf8 filePath
  text_utf8 : Bytes.isUtf8 text
  length_lt : text.length < UInt64.size
  lines_lt : (Bytes.lines text).length * 2 < UInt32.size

/-- The names of languages are well-formed. -/
theorem Language.isUtf8_name (l : Language) : Bytes.isUtf8 l.name := by
  cases l <;> decide

/-- The kinds of blocks are well-formed. -/
theorem Language.isUtf8_nodeType (l : Language) (line : Bytes) :
    Bytes.isUtf8 (l.nodeType line) := by
  have hrules : ∀ rule ∈ l.rules, Bytes.isUtf8 rule.2 := by
    cases l <;> decide +kernel
  unfold Language.nodeType
  split
  · next rule hrule => exact hrules rule (List.mem_of_find?_eq_some hrule)
  · split <;> decide

/-- The content of a chunk of a well-formed text is well-formed. -/
theorem isUtf8_content_chunkText {language : Language} {filePath text : Bytes} {c : Chunk}
    (htext : Bytes.isUtf8 text) (h : c ∈ chunkText language filePath text) :
    Bytes.isUtf8 c.content := by
  obtain ⟨block, -, rfl⟩ := mem_chunkText_iff.mp h
  apply Bytes.isUtf8_unlines
  intro line hline
  rw [List.extract_eq_take_drop] at hline
  exact Bytes.isUtf8_of_mem_lines htext (List.mem_of_mem_drop (List.mem_of_mem_take hline))

/-- A text of a size that the fields of a chunk have room for. -/
structure FitsFields (text : Bytes) : Prop where
  length_lt : text.length < UInt64.size
  lines_lt : (Bytes.lines text).length * 2 < UInt32.size

/-- A file that can be processed has lengths and line numbers that fit their fields. -/
theorem Processable.fitsFields {filePath text : Bytes} (h : Processable filePath text) :
    FitsFields text := ⟨h.length_lt, h.lines_lt⟩

/-- A chunk of a text of such a size can be stored if its path and its content are well-formed. -/
theorem FitsFields.storable {language : Language} {filePath text : Bytes} {c : Chunk}
    (h : FitsFields text) (hc : c ∈ chunkText language filePath text)
    (hpath : Bytes.isUtf8 filePath) (hcontent : Bytes.isUtf8 c.content) : c.Storable := by
  obtain ⟨⟨hstart, hstart'⟩, ⟨hend, hend'⟩, hbyteStart, hbyteEnd⟩ := chunkText_bounds hc
  have hlength := h.length_lt
  have hlines := h.lines_lt
  obtain ⟨block, -, rfl⟩ := mem_chunkText_iff.mp hc
  exact {
    id_utf8 := (Bytes.ascii_hex _).isUtf8
    language_utf8 := language.isUtf8_name
    filePath_utf8 := hpath
    nodeType_utf8 := language.isUtf8_nodeType _
    parentContext_utf8 := Bytes.ascii_nil.isUtf8
    content_utf8 := hcontent
    parentId_utf8 := nofun
    references_utf8 := nofun
    dependencies_utf8 := nofun
    startLine_int32 := ⟨by omega, by omega⟩
    endLine_int32 := ⟨by omega, by omega⟩
    byteStart_lt := by omega
    byteEnd_lt := by omega
    metadata_faithful := .object List.Pairwise.nil nofun nofun }

/-- The chunks of a text can be stored. -/
theorem Processable.storable {language : Language} {filePath text : Bytes} {c : Chunk}
    (h : Processable filePath text) (hc : c ∈ chunkText language filePath text) : c.Storable :=
  h.fitsFields.storable hc h.filePath_utf8 (isUtf8_content_chunkText h.text_utf8 hc)

end SourceChunks
