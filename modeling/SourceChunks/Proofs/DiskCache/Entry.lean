import SourceChunks.DiskCache.Record
import SourceChunks.Proofs.Chunk.Document

/-!
# Entries and records read back

An entry comes back from its blob, and the records come back from the index, except that the time of
an entry is the one that its text tells and that its chunks are given the path and the language of
the entry where they have none.
-/

namespace SourceChunks

/-- The text of an instant is ASCII. -/
theorem Instant.ascii_toText (t : Instant) : Bytes.Ascii t.toText := by
  simp only [toText, Bytes.ascii_append, Bytes.ascii_ofNatPadded, true_and, and_true]
  decide

namespace CacheEntry

/-- An entry whose fields a document can hold. -/
structure Storable (e : CacheEntry) : Prop where
  filePath_utf8 : Bytes.isUtf8 e.filePath
  contentHash_utf8 : Bytes.isUtf8 e.contentHash
  language_utf8 : Bytes.isUtf8 e.language
  metadata_faithful : Json.Faithful e.metadata
  chunks_storable : ∀ c ∈ e.chunks, c.Storable
  chunkCount_lt : e.chunks.length < UInt64.size

/-- The members of the blob of an entry. -/
def blobMembers (e : CacheEntry) : List (Bytes × Json) :=
  e.members ++
    [(bytes "format_version", .int formatVersion), (bytes "file_path", .string e.filePath)]

/-- The document of an entry's blob consists of its members. -/
theorem toBlob_eq (e : CacheEntry) : e.toBlob = Json.ofMembers e.blobMembers := rfl

/-- No two members of a blob have one name. -/
theorem nodup_keys_blobMembers (e : CacheEntry) : (e.blobMembers.map Prod.fst).Nodup := by
  simp only [blobMembers, members, List.cons_append, List.nil_append, List.map_cons, List.map_nil]
  decide +kernel

/-- No two members of the document of an entry have one name. -/
theorem nodup_keys_members (e : CacheEntry) : (e.members.map Prod.fst).Nodup :=
  e.nodup_keys_blobMembers.sublist ((List.sublist_append_left ..).map Prod.fst)

/-- The members of the document of an entry can be written and read back. -/
theorem Storable.members_faithful {e : CacheEntry} (h : e.Storable) :
    ∀ m ∈ e.members, Bytes.isUtf8 m.1 ∧ Json.Faithful m.2 := by
  have hchunks : Json.Faithful (.array (e.chunks.map Chunk.toJson)) := by
    apply Json.Faithful.array
    intro v hv
    obtain ⟨c, hc, rfl⟩ := List.mem_map.mp hv
    exact (h.chunks_storable c hc).faithful
  simp only [members, List.forall_mem_cons, List.not_mem_nil, false_implies, implies_true, and_true]
  exact ⟨⟨by decide, .string h.contentHash_utf8⟩,
    ⟨by decide, .string e.timestamp.ascii_toText.isUtf8⟩, ⟨by decide, .string h.language_utf8⟩,
    ⟨by decide, h.metadata_faithful⟩, ⟨by decide, hchunks⟩⟩

/-- The blob of an entry can be written and read back. -/
theorem Storable.faithful {e : CacheEntry} (h : e.Storable) : Json.Faithful e.toBlob := by
  rw [toBlob_eq]
  refine Json.faithful_ofMembers (List.forall_mem_append.mpr ⟨h.members_faithful, ?_⟩)
  simp only [List.forall_mem_cons, List.not_mem_nil, false_implies, implies_true, and_true]
  exact ⟨⟨by decide, .int (by decide) (by decide)⟩, ⟨by decide, .string h.filePath_utf8⟩⟩

/-- So can its document. -/
theorem Storable.faithful_toJson {e : CacheEntry} (h : e.Storable) : Json.Faithful e.toJson :=
  Json.faithful_ofMembers h.members_faithful

/-- What is read back of an entry: its time is what the text of its time tells, and its chunks have
a path and a language. -/
def restored (now : Int) (e : CacheEntry) : CacheEntry :=
  { e with
    timestamp := (Instant.ofText? e.timestamp.toText).getD (Instant.ofNanos now)
    chunks := e.chunks.map (complete e.filePath e.language) }

/-- An entry is read back from any document that has its members. -/
theorem Storable.ofJson?_of_member? {e : CacheEntry} (h : e.Storable) (now : Int) {doc : Json}
    (hmember : ∀ m ∈ e.members, doc.member? m.1 = some m.2) :
    ofJson? now e.filePath doc = some (e.restored now) := by
  have hchunks : (Json.array (e.chunks.map Chunk.toJson)).elements.mapM Chunk.ofJson? =
      some e.chunks :=
    Json.mapM_map_eq_some fun c hc => (h.chunks_storable c hc).ofJson?_toJson
  simp only [members, List.forall_mem_cons, List.not_mem_nil, false_implies, implies_true,
    and_true] at hmember
  obtain ⟨hhash, htimestamp, hlanguage, hmetadata, hitems⟩ := hmember
  simp only [ofJson?, Json.optional?_of_member? hlanguage, Json.optional?_of_member? htimestamp,
    Json.required?_of_member? hitems, Json.required?_of_member? hhash,
    Json.optional?_of_member? hmetadata, Json.text?.eq_1, hchunks, Option.bind_eq_bind,
    Option.bind_some, Option.pure_def, restored]

/-- An entry is read back from its document. -/
theorem Storable.ofJson?_toJson {e : CacheEntry} (h : e.Storable) (now : Int) :
    ofJson? now e.filePath e.toJson = some (e.restored now) :=
  h.ofJson?_of_member? now (Json.forall_member?_ofMembers e.nodup_keys_members)

/-- An entry is read back from its blob. -/
theorem Storable.ofBlob?_toBlob {e : CacheEntry} (h : e.Storable) (now : Int) :
    ofBlob? now e.filePath e.toBlob = some (e.restored now) := by
  have hversion : Json.int32? (.int formatVersion) = some formatVersion := rfl
  have hmember := Json.forall_member?_ofMembers e.nodup_keys_blobMembers
  have hformat := hmember (bytes "format_version", .int formatVersion) (by simp [blobMembers])
  have hread := h.ofJson?_of_member? now fun m hm => hmember m (List.mem_append_left _ hm)
  rw [ofBlob?, toBlob_eq, hread, Json.optional?_of_member? hformat, hversion]
  rfl

/-! ## What is read can be stored -/

/-- A chunk can be stored with the path and the language of its entry. -/
theorem storable_complete {filePath language : Bytes} {c : Chunk} (h : c.Storable)
    (hpath : Bytes.isUtf8 filePath) (hlanguage : Bytes.isUtf8 language) :
    (complete filePath language c).Storable :=
  { h with
    filePath_utf8 := by
      change Bytes.isUtf8 (if c.filePath.isEmpty then filePath else c.filePath)
      split
      · exact hpath
      · exact h.filePath_utf8
    language_utf8 := by
      change Bytes.isUtf8 (if c.language.isEmpty then language else c.language)
      split
      · exact hlanguage
      · exact h.language_utf8 }

/-- An entry that was read back can be stored again. -/
theorem Storable.restored {e : CacheEntry} (h : e.Storable) (now : Int) :
    (e.restored now).Storable :=
  { h with
    chunks_storable := by
      intro c hc
      obtain ⟨c', hc', rfl⟩ := List.mem_map.mp hc
      exact storable_complete (h.chunks_storable c' hc') h.filePath_utf8 h.language_utf8
    chunkCount_lt := (List.length_map _).trans_lt h.chunkCount_lt }

/-- What is read of a faithful document can be stored, if the chunks can be counted. -/
theorem storable_of_ofJson? {now : Int} {filePath : Bytes} {v : Json} {e : CacheEntry}
    (h : Json.Faithful v) (hpath : Bytes.isUtf8 filePath) (hread : ofJson? now filePath v = some e)
    (hcount : e.chunks.length < UInt64.size) : e.Storable := by
  unfold ofJson? at hread
  obtain ⟨language, hlanguage, hread⟩ := Option.bind_eq_some_iff.mp hread
  obtain ⟨timestamp, -, hread⟩ := Option.bind_eq_some_iff.mp hread
  obtain ⟨items, hitems, hread⟩ := Option.bind_eq_some_iff.mp hread
  obtain ⟨chunks, hchunks, hread⟩ := Option.bind_eq_some_iff.mp hread
  obtain ⟨contentHash, hcontentHash, hread⟩ := Option.bind_eq_some_iff.mp hread
  obtain ⟨metadata, hmetadata, hread⟩ := Option.bind_eq_some_iff.mp hread
  obtain rfl := Option.some.inj hread
  have hlanguage : Bytes.isUtf8 language :=
    h.of_optional? (p := fun t => Bytes.isUtf8 t) hlanguage Json.isUtf8_of_text?
      Bytes.ascii_nil.isUtf8
  have hitems : Json.Faithful items :=
    h.of_required? hitems fun _ _ hv heq => Option.some.inj heq ▸ hv
  exact {
    filePath_utf8 := hpath
    contentHash_utf8 :=
      h.of_required? (p := fun t => Bytes.isUtf8 t) hcontentHash Json.isUtf8_of_text?
    language_utf8 := hlanguage
    metadata_faithful := h.of_optional? hmetadata (fun _ _ hv heq => Option.some.inj heq ▸ hv)
      Json.faithful_emptyObject
    chunks_storable := by
      intro c hc
      obtain ⟨c', hc', rfl⟩ := List.mem_map.mp hc
      obtain ⟨v, hv, hchunk⟩ := Json.exists_mem_of_mapM_eq_some hchunks hc'
      exact storable_complete (Chunk.storable_of_ofJson? (hitems.of_mem_elements hv) hchunk) hpath
        hlanguage
    chunkCount_lt := hcount }

end CacheEntry

namespace CacheRecord

/-- A record whose fields a document can hold. -/
structure Storable (r : CacheRecord) : Prop where
  contentHash_utf8 : Bytes.isUtf8 r.contentHash
  timestamp_utf8 : Bytes.isUtf8 r.timestamp
  chunkCount_lt : r.chunkCount < UInt64.size
  blobName_utf8 : Bytes.isUtf8 r.blobName

/-- The record of an entry that can be stored can be stored too. -/
theorem storable_ofEntry {e : CacheEntry} (h : e.Storable) : (ofEntry e).Storable where
  contentHash_utf8 := h.contentHash_utf8
  timestamp_utf8 := e.timestamp.ascii_toText.isUtf8
  chunkCount_lt := h.chunkCount_lt
  blobName_utf8 := (Bytes.ascii_append.mpr ⟨Bytes.ascii_hex _, by decide⟩).isUtf8

/-- The members of the document of a record. -/
def members (r : CacheRecord) : List (Bytes × Json) :=
  [(bytes "file_hash", .string r.contentHash), (bytes "timestamp", .string r.timestamp),
    (bytes "chunk_count", .int r.chunkCount), (bytes "cache_file", .string r.blobName)]

/-- The document of a record consists of its members. -/
theorem toJson_eq (r : CacheRecord) : r.toJson = Json.ofMembers r.members := rfl

/-- The members of a record have different names. -/
theorem nodup_keys_members (r : CacheRecord) : (r.members.map Prod.fst).Nodup := by
  simp only [members, List.map_cons, List.map_nil]
  decide +kernel

/-- The document of a record can be written and read back. -/
theorem Storable.faithful {r : CacheRecord} (h : r.Storable) : Json.Faithful r.toJson := by
  rw [toJson_eq]
  refine Json.faithful_ofMembers ?_
  simp only [members, List.forall_mem_cons, List.not_mem_nil, false_implies, implies_true, and_true]
  exact ⟨⟨by decide, .string h.contentHash_utf8⟩, ⟨by decide, .string h.timestamp_utf8⟩,
    ⟨by decide, Json.faithful_ofNat h.chunkCount_lt⟩, ⟨by decide, .string h.blobName_utf8⟩⟩

/-- A record is read back from its document. -/
theorem Storable.ofJson?_toJson {r : CacheRecord} (h : r.Storable) (filePath : Bytes) :
    ofJson? filePath r.toJson = some r := by
  have hmember := Json.forall_member?_ofMembers r.nodup_keys_members
  rw [toJson_eq]
  generalize Json.ofMembers r.members = doc at hmember
  simp only [members, List.forall_mem_cons, List.not_mem_nil, false_implies, implies_true,
    and_true] at hmember
  obtain ⟨hhash, htimestamp, hcount, hname⟩ := hmember
  simp only [ofJson?, Json.required?_of_member? hhash, Json.optional?_of_member? htimestamp,
    Json.optional?_of_member? hcount, Json.optional?_of_member? hname, Json.text?.eq_1,
    Json.nat64?_int h.chunkCount_lt, Option.bind_eq_bind, Option.bind_some, Option.pure_def]

/-- Records that can be stored under well-formed paths. -/
def AllStorable (records : Dict CacheRecord) : Prop :=
  ∀ filePath r, records.get? filePath = some r → Bytes.isUtf8 filePath ∧ r.Storable

/-- The document of an index lists the records by their paths. -/
theorem indexToJson_eq (records : Dict CacheRecord) :
    indexToJson records = .object (records.entries.map fun r => (r.1, r.2.toJson)) :=
  Json.ofMembers_of_sorted (List.pairwise_map.mpr records.sorted)

/-- The document of an index can be written and read back. -/
theorem AllStorable.faithful {records : Dict CacheRecord} (h : AllStorable records) :
    Json.Faithful (indexToJson records) := by
  apply Json.faithful_ofMembers
  intro m hm
  obtain ⟨r, hr, rfl⟩ := List.mem_map.mp hm
  obtain ⟨hpath, hrecord⟩ := h r.1 r.2 (Dict.get?_eq_some_iff.mpr hr)
  exact ⟨hpath, hrecord.faithful⟩

/-- An index is read back from its document. -/
theorem AllStorable.indexOfJson?_indexToJson {records : Dict CacheRecord}
    (h : AllStorable records) : indexOfJson? (indexToJson records) = some records := by
  have hread : (records.entries.map fun r => (r.1, r.2.toJson)).mapM
      (fun r => (ofJson? r.1 r.2).map fun record => (r.1, record)) = some records.entries := by
    apply Json.mapM_map_eq_some
    intro r hr
    rw [(h r.1 r.2 (Dict.get?_eq_some_iff.mpr hr)).2.ofJson?_toJson]
    rfl
  rw [indexToJson_eq, indexOfJson?]
  simp only [Json.keyedElements, hread, Option.bind_eq_bind, Option.bind_some, Option.pure_def,
    Dict.ofList_entries]

end CacheRecord

end SourceChunks
