import SourceChunks.DiskCache.Exchange
import SourceChunks.Proofs.Json.WellFormed

/-!
# The shape of documents

Which documents can be read as a chunk, as an entry, as a blob or as a cache is a matter of the
members that they have: some have to be there, and those that are read have to be of the right kind.
-/

namespace SourceChunks

namespace Json

/-! ## Kinds of values -/

/-- A string. -/
def IsText : Json → Prop
  | .string _ => True
  | _ => False

/-- A number, whole or not. -/
def IsNumber : Json → Prop
  | .int _ | .double _ => True
  | _ => False

/-- A number or a truth value, which counts as one or zero. -/
def IsNumberOrTruth : Json → Prop
  | .bool _ | .int _ | .double _ => True
  | _ => False

/-- An array of strings. -/
def IsTexts : Json → Prop
  | .array items => ∀ v ∈ items, v.IsText
  | _ => False

/-- A member is there and is of some kind. -/
def Has (key : String) (kind : Json → Prop) (v : Json) : Prop :=
  ∃ m, v.member? (bytes key) = some m ∧ kind m

/-- A member is of some kind if it is there. -/
def MayHave (key : String) (kind : Json → Prop) (v : Json) : Prop :=
  ∀ m, v.member? (bytes key) = some m → kind m

variable {α β : Type} {v : Json} {key : String} {kind : Json → Prop} {read? : Json → Option α}

/-- A text is read from exactly the texts. -/
theorem isSome_text? (v : Json) : v.text?.isSome ↔ v.IsText := by
  cases v <;> simp [text?, IsText]

/-- A natural number is read from every number, whole or not. -/
theorem isSome_nat64? (v : Json) : v.nat64?.isSome ↔ v.IsNumber := by
  cases v <;> simp [nat64?, whole?, IsNumber]

/-- An integer is read from exactly the numbers and truth values. -/
theorem isSome_int32? (v : Json) : v.int32?.isSome ↔ v.IsNumberOrTruth := by
  cases v <;> simp [int32?, whole?, IsNumberOrTruth]

/-- A list is read as a whole if each of its elements can be read. -/
theorem isSome_mapM {read? : β → Option α} {l : List β} :
    (l.mapM read?).isSome ↔ ∀ b ∈ l, (read? b).isSome := by
  induction l with
  | nil => exact iff_of_true rfl nofun
  | cons b rest ih =>
    rw [List.forall_mem_cons, ← ih, List.mapM_cons]
    cases read? b with
    | none => simp
    | some a => cases rest.mapM read? <;> simp

/-- A list of texts is read from exactly the arrays of texts. -/
theorem isSome_texts? (v : Json) : v.texts?.isSome ↔ v.IsTexts := by
  cases v with
  | array items => exact isSome_mapM.trans (forall₂_congr fun v _ => isSome_text? v)
  | null | bool | int | double | string | object => simp [texts?, IsTexts]

/-- What has members is an object. -/
theorem Has.isObject (h : v.Has key kind) : v.isObject := by
  obtain ⟨m, hmember, -⟩ := h
  cases v with
  | object members => rfl
  | null | bool | int | double | string | array => exact absurd hmember nofun

/-- What is taken as it is may be anything. -/
theorem isSome_some_iff (v : Json) : (some v).isSome ↔ True := by simp

/-- A required member is read when it is there and of its kind. -/
theorem isSome_required? (hkind : ∀ m, (read? m).isSome ↔ kind m) :
    (v.required? key read?).isSome ↔ v.Has key kind := by
  rw [required?, Has]
  cases v.member? (bytes key) with
  | none => simp
  | some m => simp [hkind]

/-- An optional member is read unless it is there and of another kind. -/
theorem isSome_optional? (hobject : v.isObject) (default : α)
    (hkind : ∀ m, (read? m).isSome ↔ kind m) :
    (v.optional? key read? default).isSome ↔ v.MayHave key kind := by
  rw [optional?, if_pos hobject, MayHave]
  cases v.member? (bytes key) with
  | none => simp
  | some m => simp [hkind]

/-- A reader that goes on in the same way whatever it has read succeeds if it succeeds at first and
then. -/
theorem isSome_bind_iff {x : Option α} {next : α → Option β} {p : Prop}
    (h : ∀ a, (next a).isSome ↔ p) : (x.bind next).isSome ↔ x.isSome ∧ p := by
  cases x with
  | none => simp
  | some a => simp [h]

end Json

/-! ## Chunks -/

/-- A document that can be read as a chunk. Its parent and its metadata may be anything. -/
structure Chunk.IsDocument (v : Json) : Prop where
  id : v.Has "chunk_id" Json.IsText
  nodeType : v.Has "node_type" Json.IsText
  startLine : v.Has "start_line" Json.IsNumberOrTruth
  endLine : v.Has "end_line" Json.IsNumberOrTruth
  content : v.Has "content" Json.IsText
  language : v.MayHave "language" Json.IsText
  filePath : v.MayHave "file_path" Json.IsText
  byteStart : v.MayHave "byte_start" Json.IsNumber
  byteEnd : v.MayHave "byte_end" Json.IsNumber
  parentContext : v.MayHave "parent_context" Json.IsText
  references : v.MayHave "references" Json.IsTexts
  dependencies : v.MayHave "dependencies" Json.IsTexts

/-- A chunk is read if each of its fields is, one after another. -/
theorem Chunk.isSome_ofJson? (v : Json) : (ofJson? v).isSome ↔ IsDocument v := by
  have hfields : (ofJson? v).isSome ↔ (v.required? "chunk_id" Json.text?).isSome ∧
      (v.required? "node_type" Json.text?).isSome ∧ (v.required? "start_line" Json.int32?).isSome ∧
      (v.required? "end_line" Json.int32?).isSome ∧ (v.required? "content" Json.text?).isSome ∧
      (v.optional? "language" Json.text? []).isSome ∧
      (v.optional? "file_path" Json.text? []).isSome ∧
      (v.optional? "byte_start" Json.nat64? 0).isSome ∧
      (v.optional? "byte_end" Json.nat64? 0).isSome ∧
      (v.optional? "parent_context" Json.text? []).isSome ∧
      (v.optional? "references" Json.texts? []).isSome ∧
      (v.optional? "dependencies" Json.texts? []).isSome ∧
      (v.optional? "metadata" some Json.emptyObject).isSome ∧ True :=
    Json.isSome_bind_iff fun _ => Json.isSome_bind_iff fun _ => Json.isSome_bind_iff fun _ =>
    Json.isSome_bind_iff fun _ => Json.isSome_bind_iff fun _ => Json.isSome_bind_iff fun _ =>
    Json.isSome_bind_iff fun _ => Json.isSome_bind_iff fun _ => Json.isSome_bind_iff fun _ =>
    Json.isSome_bind_iff fun _ => Json.isSome_bind_iff fun _ => Json.isSome_bind_iff fun _ =>
    Json.isSome_bind_iff fun _ => iff_of_true rfl trivial
  have hdocument (hobject : v.isObject) : (ofJson? v).isSome ↔ IsDocument v := by
    rw [hfields, Json.isSome_required? Json.isSome_text?, Json.isSome_required? Json.isSome_text?,
      Json.isSome_required? Json.isSome_int32?, Json.isSome_required? Json.isSome_int32?,
      Json.isSome_required? Json.isSome_text?, Json.isSome_optional? hobject _ Json.isSome_text?,
      Json.isSome_optional? hobject _ Json.isSome_text?,
      Json.isSome_optional? hobject _ Json.isSome_nat64?,
      Json.isSome_optional? hobject _ Json.isSome_nat64?,
      Json.isSome_optional? hobject _ Json.isSome_text?,
      Json.isSome_optional? hobject _ Json.isSome_texts?,
      Json.isSome_optional? hobject _ Json.isSome_texts?,
      Json.isSome_optional? hobject _ Json.isSome_some_iff]
    constructor
    · rintro ⟨hid, hnodeType, hstartLine, hendLine, hcontent, hlanguage, hfilePath, hbyteStart,
        hbyteEnd, hparentContext, hreferences, hdependencies, -, -⟩
      exact ⟨hid, hnodeType, hstartLine, hendLine, hcontent, hlanguage, hfilePath, hbyteStart,
        hbyteEnd, hparentContext, hreferences, hdependencies⟩
    · intro h
      exact ⟨h.id, h.nodeType, h.startLine, h.endLine, h.content, h.language, h.filePath,
        h.byteStart, h.byteEnd, h.parentContext, h.references, h.dependencies,
        fun _ _ => trivial, trivial⟩
  -- What is no object has no id, and is no document either.
  by_cases hobject : v.isObject
  · exact hdocument hobject
  · refine iff_of_false (fun h => hobject ?_) fun h => hobject h.id.isObject
    exact ((Json.isSome_required? Json.isSome_text?).mp (hfields.mp h).1).isObject

/-! ## Entries -/

namespace CacheEntry

/-- A document that can be read as an entry. Its metadata may be anything, and a walk through its
chunks has to meet chunks only. -/
structure IsDocument (v : Json) : Prop where
  contentHash : v.Has "file_hash" Json.IsText
  chunks : v.Has "chunks" fun m => ∀ item ∈ m.elements, Chunk.IsDocument item
  language : v.MayHave "language" Json.IsText
  timestamp : v.MayHave "timestamp" Json.IsText

/-- An entry is read if each of its fields and of its chunks is. -/
theorem isSome_ofJson? (now : Int) (filePath : Bytes) (v : Json) :
    (ofJson? now filePath v).isSome ↔ IsDocument v := by
  have hchunks : ((v.required? "chunks" some).bind fun m => m.elements.mapM Chunk.ofJson?).isSome ↔
      v.Has "chunks" fun m => ∀ item ∈ m.elements, Chunk.IsDocument item := by
    rw [Json.required?, Json.Has]
    cases v.member? (bytes "chunks") with
    | none => simp
    | some m =>
      simp only [Option.bind_some, Json.isSome_mapM, Chunk.isSome_ofJson?, Option.some.injEq,
        exists_eq_left']
  have hfields : (ofJson? now filePath v).isSome ↔
      (v.optional? "language" Json.text? []).isSome ∧
      (v.optional? "timestamp" Json.text? []).isSome ∧
      ((v.required? "chunks" some).bind fun m => m.elements.mapM Chunk.ofJson?).isSome ∧
      (v.required? "file_hash" Json.text?).isSome ∧
      (v.optional? "metadata" some Json.emptyObject).isSome ∧ True := by
    refine Json.isSome_bind_iff fun _ => Json.isSome_bind_iff fun _ => ?_
    simp only [Option.bind_eq_bind]
    rw [← Option.bind_assoc]
    exact Json.isSome_bind_iff fun _ => Json.isSome_bind_iff fun _ => Json.isSome_bind_iff fun _ =>
      iff_of_true rfl trivial
  by_cases hobject : v.isObject
  · rw [hfields, hchunks, Json.isSome_optional? hobject _ Json.isSome_text?,
      Json.isSome_optional? hobject _ Json.isSome_text?, Json.isSome_required? Json.isSome_text?,
      Json.isSome_optional? hobject _ Json.isSome_some_iff]
    constructor
    · rintro ⟨hlanguage, htimestamp, hitems, hhash, -, -⟩
      exact ⟨hhash, hitems, hlanguage, htimestamp⟩
    · intro h
      exact ⟨h.language, h.timestamp, h.chunks, h.contentHash, fun _ _ => trivial, trivial⟩
  · refine iff_of_false (fun h => hobject ?_) fun h => hobject h.contentHash.isObject
    exact (hchunks.mp (hfields.mp h).2.2.1).isObject

/-- A document that can be read as the blob of an entry: an entry of the one version that there is.
-/
structure IsBlob (v : Json) : Prop extends IsDocument v where
  version : v.Has "format_version" fun m => m.int32? = some formatVersion

/-- A blob is read if it is an entry of the right version. -/
theorem isSome_ofBlob? (now : Int) (filePath : Bytes) (v : Json) :
    (ofBlob? now filePath v).isSome ↔ IsBlob v := by
  have hversion : v.optional? "format_version" Json.int32? 0 = some formatVersion ↔
      v.Has "format_version" fun m => m.int32? = some formatVersion := by
    rw [Json.optional?, Json.Has]
    split
    · cases v.member? (bytes "format_version") with
      | none => simp [formatVersion]
      | some m => simp
    · next hobject =>
      refine iff_of_false (by simp) fun h => hobject ?_
      exact Json.Has.isObject h
  rw [ofBlob?]
  constructor
  · intro h
    obtain ⟨e, he⟩ := Option.isSome_iff_exists.mp h
    obtain ⟨version, hread, he⟩ := Option.bind_eq_some_iff.mp he
    split at he
    · next heq =>
      have hentry : IsDocument v := (isSome_ofJson? now filePath v).mp (he ▸ rfl)
      exact { hentry with version := hversion.mp (heq ▸ hread) }
    · cases he
  · intro h
    rw [hversion.mpr h.version, Option.bind_eq_bind, Option.bind_some, if_pos rfl]
    exact (isSome_ofJson? now filePath v).mpr h.toIsDocument

end CacheEntry

/-! ## Caches -/

namespace DiskCache

/-- A document that can be taken over by a cache: an object whose entries are an object, too, with
documents of entries as members. -/
def IsDocument (v : Json) : Prop :=
  v.Has "entries" fun m => ∃ members, m = .object members ∧
    ∀ e ∈ members, CacheEntry.IsDocument e.2

/-- The entries of such a document are read, each under its path. Those of any other document are
not. -/
theorem entriesOf_cases (now : Int) (v : Json) :
    (IsDocument v ∧ ∃ members es, v.member? (bytes "entries") = some (.object members) ∧
      members.mapM (fun e => CacheEntry.ofJson? now e.1 e.2) = some es ∧
      entriesOf now v = .ok es) ∨
    (¬ IsDocument v ∧ (entriesOf now v = .error .malformedImport ∨
      entriesOf now v = .error .importWithoutEntries)) := by
  have hread (members : List (Bytes × Json)) :
      (members.mapM fun e => CacheEntry.ofJson? now e.1 e.2).isSome ↔
        ∀ e ∈ members, CacheEntry.IsDocument e.2 :=
    Json.isSome_mapM.trans (forall₂_congr fun e _ => CacheEntry.isSome_ofJson? now e.1 e.2)
  unfold entriesOf
  split
  · next members hmember =>
    cases hes : members.mapM fun e => CacheEntry.ofJson? now e.1 e.2 with
    | some es =>
      exact Or.inl ⟨⟨_, hmember, members, rfl, (hread members).mp (hes ▸ rfl)⟩, members, es,
        hmember, hes, rfl⟩
    | none =>
      refine Or.inr ⟨?_, Or.inl rfl⟩
      rintro ⟨_, hmember', members', rfl, hall⟩
      obtain rfl := Json.object.inj (Option.some.inj (hmember.symm.trans hmember'))
      rw [← hread, hes] at hall
      exact absurd hall nofun
  · next hother =>
    refine Or.inr ⟨?_, Or.inr rfl⟩
    rintro ⟨_, hmember, members, rfl, -⟩
    exact hother members hmember

end DiskCache

end SourceChunks
