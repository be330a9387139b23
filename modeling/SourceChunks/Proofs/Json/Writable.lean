import SourceChunks.Proofs.Chunk.Document
import SourceChunks.Proofs.DiskCache.Entry

/-!
# What can be written

A document that could be written has well-formed texts only, however deep they stand in it. So the
paths and the contents of the chunks of an entry that could be written are well-formed, whatever
bytes they were cut from.
-/

namespace SourceChunks

/-- What is found among entries is one of them. -/
theorem Entries.mem_of_get?_eq_some {α : Type} {es : Entries α} {k : Bytes} {v : α}
    (h : es.get? k = some v) : (k, v) ∈ es := by
  induction es with
  | nil => exact absurd h nofun
  | cons e rest ih =>
    rw [get?] at h
    split at h
    · next hk =>
      obtain rfl := Option.some.inj h
      exact hk ▸ List.mem_cons_self
    · exact List.mem_cons_of_mem _ (ih h)

namespace Json

/-- All texts and keys in a document are well-formed. -/
inductive Writable : Json → Prop
  | null : Writable .null
  | bool (b : Bool) : Writable (.bool b)
  | int (i : Int) : Writable (.int i)
  | double (x : Binary64) : Writable (.double x)
  | string {t : Bytes} (utf8 : Bytes.isUtf8 t) : Writable (.string t)
  | array {items : List Json} (items_writable : ∀ v ∈ items, Writable v) : Writable (.array items)
  | object {members : List (Bytes × Json)} (keys_utf8 : ∀ m ∈ members, Bytes.isUtf8 m.1)
      (members_writable : ∀ m ∈ members, Writable m.2) : Writable (.object members)

variable {l : Layout} {level : Nat} {tail text : Bytes}

/-- Only UTF-8 text can be quoted. -/
theorem isUtf8_of_quote? {t : Bytes} (h : quote? t tail = some text) : Bytes.isUtf8 t := by
  unfold quote? at h
  split at h
  · assumption
  · cases h

mutual

/-- A value that was written is writable. -/
theorem writable_of_write? (l : Layout) (level : Nat) (v : Json) (tail text : Bytes)
    (h : write? l level v tail = some text) : Writable v := by
  match v with
  | .null => exact .null
  | .bool b => exact .bool b
  | .int i => exact .int i
  | .double x => exact .double x
  | .string t => exact .string (isUtf8_of_quote? h)
  | .array [] => exact .array nofun
  | .array (v :: vs) =>
    rw [write?] at h
    obtain ⟨rest, hrest, h⟩ := Option.bind_eq_some_iff.mp h
    obtain ⟨items, hitems, -⟩ := Option.bind_eq_some_iff.mp h
    refine .array (List.forall_mem_cons.mpr ⟨?_, ?_⟩)
    · exact writable_of_write? l (level + 1) v rest items hitems
    · exact writable_of_writeItems? l (level + 1) vs _ rest hrest
  | .object [] => exact .object nofun nofun
  | .object ((k, v) :: ms) =>
    rw [write?] at h
    obtain ⟨rest, hrest, h⟩ := Option.bind_eq_some_iff.mp h
    obtain ⟨value, hvalue, h⟩ := Option.bind_eq_some_iff.mp h
    obtain ⟨members, hmembers, -⟩ := Option.bind_eq_some_iff.mp h
    obtain ⟨hkeys, hms⟩ := writable_of_writeMembers? l (level + 1) ms _ rest hrest
    have hv := writable_of_write? l (level + 1) v rest value hvalue
    exact .object (List.forall_mem_cons.mpr ⟨isUtf8_of_quote? hmembers, hkeys⟩)
      (List.forall_mem_cons.mpr ⟨hv, hms⟩)

/-- So are the items of an array. -/
theorem writable_of_writeItems? (l : Layout) (level : Nat) (vs : List Json) (tail text : Bytes)
    (h : writeItems? l level vs tail = some text) : ∀ v ∈ vs, Writable v := by
  match vs with
  | [] => exact nofun
  | v :: vs =>
    rw [writeItems?] at h
    obtain ⟨rest, hrest, h⟩ := Option.bind_eq_some_iff.mp h
    obtain ⟨items, hitems, -⟩ := Option.bind_eq_some_iff.mp h
    refine List.forall_mem_cons.mpr ⟨?_, ?_⟩
    · exact writable_of_write? l level v rest items hitems
    · exact writable_of_writeItems? l level vs tail rest hrest

/-- So are the members of an object. -/
theorem writable_of_writeMembers? (l : Layout) (level : Nat) (ms : List (Bytes × Json))
    (tail text : Bytes) (h : writeMembers? l level ms tail = some text) :
    (∀ m ∈ ms, Bytes.isUtf8 m.1) ∧ ∀ m ∈ ms, Writable m.2 := by
  match ms with
  | [] => exact ⟨nofun, nofun⟩
  | (k, v) :: ms =>
    rw [writeMembers?] at h
    obtain ⟨rest, hrest, h⟩ := Option.bind_eq_some_iff.mp h
    obtain ⟨value, hvalue, h⟩ := Option.bind_eq_some_iff.mp h
    obtain ⟨members, hmembers, -⟩ := Option.bind_eq_some_iff.mp h
    obtain ⟨hkeys, hms⟩ := writable_of_writeMembers? l level ms tail rest hrest
    have hv := writable_of_write? l level v rest value hvalue
    exact ⟨List.forall_mem_cons.mpr ⟨isUtf8_of_quote? hmembers, hkeys⟩,
      List.forall_mem_cons.mpr ⟨hv, hms⟩⟩

end

/-- What was written compactly can be written. -/
theorem writable_of_compact? {v : Json} (h : v.compact?.isSome) : Writable v := by
  obtain ⟨text, htext⟩ := Option.isSome_iff_exists.mp h
  exact writable_of_write? _ 0 v [] text htext

namespace Writable

variable {v : Json} {t : Bytes}

/-- A text that can be written is UTF-8. -/
theorem isUtf8 (h : Writable (.string t)) : Bytes.isUtf8 t := by
  cases h with
  | string utf8 => exact utf8

/-- Each item of an array that can be written can be written. -/
theorem of_mem {items : List Json} (h : Writable (.array items)) (hv : v ∈ items) :
    Writable v := by
  cases h with
  | array items_writable => exact items_writable v hv

/-- A member of what can be written can be written. -/
theorem of_member? {doc : Json} {k : Bytes} (h : Writable doc) (hmember : doc.member? k = some v) :
    Writable v := by
  cases h with
  | object _ members_writable => exact members_writable _ (Entries.mem_of_get?_eq_some hmember)
  | null | bool | int | double | string | array => exact absurd hmember nofun

end Writable

end Json

/-! ## Chunks and entries -/

/-- The path and the content of a chunk that could be written are well-formed. -/
theorem Chunk.isUtf8_of_writable {c : Chunk} (h : Json.Writable c.toJson) :
    Bytes.isUtf8 c.filePath ∧ Bytes.isUtf8 c.content := by
  have hmember := Json.forall_member?_ofMembers c.nodup_keys_members
  rw [← toJson_eq] at hmember
  have hpath := hmember (bytes "file_path", .string c.filePath) (by simp [members])
  have hcontent := hmember (bytes "content", .string c.content) (by simp [members])
  exact ⟨(h.of_member? hpath).isUtf8, (h.of_member? hcontent).isUtf8⟩

/-- So are the path of an entry that could be written and those of its chunks, and the contents. -/
theorem CacheEntry.isUtf8_of_writable {e : CacheEntry} (h : Json.Writable e.toBlob) :
    Bytes.isUtf8 e.filePath ∧
      ∀ c ∈ e.chunks, Bytes.isUtf8 c.filePath ∧ Bytes.isUtf8 c.content := by
  have hmember := Json.forall_member?_ofMembers e.nodup_keys_blobMembers
  rw [← toBlob_eq] at hmember
  have hpath := hmember (bytes "file_path", .string e.filePath) (by simp [blobMembers])
  have hchunks := hmember (bytes "chunks", .array (e.chunks.map Chunk.toJson))
    (by simp [blobMembers, members])
  refine ⟨(h.of_member? hpath).isUtf8, fun c hc => ?_⟩
  exact Chunk.isUtf8_of_writable ((h.of_member? hchunks).of_mem (List.mem_map_of_mem hc))

end SourceChunks
