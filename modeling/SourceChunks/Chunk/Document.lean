import SourceChunks.Chunk
import SourceChunks.Json.Field

/-!
# Chunks as documents

A chunk is written with all its fields. Read back, only the id, the kind, the lines and the content
have to be there; the other fields have defaults.
-/

namespace SourceChunks.Chunk

/-- The document of a chunk. -/
def toJson (c : Chunk) : Json :=
  Json.ofMembers
    [(bytes "chunk_id", .string c.id),
      (bytes "language", .string c.language),
      (bytes "file_path", .string c.filePath),
      (bytes "node_type", .string c.nodeType),
      (bytes "start_line", .int c.startLine),
      (bytes "end_line", .int c.endLine),
      (bytes "byte_start", .int c.byteStart),
      (bytes "byte_end", .int c.byteEnd),
      (bytes "parent_context", .string c.parentContext),
      (bytes "content", .string c.content),
      (bytes "references", .array (c.references.map .string)),
      (bytes "dependencies", .array (c.dependencies.map .string)),
      (bytes "metadata", c.metadata),
      (bytes "parent_chunk_id", (c.parentId.map .string).getD .null)]

/-- The chunk of a document. A parent that is not a string counts as none. -/
def ofJson? (v : Json) : Option Chunk := do
  return {
    id := ← v.required? "chunk_id" Json.text?
    nodeType := ← v.required? "node_type" Json.text?
    startLine := ← v.required? "start_line" Json.int32?
    endLine := ← v.required? "end_line" Json.int32?
    content := ← v.required? "content" Json.text?
    language := ← v.optional? "language" Json.text? []
    filePath := ← v.optional? "file_path" Json.text? []
    byteStart := ← v.optional? "byte_start" Json.nat64? 0
    byteEnd := ← v.optional? "byte_end" Json.nat64? 0
    parentContext := ← v.optional? "parent_context" Json.text? []
    references := ← v.optional? "references" Json.texts? []
    dependencies := ← v.optional? "dependencies" Json.texts? []
    metadata := ← v.optional? "metadata" some Json.emptyObject
    parentId := (v.member? (bytes "parent_chunk_id")).bind Json.text? }

end SourceChunks.Chunk
