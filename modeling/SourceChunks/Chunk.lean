import SourceChunks.Json
import SourceChunks.Sha256.Hasher

/-!
# Chunks

A chunk is a piece of a source file: a run of its lines with what is known about them. Its id is a
hash of the file, the lines and the content, so a chunk that changes or moves gets another id.
-/

namespace SourceChunks

/-- A piece of a source file. -/
structure Chunk where
  /-- The name of the language. -/
  language : Bytes
  /-- The path of the file. -/
  filePath : Bytes
  /-- The kind of construct that the chunk is. -/
  nodeType : Bytes
  /-- The first line, counted from one. -/
  startLine : Int
  /-- The last line. -/
  endLine : Int
  /-- The position of the first byte in the file. -/
  byteStart : Nat
  /-- The position just past the last byte. -/
  byteEnd : Nat
  /-- A description of what the chunk stands in. -/
  parentContext : Bytes
  /-- The text. -/
  content : Bytes
  /-- The name of the chunk. -/
  id : Bytes
  /-- The name of the chunk that it is part of. -/
  parentId : Option Bytes
  /-- Names that the text refers to. -/
  references : List Bytes
  /-- Names that the text depends on. -/
  dependencies : List Bytes
  /-- Anything else that is known. -/
  metadata : Json
  deriving DecidableEq, Inhabited, Repr

namespace Chunk

/-- What is hashed to name a chunk: the file, the first and the last line and the content, with a
colon between each two. -/
def idText (filePath : Bytes) (startLine endLine : Int) (content : Bytes) : Bytes :=
  filePath ++ bytes ":" ++ Bytes.ofInt startLine ++ bytes ":" ++ Bytes.ofInt endLine ++ bytes ":" ++
    content

/-- The id of a chunk of the given file, lines and content. -/
def makeId (filePath : Bytes) (startLine endLine : Int) (content : Bytes) : Bytes :=
  Sha256.hexOf (idText filePath startLine endLine content)

/-- Equality of chunks, with the metadata compared as documents. -/
def same (a b : Chunk) : Bool :=
  { a with metadata := .null } == { b with metadata := .null } && a.metadata.same b.metadata

/-- The order in which chunks are listed: by file, then by first line. -/
def positionLe (a b : Chunk) : Bool :=
  a.filePath < b.filePath || (a.filePath == b.filePath && a.startLine ≤ b.startLine)

/-- Chunks in the order of their positions; those at one position keep their order. -/
def sortByPosition (chunks : List Chunk) : List Chunk := chunks.mergeSort positionLe

end Chunk

end SourceChunks
