import SourceChunks.Bytes.Line
import SourceChunks.Chunk
import SourceChunks.Language

/-!
# Cutting a text into chunks

A block begins at a line that follows a blank line and is neither indented nor a closing bracket,
and it reaches to the last line that is not blank before the next block begins. The first line of a
text that is not blank begins a block in any case. Each block becomes one chunk.
-/

namespace SourceChunks

/-- Whether a line may begin a block: it is not indented, and it does not close a bracket, since a
closing bracket belongs to the block that it closes. -/
def Bytes.startsBlock : Bytes → Bool
  | [] => false
  | b :: _ => !Bytes.isSpace b && b != 0x7D && b != 0x29 && b != 0x5D

/-- The lines of a block, by the numbers of lines before its first and before its last one. -/
structure Block where
  /-- The first line. -/
  first : Nat
  /-- The last line. -/
  last : Nat
  deriving DecidableEq, Repr

/-- What the search for blocks holds between two lines. -/
structure BlockSearch where
  /-- The current block, up to the last line so far that is not blank; none if all are blank. -/
  current? : Option Block
  /-- Whether the line before is blank. The first line counts as coming after one. -/
  afterBlank : Bool
  deriving DecidableEq, Repr

namespace BlockSearch

/-- The search before the first line. -/
def start : BlockSearch := ⟨none, true⟩

/-- Where the block begins that a line belongs to unless it begins one of its own. -/
def first (s : BlockSearch) (i : Nat) : Nat := (s.current?.map Block.first).getD i

/-- The search goes past line `i`; the answer has the block that ends before that line, if one
does. -/
def step (s : BlockSearch) (i : Nat) (line : Bytes) : Option Block × BlockSearch :=
  if Bytes.isBlank line then (none, { s with afterBlank := true })
  else if s.afterBlank && Bytes.startsBlock line then (s.current?, ⟨some ⟨i, i⟩, false⟩)
  else (none, ⟨some ⟨s.first i, i⟩, false⟩)

/-- The blocks that end at line `i` or after it, if the given lines come from there on. -/
def run (s : BlockSearch) (i : Nat) : List Bytes → List Block
  | [] => s.current?.toList
  | line :: rest => (s.step i line).1.toList ++ (s.step i line).2.run (i + 1) rest

end BlockSearch

/-- The blocks of the lines of a text. -/
def blocks (lines : List Bytes) : List Block := BlockSearch.start.run 0 lines

/-- The chunk of a block of lines that begin at the given offsets. -/
def Chunk.ofBlock (language : Language) (filePath : Bytes) (lines : List Bytes)
    (offsets : List Nat) (block : Block) : Chunk :=
  let content := Bytes.unlines (lines.extract block.first (block.last + 1))
  let startLine : Int := block.first + 1
  let endLine : Int := block.last + 1
  { language := language.name
    filePath
    nodeType := language.nodeType (lines.getD block.first [])
    startLine
    endLine
    byteStart := offsets.getD block.first 0
    byteEnd := offsets.getD block.last 0 + (lines.getD block.last []).length
    parentContext := []
    content
    id := Chunk.makeId filePath startLine endLine content
    parentId := none
    references := []
    dependencies := []
    metadata := Json.emptyObject }

/-- The chunks of a text, in the order of their lines. -/
def chunkText (language : Language) (filePath text : Bytes) : List Chunk :=
  let lines := Bytes.lines text
  (blocks lines).map (Chunk.ofBlock language filePath lines (Bytes.offsets 0 lines))

end SourceChunks
