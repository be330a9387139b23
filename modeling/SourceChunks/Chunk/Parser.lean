import SourceChunks.Chunk.Block

/-!
# Parsers

A parser cuts texts of its language into chunks, one text after another. It keeps the lines of the
text that it works on, and they stay with it until it is given another text or is reset.
-/

namespace SourceChunks

/-- A parser of a language. -/
structure Parser where
  /-- The language. -/
  language : Language
  /-- The lines of the last text. -/
  lines : List Bytes
  /-- Where each of these lines begins in the text. -/
  offsets : List Nat
  deriving DecidableEq, Repr

namespace Parser

/-- A parser that has not been given a text. -/
def new (language : Language) : Parser := ⟨language, [], []⟩

/-- Forget the last text. -/
def reset (p : Parser) : Parser := { p with lines := [], offsets := [] }

/-- Take in the lines of a text in place of those of the last one. -/
def load (p : Parser) (text : Bytes) : Parser :=
  let p := p.reset
  let lines := Bytes.lines text
  { p with lines := p.lines ++ lines, offsets := p.offsets ++ Bytes.offsets 0 lines }

/-- Cut a text into chunks. -/
def chunk (p : Parser) (filePath text : Bytes) : Parser × List Chunk :=
  let p := p.load text
  (p, (blocks p.lines).map (Chunk.ofBlock p.language filePath p.lines p.offsets))

/-- The chunks do not depend on the texts that the parser was given before. -/
theorem snd_chunk (p : Parser) (filePath text : Bytes) :
    (p.chunk filePath text).2 = chunkText p.language filePath text := rfl

/-- A parser keeps its language while it chunks a file. -/
@[simp] theorem language_chunk (p : Parser) (filePath text : Bytes) :
    (p.chunk filePath text).1.language = p.language := rfl

/-- A reset keeps the parser's language. -/
@[simp] theorem language_reset (p : Parser) : p.reset.language = p.language := rfl

end Parser

end SourceChunks
