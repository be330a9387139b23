import SourceChunks.Chunk.Parser
import SourceChunks.Failure

/-!
# Resources

What a pool hands out: parsers, buffers of bytes, lists of chunks, and things that carry a tag. A
resource is known by its serial number. Before it goes back to the pool it is reset, so that it does
not bring the traces of one use into the next.
-/

namespace SourceChunks

/-- A buffer of a fixed number of bytes, all zero at first. -/
structure ByteBuffer where
  /-- The bytes that were written with their positions, the last one first. -/
  written : List (Nat × UInt8)
  deriving DecidableEq, Repr

namespace ByteBuffer

/-- The number of bytes of a buffer. -/
def capacity : Nat := 1024 * 1024

/-- How many bytes at the start of a buffer a reset makes zero. -/
def resetWindow : Nat := 1024

/-- A buffer of zeros. -/
def zeros : ByteBuffer := ⟨[]⟩

/-- The byte at a position. -/
def peek (b : ByteBuffer) (i : Nat) : UInt8 :=
  ((b.written.find? fun w => w.1 == i).map Prod.snd).getD 0

/-- Write a byte at a position. -/
def poke (b : ByteBuffer) (i : Nat) (v : UInt8) : ByteBuffer :=
  ⟨(i, v) :: b.written.filter fun w => w.1 != i⟩

/-- Make the bytes at the start zero; the others keep what was written. -/
def reset (b : ByteBuffer) : ByteBuffer := ⟨b.written.filter fun w => resetWindow ≤ w.1⟩

end ByteBuffer

/-- What a resource is. -/
inductive ResourceBody where
  /-- A parser of a language. -/
  | parser (parser : Parser)
  /-- A buffer of bytes. -/
  | byteBuffer (buffer : ByteBuffer)
  /-- A list of chunks. -/
  | chunkList (chunks : List Chunk)
  /-- A thing that carries a tag and counts how often it was reset. -/
  | tagged (tag : Bytes) (resets : Nat)
  deriving DecidableEq

namespace ResourceBody

/-- Clear what one use leaves behind. -/
def reset : ResourceBody → ResourceBody
  | .parser p => .parser p.reset
  | .byteBuffer b => .byteBuffer b.reset
  | .chunkList _ => .chunkList []
  | .tagged tag resets => .tagged tag (resets + 1)

/-- The parser of a resource that is one. -/
def parser? : ResourceBody → Option Parser
  | .parser p => some p
  | _ => none

/-- The buffer of a resource that is one. -/
def buffer? : ResourceBody → Option ByteBuffer
  | .byteBuffer b => some b
  | _ => none

/-- The chunks of a resource that is a list of them. -/
def chunks? : ResourceBody → Option (List Chunk)
  | .chunkList chunks => some chunks
  | _ => none

end ResourceBody

/-- A thing that a pool hands out. -/
structure Resource where
  /-- The number that no other resource of the pool has. -/
  serial : Nat
  /-- The type it was created for. -/
  type : Bytes
  /-- What it is. -/
  body : ResourceBody
  deriving DecidableEq

/-- The resource after one use, ready for the next. -/
def Resource.reset (r : Resource) : Resource := { r with body := r.body.reset }

/-- A way to make what a resource of a type is; it may fail or make nothing. It is told the serial
number, so it can do another thing each time. -/
abbrev ResourceFactory := Nat → Bytes → Except Failure (Option ResourceBody)

namespace ResourceFactory

/-- What comes before the language in the type of a parser. -/
def parserPrefix : Bytes := bytes "parser:"

/-- The type of the parsers of a language. -/
def parserType (language : Bytes) : Bytes := parserPrefix ++ language

/-- Make parsers, given how to make one for a language. -/
def parsers (make : Nat → Bytes → Except Failure (Option ResourceBody)) : ResourceFactory :=
  fun serial type => make serial (type.drop parserPrefix.length)

/-- Make the parser of a language. -/
def parserOf (language : Bytes) : Except Failure (Option ResourceBody) :=
  (Language.named language).map fun l => some (.parser (.new l))

/-- Make buffers of zeros. -/
def byteBuffers : ResourceFactory := fun _ _ => .ok (some (.byteBuffer .zeros))

/-- Make empty lists of chunks. -/
def chunkLists : ResourceFactory := fun _ _ => .ok (some (.chunkList []))

/-- Make things that carry a tag; with an empty tag, make nothing. -/
def tagged (tag : Bytes) : ResourceFactory := fun _ _ =>
  .ok (if tag.isEmpty then none else some (.tagged tag 0))

end ResourceFactory

end SourceChunks
