import SourceChunks.Bytes.Line

/-!
# Paths

A path is a text of names with slashes between them. Two names have a meaning of their own: one dot
is the directory itself, and two dots are the one above.
-/

namespace SourceChunks.Path

/-- The part of a path after its last slash. -/
def fileName (p : Bytes) : Bytes := (p.reverse.takeWhile (· != Bytes.slash)).reverse

/-- Whether a name is one or two dots. -/
def isDots (name : Bytes) : Bool := name == bytes "." || name == bytes ".."

/-- The last dot of the file name with what follows it. A dot at the start of a name begins no
extension. -/
def extension (p : Bytes) : Bytes :=
  let name := fileName p
  if isDots name then []
  else
    let tail := (name.reverse.takeWhile (· != 0x2E)).reverse
    if tail.length + 1 < name.length then 0x2E :: tail else []

/-- A path that starts with a slash does not depend on the directory that one is in. -/
def isAbsolute (p : Bytes) : Bool := p.head? == some Bytes.slash

/-- A path as seen from a directory. -/
def join (directory p : Bytes) : Bytes :=
  if isAbsolute p then p
  else if directory.isEmpty ∨ directory.getLast? = some Bytes.slash then directory ++ p
  else directory ++ Bytes.slash :: p

/-- The names of a path. -/
def names (p : Bytes) : List Bytes := (Bytes.pieces Bytes.slash p).filter fun name => !name.isEmpty

/-- Names with slashes between them. -/
def ofNames (names : List Bytes) : Bytes := [Bytes.slash].intercalate names

/-- Whether the last name of a path is one or two dots. -/
def endsInDots (p : Bytes) : Bool := (names p).getLast?.any isDots

/-- What the file system sees of a path, which is what comes before the first zero byte. -/
def visible (p : Bytes) : Bytes := p.takeWhile (· != 0)

end SourceChunks.Path
