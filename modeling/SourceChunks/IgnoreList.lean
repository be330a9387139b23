import SourceChunks.Bytes.Line
import SourceChunks.Glob

/-!
# Ignore lists

An ignore list has patterns for the names of files and directories that are left out of a scan. It
is written as a text with one pattern on a line; empty lines and lines that start with a number sign
say nothing.
-/

namespace SourceChunks

/-- Patterns for names to leave out. -/
abbrev IgnoreList := List Glob

namespace IgnoreList

/-- The list of pattern texts. -/
def ofTexts (patterns : List Bytes) : IgnoreList := patterns.map Glob.parse

/-- The space, the tab and the carriage return, which do not count at the ends of a line. -/
def isMargin (b : UInt8) : Bool := b == 0x20 || b == 0x09 || b == 0x0D

/-- The patterns of a text. -/
def parse (t : Bytes) : IgnoreList :=
  let lines := (Bytes.lines t).map (Bytes.trim isMargin)
  ofTexts (lines.filter fun l => !l.isEmpty && l.head? != some 0x23)

/-- Names that hold no sources: version control, build output, caches and object files. -/
def defaults : IgnoreList :=
  ofTexts
    [bytes ".git", bytes ".svn", bytes ".hg", bytes "build", bytes "dist", bytes "node_modules",
      bytes "__pycache__", bytes "target", bytes ".chunkr_cache", bytes ".DS_Store",
      bytes "Thumbs.db", bytes "*.o", bytes "*.obj", bytes "*.so", bytes "*.dylib", bytes "*.dll",
      bytes "*.exe"]

/-- Whether a name is left out. -/
def ignores (l : IgnoreList) (name : Bytes) : Bool := l.any fun g => g.accepts name

end IgnoreList

end SourceChunks
