import SourceChunks.Glob
import SourceChunks.Regex

/-!
# The regular expression of a glob

A glob's text is translated byte by byte into the text of a regular expression, with a look ahead
for what a backslash or a star stands before. Bytes that have a meaning in expressions are quoted.
-/

namespace SourceChunks.Glob

/-- A byte that stands for itself in an expression. -/
def quote (b : UInt8) : Bytes := if Regex.isSpecial b then [Bytes.backslash, b] else [b]

/-- The set of the two separators of paths. -/
def separatorText : Bytes := bytes "[/\\\\]"

/-- The expression's text for a glob's. -/
def regexText : Bytes → Bytes
  | [] => []
  | 0x5C :: b :: rest => (if b = Bytes.slash then separatorText else quote b) ++ regexText rest
  | 0x2A :: 0x2A :: 0x2F :: rest => bytes "(.*/)?" ++ regexText rest
  | b :: rest =>
    (if b = 0x2A then bytes ".*"
      else if b = 0x3F then bytes "."
      else if b = Bytes.slash then separatorText
      else quote b) ++ regexText rest

end SourceChunks.Glob
