import SourceChunks.Bytes

/-!
# Regular expressions

A small part of the pattern language of ECMAScript: single bytes, the point, sets, groups, the star
and the question mark. A text is cut into lexical tokens, which are then read into a tree. A text
that uses anything else is refused, so that what is read has the meaning it has in the whole
language. Matching goes through the tree and backtracks: each part is told what has to hold of the
text behind it.
-/

namespace SourceChunks

/-- A set of bytes that stands for any one of them. -/
inductive ByteSet where
  /-- One byte. -/
  | only (b : UInt8)
  /-- Every byte but the line feed and the carriage return. -/
  | noLineBreak
  /-- The listed bytes. -/
  | of (members : Bytes)
  deriving DecidableEq, Repr

/-- Whether a byte is in a set. -/
def ByteSet.has : ByteSet → UInt8 → Bool
  | .only c, b => b == c
  | .noLineBreak, b => !(b == 0x0A || b == 0x0D)
  | .of members, b => members.contains b

/-- A regular expression. -/
inductive Regex where
  /-- The empty text. -/
  | empty
  /-- Any one byte of a set. -/
  | one (set : ByteSet)
  /-- One expression and then the other. -/
  | append (r s : Regex)
  /-- Any number of matches, one after the other. -/
  | star (r : Regex)
  /-- A match or the empty text. -/
  | optional (r : Regex)
  deriving DecidableEq, Repr

namespace Regex

/-! ## Reading -/

/-- A lexical token of an expression's text. -/
inductive Token where
  /-- Any one byte of a set: a byte that stands for itself, the point or a bracketed set. -/
  | one (set : ByteSet)
  /-- The star. -/
  | star
  /-- The question mark. -/
  | question
  /-- The bracket that opens a group. -/
  | opening
  /-- The bracket that closes a group. -/
  | closing
  deriving DecidableEq, Repr

/-- A byte that has a meaning of its own, unless a backslash stands before it. -/
def isSpecial (b : UInt8) : Bool := (bytes "\\^$.|+()[]\x7b\x7d*?").contains b

/-- The token of a byte outside of sets, if it is one by itself. -/
def tokenOfByte (b : UInt8) : Option Token :=
  if b = 0x2E then some (.one .noLineBreak)
  else if b = 0x2A then some .star
  else if b = 0x3F then some .question
  else if b = 0x28 then some .opening
  else if b = 0x29 then some .closing
  else if isSpecial b then none
  else some (.one (.only b))

/-- The lexical tokens of a text. The first argument holds the members so far of the set that one is
inside of. A backslash may stand only before a special byte, which it makes an ordinary one; in a
set all other special bytes are refused, and the hyphen is, which would form a range. -/
def lex : Option Bytes → Bytes → Option (List Token)
  | none, [] => some []
  | some _, [] => none
  | none, 0x5C :: b :: t => if isSpecial b then (lex none t).map (.one (.only b) :: ·) else none
  | none, 0x5B :: t => lex (some []) t
  | none, b :: t => (tokenOfByte b).bind fun token => (lex none t).map (token :: ·)
  | some members, 0x5C :: b :: t => if isSpecial b then lex (some (members ++ [b])) t else none
  | some members, 0x5D :: t => (lex none t).map (.one (.of members) :: ·)
  | some members, b :: t =>
    if isSpecial b ∨ b = 0x2D then none else lex (some (members ++ [b])) t

/-- What has been read of a group: its last part is kept apart as long as a quantifier may still
apply to it. -/
structure Sequence where
  /-- What comes before the last part, or all if no part is kept apart. -/
  before : Regex := .empty
  /-- The last part. -/
  last : Option Regex := none

namespace Sequence

/-- The whole of what has been read. -/
def close (s : Sequence) : Regex :=
  match s.last with
  | none => s.before
  | some r => .append s.before r

/-- The sequence with another part. -/
def add (s : Sequence) (r : Regex) : Sequence := { before := s.close, last := some r }

/-- The sequence with its last part quantified; there is none to quantify at the start of a group
and after a quantifier. -/
def quantify (s : Sequence) (quantifier : Regex → Regex) : Option Sequence :=
  s.last.map fun r => { before := .append s.before (quantifier r) }

end Sequence

/-- The state of the reading: the group that is being read and the groups around it, the innermost
first. -/
structure Reading where
  /-- The group that is being read. -/
  here : Sequence := {}
  /-- The groups around it. -/
  outer : List Sequence := []

namespace Reading

/-- The state after another token. A closing bracket needs a group to close. -/
def step : Reading → Token → Option Reading
  | st, .one set => some { st with here := st.here.add (.one set) }
  | st, .star => (st.here.quantify .star).map fun here => { st with here }
  | st, .question => (st.here.quantify .optional).map fun here => { st with here }
  | st, .opening => some { here := {}, outer := st.here :: st.outer }
  | ⟨here, around :: outer⟩, .closing => some { here := around.add here.close, outer }
  | ⟨_, []⟩, .closing => none

/-- The expression that has been read, if all groups are closed. -/
def finish (st : Reading) : Option Regex :=
  if st.outer.isEmpty then some st.here.close else none

end Reading

/-- The expression that a text describes, if it is well formed. -/
def ofText? (t : Bytes) : Option Regex := do
  let tokens ← lex none t
  let reading ← tokens.foldlM Reading.step {}
  reading.finish

/-! ## Matching -/

/-- Whether rounds of one kind can be followed by what `rest` asks for, with as many of them as
possible and at most `bound`. A round has to take at least one byte. -/
def searchRounds (round : (Bytes → Bool) → Bytes → Bool) (rest : Bytes → Bool) :
    (bound : Nat) → Bytes → Bool
  | 0, t => rest t
  | bound + 1, t =>
    round (fun t' => t'.length < t.length && searchRounds round rest bound t') t || rest t

/-- Whether an expression matches the beginning of a text and what `rest` asks for holds of the
text after it. -/
def search : Regex → (rest : Bytes → Bool) → Bytes → Bool
  | .empty, rest, t => rest t
  | .one _, _, [] => false
  | .one set, rest, b :: t => set.has b && rest t
  | .append r s, rest, t => r.search (s.search rest) t
  | .star r, rest, t => searchRounds r.search rest t.length t
  | .optional r, rest, t => r.search rest t || rest t

/-- Whether an expression matches the whole of a text. -/
def accepts (r : Regex) (t : Bytes) : Bool := r.search List.isEmpty t

end Regex

end SourceChunks
