import SourceChunks.Bytes

/-!
# Glob patterns

A glob is a list of tokens, each of which stands for some texts; it matches a text that can be cut
into pieces, one for each token in order. Matching goes through the tokens once and keeps, for each
place of the text, whether the tokens so far can match exactly the text before it, so it never
backtracks.
-/

namespace SourceChunks

/-- A token of a glob. -/
inductive GlobToken where
  /-- The byte itself. -/
  | literal (b : UInt8)
  /-- A slash or a backslash. -/
  | separator
  /-- Any one byte but a line break. -/
  | anyByte
  /-- Any run of bytes without a line break. -/
  | anyRun
  /-- Nothing, or any run without a line break followed by a slash. -/
  | anyDirectories
  deriving DecidableEq, Repr

/-- A pattern for texts. -/
abbrev Glob := List GlobToken

namespace Glob

/-- The pattern that a text describes. A backslash takes away the special meaning of the byte after
it, except that an escaped slash is a separator still; at the end it stands for itself. -/
def parse : Bytes → Glob
  | [] => []
  | 0x5C :: b :: rest => (if b = Bytes.slash then .separator else .literal b) :: parse rest
  | 0x2A :: 0x2A :: 0x2F :: rest => .anyDirectories :: parse rest
  | b :: rest =>
    (if b = 0x2A then .anyRun
      else if b = 0x3F then .anyByte
      else if b = Bytes.slash then .separator
      else .literal b) :: parse rest

/-- A text whose pattern has no special meaning but that of its slashes: each star, question mark
and backslash is escaped. -/
def escape (t : Bytes) : Bytes :=
  t.flatMap fun b => if b = 0x2A ∨ b = 0x3F ∨ b = Bytes.backslash then [Bytes.backslash, b] else [b]

/-- A line feed or a carriage return. -/
def isLineBreak (b : UInt8) : Bool := b == 0x0A || b == 0x0D

/-- The places of a text that a match has reached: one truth value for each place, from before the
first byte to after the last. -/
abbrev Places := List Bool

/-- The places one fitting byte on. -/
def afterByte (fits : UInt8 → Bool) (t : Bytes) (places : Places) : Places :=
  false :: List.zipWith (fun b reached => reached && fits b) t places

/-- The places after a run without a line break, which may be empty. `running` says whether such a
run has come up to the first place. -/
def afterRun : (running : Bool) → Bytes → Places → Places
  | _, _, [] => []
  | running, [], reached :: _ => [running || reached]
  | running, b :: t, reached :: places =>
    let here := running || reached
    here :: afterRun (here && !isLineBreak b) t places

/-- The places after a token. -/
def afterToken (t : Bytes) (places : Places) : GlobToken → Places
  | .literal c => afterByte (· == c) t places
  | .separator => afterByte (fun b => b == Bytes.slash || b == Bytes.backslash) t places
  | .anyByte => afterByte (fun b => !isLineBreak b) t places
  | .anyRun => afterRun false t places
  | .anyDirectories =>
    List.zipWith (· || ·) places (afterByte (· == Bytes.slash) t (afterRun false t places))

/-- Whether a pattern matches the whole of a text. -/
def accepts (g : Glob) (t : Bytes) : Bool :=
  (g.foldl (afterToken t) (true :: t.map fun _ => false)).getLastD false

end Glob

end SourceChunks
