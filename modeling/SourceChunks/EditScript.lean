import SourceChunks.Bytes.Line
import SourceChunks.EditScript.Search

/-!
# Edit scripts between texts

An edit script lists, from the first line to the last, ranges of lines that two texts share and
ranges of lines of the old text that give way to lines of the new one. Lines that the texts share
at the beginning and at the end are set aside, and a shortest script is searched for between them.
If that needs more edits than are searched for, all lines between them are replaced.
-/

namespace SourceChunks

/-- What becomes of a range of old lines. -/
inductive LineOp.Kind where
  | equal
  | replace
  | delete
  | insert
  deriving DecidableEq, Repr

/-- A range of old lines and the range of new lines in their place. Lines are counted from zero, and
a range ends before its end. -/
structure LineOp where
  /-- What becomes of the old lines. -/
  kind : LineOp.Kind
  /-- The first old line. -/
  oldBegin : Nat
  /-- The line after the last old line. -/
  oldEnd : Nat
  /-- The first new line. -/
  newBegin : Nat
  /-- The line after the last new line. -/
  newEnd : Nat
  deriving DecidableEq, Repr

/-- The kind of an edit that deletes and inserts so many lines. -/
def LineOp.Kind.ofEdit (deleted inserted : Nat) : LineOp.Kind :=
  if 0 < deleted ∧ 0 < inserted then .replace else if 0 < deleted then .delete else .insert

namespace EditScript

/-- Ranges that are left out because they hold no line at all. -/
def dropEmpty (ops : List LineOp) : List LineOp :=
  ops.filter fun op => op.oldBegin ≠ op.oldEnd ∨ op.newBegin ≠ op.newEnd

/-- The number of elements with which two lists begin alike. -/
def commonLength {α : Type} [DecidableEq α] : List α → List α → Nat
  | a :: as, b :: bs => if a = b then commonLength as bs + 1 else 0
  | _, _ => 0

/-- The operation of a run of steps that begins at the given lines. -/
def opOfRun (i j : Nat) (run : List Step) : LineOp :=
  let kept := run.count .keep
  let deleted := run.count .delete
  let inserted := run.count .insert
  ⟨if kept = 0 then .ofEdit deleted inserted else .equal, i, i + kept + deleted, j,
    j + kept + inserted⟩

/-- The operations of successive runs of steps, the first of which begins at the given lines. -/
def opsOfRuns : (i j : Nat) → List (List Step) → List LineOp
  | _, _, [] => []
  | i, j, run :: rest =>
    let op := opOfRun i j run
    op :: opsOfRuns op.oldEnd op.newEnd rest

/-- The operations of a script that begins at the given lines: steps that keep lines are taken
together, and so are steps that do not. -/
def opsOfSteps (i j : Nat) (steps : List Step) : List LineOp :=
  opsOfRuns i j (steps.splitBy fun s t => (s == .keep) == (t == .keep))

/-- The greatest number of deleted and inserted lines that is searched for. -/
def editLimit : Nat := 2000

/-- The operations that turn one list of lines into another. -/
def ofLines (old new : List Bytes) : List LineOp :=
  let front := commonLength old new
  let old' := old.drop front
  let new' := new.drop front
  let back := commonLength old'.reverse new'.reverse
  let middleOld := old'.take (old'.length - back)
  let middleNew := new'.take (new'.length - back)
  let oldStop := front + middleOld.length
  let newStop := front + middleNew.length
  let middle := match search? editLimit middleOld.toArray middleNew.toArray with
    | some (.script steps) => opsOfSteps front front steps
    | _ => [⟨.ofEdit middleOld.length middleNew.length, front, oldStop, front, newStop⟩]
  dropEmpty <|
    ⟨.equal, 0, front, 0, front⟩ :: middle ++ [⟨.equal, oldStop, old.length, newStop, new.length⟩]

/-- The operations that turn one text into another. -/
def ofTexts (old new : Bytes) : List LineOp := ofLines (Bytes.lines old) (Bytes.lines new)

end EditScript

end SourceChunks
