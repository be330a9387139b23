import SourceChunks.Failure
import SourceChunks.FileTree
import SourceChunks.Path

/-!
# Access by path

To follow a path, each name but the last has to be that of a directory. A slash at the end asks for
a directory. The tree is the directory that one is in: absolute paths and those that climb above it
lead to directories outside of the tree, in which nothing is found.
-/

namespace SourceChunks.FileTree

/-- The number of bytes that a name may have. -/
def maxNameLength : Nat := 255

/-- The number of bytes that a path may have. -/
def maxPathLength : Nat := 4095

/-- A place with what is there, which is known from the way to it. -/
structure Spot (t : FileTree) where
  /-- The place. -/
  place : Place
  /-- What is there, if anything is. -/
  found : Option FileTree
  /-- It is what a look-up finds. -/
  found_eq : found = t.get? place

/-- The spot of a place. -/
def Spot.ofPlace (t : FileTree) (p : Place) : Spot t := ⟨p, t.get? p, rfl⟩

/-- The spot one name further on. -/
def Spot.child {t : FileTree} (s : Spot t) (name : Bytes) : Spot t :=
  ⟨s.place ++ [name], s.found.bind fun found => Entries.get? name found.entries, by
    rw [get?_concat, s.found_eq]⟩

/-- The spot one name back; there is none above the root. -/
def Spot.parent? {t : FileTree} (s : Spot t) : Option (Spot t) :=
  if s.place.isEmpty then none else some (.ofPlace t s.place.dropLast)

/-- The spot that one name leads to from another one. None stands for the directories outside of the
tree. -/
def Spot.step {t : FileTree} (here : Option (Spot t)) (name : Bytes) :
    Except FileError (Option (Spot t)) :=
  match here with
  | none => if Path.isDots name then .ok none else .error .notFound
  | some s =>
    match s.found with
    | none => .error .notFound
    | some (.file _) => .error .notADirectory
    | some (.directory _) =>
      if name = bytes "." then .ok here
      else if name = bytes ".." then .ok s.parent?
      else if name.length ≤ maxNameLength then .ok (some (s.child name))
      else .error .nameTooLong

/-- The place that a path leads to. There may be nothing yet, but the place before is that of a
directory. -/
def resolve (t : FileTree) (p : Bytes) : Except FileError (Option Place) :=
  let p := Path.visible p
  let names := Path.names p ++ if p.getLast? = some Bytes.slash then [bytes "."] else []
  if p.isEmpty then .error .notFound
  else if p.length > maxPathLength then .error .nameTooLong
  else do
    let spot ← names.foldlM Spot.step (if Path.isAbsolute p then none else some (.ofPlace t []))
    return spot.map Spot.place

/-- What a path leads to. -/
def find? (t : FileTree) (p : Bytes) : Option FileTree :=
  match t.resolve p with
  | .ok (some place) => t.get? place
  | .ok none => some empty
  | .error _ => none

/-- Whether a path leads to a directory. -/
def isDirectoryAt (t : FileTree) (p : Bytes) : Bool := (t.find? p).any isDirectory

/-- The content that reading at a path yields; a directory reads as empty. A reader of documents
fails on a directory instead, so nothing is told of documents that are read from one. -/
def read? (t : FileTree) (p : Bytes) : Option Bytes :=
  match t.find? p with
  | some (.file content) => some content
  | some (.directory _) => some []
  | none => none

/-- The content of the file at a path, which must not be a directory. -/
def fileAt? (t : FileTree) (p : Bytes) : Option Bytes :=
  match t.find? p with
  | some (.file content) => some content
  | _ => none

/-- The content that reading at a path yields, which must lead somewhere. -/
def readText (t : FileTree) (p : Bytes) : Except Failure Bytes :=
  match t.read? p with
  | some content => .ok content
  | none => .error (.cannotOpen p)

/-- The paths of all that is below a path, in byte order. Names have one slash between them. -/
def list (t : FileTree) (p : Bytes) : List Bytes :=
  match t.find? p with
  | some (.directory es) =>
    (listing (Path.ofNames (Path.names p)) es).mergeSort fun a b => decide (a ≤ b)
  | _ => []

/-- Write a file at a path, in place of the file that may be there. -/
def write (t : FileTree) (p content : Bytes) : Except FileError FileTree := do
  match ← t.resolve p with
  | none => .error .isADirectory
  | some place =>
    match t.get? place with
    | some (.directory _) => .error .isADirectory
    | _ => return t.put place (.file content)

/-! ## Writing texts -/

/-- How much of a text a disk takes. -/
inductive Taken where
  /-- All of it. -/
  | whole
  /-- Not all of it, and at most so many bytes. What is kept back until the file is closed may get
  lost without notice. -/
  | part (length : Nat) (noticed : Bool)
  deriving DecidableEq, Repr

/-- What is in a file of which a disk took so much of the text. -/
def Taken.left (text : Bytes) : Taken → Bytes
  | .whole => text
  | .part length _ => text.dropLast.take length

/-- Whether it is noticed that something is missing. -/
def Taken.isNoticed : Taken → Bool
  | .whole => false
  | .part _ noticed => noticed

/-- How much a disk takes of a text that is written at a path. -/
abbrev Device := (path text : Bytes) → Taken

/-- A disk that always has room. -/
def Device.roomy : Device := fun _ _ => .whole

/-- What became of a text that was to be written. -/
inductive Written where
  /-- No file can be opened at the path, and nothing has changed. -/
  | unopened
  /-- The document cannot be written out, and its file is empty. -/
  | malformed (files : FileTree)
  /-- The disk did not take all of the text, which was noticed. -/
  | unfinished (files : FileTree)
  /-- The text was written, as far as one can tell. -/
  | finished (files : FileTree)

/-- What a text leaves in a file at a path. A document that cannot be written out has no text. -/
def Device.leaves (device : Device) (p : Bytes) (text : Option Bytes) : Bytes :=
  (text.map fun text => (device p text).left text).getD []

/-- Write a text at a path. The file is opened before it is known whether there is a text and
whether the disk takes it. -/
def writeText (t : FileTree) (device : Device) (p : Bytes) (text : Option Bytes) : Written :=
  match t.write p (device.leaves p text) with
  | .error _ => .unopened
  | .ok t =>
    match text with
    | none => .malformed t
    | some text => if (device p text).isNoticed then .unfinished t else .finished t

end SourceChunks.FileTree
