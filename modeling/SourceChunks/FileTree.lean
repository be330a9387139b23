import SourceChunks.Dict

/-!
# File trees

The files that the library works on, as a value: a file has a content, and a directory has named
entries, listed by increasing name. Places in a tree are given by the names on the way to them.
-/

namespace SourceChunks

/-- A file or a directory with all below it. -/
inductive FileTree where
  | file (content : Bytes)
  | directory (entries : List (Bytes × FileTree))
  deriving Inhabited, Repr

/-- The names on the way from the root of a tree to a place in it. -/
abbrev Place := List Bytes

namespace FileTree

/-- A directory without entries. -/
def empty : FileTree := .directory []

/-- Whether a tree is a directory. -/
def isDirectory : FileTree → Bool
  | .directory _ => true
  | .file _ => false

/-- The entries of a directory; a file has none. -/
def entries : FileTree → Entries FileTree
  | .directory es => es
  | .file _ => []

/-- The tree at a place. -/
def get? : FileTree → Place → Option FileTree
  | t, [] => some t
  | .file _, _ :: _ => none
  | .directory es, name :: rest =>
    match Entries.get? name es with
    | some t => get? t rest
    | none => none

/-- One name further on there is what the directory has under that name. -/
theorem get?_concat (t : FileTree) (p : Place) (name : Bytes) :
    t.get? (p ++ [name]) = (t.get? p).bind fun found => Entries.get? name found.entries := by
  induction p generalizing t with
  | nil =>
    cases t with
    | file c => rfl
    | directory es =>
      simp only [List.nil_append, get?, Option.bind_some, entries]
      split <;> simp_all
  | cons first rest ih =>
    cases t with
    | file c => rfl
    | directory es =>
      simp only [List.cons_append, get?]
      split
      · exact ih _
      · rfl

/-- Change what is at a place, given what is there; none means that nothing is. The change has no
effect if there is no directory to hold the place, and the root cannot be removed. -/
def alter (f : Option FileTree → Option FileTree) : FileTree → Place → FileTree
  | t, [] => (f (some t)).getD t
  | .file c, _ :: _ => .file c
  | .directory es, [name] =>
    match f (Entries.get? name es) with
    | some t => .directory (Entries.insert name t es)
    | none => .directory (Entries.erase name es)
  | .directory es, name :: rest =>
    match Entries.get? name es with
    | some t => .directory (Entries.insert name (alter f t rest) es)
    | none => .directory es

/-- Put a tree at a place. -/
def put (t : FileTree) (p : Place) (new : FileTree) : FileTree := t.alter (fun _ => some new) p

/-- Remove what is at a place. -/
def delete (t : FileTree) (p : Place) : FileTree := t.alter (fun _ => none) p

mutual

/-- The number of files and directories in a tree, itself included. -/
def count : FileTree → Nat
  | .file _ => 1
  | .directory es => countEntries es + 1

/-- The number of files and directories in some entries. -/
def countEntries : List (Bytes × FileTree) → Nat
  | [] => 0
  | (_, t) :: rest => count t + countEntries rest

end

/-- The paths of all entries below a path, those of directories with a slash at the end. -/
def listing (path : Bytes) : List (Bytes × FileTree) → List Bytes
  | [] => []
  | (name, .file _) :: rest => (path ++ Bytes.slash :: name) :: listing path rest
  | (name, .directory es) :: rest =>
    let here := path ++ Bytes.slash :: name
    (here ++ [Bytes.slash]) :: (listing here es ++ listing path rest)

end FileTree

end SourceChunks
