import SourceChunks.FileTree.Access

/-!
# Making, removing and moving

Directories are made along a path as far as they are missing. Only files and empty directories can
be removed one by one, and only under a name of their own: a path that ends in dots removes nothing.
-/

namespace SourceChunks.FileTree

/-- How many directories are made at once. -/
def maxMissing : Nat := 1000

/-- Make the directory at a path, unless it is there. The one above it has to be there. -/
def makeDirectory (t : FileTree) (p : Bytes) : Except FileError FileTree := do
  match ← t.resolve p with
  | none => return t
  | some place =>
    match t.get? place with
    | none => return t.put place empty
    | some (.directory _) => return t
    | some (.file _) => .error .exists

/-- Make the directories at some paths one after another, up to the first that cannot be made. -/
def makeEach (t : FileTree) : List Bytes → FileTree × Except FileError Unit
  | [] => (t, .ok ())
  | p :: rest =>
    match t.makeDirectory p with
    | .error e => (t, .error e)
    | .ok t => makeEach t rest

/-- The paths of the directories that are missing on a way, the outermost first, in front of some
others. The names of the way come from the last to the first, and the search ends at a directory
that is there. What dots lead to is not made. -/
def missing (t : FileTree) (start : Bytes) : List Bytes → List Bytes → Except FileError (List Bytes)
  | [], paths => .ok paths
  | name :: outer, paths =>
    let path := start ++ Path.ofNames (name :: outer).reverse
    let paths := if Path.isDots name then paths else path :: paths
    if paths.length > maxMissing then .error .nameTooLong
    else match t.find? (start ++ Path.ofNames outer.reverse) with
      | none => missing t start outer paths
      | some (.directory _) => .ok paths
      | some (.file _) => .error .notADirectory

/-- Make the directory at a path and those on the way to it, as far as they are missing. Those that
were made stay when a later one cannot be made. -/
def makeDirectories (t : FileTree) (p : Bytes) : FileTree × Except FileError Unit :=
  if p.isEmpty then (t, .error .invalidArgument)
  else match t.resolve p, t.find? p with
    | .error .nameTooLong, _ => (t, .error .nameTooLong)
    | _, some (.directory _) => (t, .ok ())
    | _, some (.file _) => (t, .error .notADirectory)
    | _, none =>
      let start := if Path.isAbsolute p then [Bytes.slash] else []
      match t.missing start (Path.names p).reverse [] with
      | .error e => (t, .error e)
      | .ok paths => t.makeEach paths

/-- Remove the file or the empty directory at a path, if there is one. -/
def remove (t : FileTree) (p : Bytes) : FileTree :=
  match t.resolve p with
  | .ok (some place) =>
    match t.get? place with
    | some (.directory (_ :: _)) | none => t
    | some _ => if Path.endsInDots (Path.visible p) then t else t.delete place
  | _ => t

/-- Remove what is at a path with all below it; the answer also has the number of files and
directories that are gone. -/
def removeAll (t : FileTree) (p : Bytes) : FileTree × Nat :=
  match t.resolve p with
  | .ok (some place) =>
    match t.get? place with
    | none => (t, 0)
    | some gone =>
      if Path.endsInDots (Path.visible p) then (t.put place empty, gone.count - 1)
      else (t.delete place, gone.count)
  | _ => (t, 0)

/-- Move a file to another path, in place of the file that may be there. -/
def rename (t : FileTree) (source target : Bytes) : Except FileError FileTree := do
  match ← t.resolve source, ← t.resolve target with
  | some sourcePlace, some targetPlace =>
    match t.get? sourcePlace, t.get? targetPlace with
    | none, _ => .error .notFound
    | some (.file _), some (.directory _) => .error .isADirectory
    | some (.directory _), some (.file _) => .error .notADirectory
    | some (.directory _), some (.directory (_ :: _)) => .error .notEmpty
    | some moved, _ =>
      if sourcePlace = targetPlace then return t
      else return (t.delete sourcePlace).put targetPlace moved
  | _, _ => .error .isADirectory

end SourceChunks.FileTree
