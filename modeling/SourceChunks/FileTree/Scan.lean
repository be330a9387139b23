import SourceChunks.FileTree.Access
import SourceChunks.FileTree.Iterator
import SourceChunks.IgnoreList
import SourceChunks.Sha256.Hasher

/-!
# Scanning a directory

A scan goes through a directory, and if it is recursive through the directories below it, and
reports the files whose path from there matches a pattern. What the ignore list names is left out,
and a directory with all below it.
-/

namespace SourceChunks

/-- The file in a directory that holds further patterns to ignore. -/
def ignoreFileName : Bytes := bytes ".chunkr_ignore"

/-- The ignore list of a file, empty if there is no such file. -/
def FileTree.ignoreListAt (t : FileTree) (p : Bytes) : IgnoreList :=
  IgnoreList.parse ((t.read? p).getD [])

/-- The ignore list that every scan starts from: the defaults and the patterns of the ignore
file. -/
def FileTree.scanIgnores (t : FileTree) : IgnoreList :=
  IgnoreList.defaults ++ t.ignoreListAt ignoreFileName

/-- The hash of the file at a path; empty if there is no file. -/
def FileTree.hashAt (t : FileTree) (p : Bytes) : Bytes :=
  match t.fileAt? p with
  | some content => Sha256.fileHexOf content
  | none => []

/-- What a scan looks for. -/
structure ScanOptions where
  /-- The pattern for paths from the scanned directory on. -/
  pattern : Bytes
  /-- Whether to go into directories. -/
  recursive : Bool
  deriving DecidableEq, Repr

/-- A file that a scan found. -/
structure FoundFile where
  /-- Its path. -/
  path : Bytes
  /-- What reading at its path yields; none if the path does not lead to a file. -/
  content : Option Bytes
  deriving DecidableEq, Repr

/-- The number of bytes of a found file; the largest number of 64 bits stands for none. -/
def FoundFile.size (f : FoundFile) : Nat :=
  match f.content with
  | some content => content.length
  | none => UInt64.size - 1

/-- The hash of a found file; empty if its path does not lead to a file. -/
def FoundFile.hash (f : FoundFile) : Bytes := (f.content.map Sha256.fileHexOf).getD []

/-- What a scan has reported so far. -/
structure ScanReport where
  /-- The places of the files, in the order in which they were reported. -/
  places : List Place
  /-- How many files were counted. -/
  count : Nat

/-- Report an entry that is a file whose path matches; the answer is whether it was reported. -/
def DirectoryEntry.visit (pattern : Glob) (e : DirectoryEntry) (places : List Place) :
    List Place × Bool :=
  if e.tree.isDirectory then (places, false)
  else if !pattern.accepts (Path.ofNames e.place) then (places, false)
  else (places ++ [e.place], true)

/-- Visit an entry and count it if it was reported. -/
def ScanReport.visit (pattern : Glob) (r : ScanReport) (e : DirectoryEntry) : ScanReport :=
  let (places, reported) := e.visit pattern r.places
  ⟨places, if reported then r.count + 1 else r.count⟩

/-- Go on with a scan to its end. -/
def DirectoryIterator.scan (ignored : IgnoreList) (pattern : Glob) (it : DirectoryIterator)
    (r : ScanReport) : ScanReport :=
  match _h : it.current? with
  | none => r
  | some e =>
    if ignored.ignores e.name then
      if e.tree.isDirectory then it.disableRecursion.increment.scan ignored pattern r
      else it.increment.scan ignored pattern r
    else it.increment.scan ignored pattern (r.visit pattern e)
termination_by it.remaining
decreasing_by
  · exact remaining_increment_lt (it.current?_disableRecursion.trans _h)
  · exact remaining_increment_lt _h
  · exact remaining_increment_lt _h

/-- What a scan of the directory at a path reports; nothing if it is no directory. -/
def FileTree.scanReport (t : FileTree) (ignored : IgnoreList) (root : Bytes)
    (options : ScanOptions) : ScanReport :=
  match t.find? root with
  | some (.directory es) =>
    (DirectoryIterator.start options.recursive es).scan ignored (Glob.parse options.pattern) ⟨[], 0⟩
  | _ => ⟨[], 0⟩

/-- The file at a place below a path, as a scan finds it. -/
def FileTree.foundAt (t : FileTree) (root : Bytes) (place : Place) : FoundFile :=
  let path := Path.join root (Path.ofNames place)
  ⟨path, t.fileAt? path⟩

/-- The files that a scan of the directory at a path finds. -/
def FileTree.scan (t : FileTree) (ignored : IgnoreList) (root : Bytes) (options : ScanOptions) :
    List FoundFile :=
  (t.scanReport ignored root options).places.map (t.foundAt root)

end SourceChunks
