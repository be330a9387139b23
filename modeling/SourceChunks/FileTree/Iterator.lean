import SourceChunks.FileTree

/-!
# Going through a directory

An iterator comes to the entries of a directory one after another. If it goes into directories, what
is in one comes right after the directory itself, unless the iterator is told there not to go into
it. In which order a directory lists its entries does not matter to it.
-/

namespace SourceChunks

/-- An entry that an iterator comes to. -/
structure DirectoryEntry where
  /-- The names on the way to its directory from the one that the iterator has begun with. -/
  parent : Place
  /-- Its name. -/
  name : Bytes
  /-- What it is. -/
  tree : FileTree

/-- The names on the way to an entry. -/
def DirectoryEntry.place (e : DirectoryEntry) : Place := e.parent ++ [e.name]

/-- The entries of a directory, which is at a place. -/
def FileTree.entriesAt (here : Place) (es : Entries FileTree) : List DirectoryEntry :=
  es.map fun (name, t) => ⟨here, name, t⟩

/-- A way through a directory. -/
structure DirectoryIterator where
  /-- The entry that it is at and those that follow, without what is in directories among them. -/
  upcoming : List DirectoryEntry
  /-- Whether it goes into directories. -/
  recursive : Bool
  /-- Whether it goes into the entry that it is at, if that is a directory. -/
  pending : Bool

namespace DirectoryIterator

/-- At the first entry of a directory. -/
def start (recursive : Bool) (es : Entries FileTree) : DirectoryIterator :=
  ⟨FileTree.entriesAt [] es, recursive, recursive⟩

/-- The entry that an iterator is at; none at the end. -/
def current? (it : DirectoryIterator) : Option DirectoryEntry := it.upcoming.head?

/-- Do not go into the entry that the iterator is at. -/
def disableRecursion (it : DirectoryIterator) : DirectoryIterator := { it with pending := false }

/-- The entries that an iterator finds in the one that it is at. -/
def inside (it : DirectoryIterator) (e : DirectoryEntry) : List DirectoryEntry :=
  if it.pending then FileTree.entriesAt e.place e.tree.entries else []

/-- Go on to the next entry. -/
def increment (it : DirectoryIterator) : DirectoryIterator :=
  match it.upcoming with
  | [] => it
  | e :: rest => { it with upcoming := it.inside e ++ rest, pending := it.recursive }

/-- How many entries an iterator can still come to. -/
def remaining (it : DirectoryIterator) : Nat :=
  FileTree.countEntries (it.upcoming.map fun e => (e.name, e.tree))

/-- The entries listed at a place, taken with their names, are the entries of the folder. -/
theorem map_entriesAt (here : Place) (es : Entries FileTree) :
    (FileTree.entriesAt here es).map (fun e => (e.name, e.tree)) = es := by
  rw [FileTree.entriesAt, List.map_map]
  exact List.map_id es

/-- Entries are counted part by part. -/
theorem countEntries_append (es es' : Entries FileTree) : FileTree.countEntries (es ++ es') =
    FileTree.countEntries es + FileTree.countEntries es' := by
  induction es with
  | nil => exact (Nat.zero_add _).symm
  | cons e rest ih =>
    rw [List.cons_append, FileTree.countEntries, FileTree.countEntries, ih, Nat.add_assoc]

/-- A directory counts more than all that is in it. -/
theorem countEntries_entries_lt (t : FileTree) : FileTree.countEntries t.entries < t.count := by
  cases t with
  | file c => simp [FileTree.entries, FileTree.countEntries, FileTree.count]
  | directory es => simp [FileTree.entries, FileTree.count]

/-- An entry that an iterator has left does not come again. -/
theorem remaining_increment_lt {it : DirectoryIterator} {e : DirectoryEntry}
    (h : it.current? = some e) : it.increment.remaining < it.remaining := by
  obtain ⟨rest, hupcoming⟩ := List.head?_eq_some_iff.mp h
  have hinside := countEntries_entries_lt e.tree
  simp only [remaining, increment, inside, hupcoming, List.map_append, List.map_cons,
    countEntries_append, FileTree.countEntries]
  split
  · rw [map_entriesAt]
    omega
  · rw [List.map_nil, FileTree.countEntries]
    omega

/-- Turning recursion off for the current entry does not move the iterator. -/
theorem current?_disableRecursion (it : DirectoryIterator) :
    it.disableRecursion.current? = it.current? := rfl

end DirectoryIterator

end SourceChunks
