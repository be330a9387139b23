import SourceChunks.FileTree.Scan
import SourceChunks.Proofs.Dict
import SourceChunks.Proofs.FileTree.Places

/-!
# What a scan finds

A scan leaves directories out while it goes through them, so that what is left out is a matter of
the way that it goes. But a file is found by its place alone: if no name on the way to it is ignored
and its path matches. At each entry the scan owes the files to which that entry and those that
follow lead, and an entry either leads to itself, if it is a file, or to what its entries lead to.
-/

namespace SourceChunks

/-! ## What is to be found -/

/-- No directory lists a name twice. -/
def FileTree.NamesDistinct (t : FileTree) : Prop :=
  ∀ p es, t.get? p = some (.directory es) → (es.map Prod.fst).Nodup

/-- A scan of a directory is to find the file at a place below it. -/
structure FileTree.Selects (t : FileTree) (ignored : IgnoreList) (options : ScanOptions)
    (place : Place) : Prop where
  /-- There is a file. -/
  exists_file : ∃ c, t.get? place = some (.file c)
  /-- It is in the directory itself, unless the scan goes into directories. -/
  depth : options.recursive ∨ place.length = 1
  /-- No name on the way to it is ignored. -/
  not_ignored : ∀ name ∈ place, ¬ ignored.ignores name
  /-- Its path from the directory on matches. -/
  accepts : (Glob.parse options.pattern).accepts (Path.ofNames place)

/-- From an entry one comes to the file at a place, past no name that is ignored. -/
def DirectoryEntry.LeadsTo (ignored : IgnoreList) (recursive : Bool) (e : DirectoryEntry)
    (place : Place) : Prop :=
  ∃ rest c, place = e.place ++ rest ∧ e.tree.get? rest = some (.file c) ∧
    (recursive ∨ rest = []) ∧ ∀ name ∈ e.name :: rest, ¬ ignored.ignores name

variable {ignored : IgnoreList} {recursive : Bool} {pattern : Glob} {place here : Place}
  {e e' : DirectoryEntry} {es : Entries FileTree}

open FileTree

/-- A file has no names that could clash. -/
theorem FileTree.namesDistinct_file (c : Bytes) : (file c).NamesDistinct := by
  intro p es hes
  cases p <;> exact absurd hes nofun

/-- Names are distinct in a directory and below it if they are in it and below each entry. -/
theorem FileTree.namesDistinct_directory_iff : (directory es).NamesDistinct ↔
    (es.map Prod.fst).Nodup ∧ ∀ e ∈ es, e.2.NamesDistinct := by
  constructor
  · intro h
    have hnodup : (es.map Prod.fst).Nodup := h [] es rfl
    refine ⟨hnodup, ?_⟩
    rintro ⟨name, t⟩ hmem p es' hes'
    apply h (name :: p) es'
    rw [get?_directory_cons, (Entries.get?_eq_some_iff hnodup).mpr hmem]
    exact hes'
  · rintro ⟨hnodup, hbelow⟩ p es' hes'
    cases p with
    | nil =>
      obtain rfl := FileTree.directory.inj (Option.some.inj hes')
      exact hnodup
    | cons name rest =>
      rw [get?_directory_cons] at hes'
      obtain ⟨t, ht, hrest⟩ := Option.bind_eq_some_iff.mp hes'
      exact hbelow (name, t) ((Entries.get?_eq_some_iff hnodup).mp ht) rest es' hrest

/-- The entries of a tree with distinct names have distinct names, and so below. -/
theorem FileTree.NamesDistinct.entries {t : FileTree} (h : t.NamesDistinct) :
    (t.entries.map Prod.fst).Nodup ∧ ∀ e ∈ t.entries, e.2.NamesDistinct := by
  cases t with
  | file c => exact ⟨List.nodup_nil, nofun⟩
  | directory es => exact namesDistinct_directory_iff.mp h

/-- The entries listed at a place are those of the folder, each with its parent. -/
theorem FileTree.mem_entriesAt_iff :
    e ∈ entriesAt here es ↔ e.parent = here ∧ (e.name, e.tree) ∈ es := by
  obtain ⟨parent, name, t⟩ := e
  simp only [entriesAt, List.mem_map, DirectoryEntry.mk.injEq, Prod.exists]
  constructor
  · rintro ⟨name, t, hmem, rfl, rfl, rfl⟩
    exact ⟨rfl, hmem⟩
  · rintro ⟨rfl, hmem⟩
    exact ⟨name, t, hmem, rfl, rfl, rfl⟩

/-! ## Where entries lead -/

/-- What is ignored leads nowhere. -/
theorem DirectoryEntry.not_leadsTo_of_ignores (h : ignored.ignores e.name) :
    ¬ e.LeadsTo ignored recursive place := by
  rintro ⟨rest, c, -, -, -, hnames⟩
  exact hnames e.name List.mem_cons_self h

/-- A file leads to itself. -/
theorem DirectoryEntry.leadsTo_file_iff {c : Bytes} (hfile : e.tree = .file c)
    (h : ¬ ignored.ignores e.name) : e.LeadsTo ignored recursive place ↔ place = e.place := by
  constructor
  · rintro ⟨rest, c', rfl, hget, -, -⟩
    cases rest with
    | nil => exact List.append_nil _
    | cons name rest =>
      rw [hfile] at hget
      exact absurd hget nofun
  · rintro rfl
    refine ⟨[], c, (List.append_nil _).symm, ?_, .inr rfl, ?_⟩
    · rw [hfile]
      rfl
    · simpa using h

/-- Without going into directories no directory leads anywhere. -/
theorem DirectoryEntry.not_leadsTo_directory (hdirectory : e.tree = .directory es) :
    ¬ e.LeadsTo ignored false place := by
  rintro ⟨rest, c, -, hget, hrecursive | rfl, -⟩
  · exact absurd hrecursive Bool.false_ne_true
  · rw [hdirectory] at hget
    exact absurd hget (by simp [FileTree.get?])

/-- The entries of a directory lead to what is below it. -/
theorem exists_entriesAt_leadsTo_iff (hnodup : (es.map Prod.fst).Nodup) :
    (∃ e ∈ entriesAt here es, e.LeadsTo ignored recursive place) ↔
      ∃ rest c, place = here ++ rest ∧ (directory es).get? rest = some (.file c) ∧
        (recursive ∨ rest.length = 1) ∧ ∀ name ∈ rest, ¬ ignored.ignores name := by
  constructor
  · rintro ⟨e, hmem, rest, c, rfl, hget, hdepth, hnames⟩
    obtain ⟨rfl, hentry⟩ := mem_entriesAt_iff.mp hmem
    refine ⟨e.name :: rest, c, ?_, ?_, ?_, hnames⟩
    · rw [DirectoryEntry.place, List.append_assoc, List.singleton_append]
    · rw [get?_directory_cons, (Entries.get?_eq_some_iff hnodup).mpr hentry]
      exact hget
    · exact hdepth.imp_right fun hrest => by rw [hrest, List.length_singleton]
  · rintro ⟨rest, c, rfl, hget, hdepth, hnames⟩
    cases rest with
    | nil => exact absurd hget (by simp [FileTree.get?])
    | cons name rest =>
      rw [get?_directory_cons] at hget
      obtain ⟨t, ht, hrest⟩ := Option.bind_eq_some_iff.mp hget
      refine ⟨⟨here, name, t⟩, mem_entriesAt_iff.mpr ⟨rfl, ?_⟩, rest, c, ?_, hrest, ?_, hnames⟩
      · exact (Entries.get?_eq_some_iff hnodup).mp ht
      · rw [DirectoryEntry.place, List.append_assoc, List.singleton_append]
      · exact hdepth.imp_right fun hlength => by simpa using hlength

/-- A directory leads to what its entries lead to. -/
theorem DirectoryEntry.leadsTo_directory_iff (hdirectory : e.tree = .directory es)
    (hnodup : (es.map Prod.fst).Nodup) (h : ¬ ignored.ignores e.name) :
    e.LeadsTo ignored true place ↔
      ∃ e' ∈ entriesAt e.place es, e'.LeadsTo ignored true place := by
  rw [exists_entriesAt_leadsTo_iff hnodup, LeadsTo, hdirectory]
  simp [h]

/-- A scan selects what the entries of the directory lead to, if its path matches. -/
theorem FileTree.selects_iff {options : ScanOptions} (hnodup : (es.map Prod.fst).Nodup) :
    (directory es).Selects ignored options place ↔
      (∃ e ∈ entriesAt [] es, e.LeadsTo ignored options.recursive place) ∧
        (Glob.parse options.pattern).accepts (Path.ofNames place) := by
  rw [exists_entriesAt_leadsTo_iff hnodup]
  constructor
  · rintro ⟨⟨c, hget⟩, hdepth, hnames, haccepts⟩
    exact ⟨⟨place, c, rfl, hget, hdepth, hnames⟩, haccepts⟩
  · rintro ⟨⟨rest, c, rfl, hget, hdepth, hnames⟩, haccepts⟩
    exact ⟨⟨c, hget⟩, hdepth, hnames, haccepts⟩

/-! ## Visits -/

/-- A file is reported and counted if its path matches. -/
theorem ScanReport.visit_file (r : ScanReport) {c : Bytes} (hfile : e.tree = .file c) :
    r.visit pattern e =
      if pattern.accepts (Path.ofNames e.place) then ⟨r.places ++ [e.place], r.count + 1⟩
      else r := by
  simp only [visit, DirectoryEntry.visit, hfile, isDirectory]
  by_cases haccepts : pattern.accepts (Path.ofNames e.place)
  · simp [haccepts]
  · simp [haccepts]

/-- A directory is not reported. -/
theorem ScanReport.visit_directory (r : ScanReport) (hdirectory : e.tree = .directory es) :
    r.visit pattern e = r := by
  simp only [visit, DirectoryEntry.visit, hdirectory, isDirectory]
  rfl

/-! ## Entries side by side -/

/-- None of two entries is on the way to the other one. -/
def DirectoryEntry.Beside (e e' : DirectoryEntry) : Prop :=
  ¬ e.place <+: e'.place ∧ ¬ e'.place <+: e.place

/-- An entry leads to no place that an entry beside it leads to. -/
theorem DirectoryEntry.Beside.not_leadsTo (h : e.Beside e') :
    ¬ e'.LeadsTo ignored recursive e.place := by
  rintro ⟨rest, c, heq, -⟩
  exact h.2 ⟨rest, heq.symm⟩

/-- What is in a directory is beside all that is beside the directory. -/
theorem DirectoryEntry.Beside.of_parent (h : e.Beside e') {inner : DirectoryEntry}
    (hparent : inner.parent = e.place) : inner.Beside e' := by
  have hplace : inner.place = e.place ++ [inner.name] := by rw [place, hparent]
  constructor
  · rintro ⟨rest, hrest⟩
    apply h.1
    exact ⟨[inner.name] ++ rest, by rw [← List.append_assoc, ← hplace, hrest]⟩
  · intro hprefix
    rw [hplace, List.prefix_concat_iff] at hprefix
    rcases hprefix with heq | hprefix
    · exact h.1 ⟨[inner.name], heq.symm⟩
    · exact h.2 hprefix

/-- The entries of a directory are side by side. -/
theorem FileTree.pairwise_entriesAt (hnodup : (es.map Prod.fst).Nodup) (here : Place) :
    (entriesAt here es).Pairwise DirectoryEntry.Beside := by
  refine List.pairwise_map.mpr ((List.pairwise_map.mp hnodup).imp ?_)
  intro e e' hne
  simp only [DirectoryEntry.Beside, DirectoryEntry.place]
  constructor
  · intro hprefix
    simp [List.prefix_append_right_inj, hne] at hprefix
  · intro hprefix
    simp [List.prefix_append_right_inj, Ne.symm hne] at hprefix

namespace DirectoryIterator

variable {it : DirectoryIterator} {rest : List DirectoryEntry} {places : List Place}

/-- An iterator comes to each entry once. -/
structure Sound (it : DirectoryIterator) : Prop where
  /-- The entries that it will come to are side by side. -/
  pairwise : it.upcoming.Pairwise DirectoryEntry.Beside
  /-- Names are distinct in all directories among them. -/
  namesDistinct : ∀ e ∈ it.upcoming, e.tree.NamesDistinct

/-- An iterator starts sound when no two entries of a directory share a name. -/
theorem sound_start (recursive : Bool) (h : (directory es).NamesDistinct) :
    (start recursive es).Sound := by
  obtain ⟨hnodup, hbelow⟩ := namesDistinct_directory_iff.mp h
  refine ⟨pairwise_entriesAt hnodup [], ?_⟩
  intro e he
  exact hbelow _ (mem_entriesAt_iff.mp he).2

/-- The next entries are those inside the current one and then the others. -/
theorem upcoming_increment (h : it.upcoming = e :: rest) :
    it.increment.upcoming = it.inside e ++ rest := by
  rw [increment, h]

/-- Going on does not change whether the iterator is recursive. -/
theorem recursive_increment (it : DirectoryIterator) : it.increment.recursive = it.recursive := by
  unfold increment
  split <;> rfl

/-- After going on, the next entry is to be entered exactly if the iterator is recursive. -/
theorem pending_increment (h : it.upcoming = e :: rest) :
    it.increment.pending = it.increment.recursive := by
  rw [increment, h]

/-- Leaving a directory out keeps an iterator sound. -/
theorem Sound.disableRecursion (h : it.Sound) : it.disableRecursion.Sound :=
  ⟨h.pairwise, h.namesDistinct⟩

/-- What is in an entry does not come a second time further on. -/
theorem Sound.increment (h : it.Sound) : it.increment.Sound := by
  cases hupcoming : it.upcoming with
  | nil =>
    have hsame : it.increment = it := by rw [DirectoryIterator.increment, hupcoming]
    rw [hsame]
    exact h
  | cons e rest =>
    obtain ⟨hpairwise, hdistinct⟩ := h
    rw [hupcoming] at hpairwise hdistinct
    obtain ⟨hbeside, hrest⟩ := List.pairwise_cons.mp hpairwise
    obtain ⟨hnodup, hbelow⟩ := (hdistinct e List.mem_cons_self).entries
    have hinside (inner : DirectoryEntry) (hmem : inner ∈ it.inside e) :
        inner.parent = e.place ∧ inner.tree.NamesDistinct := by
      unfold inside at hmem
      split at hmem
      · obtain ⟨hparent, hentry⟩ := mem_entriesAt_iff.mp hmem
        exact ⟨hparent, hbelow _ hentry⟩
      · exact absurd hmem List.not_mem_nil
    constructor
    · rw [upcoming_increment hupcoming]
      refine List.pairwise_append.mpr ⟨?_, hrest, ?_⟩
      · unfold inside
        split
        · exact pairwise_entriesAt hnodup e.place
        · exact List.Pairwise.nil
      · intro inner hinner e' he'
        exact (hbeside e' he').of_parent (hinside inner hinner).1
    · intro inner hmem
      rw [upcoming_increment hupcoming] at hmem
      rcases List.mem_append.mp hmem with hnew | hold
      · exact (hinside inner hnew).2
      · exact hdistinct inner (List.mem_cons_of_mem e hold)

/-! ## What a scan owes -/

/-- Some entry that the iterator will come to leads to the place. -/
def Owes (ignored : IgnoreList) (it : DirectoryIterator) (place : Place) : Prop :=
  ∃ e ∈ it.upcoming, e.LeadsTo ignored it.recursive place

/-- What a scan owes comes from the current entry or from a later one. -/
theorem owes_iff (h : it.upcoming = e :: rest) : it.Owes ignored place ↔
    e.LeadsTo ignored it.recursive place ∨ ∃ e' ∈ rest, e'.LeadsTo ignored it.recursive place := by
  rw [Owes, h]
  exact List.exists_mem_cons_iff ..

/-- After going on a scan owes what comes from inside the current entry or from a later one. -/
theorem owes_increment_iff (h : it.upcoming = e :: rest) : it.increment.Owes ignored place ↔
    (∃ e' ∈ it.inside e, e'.LeadsTo ignored it.recursive place) ∨
      ∃ e' ∈ rest, e'.LeadsTo ignored it.recursive place := by
  simp only [Owes, upcoming_increment h, recursive_increment, List.mem_append, or_and_right,
    exists_or]

/-- An iterator finds nothing in a file. -/
theorem inside_file {c : Bytes} (hfile : e.tree = .file c) : it.inside e = [] := by
  rw [inside, hfile]
  exact ite_self []

/-- An entry that is ignored is left out with all that is below it. -/
theorem owes_increment_of_ignores (h : it.upcoming = e :: rest) (hinside : it.inside e = [])
    (hignores : ignored.ignores e.name) :
    it.increment.Owes ignored place ↔ it.Owes ignored place := by
  rw [owes_increment_iff h, owes_iff h, hinside]
  simp [DirectoryEntry.not_leadsTo_of_ignores hignores]

/-- Instead of a directory a scan owes what is in it. -/
theorem owes_increment_of_directory (h : it.upcoming = e :: rest)
    (hpending : it.pending = it.recursive) (hdirectory : e.tree = .directory es)
    (hnodup : (es.map Prod.fst).Nodup) (hignores : ¬ ignored.ignores e.name) :
    it.increment.Owes ignored place ↔ it.Owes ignored place := by
  rw [owes_increment_iff h, owes_iff h, inside, hpending, hdirectory]
  cases it.recursive with
  | true =>
    rw [DirectoryEntry.leadsTo_directory_iff hdirectory hnodup hignores]
    rfl
  | false => simp [DirectoryEntry.not_leadsTo_directory hdirectory]

/-- A file comes to what a scan owes after it. -/
theorem owes_iff_of_file (h : it.upcoming = e :: rest) {c : Bytes} (hfile : e.tree = .file c)
    (hignores : ¬ ignored.ignores e.name) :
    it.Owes ignored place ↔ place = e.place ∨ it.increment.Owes ignored place := by
  rw [owes_increment_iff h, owes_iff h, inside_file hfile,
    DirectoryEntry.leadsTo_file_iff hfile hignores]
  simp

/-- After a file a scan does not owe it again. -/
theorem Sound.not_owes_increment (hsound : it.Sound) (h : it.upcoming = e :: rest) {c : Bytes}
    (hfile : e.tree = .file c) : ¬ it.increment.Owes ignored e.place := by
  have hpairwise := hsound.pairwise
  rw [h] at hpairwise
  rw [owes_increment_iff h, inside_file hfile]
  rintro (⟨e', hmem, -⟩ | ⟨e', hmem, hleads⟩)
  · exact absurd hmem List.not_mem_nil
  · exact (List.rel_of_pairwise_cons hpairwise hmem).not_leadsTo hleads

/-! ## The scan -/

/-- The places are those that a scan owes and whose path matches, each once. -/
structure Finds (ignored : IgnoreList) (pattern : Glob) (it : DirectoryIterator)
    (places : List Place) : Prop where
  /-- No place comes twice. -/
  nodup : places.Nodup
  /-- They are the places that the scan owes. -/
  mem_iff : ∀ place,
    place ∈ places ↔ it.Owes ignored place ∧ pattern.accepts (Path.ofNames place)

/-- At the end a scan finds nothing. -/
theorem finds_nil (h : it.current? = none) : it.Finds ignored pattern [] := by
  refine ⟨List.nodup_nil, fun place => iff_of_false List.not_mem_nil ?_⟩
  rintro ⟨⟨e, hmem, -⟩, -⟩
  rw [List.head?_eq_none_iff.mp h] at hmem
  exact absurd hmem List.not_mem_nil

/-- Where no more is owed than later on, no more is found. -/
theorem Finds.of_owes_iff {next : DirectoryIterator} (hfinds : next.Finds ignored pattern places)
    (h : ∀ place, next.Owes ignored place ↔ it.Owes ignored place) :
    it.Finds ignored pattern places :=
  ⟨hfinds.nodup, fun place => by rw [← h, hfinds.mem_iff]⟩

/-- A file that is visited is found if its path matches. -/
theorem Finds.of_file (hsound : it.Sound) (h : it.upcoming = e :: rest) {c : Bytes}
    (hfile : e.tree = .file c) (hignores : ¬ ignored.ignores e.name)
    (hfinds : it.increment.Finds ignored pattern places) :
    it.Finds ignored pattern
      (if pattern.accepts (Path.ofNames e.place) then e.place :: places else places) := by
  split
  · next haccepts =>
    constructor
    · refine List.nodup_cons.mpr ⟨fun hmem => ?_, hfinds.nodup⟩
      exact hsound.not_owes_increment h hfile ((hfinds.mem_iff e.place).mp hmem).1
    · intro place
      rw [List.mem_cons, hfinds.mem_iff, owes_iff_of_file h hfile hignores]
      constructor
      · rintro (rfl | ⟨howes, hplace⟩)
        · exact ⟨.inl rfl, haccepts⟩
        · exact ⟨.inr howes, hplace⟩
      · rintro ⟨rfl | howes, hplace⟩
        · exact .inl rfl
        · exact .inr ⟨howes, hplace⟩
  · next haccepts =>
    refine ⟨hfinds.nodup, fun place => ?_⟩
    rw [hfinds.mem_iff, owes_iff_of_file h hfile hignores]
    constructor
    · rintro ⟨howes, hplace⟩
      exact ⟨.inr howes, hplace⟩
    · rintro ⟨rfl | howes, hplace⟩
      · exact absurd hplace haccepts
      · exact ⟨howes, hplace⟩

/-- At the end a scan reports what it had found. -/
theorem scan_of_none {r : ScanReport} (h : it.current? = none) : it.scan ignored pattern r = r := by
  rw [DirectoryIterator.scan]
  split
  · rfl
  · next heq => exact absurd (heq.symm.trans h) (Option.some_ne_none _)

/-- What a scan does with an entry. -/
theorem scan_of_some {r : ScanReport} (h : it.current? = some e) : it.scan ignored pattern r =
    if ignored.ignores e.name then
      if e.tree.isDirectory then it.disableRecursion.increment.scan ignored pattern r
      else it.increment.scan ignored pattern r
    else it.increment.scan ignored pattern (r.visit pattern e) := by
  rw [DirectoryIterator.scan]
  split
  · next heq => exact absurd (h.symm.trans heq) (Option.some_ne_none e)
  · next heq =>
    obtain rfl := Option.some.inj (h.symm.trans heq)
    rfl

/-- To the end of an iteration a scan reports what it owes, and counts what it reports. -/
theorem exists_scan (ignored : IgnoreList) (pattern : Glob) (hsound : it.Sound)
    (hpending : it.pending = it.recursive) (r : ScanReport) :
    ∃ places, it.Finds ignored pattern places ∧
      it.scan ignored pattern r = ⟨r.places ++ places, r.count + places.length⟩ := by
  induction it, r using DirectoryIterator.scan.induct ignored pattern with
  | case1 it r hend =>
    refine ⟨[], finds_nil hend, ?_⟩
    rw [scan_of_none hend, List.append_nil, List.length_nil, Nat.add_zero]
  | case2 it r e hcurrent hignores hdirectory ih =>
    obtain ⟨rest, hupcoming⟩ := List.head?_eq_some_iff.mp hcurrent
    have hskipped : it.disableRecursion.upcoming = e :: rest := hupcoming
    obtain ⟨places, hfinds, hscan⟩ :=
      ih hsound.disableRecursion.increment (pending_increment hskipped)
    refine ⟨places, hfinds.of_owes_iff fun place => ?_, ?_⟩
    · exact owes_increment_of_ignores hskipped (if_neg Bool.false_ne_true) hignores
    · rw [scan_of_some hcurrent, if_pos hignores, if_pos hdirectory, hscan]
  | case3 it r e hcurrent hignores hfile ih =>
    obtain ⟨rest, hupcoming⟩ := List.head?_eq_some_iff.mp hcurrent
    obtain ⟨places, hfinds, hscan⟩ := ih hsound.increment (pending_increment hupcoming)
    refine ⟨places, hfinds.of_owes_iff fun place => ?_, ?_⟩
    · cases htree : e.tree with
      | file c => exact owes_increment_of_ignores hupcoming (inside_file htree) hignores
      | directory es => exact absurd (by rw [htree]; rfl) hfile
    · rw [scan_of_some hcurrent, if_pos hignores, if_neg hfile, hscan]
  | case4 it r e hcurrent hignores ih =>
    obtain ⟨rest, hupcoming⟩ := List.head?_eq_some_iff.mp hcurrent
    obtain ⟨places, hfinds, hscan⟩ := ih hsound.increment (pending_increment hupcoming)
    rw [scan_of_some hcurrent, if_neg hignores, hscan]
    cases htree : e.tree with
    | file c =>
      refine ⟨_, hfinds.of_file hsound hupcoming htree hignores, ?_⟩
      rw [ScanReport.visit_file _ htree]
      split
      · simp only [List.append_assoc, List.singleton_append, List.length_cons]
        congr 1
        omega
      · rfl
    | directory es =>
      have hnodup : (es.map Prod.fst).Nodup := by
        have hdistinct := hsound.namesDistinct e (hupcoming ▸ List.mem_cons_self)
        rw [htree] at hdistinct
        exact (namesDistinct_directory_iff.mp hdistinct).1
      refine ⟨places, hfinds.of_owes_iff fun place => ?_, ?_⟩
      · exact owes_increment_of_directory hupcoming hpending htree hnodup hignores
      · rw [ScanReport.visit_directory _ htree]

end DirectoryIterator

/-- A scan of a directory whose names are distinct, in whatever order it lists them, reports each
file that it selects once and nothing else, and counts what it reports. -/
theorem FileTree.scan_finds_selected {t : FileTree} {root : Bytes}
    (hroot : t.find? root = some (.directory es)) (hdistinct : (directory es).NamesDistinct)
    (ignored : IgnoreList) (options : ScanOptions) :
    ∃ places : List Place, places.Nodup ∧
      (∀ place, place ∈ places ↔ (directory es).Selects ignored options place) ∧
      t.scan ignored root options = places.map (t.foundAt root) ∧
      (t.scanReport ignored root options).count = places.length := by
  obtain ⟨hnodup, -⟩ := namesDistinct_directory_iff.mp hdistinct
  have hsound : (DirectoryIterator.start options.recursive es).Sound :=
    DirectoryIterator.sound_start options.recursive hdistinct
  obtain ⟨places, hfinds, hscan⟩ :=
    DirectoryIterator.exists_scan ignored (Glob.parse options.pattern) hsound rfl ⟨[], 0⟩
  have hreport : t.scanReport ignored root options = ⟨places, places.length⟩ := by
    rw [scanReport, hroot]
    simp only [hscan, List.nil_append, Nat.zero_add]
  refine ⟨places, hfinds.nodup, ?_, ?_, ?_⟩
  · intro place
    rw [hfinds.mem_iff, selects_iff hnodup]
    rfl
  · rw [scan, hreport]
  · rw [hreport]

/-- The file below a directory that is ignored is not found, the other one is. -/
theorem FileTree.scan_finds_selected_nested :
    let es : Entries FileTree :=
      [(bytes "src", .directory [(bytes "a.py", .file [])]),
        (bytes ".git", .directory [(bytes "b.py", .file [])])]
    let t : FileTree := .directory [(bytes "d", .directory es)]
    let ignored := IgnoreList.ofTexts [bytes ".git"]
    let options : ScanOptions := ⟨bytes "*.py", true⟩
    t.find? (bytes "d") = some (.directory es) ∧ (directory es).NamesDistinct ∧
      ∃ places : List Place, places.Nodup ∧ [bytes "src", bytes "a.py"] ∈ places ∧
        [bytes ".git", bytes "b.py"] ∉ places ∧
        t.scan ignored (bytes "d") options = places.map (t.foundAt (bytes "d")) ∧
        (t.scanReport ignored (bytes "d") options).count = places.length := by
  intro es t ignored options
  have hroot : t.find? (bytes "d") = some (.directory es) := by rfl
  have hsingle (name : Bytes) : (directory [(name, file [])]).NamesDistinct :=
    namesDistinct_directory_iff.mpr ⟨List.nodup_singleton name, by simp [namesDistinct_file]⟩
  have hdistinct : (directory es).NamesDistinct :=
    namesDistinct_directory_iff.mpr ⟨by decide, by simp [es, hsingle]⟩
  obtain ⟨places, hnodup, hmem, hscan⟩ := scan_finds_selected hroot hdistinct ignored options
  refine ⟨hroot, hdistinct, places, hnodup, ?_, ?_, hscan⟩
  · rw [hmem]
    exact ⟨⟨[], rfl⟩, .inl rfl, by decide, by decide⟩
  · rw [hmem]
    intro h
    exact h.not_ignored (bytes ".git") (by decide) (by decide)

end SourceChunks
