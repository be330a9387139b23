import SourceChunks.Proofs.FileTree.Folder

/-!
# Files side by side

What becomes of the files of a directory when one of them is written, renamed or removed, and the
operation may fail: under other plain names nothing changes, or at most something is lost with a
directory that is removed. Nothing has to be known of the directory but that its path has no zero
byte, which would hide the names.
-/

namespace SourceChunks.FileTree

variable {t t' : FileTree} {dir n m : Bytes}

/-- What reading yields depends on what is found. -/
theorem read?_congr {p p' : Bytes} (h : t.find? p = t'.find? p') : t.read? p = t'.read? p' := by
  rw [read?, read?, h]

/-- A file that is found reads as its content. -/
theorem read?_of_find?_file {p c : Bytes} (h : t.find? p = some (.file c)) :
    t.read? p = some c := by
  rw [read?, h]

/-- Where nothing is found nothing is read. -/
theorem read?_of_find?_none {p : Bytes} (h : t.find? p = none) : t.read? p = none := by
  rw [read?, h]

/-- A directory stays one if directories stay. -/
theorem SameDirectories.isDirectoryAt (h : SameDirectories t t') {p : Bytes}
    (hp : t.isDirectoryAt p) : t'.isDirectoryAt p := by
  obtain ⟨es, hfind⟩ := isDirectoryAt_iff.mp hp
  rw [isDirectoryAt_iff]
  cases hresolve : t.resolve p with
  | error e =>
    unfold find? at hfind
    rw [hresolve] at hfind
    exact absurd hfind nofun
  | ok found =>
    rw [find?, h.resolve hresolve]
    cases found with
    | none => exact ⟨[], rfl⟩
    | some place =>
      rw [find?, hresolve] at hfind
      exact (h place).mp ⟨es, hfind⟩

/-- Two names that lead somewhere lead there from the same place. -/
theorem exists_place_of_resolve_join (hzero : 0 ∉ dir) (hn : Path.Plain n) (hm : Path.Plain m)
    {found found' : Option Place} (h : t.resolve (Path.join dir n) = .ok found)
    (h' : t.resolve (Path.join dir m) = .ok found') :
    ∃ place, t.HasDirectory place ∧ found = some (place ++ [n]) ∧ found' = some (place ++ [m]) := by
  obtain ⟨s, hs, hplace, hfound, -⟩ := exists_spot_of_resolve_join hzero hn h
  obtain ⟨s', hs', -, hfound', -⟩ := exists_spot_of_resolve_join hzero hm h'
  have heq : s = s' := Option.some.inj (Except.ok.inj (hs.symm.trans hs'))
  exact ⟨s.place, hplace, hfound, heq ▸ hfound'⟩

/-- Where a name leads somewhere from a path, there is a directory at the path. -/
theorem isDirectoryAt_of_resolve_join (hzero : 0 ∉ dir) (hdir : dir ≠ []) (hn : Path.Plain n)
    {found : Option Place} (h : t.resolve (Path.join dir n) = .ok found) : t.isDirectoryAt dir := by
  obtain ⟨s, hnames, hplace, -, hdot⟩ := exists_spot_of_resolve_join hzero hn h
  have hvisible := Path.visible_of_notMem hzero
  have hlength : dir.length ≤ maxPathLength := by
    obtain ⟨-, hlength, -⟩ := resolve_eq_ok_iff.mp h
    have hjoin : dir.length ≤ (Path.join dir n).length := by
      rw [hn.join_eq]
      split <;> simp
    rw [hn.visible_join hzero] at hlength
    omega
  have hsteps : (steps dir).foldlM Spot.step (Spot.start t dir) = .ok (some s) := by
    rw [steps, List.foldlM_append, hnames]
    split
    · exact (bind_pure _).trans hdot
    · rfl
  have hresolve : t.resolve dir = .ok (some s.place) := by
    apply resolve_eq_ok_iff.mpr
    rw [hvisible]
    exact ⟨hdir, hlength, some s, hsteps, rfl⟩
  rw [isDirectoryAt_iff, find?, hresolve]
  exact hplace

/-- Where a file can be read there is a directory for it. -/
theorem isDirectoryAt_of_read? (hzero : 0 ∉ dir) (hdir : dir ≠ []) (hn : Path.Plain n) {c : Bytes}
    (h : t.read? (Path.join dir n) = some c) : t.isDirectoryAt dir := by
  cases hresolve : t.resolve (Path.join dir n) with
  | error e =>
    unfold read? find? at h
    rw [hresolve] at h
    exact absurd h nofun
  | ok found => exact isDirectoryAt_of_resolve_join hzero hdir hn hresolve

/-- A tree changes under some names of a directory only, and no directory comes or goes. -/
structure ChangesOnly (t t' : FileTree) (dir : Bytes) (names : Set Bytes) : Prop where
  /-- The directories are the same. -/
  sameDirectories : SameDirectories t t'
  /-- Under all other plain names is what was there before. -/
  find?_eq : ∀ n, Path.Plain n → n ∉ names →
    t'.find? (Path.join dir n) = t.find? (Path.join dir n)

namespace ChangesOnly

variable {t'' : FileTree} {names names' : Set Bytes}

/-- A tree that stays as it is changes nothing. -/
theorem refl (t : FileTree) (dir : Bytes) (names : Set Bytes) : ChangesOnly t t dir names :=
  ⟨.refl t, fun _ _ _ => rfl⟩

/-- Two changes to the same names are one change to them. -/
theorem trans (h : ChangesOnly t t' dir names) (h' : ChangesOnly t' t'' dir names) :
    ChangesOnly t t'' dir names :=
  ⟨h.sameDirectories.trans h'.sameDirectories,
    fun n hn hmem => (h'.find?_eq n hn hmem).trans (h.find?_eq n hn hmem)⟩

/-- A change to some names is a change to more names. -/
theorem mono (h : ChangesOnly t t' dir names) (hnames : names ⊆ names') :
    ChangesOnly t t' dir names' :=
  ⟨h.sameDirectories, fun n hn hmem => h.find?_eq n hn fun hmem' => hmem (hnames hmem')⟩

end ChangesOnly

/-- When what is under a name changes and neither was a directory nor becomes one, the change is
seen under this name only. -/
theorem changesOnly_alter (hzero : 0 ∉ dir) (hn : Path.Plain n) {place : Place}
    (hresolve : t.resolve (Path.join dir n) = .ok (some place)) (hfile : ¬ t.HasDirectory place)
    (new : Option FileTree) (hnew : ∀ es, new ≠ some (.directory es)) :
    ChangesOnly t (t.alter (fun _ => new) place) dir {n} ∧
      (t.alter (fun _ => new) place).find? (Path.join dir n) = new := by
  have hnonempty : place ≠ [] := by
    obtain ⟨s, -, -, heq, -⟩ := exists_spot_of_resolve_join hzero hn hresolve
    rw [Option.some.inj heq]
    simp
  have hsame := sameDirectories_alter hnonempty (fun _ => hnew) hfile
  refine ⟨⟨hsame, ?_⟩, ?_⟩
  · intro m hm hne
    apply hsame.find?_eq
    intro place' hresolve'
    obtain ⟨here, -, hplace, hplace'⟩ := exists_place_of_resolve_join hzero hn hm hresolve hresolve'
    rw [Option.some.inj hplace, Option.some.inj hplace']
    exact get?_alter_of_ne hne t here
  · obtain ⟨s, -, ⟨es, hes⟩, hplace, -⟩ := exists_spot_of_resolve_join hzero hn hresolve
    obtain rfl := Option.some.inj hplace
    rw [find?, hsame.resolve hresolve]
    exact get?_alter hes n

/-- A file that was written is seen under its name only. -/
theorem changesOnly_write (hzero : 0 ∉ dir) (hn : Path.Plain n) {c : Bytes}
    (h : t.write (Path.join dir n) c = .ok t') :
    ChangesOnly t t' dir {n} ∧ t'.find? (Path.join dir n) = some (.file c) := by
  obtain ⟨place, hresolve, hfile, rfl⟩ := exists_place_of_write h
  exact changesOnly_alter hzero hn hresolve hfile (some (.file c)) (by simp)

/-- A file that was written is found at its path. -/
theorem find?_write {p c : Bytes} (h : t.write p c = .ok t') : t'.find? p = some (.file c) := by
  obtain ⟨place, hresolve, hfile, rfl⟩ := exists_place_of_write h
  rcases eq_nil_or_hasDirectory_of_resolve hresolve with rfl | hdirectory
  · -- A tree that is no directory has none, so that there is one file instead of another.
    have hsame : SameDirectories t (t.alter (fun _ => some (.file c)) []) := by
      intro place
      rw [show t.alter (fun _ => some (.file c)) [] = .file c by cases t <;> rfl]
      exact iff_of_false (not_hasDirectory_of_nil hfile place) (not_hasDirectory_file c place)
    rw [find?, hsame.resolve hresolve]
    cases t <;> rfl
  · rcases List.eq_nil_or_concat place with rfl | ⟨outer, name, rfl⟩
    · exact absurd hdirectory hfile
    · rw [List.concat_eq_append] at hresolve hfile hdirectory ⊢
      rw [List.dropLast_concat] at hdirectory
      have hsame := sameDirectories_alter (f := fun _ => some (.file c)) (by simp) (by simp) hfile
      obtain ⟨es, hes⟩ := hdirectory
      rw [find?, hsame.resolve hresolve]
      exact get?_alter hes name

/-- A file that was renamed was put where no directory is. -/
theorem eq_of_rename_file {p q : Bytes} {source target : Place} {c : Bytes}
    (hsource : t.resolve p = .ok (some source)) (htarget : t.resolve q = .ok (some target))
    (hfile : t.get? source = some (.file c)) (hne : source ≠ target) (h : t.rename p q = .ok t') :
    ¬ t.HasDirectory target ∧ t' = (t.delete source).put target (.file c) := by
  unfold rename at h
  rw [hsource, htarget] at h
  simp only [bind, Except.bind, hfile] at h
  cases hfound : t.get? target with
  | none =>
    simp only [hfound, if_neg hne] at h
    refine ⟨?_, (Except.ok.inj h).symm⟩
    rintro ⟨es, hes⟩
    exact absurd (hfound.symm.trans hes) nofun
  | some found =>
    cases found with
    | file c' =>
      simp only [hfound, if_neg hne] at h
      refine ⟨?_, (Except.ok.inj h).symm⟩
      rintro ⟨es, hes⟩
      exact absurd (hfound.symm.trans hes) (by simp)
    | directory es =>
      simp only [hfound] at h
      exact absurd h nofun

/-- A path from which a file is renamed leads somewhere, and so does the path to which it is. -/
theorem exists_resolve_of_rename {p q : Bytes} (h : t.rename p q = .ok t') :
    ∃ source target, t.resolve p = .ok source ∧ t.resolve q = .ok target := by
  unfold rename at h
  cases hsource : t.resolve p with
  | error e =>
    rw [hsource] at h
    exact absurd h nofun
  | ok source =>
    cases htarget : t.resolve q with
    | error e =>
      rw [hsource, htarget] at h
      exact absurd h nofun
    | ok target => exact ⟨source, target, rfl, rfl⟩

/-- A file that was renamed is seen under its new name, and not under the old one. -/
theorem changesOnly_rename (hzero : 0 ∉ dir) (hn : Path.Plain n) (hm : Path.Plain m) (hne : n ≠ m)
    {c : Bytes} (hfind : t.find? (Path.join dir n) = some (.file c))
    (h : t.rename (Path.join dir n) (Path.join dir m) = .ok t') :
    ChangesOnly t t' dir {n, m} ∧ t'.find? (Path.join dir m) = some (.file c) := by
  obtain ⟨source, target, hsource, htarget⟩ := exists_resolve_of_rename h
  obtain ⟨place, -, rfl, rfl⟩ := exists_place_of_resolve_join hzero hn hm hsource htarget
  have hfile : t.get? (place ++ [n]) = some (.file c) := by
    rw [find?, hsource] at hfind
    exact hfind
  have hnotDirectory : ¬ t.HasDirectory (place ++ [n]) := by
    rintro ⟨es, hes⟩
    exact absurd (hfile.symm.trans hes) (by simp)
  have hplaces : place ++ [n] ≠ place ++ [m] := by simpa using hne
  obtain ⟨hnotDirectory', rfl⟩ := eq_of_rename_file hsource htarget hfile hplaces h
  -- The file is taken away under the one name and put under the other.
  obtain ⟨hremoved, -⟩ := changesOnly_alter hzero hn hsource hnotDirectory none (by simp)
  have hremaining : ¬ (t.delete (place ++ [n])).HasDirectory (place ++ [m]) :=
    fun hdir => hnotDirectory' ((hremoved.sameDirectories _).mpr hdir)
  obtain ⟨hput, hfound⟩ := changesOnly_alter hzero hm (hremoved.sameDirectories.resolve htarget)
    hremaining (some (.file c)) (by simp)
  exact ⟨(hremoved.mono fun _ => Or.inl).trans (hput.mono fun _ => Or.inr), hfound⟩

/-- Under other names than one that is removed there is what was there before or nothing any more.
-/
theorem find?_remove_of_ne (hzero : 0 ∉ dir) (hn : Path.Plain n) (hm : Path.Plain m) (hne : m ≠ n) :
    (t.remove (Path.join dir n)).find? (Path.join dir m) = t.find? (Path.join dir m) ∨
      (t.remove (Path.join dir n)).find? (Path.join dir m) = none := by
  have hdelete (place : Place) (hresolve : t.resolve (Path.join dir n) = .ok (some place)) :
      (t.delete place).find? (Path.join dir m) = t.find? (Path.join dir m) ∨
        (t.delete place).find? (Path.join dir m) = none := by
    cases hresolve' : (t.delete place).resolve (Path.join dir m) with
    | error e =>
      rw [find?, hresolve']
      exact Or.inr rfl
    | ok found =>
      have hold := (directoriesWithin_delete t place).resolve hresolve'
      obtain ⟨here, -, hplace, rfl⟩ := exists_place_of_resolve_join hzero hn hm hresolve hold
      rw [find?, find?, hresolve', hold]
      refine Or.inl ?_
      rw [Option.some.inj hplace]
      exact get?_alter_of_ne hne t here
  rw [remove]
  split
  · next place hresolve =>
    split
    · exact Or.inl rfl
    · exact Or.inl rfl
    · split
      · exact Or.inl rfl
      · exact hdelete place hresolve
  · exact Or.inl rfl

end SourceChunks.FileTree
