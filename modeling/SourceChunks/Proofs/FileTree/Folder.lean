import Mathlib.Data.Set.Basic
import SourceChunks.FileTree.Edit
import SourceChunks.Proofs.FileTree.Places
import SourceChunks.Proofs.Path

/-!
# The files of a directory

Files whose names are plain can be told apart in their directory: what is written, removed or
renamed under one name is not seen under another one. As no directory comes or goes, the directory
stays one whose files can be written.
-/

namespace SourceChunks.FileTree

/-- A file can be written under a name in the directory at a path. -/
def CanWrite (t : FileTree) (dir name : Bytes) : Prop :=
  t.isDirectoryAt dir ∧ ∃ t', t.write (Path.join dir name) [] = .ok t'

instance (t : FileTree) (dir name : Bytes) : Decidable (t.CanWrite dir name) :=
  decidable_of_iff (t.isDirectoryAt dir ∧ (t.write (Path.join dir name) []).isOk) <| by
    apply and_congr_right
    intro _
    cases t.write (Path.join dir name) [] <;> simp [Except.isOk, Except.toBool]

/-- A directory with names under which it may have files. -/
structure Folder (t : FileTree) (dir : Bytes) (place : Place) (names : Set Bytes) : Prop where
  /-- The path leads to the place. -/
  resolve : t.resolve dir = .ok (some place)
  /-- A directory is there. -/
  directory : t.HasDirectory place
  /-- The names lead on from there. -/
  resolve_join : ∀ n ∈ names, t.resolve (Path.join dir n) = .ok (some (place ++ [n]))
  /-- None of them is that of a directory. -/
  not_hasDirectory : ∀ n ∈ names, ¬ t.HasDirectory (place ++ [n])
  /-- They are names of their own. -/
  not_endsInDots : ∀ n ∈ names, ¬ Path.endsInDots (Path.visible (Path.join dir n))

/-! ## Where files can be written -/

/-- A path is that of a directory when a directory is found there. -/
theorem isDirectoryAt_iff {t : FileTree} {p : Bytes} :
    t.isDirectoryAt p ↔ ∃ es, t.find? p = some (.directory es) := by
  unfold isDirectoryAt
  cases t.find? p with
  | none => simp
  | some found => cases found <;> simp [isDirectory]

/-- A directory that is there need not be made. -/
theorem makeDirectories_of_isDirectoryAt {t : FileTree} {p : Bytes} (h : t.isDirectoryAt p) :
    t.makeDirectories p = (t, .ok ()) := by
  obtain ⟨es, hfind⟩ := isDirectoryAt_iff.mp h
  have hempty : ¬ p.isEmpty := by
    intro hnil
    rw [List.isEmpty_iff.mp hnil] at hfind
    exact absurd hfind nofun
  rw [makeDirectories, if_neg hempty]
  cases hresolve : t.resolve p with
  | error e =>
    unfold find? at hfind
    rw [hresolve] at hfind
    exact absurd hfind nofun
  | ok place => rw [hfind]

/-- A path at which a file can be written leads to a place without a directory. -/
theorem exists_place_of_write {t t' : FileTree} {p c : Bytes} (h : t.write p c = .ok t') :
    ∃ place, t.resolve p = .ok (some place) ∧ ¬ t.HasDirectory place ∧
      t' = t.alter (fun _ => some (.file c)) place := by
  unfold write at h
  cases hresolve : t.resolve p with
  | error e =>
    rw [hresolve] at h
    exact absurd h nofun
  | ok found =>
    rw [hresolve] at h
    cases found with
    | none => exact absurd h nofun
    | some place =>
      simp only [bind, Except.bind] at h
      split at h
      · exact absurd h nofun
      · next hfile =>
        refine ⟨place, rfl, ?_, (Except.ok.inj h).symm⟩
        rintro ⟨es, hes⟩
        exact hfile es hes

/-- Names lead into a directory only from a directory. -/
theorem exists_spot_of_step {t : FileTree} {here : Option (Spot t)} {name : Bytes}
    (hname : ¬ Path.isDots name) {next : Option (Spot t)} (h : Spot.step here name = .ok next) :
    ∃ s, here = some s ∧ t.HasDirectory s.place ∧ next.map Spot.place = some (s.place ++ [name]) ∧
      Spot.step here (bytes ".") = .ok here := by
  cases here with
  | none =>
    simp only [Spot.step, if_neg hname] at h
    cases h
  | some s =>
    have hdot : name ≠ bytes "." := by
      rintro rfl
      exact hname (by decide)
    have hdots : name ≠ bytes ".." := by
      rintro rfl
      exact hname (by decide)
    simp only [Spot.step, if_neg hdot, if_neg hdots] at h ⊢
    split at h
    · cases h
    · cases h
    · next es hfound =>
      split at h
      · obtain rfl := Except.ok.inj h
        exact ⟨s, rfl, ⟨es, by rw [← s.found_eq, hfound]⟩, rfl, if_pos trivial⟩
      · cases h

/-- A zero byte in the path of a directory would hide the names in it. -/
theorem CanWrite.notMem_zero {t : FileTree} {dir name : Bytes} (h : t.CanWrite dir name)
    (hname : Path.Plain name) : 0 ∉ dir := by
  obtain ⟨hdirectory, t', hwrite⟩ := h
  obtain ⟨es, hfind⟩ := isDirectoryAt_iff.mp hdirectory
  obtain ⟨found, hresolve, hfile, -⟩ := exists_place_of_write hwrite
  intro hmem
  have hsame : t.resolve (Path.join dir name) = t.resolve dir := by
    unfold FileTree.resolve
    rw [hname.visible_join_of_mem hmem]
  rw [hsame] at hresolve
  rw [find?, hresolve] at hfind
  exact hfile ⟨es, hfind⟩

/-- A path at which something is found leads to the spot that its names lead to, unless a dot leads
on from there. -/
theorem resolve_of_foldlM_names {t found : FileTree} {p : Bytes} (hp : Path.visible p = p)
    (hfind : t.find? p = some found) {s : Spot t}
    (hnames : (Path.names p).foldlM Spot.step (Spot.start t p) = .ok (some s))
    (hdot : Spot.step (some s) (bytes ".") = .ok (some s)) : t.resolve p = .ok (some s.place) := by
  cases hresolve : t.resolve p with
  | error e =>
    unfold find? at hfind
    rw [hresolve] at hfind
    exact absurd hfind nofun
  | ok place =>
    obtain ⟨-, -, spot, hsteps, rfl⟩ := resolve_eq_ok_iff.mp hresolve
    rw [hp, steps] at hsteps
    have hspot : spot = some s := by
      split at hsteps
      · obtain ⟨middle, hmiddle, hlast⟩ := foldlM_step_concat hsteps
        obtain rfl := Except.ok.inj (hnames.symm.trans hmiddle)
        exact Except.ok.inj (hlast.symm.trans hdot)
      · rw [List.append_nil] at hsteps
        exact Except.ok.inj (hsteps.symm.trans hnames)
    rw [hspot, Option.map_some]

/-- A path with a plain name at its end leads to that name in the directory to which the names
before it lead. -/
theorem exists_spot_of_resolve_join {t : FileTree} {dir name : Bytes} {found : Option Place}
    (hzero : 0 ∉ dir) (hname : Path.Plain name) (h : t.resolve (Path.join dir name) = .ok found) :
    ∃ s : Spot t, (Path.names dir).foldlM Spot.step (Spot.start t dir) = .ok (some s) ∧
      t.HasDirectory s.place ∧ found = some (s.place ++ [name]) ∧
      Spot.step (some s) (bytes ".") = .ok (some s) := by
  obtain ⟨-, -, spot, hsteps, rfl⟩ := resolve_eq_ok_iff.mp h
  have hstart : Spot.start t (Path.join dir name) = Spot.start t dir := by
    unfold Spot.start
    rw [hname.isAbsolute_join]
  rw [hname.visible_join hzero, steps, hname.names_join, if_neg (hname.getLast?_join dir),
    List.append_nil, hstart] at hsteps
  -- The name is one step further than the directory.
  obtain ⟨here, hhere, hstep⟩ := foldlM_step_concat hsteps
  obtain ⟨s, rfl, hplace, hnext, hdot⟩ := exists_spot_of_step hname.not_isDots hstep
  exact ⟨s, hhere, hplace, hnext, hdot⟩

/-- Where a file can be written, the path of the directory leads to a place that has the file below
it. -/
theorem CanWrite.exists_place {t : FileTree} {dir name : Bytes} (h : t.CanWrite dir name)
    (hname : Path.Plain name) : ∃ place, t.resolve dir = .ok (some place) ∧
      t.HasDirectory place ∧ t.resolve (Path.join dir name) = .ok (some (place ++ [name])) ∧
      ¬ t.HasDirectory (place ++ [name]) ∧
      ¬ Path.endsInDots (Path.visible (Path.join dir name)) := by
  have hzero : 0 ∉ dir := h.notMem_zero hname
  obtain ⟨hdirectory, t', hwrite⟩ := h
  obtain ⟨es, hfind⟩ := isDirectoryAt_iff.mp hdirectory
  obtain ⟨found, hresolve, hfile, -⟩ := exists_place_of_write hwrite
  obtain ⟨s, hnames, hplace, heq, hdot⟩ := exists_spot_of_resolve_join hzero hname hresolve
  obtain rfl := Option.some.inj heq
  have hdir : t.resolve dir = .ok (some s.place) :=
    resolve_of_foldlM_names (Path.visible_of_notMem hzero) hfind hnames hdot
  refine ⟨s.place, hdir, hplace, hresolve, hfile, ?_⟩
  rw [hname.visible_join hzero]
  exact hname.not_endsInDots_join dir

/-- Where files can be written under plain names, there is a directory for them. -/
theorem exists_folder {t : FileTree} {dir : Bytes} {names : Set Bytes} (hne : names.Nonempty)
    (hplain : ∀ n ∈ names, Path.Plain n) (h : ∀ n ∈ names, t.CanWrite dir n) :
    ∃ place, t.Folder dir place names := by
  obtain ⟨n₀, hn₀⟩ := hne
  obtain ⟨place, hresolve, hplace, -⟩ := (h n₀ hn₀).exists_place (hplain n₀ hn₀)
  have hall (n : Bytes) (hn : n ∈ names) : t.resolve (Path.join dir n) = .ok (some (place ++ [n])) ∧
      ¬ t.HasDirectory (place ++ [n]) ∧
      ¬ Path.endsInDots (Path.visible (Path.join dir n)) := by
    obtain ⟨place', hresolve', -, hrest⟩ := (h n hn).exists_place (hplain n hn)
    obtain rfl : place = place' := by
      rw [hresolve] at hresolve'
      exact Option.some.inj (Except.ok.inj hresolve')
    exact hrest
  exact ⟨place, hresolve, hplace, fun n hn => (hall n hn).1, fun n hn => (hall n hn).2.1,
    fun n hn => (hall n hn).2.2⟩

/-! ## Reading and changing files -/

/-- The content of a file. -/
def content? : FileTree → Option Bytes
  | file c => some c
  | directory _ => none

/-- Where a file can be written, a disk that takes a text has all of it. -/
theorem writeText_of_whole {t t' : FileTree} {device : Device} {p text : Bytes}
    (h : device p text = .whole) (hwrite : t.write p text = .ok t') :
    t.writeText device p (some text) = .finished t' := by
  have hleaves : device.leaves p (some text) = text := by
    rw [Device.leaves, Option.map_some, Option.getD_some, h, Taken.left]
  simp only [writeText, hleaves, hwrite, h, Taken.isNoticed, Bool.false_eq_true, if_false]

namespace Folder

variable {t : FileTree} {dir : Bytes} {place : Place} {names : Set Bytes}

/-- A directory whose files may be written stays one as long as no directory comes or goes. -/
theorem of_sameDirectories (h : t.Folder dir place names) {t' : FileTree}
    (hsame : SameDirectories t t') : t'.Folder dir place names where
  resolve := hsame.resolve h.resolve
  directory := (hsame place).mp h.directory
  resolve_join n hn := hsame.resolve (h.resolve_join n hn)
  not_hasDirectory n hn hdir := h.not_hasDirectory n hn ((hsame _).mpr hdir)
  not_endsInDots := h.not_endsInDots

/-- Reading finds the file that is at its place. -/
theorem read?_eq (h : t.Folder dir place names) {n : Bytes} (hn : n ∈ names) :
    t.read? (Path.join dir n) = (t.get? (place ++ [n])).bind content? := by
  have hfile := h.not_hasDirectory n hn
  rw [read?, find?, h.resolve_join n hn]
  cases hfound : t.get? (place ++ [n]) with
  | none => simp [hfound]
  | some found =>
    cases found with
    | file c => simp [hfound, content?]
    | directory es => exact absurd ⟨es, hfound⟩ hfile

/-- What is read under a name is the content of a file. -/
theorem get?_of_read? (h : t.Folder dir place names) {n : Bytes} (hn : n ∈ names) {c : Bytes}
    (hread : t.read? (Path.join dir n) = some c) : t.get? (place ++ [n]) = some (.file c) := by
  rw [h.read?_eq hn] at hread
  obtain ⟨found, hfound, hc⟩ := Option.bind_eq_some_iff.mp hread
  cases found with
  | file c' => rw [hfound, Option.some.inj hc]
  | directory es => exact absurd hc nofun

/-- What a change under one name leaves to be read: nothing new under other names, and under the
name itself the file that was put there. -/
theorem read?_alter (h : t.Folder dir place names) {n : Bytes} (hn : n ∈ names)
    (new : Option FileTree) (hnew : ∀ es, new ≠ some (.directory es)) :
    (t.alter (fun _ => new) (place ++ [n])).Folder dir place names ∧
      ∀ m ∈ names, (t.alter (fun _ => new) (place ++ [n])).read? (Path.join dir m) =
        if m = n then new.bind content? else t.read? (Path.join dir m) := by
  have hfolder : (t.alter (fun _ => new) (place ++ [n])).Folder dir place names :=
    h.of_sameDirectories (sameDirectories_alter (by simp) (fun _ => hnew) (h.not_hasDirectory n hn))
  refine ⟨hfolder, ?_⟩
  intro m hm
  rw [hfolder.read?_eq hm]
  split
  · next heq =>
    obtain ⟨es, hes⟩ := h.directory
    rw [heq, get?_alter hes]
  · next hne => rw [get?_alter_of_ne hne, h.read?_eq hm]

/-- A file can be written under each name, and is read under this name only. -/
theorem exists_write (h : t.Folder dir place names) {n : Bytes} (hn : n ∈ names) (c : Bytes) :
    ∃ t', t.write (Path.join dir n) c = .ok t' ∧ t'.Folder dir place names ∧
      ∀ m ∈ names, t'.read? (Path.join dir m) =
        if m = n then some c else t.read? (Path.join dir m) := by
  obtain ⟨hfolder, hread⟩ := h.read?_alter hn (some (.file c)) (by simp)
  refine ⟨_, ?_, hfolder, hread⟩
  rw [write, h.resolve_join n hn]
  simp only [bind, Except.bind]
  split
  · next es hes => exact absurd ⟨es, hes⟩ (h.not_hasDirectory n hn)
  · rfl

/-- So can a text, by a disk that takes it. -/
theorem exists_writeText (h : t.Folder dir place names) {n : Bytes} (hn : n ∈ names)
    {device : Device} {text : Bytes} (htakes : device (Path.join dir n) text = .whole) :
    ∃ t', t.writeText device (Path.join dir n) (some text) = .finished t' ∧
      t'.Folder dir place names ∧ ∀ m ∈ names, t'.read? (Path.join dir m) =
        if m = n then some text else t.read? (Path.join dir m) := by
  obtain ⟨t', hwrite, hfolder, hread⟩ := h.exists_write hn text
  exact ⟨t', writeText_of_whole htakes hwrite, hfolder, hread⟩

/-- Under each of the names a file can be written. -/
theorem canWrite (h : t.Folder dir place names) {n : Bytes} (hn : n ∈ names) :
    t.CanWrite dir n := by
  obtain ⟨t', hwrite, -⟩ := h.exists_write hn []
  refine ⟨?_, t', hwrite⟩
  rw [isDirectoryAt_iff, find?, h.resolve]
  exact h.directory

/-- What is removed under a name is a file, if anything is there. -/
theorem remove_eq (h : t.Folder dir place names) {n : Bytes} (hn : n ∈ names) :
    t.remove (Path.join dir n) =
      if (t.get? (place ++ [n])).isNone then t else t.alter (fun _ => none) (place ++ [n]) := by
  rw [remove, h.resolve_join n hn]
  simp only [if_neg (h.not_endsInDots n hn)]
  cases hfound : t.get? (place ++ [n]) with
  | none => rfl
  | some found =>
    cases found with
    | file c => rfl
    | directory es => exact absurd ⟨es, hfound⟩ (h.not_hasDirectory n hn)

/-- After its removal no file is read under a name. -/
theorem read?_remove (h : t.Folder dir place names) {n : Bytes} (hn : n ∈ names) :
    (t.remove (Path.join dir n)).Folder dir place names ∧
      ∀ m ∈ names, (t.remove (Path.join dir n)).read? (Path.join dir m) =
        if m = n then none else t.read? (Path.join dir m) := by
  rw [h.remove_eq hn]
  split
  · next hnone =>
    refine ⟨h, ?_⟩
    intro m hm
    split
    · next heq =>
      rw [heq, h.read?_eq hn, Option.isNone_iff_eq_none.mp hnone]
      rfl
    · rfl
  · exact h.read?_alter hn none (by simp)

/-- A file that is renamed is read under its new name only. -/
theorem exists_rename (h : t.Folder dir place names) {n m : Bytes} (hn : n ∈ names) (hm : m ∈ names)
    (hne : n ≠ m) {c : Bytes} (hread : t.read? (Path.join dir n) = some c) :
    ∃ t', t.rename (Path.join dir n) (Path.join dir m) = .ok t' ∧ t'.Folder dir place names ∧
      ∀ k ∈ names, t'.read? (Path.join dir k) =
        if k = m then some c else if k = n then none else t.read? (Path.join dir k) := by
  have hfile := h.get?_of_read? hn hread
  -- The file is taken away under the one name and put under the other.
  obtain ⟨hremoved, hreadRemoved⟩ := h.read?_alter hn none (by simp)
  obtain ⟨hfolder, hreadPut⟩ := hremoved.read?_alter hm (some (.file c)) (by simp)
  refine ⟨_, ?_, hfolder, fun k hk => by rw [hreadPut k hk, hreadRemoved k hk]; rfl⟩
  have hplaces : place ++ [n] ≠ place ++ [m] := by simpa using hne
  rw [rename, h.resolve_join n hn, h.resolve_join m hm]
  simp only [bind, Except.bind, hfile]
  cases htarget : t.get? (place ++ [m]) with
  | none =>
    simp only [if_neg hplaces]
    rfl
  | some found =>
    cases found with
    | file c' =>
      simp only [if_neg hplaces]
      rfl
    | directory es => exact absurd ⟨es, htarget⟩ (h.not_hasDirectory m hm)

end Folder

end SourceChunks.FileTree
