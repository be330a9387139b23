import SourceChunks.Proofs.Dict
import SourceChunks.Proofs.FileTree.Neighbours

/-!
# The names in a directory

What a directory lists changes with its files: a file that is written, removed or renamed comes and
goes under its own name, and the directory lists all other names as before, be they plain or not.
-/

namespace SourceChunks.FileTree

/-- The directory at a path lists a name. -/
def HasEntry (t : FileTree) (dir n : Bytes) : Prop :=
  ∃ es, t.find? dir = some (.directory es) ∧ n ∈ es.map Prod.fst

namespace Folder

variable {t t' : FileTree} {dir n : Bytes} {place : Place} {names : Set Bytes}

/-- A name is listed if there is something at its place. -/
theorem hasEntry_iff (h : t.Folder dir place names) (n : Bytes) :
    t.HasEntry dir n ↔ (t.get? (place ++ [n])).isSome := by
  obtain ⟨es, hes⟩ := h.directory
  have hfind : t.find? dir = some (.directory es) := by
    rw [find?, h.resolve]
    exact hes
  have hget : t.get? (place ++ [n]) = Entries.get? n es := by
    rw [get?_concat, hes]
    rfl
  rw [hget, Entries.isSome_get?_iff]
  constructor
  · rintro ⟨es', hes', hn⟩
    obtain rfl := FileTree.directory.inj (Option.some.inj (hfind.symm.trans hes'))
    exact hn
  · exact fun hn => ⟨es, hfind, hn⟩

/-- A change under one name is all that changes in the listing. -/
theorem hasEntry_alter (h : t.Folder dir place names) (hn : n ∈ names) (new : Option FileTree)
    (hnew : ∀ es, new ≠ some (.directory es)) (m : Bytes) :
    (t.alter (fun _ => new) (place ++ [n])).HasEntry dir m ↔
      if m = n then new.isSome = true else t.HasEntry dir m := by
  obtain ⟨hfolder, -⟩ := h.read?_alter hn new hnew
  rw [hfolder.hasEntry_iff]
  split
  · next heq =>
    obtain ⟨es, hes⟩ := h.directory
    rw [heq, get?_alter hes]
  · next hne => rw [get?_alter_of_ne hne, h.hasEntry_iff]

/-- A file that was written is listed, and nothing else comes or goes. -/
theorem hasEntry_write (h : t.Folder dir place names) (hn : n ∈ names) {c : Bytes}
    (hwrite : t.write (Path.join dir n) c = .ok t') (m : Bytes) :
    t'.HasEntry dir m ↔ m = n ∨ t.HasEntry dir m := by
  obtain ⟨target, hresolve, -, rfl⟩ := exists_place_of_write hwrite
  obtain rfl : target = place ++ [n] :=
    Option.some.inj (Except.ok.inj (hresolve.symm.trans (h.resolve_join n hn)))
  rw [h.hasEntry_alter hn _ (by simp)]
  by_cases hm : m = n <;> simp [hm]

/-- A file that was removed is not listed any more, and nothing else comes or goes. -/
theorem hasEntry_remove (h : t.Folder dir place names) (hn : n ∈ names) (m : Bytes) :
    (t.remove (Path.join dir n)).HasEntry dir m ↔ m ≠ n ∧ t.HasEntry dir m := by
  rw [h.remove_eq hn]
  split
  · next hnone =>
    have habsent : ¬ t.HasEntry dir n := by
      rw [h.hasEntry_iff, Option.isNone_iff_eq_none.mp hnone]
      exact Bool.false_ne_true
    constructor
    · intro hm
      refine ⟨?_, hm⟩
      rintro rfl
      exact habsent hm
    · exact And.right
  · rw [h.hasEntry_alter hn none (by simp)]
    by_cases hm : m = n <;> simp [hm]

/-- A file that was renamed is listed under its new name only, and nothing else comes or goes. -/
theorem hasEntry_rename (h : t.Folder dir place names) {m : Bytes} (hn : n ∈ names) (hm : m ∈ names)
    (hne : n ≠ m) {c : Bytes} (hread : t.read? (Path.join dir n) = some c)
    (hrename : t.rename (Path.join dir n) (Path.join dir m) = .ok t') (k : Bytes) :
    t'.HasEntry dir k ↔ k = m ∨ k ≠ n ∧ t.HasEntry dir k := by
  obtain ⟨-, rfl⟩ := eq_of_rename_file (h.resolve_join n hn) (h.resolve_join m hm)
    (h.get?_of_read? hn hread) (by simpa using hne) hrename
  -- The file is taken away under the one name and put under the other.
  obtain ⟨hremoved, -⟩ := h.read?_alter hn none (by simp)
  rw [delete, put, hremoved.hasEntry_alter hm _ (by simp), h.hasEntry_alter hn none (by simp)]
  by_cases hkm : k = m <;> by_cases hkn : k = n <;> simp [hkm, hkn]

end Folder

end SourceChunks.FileTree
