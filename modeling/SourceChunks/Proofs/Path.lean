import Mathlib.Data.List.TakeWhile
import SourceChunks.Path

/-!
# Names in paths

A name without slashes that is joined to a path is the last name of the joined path, after those of
the path itself.
-/

namespace SourceChunks.Path

/-- A name that stands for itself in a path. -/
structure Plain (name : Bytes) : Prop where
  /-- It has a byte. -/
  ne_nil : name ≠ []
  /-- It is one name and not several. -/
  slash_notMem : Bytes.slash ∉ name
  /-- All of it is seen. -/
  zero_notMem : 0 ∉ name
  /-- It does not mean a directory that is known otherwise. -/
  not_isDots : ¬ isDots name

/-- A text without the byte that ends pieces is one piece, unless it is empty. -/
theorem pieces_of_notMem {stop : UInt8} {t : Bytes} (h : stop ∉ t) (hne : t ≠ []) :
    Bytes.pieces stop t = [t] := by
  induction t with
  | nil => exact absurd rfl hne
  | cons b rest ih =>
    rw [List.mem_cons, not_or] at h
    rw [Bytes.pieces, if_neg (Ne.symm h.1)]
    by_cases hrest : rest = []
    · rw [hrest, Bytes.pieces]
    · rw [ih h.2 hrest]

/-- A piece ends at its stop whatever comes after it. -/
theorem pieces_append_cons (stop : UInt8) (s t : Bytes) :
    Bytes.pieces stop (s ++ stop :: t) =
      Bytes.pieces stop (s ++ [stop]) ++ Bytes.pieces stop t := by
  induction s with
  | nil => simp [Bytes.pieces]
  | cons b rest ih =>
    have hne : Bytes.pieces stop (rest ++ [stop]) ≠ [] := by
      rw [ne_eq, Bytes.pieces_eq_nil_iff]
      simp
    simp only [List.cons_append, Bytes.pieces, ih]
    split
    · rfl
    · cases hpieces : Bytes.pieces stop (rest ++ [stop]) with
      | nil => exact absurd hpieces hne
      | cons piece more => rfl

/-- A stop at the end of a text ends its last piece or adds an empty one. -/
theorem pieces_append_stop (stop : UInt8) (s : Bytes) :
    Bytes.pieces stop (s ++ [stop]) = Bytes.pieces stop s ∨
      Bytes.pieces stop (s ++ [stop]) = Bytes.pieces stop s ++ [[]] := by
  induction s with
  | nil => simp [Bytes.pieces]
  | cons b rest ih =>
    simp only [List.cons_append, Bytes.pieces]
    split
    · rcases ih with ih | ih <;> simp [ih]
    · rcases ih with ih | ih
      · simp [ih]
      · rw [ih]
        cases Bytes.pieces stop rest <;> simp

/-- The names of two paths with a slash between them are those of both. -/
theorem names_append_cons (s t : Bytes) : names (s ++ Bytes.slash :: t) = names s ++ names t := by
  simp only [names]
  rw [pieces_append_cons, List.filter_append]
  rcases pieces_append_stop Bytes.slash s with h | h <;> simp [h]

/-- A plain name is the one name of its path. -/
theorem Plain.names_eq {name : Bytes} (h : Plain name) : names name = [name] := by
  rw [names, pieces_of_notMem h.slash_notMem h.ne_nil]
  simpa using h.ne_nil

/-- A plain name is no absolute path. -/
theorem Plain.not_isAbsolute {name : Bytes} (h : Plain name) : ¬ isAbsolute name := by
  intro habs
  have hhead : name.head? = some Bytes.slash := by simpa [isAbsolute] using habs
  exact h.slash_notMem (List.mem_of_head? hhead)

/-- A joined path is the directory and the name, with a slash between them unless there is one. -/
theorem Plain.join_eq {name : Bytes} (h : Plain name) (directory : Bytes) :
    join directory name =
      if directory.isEmpty ∨ directory.getLast? = some Bytes.slash then directory ++ name
      else directory ++ Bytes.slash :: name := by
  rw [join, if_neg h.not_isAbsolute]

/-- The name that is joined to a path is the last of its names. -/
theorem Plain.names_join {name : Bytes} (h : Plain name) (directory : Bytes) :
    names (join directory name) = names directory ++ [name] := by
  rw [h.join_eq]
  split
  · next hend =>
    rcases hend with hempty | hlast
    · rw [List.isEmpty_iff.mp hempty, List.nil_append, h.names_eq]
      rfl
    · obtain ⟨start, rfl⟩ := List.getLast?_eq_some_iff.mp hlast
      rw [List.append_assoc, List.singleton_append, names_append_cons,
        names_append_cons, h.names_eq]
      simp [names, Bytes.pieces]
  · rw [names_append_cons, h.names_eq]

/-- A joined path does not end with a slash. -/
theorem Plain.getLast?_join {name : Bytes} (h : Plain name) (directory : Bytes) :
    (join directory name).getLast? ≠ some Bytes.slash := by
  obtain ⟨b, hb⟩ := Option.isSome_iff_exists.mp (List.getLast?_isSome.mpr h.ne_nil)
  have hne : b ≠ Bytes.slash := fun heq => h.slash_notMem (heq ▸ List.mem_of_getLast? hb)
  rw [h.join_eq]
  split
  · rw [List.getLast?_append, hb]
    simpa using hne
  · rw [List.getLast?_append, List.getLast?_cons, hb]
    simpa using hne

/-- A joined path is absolute if the directory is. -/
theorem Plain.isAbsolute_join {name : Bytes} (h : Plain name) (directory : Bytes) :
    isAbsolute (join directory name) = isAbsolute directory := by
  cases directory with
  | nil =>
    have habs : isAbsolute name = false := by simpa using h.not_isAbsolute
    simp only [h.join_eq, List.isEmpty_nil, true_or, if_true, List.nil_append, habs]
    rfl
  | cons b rest =>
    rw [h.join_eq]
    split <;> rfl

/-- A path without a zero byte is seen as a whole. -/
theorem visible_of_notMem {p : Bytes} (h : 0 ∉ p) : visible p = p := by
  rw [visible, List.takeWhile_eq_self_iff]
  intro b hb
  simpa using fun heq : b = 0 => h (heq ▸ hb)

/-- Nothing is seen of what is joined to a path with a zero byte. -/
theorem Plain.visible_join_of_mem {name : Bytes} (h : Plain name) {directory : Bytes}
    (hzero : 0 ∈ directory) : visible (join directory name) = visible directory := by
  have hcut (t : Bytes) : visible (directory ++ t) = visible directory := by
    induction directory with
    | nil => exact absurd hzero List.not_mem_nil
    | cons b rest ih =>
      by_cases hb : b = 0
      · simp [visible, hb]
      · have hrest : 0 ∈ rest := (List.mem_cons.mp hzero).resolve_left (Ne.symm hb)
        simp only [visible, List.cons_append] at ih ⊢
        rw [List.takeWhile_cons_of_pos (by simpa using hb),
          List.takeWhile_cons_of_pos (by simpa using hb), ih hrest]
  rw [h.join_eq]
  split <;> exact hcut _

/-- All is seen of a name that is joined to a path without a zero byte. -/
theorem Plain.visible_join {name : Bytes} (h : Plain name) {directory : Bytes}
    (hzero : 0 ∉ directory) : visible (join directory name) = join directory name := by
  refine visible_of_notMem ?_
  rw [h.join_eq]
  split
  · exact fun hmem => (List.mem_append.mp hmem).elim hzero h.zero_notMem
  · intro hmem
    rcases List.mem_append.mp hmem with hmem | hmem
    · exact hzero hmem
    · exact (List.mem_cons.mp hmem).elim (by decide) h.zero_notMem

/-- A joined path does not end in dots. -/
theorem Plain.not_endsInDots_join {name : Bytes} (h : Plain name) (directory : Bytes) :
    ¬ endsInDots (join directory name) := by
  rw [endsInDots, h.names_join, List.getLast?_concat]
  exact h.not_isDots

end SourceChunks.Path
