import Mathlib.Data.List.Infix
import SourceChunks.Proofs.Bytes.Marks
import SourceChunks.Proofs.MemoryCache

/-!
# What is dropped with a file

A file is dropped by a pattern for the keys in which its path stands between two colons. The stars
of the pattern stand for one line each. So what is left of the file is what was kept for a query, or
a hash, with a line break in it, and nothing else. What is kept of other files is left unless the
path shows in its key in this way: as the path of another file, or a query, may have colons, its key
can show the path too.
-/

namespace SourceChunks

/-! ## Line breaks -/

/-- Neither a slash nor a backslash breaks a line. -/
theorem Glob.ReadsAs.isLineBreak_eq {b c : UInt8} (h : ReadsAs b c) :
    isLineBreak c = isLineBreak b := by
  rcases h with rfl | ⟨rfl, rfl⟩ <;> rfl

/-- A text that is read byte by byte has as many line breaks. -/
theorem Glob.countP_isLineBreak_eq {s t : Bytes} (h : List.Forall₂ ReadsAs s t) :
    t.countP isLineBreak = s.countP isLineBreak := by
  induction h with
  | nil => rfl
  | cons hb _ ih => rw [List.countP_cons, List.countP_cons, hb.isLineBreak_eq, ih]

/-- A text is on one line when it has no line break. -/
theorem Bytes.onOneLine_iff {t : Bytes} : t.OnOneLine ↔ t.countP Glob.isLineBreak = 0 :=
  List.countP_eq_zero.symm

namespace MemoryCache

/-- The key of what is kept of a file matches the pattern of this file only if what stands behind
the path is on one line: the path in the pattern takes as many line breaks as the path has, and the
stars take none. -/
theorem onOneLine_of_matches_fileKey {l : CacheLevel} {f d : Bytes}
    (h : Glob.Matches (Glob.parse (filePattern f)) (fileKey l f d)) : d.OnOneLine := by
  obtain ⟨start, part, rest, hkey, hstart, hpart, hrest⟩ := matches_filePattern_iff.mp h
  have hcount := congrArg (List.countP Glob.isLineBreak) hkey
  have hname := Bytes.onOneLine_iff.mp (onOneLine_name l)
  have hbreaks := Glob.countP_isLineBreak_eq hpart
  have hcolon : Glob.isLineBreak 0x3A = false := rfl
  rw [Bytes.onOneLine_iff] at hstart hrest ⊢
  simp only [fileKey, List.countP_append, List.countP_cons, List.countP_nil, hcolon,
    Bool.false_eq_true, if_false] at hcount hbreaks
  omega

end MemoryCache

/-! ## Paths between colons -/

/-- A text shows a path where the path stands in it between two colons. There a backslash may stand
for a slash of the path. -/
def Bytes.Shows (t path : Bytes) : Prop :=
  ∃ part, List.Forall₂ Glob.ReadsAs (0x3A :: path ++ [0x3A]) part ∧ part <:+: t

instance (t path : Bytes) : Decidable (t.Shows path) :=
  decidable_of_iff (∃ s ∈ t.tails,
    List.Forall₂ Glob.ReadsAs (0x3A :: path ++ [0x3A]) (s.take (path.length + 2))) <| by
    simp only [List.mem_tails]
    constructor
    · rintro ⟨s, hs, hpart⟩
      exact ⟨_, hpart, List.infix_iff_prefix_suffix.mpr ⟨s, List.take_prefix .., hs⟩⟩
    · rintro ⟨part, hpart, hinfix⟩
      obtain ⟨s, hprefix, hs⟩ := List.infix_iff_prefix_suffix.mp hinfix
      have hlength : part.length = path.length + 2 := by simpa using hpart.length_eq.symm
      refine ⟨s, hs, ?_⟩
      rwa [← hlength, ← List.prefix_iff_eq_take.mp hprefix]

namespace MemoryCache

/-- The names of the caches have no colon. -/
theorem colon_notMem_name (l : CacheLevel) : 0x3A ∉ l.name := by cases l <;> decide

/-- A key that matches the pattern of a file shows its path behind the name of the cache. -/
theorem shows_of_matches_fileKey {l : CacheLevel} {f g d : Bytes}
    (h : Glob.Matches (Glob.parse (filePattern f)) (fileKey l g d)) :
    Bytes.Shows (0x3A :: (g ++ 0x3A :: d)) f := by
  obtain ⟨start, part, rest, hkey, -, hpart, -⟩ := matches_filePattern_iff.mp h
  refine ⟨part, hpart, ?_⟩
  obtain ⟨c, tail, hc, -, rfl⟩ := List.forall₂_cons_left_iff.mp hpart
  obtain rfl : c = 0x3A := hc.resolve_right fun hslash => absurd hslash.1 (by decide)
  rw [List.cons_append] at hkey
  obtain ⟨-, hrest⟩ | ⟨r, -, hrest⟩ :=
    Bytes.eq_or_exists_of_append_cons_eq (colon_notMem_name l) hkey.symm
  · exact ⟨[], rest, by simp [hrest]⟩
  · exact ⟨0x3A :: r, rest, by simp [hrest]⟩

/-! ## Lookups after a file was dropped -/

/-- After a file was invalidated, chunks are found as before unless the pattern of the file accepts
their key. -/
theorem snd_getChunks_invalidateFile (m : MemoryCache) (f g h : Bytes) (now : Int) :
    ((m.invalidateFile f).1.getChunks now g h).2 =
      if (Glob.parse (filePattern f)).accepts (chunksKey g h) then none
      else (m.getChunks now g h).2 := by
  simp only [getChunks, invalidateFile, snd_get_invalidatePattern]
  split <;> rfl

/-- After a file was invalidated, a query is answered as before unless the pattern of the file
accepts its key. -/
theorem snd_getQuery_invalidateFile (m : MemoryCache) (f g q : Bytes) (now : Int) :
    ((m.invalidateFile f).1.getQuery now g q).2 =
      if (Glob.parse (filePattern f)).accepts (queryKey g q) then none
      else (m.getQuery now g q).2 := by
  simp only [getQuery, invalidateFile, snd_get_invalidatePattern]
  split <;> rfl

/-- After a file was dropped nothing of it is found under hashes and queries of one line, whatever
was kept. What was kept under a hash or a query with a line break is found as before. -/
theorem lookups_invalidateFile (m : MemoryCache) (f d : Bytes) (now : Int) :
    ((m.invalidateFile f).1.getChunks now f d).2 =
        (if d.OnOneLine then none else (m.getChunks now f d).2) ∧
      ((m.invalidateFile f).1.getQuery now f d).2 =
        (if d.OnOneLine then none else (m.getQuery now f d).2) := by
  have haccepts (l : CacheLevel) :
      (Glob.parse (filePattern f)).accepts (fileKey l f d) = true ↔ d.OnOneLine := by
    rw [Glob.accepts_iff_matches]
    exact ⟨onOneLine_of_matches_fileKey, matches_filePattern_fileKey l f⟩
  rw [snd_getChunks_invalidateFile, snd_getQuery_invalidateFile, chunksKey_eq, queryKey_eq]
  simp only [haccepts, and_self]

/-- The result of a query of two lines outlives its file. -/
theorem getQuery_invalidateFile_eq_some :
    let m := (new Settings.defaults).putQuery 0 (bytes "a") (bytes "x\ny") [bytes "1"]
    ((m.invalidateFile (bytes "a")).1.getQuery 0 (bytes "a") (bytes "x\ny")).2 =
      some [bytes "1"] := by
  decide +kernel

/-- When a file is dropped, what was kept of another file is found as before under a hash or a query
with which the path of that file does not show the path of the one that is dropped. -/
theorem lookups_invalidateFile_of_not_shows (m : MemoryCache) {f g d : Bytes}
    (hshows : ¬ Bytes.Shows (0x3A :: (g ++ 0x3A :: d)) f) (now : Int) :
    ((m.invalidateFile f).1.getChunks now g d).2 = (m.getChunks now g d).2 ∧
      ((m.invalidateFile f).1.getQuery now g d).2 = (m.getQuery now g d).2 := by
  have haccepts (l : CacheLevel) :
      ¬ (Glob.parse (filePattern f)).accepts (fileKey l g d) = true := by
    rw [Glob.accepts_iff_matches]
    exact fun hmatches => hshows (shows_of_matches_fileKey hmatches)
  rw [snd_getChunks_invalidateFile, snd_getQuery_invalidateFile, chunksKey_eq, queryKey_eq,
    if_neg (haccepts .chunk), if_neg (haccepts .query)]
  exact ⟨rfl, rfl⟩

/-- Wildcards in the path that is dropped stand for themselves, and a query may have colons. -/
theorem lookups_invalidateFile_of_not_shows_wildcard :
    let f := bytes "src/*.py"
    let g := bytes "src/a.py"
    let q := bytes "std::sort"
    let m := (new Settings.defaults).putQuery 0 g q [bytes "1"]
    ¬ Bytes.Shows (0x3A :: (g ++ 0x3A :: q)) f ∧ (m.getQuery 0 g q).2 = some [bytes "1"] ∧
      ((m.invalidateFile f).1.getQuery 0 g q).2 = (m.getQuery 0 g q).2 := by
  intro f g q m
  have hshows : ¬ Bytes.Shows (0x3A :: (g ++ 0x3A :: q)) f := by decide +kernel
  exact ⟨hshows, by decide +kernel, (lookups_invalidateFile_of_not_shows m hshows 0).2⟩

/-- A path that ends in a colon and the path that is dropped: what was kept of `b:a` goes with
`a`. -/
theorem exists_getQuery_invalidateFile_of_ne :
    let m := (new Settings.defaults).putQuery 0 (bytes "b:a") (bytes "q") [bytes "1"]
    bytes "a" ≠ bytes "b:a" ∧ (m.getQuery 0 (bytes "b:a") (bytes "q")).2 = some [bytes "1"] ∧
      ((m.invalidateFile (bytes "a")).1.getQuery 0 (bytes "b:a") (bytes "q")).2 = none := by
  decide +kernel

end MemoryCache

end SourceChunks
