import SourceChunks.MemoryCache
import SourceChunks.Proofs.MemoryCache.Lru
import SourceChunks.Proofs.Sha256.Digest

/-!
# What memory holds

Entries come into memory only by being put there, so whatever holds of all values that are put under
a key holds of the values that are read under it. Dropping a file leaves no chunk list of it.
-/

namespace SourceChunks

namespace MemoryCache

variable {m : MemoryCache} {key : Bytes} {value : Cached}

/-! ## All caches -/

/-- Some entry in memory has the value under the key. -/
def Has (m : MemoryCache) (key : Bytes) (value : Cached) : Prop :=
  ∃ l, ∃ e ∈ (m.level l).entries, e.key = key ∧ e.value = value

/-- Setting one level leaves the others as they are. -/
theorem level_setLevel (m : MemoryCache) (c : Lru Cached) (l l' : CacheLevel) :
    (m.setLevel c l).level l' = if l' = l then c else m.level l' := by
  cases l <;> cases l' <;> rfl

/-- A change of one cache leaves the others. -/
theorem level_onLevel {α : Type} (m : MemoryCache) (f : Lru Cached → Lru Cached × α)
    (l l' : CacheLevel) :
    (m.onLevel l f).1.level l' = if l' = l then (f (m.level l)).1 else m.level l' :=
  level_setLevel m _ l l'

/-- A change of all caches changes each of them. -/
theorem level_onAllLevels (m : MemoryCache) (f : Lru Cached → Lru Cached × Nat) (l : CacheLevel) :
    (m.onAllLevels f).1.level l = (f (m.level l)).1 := by
  cases l <;> rfl

/-- New caches are empty. -/
theorem not_has_new (s : Settings) : ¬ (new s).Has key value := by
  rintro ⟨l, e, he, -⟩
  cases l <;> exact List.not_mem_nil he

/-- What is read is in memory. -/
theorem has_of_get_eq_some {now : Int} (h : (m.get now key).2 = some value) : m.Has key value :=
  ⟨_, Lru.exists_mem_of_get_eq_some h⟩

/-- Reading makes no difference to what is read from then on. -/
theorem snd_get_get {now now' : Int} (h : now ≤ now') (m : MemoryCache) (key key' : Bytes) :
    ((m.get now key).1.get now' key').2 = (m.get now' key').2 := by
  show (((m.get now key).1.level (.ofKey key')).get now' key').2 = _
  rw [get, level_onLevel]
  split
  · next heq =>
    rw [← heq]
    exact Lru.snd_get_get h key key'
  · rfl

/-- Memory holds nothing but entries of another memory, each in the cache it is in there. -/
def Within (m' m : MemoryCache) : Prop := ∀ l, (m'.level l).entries ⊆ (m.level l).entries

/-- A change of one cache that brings nothing in. -/
theorem within_onLevel {α : Type} {f : Lru Cached → Lru Cached × α}
    (hf : ∀ c, (f c).1.entries ⊆ c.entries) (m : MemoryCache) (l : CacheLevel) :
    (m.onLevel l f).1.Within m := by
  intro l'
  rw [level_onLevel]
  split
  · next heq =>
    rw [heq]
    exact hf _
  · exact List.Subset.refl _

/-- A change of all caches that brings nothing in. -/
theorem within_onAllLevels {f : Lru Cached → Lru Cached × Nat}
    (hf : ∀ c, (f c).1.entries ⊆ c.entries) (m : MemoryCache) : (m.onAllLevels f).1.Within m := by
  intro l
  rw [level_onAllLevels]
  exact hf _

/-- Reading brings nothing into memory. -/
theorem within_get (m : MemoryCache) (now : Int) (key : Bytes) : (m.get now key).1.Within m :=
  within_onLevel (fun _ _ => Lru.mem_entries_of_mem_get) m _

/-- Removing the entry under a key brings nothing into memory. -/
theorem within_invalidate (m : MemoryCache) (key : Bytes) : (m.invalidate key).1.Within m :=
  within_onLevel (fun c => List.filter_subset_self c.entries) m _

/-- Dropping what matches a pattern brings nothing into memory. -/
theorem within_invalidatePattern (m : MemoryCache) (pattern : Bytes) :
    (m.invalidatePattern pattern).1.Within m :=
  within_onAllLevels (fun c => List.filter_subset_self c.entries) m

/-- Sweeping brings nothing into memory. -/
theorem within_evictExpired (m : MemoryCache) (now : Int) : (m.evictExpired now).1.Within m :=
  within_onAllLevels (fun c => List.filter_subset_self c.entries) m

/-- Removing everything brings nothing into memory. -/
theorem within_clear (m : MemoryCache) : m.clear.Within m :=
  within_onAllLevels (fun _ => List.nil_subset _) m

/-- What a smaller memory has the larger one has, too. -/
theorem Has.of_within {m' : MemoryCache} (h : m'.Has key value) (hwithin : m'.Within m) :
    m.Has key value := by
  obtain ⟨l, e, he, hkey⟩ := h
  exact ⟨l, e, hwithin l he, hkey⟩

/-- Reading brings nothing into memory. -/
theorem Has.of_get {now : Int} {k : Bytes} (h : (m.get now k).1.Has key value) :
    m.Has key value := h.of_within (within_get m now k)

/-- Putting brings in what is put. -/
theorem Has.of_put {now ttlSeconds : Int} {k : Bytes} {v : Cached}
    (h : (m.put now k v ttlSeconds).Has key value) : key = k ∧ value = v ∨ m.Has key value := by
  obtain ⟨l, e, he, rfl, rfl⟩ := h
  rw [put, level_setLevel] at he
  split at he
  · exact (Lru.mem_entries_of_mem_put he).imp_right fun he => ⟨_, e, he.2, rfl, rfl⟩
  · exact Or.inr ⟨l, e, he, rfl, rfl⟩

/-- What is left after a pattern was dropped does not match it. -/
theorem Has.of_invalidatePattern {pattern : Bytes}
    (h : (m.invalidatePattern pattern).1.Has key value) :
    m.Has key value ∧ ¬ Glob.Matches (Glob.parse pattern) key := by
  refine ⟨h.of_within (within_invalidatePattern m pattern), ?_⟩
  obtain ⟨l, e, he, rfl, rfl⟩ := h
  rw [invalidatePattern, level_onAllLevels] at he
  obtain ⟨-, hkeep⟩ := List.mem_filter.mp he
  intro hmatches
  rw [Glob.accepts_iff_matches.mpr hmatches] at hkeep
  exact absurd hkeep nofun

/-- Sweeping brings nothing into memory. -/
theorem Has.of_evictExpired {now : Int} (h : (m.evictExpired now).1.Has key value) :
    m.Has key value := h.of_within (within_evictExpired m now)

/-- Nothing is left after everything was removed. -/
theorem not_has_clear : ¬ m.clear.Has key value := by
  rintro ⟨l, e, he, -⟩
  rw [clear, level_onAllLevels] at he
  exact List.not_mem_nil he

/-- Dropping a pattern leaves what is read under keys that do not match it. -/
theorem snd_get_invalidatePattern (m : MemoryCache) (pattern : Bytes) (now : Int) (key : Bytes) :
    ((m.invalidatePattern pattern).1.get now key).2 =
      if (Glob.parse pattern).accepts key then none else (m.get now key).2 := by
  show (((m.invalidatePattern pattern).1.level (.ofKey key)).get now key).2 = _
  rw [invalidatePattern, level_onAllLevels]
  exact Lru.snd_get_invalidatePattern ..

/-! ## Entries of files -/

/-- Keys of chunk lists that end in hashes tell the file and the hash. -/
theorem chunksKey_hexOf_injective {f f' t t' : Bytes}
    (h : chunksKey f (Sha256.hexOf t) = chunksKey f' (Sha256.hexOf t')) :
    f = f' ∧ Sha256.hexOf t = Sha256.hexOf t' := by
  obtain ⟨hstart, hhash⟩ := List.append_inj' h (by rw [Sha256.length_hexOf, Sha256.length_hexOf])
  exact ⟨List.append_cancel_left (List.append_inj' hstart rfl).1, hhash⟩

/-- A hash stands on one line. -/
theorem onOneLine_hexOf (t : Bytes) : (Sha256.hexOf t).OnOneLine := by
  intro b hb hbreak
  rcases (Bool.or_eq_true ..).mp hbreak with h | h
  · exact Sha256.notMem_hexOf (by decide) t (beq_iff_eq.mp h ▸ hb)
  · exact Sha256.notMem_hexOf (by decide) t (beq_iff_eq.mp h ▸ hb)

/-- The key of what is kept of a file in a cache. -/
def fileKey (level : CacheLevel) (filePath rest : Bytes) : Bytes :=
  level.name ++ 0x3A :: (filePath ++ 0x3A :: rest)

/-- The key of chunks is that of the file under the kind of chunks. -/
theorem chunksKey_eq (f h : Bytes) : chunksKey f h = fileKey .chunk f h := by
  have hstart : bytes "chunk:" = CacheLevel.chunk.name ++ [0x3A] := by decide
  have hcolon : bytes ":" = [0x3A] := rfl
  rw [chunksKey, hstart, hcolon, fileKey]
  simp only [List.append_assoc, List.cons_append, List.nil_append]

/-- The key of a query is that of the file under the kind of queries. -/
theorem queryKey_eq (f q : Bytes) : queryKey f q = fileKey .query f q := by
  have hstart : bytes "query:" = CacheLevel.query.name ++ [0x3A] := by decide
  have hcolon : bytes ":" = [0x3A] := rfl
  rw [queryKey, hstart, hcolon, fileKey]
  simp only [List.append_assoc, List.cons_append, List.nil_append]

/-- The pattern of a file matches what shows the path between two colons, if what stands before and
behind is on one line each. -/
theorem matches_filePattern_iff {f t : Bytes} :
    Glob.Matches (Glob.parse (filePattern f)) t ↔ ∃ start part rest, t = start ++ (part ++ rest) ∧
      start.OnOneLine ∧ List.Forall₂ Glob.ReadsAs (0x3A :: f ++ [0x3A]) part ∧ rest.OnOneLine := by
  have hpattern : Glob.parse (filePattern f) =
      .anyRun :: ((0x3A :: f ++ [0x3A]).map Glob.tokenOf ++ [.anyRun]) := by
    have htail : Glob.parse (bytes ":*") = [.literal 0x3A, .anyRun] := by decide
    have hcolon : Glob.tokenOf 0x3A = .literal 0x3A := by decide
    have hparse : Glob.parse (filePattern f) =
        .anyRun :: .literal 0x3A :: Glob.parse (Glob.escape f ++ bytes ":*") := by
      rw [filePattern, List.append_assoc]
      rfl
    rw [hparse, Glob.parse_escape_append, htail]
    simp [hcolon]
  rw [hpattern, Glob.matches_cons_iff]
  constructor
  · rintro ⟨start, _, rfl, hstart, hbehind⟩
    obtain ⟨part, rest, rfl, hpart, hrest⟩ := Glob.matches_append_iff.mp hbehind
    exact ⟨start, part, rest, rfl, hstart, Glob.matches_map_tokenOf_iff.mp hpart,
      Glob.matches_singleton_iff.mp hrest⟩
  · rintro ⟨start, part, rest, rfl, hstart, hpart, hrest⟩
    refine ⟨start, part ++ rest, rfl, hstart, Glob.matches_append_iff.mpr ⟨part, rest, rfl, ?_, ?_⟩⟩
    · exact Glob.matches_map_tokenOf_iff.mpr hpart
    · exact Glob.matches_singleton_iff.mpr hrest

/-- The names of the caches are on one line. -/
theorem onOneLine_name (l : CacheLevel) : l.name.OnOneLine := by cases l <;> decide

/-- The key of what is kept of a file matches the pattern of the file, whatever bytes the path
has. -/
theorem matches_filePattern_fileKey (l : CacheLevel) (f : Bytes) {d : Bytes} (hd : d.OnOneLine) :
    Glob.Matches (Glob.parse (filePattern f)) (fileKey l f d) := by
  refine matches_filePattern_iff.mpr ⟨l.name, 0x3A :: f ++ [0x3A], d, ?_, onOneLine_name l, ?_, hd⟩
  · simp [fileKey]
  · exact List.forall₂_same.mpr fun b _ => .inl rfl

/-- After a file was dropped memory has no chunk list of it. -/
theorem Has.of_invalidateFile {f : Bytes} (h : (m.invalidateFile f).1.Has key value) :
    m.Has key value ∧ ∀ t, key ≠ chunksKey f (Sha256.hexOf t) := by
  obtain ⟨hbefore, hmatches⟩ := h.of_invalidatePattern
  refine ⟨hbefore, ?_⟩
  rintro t rfl
  rw [chunksKey_eq] at hmatches
  exact hmatches (matches_filePattern_fileKey .chunk f (onOneLine_hexOf t))

end MemoryCache

end SourceChunks
