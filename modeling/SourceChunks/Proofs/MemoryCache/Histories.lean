import SourceChunks.Proofs.Bytes.Marks
import SourceChunks.Proofs.MemoryCache

/-!
# Histories of the memory cache

Chunk lists and query results of files are put into memory, read and dropped in any order. What is
read was put last under the key it is read under. The key of a file and a hash, or a query, is the
one of another file too if the path of one goes on behind a colon as the hash or query of the other
does, so it may have been put for that file.
-/

namespace SourceChunks

/-- What may be asked of the memory cache about files. Times are in nanoseconds. -/
inductive MemoryOperation where
  /-- The chunk list of a file is put in. -/
  | putChunks (now : Int) (filePath contentHash : Bytes) (chunks : List Chunk)
  /-- The chunk list of a file is read. -/
  | getChunks (now : Int) (filePath contentHash : Bytes)
  /-- The result of a query in a file is put in. -/
  | putQuery (now : Int) (filePath query : Bytes) (ids : List Bytes)
  /-- The result of a query in a file is read. -/
  | getQuery (now : Int) (filePath query : Bytes)
  /-- The value under any key is read. -/
  | get (now : Int) (key : Bytes)
  /-- The entry under any key is removed. -/
  | invalidate (key : Bytes)
  /-- A file is dropped. -/
  | invalidateFile (filePath : Bytes)
  /-- What matches a pattern is removed. -/
  | invalidatePattern (pattern : Bytes)
  /-- What has outlived its lifetime is removed. -/
  | evictExpired (now : Int)
  /-- Everything is removed. -/
  | clear

namespace MemoryCache

/-- What memory holds after an operation. -/
def perform (m : MemoryCache) : MemoryOperation → MemoryCache
  | .putChunks now filePath contentHash chunks => m.putChunks now filePath contentHash chunks
  | .getChunks now filePath contentHash => (m.getChunks now filePath contentHash).1
  | .putQuery now filePath query ids => m.putQuery now filePath query ids
  | .getQuery now filePath query => (m.getQuery now filePath query).1
  | .get now key => (m.get now key).1
  | .invalidate key => (m.invalidate key).1
  | .invalidateFile filePath => (m.invalidateFile filePath).1
  | .invalidatePattern pattern => (m.invalidatePattern pattern).1
  | .evictExpired now => (m.evictExpired now).1
  | .clear => m.clear

/-- What new caches hold after some operations. -/
def run (s : Settings) (ops : List MemoryOperation) : MemoryCache := ops.foldl perform (new s)

end MemoryCache

namespace MemoryOperation

open MemoryCache

/-- The key under which an operation puts a value, and the value, if it does. -/
def put? : MemoryOperation → Option (Bytes × Cached)
  | .putChunks _ filePath contentHash chunks =>
    some (chunksKey filePath contentHash, .chunks chunks)
  | .putQuery _ filePath query ids => some (queryKey filePath query, .ids ids)
  | _ => none

/-- The operation puts a value under a key. -/
def PutsUnder (op : MemoryOperation) (key : Bytes) : Prop := ∃ value, op.put? = some (key, value)

/-- Of all operations that put a value under a key the last one puts this value. -/
def PutLast (ops : List MemoryOperation) (key : Bytes) (value : Cached) : Prop :=
  ∃ before op after, ops = before ++ op :: after ∧ op.put? = some (key, value) ∧
    ∀ x ∈ after, ¬ x.PutsUnder key

variable {ops : List MemoryOperation} {op : MemoryOperation} {key : Bytes} {value : Cached}

/-- A put that comes last is the last one under its key. -/
theorem putLast_concat (hop : op.put? = some (key, value)) : PutLast (ops ++ [op]) key value :=
  ⟨ops, op, [], rfl, hop, nofun⟩

/-- An operation under another key leaves the last value. -/
theorem PutLast.concat (h : PutLast ops key value) (hop : ¬ op.PutsUnder key) :
    PutLast (ops ++ [op]) key value := by
  obtain ⟨before, x, after, rfl, hx, hafter⟩ := h
  refine ⟨before, x, after ++ [op], by simp, hx, ?_⟩
  intro y hy
  rcases List.mem_append.mp hy with hy | hy
  · exact hafter y hy
  · rwa [List.mem_singleton.mp hy]

/-- Files and hashes, or queries, with one key are joined alike. -/
theorem joinedAlike_of_fileKey_eq {l : CacheLevel} {f d g e : Bytes}
    (h : fileKey l f d = fileKey l g e) : Bytes.JoinedAlike 0x3A f d g e :=
  Bytes.append_cons_eq_iff.mp (List.cons.inj (List.append_cancel_left h)).2

/-- Chunk lists are put for files and hashes that are joined as those they are read for. -/
theorem PutLast.exists_putChunks {f h : Bytes} {cs : List Chunk}
    (hlast : PutLast ops (chunksKey f h) (.chunks cs)) :
    ∃ before now g h' after, ops = before ++ .putChunks now g h' cs :: after ∧
      Bytes.JoinedAlike 0x3A g h' f h ∧ ∀ x ∈ after, ¬ x.PutsUnder (chunksKey f h) := by
  obtain ⟨before, op, after, rfl, hop, hafter⟩ := hlast
  cases op with
  | putChunks now g h' cs' =>
    obtain ⟨hkey, hvalue⟩ := Prod.mk.inj (Option.some.inj hop)
    obtain rfl := Cached.chunks.inj hvalue
    refine ⟨before, now, g, h', after, rfl, ?_, hafter⟩
    rw [chunksKey_eq, chunksKey_eq] at hkey
    exact joinedAlike_of_fileKey_eq hkey
  | putQuery now g q ids => exact absurd (Prod.mk.inj (Option.some.inj hop)).2 nofun
  | _ => exact absurd hop nofun

/-- Query results are put for files and queries that are joined as those they are read for. -/
theorem PutLast.exists_putQuery {f q : Bytes} {ids : List Bytes}
    (hlast : PutLast ops (queryKey f q) (.ids ids)) :
    ∃ before now g q' after, ops = before ++ .putQuery now g q' ids :: after ∧
      Bytes.JoinedAlike 0x3A g q' f q ∧ ∀ x ∈ after, ¬ x.PutsUnder (queryKey f q) := by
  obtain ⟨before, op, after, rfl, hop, hafter⟩ := hlast
  cases op with
  | putQuery now g q' ids' =>
    obtain ⟨hkey, hvalue⟩ := Prod.mk.inj (Option.some.inj hop)
    obtain rfl := Cached.ids.inj hvalue
    refine ⟨before, now, g, q', after, rfl, ?_, hafter⟩
    rw [queryKey_eq, queryKey_eq] at hkey
    exact joinedAlike_of_fileKey_eq hkey
  | putChunks now g h cs => exact absurd (Prod.mk.inj (Option.some.inj hop)).2 nofun
  | _ => exact absurd hop nofun

end MemoryOperation

namespace MemoryCache

open MemoryOperation

variable {m : MemoryCache} {ops : List MemoryOperation}

/-- Each entry is in the cache that its key belongs to, and has the value that was put last under
its key. -/
def KeepsLast (m : MemoryCache) (ops : List MemoryOperation) : Prop :=
  ∀ l, ∀ e ∈ (m.level l).entries, CacheLevel.ofKey e.key = l ∧ PutLast ops e.key e.value

/-- What is read is the value that was put last. -/
theorem KeepsLast.putLast_of_get (h : m.KeepsLast ops) {now : Int} {key : Bytes} {value : Cached}
    (hget : (m.get now key).2 = some value) : PutLast ops key value := by
  obtain ⟨e, he, rfl, rfl⟩ := Lru.exists_mem_of_get_eq_some hget
  exact (h _ e he).2

/-- An operation that puts nothing in keeps what was put last. -/
theorem KeepsLast.of_within (h : m.KeepsLast ops) {m' : MemoryCache} (hwithin : m'.Within m)
    {op : MemoryOperation} (hop : op.put? = none) : m'.KeepsLast (ops ++ [op]) := by
  intro l e he
  obtain ⟨hlevel, hlast⟩ := h l e (hwithin l he)
  refine ⟨hlevel, hlast.concat ?_⟩
  rintro ⟨value, hput⟩
  exact absurd (hop.symm.trans hput) nofun

/-- What is put comes in place of what was put under its key before. -/
theorem KeepsLast.put (h : m.KeepsLast ops) {op : MemoryOperation} {key : Bytes} {value : Cached}
    (hop : op.put? = some (key, value)) (now ttlSeconds : Int) :
    (m.put now key value ttlSeconds).KeepsLast (ops ++ [op]) := by
  have hother {l : CacheLevel} {e : LruEntry Cached} (he : e ∈ (m.level l).entries)
      (hkey : e.key ≠ key) : CacheLevel.ofKey e.key = l ∧ PutLast (ops ++ [op]) e.key e.value := by
    obtain ⟨hlevel, hlast⟩ := h l e he
    refine ⟨hlevel, hlast.concat ?_⟩
    rintro ⟨value', hput⟩
    exact hkey (Prod.mk.inj (Option.some.inj (hput.symm.trans hop))).1
  intro l e he
  rw [MemoryCache.put, level_setLevel] at he
  split at he
  · next hl =>
    subst hl
    obtain ⟨rfl, rfl⟩ | ⟨hkey, he⟩ := Lru.mem_entries_of_mem_put he
    · exact ⟨rfl, putLast_concat hop⟩
    · exact hother he hkey
  · next hl =>
    refine hother he ?_
    rintro rfl
    exact hl (h l e he).1.symm

/-- Each operation keeps what was put last. -/
theorem KeepsLast.perform (h : m.KeepsLast ops) (op : MemoryOperation) :
    (m.perform op).KeepsLast (ops ++ [op]) := by
  cases op with
  | putChunks now f hash cs => exact h.put rfl now 0
  | putQuery now f q ids => exact h.put rfl now 0
  | getChunks now f hash => exact h.of_within (within_get m now _) rfl
  | getQuery now f q => exact h.of_within (within_get m now _) rfl
  | get now key => exact h.of_within (within_get m now key) rfl
  | invalidate key => exact h.of_within (within_invalidate m key) rfl
  | invalidateFile f => exact h.of_within (within_invalidatePattern m _) rfl
  | invalidatePattern pattern => exact h.of_within (within_invalidatePattern m pattern) rfl
  | evictExpired now => exact h.of_within (within_evictExpired m now) rfl
  | clear => exact h.of_within (within_clear m) rfl

/-- Whatever new caches are asked, they keep what was put last. -/
theorem keepsLast_run (s : Settings) (ops : List MemoryOperation) : (run s ops).KeepsLast ops := by
  induction ops using List.reverseRecOn with
  | nil =>
    intro l e he
    cases l <;> exact absurd he List.not_mem_nil
  | append_singleton ops op ih =>
    rw [run, List.foldl_append]
    exact ih.perform op

/-- What is found of a file under a hash or a query was put in by the last operation for a file and
a hash or a query that give the same text when a colon joins them. That is this file and this hash
or query, unless one of the files goes on behind a colon as the other hash or query does. -/
theorem exists_put_of_lookup (s : Settings) (ops : List MemoryOperation) (now : Int)
    (f d : Bytes) :
    (∀ cs, ((run s ops).getChunks now f d).2 = some cs →
      ∃ before t g e after, ops = before ++ .putChunks t g e cs :: after ∧
        Bytes.JoinedAlike 0x3A g e f d ∧ ∀ x ∈ after, ¬ x.PutsUnder (chunksKey f d)) ∧
    (∀ ids, ((run s ops).getQuery now f d).2 = some ids →
      ∃ before t g e after, ops = before ++ .putQuery t g e ids :: after ∧
        Bytes.JoinedAlike 0x3A g e f d ∧ ∀ x ∈ after, ¬ x.PutsUnder (queryKey f d)) := by
  have hkeeps := keepsLast_run s ops
  constructor
  · intro cs hget
    obtain ⟨value, hvalue, hchunks⟩ := Option.bind_eq_some_iff.mp hget
    cases value with
    | chunks cs' =>
      obtain rfl := Option.some.inj hchunks
      exact (hkeeps.putLast_of_get hvalue).exists_putChunks
    | _ => exact absurd hchunks nofun
  · intro ids hget
    obtain ⟨value, hvalue, hids⟩ := Option.bind_eq_some_iff.mp hget
    cases value with
    | ids list =>
      obtain rfl := Option.some.inj hids
      exact (hkeeps.putLast_of_get hvalue).exists_putQuery
    | _ => exact absurd hids nofun

/-- A query with a colon in it whose result is put in twice while another file is dropped. -/
theorem exists_put_of_lookup_twice :
    let ops : List MemoryOperation := [.putQuery 0 (bytes "a") (bytes "x:y") [bytes "1"],
      .putQuery 0 (bytes "b") (bytes "x") [bytes "3"],
      .putQuery 1 (bytes "a") (bytes "x:y") [bytes "2"], .invalidateFile (bytes "b"),
      .getQuery 2 (bytes "b") (bytes "x")]
    ((run Settings.defaults ops).getQuery 3 (bytes "a") (bytes "x:y")).2 = some [bytes "2"] ∧
      ∃ before t g e after, ops = before ++ .putQuery t g e [bytes "2"] :: after ∧
        Bytes.JoinedAlike 0x3A g e (bytes "a") (bytes "x:y") ∧
        ∀ x ∈ after, ¬ x.PutsUnder (queryKey (bytes "a") (bytes "x:y")) := by
  intro ops
  have hget : ((run Settings.defaults ops).getQuery 3 (bytes "a") (bytes "x:y")).2 =
      some [bytes "2"] := by decide +kernel
  exact ⟨hget, (exists_put_of_lookup Settings.defaults ops 3 (bytes "a") (bytes "x:y")).2 _ hget⟩

/-- A path and a query that go on alike behind a colon: the result of the query `c` in `a:b` is
found for the query `b:c` in `a`, for which nothing was put in. -/
theorem exists_lookup_of_other_file :
    let ops : List MemoryOperation := [.putQuery 0 (bytes "a:b") (bytes "c") [bytes "1"]]
    ((run Settings.defaults ops).getQuery 0 (bytes "a") (bytes "b:c")).2 = some [bytes "1"] ∧
      ∀ now ids, .putQuery now (bytes "a") (bytes "b:c") ids ∉ ops := by
  refine ⟨by decide +kernel, ?_⟩
  intro now ids hmem
  obtain ⟨-, hpath, -⟩ := MemoryOperation.putQuery.inj (List.mem_singleton.mp hmem)
  exact absurd hpath (by decide)

end MemoryCache

end SourceChunks
