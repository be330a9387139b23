import SourceChunks.Proofs.MemoryCache
import SourceChunks.Proofs.MemoryCache.Lifetimes

/-!
# The levels of the memory cache

Each key belongs to one of the bounded caches that make up the memory cache. What is asked under a
key is asked of that cache only, and what is asked of all keys is asked of each of them. So what is
found under a key depends on the operations that its cache has seen, in their order, and the memory
cache finds what a single bounded cache would.
-/

namespace SourceChunks

/-- What may be asked of the memory cache, or of one bounded cache of its values, whatever the keys
stand for. Times are in nanoseconds. -/
inductive KeyedOperation where
  /-- A value is put under a key. -/
  | put (now : Int) (key : Bytes) (value : Cached) (ttlSeconds : Int)
  /-- The value under a key is read. -/
  | get (now : Int) (key : Bytes)
  /-- The entry under a key is removed. -/
  | invalidate (key : Bytes)
  /-- The entries whose keys match a pattern are removed. -/
  | invalidatePattern (pattern : Bytes)
  /-- The entries that have outlived their lifetimes are removed. -/
  | evictExpired (now : Int)
  /-- All entries are removed. -/
  | clear

namespace KeyedOperation

/-- What is asked of a bounded cache. -/
def toLru : KeyedOperation → LruOperation Cached
  | .put now key value ttlSeconds => .put now key value value.byteSize ttlSeconds
  | .get now key => .get now key
  | .invalidate key => .invalidate key
  | .invalidatePattern pattern => .invalidatePattern (Glob.parse pattern)
  | .evictExpired now => .evictExpired now
  | .clear => .clear

/-- The key that an operation is about, if it is about one. -/
def key? : KeyedOperation → Option Bytes
  | .put _ key _ _ | .get _ key | .invalidate key => some key
  | _ => none

/-- What an operation asks of one of the caches, if it asks anything. -/
def onLevel? (l : CacheLevel) (op : KeyedOperation) : Option (LruOperation Cached) :=
  if op.key?.all fun key => CacheLevel.ofKey key = l then some op.toLru else none

variable {op : KeyedOperation} {key : Bytes}

/-- Of the operations that may end what was there under a key, the cache that it belongs to sees
all. -/
theorem onLevel?_of_ends (h : op.toLru.Ends key) : op.onLevel? (.ofKey key) = some op.toLru := by
  refine if_pos ?_
  cases op with
  | put now k value ttlSeconds =>
    have hkey : k = key := h
    simp [key?, hkey]
  | invalidate k =>
    have hkey : k = key := h
    simp [key?, hkey]
  | get => exact h.elim
  | _ => rfl

/-- What is asked of the cache that a key belongs to is as good as all that is asked: the other
operations make no difference to whether a value lasts. -/
theorem lastsWhile_onLevel_iff {allows : Int → Int → Prop} {ops : List KeyedOperation}
    {defaultTtl now : Int} {value : Cached} :
    LruOperation.LastsWhile allows (ops.filterMap (onLevel? (.ofKey key))) defaultTtl now key
        value ↔
      LruOperation.LastsWhile allows (ops.map toLru) defaultTtl now key value := by
  -- Whatever is true only of operations that end what was there is true of those that are seen.
  have hseen (p : LruOperation Cached → Prop) (hp : ∀ o, p o → o.Ends key) (op : KeyedOperation) :
      (∃ o ∈ op.onLevel? (.ofKey key), p o) ↔ ∃ o ∈ some op.toLru, p o := by
    constructor
    · rintro ⟨o, ho, hpo⟩
      have hsome := (Option.ite_none_right_eq_some.mp ho).2
      exact ⟨o, hsome, hpo⟩
    · rintro ⟨o, ho, hpo⟩
      obtain rfl := Option.some.inj ho
      exact ⟨_, onLevel?_of_ends (hp _ hpo), hpo⟩
  rw [← List.filterMap_eq_map]
  refine exists_congr fun t => exists_congr fun valueBytes => exists_congr fun ttlSeconds => ?_
  refine and_congr_left fun _ => ?_
  rw [noneSince_filterMap_iff, noneSince_filterMap_iff]
  simp only [hseen _ fun _ => id, Function.comp_apply]
  simp only [hseen (· = .put t key value valueBytes ttlSeconds) fun o ho => ho ▸ rfl]

end KeyedOperation

namespace MemoryCache

open KeyedOperation

/-- What memory holds after an operation. -/
def performKeyed (m : MemoryCache) : KeyedOperation → MemoryCache
  | .put now key value ttlSeconds => m.put now key value ttlSeconds
  | .get now key => (m.get now key).1
  | .invalidate key => (m.invalidate key).1
  | .invalidatePattern pattern => (m.invalidatePattern pattern).1
  | .evictExpired now => (m.evictExpired now).1
  | .clear => m.clear

/-- What memory holds after some operations. -/
def afterKeyed (m : MemoryCache) (ops : List KeyedOperation) : MemoryCache :=
  ops.foldl performKeyed m

/-- Each cache carries out what is asked of it. -/
theorem level_performKeyed (m : MemoryCache) (op : KeyedOperation) (l : CacheLevel) :
    (m.performKeyed op).level l = (m.level l).after (op.onLevel? l).toList := by
  have hone {key : Bytes} (hkey : op.key? = some key) :
      (if l = .ofKey key then ((m.level (.ofKey key)).perform op.toLru).1 else m.level l) =
        (m.level l).after (op.onLevel? l).toList := by
    rw [onLevel?, hkey]
    by_cases hl : l = .ofKey key
    · simp [hl, Lru.after]
    · simp [hl, Ne.symm hl, Lru.after]
  cases op with
  | put => exact (level_setLevel ..).trans (hone rfl)
  | get => exact (level_onLevel ..).trans (hone rfl)
  | invalidate => exact (level_onLevel ..).trans (hone rfl)
  | invalidatePattern => exact level_onAllLevels ..
  | evictExpired => exact level_onAllLevels ..
  | clear => exact level_onAllLevels ..

/-- After some operations each cache is what it is after the operations that it has seen. -/
theorem level_afterKeyed (m : MemoryCache) (ops : List KeyedOperation) (l : CacheLevel) :
    (m.afterKeyed ops).level l = (m.level l).after (ops.filterMap (onLevel? l)) := by
  induction ops using List.reverseRecOn with
  | nil => rfl
  | append_singleton ops op ih =>
    have hlast : [op].filterMap (onLevel? l) = (op.onLevel? l).toList := by
      cases hop : op.onLevel? l <;> simp [hop]
    rw [List.filterMap_append, Lru.after_append, ← ih, hlast, afterKeyed, List.foldl_append]
    exact level_performKeyed (m.afterKeyed ops) op l

/-- How many entries a cache may hold by the settings. -/
def sizeOfLevel (s : Settings) : CacheLevel → ℕ
  | .ast => s.astCacheSize
  | .chunk => s.chunkCacheSize
  | .query => s.queryCacheSize
  | .default => s.defaultCacheSize

/-- A new memory has a new cache for each level, of the size that the settings give. -/
theorem level_new (s : Settings) (l : CacheLevel) :
    (new s).level l = .new (sizeOfLevel s l) s.defaultTtlSeconds := by
  cases l <;> rfl

/-- The keys that belong to a cache, of those under which values are put. -/
theorem filterMap_putKey?_onLevel? (ops : List KeyedOperation) (l : CacheLevel) :
    (ops.filterMap (onLevel? l)).filterMap LruOperation.putKey? =
      ((ops.map toLru).filterMap LruOperation.putKey?).filter
        fun key => CacheLevel.ofKey key = l := by
  rw [List.filterMap_filterMap, List.filterMap_map, List.filter_filterMap]
  congr 1
  funext op
  cases op with
  | put now key value ttlSeconds =>
    by_cases hl : CacheLevel.ofKey key = l
    · simp [onLevel?, key?, toLru, LruOperation.putKey?, Option.filter_some, hl]
    · simp [onLevel?, key?, toLru, LruOperation.putKey?, Option.filter_some, hl]
  | get now key => simp [onLevel?, toLru, LruOperation.putKey?]
  | invalidate key => simp [onLevel?, toLru, LruOperation.putKey?]
  | _ => rfl

/-- What is found under a key, in a bounded cache or in the memory cache, is what was put last under
it, if it was not removed since and its lifetime is not over, whether it was read before or not.
Conversely that is found, if no more keys were put than there is room for, in the memory cache in
the cache that the key belongs to, and if its lifetime has no end or less than `2 ^ 63`
nanoseconds. -/
theorem lasts_of_found_and_found_of_lasts (now : Int) (key : Bytes) :
    (∀ {β : Type} (capacity : ℕ) (defaultTtl : Int) (ops : List (LruOperation β)) (value : β),
      let found := (((Lru.new capacity defaultTtl).after ops).get now key).2
      (found = some value → LruOperation.Lasts ops defaultTtl now key value) ∧
        ((ops.filterMap LruOperation.putKey?).toFinset.card ≤ max capacity 1 →
          (∀ op ∈ ops, ∀ t ∈ op.time?, t ≤ now) →
          LruOperation.LastsInWord ops defaultTtl now key value → found = some value)) ∧
    (∀ (s : Settings) (ops : List KeyedOperation) (value : Cached),
      let asked := ops.map KeyedOperation.toLru
      let level := CacheLevel.ofKey key
      let found := (((new s).afterKeyed ops).get now key).2
      (found = some value → LruOperation.Lasts asked s.defaultTtlSeconds now key value) ∧
        (((asked.filterMap LruOperation.putKey?).filter
            fun k => CacheLevel.ofKey k = level).toFinset.card ≤ max (sizeOfLevel s level) 1 →
          (∀ op ∈ asked, ∀ t ∈ op.time?, t ≤ now) →
          LruOperation.LastsInWord asked s.defaultTtlSeconds now key value →
            found = some value)) := by
  constructor
  · intro β capacity defaultTtl ops value
    exact ⟨Lru.lasts_of_get_eq_some, Lru.get_eq_some_of_lastsInWord⟩
  · intro s ops value asked level found
    have hfound : found = (((Lru.new (sizeOfLevel s level) s.defaultTtlSeconds).after
        (ops.filterMap (onLevel? level))).get now key).2 := by
      rw [← level_new, ← level_afterKeyed]
      rfl
    rw [hfound, LruOperation.Lasts, LruOperation.LastsInWord, ← lastsWhile_onLevel_iff,
      ← lastsWhile_onLevel_iff, ← filterMap_putKey?_onLevel?]
    refine ⟨Lru.lasts_of_get_eq_some, fun hroom htimes => Lru.get_eq_some_of_lastsInWord hroom ?_⟩
    intro o ho
    obtain ⟨op, hop, hseen⟩ := List.mem_filterMap.mp ho
    obtain rfl := Option.some.inj (Option.ite_none_right_eq_some.mp hseen).2
    exact htimes _ (List.mem_map_of_mem hop)

/-- A value that is put anew lives from then on, and reading it does not prolong this. In a cache
for one entry, and under a key of the memory cache, it is found while it lives and not after. -/
theorem lasts_of_found_and_found_of_lasts_reread :
    let ops : List (LruOperation ℕ) :=
      [.put 0 (bytes "a") 1 8 0, .put 1000000000 (bytes "a") 2 8 5, .get 4000000000 (bytes "a"),
        .invalidatePattern (Glob.parse (bytes "b*")), .evictExpired 6000000000]
    let found (now : Int) := (((Lru.new 1 60).after ops).get now (bytes "a")).2
    let keyed : List KeyedOperation :=
      [.put 0 (bytes "query:a") (.number 1) 0, .put 0 (bytes "ast:a") (.number 2) 5,
        .invalidatePattern (bytes "query:*")]
    let foundKeyed (key : Bytes) :=
      (((new Settings.defaults).afterKeyed keyed).get 3000000000 key).2
    found 6000000000 = some 2 ∧ found 6000000001 = none ∧
      LruOperation.Lasts ops 60 6000000000 (bytes "a") 2 ∧
      foundKeyed (bytes "ast:a") = some (.number 2) ∧ foundKeyed (bytes "query:a") = none ∧
      LruOperation.Lasts (keyed.map KeyedOperation.toLru) Settings.defaults.defaultTtlSeconds
        3000000000 (bytes "ast:a") (.number 2) := by
  intro ops found keyed foundKeyed
  -- Each value is the last of those put under its key, and nothing after it removes it.
  have hword : LruOperation.LastsInWord ops 60 6000000000 (bytes "a") 2 := by
    refine ⟨1000000000, 8, 5, ⟨ops.take 1, _, ops.drop 2, rfl, rfl, ?_⟩, by decide⟩
    have hpattern : ¬ Glob.Matches (Glob.parse (bytes "b*")) (bytes "a") := fun h =>
      absurd (Glob.accepts_iff_matches.mpr h) (by decide +kernel)
    exact List.forall_mem_cons.mpr ⟨id, List.forall_mem_cons.mpr ⟨hpattern,
      List.forall_mem_singleton.mpr id⟩⟩
  have hfound : found 6000000000 = some 2 :=
    ((lasts_of_found_and_found_of_lasts 6000000000 (bytes "a")).1 1 60 ops 2).2
      (by decide +kernel) (by decide +kernel) hword
  have hwordKeyed : LruOperation.LastsInWord (keyed.map KeyedOperation.toLru)
      Settings.defaults.defaultTtlSeconds 3000000000 (bytes "ast:a") (.number 2) := by
    refine ⟨0, _, 5, ⟨[_], _, [_], rfl, rfl, ?_⟩, by decide⟩
    exact List.forall_mem_singleton.mpr fun h =>
      absurd (Glob.accepts_iff_matches.mpr h) (by decide +kernel)
  have hfoundKeyed : foundKeyed (bytes "ast:a") = some (.number 2) :=
    ((lasts_of_found_and_found_of_lasts 3000000000 (bytes "ast:a")).2 Settings.defaults keyed
      (.number 2)).2 (by decide +kernel) (by decide +kernel) hwordKeyed
  have hlasts := ((lasts_of_found_and_found_of_lasts 6000000000 (bytes "a")).1 1 60 ops 2).1 hfound
  have hlastsKeyed := ((lasts_of_found_and_found_of_lasts 3000000000 (bytes "ast:a")).2
    Settings.defaults keyed (.number 2)).1 hfoundKeyed
  exact ⟨hfound, by decide +kernel, hlasts, hfoundKeyed, by decide +kernel, hlastsKeyed⟩

/-- A lifetime of ten thousand million seconds is too long for the word: the value that has it was
the only one put and lasts, and is not found at the very moment at which it was put. -/
theorem get_eq_none_of_lasts :
    let ops : List (LruOperation ℕ) := [.put 0 (bytes "k") 1 8 10000000000]
    (ops.filterMap LruOperation.putKey?).toFinset.card ≤ 1000 ∧
      (∀ op ∈ ops, ∀ t ∈ op.time?, t ≤ 0) ∧ LruOperation.Lasts ops 0 0 (bytes "k") 1 ∧
      (((Lru.new 1000 0).after ops).get 0 (bytes "k")).2 = none := by
  refine ⟨by decide +kernel, by decide +kernel, ?_, by decide +kernel⟩
  exact ⟨0, 8, 10000000000, ⟨[], _, [], rfl, rfl, nofun⟩, by decide⟩

end MemoryCache

end SourceChunks
