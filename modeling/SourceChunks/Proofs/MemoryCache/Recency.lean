import Mathlib.Data.List.Lemmas
import SourceChunks.Proofs.MemoryCache.Accounting
import SourceChunks.Proofs.MemoryCache.Lifetimes

/-!
# Which entry is pushed out

A bounded cache without lifetimes has the keys that were used last. A key is used when a value is
put under it, and when it is read and there is one. Listed by their last use, the cache has the
first of all keys that were ever used, as many as it may hold; so a key is in it if there are fewer
other keys than that among those used since.
-/

namespace SourceChunks

/-! ## Keys by their last use -/

/-- Put a key in front of the others. -/
def touch (key : Bytes) (keys : List Bytes) : List Bytes := key :: keys.filter fun k => k != key

/-- The keys that were used, each of them once, the one used last first. -/
def recency (uses : List Bytes) : List Bytes := uses.foldl (fun keys key => touch key keys) []

/-- The keys that were used since the last use of a key, the last one first. -/
def since (key : Bytes) (uses : List Bytes) : List Bytes := uses.reverse.takeWhile fun k => k != key

variable {key : Bytes} {uses : List Bytes}

/-- One more use brings its key to the front. -/
theorem recency_concat (uses : List Bytes) (key : Bytes) :
    recency (uses ++ [key]) = touch key (recency uses) := List.foldl_append

/-- A use of the key starts anew, and a use of another one comes in front. -/
theorem since_concat (key : Bytes) (uses : List Bytes) (k : Bytes) :
    since key (uses ++ [k]) = if k = key then [] else k :: since key uses := by
  rw [since, List.reverse_append, List.reverse_singleton, List.singleton_append,
    List.takeWhile_cons]
  by_cases hk : k = key
  · simp [hk]
  · simp [hk, since]

/-- Touching a key puts it among the others. -/
theorem mem_touch_iff {k : Bytes} {keys : List Bytes} :
    k ∈ touch key keys ↔ k = key ∨ k ∈ keys := by
  rw [touch, List.mem_cons, List.mem_filter, bne_iff_ne]
  constructor
  · exact Or.imp_right And.left
  · intro h
    by_cases hk : k = key
    · exact .inl hk
    · exact .inr ⟨h.resolve_left hk, hk⟩

/-- Touching a key does not list it twice. -/
theorem nodup_touch {keys : List Bytes} (h : keys.Nodup) : (touch key keys).Nodup := by
  refine List.nodup_cons.mpr ⟨?_, h.filter _⟩
  intro hmem
  exact bne_iff_ne.mp (List.mem_filter.mp hmem).2 rfl

/-- Each key is listed once, however often it was used. -/
theorem nodup_recency (uses : List Bytes) : (recency uses).Nodup := by
  induction uses using List.reverseRecOn with
  | nil => exact List.nodup_nil
  | append_singleton uses key ih =>
    rw [recency_concat]
    exact nodup_touch ih

/-- The keys that are listed are those that were used. -/
theorem mem_recency_iff : key ∈ recency uses ↔ key ∈ uses := by
  induction uses using List.reverseRecOn with
  | nil => exact Iff.rfl
  | append_singleton uses k ih =>
    rw [recency_concat, mem_touch_iff, ih, List.mem_append, List.mem_singleton, or_comm]

/-- Leaving another key out leaves it out of what comes before a key. -/
theorem takeWhile_filter_ne {k : Bytes} (hk : k ≠ key) (keys : List Bytes) :
    (keys.filter fun x => x != k).takeWhile (fun x => x != key) =
      (keys.takeWhile fun x => x != key).filter fun x => x != k := by
  induction keys with
  | nil => rfl
  | cons x rest ih =>
    by_cases hx : x = k
    · subst hx
      simp [hk, ih]
    · by_cases hkey : x = key
      · subst hkey
        simp [hx]
      · simp [hx, hkey, ih]

/-- The keys that come before a key are those that were used since. -/
theorem toFinset_takeWhile_recency (key : Bytes) (uses : List Bytes) :
    ((recency uses).takeWhile fun k => k != key).toFinset = (since key uses).toFinset := by
  induction uses using List.reverseRecOn with
  | nil => rfl
  | append_singleton uses k ih =>
    rw [recency_concat, since_concat, touch]
    by_cases hk : k = key
    · simp [hk]
    · have hcons : (k :: (recency uses).filter fun x => x != k).takeWhile (fun x => x != key) =
          k :: ((recency uses).takeWhile fun x => x != key).filter fun x => x != k := by
        rw [List.takeWhile_cons, if_pos (bne_iff_ne.mpr hk), takeWhile_filter_ne hk]
      rw [if_neg hk, hcons, List.toFinset_cons, List.toFinset_cons, ← ih]
      ext x
      simp only [Finset.mem_insert, List.mem_toFinset, List.mem_filter, bne_iff_ne]
      tauto

/-- A key is among the first of a list if fewer come before it. -/
theorem mem_take_iff_length_takeWhile_lt {keys : List Bytes} {n : ℕ} :
    key ∈ keys.take n ↔ key ∈ keys ∧ (keys.takeWhile fun k => k != key).length < n := by
  induction keys generalizing n with
  | nil => simp
  | cons k rest ih =>
    cases n with
    | zero => simp
    | succ n =>
      rw [List.take_succ_cons, List.mem_cons, List.mem_cons, ih]
      by_cases hk : k = key
      · simp [hk]
      · simp [hk, Ne.symm hk]

/-- A key is among so many used last if it was used, and fewer others were since. -/
theorem mem_take_recency_iff {n : ℕ} :
    key ∈ (recency uses).take n ↔ key ∈ uses ∧ (since key uses).toFinset.card < n := by
  have hnodup : ((recency uses).takeWhile fun k => k != key).Nodup :=
    (nodup_recency uses).sublist (List.takeWhile_sublist _)
  rw [mem_take_iff_length_takeWhile_lt, mem_recency_iff, ← List.toFinset_card_of_nodup hnodup,
    toFinset_takeWhile_recency]

/-- Without one key at most one is missing. -/
theorem length_le_length_filter_ne {keys : List Bytes} (h : keys.Nodup) (key : Bytes) :
    keys.length ≤ (keys.filter fun k => k != key).length + 1 := by
  have hparts := List.length_eq_length_filter_add (l := keys) fun k => k == key
  have hone : (keys.filter fun k => k == key).length ≤ 1 := by
    rw [← List.count_eq_length_filter]
    exact List.nodup_iff_count_le_one.mp h key
  simp only [bne]
  omega

/-- To have the keys used last, only these need to be known when another one is used. -/
theorem take_touch_take {keys : List Bytes} (h : keys.Nodup) (key : Bytes) (n : ℕ) :
    (touch key (keys.take n)).take n = (touch key keys).take n := by
  rcases Nat.le_total keys.length n with hshort | hlong
  · rw [List.take_of_length_le hshort]
  cases n with
  | zero => rfl
  | succ n =>
    have hfront := length_le_length_filter_ne (h.sublist (List.take_sublist (n + 1) keys)) key
    rw [List.length_take, Nat.min_eq_left hlong] at hfront
    have hsplit : (keys.filter fun k => k != key) =
        (keys.take (n + 1)).filter (fun k => k != key) ++
          (keys.drop (n + 1)).filter fun k => k != key := by
      rw [← List.filter_append, List.take_append_drop]
    rw [touch, touch, List.take_succ_cons, List.take_succ_cons, hsplit,
      List.take_append_of_le_length (Nat.le_of_succ_le_succ hfront)]

/-- Using one of the keys does not make them more. -/
theorem length_touch_le_of_mem {keys : List Bytes} (h : key ∈ keys) :
    (touch key keys).length ≤ keys.length := by
  rw [touch, List.length_cons]
  exact List.length_filter_lt_length_iff_exists.mpr ⟨key, h, by simp⟩

/-! ## Keys that are used -/

namespace LruOperation

variable {β : Type}

/-- The operation puts a value that has no lifetime of its own, or it reads. -/
def IsAccess : LruOperation β → Prop
  | .put _ _ _ _ ttlSeconds => ttlSeconds ≤ 0
  | .get _ _ => True
  | _ => False

/-- The key that an operation uses, if its answer is this: a value is put under it or found. -/
def usedKey? : LruOperation β → LruAnswer β → Option Bytes
  | .put _ key _ _ _, _ => some key
  | .get _ key, .found (some _) => some key
  | _, _ => none

end LruOperation

namespace Lru

variable {β : Type}

/-- The keys that operations use, one after another. -/
def usedKeys : Lru β → List (LruOperation β) → List Bytes
  | _, [] => []
  | c, op :: rest => (op.usedKey? (c.perform op).2).toList ++ (c.perform op).1.usedKeys rest

/-- One more operation may use one more key. -/
theorem usedKeys_concat (c : Lru β) (ops : List (LruOperation β)) (op : LruOperation β) :
    c.usedKeys (ops ++ [op]) =
      c.usedKeys ops ++ (op.usedKey? ((c.after ops).perform op).2).toList := by
  induction ops generalizing c with
  | nil => exact List.append_nil _
  | cons op' rest ih =>
    show _ ++ (c.perform op').1.usedKeys (rest ++ [op]) = _
    rw [ih, ← List.append_assoc]
    rfl

variable {capacity : ℕ} {defaultTtl : Int} {ops : List (LruOperation β)}

/-- The keys that are used are those under which values are put. -/
theorem mem_usedKeys_iff : key ∈ (new capacity defaultTtl).usedKeys ops ↔
    key ∈ ops.filterMap LruOperation.putKey? := by
  induction ops using List.reverseRecOn with
  | nil => exact Iff.rfl
  | append_singleton ops op ih =>
    have hlast : key ∈ [op].filterMap LruOperation.putKey? ↔ op.putKey? = some key := by simp
    rw [usedKeys_concat, List.filterMap_append, List.mem_append, List.mem_append, ih,
      Option.mem_toList, hlast]
    cases op with
    | get now k =>
      -- A value that is found was put earlier.
      refine or_congr_right' fun hnew => iff_of_false ?_ nofun
      intro hused
      cases hget : (((new capacity defaultTtl).after ops).get now k).2 with
      | none => simp [perform, LruOperation.usedKey?, hget] at hused
      | some value =>
        obtain ⟨e, he, hkey, -⟩ := exists_mem_of_get_eq_some hget
        obtain rfl : k = key := by simpa [perform, LruOperation.usedKey?, hget] using hused
        exact hnew (hkey ▸ (stands_of_mem_after he).key_mem)
    | _ => exact Iff.rfl

/-- Without lifetimes nothing expires. -/
theorem isExpired_of_mem_after (httl : defaultTtl ≤ 0) (hops : ∀ op ∈ ops, op.IsAccess)
    {e : LruEntry β} (he : e ∈ ((new capacity defaultTtl).after ops).entries) (now : Int) :
    e.isExpired now = false := by
  obtain ⟨before, op, after, rfl, hop, -⟩ := stands_of_mem_after he
  obtain ⟨t, key, value, valueBytes, ttlSeconds, rfl, rfl⟩ := LruOperation.exists_put_of_entry? hop
  have haccess : ttlSeconds ≤ 0 := hops (.put t key value valueBytes ttlSeconds) (by simp)
  have hlifetime : LruOperation.lifetime defaultTtl ttlSeconds = defaultTtl :=
    if_neg (Int.not_lt.mpr haccess)
  rw [LruEntry.isExpired, hlifetime, decide_eq_false (Int.not_lt.mpr httl), Bool.false_and]

/-- Without lifetimes, the entry under a key is always alive. -/
theorem alive?_after (httl : defaultTtl ≤ 0) (hops : ∀ op ∈ ops, op.IsAccess) (now : Int)
    (key : Bytes) : ((new capacity defaultTtl).after ops).alive? now key =
      ((new capacity defaultTtl).after ops).find? key := by
  rw [alive?]
  cases hfind : ((new capacity defaultTtl).after ops).find? key with
  | none => rfl
  | some e =>
    have he := List.mem_of_find?_eq_some hfind
    rw [Option.filter_some, isExpired_of_mem_after httl hops he]
    rfl

/-- A key is found exactly if an entry has it. -/
theorem isSome_find?_iff {c : Lru β} :
    (c.find? key).isSome ↔ key ∈ c.entries.map LruEntry.key := by
  rw [find?, List.find?_isSome, List.mem_map]
  simp only [beq_iff_eq]

/-- Without the entry of a key the other keys stay in their order. -/
theorem map_key_filter (c : Lru β) (key : Bytes) :
    (c.entries.filter fun e => e.key != key).map LruEntry.key =
      (c.entries.map LruEntry.key).filter fun k => k != key := by
  rw [List.filter_map]
  rfl

/-- The key that is used comes first, and what is then beyond the capacity leaves. -/
theorem map_key_perform {c : Lru β} (hsize : c.size ≤ c.capacity)
    (halive : ∀ now key, c.alive? now key = c.find? key) {op : LruOperation β} (hop : op.IsAccess) :
    (c.perform op).1.entries.map LruEntry.key =
      (op.usedKey? (c.perform op).2).elim (c.entries.map LruEntry.key) fun key =>
        (touch key (c.entries.map LruEntry.key)).take c.capacity := by
  cases op with
  | put now key value valueBytes ttlSeconds =>
    show (c.put now key value valueBytes ttlSeconds).entries.map LruEntry.key =
      (touch key (c.entries.map LruEntry.key)).take c.capacity
    rw [entries_put, List.map_take, List.map_cons, map_key_filter]
    rfl
  | get now key =>
    show (c.get now key).1.entries.map LruEntry.key =
      (LruOperation.usedKey? (.get now key) (.found (c.get now key).2)).elim _ _
    rw [entries_get, snd_get, halive, List.map_append, map_key_filter]
    cases hfind : c.find? key with
    | none =>
      rw [← map_key_filter, filter_key_ne_eq_self hfind]
      rfl
    | some e =>
      have hmem : key ∈ c.entries.map LruEntry.key :=
        isSome_find?_iff.mp (Option.isSome_of_eq_some hfind)
      have hlength : (touch key (c.entries.map LruEntry.key)).length ≤ c.capacity :=
        Nat.le_trans (length_touch_le_of_mem hmem) (by rwa [List.length_map])
      obtain rfl := key_of_find?_eq_some hfind
      exact (List.take_of_length_le hlength).symm
  | _ => exact hop.elim

/-- Without lifetimes, the keys of a cache are those that were used last. -/
theorem map_key_entries_after (httl : defaultTtl ≤ 0) (hops : ∀ op ∈ ops, op.IsAccess) :
    ((new capacity defaultTtl).after ops).entries.map LruEntry.key =
      (recency ((new capacity defaultTtl).usedKeys ops)).take (max capacity 1) := by
  induction ops using List.reverseRecOn with
  | nil => simp [usedKeys, recency, after, new]
  | append_singleton ops op ih =>
    obtain ⟨hops, hop⟩ := List.forall_mem_append.mp hops
    have hcapacity := (bounds_after (new capacity defaultTtl : Lru β) ops).1
    have hsize := ((balanced_new capacity defaultTtl).after ops).size_le
    rw [after_concat, usedKeys_concat,
      map_key_perform hsize (alive?_after httl hops) (hop op (List.mem_singleton_self op)),
      ih hops, hcapacity]
    cases op.usedKey? (((new capacity defaultTtl).after ops).perform op).2 with
    | none => rw [Option.toList_none, List.append_nil, Option.elim_none]
    | some key =>
      rw [Option.toList_some, recency_concat, Option.elim_some]
      exact take_touch_take (nodup_recency _) key _

/-! ## Entries that are pushed out -/

/-- How many entries come in under a key that the cache has none under, while it is full. -/
def displacing (c : Lru β) (op : LruOperation β) : ℕ :=
  if c.size = c.capacity then c.entering op else 0

/-- An entry is pushed out exactly if another one comes in while the cache is full. -/
theorem Balanced.evictions_perform {c : Lru β} (h : c.Balanced) (op : LruOperation β) :
    (c.perform op).1.evictions = c.evictions + c.displacing op := by
  have hstays {c' : Lru β} (hsame : c'.evictions = c.evictions) :
      c'.evictions = c.evictions + if c.size = c.capacity then 0 else 0 := by
    rw [ite_self, hsame, Nat.add_zero]
  cases op with
  | put now key value valueBytes ttlSeconds =>
    have hthere := h.distinctKeys.length_filter_add key
    have hle := h.size_le
    have hsize : (c.put now key value valueBytes ttlSeconds).size =
        min c.capacity ((c.entries.filter fun e => e.key != key).length + 1) := by
      rw [size, entries_put, List.length_take, List.length_cons]
    have hput := c.size_put_add now key value valueBytes ttlSeconds
    show (c.put now key value valueBytes ttlSeconds).evictions = _
    rw [displacing, entering]
    cases hfind : c.find? key with
    | none =>
      rw [hfind, Option.toList_none, List.length_nil] at hthere
      rw [Option.isNone_none, if_pos rfl]
      split <;> omega
    | some e =>
      rw [hfind, Option.toList_some, List.length_singleton] at hthere
      rw [Option.isNone_some, if_neg Bool.false_ne_true, ite_self]
      omega
  | get now key =>
    refine hstays ?_
    show (c.get now key).1.evictions = c.evictions
    obtain ⟨-, hget⟩ | ⟨e, -, hget | hget⟩ := c.get_cases now key
    · rw [hget]
    · rw [hget]
      rfl
    · rw [hget]
  | _ => exact hstays rfl

/-- Whatever is asked of a new cache, as many entries were pushed out as came in while it was
full. -/
theorem evictions_after (capacity : ℕ) (defaultTtl : Int) (ops : List (LruOperation β)) :
    ((new capacity defaultTtl).after ops).evictions =
      (new capacity defaultTtl).total displacing ops := by
  induction ops using List.reverseRecOn with
  | nil => rfl
  | append_singleton ops op ih =>
    have hbalanced : ((new capacity defaultTtl : Lru β).after ops).Balanced :=
      (balanced_new capacity defaultTtl).after ops
    rw [after_concat, total_concat, hbalanced.evictions_perform, ih]

/-- In a cache without lifetimes a value is found under a key if one was put there and fewer other
keys than the cache has room for were used since the last use of this one. As many entries were
pushed out as came in, under keys without one, while the cache was full. -/
theorem found_iff_used_recently (capacity : ℕ) (defaultTtl : Int) (ops : List (LruOperation β))
    (httl : defaultTtl ≤ 0) (hops : ∀ op ∈ ops, op.IsAccess) :
    let c := (new capacity defaultTtl).after ops
    let used := (new capacity defaultTtl).usedKeys ops
    (∀ now key, (c.get now key).2.isSome ↔
      (∃ op ∈ ops, op.putKey? = some key) ∧
        (since key used).toFinset.card < max capacity 1) ∧
    c.evictions = (new capacity defaultTtl).total displacing ops := by
  intro c used
  refine ⟨fun now key => ?_, evictions_after capacity defaultTtl ops⟩
  rw [snd_get, Option.isSome_map, alive?_after httl hops, isSome_find?_iff,
    map_key_entries_after httl hops, mem_take_recency_iff, mem_usedKeys_iff, List.mem_filterMap]

/-- In a cache for two entries, a value that was put again or read stays when a third key comes, and
one that was looked for in vain does not count as used. -/
theorem found_iff_used_recently_of_two :
    let a := SourceChunks.bytes "a"
    let b := SourceChunks.bytes "b"
    let c := SourceChunks.bytes "c"
    let ops : List (LruOperation ℕ) :=
      [.put 0 a 1 8 0, .put 1 b 2 8 0, .put 2 a 3 8 0, .get 3 c, .get 4 b, .put 5 c 4 8 0]
    let cache := (new 2 0).after ops
    (new 2 0).usedKeys ops = [a, b, a, b, c] ∧ (cache.get 6 b).2.isSome ∧
      ¬ (cache.get 6 a).2.isSome ∧ cache.evictions = 1 := by
  intro a b c ops cache
  have hops : ∀ op ∈ ops, op.IsAccess := by simp [ops, LruOperation.IsAccess]
  obtain ⟨hfound, hevictions⟩ := found_iff_used_recently 2 0 ops (Int.le_refl 0) hops
  refine ⟨by decide +kernel, (hfound 6 b).mpr ?_, ?_, ?_⟩
  · exact ⟨⟨.put 1 b 2 8 0, by simp [ops], rfl⟩, by decide +kernel⟩
  · exact fun hsome => absurd ((hfound 6 a).mp hsome).2 (by decide +kernel)
  · exact hevictions.trans (by decide +kernel)

end Lru

end SourceChunks
