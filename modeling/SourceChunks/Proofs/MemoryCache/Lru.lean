import Mathlib.Data.List.Induction
import Mathlib.Data.List.Nodup
import SourceChunks.MemoryCache.Lru
import SourceChunks.Proofs.Glob

/-!
# A bounded cache in use

Whatever a bounded cache is asked, it holds at most one entry for a key, and only entries that were
put. Reading finds the entry under the key unless it has outlived its lifetime, and makes no
difference to what is read from then on. A run is what comes of operations that are carried out one
after another.
-/

namespace SourceChunks

/-- What may be asked of a bounded cache. Times are in nanoseconds. -/
inductive LruOperation (β : Type) where
  /-- A value of so many bytes is put under a key. -/
  | put (now : Int) (key : Bytes) (value : β) (valueBytes : Nat) (ttlSeconds : Int)
  /-- The value under a key is read. -/
  | get (now : Int) (key : Bytes)
  /-- The entry under a key is removed. -/
  | invalidate (key : Bytes)
  /-- The entries whose keys match a pattern are removed. -/
  | invalidatePattern (pattern : Glob)
  /-- The entries that have outlived their lifetimes are removed. -/
  | evictExpired (now : Int)
  /-- All entries are removed. -/
  | clear

/-- What a bounded cache answers. -/
inductive LruAnswer (β : Type) where
  /-- It is done. -/
  | done
  /-- The value that was read, if there was one. -/
  | found (value : Option β)
  /-- Whether there was an entry to remove. -/
  | removed (wasThere : Bool)
  /-- How many entries are gone. -/
  | gone (count : Nat)
  deriving DecidableEq

namespace Lru

variable {β : Type} {c : Lru β} {e : LruEntry β}

/-- Carry out an operation. -/
def perform (c : Lru β) : LruOperation β → Lru β × LruAnswer β
  | .put now key value valueBytes ttlSeconds => (c.put now key value valueBytes ttlSeconds, .done)
  | .get now key => (c.get now key).map id .found
  | .invalidate key => (c.invalidate key).map id .removed
  | .invalidatePattern pattern => (c.invalidatePattern pattern).map id .gone
  | .evictExpired now => (c.evictExpired now).map id .gone
  | .clear => (c.clear, .done)

/-- The answers to operations that are carried out one after another. -/
def answers : Lru β → List (LruOperation β) → List (LruAnswer β)
  | _, [] => []
  | c, op :: rest => (c.perform op).2 :: (c.perform op).1.answers rest

/-! ## Reading -/

/-- The entry under a key, unless it has outlived its lifetime. -/
def alive? (c : Lru β) (now : Int) (key : Bytes) : Option (LruEntry β) :=
  (c.find? key).filter fun e => !e.isExpired now

/-- An entry that is found has the key it was looked for under. -/
theorem key_of_find?_eq_some {key : Bytes} (h : c.find? key = some e) : e.key = key :=
  beq_iff_eq.mp (List.find?_some (p := fun e : LruEntry β => e.key == key) h)

/-- An entry that is alive is found. -/
theorem find?_of_alive?_eq_some {now : Int} {key : Bytes} (h : c.alive? now key = some e) :
    c.find? key = some e := (Option.filter_eq_some_iff.mp h).1

/-- Without an entry under the key, all entries are under other keys. -/
theorem filter_key_ne_eq_self {key : Bytes} (h : c.find? key = none) :
    (c.entries.filter fun e => e.key != key) = c.entries := by
  refine List.filter_eq_self.mpr ?_
  intro e he
  simpa using List.find?_eq_none.mp h e he

/-- What is read is the value of the entry under the key, unless it has outlived its lifetime. -/
theorem snd_get (c : Lru β) (now : Int) (key : Bytes) :
    (c.get now key).2 = (c.alive? now key).map LruEntry.value := by
  rw [get, alive?]
  cases hfind : c.find? key with
  | none => rfl
  | some e => cases hexpired : e.isExpired now <;> simp [hexpired, Option.filter]

/-- Reading puts the entry that is asked for in front of the others, if it is alive, and drops it if
it is not. -/
theorem entries_get (c : Lru β) (now : Int) (key : Bytes) :
    (c.get now key).1.entries =
      (c.alive? now key).toList ++ c.entries.filter fun e => e.key != key := by
  rw [get, alive?]
  cases hfind : c.find? key with
  | none => exact (filter_key_ne_eq_self hfind).symm
  | some e =>
    cases hexpired : e.isExpired now <;> simp [hexpired, Option.filter, invalidate, retain]

/-- Reading puts no entry in. -/
theorem mem_entries_of_mem_get {now : Int} {key : Bytes} (h : e ∈ (c.get now key).1.entries) :
    e ∈ c.entries := by
  rw [entries_get] at h
  rcases List.mem_append.mp h with h | h
  · exact List.mem_of_find?_eq_some (find?_of_alive?_eq_some (Option.mem_toList.mp h))
  · exact (List.mem_filter.mp h).1

/-- What is read is the value of an entry under the key. -/
theorem exists_mem_of_get_eq_some {now : Int} {key : Bytes} {value : β}
    (h : (c.get now key).2 = some value) : ∃ e ∈ c.entries, e.key = key ∧ e.value = value := by
  rw [snd_get] at h
  obtain ⟨e, halive, hvalue⟩ := Option.map_eq_some_iff.mp h
  have hfind := find?_of_alive?_eq_some halive
  exact ⟨e, List.mem_of_find?_eq_some hfind, key_of_find?_eq_some hfind, hvalue⟩

/-- Keeping the entries whose keys satisfy a test leaves what is found under these keys. -/
theorem find?_filter_key (es : List (LruEntry β)) (keep : Bytes → Bool) (key : Bytes) :
    (es.filter fun e => keep e.key).find? (fun e => e.key == key) =
      if keep key then es.find? fun e => e.key == key else none := by
  rw [List.find?_filter]
  split
  · next hkeep =>
    congr 1
    funext e
    by_cases he : e.key = key
    · simp [he, hkeep]
    · simp [he]
  · next hdrop =>
    rw [List.find?_eq_none]
    rintro e - he
    obtain ⟨hkeep, rfl⟩ : keep e.key = true ∧ e.key = key := by simpa using he
    exact hdrop hkeep

/-- Reading leaves every entry, but the one that is asked for only if it is alive. -/
theorem find?_get (c : Lru β) (now : Int) (key key' : Bytes) :
    (c.get now key).1.find? key' =
      if key' = key then c.alive? now key else c.find? key' := by
  rw [find?, entries_get, List.find?_append, find?_filter_key c.entries (· != key) key', ← find?]
  cases halive : c.alive? now key with
  | none => by_cases hsame : key' = key <;> simp [hsame]
  | some e =>
    have hkey : e.key = key := key_of_find?_eq_some (find?_of_alive?_eq_some halive)
    by_cases hsame : key' = key
    · simp [hsame, hkey]
    · simp [hsame, hkey, Ne.symm hsame]

/-- What has outlived its lifetime will not come to life again. -/
theorem isExpired_of_le {now now' : Int} (h : now ≤ now') (he : e.isExpired now) :
    e.isExpired now' := by
  rw [LruEntry.isExpired, Bool.and_eq_true, decide_eq_true_eq, decide_eq_true_eq] at he ⊢
  omega

/-- Reading makes no difference to what is read from then on. -/
theorem snd_get_get {now now' : Int} (h : now ≤ now') (key key' : Bytes) :
    ((c.get now key).1.get now' key').2 = (c.get now' key').2 := by
  rw [snd_get, snd_get, alive?, find?_get, alive?, alive?]
  split
  · next heq =>
    subst heq
    congr 1
    cases c.find? key' with
    | none => rfl
    | some e =>
      cases hexpired : e.isExpired now with
      | true => simp [Option.filter, hexpired, isExpired_of_le h hexpired]
      | false => simp [Option.filter, hexpired]
  · rfl

/-! ## Dropping and putting -/

/-- Dropping a pattern leaves what is read under keys that do not match it. -/
theorem snd_get_invalidatePattern (c : Lru β) (pattern : Glob) (now : Int) (key : Bytes) :
    ((c.invalidatePattern pattern).1.get now key).2 =
      if pattern.accepts key then none else (c.get now key).2 := by
  have hfind : (c.invalidatePattern pattern).1.find? key =
      if !pattern.accepts key then c.find? key else none :=
    find?_filter_key c.entries (fun k => !pattern.accepts k) key
  rw [snd_get, snd_get, alive?, hfind, alive?]
  cases pattern.accepts key <;> rfl

/-- Putting puts the new entry in front of those under other keys, and pushes out what is beyond the
capacity. -/
theorem entries_put (c : Lru β) (now : Int) (key : Bytes) (value : β) (valueBytes : Nat)
    (ttlSeconds : Int) :
    (c.put now key value valueBytes ttlSeconds).entries =
      (⟨key, value, now, if 0 < ttlSeconds then ttlSeconds else c.defaultTtlSeconds,
        key.length + valueBytes⟩ :: c.entries.filter fun e => e.key != key).take c.capacity :=
  rfl

/-- Only the value that is put comes in, in place of what was there under its key. -/
theorem mem_entries_of_mem_put {now ttlSeconds : Int} {key : Bytes} {value : β} {valueBytes : Nat}
    (h : e ∈ (c.put now key value valueBytes ttlSeconds).entries) :
    e.key = key ∧ e.value = value ∨ e.key ≠ key ∧ e ∈ c.entries := by
  rw [entries_put] at h
  rcases List.mem_cons.mp (List.mem_of_mem_take h) with rfl | h
  · exact .inl ⟨rfl, rfl⟩
  · obtain ⟨he, hkey⟩ := List.mem_filter.mp h
    exact .inr ⟨bne_iff_ne.mp hkey, he⟩

/-! ## Distinct keys -/

/-- No two entries have the same key. -/
def DistinctKeys (c : Lru β) : Prop := (c.entries.map LruEntry.key).Nodup

/-- In a cache with distinct keys each entry is found under its key. -/
theorem DistinctKeys.find?_eq_some_iff (h : c.DistinctKeys) {key : Bytes} :
    c.find? key = some e ↔ e ∈ c.entries ∧ e.key = key := by
  constructor
  · intro hfind
    exact ⟨List.mem_of_find?_eq_some hfind, key_of_find?_eq_some hfind⟩
  · rintro ⟨he, rfl⟩
    cases hfind : c.find? e.key with
    | none => exact absurd (List.find?_eq_none.mp hfind e he) (by simp)
    | some e' =>
      have hkey := key_of_find?_eq_some hfind
      rw [List.inj_on_of_nodup_map h (List.mem_of_find?_eq_some hfind) he hkey]

/-- Leaving entries out keeps the keys of a cache distinct. -/
theorem DistinctKeys.of_sublist (h : c.DistinctKeys) {es : List (LruEntry β)}
    (hes : es.Sublist c.entries) : (es.map LruEntry.key).Nodup :=
  List.Nodup.sublist (hes.map _) h

/-- An entry in place of the one under its key keeps the keys of a cache distinct. -/
theorem DistinctKeys.cons_filter (h : c.DistinctKeys) (e : LruEntry β) :
    ((e :: c.entries.filter fun e' => e'.key != e.key).map LruEntry.key).Nodup := by
  rw [List.map_cons, List.nodup_cons]
  refine ⟨?_, h.of_sublist List.filter_sublist⟩
  intro hmem
  obtain ⟨e', he', hkey⟩ := List.mem_map.mp hmem
  exact bne_iff_ne.mp (List.mem_filter.mp he').2 hkey

/-- A new cache has no entries, so their keys are distinct. -/
theorem distinctKeys_new (capacity : Nat) (ttl : Int) : (new capacity ttl : Lru β).DistinctKeys :=
  List.nodup_nil

/-- Whatever a cache is asked, its keys stay distinct. -/
theorem DistinctKeys.perform (h : c.DistinctKeys) (op : LruOperation β) :
    (c.perform op).1.DistinctKeys := by
  cases op with
  | put now key value valueBytes ttlSeconds =>
    show ((c.put now key value valueBytes ttlSeconds).entries.map LruEntry.key).Nodup
    rw [entries_put]
    exact List.Nodup.sublist ((List.take_sublist ..).map _) (h.cons_filter _)
  | get now key =>
    show ((c.get now key).1.entries.map LruEntry.key).Nodup
    rw [entries_get]
    cases halive : c.alive? now key with
    | none => exact h.of_sublist List.filter_sublist
    | some e =>
      obtain rfl := key_of_find?_eq_some (find?_of_alive?_eq_some halive)
      exact h.cons_filter e
  | invalidate key => exact h.of_sublist List.filter_sublist
  | invalidatePattern pattern => exact h.of_sublist List.filter_sublist
  | evictExpired now => exact h.of_sublist List.filter_sublist
  | clear => exact List.nodup_nil

/-! ## Runs -/

/-- No operation changes how much a cache may hold, or how long. -/
theorem bounds_perform (c : Lru β) (op : LruOperation β) :
    (c.perform op).1.capacity = c.capacity ∧
      (c.perform op).1.defaultTtlSeconds = c.defaultTtlSeconds := by
  cases op with
  | get now key =>
    show (c.get now key).1.capacity = _ ∧ (c.get now key).1.defaultTtlSeconds = _
    rw [get]
    split
    · exact ⟨rfl, rfl⟩
    · split <;> exact ⟨rfl, rfl⟩
  | _ => exact ⟨rfl, rfl⟩

/-- What a cache is after some operations. -/
def after (c : Lru β) (ops : List (LruOperation β)) : Lru β :=
  ops.foldl (fun c op => (c.perform op).1) c

/-- Operations are carried out part by part. -/
theorem after_append (c : Lru β) (ops ops' : List (LruOperation β)) :
    c.after (ops ++ ops') = (c.after ops).after ops' := List.foldl_append

/-- The last operation is carried out in the cache that the others leave. -/
theorem after_concat (c : Lru β) (ops : List (LruOperation β)) (op : LruOperation β) :
    c.after (ops ++ [op]) = ((c.after ops).perform op).1 := after_append c ops [op]

/-- After any operations a cache may hold as much as before, and as long. -/
theorem bounds_after (c : Lru β) (ops : List (LruOperation β)) :
    (c.after ops).capacity = c.capacity ∧
      (c.after ops).defaultTtlSeconds = c.defaultTtlSeconds := by
  induction ops using List.reverseRecOn with
  | nil => exact ⟨rfl, rfl⟩
  | append_singleton ops op ih =>
    obtain ⟨hcapacity, httl⟩ := bounds_perform (c.after ops) op
    rw [after_concat, hcapacity, httl]
    exact ih

/-- After any operations the keys of a cache are distinct if they were before. -/
theorem DistinctKeys.after (h : c.DistinctKeys) (ops : List (LruOperation β)) :
    (c.after ops).DistinctKeys := by
  induction ops using List.reverseRecOn with
  | nil => exact h
  | append_singleton ops op ih =>
    rw [after_concat]
    exact ih.perform op

end Lru

end SourceChunks
