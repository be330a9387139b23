import Mathlib.Algebra.GroupWithZero.Nat
import SourceChunks.Proofs.MemoryCache.Lru

/-!
# What a bounded cache counts

A bounded cache counts its bytes, its hits and misses and the entries it has lost. Each operation
changes the counters by what it does to the entries, so they balance: the bytes are those of the
entries, and each entry that ever came in is still there, or was counted once where it left.
-/

namespace SourceChunks

namespace LruOperation

variable {β : Type}

/-- The operation reads. -/
def isGet : LruOperation β → Bool
  | .get _ _ => true
  | _ => false

end LruOperation

namespace Lru

variable {β : Type} {c : Lru β}

/-- Reading finds nothing, or drops an entry that has outlived its lifetime, or finds one that is
alive and puts it in front of the others. -/
theorem get_cases (c : Lru β) (now : Int) (key : Bytes) :
    (c.find? key = none ∧ c.get now key = ({ c with misses := c.misses + 1 }, none)) ∨
      ∃ e, c.find? key = some e ∧
        (c.get now key =
            ({ (c.invalidate key).1 with
                misses := c.misses + 1
                expirations := c.expirations + 1 }, none) ∨
          c.get now key =
            ({ c with
                entries := e :: c.entries.filter fun e => e.key != key
                hits := c.hits + 1 }, some e.value)) := by
  rw [get]
  cases hfind : c.find? key with
  | none => exact .inl ⟨rfl, rfl⟩
  | some e =>
    refine .inr ⟨e, rfl, ?_⟩
    cases hexpired : e.isExpired now with
    | true => exact .inl (if_pos hexpired)
    | false => exact .inr (if_neg (Bool.eq_false_iff.mp hexpired))

/-! ## Entries that are left out -/

/-- In a cache with distinct keys there are no other entries under a key than the one that is
found. -/
theorem DistinctKeys.filter_key_eq (h : c.DistinctKeys) (key : Bytes) :
    (c.entries.filter fun e => e.key == key) = (c.find? key).toList := by
  cases hfind : c.find? key with
  | none => exact List.filter_eq_nil_iff.mpr (List.find?_eq_none.mp hfind)
  | some e =>
    refine List.perm_singleton.mp ((List.perm_ext_iff_of_nodup ?_ (List.nodup_singleton e)).mpr ?_)
    · exact (List.Nodup.of_map _ h).filter _
    · intro e'
      rw [List.mem_filter, List.mem_singleton, beq_iff_eq, ← h.find?_eq_some_iff, hfind]
      exact Option.some_inj.trans eq_comm

/-- The entry that is found is the only one that is not under other keys. -/
theorem DistinctKeys.length_filter_add (h : c.DistinctKeys) (key : Bytes) :
    (c.entries.filter fun e => e.key != key).length + (c.find? key).toList.length = c.size := by
  have hparts := List.length_eq_length_filter_add (l := c.entries) fun e => e.key == key
  rw [h.filter_key_eq, Nat.add_comm] at hparts
  exact hparts.symm

/-- The bytes of entries are the sum of the bytes of each. -/
theorem bytesOf_eq_sum (es : List (LruEntry β)) : bytesOf es = (es.map LruEntry.bytes).sum := by
  rw [bytesOf, List.sum_eq_foldr, List.foldr_map]

/-- The bytes of entries add up. -/
theorem bytesOf_append (es es' : List (LruEntry β)) :
    bytesOf (es ++ es') = bytesOf es + bytesOf es' := by
  rw [bytesOf_eq_sum, bytesOf_eq_sum, bytesOf_eq_sum, List.map_append, List.sum_append]

/-- The bytes of some entries are those of the ones that are kept and of the ones that are not. -/
theorem bytesOf_filter_add (es : List (LruEntry β)) (keep : LruEntry β → Bool) :
    bytesOf (es.filter keep) + bytesOf (es.filter fun e => !keep e) = bytesOf es := by
  induction es with
  | nil => rfl
  | cons e es ih =>
    have hcons (es : List (LruEntry β)) : bytesOf (e :: es) = e.bytes + bytesOf es := rfl
    cases hkeep : keep e <;> simp only [List.filter_cons, hkeep, Bool.not_true, Bool.not_false,
      if_true, Bool.false_eq_true, if_false, hcons] <;> omega

/-! ## Bytes -/

/-- The bytes are those of the entries. -/
def Weighed (c : Lru β) : Prop := c.bytes = bytesOf c.entries

/-- Leaving entries out takes off their bytes. -/
theorem Weighed.retain (h : c.Weighed) (keep : LruEntry β → Bool) : (c.retain keep).1.Weighed := by
  have hparts := bytesOf_filter_add c.entries keep
  show c.bytes - bytesOf (c.entries.filter fun e => !keep e) = bytesOf (c.entries.filter keep)
  rw [h]
  omega

/-- Pushing entries out takes off their bytes. -/
theorem Weighed.trim (h : c.Weighed) : c.trim.Weighed := by
  have hparts := bytesOf_append (c.entries.take c.capacity) (c.entries.drop c.capacity)
  rw [List.take_append_drop] at hparts
  show c.bytes - bytesOf (c.entries.drop c.capacity) = bytesOf (c.entries.take c.capacity)
  rw [h]
  omega

/-- Reading an entry that is alive only moves it. -/
theorem bytesOf_cons_filter (hkeys : c.DistinctKeys) {key : Bytes} {e : LruEntry β}
    (hfind : c.find? key = some e) :
    bytesOf (e :: c.entries.filter fun e => e.key != key) = bytesOf c.entries := by
  rw [← bytesOf_filter_add c.entries fun e => e.key == key, hkeys.filter_key_eq, hfind,
    Option.toList_some, ← bytesOf_append]
  rfl

/-- Each operation takes off the bytes of the entries that leave and adds those of the one that
comes. -/
theorem Weighed.perform (h : c.Weighed) (hkeys : c.DistinctKeys) (op : LruOperation β) :
    (c.perform op).1.Weighed := by
  cases op with
  | put now key value valueBytes ttlSeconds =>
    have hothers := h.retain fun e => e.key != key
    refine Weighed.trim ?_
    show (c.retain fun e => e.key != key).1.bytes + (key.length + valueBytes) =
      (key.length + valueBytes) + bytesOf (c.retain fun e => e.key != key).1.entries
    rw [hothers, Nat.add_comm]
  | get now key =>
    show (c.get now key).1.Weighed
    obtain ⟨-, hget⟩ | ⟨e, hfind, hget | hget⟩ := c.get_cases now key
    · rw [hget]
      exact h
    · rw [hget]
      exact h.retain _
    · rw [hget]
      exact h.trans (bytesOf_cons_filter hkeys hfind).symm
  | invalidate key => exact h.retain _
  | invalidatePattern pattern => exact h.retain _
  | evictExpired now => exact h.retain _
  | clear => rfl

/-! ## Entries that come and go -/

/-- How many entries come in under a key that the cache has none under. -/
def entering (c : Lru β) : LruOperation β → ℕ
  | .put _ key _ _ _ => if (c.find? key).isNone then 1 else 0
  | _ => 0

/-- How many entries an operation is asked to remove, as it answers. -/
def removed (c : Lru β) : LruOperation β → ℕ
  | .invalidate key => if (c.invalidate key).2 then 1 else 0
  | .invalidatePattern pattern => (c.invalidatePattern pattern).2
  | _ => 0

/-- How many entries go when all are removed. -/
def cleared (c : Lru β) : LruOperation β → ℕ
  | .clear => c.size
  | _ => 0

/-- The entries that leave are counted by the answer. -/
theorem size_retain_add (c : Lru β) (keep : LruEntry β → Bool) :
    (c.retain keep).1.size + (c.retain keep).2 = c.size :=
  (List.length_eq_length_filter_add keep).symm

/-- Removing tells whether there is an entry under the key. -/
theorem DistinctKeys.snd_invalidate (h : c.DistinctKeys) (key : Bytes) :
    (c.invalidate key).2 = (c.find? key).isSome := by
  have hgone : (c.retain fun e => e.key != key).2 = (c.find? key).toList.length := by
    rw [← h.filter_key_eq]
    simp [retain, bne]
  show ((c.retain fun e => e.key != key).2 != 0) = (c.find? key).isSome
  rw [hgone]
  cases c.find? key <;> rfl

/-- Removing the entry under a key takes away one entry if there is one. -/
theorem size_invalidate_add (h : c.DistinctKeys) (key : Bytes) :
    (c.invalidate key).1.size + (if (c.invalidate key).2 then 1 else 0) = c.size := by
  rw [h.snd_invalidate, ← h.length_filter_add key]
  cases c.find? key <;> rfl

/-- Pushing out takes away what is beyond the capacity, and counts it. -/
theorem size_trim_add (c : Lru β) : c.trim.size + c.trim.evictions = c.size + c.evictions := by
  have hparts := congrArg List.length (List.take_append_drop c.capacity c.entries)
  rw [List.length_append] at hparts
  show (c.entries.take c.capacity).length + (c.evictions + (c.entries.drop c.capacity).length) =
    c.entries.length + c.evictions
  omega

/-- What is put comes in beside the entries under other keys; all together are there afterwards or
were pushed out. -/
theorem size_put_add (c : Lru β) (now : Int) (key : Bytes) (value : β) (valueBytes : ℕ)
    (ttlSeconds : Int) :
    (c.put now key value valueBytes ttlSeconds).size +
        (c.put now key value valueBytes ttlSeconds).evictions =
      (c.entries.filter fun e => e.key != key).length + 1 + c.evictions := by
  rw [put, size_trim_add]
  rfl

/-- Each entry that was there or comes in with an operation is there afterwards, or it is counted in
one place: it was pushed out, had outlived its lifetime, or was removed. -/
theorem size_perform_add (h : c.DistinctKeys) (op : LruOperation β) :
    (c.perform op).1.size + (c.perform op).1.evictions + (c.perform op).1.expirations +
        c.removed op + c.cleared op =
      c.size + c.evictions + c.expirations + c.entering op := by
  cases op with
  | put now key value valueBytes ttlSeconds =>
    have hput := c.size_put_add now key value valueBytes ttlSeconds
    have hothers := h.length_filter_add key
    have hexpirations : (c.put now key value valueBytes ttlSeconds).expirations = c.expirations :=
      rfl
    simp only [perform, removed, cleared, entering, hexpirations]
    cases hfind : c.find? key with
    | none =>
      rw [hfind, Option.toList_none, List.length_nil] at hothers
      rw [Option.isNone_none, if_pos rfl]
      omega
    | some e =>
      rw [hfind, Option.toList_some, List.length_singleton] at hothers
      rw [Option.isNone_some, if_neg Bool.false_ne_true]
      omega
  | get now key =>
    show (c.get now key).1.size + (c.get now key).1.evictions + (c.get now key).1.expirations =
      c.size + c.evictions + c.expirations
    have hothers := h.length_filter_add key
    obtain ⟨-, hget⟩ | ⟨e, hfind, hget | hget⟩ := c.get_cases now key
    · rw [hget]
      rfl
    · rw [hfind, Option.toList_some, List.length_singleton] at hothers
      rw [hget, ← hothers]
      show (c.entries.filter fun e => e.key != key).length + c.evictions + (c.expirations + 1) = _
      omega
    · rw [hfind, Option.toList_some, List.length_singleton] at hothers
      rw [hget, ← hothers]
      rfl
  | invalidate key =>
    have hsize := size_invalidate_add h key
    show (c.invalidate key).1.size + c.evictions + c.expirations +
        (if (c.invalidate key).2 then 1 else 0) = c.size + c.evictions + c.expirations
    omega
  | invalidatePattern pattern =>
    have hsize := c.size_retain_add fun e => !pattern.accepts e.key
    show (c.invalidatePattern pattern).1.size + c.evictions + c.expirations +
        (c.invalidatePattern pattern).2 = c.size + c.evictions + c.expirations
    rw [invalidatePattern]
    omega
  | evictExpired now =>
    have hsize := c.size_retain_add fun e => !e.isExpired now
    show (c.retain fun e => !e.isExpired now).1.size + c.evictions +
        (c.expirations + (c.retain fun e => !e.isExpired now).2) =
      c.size + c.evictions + c.expirations
    omega
  | clear =>
    show 0 + c.evictions + c.expirations + 0 + c.size = c.size + c.evictions + c.expirations
    omega

/-- Each operation that reads counts as a hit or as a miss, and no other one does. -/
theorem lookups_perform (c : Lru β) (op : LruOperation β) :
    (c.perform op).1.hits + (c.perform op).1.misses =
      c.hits + c.misses + if op.isGet then 1 else 0 := by
  cases op with
  | get now key =>
    show (c.get now key).1.hits + (c.get now key).1.misses = c.hits + c.misses + 1
    obtain ⟨-, hget⟩ | ⟨e, -, hget | hget⟩ := c.get_cases now key
    · rw [hget, Nat.add_assoc]
    · rw [hget, Nat.add_assoc]
      rfl
    · rw [hget, Nat.add_right_comm]
  | _ => rfl

/-! ## Caches in balance -/

/-- A cache holds one entry for a key at most and no more entries than it may, and its bytes are
those of the entries. -/
structure Balanced (c : Lru β) : Prop where
  /-- No two entries have the same key. -/
  distinctKeys : c.DistinctKeys
  /-- The entries are no more than the capacity. -/
  size_le : c.size ≤ c.capacity
  /-- The bytes are those of the entries. -/
  weighed : c.Weighed

/-- A new cache is balanced. -/
theorem balanced_new (capacity : ℕ) (ttl : Int) : (new capacity ttl : Lru β).Balanced :=
  ⟨distinctKeys_new capacity ttl, Nat.zero_le _, rfl⟩

/-- No operation leaves more entries than a cache may hold. -/
theorem Balanced.size_perform_le (h : c.Balanced) (op : LruOperation β) :
    (c.perform op).1.size ≤ c.capacity := by
  have hretain (keep : LruEntry β → Bool) : (c.retain keep).1.size ≤ c.capacity :=
    Nat.le_trans (List.length_filter_le ..) h.size_le
  cases op with
  | put now key value valueBytes ttlSeconds =>
    show (c.put now key value valueBytes ttlSeconds).entries.length ≤ c.capacity
    rw [entries_put, List.length_take]
    exact Nat.min_le_left ..
  | get now key =>
    show (c.get now key).1.size ≤ c.capacity
    obtain ⟨-, hget⟩ | ⟨e, hfind, hget | hget⟩ := c.get_cases now key
    · rw [hget]
      exact h.size_le
    · rw [hget]
      exact hretain _
    · have hothers := h.distinctKeys.length_filter_add key
      rw [hfind] at hothers
      rw [hget]
      exact Nat.le_trans (Nat.le_of_eq hothers) h.size_le
  | invalidate key => exact hretain _
  | invalidatePattern pattern => exact hretain _
  | evictExpired now => exact hretain _
  | clear => exact Nat.zero_le _

/-- Every operation keeps a cache balanced. -/
theorem Balanced.perform (h : c.Balanced) (op : LruOperation β) : (c.perform op).1.Balanced where
  distinctKeys := h.distinctKeys.perform op
  size_le := by
    rw [(bounds_perform c op).1]
    exact h.size_perform_le op
  weighed := h.weighed.perform h.distinctKeys op

/-- A cache in balance stays so, whatever it is asked. -/
theorem Balanced.after (h : c.Balanced) (ops : List (LruOperation β)) : (c.after ops).Balanced := by
  induction ops using List.reverseRecOn with
  | nil => exact h
  | append_singleton ops op ih =>
    rw [after_concat]
    exact ih.perform op

/-! ## Any operations -/

/-- The sum of what each operation counts for, in the cache that it is carried out in. -/
def total (f : Lru β → LruOperation β → ℕ) : Lru β → List (LruOperation β) → ℕ
  | _, [] => 0
  | c, op :: rest => f c op + (c.perform op).1.total f rest

/-- One more operation adds what it counts for in the cache it is carried out in. -/
theorem total_concat (f : Lru β → LruOperation β → ℕ) (c : Lru β) (ops : List (LruOperation β))
    (op : LruOperation β) : c.total f (ops ++ [op]) = c.total f ops + f (c.after ops) op := by
  induction ops generalizing c with
  | nil => exact Nat.add_comm ..
  | cons op' rest ih =>
    show f c op' + (c.perform op').1.total f (rest ++ [op]) = _
    rw [ih, ← Nat.add_assoc]
    rfl

/-- Whatever is asked, all entries that came into a new cache are there, or were pushed out, had
outlived their lifetimes or were removed. -/
theorem size_after_add (capacity : ℕ) (defaultTtl : Int) (ops : List (LruOperation β)) :
    ((new capacity defaultTtl).after ops).size + ((new capacity defaultTtl).after ops).evictions +
        ((new capacity defaultTtl).after ops).expirations +
        (new capacity defaultTtl).total removed ops + (new capacity defaultTtl).total cleared ops =
      (new capacity defaultTtl).total entering ops := by
  induction ops using List.reverseRecOn with
  | nil => rfl
  | append_singleton ops op ih =>
    have hstep := size_perform_add ((distinctKeys_new capacity defaultTtl).after ops) op
    rw [after_concat, total_concat, total_concat, total_concat]
    omega

/-- Whatever is asked of a new cache, each operation that reads counts once. -/
theorem lookups_after (capacity : ℕ) (defaultTtl : Int) (ops : List (LruOperation β)) :
    ((new capacity defaultTtl).after ops).hits + ((new capacity defaultTtl).after ops).misses =
      ops.countP LruOperation.isGet := by
  induction ops using List.reverseRecOn with
  | nil => rfl
  | append_singleton ops op ih =>
    rw [after_concat, lookups_perform, ih, List.countP_append, List.countP_singleton]

end Lru

end SourceChunks
