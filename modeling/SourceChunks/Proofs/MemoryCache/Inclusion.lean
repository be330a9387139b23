import SourceChunks.Proofs.MemoryCache.Lru

/-!
# Bounded caches of two sizes

Two bounded caches that differ only in their capacities are asked the same. Whatever is found in the
smaller one is found in the larger one.

That the larger cache holds all entries of the smaller one does not carry over from one operation
to the next by itself. Reading an entry that only the larger cache has brings it to the front there,
and the entry that is then pushed out at the end might be in the smaller cache still. It is not, as
the larger cache never has more entries beyond those of the smaller one than it has room beyond the
room there.
-/

namespace SourceChunks

/-! ## Lists that lack a few elements -/

/-- The first list has the elements of the second one in their order, except at most so many. -/
structure LacksAtMost {α : Type} (k : ℕ) (s l : List α) : Prop where
  /-- Nothing is added or moved. -/
  sublist : s.Sublist l
  /-- Not more than so many are lacking. -/
  length_le : l.length ≤ s.length + k

namespace LacksAtMost

variable {α : Type} {k : ℕ} {s l : List α}

/-- A list lacks nothing of itself. -/
theorem nil : LacksAtMost k ([] : List α) [] := ⟨.slnil, Nat.zero_le _⟩

/-- More elements in front of both lists make no difference. -/
theorem append_left (h : LacksAtMost k s l) (front : List α) :
    LacksAtMost k (front ++ s) (front ++ l) := by
  refine ⟨h.sublist.append_left front, ?_⟩
  rw [List.length_append, List.length_append, Nat.add_assoc]
  exact Nat.add_le_add_left h.length_le _

/-- Of the elements that a test drops, the longer list has no fewer than the other one. -/
theorem filter (h : LacksAtMost k s l) (p : α → Bool) :
    LacksAtMost k (s.filter p) (l.filter p) := by
  refine ⟨h.sublist.filter p, ?_⟩
  have hdropped := h.sublist.countP_le (p := fun a => decide ¬ p a = true)
  have hs := s.length_eq_countP_add_countP p
  have hl := l.length_eq_countP_add_countP p
  have hlength := h.length_le
  rw [← List.countP_eq_length_filter, ← List.countP_eq_length_filter]
  omega

/-- The longer list may be cut so much later. What it then loses, the other one loses too: it has no
more elements behind the cut than the longer list has. -/
theorem take (h : LacksAtMost k s l) (n : ℕ) : LacksAtMost k (s.take n) (l.take (n + k)) := by
  have hlength := h.length_le
  refine ⟨?_, by rw [List.length_take, List.length_take]; omega⟩
  obtain ⟨before, behind, rfl, hbefore, hbehind⟩ :=
    List.sublist_append_iff.mp ((List.take_append_drop (n + k) l).symm ▸ h.sublist)
  have hcut : behind.take (n - before.length) = [] := by
    have hlost := hbehind.length_le
    rw [List.length_drop] at hlost
    rw [List.length_append] at hlength
    rw [List.take_eq_nil_iff, ← List.length_eq_zero_iff]
    omega
  rw [List.take_append, hcut, List.append_nil]
  exact (List.take_sublist n before).trans hbefore

end LacksAtMost

/-! ## One operation -/

/-- Whatever is found in the first answer is found in the second one. -/
def LruAnswer.HitsToo {β : Type} (a a' : LruAnswer β) : Prop :=
  ∀ value, a = .found (some value) → a' = .found (some value)

namespace Lru

variable {β : Type} {c d : Lru β} {k : ℕ}

/-- The first cache has room for so many entries more than the second one, and holds all of its
entries in their order, and not more than so many others. -/
structure Extends (d c : Lru β) (k : ℕ) : Prop where
  /-- The first cache is larger by so much. -/
  capacity_eq : d.capacity = c.capacity + k
  /-- Entries that are put in have the same lifetimes. -/
  ttl_eq : d.defaultTtlSeconds = c.defaultTtlSeconds
  /-- The second cache lacks at most so many entries. -/
  lacksAtMost : LacksAtMost k c.entries d.entries
  /-- The first cache has one entry for a key at most. -/
  distinctKeys : d.DistinctKeys

/-- The entry under a key in the smaller cache is the one in the larger cache. -/
theorem Extends.find?_eq_some (h : d.Extends c k) {key : Bytes} {e : LruEntry β}
    (hfind : c.find? key = some e) : d.find? key = some e :=
  h.distinctKeys.find?_eq_some_iff.mpr
    ⟨h.lacksAtMost.sublist.subset (List.mem_of_find?_eq_some hfind), key_of_find?_eq_some hfind⟩

/-- A key that the smaller cache holds is alive in the larger one exactly when it is in the smaller
one. -/
theorem Extends.alive?_eq (h : d.Extends c k) (now : Int) {key : Bytes} {e : LruEntry β}
    (hfind : c.find? key = some e) : d.alive? now key = c.alive? now key := by
  rw [alive?, alive?, hfind, h.find?_eq_some hfind]

/-- What is found in the smaller cache is found in the larger one. -/
theorem Extends.hitsToo (h : d.Extends c k) (op : LruOperation β) :
    (c.perform op).2.HitsToo (d.perform op).2 := by
  intro value hhit
  cases op with
  | get now key =>
    have hget : (c.get now key).2 = some value := LruAnswer.found.inj hhit
    show LruAnswer.found (d.get now key).2 = _
    rw [snd_get] at hget ⊢
    obtain ⟨e, halive, rfl⟩ := Option.map_eq_some_iff.mp hget
    rw [h.alive?_eq now (find?_of_alive?_eq_some halive), halive, Option.map_some]
  | _ => exact absurd hhit nofun

/-- Reading does not let the smaller cache lack more: where only the larger cache has the entry that
is asked for, this entry is one of those that are lacking before and after. -/
theorem Extends.lacksAtMost_get (h : d.Extends c k) (now : Int) (key : Bytes) :
    LacksAtMost k (c.get now key).1.entries (d.get now key).1.entries := by
  have hothers := h.lacksAtMost.filter fun e => e.key != key
  rw [entries_get, entries_get]
  cases hfind : c.find? key with
  | some e =>
    rw [h.alive?_eq now hfind]
    exact hothers.append_left _
  | none =>
    have hnone : c.alive? now key = none := by rw [alive?, hfind, Option.filter_none]
    rw [filter_key_ne_eq_self hfind] at hothers ⊢
    rw [hnone, Option.toList_none, List.nil_append]
    cases halive : d.alive? now key with
    | none => exact hothers
    | some e =>
      have hkey := find?_of_alive?_eq_some halive
      have hfewer : (d.entries.filter fun e => e.key != key).length < d.entries.length :=
        List.length_filter_lt_length_iff_exists.mpr
          ⟨e, List.mem_of_find?_eq_some hkey, by simp [key_of_find?_eq_some hkey]⟩
      exact ⟨hothers.sublist.cons e, Nat.le_trans hfewer h.lacksAtMost.length_le⟩

/-- Whatever both caches are asked, the larger one goes on to hold what the smaller one holds. -/
theorem Extends.perform (h : d.Extends c k) (op : LruOperation β) :
    (d.perform op).1.Extends (c.perform op).1 k := by
  refine ⟨?_, ?_, ?_, h.distinctKeys.perform op⟩
  · rw [(bounds_perform d op).1, (bounds_perform c op).1, h.capacity_eq]
  · rw [(bounds_perform d op).2, (bounds_perform c op).2, h.ttl_eq]
  · cases op with
    | put now key value valueBytes ttlSeconds =>
      show LacksAtMost k (c.put now key value valueBytes ttlSeconds).entries
        (d.put now key value valueBytes ttlSeconds).entries
      rw [entries_put, entries_put, h.capacity_eq, h.ttl_eq]
      exact ((h.lacksAtMost.filter fun e => e.key != key).append_left [_]).take c.capacity
    | get now key => exact h.lacksAtMost_get now key
    | invalidate key => exact h.lacksAtMost.filter _
    | invalidatePattern pattern => exact h.lacksAtMost.filter _
    | evictExpired now => exact h.lacksAtMost.filter _
    | clear => exact .nil

/-! ## Any operations -/

/-- New caches hold nothing; the larger one has more room. -/
theorem extends_new {m M : ℕ} (hle : m ≤ M) (ttl : Int) :
    (new M ttl : Lru β).Extends (new m ttl) (max M 1 - max m 1) where
  capacity_eq := by
    show max M 1 = max m 1 + _
    omega
  ttl_eq := rfl
  lacksAtMost := .nil
  distinctKeys := distinctKeys_new M ttl

/-- Whatever the smaller cache hits the larger one hits, answer by answer. -/
theorem Extends.forall₂_answers (h : d.Extends c k) (ops : List (LruOperation β)) :
    List.Forall₂ LruAnswer.HitsToo (c.answers ops) (d.answers ops) := by
  induction ops generalizing c d with
  | nil => exact .nil
  | cons op rest ih => exact .cons (h.hitsToo op) (ih (h.perform op))

/-- Of two new caches with the same lifetime that are asked the same, whatever they are asked and
how often, the one that is not smaller finds all values that the other one finds. -/
theorem forall₂_answers_of_le {m M : ℕ} (hle : m ≤ M) (ttl : Int) (ops : List (LruOperation β)) :
    List.Forall₂ LruAnswer.HitsToo ((new m ttl).answers ops) ((new M ttl).answers ops) :=
  (extends_new hle ttl).forall₂_answers ops

/-- The larger cache finds `a`, which the smaller one has lost, and then both push an entry out. -/
theorem forall₂_answers_of_le_two :
    let a := SourceChunks.bytes "a"
    let b := SourceChunks.bytes "b"
    let c := SourceChunks.bytes "c"
    let ops : List (LruOperation ℕ) :=
      [.put 0 a 1 8 0, .put 1 b 2 8 0, .get 2 a, .put 3 c 3 8 0, .get 4 b, .get 5 c]
    1 ≤ 2 ∧
      (new 1 60).answers ops =
        [.done, .done, .found none, .done, .found none, .found (some 3)] ∧
      (new 2 60).answers ops =
        [.done, .done, .found (some 1), .done, .found none, .found (some 3)] ∧
      List.Forall₂ LruAnswer.HitsToo ((new 1 60).answers ops) ((new 2 60).answers ops) := by
  intro a b c ops
  exact ⟨by decide, by decide +kernel, by decide +kernel, forall₂_answers_of_le (by decide) 60 ops⟩

end Lru

end SourceChunks
