import Mathlib.Algebra.Group.Int.Defs
import Mathlib.Data.Finset.Card
import SourceChunks.Proofs.History
import SourceChunks.Proofs.MemoryCache.Lru

/-!
# What a bounded cache finds

What is read was put last under its key, was not removed since, and has not outlived the lifetime
that it was put with, whether it was read before or not. A cache lacks such a value only if it was
pushed out, and nothing is as long as no more keys were put than the cache has room for.

An entry stands from the operation that puts it until one that puts another one in its place or
removes it. All entries of a cache stand, and while nothing is pushed out, all that stand and are
alive are in the cache.

Lifetimes are compared with ages in a word of nanoseconds. One that the word cannot hold wraps
around to a shorter one, so what is found never outlived its lifetime, but a value that has not
outlived its lifetime may be lacking.
-/

namespace SourceChunks

/-! ## Entries that stand -/

namespace LruOperation

variable {β : Type}

/-- The key under which an operation puts a value, if it does. -/
def putKey? : LruOperation β → Option Bytes
  | .put _ key _ _ _ => some key
  | _ => none

/-- When an operation is carried out, where this matters. -/
def time? : LruOperation β → Option Int
  | .put now _ _ _ _ | .get now _ | .evictExpired now => some now
  | _ => none

/-- An operation ends what was there under a key: it puts a value in its place or removes it. -/
def Ends (key : Bytes) : LruOperation β → Prop
  | .put _ k _ _ _ => k = key
  | .invalidate k => k = key
  | .invalidatePattern pattern => Glob.Matches pattern key
  | .clear => True
  | .get _ _ => False
  | .evictExpired _ => False

/-- How many seconds an entry lives that is put with a lifetime of its own. -/
def lifetime (defaultTtl ttlSeconds : Int) : Int :=
  if 0 < ttlSeconds then ttlSeconds else defaultTtl

/-- The value was put last under the key, nothing has removed it since, and the time since it was
put is one that its lifetime allows. A lifetime that is not positive has no end. -/
def LastsWhile (allows : Int → Int → Prop) (ops : List (LruOperation β)) (defaultTtl now : Int)
    (key : Bytes) (value : β) : Prop :=
  ∃ t valueBytes ttlSeconds,
    NoneSince (Ends key) (· = .put t key value valueBytes ttlSeconds) ops ∧
    (0 < lifetime defaultTtl ttlSeconds → allows (lifetime defaultTtl ttlSeconds) (now - t))

/-- The value was put last under the key, nothing has removed it since, and the time since it was
put does not exceed its lifetime. -/
def Lasts (ops : List (LruOperation β)) (defaultTtl now : Int) (key : Bytes) (value : β) : Prop :=
  LastsWhile (fun seconds age => age ≤ seconds * 1000000000) ops defaultTtl now key value

/-- The value lasts, and its lifetime, if it has an end, is less than `2 ^ 63` nanoseconds, which is
about 292 years. -/
def LastsInWord (ops : List (LruOperation β)) (defaultTtl now : Int) (key : Bytes) (value : β) :
    Prop :=
  LastsWhile (fun seconds age => age ≤ seconds * 1000000000 ∧ seconds * 1000000000 < 2 ^ 63)
    ops defaultTtl now key value

/-- The entry that an operation puts into a cache, if it does. -/
def entry? (defaultTtl : Int) : LruOperation β → Option (LruEntry β)
  | .put now key value valueBytes ttlSeconds =>
    some ⟨key, value, now, lifetime defaultTtl ttlSeconds, key.length + valueBytes⟩
  | _ => none

/-- The entry was put and neither replaced nor removed since. -/
def Stands (ops : List (LruOperation β)) (defaultTtl : Int) (e : LruEntry β) : Prop :=
  NoneSince (Ends e.key) (fun op => op.entry? defaultTtl = some e) ops

variable {ops : List (LruOperation β)} {defaultTtl now : Int} {e : LruEntry β}

/-- An entry comes of an operation that puts its value. -/
theorem exists_put_of_entry? {op : LruOperation β} (h : op.entry? defaultTtl = some e) :
    ∃ t key value valueBytes ttlSeconds, op = .put t key value valueBytes ttlSeconds ∧
      e = ⟨key, value, t, lifetime defaultTtl ttlSeconds, key.length + valueBytes⟩ := by
  cases op with
  | put t key value valueBytes ttlSeconds =>
    exact ⟨t, key, value, valueBytes, ttlSeconds, rfl, (Option.some.inj h).symm⟩
  | _ => exact absurd h nofun

/-- An operation that makes an entry puts its key. -/
theorem putKey?_of_entry? {op : LruOperation β} (h : op.entry? defaultTtl = some e) :
    op.putKey? = some e.key := by
  obtain ⟨t, key, value, valueBytes, ttlSeconds, rfl, rfl⟩ := exists_put_of_entry? h
  rfl

/-- What stands was put under its key. -/
theorem Stands.key_mem (h : Stands ops defaultTtl e) : e.key ∈ ops.filterMap putKey? := by
  obtain ⟨before, op, after, rfl, hop, -⟩ := h
  exact List.mem_filterMap.mpr ⟨op, by simp, putKey?_of_entry? hop⟩

/-- An entry is alive if it lives for ever or its age is at most what the word of nanoseconds holds
of its lifetime. -/
theorem isExpired_eq_false_iff :
    e.isExpired now = false ↔
      (0 < e.ttlSeconds → now - e.createdAt ≤ wordOfSeconds e.ttlSeconds) := by
  rw [LruEntry.isExpired, Bool.and_eq_false_imp, decide_eq_true_eq]
  simp only [decide_eq_false_iff_not, Int.not_lt]

/-- An entry stands and is alive as long as its value lasts by the word of nanoseconds. -/
theorem lastsWhile_word_iff {key : Bytes} {value : β} :
    LastsWhile (fun seconds age => age ≤ wordOfSeconds seconds) ops defaultTtl now key value ↔
      ∃ e, Stands ops defaultTtl e ∧ e.isExpired now = false ∧ e.key = key ∧ e.value = value := by
  constructor
  · rintro ⟨t, valueBytes, ttlSeconds, ⟨before, op, after, hops, rfl, hafter⟩, hlife⟩
    exact ⟨_, ⟨before, _, after, hops, rfl, hafter⟩, isExpired_eq_false_iff.mpr hlife, rfl, rfl⟩
  · rintro ⟨e, ⟨before, op, after, hops, hop, hafter⟩, halive, rfl, rfl⟩
    obtain ⟨t, key, value, valueBytes, ttlSeconds, rfl, rfl⟩ := exists_put_of_entry? hop
    exact ⟨t, valueBytes, ttlSeconds, ⟨before, _, after, hops, rfl, hafter⟩,
      isExpired_eq_false_iff.mp halive⟩

/-- A value that lasts by one measure lasts by another one that allows no less. -/
theorem LastsWhile.mono {key : Bytes} {value : β} {allows allows' : Int → Int → Prop}
    (h : LastsWhile allows ops defaultTtl now key value)
    (himp : ∀ seconds age, 0 < seconds → allows seconds age → allows' seconds age) :
    LastsWhile allows' ops defaultTtl now key value := by
  obtain ⟨t, valueBytes, ttlSeconds, hput, hlife⟩ := h
  exact ⟨t, valueBytes, ttlSeconds, hput, fun hpos => himp _ _ hpos (hlife hpos)⟩

/-- A word of nanoseconds never makes a lifetime longer. -/
theorem wordOfSeconds_le {seconds : Int} (h : 0 < seconds) :
    wordOfSeconds seconds ≤ seconds * 1000000000 := by
  rw [wordOfSeconds, Int.bmod_def, UInt64.size]
  split <;> omega

/-- A lifetime that fits into the word stays as it is. -/
theorem wordOfSeconds_of_lt {seconds : Int} (hpos : 0 < seconds)
    (hfits : seconds * 1000000000 < 2 ^ 63) : wordOfSeconds seconds = seconds * 1000000000 := by
  rw [wordOfSeconds, UInt64.size]
  exact Int.bmod_eq_of_le (by omega) (by omega)

end LruOperation

namespace Lru

open LruOperation

variable {β : Type} {c : Lru β} {e : LruEntry β} {now : Int}

/-! ## One operation -/

/-- What is in a cache after an operation was put by it, or was there before and does not end with
it. -/
theorem mem_entries_perform {op : LruOperation β} (h : e ∈ (c.perform op).1.entries) :
    op.entry? c.defaultTtlSeconds = some e ∨ e ∈ c.entries ∧ ¬ op.Ends e.key := by
  cases op with
  | put now key value valueBytes ttlSeconds =>
    have hput : e ∈ (c.put now key value valueBytes ttlSeconds).entries := h
    rw [entries_put] at hput
    rcases List.mem_cons.mp (List.mem_of_mem_take hput) with rfl | hold
    · exact .inl rfl
    · obtain ⟨he, hkey⟩ := List.mem_filter.mp hold
      exact .inr ⟨he, fun heq => bne_iff_ne.mp hkey heq.symm⟩
  | get now key => exact .inr ⟨mem_entries_of_mem_get h, id⟩
  | invalidate key =>
    obtain ⟨he, hkey⟩ := List.mem_filter.mp h
    exact .inr ⟨he, fun heq => bne_iff_ne.mp hkey heq.symm⟩
  | invalidatePattern pattern =>
    obtain ⟨he, hkeep⟩ := List.mem_filter.mp h
    refine .inr ⟨he, fun hmatches => ?_⟩
    rw [Glob.accepts_iff_matches.mpr hmatches] at hkeep
    exact absurd hkeep nofun
  | evictExpired now => exact .inr ⟨(List.mem_filter.mp h).1, id⟩
  | clear => exact absurd h List.not_mem_nil

/-- What is put is in the cache after the operation, and so is what was there before, does not end
with it and is alive, if there is room for what is put beside the entries under other keys. -/
theorem mem_entries_perform_of_room (hkeys : c.DistinctKeys) {op : LruOperation β}
    (hroom : ∀ key ∈ op.putKey?,
      (c.entries.filter fun e => e.key != key).length + 1 ≤ c.capacity)
    (htime : ∀ t ∈ op.time?, t ≤ now) (halive : e.isExpired now = false)
    (h : op.entry? c.defaultTtlSeconds = some e ∨ e ∈ c.entries ∧ ¬ op.Ends e.key) :
    e ∈ (c.perform op).1.entries := by
  have halive_of_le {t : Int} (ht : t ≤ now) : e.isExpired t = false :=
    Bool.eq_false_iff.mpr fun hexpired =>
      Bool.false_ne_true (halive.symm.trans (isExpired_of_le ht hexpired))
  have hold (hnone : op.entry? c.defaultTtlSeconds = none) : e ∈ c.entries ∧ ¬ op.Ends e.key :=
    h.resolve_left fun hput => Option.some_ne_none e (hput.symm.trans hnone)
  cases op with
  | put t key value valueBytes ttlSeconds =>
    show e ∈ (c.put t key value valueBytes ttlSeconds).entries
    rw [entries_put, List.take_of_length_le (hroom key rfl)]
    rcases h with hput | ⟨he, hkey⟩
    · exact List.mem_cons.mpr (.inl (Option.some.inj hput).symm)
    · refine List.mem_cons_of_mem _ (List.mem_filter.mpr ⟨he, ?_⟩)
      exact bne_iff_ne.mpr fun heq => hkey heq.symm
  | get t key =>
    obtain ⟨he, -⟩ := hold rfl
    show e ∈ (c.get t key).1.entries
    rw [entries_get]
    by_cases hkey : e.key = key
    · have hfind : c.find? key = some e := hkeys.find?_eq_some_iff.mpr ⟨he, hkey⟩
      have hread : c.alive? t key = some e := by
        rw [alive?, hfind, Option.filter_some, halive_of_le (htime t rfl)]
        rfl
      rw [hread]
      exact List.mem_append_left _ (List.mem_singleton_self e)
    · exact List.mem_append_right _ (List.mem_filter.mpr ⟨he, bne_iff_ne.mpr hkey⟩)
  | invalidate key =>
    obtain ⟨he, hkey⟩ := hold rfl
    exact List.mem_filter.mpr ⟨he, bne_iff_ne.mpr fun heq => hkey heq.symm⟩
  | invalidatePattern pattern =>
    obtain ⟨he, hmatches⟩ := hold rfl
    refine List.mem_filter.mpr ⟨he, ?_⟩
    rw [Bool.not_eq_true', Bool.eq_false_iff]
    exact fun haccepts => hmatches (Glob.accepts_iff_matches.mp haccepts)
  | evictExpired t =>
    obtain ⟨he, -⟩ := hold rfl
    exact List.mem_filter.mpr ⟨he, by rw [halive_of_le (htime t rfl)]; rfl⟩
  | clear => exact absurd trivial (hold rfl).2

/-! ## Any operations -/

variable {capacity : ℕ} {defaultTtl : Int} {ops : List (LruOperation β)}

/-- Whatever a new cache is asked, all its entries stand. -/
theorem stands_of_mem_after (h : e ∈ ((new capacity defaultTtl).after ops).entries) :
    Stands ops defaultTtl e := by
  induction ops using List.reverseRecOn generalizing e with
  | nil => exact absurd h List.not_mem_nil
  | append_singleton ops op ih =>
    rw [after_concat] at h
    have hcases := mem_entries_perform h
    rw [(bounds_after _ ops).2] at hcases
    exact noneSince_concat_iff.mpr (hcases.imp_right fun hold => ⟨ih hold.1, hold.2⟩)

/-- As long as there is room for all keys that are put, the entries of a new cache under other keys
leave room for one more. -/
theorem length_filter_after_lt {op : LruOperation β} {key : Bytes} (hkey : op.putKey? = some key)
    (hroom : ((ops ++ [op]).filterMap putKey?).toFinset.card ≤ max capacity 1) :
    (((new capacity defaultTtl : Lru β).after ops).entries.filter
      fun e => e.key != key).length + 1 ≤ max capacity 1 := by
  set c : Lru β := (new capacity defaultTtl).after ops
  have hdistinct : c.DistinctKeys := (distinctKeys_new capacity defaultTtl).after ops
  set others := (c.entries.filter fun e => e.key != key).map LruEntry.key
  have hnodup : (key :: others).Nodup := by
    refine List.nodup_cons.mpr ⟨?_, hdistinct.of_sublist List.filter_sublist⟩
    intro hmem
    obtain ⟨e, he, hsame⟩ := List.mem_map.mp hmem
    exact bne_iff_ne.mp (List.mem_filter.mp he).2 hsame
  have hput : key :: others ⊆ (ops ++ [op]).filterMap putKey? := by
    rw [List.filterMap_append]
    refine List.cons_subset.mpr ⟨List.mem_append_right _ (by simp [hkey]), ?_⟩
    intro k hk
    obtain ⟨e, he, rfl⟩ := List.mem_map.mp hk
    exact List.mem_append_left _ (stands_of_mem_after (List.mem_filter.mp he).1).key_mem
  calc (c.entries.filter fun e => e.key != key).length + 1
      = (key :: others).length := by rw [List.length_cons, List.length_map]
    _ = (key :: others).toFinset.card := (List.toFinset_card_of_nodup hnodup).symm
    _ ≤ ((ops ++ [op]).filterMap putKey?).toFinset.card :=
        Finset.card_le_card fun k hk => List.mem_toFinset.mpr (hput (List.mem_toFinset.mp hk))
    _ ≤ max capacity 1 := hroom

/-- As long as there is room for all keys that are put, whatever a new cache is asked up to some
time, it holds all entries that stand and are alive then. -/
theorem mem_after_of_stands (hroom : (ops.filterMap putKey?).toFinset.card ≤ max capacity 1)
    (htimes : ∀ op ∈ ops, ∀ t ∈ op.time?, t ≤ now) (halive : e.isExpired now = false)
    (hstands : Stands ops defaultTtl e) :
    e ∈ ((new capacity defaultTtl).after ops).entries := by
  induction ops using List.reverseRecOn generalizing e with
  | nil => exact absurd hstands not_noneSince_nil
  | append_singleton ops op ih =>
    have hroom' : (ops.filterMap putKey?).toFinset.card ≤ max capacity 1 := by
      refine le_trans (Finset.card_le_card ?_) hroom
      rw [List.filterMap_append, List.toFinset_append]
      exact Finset.subset_union_left
    have htimes' : ∀ op ∈ ops, ∀ t ∈ op.time?, t ≤ now :=
      fun x hx => htimes x (List.mem_append_left _ hx)
    obtain ⟨hcapacity, httl⟩ := bounds_after (new capacity defaultTtl : Lru β) ops
    rw [after_concat]
    apply mem_entries_perform_of_room ((distinctKeys_new capacity defaultTtl).after ops)
    · intro key hkey
      rw [hcapacity]
      exact length_filter_after_lt hkey hroom
    · exact htimes op (by simp)
    · exact halive
    · rw [httl]
      exact (noneSince_concat_iff.mp hstands).imp_right fun h => ⟨ih hroom' htimes' halive h.1, h.2⟩

variable {key : Bytes} {value : β}

/-- Whatever a new cache is asked, what is found in it lasts. -/
theorem lasts_of_get_eq_some
    (h : (((new capacity defaultTtl).after ops).get now key).2 = some value) :
    Lasts ops defaultTtl now key value := by
  rw [snd_get] at h
  obtain ⟨e, halive, hvalue⟩ := Option.map_eq_some_iff.mp h
  obtain ⟨hfind, hexpired⟩ := Option.filter_eq_some_iff.mp halive
  have hstands : Stands ops defaultTtl e :=
    stands_of_mem_after (List.mem_of_find?_eq_some hfind)
  have hword := lastsWhile_word_iff.mpr
    ⟨e, hstands, (Bool.not_eq_true' _).mp hexpired, key_of_find?_eq_some hfind, hvalue⟩
  exact hword.mono fun seconds age hpos hage => hage.trans (wordOfSeconds_le hpos)

/-- As long as there is room for all keys that are put, whatever a new cache is asked up to some
time, what lasts until then is found, unless its lifetime is too long for the word. -/
theorem get_eq_some_of_lastsInWord
    (hroom : (ops.filterMap putKey?).toFinset.card ≤ max capacity 1)
    (htimes : ∀ op ∈ ops, ∀ t ∈ op.time?, t ≤ now)
    (h : LastsInWord ops defaultTtl now key value) :
    (((new capacity defaultTtl).after ops).get now key).2 = some value := by
  have hword : LastsWhile (fun seconds age => age ≤ wordOfSeconds seconds) ops defaultTtl now key
      value :=
    h.mono fun seconds age hpos hage => (wordOfSeconds_of_lt hpos hage.2).symm ▸ hage.1
  obtain ⟨e, hstands, halive, rfl, rfl⟩ := lastsWhile_word_iff.mp hword
  have hmem := mem_after_of_stands hroom htimes halive hstands
  have hfind := ((distinctKeys_new capacity defaultTtl).after ops).find?_eq_some_iff.mpr ⟨hmem, rfl⟩
  rw [snd_get, alive?, hfind, Option.filter_some, halive]
  rfl

end Lru

end SourceChunks
