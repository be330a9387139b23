import SourceChunks.Proofs.Dict
import SourceChunks.Proofs.MemoryCache.Accounting
import SourceChunks.Proofs.MemoryCache.Levels

/-!
# The list and the table of a bounded cache

A bounded cache finds its entries by a table. An entry stays at one address while it is in the list,
wherever it stands there, and the table has its address under its key. Entries leave one by one,
each from the list, the table and the count of bytes. This takes for granted that there is an entry
at an address, and that its bytes have been counted; where that is not so, an operation has no
result here.

It is always so. The table has exactly the keys of the entries, and the cache answers what the list
of its entries alone tells.
-/

namespace SourceChunks

/-- An entry at its address. -/
structure LruNode (β : Type) where
  /-- Where the entry is, as long as it is in the list. -/
  address : ℕ
  /-- The entry. -/
  entry : LruEntry β

/-- A bounded cache with its table. -/
structure LinkedLru (β : Type) where
  /-- How many entries it may hold. -/
  capacity : ℕ
  /-- The lifetime of entries that have none of their own. -/
  defaultTtlSeconds : Int
  /-- The entries at their addresses, the one used last first. -/
  nodes : List (LruNode β)
  /-- The addresses under the keys. -/
  table : Dict ℕ
  /-- The address of the next entry. -/
  nextAddress : ℕ
  /-- About how many bytes the entries take together, as counted. -/
  bytes : ℕ
  /-- How many reads found a value. -/
  hits : ℕ
  /-- How many reads found none. -/
  misses : ℕ
  /-- How many entries were pushed out. -/
  evictions : ℕ
  /-- How many entries were dropped because their lifetime was over. -/
  expirations : ℕ

namespace LinkedLru

variable {β : Type}

/-! ## Operations -/

/-- A cache without entries; a capacity of zero counts as one. -/
def new (capacity : ℕ) (defaultTtlSeconds : Int) : LinkedLru β :=
  ⟨max capacity 1, defaultTtlSeconds, [], Dict.empty, 0, 0, 0, 0, 0, 0⟩

/-- The entry at an address. -/
def node? (d : LinkedLru β) (address : ℕ) : Option (LruNode β) :=
  d.nodes.find? fun n => n.address == address

/-- The entry that the table leads to from a key. -/
def lookup? (d : LinkedLru β) (key : Bytes) : Option (LruEntry β) :=
  ((d.table.get? key).bind d.node?).map LruNode.entry

/-- Take the entry at an address from the list, its key from the table and its bytes from their
count. -/
def erase (d : LinkedLru β) (address : ℕ) : Option (LinkedLru β) :=
  (d.node? address).bind fun n =>
    if n.entry.bytes ≤ d.bytes then
      some { d with
        bytes := d.bytes - n.entry.bytes
        table := d.table.erase n.entry.key
        nodes := d.nodes.filter fun m => m.address != address }
    else none

/-- Take the entries at some addresses away, one after another. -/
def eraseAll : LinkedLru β → List ℕ → Option (LinkedLru β)
  | d, [] => some d
  | d, address :: rest => (d.erase address).bind fun d => d.eraseAll rest

/-- Take away the entries that satisfy a test, from the first to the last; the answer is how many
they are. -/
def eraseWhere (d : LinkedLru β) (drop : LruEntry β → Bool) : Option (LinkedLru β × ℕ) :=
  let gone := d.nodes.filter fun n => drop n.entry
  (d.eraseAll (gone.map LruNode.address)).map fun d => (d, gone.length)

/-- Remove the entry under a key; the answer tells whether there was one. -/
def invalidate (d : LinkedLru β) (key : Bytes) : Option (LinkedLru β × Bool) :=
  match d.table.get? key with
  | none => some (d, false)
  | some address => (d.erase address).map fun d => (d, true)

/-- Read the value under a key, which makes its entry the one used last. -/
def get (d : LinkedLru β) (now : Int) (key : Bytes) : Option (LinkedLru β × Option β) :=
  match d.table.get? key with
  | none => some ({ d with misses := d.misses + 1 }, none)
  | some address =>
    (d.node? address).bind fun n =>
      if n.entry.isExpired now then
        (d.erase address).map fun d =>
          ({ d with expirations := d.expirations + 1, misses := d.misses + 1 }, none)
      else
        some ({ d with
            nodes := n :: d.nodes.filter fun m => m.address != address
            hits := d.hits + 1 }, some n.entry.value)

/-- Push out the entries beyond the capacity, the last one first. -/
def trim (d : LinkedLru β) : Option (LinkedLru β) :=
  let gone := (d.nodes.drop d.capacity).reverse
  (d.eraseAll (gone.map LruNode.address)).map fun d =>
    { d with evictions := d.evictions + gone.length }

/-- Put a new entry in front of the list and its address into the table. -/
def pushFront (d : LinkedLru β) (e : LruEntry β) : LinkedLru β :=
  { d with
    bytes := d.bytes + e.bytes
    nodes := ⟨d.nextAddress, e⟩ :: d.nodes
    table := d.table.insert e.key d.nextAddress
    nextAddress := d.nextAddress + 1 }

/-- Put a value of so many bytes under a key, in place of the one that may be there. -/
def put (d : LinkedLru β) (now : Int) (key : Bytes) (value : β) (valueBytes : ℕ)
    (ttlSeconds : Int) : Option (LinkedLru β) :=
  (d.invalidate key).bind fun (d, _) =>
    let ttl := if 0 < ttlSeconds then ttlSeconds else d.defaultTtlSeconds
    (d.pushFront ⟨key, value, now, ttl, key.length + valueBytes⟩).trim

/-- Remove the entries that have outlived their lifetimes; the answer is how many are gone. -/
def evictExpired (d : LinkedLru β) (now : Int) : Option (LinkedLru β × ℕ) :=
  (d.eraseWhere fun e => e.isExpired now).map fun (d, gone) =>
    ({ d with expirations := d.expirations + gone }, gone)

/-- Remove all entries. -/
def clear (d : LinkedLru β) : LinkedLru β := { d with nodes := [], table := Dict.empty, bytes := 0 }

/-- Carry out an operation. -/
def perform (d : LinkedLru β) : LruOperation β → Option (LinkedLru β × LruAnswer β)
  | .put now key value valueBytes ttlSeconds =>
    (d.put now key value valueBytes ttlSeconds).map fun d => (d, .done)
  | .get now key => (d.get now key).map fun r => r.map id .found
  | .invalidate key => (d.invalidate key).map fun r => r.map id .removed
  | .invalidatePattern pattern =>
    (d.eraseWhere fun e => pattern.accepts e.key).map fun r => r.map id .gone
  | .evictExpired now => (d.evictExpired now).map fun r => r.map id .gone
  | .clear => some (d.clear, .done)

/-- Carry out operations one after another. -/
def run : LinkedLru β → List (LruOperation β) → Option (LinkedLru β × List (LruAnswer β))
  | d, [] => some (d, [])
  | d, op :: rest =>
    (d.perform op).bind fun (d, answer) =>
      (d.run rest).map fun (d, answers) => (d, answer :: answers)

/-- The cache without its table and addresses. -/
def toLru (d : LinkedLru β) : Lru β :=
  ⟨d.capacity, d.defaultTtlSeconds, d.nodes.map LruNode.entry, d.bytes, d.hits, d.misses,
    d.evictions, d.expirations⟩

/-! ## Lists and tables that agree -/

variable {d d' : LinkedLru β} {n : LruNode β} {key : Bytes}

/-- The entries are at different addresses, the table has under their keys the addresses that they
are at, and nothing else, and their bytes are counted. -/
structure WellLinked (d : LinkedLru β) : Prop where
  /-- No two entries are at the same address. -/
  addresses : (d.nodes.map LruNode.address).Nodup
  /-- The address of the next entry is free. -/
  address_lt : ∀ n ∈ d.nodes, n.address < d.nextAddress
  /-- The table has under a key the address of the entry with this key. -/
  table_iff : ∀ key address,
    d.table.get? key = some address ↔ ∃ n ∈ d.nodes, n.entry.key = key ∧ n.address = address
  /-- The bytes are those of the entries. -/
  weighed : d.toLru.Weighed

/-- A new cache has neither entries nor addresses that could disagree. -/
theorem wellLinked_new (capacity : ℕ) (ttl : Int) :
    (new capacity ttl : LinkedLru β).WellLinked where
  addresses := List.nodup_nil
  address_lt := nofun
  table_iff := by simp [new]
  weighed := rfl

namespace WellLinked

/-- What else is counted does not matter. -/
theorem counted (h : d.WellLinked) (hits misses evictions expirations : ℕ) :
    { d with hits, misses, evictions, expirations }.WellLinked :=
  ⟨h.addresses, h.address_lt, h.table_iff, h.weighed⟩

/-- Two nodes at one address are the same node. -/
theorem eq_of_address_eq (h : d.WellLinked) {m : LruNode β} (hn : n ∈ d.nodes) (hm : m ∈ d.nodes)
    (heq : n.address = m.address) : n = m := List.inj_on_of_nodup_map h.addresses hn hm heq

/-- Entries with the same key are one, since the table has one address under it. -/
theorem eq_of_key_eq (h : d.WellLinked) {m : LruNode β} (hn : n ∈ d.nodes) (hm : m ∈ d.nodes)
    (heq : n.entry.key = m.entry.key) : n = m := by
  have hleft := (h.table_iff m.entry.key n.address).mpr ⟨n, hn, heq, rfl⟩
  have hright := (h.table_iff m.entry.key m.address).mpr ⟨m, hm, rfl, rfl⟩
  exact h.eq_of_address_eq hn hm (Option.some.inj (hleft.symm.trans hright))

/-- Nodes have one address exactly if their entries have one key. -/
theorem address_eq_iff_key_eq (h : d.WellLinked) {m : LruNode β} (hm : m ∈ d.nodes)
    (hn : n ∈ d.nodes) : m.address = n.address ↔ m.entry.key = n.entry.key := by
  constructor
  · intro heq
    rw [h.eq_of_address_eq hm hn heq]
  · intro heq
    rw [h.eq_of_key_eq hm hn heq]

/-- No two entries of a well-linked cache have one key. -/
theorem distinctKeys (h : d.WellLinked) : d.toLru.DistinctKeys := by
  show ((d.nodes.map LruNode.entry).map LruEntry.key).Nodup
  rw [List.map_map]
  refine (List.nodup_map_iff_inj_on (h.addresses.of_map _)).mpr ?_
  intro n hn m hm heq
  exact h.eq_of_key_eq hn hm heq

/-- Following the address of a node leads to the node. -/
theorem node?_eq_some (h : d.WellLinked) (hn : n ∈ d.nodes) : d.node? n.address = some n := by
  cases hfind : d.node? n.address with
  | none => exact absurd (List.find?_eq_none.mp hfind n hn) (by simp)
  | some m =>
    have haddress : m.address = n.address := by simpa using List.find?_some hfind
    rw [h.eq_of_address_eq (List.mem_of_find?_eq_some hfind) hn haddress]

/-- Where the table has no address, there is no entry in the list. -/
theorem find?_eq_none (h : d.WellLinked) (hnone : d.table.get? key = none) :
    d.toLru.find? key = none := by
  refine List.find?_eq_none.mpr ?_
  intro e he
  obtain ⟨n, hn, rfl⟩ := List.mem_map.mp he
  rw [beq_iff_eq]
  intro hkey
  exact nomatch hnone.symm.trans ((h.table_iff key n.address).mpr ⟨n, hn, hkey, rfl⟩)

/-- The entry at the address that the table has is the one in the list. -/
theorem find?_eq_some (h : d.WellLinked) (hn : n ∈ d.nodes) :
    d.toLru.find? n.entry.key = some n.entry :=
  h.distinctKeys.find?_eq_some_iff.mpr ⟨List.mem_map_of_mem hn, rfl⟩

/-- From each key the table leads to the entry under it. -/
theorem lookup?_eq (h : d.WellLinked) (key : Bytes) : d.lookup? key = d.toLru.find? key := by
  rw [lookup?]
  cases hget : d.table.get? key with
  | none => exact (h.find?_eq_none hget).symm
  | some address =>
    obtain ⟨n, hn, rfl, rfl⟩ := (h.table_iff key address).mp hget
    rw [Option.bind_some, h.node?_eq_some hn, h.find?_eq_some hn]
    rfl

end WellLinked

/-! ## Entries that leave -/

/-- The second cache is the first one with these nodes, to which the table and the bytes have been
adapted. -/
def Leaves (d : LinkedLru β) (ns : List (LruNode β)) (d' : LinkedLru β) : Prop :=
  d'.WellLinked ∧ d' = { d with nodes := ns, table := d'.table, bytes := d'.bytes }

/-- The entries at other addresses are those under other keys. -/
theorem WellLinked.map_entry_filter (h : d.WellLinked) (hn : n ∈ d.nodes) :
    (d.nodes.filter fun m => m.address != n.address).map LruNode.entry =
      d.toLru.entries.filter fun e => e.key != n.entry.key := by
  refine Eq.trans ?_ List.filter_map.symm
  congr 1
  refine List.filter_congr ?_
  intro m hm
  refine Bool.eq_iff_iff.mpr ?_
  rw [bne_iff_ne, Function.comp_apply, bne_iff_ne, ne_eq, ne_eq, h.address_eq_iff_key_eq hm hn]

/-- Taking an entry away leaves the others. -/
theorem WellLinked.erase_eq_some (h : d.WellLinked) (hn : n ∈ d.nodes) :
    ∃ d', d.erase n.address = some d' ∧
      d.Leaves (d.nodes.filter fun m => m.address != n.address) d' := by
  have hothers {m : LruNode β} : m ∈ d.nodes.filter (fun m => m.address != n.address) ↔
      m ∈ d.nodes ∧ m.address ≠ n.address := by
    rw [List.mem_filter, bne_iff_ne]
  have hbytes : n.entry.bytes + Lru.bytesOf (d.toLru.entries.filter fun e => e.key != n.entry.key) =
      d.bytes := by
    have hparts := Lru.bytesOf_filter_add d.toLru.entries fun e => e.key == n.entry.key
    rw [h.distinctKeys.filter_key_eq, h.find?_eq_some hn, ← h.weighed] at hparts
    exact hparts
  have hle : n.entry.bytes ≤ d.bytes := hbytes ▸ Nat.le_add_right ..
  refine ⟨_, by rw [LinkedLru.erase, h.node?_eq_some hn, Option.bind_some, if_pos hle], ?_, rfl⟩
  constructor
  · exact h.addresses.sublist (List.filter_sublist.map _)
  · intro m hm
    exact h.address_lt m (hothers.mp hm).1
  · intro key address
    simp only [Dict.get?_erase, hothers, Option.ite_none_left_eq_some, h.table_iff]
    constructor
    · rintro ⟨hne, m, hm, rfl, rfl⟩
      exact ⟨m, ⟨hm, fun heq => hne ((h.address_eq_iff_key_eq hm hn).mp heq)⟩, rfl, rfl⟩
    · rintro ⟨m, ⟨hm, hne⟩, rfl, rfl⟩
      exact ⟨fun heq => hne ((h.address_eq_iff_key_eq hm hn).mpr heq), m, hm, rfl, rfl⟩
  · show d.bytes - n.entry.bytes =
      Lru.bytesOf ((d.nodes.filter fun m => m.address != n.address).map LruNode.entry)
    rw [h.map_entry_filter hn]
    omega

/-- Taking entries away one after another leaves the others. -/
theorem WellLinked.eraseAll_eq_some (h : d.WellLinked) (ns : List (LruNode β))
    (hmem : ∀ n ∈ ns, n ∈ d.nodes) (hnodup : (ns.map LruNode.address).Nodup) :
    ∃ d', d.eraseAll (ns.map LruNode.address) = some d' ∧
      d.Leaves (d.nodes.filter fun m => m.address ∉ ns.map LruNode.address) d' := by
  induction ns generalizing d with
  | nil => exact ⟨d, rfl, h, by simp⟩
  | cons n rest ih =>
    obtain ⟨hfirst, hrest⟩ := List.nodup_cons.mp hnodup
    obtain ⟨d₁, herase, h₁, hd₁⟩ := h.erase_eq_some (hmem n List.mem_cons_self)
    have hnodes : d₁.nodes = d.nodes.filter fun m => m.address != n.address := by rw [hd₁]
    have hmem₁ : ∀ m ∈ rest, m ∈ d₁.nodes := by
      intro m hm
      rw [hnodes, List.mem_filter, bne_iff_ne]
      refine ⟨hmem m (List.mem_cons_of_mem n hm), ?_⟩
      intro heq
      exact hfirst (heq ▸ List.mem_map_of_mem hm)
    have hleft : (d₁.nodes.filter fun m => m.address ∉ rest.map LruNode.address) =
        d.nodes.filter fun m => m.address ∉ (n :: rest).map LruNode.address := by
      rw [hnodes, List.filter_filter]
      refine List.filter_congr ?_
      intro m _
      rw [Bool.eq_iff_iff, Bool.and_eq_true, bne_iff_ne, decide_eq_true_eq, decide_eq_true_eq,
        List.map_cons, List.mem_cons, not_or, and_comm]
    obtain ⟨d₂, hall, h₂, hd₂⟩ := ih h₁ hmem₁ hrest
    refine ⟨d₂, ?_, h₂, ?_⟩
    · rw [List.map_cons, eraseAll, herase, Option.bind_some, hall]
    · rw [← hleft, hd₂, hd₁]

/-- Two caches agree if they hold the same entries, count the bytes of these, and are otherwise
alike. -/
theorem Leaves.toLru_eq {ns : List (LruNode β)} (h : d.Leaves ns d') {c : Lru β} (hc : c.Weighed)
    (hentries : ns.map LruNode.entry = c.entries)
    (heq : c = { d.toLru with entries := c.entries, bytes := c.bytes }) : d'.toLru = c := by
  have hbytes : d'.bytes = c.bytes := by
    rw [hc, ← hentries]
    exact h.1.weighed.trans (by rw [h.2]; rfl)
  rw [heq, ← hentries, ← hbytes, h.2]
  rfl

/-! ## Operations on lists and tables that agree -/

/-- Without the addresses of the entries that satisfy a test, those are left that do not. -/
theorem WellLinked.filter_address_not_mem (h : d.WellLinked) (drop : LruEntry β → Bool) :
    (d.nodes.filter fun m =>
        m.address ∉ (d.nodes.filter fun n => drop n.entry).map LruNode.address) =
      d.nodes.filter fun m => !drop m.entry := by
  refine List.filter_congr ?_
  intro m hm
  rw [Bool.eq_iff_iff, decide_eq_true_eq, Bool.not_eq_true', ← Bool.not_eq_true]
  refine not_congr ?_
  rw [List.mem_map]
  constructor
  · rintro ⟨n, hn, heq⟩
    obtain ⟨hn, hdrop⟩ := List.mem_filter.mp hn
    rwa [h.eq_of_address_eq hm hn heq.symm]
  · intro hdrop
    exact ⟨m, List.mem_filter.mpr ⟨hm, hdrop⟩, rfl⟩

/-- Taking entries away follows addresses that lead somewhere, and does what it does on the list of
entries. -/
theorem WellLinked.eraseWhere_eq_some (h : d.WellLinked) (drop : LruEntry β → Bool) :
    ∃ d', d.eraseWhere drop = some (d', (d.toLru.retain fun e => !drop e).2) ∧ d'.WellLinked ∧
      d'.toLru = (d.toLru.retain fun e => !drop e).1 := by
  obtain ⟨d', hall, hleaves⟩ := h.eraseAll_eq_some (d.nodes.filter fun n => drop n.entry)
    (fun n hn => (List.mem_filter.mp hn).1) (h.addresses.sublist (List.filter_sublist.map _))
  rw [h.filter_address_not_mem] at hleaves
  have hcount : (d.nodes.filter fun n => drop n.entry).length =
      (d.toLru.retain fun e => !drop e).2 := by
    show _ = ((d.nodes.map LruNode.entry).filter fun e => !!drop e).length
    simp [List.filter_map, Function.comp_def]
  refine ⟨d', ?_, hleaves.1, hleaves.toLru_eq (h.weighed.retain _) ?_ rfl⟩
  · rw [eraseWhere, hall, Option.map_some, hcount]
  · show _ = (d.nodes.map LruNode.entry).filter fun e => !drop e
    rw [List.filter_map]
    rfl

/-- Invalidating a key follows addresses that lead somewhere, and does what it does on the list of
entries. -/
theorem WellLinked.invalidate_eq_some (h : d.WellLinked) (key : Bytes) :
    ∃ d', d.invalidate key = some (d', (d.toLru.invalidate key).2) ∧ d'.WellLinked ∧
      d'.toLru = (d.toLru.invalidate key).1 := by
  rw [LinkedLru.invalidate, h.distinctKeys.snd_invalidate]
  cases hget : d.table.get? key with
  | none =>
    have hnone := h.find?_eq_none hget
    have hleaves : d.Leaves d.nodes d := ⟨h, rfl⟩
    refine ⟨d, by rw [hnone]; rfl, h, hleaves.toLru_eq (h.weighed.retain _) ?_ rfl⟩
    exact (Lru.filter_key_ne_eq_self hnone).symm
  | some address =>
    obtain ⟨n, hn, rfl, rfl⟩ := (h.table_iff key address).mp hget
    obtain ⟨d', herase, hleaves⟩ := h.erase_eq_some hn
    refine ⟨d', ?_, hleaves.1, hleaves.toLru_eq (h.weighed.retain _) (h.map_entry_filter hn) rfl⟩
    simp only [herase, h.find?_eq_some hn, Option.map_some, Option.isSome_some]

/-- An entry that is found is put in front of the others. -/
theorem WellLinked.moveToFront (h : d.WellLinked) (hn : n ∈ d.nodes) :
    { d with
      nodes := n :: d.nodes.filter fun m => m.address != n.address
      hits := d.hits + 1 }.WellLinked := by
  have hmem {m : LruNode β} :
      m ∈ n :: d.nodes.filter (fun m => m.address != n.address) ↔ m ∈ d.nodes := by
    rw [List.mem_cons, List.mem_filter, bne_iff_ne]
    constructor
    · rintro (rfl | ⟨hm, -⟩)
      · exact hn
      · exact hm
    · intro hm
      by_cases heq : m.address = n.address
      · exact .inl (h.eq_of_address_eq hm hn heq)
      · exact .inr ⟨hm, heq⟩
  constructor
  · refine List.nodup_cons.mpr ⟨?_, h.addresses.sublist (List.filter_sublist.map _)⟩
    intro hmem
    obtain ⟨m, hm, heq⟩ := List.mem_map.mp hmem
    exact bne_iff_ne.mp (List.mem_filter.mp hm).2 heq
  · exact fun m hm => h.address_lt m (hmem.mp hm)
  · intro key address
    simp only [hmem]
    exact h.table_iff key address
  · show d.bytes = Lru.bytesOf (n.entry ::
      (d.nodes.filter fun m => m.address != n.address).map LruNode.entry)
    rw [h.map_entry_filter hn, Lru.bytesOf_cons_filter h.distinctKeys (h.find?_eq_some hn)]
    exact h.weighed

/-- A look-up follows addresses that lead somewhere, and does what it does on the list of entries.
-/
theorem WellLinked.get_eq_some (h : d.WellLinked) (now : Int) (key : Bytes) :
    ∃ d', d.get now key = some (d', (d.toLru.get now key).2) ∧ d'.WellLinked ∧
      d'.toLru = (d.toLru.get now key).1 := by
  rw [LinkedLru.get, Lru.get]
  cases hget : d.table.get? key with
  | none =>
    rw [h.find?_eq_none hget]
    exact ⟨_, rfl, h.counted .., rfl⟩
  | some address =>
    obtain ⟨n, hn, rfl, rfl⟩ := (h.table_iff key address).mp hget
    simp only [h.node?_eq_some hn, h.find?_eq_some hn, Option.bind_some]
    cases hexpired : n.entry.isExpired now with
    | true =>
      obtain ⟨d', herase, hleaves⟩ := h.erase_eq_some hn
      have htoLru : d'.toLru = (d.toLru.invalidate n.entry.key).1 :=
        hleaves.toLru_eq (h.weighed.retain _) (h.map_entry_filter hn) rfl
      obtain ⟨h', -⟩ := hleaves
      simp only [if_true, herase, Option.map_some, ← htoLru]
      exact ⟨_, rfl, h'.counted .., rfl⟩
    | false =>
      simp only [Bool.false_eq_true, if_false, ← h.map_entry_filter hn]
      exact ⟨_, rfl, h.moveToFront hn, rfl⟩

/-- A new entry with a new key comes to the front. -/
theorem WellLinked.pushFront (h : d.WellLinked) {e : LruEntry β}
    (hnew : ∀ n ∈ d.nodes, n.entry.key ≠ e.key) : (d.pushFront e).WellLinked where
  addresses := by
    refine List.nodup_cons.mpr ⟨?_, h.addresses⟩
    intro hmem
    obtain ⟨n, hn, heq⟩ := List.mem_map.mp hmem
    exact (h.address_lt n hn).ne heq
  address_lt := by
    intro n hn
    rcases List.mem_cons.mp hn with rfl | hn
    · exact Nat.lt_succ_self _
    · exact Nat.lt_succ_of_lt (h.address_lt n hn)
  table_iff := by
    intro key address
    have hcons : (∃ n ∈ (d.pushFront e).nodes, n.entry.key = key ∧ n.address = address) ↔
        e.key = key ∧ d.nextAddress = address ∨
          ∃ n ∈ d.nodes, n.entry.key = key ∧ n.address = address := List.exists_mem_cons_iff ..
    have hget : (d.pushFront e).table.get? key =
        if key = e.key then some d.nextAddress else d.table.get? key := Dict.get?_insert ..
    rw [hcons, hget]
    by_cases hkey : key = e.key
    · subst hkey
      rw [if_pos rfl, Option.some_inj]
      constructor
      · exact fun heq => .inl ⟨rfl, heq⟩
      · rintro (⟨-, heq⟩ | ⟨n, hn, heq, -⟩)
        · exact heq
        · exact absurd heq (hnew n hn)
    · rw [if_neg hkey, h.table_iff]
      exact (or_iff_right fun heq => hkey heq.1.symm).symm
  weighed := by
    show d.bytes + e.bytes = e.bytes + Lru.bytesOf (d.nodes.map LruNode.entry)
    rw [Nat.add_comm]
    exact congrArg (e.bytes + ·) h.weighed

/-- Pushing out what is beyond the capacity leaves the front of the list. -/
theorem WellLinked.trim_eq_some (h : d.WellLinked) :
    ∃ d', d.trim = some d' ∧ d'.WellLinked ∧ d'.toLru = d.toLru.trim := by
  set front := d.nodes.take d.capacity
  set gone := d.nodes.drop d.capacity
  have hsplit : front ++ gone = d.nodes := List.take_append_drop ..
  have haddresses : (front.map LruNode.address ++ gone.map LruNode.address).Nodup := by
    rw [← List.map_append, hsplit]
    exact h.addresses
  obtain ⟨hfront, hgone, hdisjoint⟩ := List.nodup_append.mp haddresses
  obtain ⟨d', hall, hleaves⟩ := h.eraseAll_eq_some gone.reverse
    (fun n hn => List.mem_of_mem_drop (List.mem_reverse.mp hn))
    (by rwa [List.map_reverse, List.nodup_reverse])
  have hleft : (d.nodes.filter fun m => m.address ∉ gone.reverse.map LruNode.address) = front := by
    have hkept : (front.filter fun m => m.address ∉ gone.reverse.map LruNode.address) = front := by
      refine List.filter_eq_self.mpr ?_
      intro m hm
      rw [decide_eq_true_eq, List.map_reverse, List.mem_reverse]
      exact fun hmem => hdisjoint _ (List.mem_map_of_mem hm) _ hmem rfl
    have hdropped : (gone.filter fun m => m.address ∉ gone.reverse.map LruNode.address) = [] := by
      refine List.filter_eq_nil_iff.mpr ?_
      intro m hm
      rw [decide_eq_true_eq, not_not, List.map_reverse, List.mem_reverse]
      exact List.mem_map_of_mem hm
    rw [← hsplit, List.filter_append, hkept, hdropped, List.append_nil]
  rw [hleft] at hleaves
  have htoLru : d'.toLru = { d.toLru.trim with evictions := d.evictions } :=
    hleaves.toLru_eq h.weighed.trim List.map_take rfl
  obtain ⟨h', -⟩ := hleaves
  refine ⟨{ d' with evictions := d'.evictions + gone.reverse.length },
    by rw [LinkedLru.trim, hall]; rfl, h'.counted .., ?_⟩
  have hcount : gone.reverse.length = (d.toLru.entries.drop d.capacity).length := by
    show _ = ((d.nodes.map LruNode.entry).drop d.capacity).length
    rw [← List.map_drop, List.length_map, List.length_reverse]
  show { d'.toLru with evictions := d'.toLru.evictions + gone.reverse.length } = d.toLru.trim
  rw [htoLru, hcount]
  rfl

/-- A put follows addresses that lead somewhere, and does what it does on the list of entries. -/
theorem WellLinked.put_eq_some (h : d.WellLinked) (now : Int) (key : Bytes) (value : β)
    (valueBytes : ℕ) (ttlSeconds : Int) :
    ∃ d', d.put now key value valueBytes ttlSeconds = some d' ∧ d'.WellLinked ∧
      d'.toLru = d.toLru.put now key value valueBytes ttlSeconds := by
  obtain ⟨d₁, hinvalidate, h₁, htoLru₁⟩ := h.invalidate_eq_some key
  have hothers : ∀ n ∈ d₁.nodes, n.entry.key ≠ key := by
    intro n hn
    have hmem : n.entry ∈ (d.toLru.invalidate key).1.entries := by
      rw [← htoLru₁]
      exact List.mem_map_of_mem hn
    exact bne_iff_ne.mp (List.mem_filter.mp hmem).2
  let e : LruEntry β := ⟨key, value, now, if 0 < ttlSeconds then ttlSeconds
    else d₁.defaultTtlSeconds, key.length + valueBytes⟩
  have hpush : (d₁.pushFront e).WellLinked := h₁.pushFront hothers
  obtain ⟨d₂, htrim, h₂, htoLru₂⟩ := hpush.trim_eq_some
  refine ⟨d₂, ?_, h₂, ?_⟩
  · rw [LinkedLru.put, hinvalidate]
    exact htrim
  · rw [htoLru₂, Lru.put]
    simp only [← htoLru₁]
    rfl

/-- Each operation has a result, and the answer and the entries afterwards are those that come of
the list of entries alone. -/
theorem WellLinked.perform_eq_some (h : d.WellLinked) (op : LruOperation β) :
    ∃ d', d.perform op = some (d', (d.toLru.perform op).2) ∧ d'.WellLinked ∧
      d'.toLru = (d.toLru.perform op).1 := by
  cases op with
  | put now key value valueBytes ttlSeconds =>
    obtain ⟨d', hput, h', htoLru⟩ := h.put_eq_some now key value valueBytes ttlSeconds
    exact ⟨d', by rw [perform, hput]; rfl, h', htoLru⟩
  | get now key =>
    obtain ⟨d', hget, h', htoLru⟩ := h.get_eq_some now key
    exact ⟨d', by rw [perform, hget]; rfl, h', htoLru⟩
  | invalidate key =>
    obtain ⟨d', hinvalidate, h', htoLru⟩ := h.invalidate_eq_some key
    exact ⟨d', by rw [perform, hinvalidate]; rfl, h', htoLru⟩
  | invalidatePattern pattern =>
    obtain ⟨d', herase, h', htoLru⟩ := h.eraseWhere_eq_some fun e => pattern.accepts e.key
    exact ⟨d', by rw [perform, herase]; rfl, h', htoLru⟩
  | evictExpired now =>
    obtain ⟨d', herase, h', htoLru⟩ := h.eraseWhere_eq_some fun e => e.isExpired now
    set gone := (d.toLru.retain fun e => !e.isExpired now).2
    refine ⟨{ d' with expirations := d'.expirations + gone },
      by rw [perform, evictExpired, herase]; rfl, h'.counted .., ?_⟩
    show { d'.toLru with expirations := d'.toLru.expirations + gone } = _
    rw [htoLru]
    rfl
  | clear => exact ⟨d.clear, rfl, ⟨List.nodup_nil, nofun, by simp [clear], rfl⟩, rfl⟩

/-- So have operations that are carried out one after another. -/
theorem WellLinked.run_eq_some (h : d.WellLinked) (ops : List (LruOperation β)) :
    ∃ d', d.run ops = some (d', d.toLru.answers ops) ∧ d'.WellLinked ∧
      d'.toLru = d.toLru.after ops := by
  induction ops generalizing d with
  | nil => exact ⟨d, rfl, h, rfl⟩
  | cons op rest ih =>
    obtain ⟨d₁, hperform, h₁, htoLru₁⟩ := h.perform_eq_some op
    obtain ⟨d₂, hrun, h₂, htoLru₂⟩ := ih h₁
    rw [htoLru₁] at hrun htoLru₂
    refine ⟨d₂, ?_, h₂, htoLru₂⟩
    simp only [run, hperform, Option.bind_some, hrun]
    rfl

/-! ## Any operations on a new cache -/

/-- The table of a cache has exactly the keys of its entries. -/
theorem WellLinked.mem_keys_iff (h : d.WellLinked) :
    key ∈ d.table.keys ↔ key ∈ d.toLru.entries.map LruEntry.key := by
  show _ ↔ key ∈ (d.nodes.map LruNode.entry).map LruEntry.key
  simp only [Dict.mem_keys_iff, h.table_iff, List.map_map, List.mem_map, Function.comp_apply]
  constructor
  · rintro ⟨address, n, hn, hkey, -⟩
    exact ⟨n, hn, hkey⟩
  · rintro ⟨n, hn, hkey⟩
    exact ⟨n.address, n, hn, hkey, rfl⟩

/-- What is asked of a bounded cache of values gives its entries the bytes of their keys and of
their values. -/
theorem bytes_of_mem_after {capacity : ℕ} {defaultTtl : Int} {ops : List KeyedOperation}
    {e : LruEntry Cached}
    (h : e ∈ ((Lru.new capacity defaultTtl).after (ops.map KeyedOperation.toLru)).entries) :
    e.bytes = e.key.length + e.value.byteSize := by
  obtain ⟨before, op, after, hops, hop, -⟩ := Lru.stands_of_mem_after h
  obtain ⟨keyed, -, rfl⟩ : ∃ keyed ∈ ops, keyed.toLru = op := by
    rw [← List.mem_map, hops]
    simp
  cases keyed with
  | put now key value ttlSeconds =>
    obtain rfl := Option.some.inj hop
    rfl
  | _ => exact absurd hop nofun

/-- Whatever is asked of a new bounded cache of values, no address is used where no entry is, and no
byte is counted off that was not counted. The entries have different keys, these are what the table
has, and it leads from each of them to its entry. There are no more entries than there may be, the
bytes are those of the keys and the values, each read counts as a hit or a miss, and each entry that
came in under a key without one is still there or was counted once where it left. -/
theorem run_new_accounts_for_all (capacity : ℕ) (defaultTtl : Int) (ops : List KeyedOperation) :
    let asked := ops.map KeyedOperation.toLru
    let start : Lru Cached := .new capacity defaultTtl
    let c := start.after asked
    ∃ d, (new capacity defaultTtl).run asked = some (d, start.answers asked) ∧ d.toLru = c ∧
      (c.entries.map LruEntry.key).Nodup ∧
      (∀ key, key ∈ d.table.keys ↔ key ∈ c.entries.map LruEntry.key) ∧
      (∀ key e, d.lookup? key = some e ↔ e ∈ c.entries ∧ e.key = key) ∧
      c.size ≤ max capacity 1 ∧
      c.bytes = (c.entries.map fun e => e.key.length + e.value.byteSize).sum ∧
      c.hits + c.misses = asked.countP LruOperation.isGet ∧
      start.total Lru.entering asked =
        c.size + c.evictions + c.expirations + start.total Lru.removed asked +
          start.total Lru.cleared asked := by
  intro asked start c
  obtain ⟨d, hrun, hd, htoLru⟩ := (wellLinked_new capacity defaultTtl).run_eq_some asked
  have hc : d.toLru = c := htoLru
  have hbalanced : c.Balanced := (Lru.balanced_new capacity defaultTtl).after asked
  have hbytes : c.bytes = (c.entries.map fun e => e.key.length + e.value.byteSize).sum := by
    rw [hbalanced.weighed, Lru.bytesOf_eq_sum]
    exact congrArg List.sum (List.map_congr_left fun e he => bytes_of_mem_after he)
  have hlookup (key : Bytes) (e : LruEntry Cached) :
      d.lookup? key = some e ↔ e ∈ c.entries ∧ e.key = key := by
    rw [hd.lookup?_eq, hc]
    exact hbalanced.distinctKeys.find?_eq_some_iff
  have hsize : c.size ≤ max capacity 1 :=
    hbalanced.size_le.trans_eq (Lru.bounds_after start asked).1
  exact ⟨d, hrun, hc, hbalanced.distinctKeys, fun key => hc ▸ hd.mem_keys_iff, hlookup, hsize,
    hbytes, Lru.lookups_after capacity defaultTtl asked,
    (Lru.size_after_add capacity defaultTtl asked).symm⟩

end LinkedLru

end SourceChunks
