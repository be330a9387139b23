import SourceChunks.Glob
import SourceChunks.Scalar

/-!
# A bounded cache of recent entries

The cache holds at most as many entries as its capacity. A new entry pushes out the one that was
longest not put or read. An entry may have a lifetime, after which it is gone; reading does not
prolong it. Ages are counted in nanoseconds, and so is a lifetime when it is compared with one: it
wraps around if it does not fit into a word of 64 bits. The clock itself starts with the machine and
stays within the word.
-/

namespace SourceChunks

/-- A value in the cache. -/
structure LruEntry (β : Type) where
  /-- The key under which it was put. -/
  key : Bytes
  /-- The value. -/
  value : β
  /-- When it was put, in nanoseconds. -/
  createdAt : Int
  /-- How many seconds it lives; it lives for ever if that is not positive. -/
  ttlSeconds : Int
  /-- About how many bytes it takes, the key included. -/
  bytes : Nat
  deriving DecidableEq, Repr

/-- So many seconds in nanoseconds, as a word of 64 bits with a sign holds them. -/
def wordOfSeconds (seconds : Int) : Int := (seconds * 1000000000).bmod UInt64.size

/-- Whether an entry has outlived its lifetime. -/
def LruEntry.isExpired {β : Type} (e : LruEntry β) (now : Int) : Bool :=
  0 < e.ttlSeconds && wordOfSeconds e.ttlSeconds < now - e.createdAt

/-- A cache that keeps the entries used last. -/
structure Lru (β : Type) where
  /-- How many entries it may hold. -/
  capacity : Nat
  /-- The lifetime of entries that have none of their own. -/
  defaultTtlSeconds : Int
  /-- The entries, the one used last first. -/
  entries : List (LruEntry β)
  /-- About how many bytes the entries take together. -/
  bytes : Nat
  /-- How many reads found a value. -/
  hits : Nat
  /-- How many reads found none. -/
  misses : Nat
  /-- How many entries were pushed out. -/
  evictions : Nat
  /-- How many entries were dropped because their lifetime was over. -/
  expirations : Nat
  deriving DecidableEq, Repr

namespace Lru

variable {β : Type}

/-- A cache without entries; a capacity of zero counts as one. -/
def new (capacity : Nat) (defaultTtlSeconds : Int) : Lru β :=
  ⟨max capacity 1, defaultTtlSeconds, [], 0, 0, 0, 0, 0⟩

/-- The entry under a key. -/
def find? (c : Lru β) (key : Bytes) : Option (LruEntry β) := c.entries.find? fun e => e.key == key

/-- The number of entries. -/
def size (c : Lru β) : Nat := c.entries.length

/-- The bytes of some entries together. -/
def bytesOf (es : List (LruEntry β)) : Nat := es.foldr (fun e total => e.bytes + total) 0

/-- Keep the entries that satisfy a test; the answer is how many are gone. -/
def retain (c : Lru β) (keep : LruEntry β → Bool) : Lru β × Nat :=
  let gone := c.entries.filter fun e => !keep e
  ({ c with entries := c.entries.filter keep, bytes := c.bytes - bytesOf gone }, gone.length)

/-- Remove the entry under a key; the answer tells whether there was one. -/
def invalidate (c : Lru β) (key : Bytes) : Lru β × Bool :=
  let (c, gone) := c.retain fun e => e.key != key
  (c, gone != 0)

/-- Remove the entries whose keys match a pattern; the answer is how many are gone. -/
def invalidatePattern (c : Lru β) (pattern : Glob) : Lru β × Nat :=
  c.retain fun e => !pattern.accepts e.key

/-- Remove the entries that have outlived their lifetimes; the answer is how many are gone. -/
def evictExpired (c : Lru β) (now : Int) : Lru β × Nat :=
  let (c, gone) := c.retain fun e => !e.isExpired now
  ({ c with expirations := c.expirations + gone }, gone)

/-- Read the value under a key, which makes its entry the one used last. -/
def get (c : Lru β) (now : Int) (key : Bytes) : Lru β × Option β :=
  match c.find? key with
  | none => ({ c with misses := c.misses + 1 }, none)
  | some e =>
    if e.isExpired now then
      let (c, _) := c.invalidate key
      ({ c with expirations := c.expirations + 1, misses := c.misses + 1 }, none)
    else
      ({ c with
          entries := e :: c.entries.filter fun e => e.key != key
          hits := c.hits + 1 }, some e.value)

/-- Push out the entries beyond the capacity. -/
def trim (c : Lru β) : Lru β :=
  let gone := c.entries.drop c.capacity
  { c with
    entries := c.entries.take c.capacity
    bytes := c.bytes - bytesOf gone
    evictions := c.evictions + gone.length }

/-- Put a value of so many bytes under a key, in place of the one that may be there. A lifetime that
is not positive means the default one. -/
def put (c : Lru β) (now : Int) (key : Bytes) (value : β) (valueBytes : Nat) (ttlSeconds : Int) :
    Lru β :=
  let (c, _) := c.invalidate key
  let ttl := if 0 < ttlSeconds then ttlSeconds else c.defaultTtlSeconds
  let entry : LruEntry β := ⟨key, value, now, ttl, key.length + valueBytes⟩
  trim { c with entries := entry :: c.entries, bytes := c.bytes + entry.bytes }

/-- Remove all entries. -/
def clear (c : Lru β) : Lru β := { c with entries := [], bytes := 0 }

/-- The share of successes among attempts, zero if there were none. -/
def rate {α : Type} [Scalar α] (successes failures : Nat) : α :=
  if successes + failures = 0 then Scalar.ofNat 0
  else Scalar.ofNat successes / Scalar.ofNat (successes + failures)

/-- The share of reads that found a value. -/
def hitRate {α : Type} [Scalar α] (c : Lru β) : α := rate c.hits c.misses

end Lru

end SourceChunks
