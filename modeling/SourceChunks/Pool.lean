import SourceChunks.Dict
import SourceChunks.Pool.Resource

/-!
# The resource pool

A pool keeps resources for reuse, by type. To acquire one never fails for lack of a free one: it is
then created by the factory for its type. What is released goes to the end of the free list of its
type, or is discarded if that list is full.
-/

namespace SourceChunks

/-- What happened to the resources of a type. -/
structure PoolCounts where
  /-- How many are handed out. -/
  inUse : Nat
  /-- How many were handed out so far. -/
  acquired : Nat
  /-- How many came back. -/
  released : Nat
  /-- How many were created. -/
  created : Nat
  /-- How many came back when the free list was full. -/
  discarded : Nat
  deriving DecidableEq, Repr

/-- The counts of a type with which nothing has happened. -/
def PoolCounts.zero : PoolCounts := ⟨0, 0, 0, 0, 0⟩

/-- Resources that are kept for reuse. -/
structure Pool where
  /-- How many free resources of each type are kept. -/
  maxFree : Nat
  /-- The factories, by what the types that they serve begin with. -/
  factories : Dict ResourceFactory
  /-- The free resources of each type; the first one is handed out next. -/
  free : Dict (List Resource)
  /-- The counts of each type. -/
  counts : Dict PoolCounts
  /-- The serial number of the next resource that a factory is asked for. -/
  nextSerial : Nat

namespace Pool

/-- A pool without resources whose parsers are made in a given way. -/
def withParsers (maxFree : Nat) (make : Nat → Bytes → Except Failure (Option ResourceBody)) :
    Pool where
  maxFree := maxFree
  factories := Dict.ofList
    [(ResourceFactory.parserPrefix, .parsers make),
      (bytes "byte_buffer", .byteBuffers),
      (bytes "chunk_list", .chunkLists)]
  free := Dict.empty
  counts := Dict.empty
  nextSerial := 0

/-- A pool without resources. -/
def new (maxFree : Nat) : Pool := withParsers maxFree fun _ => ResourceFactory.parserOf

/-- Let a factory serve all types that begin with a text. -/
def register (p : Pool) (start : Bytes) (factory : ResourceFactory) : Pool :=
  { p with factories := p.factories.insert start factory }

/-- The factory for a type: of those that serve it, the one with the longest text. -/
def factoryFor? (p : Pool) (type : Bytes) : Option ResourceFactory :=
  let serving := p.factories.entries.filter fun e => e.1.isPrefixOf type
  (serving.foldl (fun best e =>
    match best with
    | none => some e
    | some b => if b.1.length ≤ e.1.length then some e else some b) none).map Prod.snd

/-- The free resources of a type. -/
def freeOf (p : Pool) (type : Bytes) : List Resource := (p.free.get? type).getD []

/-- The number of free resources of a type. -/
def size (p : Pool) (type : Bytes) : Nat := (p.freeOf type).length

/-- The counts of a type. -/
def countsOf (p : Pool) (type : Bytes) : PoolCounts := (p.counts.get? type).getD .zero

/-- Change the counts of a type. -/
def count (p : Pool) (type : Bytes) (f : PoolCounts → PoolCounts) : Pool :=
  { p with counts := p.counts.modify type .zero f }

/-- Have a new resource of a type made. Its serial number is used up even if that fails. -/
def make (p : Pool) (type : Bytes) : Pool × Except Failure Resource :=
  match p.factoryFor? type with
  | none => (p, .error (.unknownResource type))
  | some factory =>
    let serial := p.nextSerial
    let p := { p with nextSerial := serial + 1 }
    match factory serial type with
    | .error f => (p, .error f)
    | .ok none => (p, .error (.emptyFactory type))
    | .ok (some body) => (p, .ok ⟨serial, type, body⟩)

/-- Have several new resources of a type made. If one cannot be made those before it are lost. -/
def makeAll (p : Pool) (type : Bytes) : Nat → Pool × Except Failure (List Resource)
  | 0 => (p, .ok [])
  | n + 1 =>
    match p.make type with
    | (p, .error f) => (p, .error f)
    | (p, .ok r) =>
      let (p, rest) := p.makeAll type n
      (p, rest.map fun rs => r :: rs)

/-- Hand out the first free resource of a type, if there is one. -/
def takeFree? (p : Pool) (type : Bytes) : Option (Pool × Resource) :=
  match p.freeOf type with
  | [] => none
  | r :: rest =>
    let p := { p with free := p.free.insert type rest }
    some (p.count type fun c => { c with acquired := c.acquired + 1, inUse := c.inUse + 1 }, r)

/-- Have a new resource of a type made and hand it out. -/
def create (p : Pool) (type : Bytes) : Pool × Except Failure Resource :=
  match p.make type with
  | (p, .error f) => (p, .error f)
  | (p, .ok r) =>
    (p.count type fun c =>
      { c with created := c.created + 1, acquired := c.acquired + 1, inUse := c.inUse + 1 }, .ok r)

/-- Hand out the first free resource of a type, or a new one if none is free. -/
def acquire (p : Pool) (type : Bytes) : Pool × Except Failure Resource :=
  match p.takeFree? type with
  | some (p, r) => (p, .ok r)
  | none => p.create type

/-- Whether there is room for one more free resource of a type. -/
def hasRoom (p : Pool) (type : Bytes) : Bool := p.size type < p.maxFree

/-- Keep a resource as the last free one of its type if there is room, and else discard it. -/
def keep (p : Pool) (r : Resource) : Pool :=
  if p.hasRoom r.type then
    { p with free := p.free.insert r.type (p.freeOf r.type ++ [r]) }
  else p.count r.type fun c => { c with discarded := c.discarded + 1 }

/-- Take a resource back: it is reset, and kept if there is room. -/
def release (p : Pool) (r : Resource) : Pool :=
  (p.count r.type fun c => { c with released := c.released + 1, inUse := c.inUse - 1 }).keep r.reset

/-- Keep a resource that is new if there is room. -/
def stock (p : Pool) (r : Resource) : Pool :=
  (p.count r.type fun c => { c with created := c.created + 1 }).keep r

/-- Create up to `n` free resources of a type, as many as there is room for; the answer is how many
are kept. If one cannot be made, none is. -/
def warmUp (p : Pool) (type : Bytes) (n : Nat) : Pool × Except Failure Nat :=
  match p.makeAll type (min n (p.maxFree - p.size type)) with
  | (p, .error f) => (p, .error f)
  | (p, .ok fresh) =>
    let warm := fresh.foldl stock (p.count type id)
    (warm, .ok (warm.size type - p.size type))

/-- Drop the free resources of a type; for the empty type, drop those of all types and all
counts. -/
def clear (p : Pool) (type : Bytes) : Pool :=
  if type.isEmpty then { p with free := Dict.empty, counts := Dict.empty }
  else { p with free := p.free.erase type }

end Pool

end SourceChunks
