import SourceChunks.Pool

/-!
# Who holds a resource

Resources that were handed out are held under names, either plainly or by a lease. A plain resource
goes back to the pool only when it is released. A lease gives its resource back by itself: when it
is released, dropped, or takes on another resource.
-/

namespace SourceChunks

/-- A pool and those who hold resources from it. -/
structure Custody where
  /-- The pool. -/
  pool : Pool
  /-- The resources that are held plainly. -/
  plain : Dict Resource
  /-- The leases; one that has given its resource back is empty. -/
  leases : Dict (Option Resource)

namespace Custody

/-- A pool from which nobody holds a resource. -/
def ofPool (p : Pool) : Custody := ⟨p, Dict.empty, Dict.empty⟩

/-- The resource in a lease. -/
def leased? (c : Custody) (name : Bytes) : Option Resource := (c.leases.get? name).getD none

/-- The resource that is held under a name; where both kinds have the name it is that of the
lease. -/
def held? (c : Custody) (name : Bytes) : Option Resource :=
  match c.leases.get? name with
  | some r => r
  | none => c.plain.get? name

/-- Hold a new resource of a type plainly. One that was held so under the name is lost. -/
def acquire (c : Custody) (name type : Bytes) : Custody × Except Failure Resource :=
  match c.pool.acquire type with
  | (pool, .error f) => ({ c with pool }, .error f)
  | (pool, .ok r) => ({ c with pool, plain := c.plain.insert name r }, .ok r)

/-- Release what is held plainly under a name, if anything is. -/
def release (c : Custody) (name : Bytes) : Custody :=
  match c.plain.get? name with
  | none => c
  | some r => { c with pool := c.pool.release r, plain := c.plain.erase name }

/-- Give what a lease holds back to the pool; the lease is left as it is. -/
def giveBack (c : Custody) (name : Bytes) : Custody :=
  match c.leased? name with
  | none => c
  | some r => { c with pool := c.pool.release r }

/-- Let a lease hold something else; what it held goes back. -/
def assign (c : Custody) (name : Bytes) (r : Option Resource) : Custody :=
  let c := c.giveBack name
  { c with leases := c.leases.insert name r }

/-- Have a lease under a name; a new one is empty. -/
def openLease (c : Custody) (name : Bytes) : Custody :=
  if c.leases.contains name then c else { c with leases := c.leases.insert name none }

/-- Hold a new resource of a type by a lease. It is acquired before what the lease held goes
back. -/
def lease (c : Custody) (name type : Bytes) : Custody × Except Failure Resource :=
  match c.pool.acquire type with
  | (pool, .error f) => ({ c with pool }, .error f)
  | (pool, .ok r) => (assign { c with pool } name (some r), .ok r)

/-- Release a lease, which is empty after that. -/
def releaseLease (c : Custody) (name : Bytes) : Custody := c.assign name none

/-- Drop a lease. -/
def dropLease (c : Custody) (name : Bytes) : Custody :=
  let c := c.giveBack name
  { c with leases := c.leases.erase name }

/-- Move what one lease holds to another, which gives back what it held; the first one is empty
after that. Nothing moves if both are the same. -/
def moveLease (c : Custody) (source target : Bytes) : Custody :=
  if source = target then c.openLease source
  else
    let r := c.leased? source
    let c := c.assign target r
    { c with leases := c.leases.insert source none }

/-- Use the resource that is held under a name, which may change what it is but not its serial
number or its type. -/
def use (c : Custody) (name : Bytes) (f : ResourceBody → ResourceBody) : Custody :=
  let change (r : Resource) : Resource := { r with body := f r.body }
  if c.leases.contains name then
    { c with leases := c.leases.modify name none (Option.map change) }
  else
    match c.plain.get? name with
    | none => c
    | some r => { c with plain := c.plain.insert name (change r) }

end Custody

end SourceChunks
