import Mathlib.Data.List.Perm.Subperm
import Mathlib.Data.List.ReduceOption
import SourceChunks.Pool.Custody
import SourceChunks.Proofs.Pool.Operations

/-!
# Who holds a resource, over time

Those who hold resources acquire and release them, lease them, move, release and drop their leases,
and use what they hold, while the pool may be warmed up and cleared. Whatever they do, each resource
that somebody holds is outstanding, once for each time that it is held, so the pool is never given
what it has not handed out.
-/

namespace SourceChunks

/-- Something that is done with a pool by those who hold resources from it. -/
inductive CustodyOperation where
  /-- A resource of a type is acquired under a name. -/
  | acquire (name type : Bytes)
  /-- What is held plainly under a name is released. -/
  | release (name : Bytes)
  /-- A resource of a type is leased under a name. -/
  | lease (name type : Bytes)
  /-- There is a lease under a name. -/
  | openLease (name : Bytes)
  /-- A lease is released. -/
  | releaseLease (name : Bytes)
  /-- A lease is dropped. -/
  | dropLease (name : Bytes)
  /-- What one lease holds is moved to another one. -/
  | moveLease (source target : Bytes)
  /-- What is held under a name is used. -/
  | use (name : Bytes) (f : ResourceBody → ResourceBody)
  /-- The pool is asked to have some free resources of a type. -/
  | warmUp (type : Bytes) (n : ℕ)
  /-- A factory serves the types that begin with a text. -/
  | register (start : Bytes) (factory : ResourceFactory)
  /-- The free resources of one type are dropped. -/
  | clear (type : Bytes) (isOne : type ≠ [])

namespace Custody

open Pool

variable {c : Custody} {name type : Bytes} {r : Resource} {history : List PoolEvent} {maxFree : ℕ}

/-- What an operation makes of a pool and its holders. -/
def perform (c : Custody) : CustodyOperation → Custody
  | .acquire name type => (c.acquire name type).1
  | .release name => c.release name
  | .lease name type => (c.lease name type).1
  | .openLease name => c.openLease name
  | .releaseLease name => c.releaseLease name
  | .dropLease name => c.dropLease name
  | .moveLease source target => c.moveLease source target
  | .use name f => c.use name f
  | .warmUp type n => { c with pool := (c.pool.warmUp type n).1 }
  | .register start factory => { c with pool := c.pool.register start factory }
  | .clear type _ => { c with pool := c.pool.clear type }

/-- What happens when a lease gives back what it holds. -/
def giveBackEvents (c : Custody) (name : Bytes) : List PoolEvent :=
  (c.leased? name).toList.map c.pool.releaseEvent

/-- What an operation does to the resources of the pool. -/
def eventsOf (c : Custody) : CustodyOperation → List PoolEvent
  | .acquire _ type => c.pool.acquireEvents type
  | .release name => (c.plain.get? name).toList.map c.pool.releaseEvent
  | .lease name type =>
    match (c.pool.acquire type).2 with
    | .error _ => []
    | .ok _ =>
      c.pool.acquireEvents type ++ giveBackEvents { c with pool := (c.pool.acquire type).1 } name
  | .releaseLease name | .dropLease name => c.giveBackEvents name
  | .moveLease source target => if source = target then [] else c.giveBackEvents target
  | .warmUp type n => c.pool.warmUpEvents type n
  | .clear type _ => [.drop type (c.pool.freeOf type)]
  | .openLease _ | .use _ _ | .register _ _ => []

/-- A pool and its holders after some operations. -/
def after (c : Custody) (operations : List CustodyOperation) : Custody := operations.foldl perform c

/-- What some operations do to the resources of the pool. -/
def events (c : Custody) : List CustodyOperation → List PoolEvent
  | [] => []
  | operation :: rest => c.eventsOf operation ++ (c.perform operation).events rest

/-- The last operation is carried out in the custody that the others leave. -/
theorem after_concat (c : Custody) (operations : List CustodyOperation)
    (operation : CustodyOperation) :
    c.after (operations ++ [operation]) = (c.after operations).perform operation :=
  List.foldl_append

/-- Operations have their events part by part. -/
theorem events_append (c : Custody) (operations rest : List CustodyOperation) :
    c.events (operations ++ rest) = c.events operations ++ (c.after operations).events rest := by
  induction operations generalizing c with
  | nil => rfl
  | cons operation operations ih =>
    rw [List.cons_append, events, ih, events, List.append_assoc]
    rfl

/-- The events of the last operation come after those of the others. -/
theorem events_concat (c : Custody) (operations : List CustodyOperation)
    (operation : CustodyOperation) :
    c.events (operations ++ [operation]) =
      c.events operations ++ (c.after operations).eventsOf operation := by
  rw [events_append, events, events, List.append_nil]

/-! ## What is held -/

/-- The resources that somebody holds, once for each holder. -/
def held (c : Custody) : List Resource := c.plain.values ++ c.leases.values.reduceOption

/-- An empty lease holds as little as no lease. -/
theorem reduceOption_toList_get? (c : Custody) (name : Bytes) :
    (c.leases.get? name).toList.reduceOption = (c.leased? name).toList := by
  rw [leased?]
  cases c.leases.get? name with
  | none => rfl
  | some o => cases o <;> rfl

/-- A resource held under a name replaces the one that was held under it. -/
theorem held_insert_plain_perm (c : Custody) (name : Bytes) (r : Resource) :
    ((c.plain.get? name).toList ++ held { c with plain := c.plain.insert name r }).Perm
      (r :: c.held) := by
  rw [held, held, ← List.append_assoc]
  exact (c.plain.values_insert_perm name r).append_right _

/-- What is held is the resource under a name and what is held without it. -/
theorem held_perm_erase_plain (c : Custody) (name : Bytes) :
    c.held.Perm ((c.plain.get? name).toList ++ held { c with plain := c.plain.erase name }) := by
  rw [held, held, ← List.append_assoc]
  exact (c.plain.values_perm_erase name).append_right _

/-- What a lease is set to replaces what it held. -/
theorem held_insert_lease_perm (c : Custody) (name : Bytes) (o : Option Resource) :
    ((c.leased? name).toList ++ held { c with leases := c.leases.insert name o }).Perm
      (o.toList ++ c.held) := by
  have hperm := (c.leases.values_insert_perm name o).filterMap id
  have hleft : ((c.leased? name).toList ++ (c.leases.insert name o).values.reduceOption).Perm
      (o.toList ++ c.leases.values.reduceOption) := by
    rw [← reduceOption_toList_get?, ← List.reduceOption_append]
    refine hperm.trans ?_
    cases o <;> exact .refl _
  refine (List.perm_append_comm_assoc _ _ _).trans ?_
  exact (hleft.append_left _).trans (List.perm_append_comm_assoc _ _ _)

/-- What is held is what a lease holds and what is held without the lease. -/
theorem held_perm_erase_lease (c : Custody) (name : Bytes) :
    c.held.Perm ((c.leased? name).toList ++ held { c with leases := c.leases.erase name }) := by
  have hperm := (c.leases.values_perm_erase name).filterMap id
  have hleft : c.leases.values.reduceOption.Perm
      ((c.leased? name).toList ++ (c.leases.erase name).values.reduceOption) := by
    rw [← reduceOption_toList_get?, ← List.reduceOption_append]
    exact hperm
  exact (hleft.append_left _).trans (List.perm_append_comm_assoc _ _ _)

/-! ## What is held is outstanding -/

/-- The pool was used for some time, and all that is held is outstanding, once for each holder. -/
structure Sound (maxFree : ℕ) (history : List PoolEvent) (c : Custody) : Prop where
  /-- The pool was used for some time. -/
  run : Run maxFree history c.pool
  /-- What is held is outstanding. -/
  held_subperm : (c.held.map Resource.identity).Subperm (outstanding history)

/-- What holds no more from the same pool is sound too. -/
theorem Sound.of_pool_eq {c' : Custody} (h : Sound maxFree history c) (hpool : c'.pool = c.pool)
    (hheld : (c'.held.map Resource.identity).Perm (c.held.map Resource.identity)) :
    Sound maxFree history c' := ⟨hpool ▸ h.run, hheld.subperm.trans h.held_subperm⟩

/-- Without a resource that is taken back, what is held besides it is still outstanding. -/
theorem subperm_outstanding_release {rs : List Resource} {p : Pool}
    (h : ((r :: rs).map Resource.identity).Subperm (outstanding history)) :
    (rs.map Resource.identity).Subperm (outstanding (history ++ [p.releaseEvent r])) := by
  have herase := h.erase r.identity
  rw [List.map_cons, List.erase_cons_head] at herase
  rwa [outstanding_concat]

/-- What a lease holds is given back, and what is held besides it is still outstanding. -/
theorem run_giveBack {rs : List Resource} (h : Run maxFree history c.pool)
    (hle : (((c.leased? name).toList ++ rs).map Resource.identity).Subperm (outstanding history)) :
    Run maxFree (history ++ c.giveBackEvents name) (c.giveBack name).pool ∧
      (rs.map Resource.identity).Subperm (outstanding (history ++ c.giveBackEvents name)) := by
  rw [giveBackEvents, giveBack]
  cases hlease : c.leased? name with
  | none =>
    rw [hlease] at hle
    rw [Option.toList_none, List.map_nil, List.append_nil]
    exact ⟨h, hle⟩
  | some r =>
    rw [hlease] at hle
    exact ⟨h.release (hle.subset List.mem_cons_self), subperm_outstanding_release hle⟩

/-- Giving back leaves the leases as they are. -/
theorem leases_giveBack (c : Custody) (name : Bytes) : (c.giveBack name).leases = c.leases := by
  rw [giveBack]
  split <;> rfl

/-- Giving back by a lease leaves what is held without one. -/
theorem plain_giveBack (c : Custody) (name : Bytes) : (c.giveBack name).plain = c.plain := by
  rw [giveBack]
  split <;> rfl

/-- A lease takes on something that is outstanding besides all that is held. -/
theorem sound_assign {o : Option Resource} (h : Run maxFree history c.pool)
    (hle : ((o.toList ++ c.held).map Resource.identity).Subperm (outstanding history)) :
    Sound maxFree (history ++ c.giveBackEvents name) (c.assign name o) := by
  have hperm := (c.held_insert_lease_perm name o).map Resource.identity
  obtain ⟨hrun, hheld⟩ := run_giveBack h (hperm.subperm.trans hle)
  refine ⟨hrun, ?_⟩
  rwa [assign, held, leases_giveBack, plain_giveBack]

/-- To move what a lease holds is to empty it and to let the other one take that on. -/
theorem moveLease_eq {source target : Bytes} (hne : source ≠ target) :
    c.moveLease source target =
      assign { c with leases := c.leases.insert source none } target (c.leased? source) := by
  have hleased : leased? { c with leases := c.leases.insert source none } target =
      c.leased? target := by
    rw [leased?, Dict.get?_insert, if_neg (Ne.symm hne), leased?]
  have hswap : (c.leases.insert target (c.leased? source)).insert source none =
      (c.leases.insert source none).insert target (c.leased? source) := by
    apply Dict.ext_get?
    intro k
    rw [Dict.get?_insert, Dict.get?_insert, Dict.get?_insert, Dict.get?_insert]
    by_cases hk : k = source
    · rw [if_pos hk, if_neg (hk ▸ hne), if_pos hk]
    · rw [if_neg hk, if_neg hk]
  simp only [moveLease, if_neg hne, assign, giveBack, hleased]
  cases c.leased? target <;> simp only [hswap]

/-- Using a resource leaves the pool as it is. -/
theorem pool_use (c : Custody) (name : Bytes) (f : ResourceBody → ResourceBody) :
    (c.use name f).pool = c.pool := by
  rw [use]
  split
  · rfl
  · split <;> rfl

/-- Use does not change the identity of what is used. -/
theorem held_use_perm (c : Custody) (name : Bytes) (f : ResourceBody → ResourceBody) :
    ((c.use name f).held.map Resource.identity).Perm (c.held.map Resource.identity) := by
  let change (r : Resource) : Resource := { r with body := f r.body }
  have hcancel {old rs rs' : List Resource}
      (hperm : (old ++ rs').Perm (old.map change ++ rs)) :
      (rs'.map Resource.identity).Perm (rs.map Resource.identity) := by
    have hids := hperm.map Resource.identity
    rw [List.map_append, List.map_append, List.map_map] at hids
    exact (List.perm_append_left_iff _).mp hids
  rw [use]
  split
  · have hperm := c.held_insert_lease_perm name ((c.leased? name).map change)
    rw [Option.toList_map] at hperm
    exact hcancel hperm
  · split
    · exact .refl _
    · next r hr =>
      have hperm := c.held_insert_plain_perm name (change r)
      rw [hr] at hperm
      exact hcancel hperm

/-- Opening a lease leaves the pool as it is. -/
theorem pool_openLease (c : Custody) (name : Bytes) : (c.openLease name).pool = c.pool := by
  rw [openLease]
  split <;> rfl

/-- Opening a lease leaves what is held. -/
theorem held_openLease_perm (c : Custody) (name : Bytes) : (c.openLease name).held.Perm c.held := by
  rw [openLease]
  split
  · exact .refl _
  · next hnew =>
    have hnone : c.leased? name = none := by
      rw [Dict.contains, Option.not_isSome_iff_eq_none] at hnew
      rw [leased?, hnew]
      rfl
    have hperm := c.held_insert_lease_perm name none
    rwa [hnone] at hperm

/-- To acquire a resource is to have the pool acquire it; if that succeeds it is held plainly. -/
theorem acquire_cases (c : Custody) (name type : Bytes) :
    (∃ f, (c.pool.acquire type).2 = .error f ∧
        c.acquire name type = ({ c with pool := (c.pool.acquire type).1 }, .error f)) ∨
      ∃ r, (c.pool.acquire type).2 = .ok r ∧
        c.acquire name type =
          ({ c with pool := (c.pool.acquire type).1, plain := c.plain.insert name r }, .ok r) := by
  rw [Custody.acquire]
  cases c.pool.acquire type with
  | mk pool answer =>
    cases answer with
    | error f => exact .inl ⟨f, rfl, rfl⟩
    | ok r => exact .inr ⟨r, rfl, rfl⟩

/-- To lease a resource is to have the pool acquire it; if that succeeds the lease takes it on. -/
theorem lease_cases (c : Custody) (name type : Bytes) :
    (∃ f, (c.pool.acquire type).2 = .error f ∧
        c.lease name type = ({ c with pool := (c.pool.acquire type).1 }, .error f)) ∨
      ∃ r, (c.pool.acquire type).2 = .ok r ∧
        c.lease name type =
          (assign { c with pool := (c.pool.acquire type).1 } name (some r), .ok r) := by
  rw [Custody.lease]
  cases c.pool.acquire type with
  | mk pool answer =>
    cases answer with
    | error f => exact .inl ⟨f, rfl, rfl⟩
    | ok r => exact .inr ⟨r, rfl, rfl⟩

/-- An acquisition keeps custody sound, also one that fails. -/
theorem Sound.acquire (h : Sound maxFree history c) (name type : Bytes) :
    Sound maxFree (history ++ c.eventsOf (.acquire name type)) (c.acquire name type).1 := by
  have hrun := h.run.acquire type
  show Sound maxFree (history ++ c.pool.acquireEvents type) _
  obtain ⟨f, hf, hacquire⟩ | ⟨r, hr, hacquire⟩ := c.acquire_cases name type
  · rw [acquireEvents_of_eq_error hf, List.append_nil] at hrun ⊢
    rw [hacquire]
    exact ⟨hrun, h.held_subperm⟩
  · rw [hacquire]
    refine ⟨hrun, ?_⟩
    rw [outstanding_acquireEvents hr]
    have hperm := (c.held_insert_plain_perm name r).map Resource.identity
    rw [List.map_append] at hperm
    refine (List.sublist_append_right _ _).subperm.trans (hperm.subperm.trans ?_)
    exact (List.subperm_cons _).mpr h.held_subperm

/-- Leasing keeps custody sound, and what the lease held goes back only after the acquisition. -/
theorem Sound.lease (h : Sound maxFree history c) (name type : Bytes) :
    Sound maxFree (history ++ c.eventsOf (.lease name type)) (c.lease name type).1 := by
  have hrun := h.run.acquire type
  obtain ⟨f, hf, hlease⟩ | ⟨r, hr, hlease⟩ := c.lease_cases name type
  · rw [acquireEvents_of_eq_error hf, List.append_nil] at hrun
    simp only [eventsOf, hf, hlease, List.append_nil]
    exact ⟨hrun, h.held_subperm⟩
  · simp only [eventsOf, hr, hlease]
    rw [← List.append_assoc]
    refine sound_assign hrun ?_
    rw [outstanding_acquireEvents hr]
    exact (List.subperm_cons _).mpr h.held_subperm

/-- A release keeps custody sound, also if nothing is held under the name. -/
theorem Sound.release (h : Sound maxFree history c) (name : Bytes) :
    Sound maxFree (history ++ c.eventsOf (.release name)) (c.release name) := by
  rw [eventsOf, Custody.release]
  cases hplain : c.plain.get? name with
  | none =>
    rw [Option.toList_none, List.map_nil, List.append_nil]
    exact h
  | some r =>
    have hperm := (c.held_perm_erase_plain name).map Resource.identity
    rw [hplain] at hperm
    have hle := hperm.symm.subperm.trans h.held_subperm
    exact ⟨h.run.release (hle.subset List.mem_cons_self), subperm_outstanding_release hle⟩

/-- Dropping a lease keeps custody sound. -/
theorem Sound.dropLease (h : Sound maxFree history c) (name : Bytes) :
    Sound maxFree (history ++ c.eventsOf (.dropLease name)) (c.dropLease name) := by
  have hperm := (c.held_perm_erase_lease name).map Resource.identity
  obtain ⟨hrun, hheld⟩ := run_giveBack h.run (hperm.symm.subperm.trans h.held_subperm)
  refine ⟨hrun, ?_⟩
  rwa [Custody.dropLease, held, leases_giveBack, plain_giveBack]

/-- Moving a lease keeps custody sound, also onto itself. -/
theorem Sound.moveLease (h : Sound maxFree history c) (source target : Bytes) :
    Sound maxFree (history ++ c.eventsOf (.moveLease source target))
      (c.moveLease source target) := by
  rw [eventsOf]
  split
  · next heq =>
    rw [Custody.moveLease, if_pos heq, List.append_nil]
    exact h.of_pool_eq (c.pool_openLease source) ((c.held_openLease_perm source).map _)
  · next hne =>
    have hevents : giveBackEvents { c with leases := c.leases.insert source none } target =
        c.giveBackEvents target := by
      rw [giveBackEvents, leased?, Dict.get?_insert, if_neg (Ne.symm hne)]
      rfl
    rw [moveLease_eq hne, ← hevents]
    refine sound_assign h.run ?_
    exact ((c.held_insert_lease_perm source none).map _).subperm.trans h.held_subperm

/-- Each operation keeps what is held outstanding. -/
theorem Sound.perform (h : Sound maxFree history c) (operation : CustodyOperation) :
    Sound maxFree (history ++ c.eventsOf operation) (c.perform operation) := by
  cases operation with
  | acquire name type => exact h.acquire name type
  | release name => exact h.release name
  | lease name type => exact h.lease name type
  | releaseLease name => exact sound_assign h.run h.held_subperm
  | dropLease name => exact h.dropLease name
  | moveLease source target => exact h.moveLease source target
  | openLease name =>
    rw [eventsOf, List.append_nil]
    exact h.of_pool_eq (c.pool_openLease name) ((c.held_openLease_perm name).map _)
  | use name f =>
    rw [eventsOf, List.append_nil]
    exact h.of_pool_eq (c.pool_use name f) (c.held_use_perm name f)
  | warmUp type n =>
    refine ⟨h.run.warmUp type n, ?_⟩
    rw [eventsOf, outstanding_warmUpEvents]
    exact h.held_subperm
  | register start factory =>
    rw [eventsOf, List.append_nil]
    exact ⟨h.run.quiet ⟨rfl, rfl, fun _ => rfl, Nat.le_refl _⟩, h.held_subperm⟩
  | clear type isOne =>
    refine ⟨h.run.next (.drop isOne), ?_⟩
    rw [eventsOf, outstanding_concat]
    exact h.held_subperm

/-- Any operations keep custody sound. -/
theorem Sound.after (h : Sound maxFree history c) (operations : List CustodyOperation) :
    Sound maxFree (history ++ c.events operations) (c.after operations) := by
  induction operations using List.reverseRecOn with
  | nil => rwa [events, List.append_nil]
  | append_singleton operations operation ih =>
    rw [events_concat, after_concat, ← List.append_assoc]
    exact ih.perform operation

/-- A pool from which nobody holds a resource, with its own way to make parsers. -/
def start (maxFree : ℕ) (make : ℕ → Bytes → Except Failure (Option ResourceBody)) : Custody :=
  ofPool (.withParsers maxFree make)

/-- Whatever is done with a new pool, what is held is outstanding. -/
theorem sound_after (maxFree : ℕ) (make : ℕ → Bytes → Except Failure (Option ResourceBody))
    (operations : List CustodyOperation) :
    Sound maxFree ((start maxFree make).events operations)
      ((start maxFree make).after operations) := by
  have hstart : Sound maxFree [] (start maxFree make) := ⟨.start make, List.nil_subperm⟩
  exact hstart.after operations

end Custody

end SourceChunks
