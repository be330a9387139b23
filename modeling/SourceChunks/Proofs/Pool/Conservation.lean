import SourceChunks.Proofs.Pool.Custody

/-!
# No resource goes missing

For each type the counts of a pool add up: what was handed out has come back or is in use, and what
was created is in use, is free, or was discarded or dropped. An acquisition that fails does not
count, and neither does a failed attempt to warm the pool up.
-/

namespace SourceChunks

namespace Pool

open PoolEvent

variable {p p' : Pool} {type : Bytes} {e : PoolEvent} {history : List PoolEvent} {maxFree : ℕ}

/-- The counts of a type after an event about it. -/
def tally (c : PoolCounts) : PoolEvent → PoolCounts
  | .handOut _ false => { c with acquired := c.acquired + 1, inUse := c.inUse + 1 }
  | .handOut _ true =>
    { c with created := c.created + 1, acquired := c.acquired + 1, inUse := c.inUse + 1 }
  | .takeBack _ true => { c with released := c.released + 1, inUse := c.inUse - 1 }
  | .takeBack _ false =>
    { c with released := c.released + 1, inUse := c.inUse - 1, discarded := c.discarded + 1 }
  | .stock _ => { c with created := c.created + 1 }
  | .drop _ _ => c

/-- An event changes the counts of the type that it is about only. -/
theorem Step.countsOf_eq (hstep : Step history p e p')
    (htypes : ∀ type, ∀ r ∈ p.freeOf type, r.type = type) (type : Bytes) :
    p'.countsOf type = if type = e.type then tally (p.countsOf type) e else p.countsOf type := by
  have hcount {q : Pool} {t : Bytes} (f : PoolCounts → PoolCounts)
      (hq : ∀ t, q.countsOf t = p.countsOf t) :
      (q.count t f).countsOf type = if type = t then f (p.countsOf type) else p.countsOf type := by
    rw [countsOf_count, hq, hq]
    split
    · next heq => rw [heq]
    · rfl
  cases hstep with
  | @reuse type' r rest hfree =>
    obtain rfl : r.type = type' := htypes type' r (hfree ▸ List.mem_cons_self)
    exact hcount _ fun t => rfl
  | create hnew => exact hcount _ fun t => rfl
  | keep hout hroom => exact hcount _ fun t => rfl
  | @discard r hout =>
    by_cases heq : type = r.type <;> simp [countsOf_count, PoolEvent.type, tally, heq]
  | stock hnew hroom => exact hcount _ fun t => rfl
  | drop htype =>
    rw [clear_of_ne_nil htype]
    exact (ite_self _).symm

/-- How many of what is handed out is of a type. -/
def countOf (type : Bytes) (out : List (ℕ × Bytes)) : ℕ := out.countP fun x => x.2 = type

/-- One more resource handed out counts for its type. -/
theorem countOf_cons (r : Resource) (out : List (ℕ × Bytes)) :
    countOf r.type (r.identity :: out) = countOf r.type out + 1 :=
  List.countP_cons_of_pos (decide_eq_true rfl)

/-- One resource less counts one less for its type. -/
theorem countOf_erase {r : Resource} {out : List (ℕ × Bytes)} (hout : r.identity ∈ out) :
    countOf r.type (out.erase r.identity) + 1 = countOf r.type out := by
  rw [← countOf_cons]
  exact ((List.perm_cons_erase hout).countP_eq _).symm

/-- An event about another type takes nothing of a type out or back. -/
theorem countOf_settle_of_type_ne (hne : type ≠ e.type) (out : List (ℕ × Bytes)) :
    countOf type (settle out e) = countOf type out := by
  cases e with
  | handOut r isNew => exact List.countP_cons_of_neg fun hr => hne (of_decide_eq_true hr).symm
  | takeBack r isKept =>
    rw [countOf, settle, List.countP_erase, if_neg, Nat.sub_zero, countOf]
    exact fun hr => hne (of_decide_eq_true hr.2).symm
  | stock r | drop type' rs => rfl

/-- An event changes the counts of its type by as much as it changes what is outstanding, free or
dropped of it. -/
theorem tally_spec {c : PoolCounts} {out : List (ℕ × Bytes)} (hinUse : c.inUse = countOf e.type out)
    (hback : ∀ r isKept, e = .takeBack r isKept → r.identity ∈ out) :
    (tally c e).inUse = countOf e.type (settle out e) ∧
      (tally c e).acquired + c.released + c.inUse =
        c.acquired + (tally c e).released + (tally c e).inUse ∧
      (tally c e).created + c.inUse + c.discarded + (e.leaving e.type).length =
        c.created + (tally c e).inUse + (tally c e).discarded + (e.entering e.type).length +
          (e.dropping e.type).length := by
  cases e with
  | handOut r isNew =>
    have hout := countOf_cons r out
    cases isNew
    all_goals
      simp only [PoolEvent.type, tally, settle, entering, leaving, dropping, if_true,
        List.length_nil, List.length_singleton] at hinUse ⊢
      omega
  | takeBack r isKept =>
    have hout := countOf_erase (hback r isKept rfl)
    cases isKept
    all_goals
      simp only [PoolEvent.type, tally, settle, entering, leaving, dropping, if_true,
        List.length_nil, List.length_singleton] at hinUse ⊢
      omega
  | stock r =>
    refine ⟨hinUse, rfl, ?_⟩
    simp only [PoolEvent.type, tally, entering, leaving, dropping, if_true, List.length_nil,
      List.length_singleton]
    omega
  | drop type rs =>
    refine ⟨hinUse, rfl, ?_⟩
    simp only [PoolEvent.type, tally, entering, leaving, dropping, if_true, List.length_nil]
    omega

/-- The counts of a type add up. -/
structure Balanced (history : List PoolEvent) (p : Pool) (type : Bytes) : Prop where
  /-- What was handed out has come back or is in use. -/
  acquired_eq : (p.countsOf type).acquired =
    (p.countsOf type).released + (p.countsOf type).inUse
  /-- What is in use is outstanding. -/
  inUse_eq : (p.countsOf type).inUse = countOf type (outstanding history)
  /-- What was created is in use, is free, or was discarded or dropped. -/
  created_eq : (p.countsOf type).created =
    (p.countsOf type).inUse + p.size type + (p.countsOf type).discarded +
      (history.flatMap (dropping type)).length

/-- An event keeps the counts of a type balanced. -/
theorem Step.balanced (hstep : Step history p e p')
    (htypes : ∀ type, ∀ r ∈ p.freeOf type, r.type = type) (h : Balanced history p type) :
    Balanced (history ++ [e]) p' type := by
  have hcounts := hstep.countsOf_eq htypes type
  have hfree := congrArg List.length (hstep.freeOf_append htypes type)
  have hdropped : ((history ++ [e]).flatMap (dropping type)).length =
      (history.flatMap (dropping type)).length + (e.dropping type).length := by
    rw [List.flatMap_append, List.flatMap_singleton, List.length_append]
  rw [List.length_append, List.length_append] at hfree
  obtain ⟨hacquired, hinUse, hcreated⟩ := h
  rw [size] at hcreated
  by_cases hne : type ≠ e.type
  · rw [if_neg hne] at hcounts
    rw [entering_of_type_ne hne, leaving_of_type_ne hne] at hfree
    rw [dropping_of_type_ne hne] at hdropped
    refine ⟨by rw [hcounts, hacquired], ?_, ?_⟩
    · rw [hcounts, outstanding_concat, countOf_settle_of_type_ne hne, hinUse]
    · rw [hcounts, hdropped, size]
      simp only [List.length_nil] at hfree ⊢
      omega
  · obtain rfl : type = e.type := not_not.mp hne
    rw [if_pos rfl] at hcounts
    obtain ⟨hinUse', hacquired', hcreated'⟩ :=
      tally_spec hinUse fun r isKept => hstep.mem_outstanding
    refine ⟨?_, by rw [hcounts, outstanding_concat, hinUse'], ?_⟩
    · rw [hcounts]
      omega
    · rw [hcounts, hdropped, size]
      omega

/-- The counts of every type are balanced, whatever has happened. -/
theorem Run.balanced (h : Run maxFree history p) (type : Bytes) : Balanced history p type := by
  induction h with
  | start make => exact ⟨rfl, rfl, rfl⟩
  | quiet h hquiet ih =>
    obtain ⟨hacquired, hinUse, hcreated⟩ := ih
    rw [size, ← hquiet.freeOf_eq, ← size] at hcreated
    rw [← hquiet.countsOf_eq] at hacquired hinUse hcreated
    exact ⟨hacquired, hinUse, hcreated⟩
  | next h hstep ih => exact hstep.balanced (fun type r => h.type_eq) ih

/-- A quiet change leaves as many free. -/
theorem Quiet.size_eq (h : Quiet p p') : p'.size type = p.size type := by
  rw [size, h.freeOf_eq, size]

end Pool

namespace Custody

open Pool PoolEvent

variable {c : Custody} {type : Bytes}

/-- The operation is an acquisition that fails, or a failed attempt to warm the pool up. -/
def Fails (c : Custody) : CustodyOperation → Prop
  | .acquire name type => ∃ f, (c.acquire name type).2 = .error f
  | .lease name type => ∃ f, (c.lease name type).2 = .error f
  | .warmUp type n => ∃ f, (c.pool.warmUp type n).2 = .error f
  | _ => False

/-- An operation that fails does nothing to the resources, and changes no count. -/
theorem quiet_of_fails {operation : CustodyOperation} (h : c.Fails operation) :
    c.eventsOf operation = [] ∧ Quiet c.pool (c.perform operation).pool := by
  cases operation with
  | acquire name type =>
    obtain ⟨f, hf, hacquire⟩ | ⟨r, hr, hacquire⟩ := c.acquire_cases name type
    · rw [perform, hacquire]
      exact ⟨acquireEvents_of_eq_error hf, quiet_of_acquire_eq_error hf⟩
    · obtain ⟨f, hf⟩ := h
      rw [hacquire] at hf
      cases hf
  | lease name type =>
    obtain ⟨f, hf, hlease⟩ | ⟨r, hr, hlease⟩ := c.lease_cases name type
    · rw [perform, hlease, eventsOf, hf]
      exact ⟨rfl, quiet_of_acquire_eq_error hf⟩
    · obtain ⟨f, hf⟩ := h
      rw [hlease] at hf
      cases hf
  | warmUp type n =>
    obtain ⟨f, hf⟩ := h
    exact quiet_of_warmUp_eq_error hf
  | _ => exact h.elim

/-- Whatever is done with a pool: no free list is longer than allowed. What was acquired of a type
was released or is in use, and in use is what was handed out and not taken back. What was created of
it is in use, is free, was discarded or was dropped. An operation that fails changes none of
this. -/
theorem counts_conserved (maxFree : ℕ) (make : ℕ → Bytes → Except Failure (Option ResourceBody))
    (operations : List CustodyOperation) (type : Bytes) :
    let c := (start maxFree make).after operations
    let history := (start maxFree make).events operations
    let counts := c.pool.countsOf type
    c.pool.size type ≤ maxFree ∧
      counts.acquired = counts.released + counts.inUse ∧
      counts.inUse = countOf type (outstanding history) ∧
      counts.created = counts.inUse + c.pool.size type + counts.discarded +
        (history.flatMap (dropping type)).length ∧
      ∀ operation, c.Fails operation →
        c.eventsOf operation = [] ∧
          (c.perform operation).pool.countsOf type = counts ∧
          (c.perform operation).pool.size type = c.pool.size type := by
  intro c history counts
  have hrun := (sound_after maxFree make operations).run
  have hbalanced := hrun.balanced type
  refine ⟨hrun.size_le type, hbalanced.acquired_eq, hbalanced.inUse_eq, hbalanced.created_eq, ?_⟩
  intro operation hfails
  obtain ⟨hevents, hquiet⟩ := quiet_of_fails hfails
  exact ⟨hevents, hquiet.countsOf_eq type, hquiet.size_eq⟩

end Custody

end SourceChunks
