import SourceChunks.Proofs.History
import SourceChunks.Proofs.Pool.Custody

/-!
# Leases own what they hold

Resources are leased, and leases are moved, released and dropped, while other resources are held
plainly. Each resource has one holder or is free, and what a lease holds goes back to the pool once,
when the lease that holds it then lets it go. It is reset before it is handed out again.
-/

namespace SourceChunks

namespace PoolEvent

/-- The event hands out the resource with a serial number. -/
def HandsOut (serial : ℕ) : PoolEvent → Prop
  | .handOut r _ => r.serial = serial
  | _ => False

/-- An event that hands a resource out concerns it. -/
theorem HandsOut.concerns {serial : ℕ} {e : PoolEvent} (h : HandsOut serial e) :
    e.Concerns serial := by
  cases e with
  | handOut r isNew => exact h
  | takeBack | stock | drop => exact h.elim

/-- The event takes the resource with a serial number back. -/
def takesBack (serial : ℕ) : PoolEvent → Bool
  | .takeBack r _ => r.serial = serial
  | _ => false

/-- The event resets a resource that comes back, and makes it free in this state. -/
def Renews (r : Resource) (e : PoolEvent) : Prop := ∃ r', e = .takeBack r' true ∧ r'.reset = r

end PoolEvent

namespace Pool

open PoolEvent

variable {p p' : Pool} {r : Resource} {e : PoolEvent} {history : List PoolEvent} {maxFree : ℕ}

/-! ## Reuse -/

/-- What is free after a step was free before and is not handed out in it, or is renewed, or is
new. -/
theorem Step.mem_allFree (hstep : Step history p e p') (h : Placed history p)
    (hr : r ∈ p'.allFree) :
    r ∈ p.allFree ∧ ¬ HandsOut r.serial e ∨ Renews r e ∨
      IsNew history p r ∧ ¬ HandsOut r.serial e := by
  cases hstep with
  | @reuse type r' rest hfree =>
    have hperm := allFree_reuse_perm hfree
    have hnodup := (hperm.map Resource.serial).nodup_iff.mpr (List.nodup_append.mp h.nodup).2.1
    refine .inl ⟨hperm.mem_iff.mp (List.mem_cons_of_mem r' hr), ?_⟩
    intro hout
    exact (List.nodup_cons.mp hnodup).1 (List.mem_map.mpr ⟨r, hr, Eq.symm hout⟩)
  | @create r' hnew =>
    refine .inl ⟨hr, ?_⟩
    intro hout
    refine hnew.not_mem_places h (List.mem_append_right _ ?_)
    exact List.mem_map.mpr ⟨r, hr, Eq.symm hout⟩
  | @keep r' hout hroom =>
    rcases List.mem_cons.mp ((allFree_enter_perm _ _).mem_iff.mp hr) with rfl | hr
    · exact .inr (.inl ⟨r', rfl, rfl⟩)
    · exact .inl ⟨hr, id⟩
  | discard hout => exact .inl ⟨hr, id⟩
  | @stock r' hnew hroom =>
    rcases List.mem_cons.mp ((allFree_enter_perm _ _).mem_iff.mp hr) with rfl | hr
    · exact .inr (.inr ⟨hnew, id⟩)
    · exact .inl ⟨hr, id⟩
  | @drop type htype =>
    rw [clear_of_ne_nil htype] at hr
    refine .inl ⟨(p.allFree_perm_erase type).mem_iff.mpr (List.mem_append_right _ hr), id⟩

/-- What is free and was handed out before has been reset since. -/
theorem Run.renewed (h : Run maxFree history p) (hr : r ∈ p.allFree)
    (hout : ∃ e ∈ history, HandsOut r.serial e) :
    NoneSince (HandsOut r.serial) (Renews r) history := by
  induction h generalizing r with
  | start make => exact absurd hr List.not_mem_nil
  | quiet h hquiet ih =>
    rw [allFree, hquiet.free_eq] at hr
    exact ih hr hout
  | @next history p p' e h hstep ih =>
    rw [noneSince_concat_iff]
    have hbefore (hnot : ¬ HandsOut r.serial e) : ∃ e ∈ history, HandsOut r.serial e := by
      obtain ⟨e', he', hout⟩ := hout
      rcases List.mem_append.mp he' with he' | he'
      · exact ⟨e', he', hout⟩
      · exact absurd (List.mem_singleton.mp he' ▸ hout) hnot
    obtain ⟨hr, hnot⟩ | hrenews | ⟨hnew, hnot⟩ := hstep.mem_allFree h.placed hr
    · exact .inr ⟨ih hr (hbefore hnot), hnot⟩
    · exact .inl hrenews
    · obtain ⟨e', he', hout⟩ := hbefore hnot
      exact absurd hout.concerns (hnew.not_concerns e' he')

/-- Each event of a run was a step after the events before it. -/
theorem Run.exists_step {before after : List PoolEvent} (h : Run maxFree (before ++ e :: after) p) :
    ∃ q q', Run maxFree before q ∧ Step before q e q' := by
  generalize hall : before ++ e :: after = all at h
  induction h generalizing after with
  | start make => exact absurd hall (by simp)
  | quiet h hquiet ih => exact ih hall
  | @next history q q' e' h hstep ih =>
    rcases List.eq_nil_or_concat after with rfl | ⟨after, e'', rfl⟩
    · obtain ⟨rfl, hlast⟩ := List.append_inj' hall rfl
      obtain rfl := List.singleton_inj.mp hlast
      exact ⟨q, q', h, hstep⟩
    · have hsplit : (before ++ e :: after) ++ [e''] = history ++ [e'] := by
        rw [← hall]
        simp
      exact ih (List.append_inj' hsplit rfl).1

/-- A resource that is handed out again comes out as it was when it was reset, and was not out
since. -/
theorem Run.handOut_renewed {before after : List PoolEvent} {isNew : Bool}
    (h : Run maxFree (before ++ .handOut r isNew :: after) p)
    (hout : ∃ e ∈ before, HandsOut r.serial e) :
    NoneSince (HandsOut r.serial) (Renews r) before := by
  obtain ⟨q, q', hrun, hstep⟩ := h.exists_step
  cases hstep with
  | @reuse type r rest hfree =>
    exact hrun.renewed (mem_allFree_of_mem_freeOf (hfree ▸ List.mem_cons_self)) hout
  | create hnew =>
    obtain ⟨e, he, hout⟩ := hout
    exact absurd hout.concerns (hnew.not_concerns e he)

/-! ## Returns -/

/-- How often the resource with a serial number was taken back. -/
def returns (serial : ℕ) (history : List PoolEvent) : ℕ := history.countP (takesBack serial)

/-- How often the resource with a serial number is outstanding. -/
def lent (serial : ℕ) (history : List PoolEvent) : ℕ :=
  ((outstanding history).map Prod.fst).count serial

/-- Returns are counted part by part. -/
theorem returns_append (serial : ℕ) (history history' : List PoolEvent) :
    returns serial (history ++ history') = returns serial history + returns serial history' :=
  List.countP_append

/-- Taking a resource back is one return of it. -/
theorem returns_takeBack (serial : ℕ) (r : Resource) (isKept : Bool) :
    returns serial [.takeBack r isKept] = if r.serial = serial then 1 else 0 := by
  rw [returns, List.countP_singleton]
  exact if_congr decide_eq_true_iff rfl rfl

/-- An acquisition returns nothing. -/
theorem returns_acquireEvents (serial : ℕ) (p : Pool) (type : Bytes) :
    returns serial (p.acquireEvents type) = 0 := by
  rw [acquireEvents]
  split <;> rfl

/-- A warm-up returns nothing. -/
theorem returns_warmUpEvents (serial : ℕ) (p : Pool) (type : Bytes) (n : ℕ) :
    returns serial (p.warmUpEvents type n) = 0 := by
  rw [warmUpEvents]
  split
  · rw [returns, List.countP_eq_zero]
    intro e he
    obtain ⟨r, -, rfl⟩ := List.mem_map.mp he
    exact Bool.false_ne_true
  · rfl

/-- What is not handed out is outstanding until it is taken back. -/
theorem Step.lent_add_returns (hstep : Step history p e p') {serial : ℕ}
    (hnot : ¬ HandsOut serial e) :
    lent serial (history ++ [e]) + returns serial [e] = lent serial history := by
  have hback {r : Resource} {isKept : Bool} (hout : r.identity ∈ outstanding history) :
      lent serial (history ++ [.takeBack r isKept]) + returns serial [.takeBack r isKept] =
        lent serial history := by
    have hperm := ((List.perm_cons_erase hout).map Prod.fst).count_eq serial
    rw [List.map_cons, List.count_cons] at hperm
    rw [lent, outstanding_concat, returns_takeBack, lent, hperm]
    simp only [Resource.identity, beq_iff_eq]
    rfl
  have hhand {r : Resource} {isNew : Bool} (hne : r.serial ≠ serial) :
      lent serial (history ++ [.handOut r isNew]) = lent serial history := by
    rw [lent, outstanding_concat]
    exact List.count_cons_of_ne hne
  cases hstep with
  | reuse hfree => exact hhand hnot
  | create hnew => exact hhand hnot
  | keep hout hroom => exact hback hout
  | discard hout => exact hback hout
  | stock hnew hroom =>
    rw [lent, outstanding_concat]
    rfl
  | drop htype =>
    rw [lent, outstanding_concat]
    rfl

/-- While a resource is not handed out again it is taken back as often as it is no longer
outstanding. -/
theorem Run.lent_add_returns {before rest : List PoolEvent} {serial : ℕ}
    (h : Run maxFree (before ++ rest) p) (hnot : ∀ e ∈ rest, ¬ HandsOut serial e) :
    lent serial (before ++ rest) + returns serial rest = lent serial before := by
  induction rest using List.reverseRecOn generalizing p with
  | nil => rw [List.append_nil]; rfl
  | append_singleton rest e ih =>
    rw [← List.append_assoc] at h
    obtain ⟨q, q', hrun, hstep⟩ := h.exists_step
    have hrest := ih hrun fun e' he' => hnot e' (List.mem_append_left _ he')
    have hlast := hstep.lent_add_returns (hnot e (by simp))
    rw [← List.append_assoc, returns_append]
    omega

/-- What is outstanding is so once. -/
theorem Placed.lent_eq_one (h : Placed history p) {x : ℕ × Bytes} (hx : x ∈ outstanding history) :
    lent x.1 history = 1 :=
  List.count_eq_one_of_mem (List.nodup_append.mp h.nodup).1 (List.mem_map_of_mem hx)

end Pool

namespace Custody

open Pool PoolEvent

variable {c : Custody} {name type : Bytes} {r : Resource} {history : List PoolEvent} {maxFree : ℕ}

/-! ## Owners -/

/-- Nothing that is held is held twice or free. -/
theorem Sound.nodup_serials (h : Sound maxFree history c) :
    ((c.held ++ c.pool.allFree).map Resource.serial).Nodup := by
  have hplaced := h.run.placed.nodup
  obtain ⟨held, hperm, hsublist⟩ := h.held_subperm
  have hserials : (held.map Prod.fst).Perm (c.held.map Resource.serial) := by
    have hmap := hperm.map Prod.fst
    rwa [List.map_map] at hmap
  rw [List.map_append]
  refine (hserials.append_right _).nodup_iff.mp ?_
  exact hplaced.sublist ((hsublist.map Prod.fst).append_right _)

/-- A resource under a name is held. -/
theorem mem_held_of_plain (hr : c.plain.get? name = some r) : r ∈ c.held :=
  List.mem_append_left _ (Dict.mem_values_iff.mpr ⟨name, hr⟩)

/-- The resource of a lease is held. -/
theorem mem_held_of_leased (hr : c.leased? name = some r) : r ∈ c.held := by
  have hperm := c.held_perm_erase_lease name
  rw [hr] at hperm
  exact hperm.mem_iff.mpr List.mem_cons_self

/-- What is held is lent exactly once. -/
theorem Sound.lent_eq_one (h : Sound maxFree history c) (hr : r ∈ c.held) :
    lent r.serial history = 1 :=
  h.run.placed.lent_eq_one (h.held_subperm.subset (List.mem_map_of_mem hr))

/-- A lease shares what it holds with no other lease. -/
theorem Sound.leased_inj (h : Sound maxFree history c) {name' : Bytes} {r' : Resource}
    (hr : c.leased? name = some r) (hr' : c.leased? name' = some r')
    (heq : r'.serial = r.serial) : name' = name := by
  by_contra hne
  have hperm := (c.held_perm_erase_lease name).map Resource.serial
  have hnodup := (List.nodup_append.mp (List.map_append ▸ h.nodup_serials)).1
  rw [hr] at hperm
  have hother : leased? { c with leases := c.leases.erase name } name' = some r' := by
    rw [leased?, Dict.get?_erase, if_neg hne]
    exact hr'
  have hmem := List.mem_map_of_mem (f := Resource.serial) (mem_held_of_leased hother)
  exact (List.nodup_cons.mp (hperm.nodup_iff.mp hnodup)).1 (heq ▸ hmem)

/-- What a lease holds is not held plainly. -/
theorem Sound.plain_ne_leased (h : Sound maxFree history c) {name' : Bytes} {r' : Resource}
    (hr : c.leased? name = some r) (hr' : c.plain.get? name' = some r') :
    r'.serial ≠ r.serial := by
  intro heq
  have hperm := (c.held_perm_erase_lease name).map Resource.serial
  have hnodup := (List.nodup_append.mp (List.map_append ▸ h.nodup_serials)).1
  rw [hr] at hperm
  have hmem : r' ∈ held { c with leases := c.leases.erase name } := mem_held_of_plain hr'
  have hmem := List.mem_map_of_mem (f := Resource.serial) hmem
  exact (List.nodup_cons.mp (hperm.nodup_iff.mp hnodup)).1 (heq ▸ hmem)

/-! ## What leases hold after an operation -/

/-- An assignment changes what its own lease holds and no other. -/
theorem leased?_assign (c : Custody) (name name' : Bytes) (o : Option Resource) :
    (c.assign name o).leased? name' = if name' = name then o else c.leased? name' := by
  rw [leased?, assign, Dict.get?_insert]
  split
  · rfl
  · rw [leases_giveBack]
    rfl

/-- A dropped lease holds nothing, and the others hold what they held. -/
theorem leased?_dropLease (c : Custody) (name name' : Bytes) :
    (c.dropLease name).leased? name' = if name' = name then none else c.leased? name' := by
  rw [leased?, dropLease, Dict.get?_erase]
  split
  · rfl
  · rw [leases_giveBack]
    rfl

/-- A lease that is moved hands on what it holds and is empty then. -/
theorem leased?_moveLease (c : Custody) {source target : Bytes} (hne : source ≠ target)
    (name : Bytes) :
    (c.moveLease source target).leased? name =
      if name = target then c.leased? source
      else if name = source then none else c.leased? name := by
  rw [moveLease_eq hne, leased?_assign]
  split
  · rfl
  · rw [leased?, Dict.get?_insert]
    split <;> rfl

/-- Opening a lease changes nothing that is leased. -/
theorem leased?_openLease (c : Custody) (name name' : Bytes) :
    (c.openLease name).leased? name' = c.leased? name' := by
  rw [openLease]
  split
  · rfl
  · next hnew =>
    rw [Dict.contains, Option.not_isSome_iff_eq_none] at hnew
    rw [leased?, Dict.get?_insert]
    split
    · next heq => rw [heq, leased?, hnew]; rfl
    · rfl

/-- A use leaves the same resources under all leases. -/
theorem leased?_use (c : Custody) (name name' : Bytes) (f : ResourceBody → ResourceBody) :
    ((c.use name f).leased? name').map Resource.serial =
      (c.leased? name').map Resource.serial := by
  rw [use]
  split
  · rw [leased?, Dict.modify, Dict.get?_insert]
    split
    · next heq =>
      rw [heq, Option.getD_some, ← leased?, Option.map_map]
      rfl
    · rfl
  · split <;> rfl

/-- The operation ends the ownership of what a lease holds: the lease is released or dropped, or it
takes on something else. -/
def Ends (c : Custody) (name : Bytes) : CustodyOperation → Prop
  | .releaseLease name' | .dropLease name' => name' = name
  | .lease name' type => name' = name ∧ ∃ r, (c.lease name' type).2 = .ok r
  | .moveLease source target => target = name ∧ source ≠ target
  | _ => False

/-- Some lease holds the resource with a serial number. -/
def IsLeased (c : Custody) (serial : ℕ) : Prop :=
  ∃ name r, c.leased? name = some r ∧ r.serial = serial

/-- Only the lease that holds a resource gives it back. -/
theorem returns_giveBack (h : Sound maxFree history c) (hr : c.leased? name = some r) (pool : Pool)
    (name' : Bytes) :
    returns r.serial (giveBackEvents { c with pool } name') = if name' = name then 1 else 0 := by
  rw [giveBackEvents]
  show returns r.serial ((c.leased? name').toList.map _) = _
  cases hr' : c.leased? name' with
  | none =>
    have hne : name' ≠ name := by
      rintro rfl
      cases hr'.symm.trans hr
    exact (if_neg hne).symm
  | some r' =>
    refine (returns_takeBack _ _ _).trans (if_congr ⟨h.leased_inj hr hr', ?_⟩ rfl rfl)
    rintro rfl
    rw [Option.some.inj (hr'.symm.trans hr)]

/-- What a lease holds is given back exactly by the operations that end its ownership. -/
theorem returns_eventsOf (h : Sound maxFree history c) (hr : c.leased? name = some r)
    (operation : CustodyOperation) [Decidable (c.Ends name operation)] :
    returns r.serial (c.eventsOf operation) = if c.Ends name operation then 1 else 0 := by
  have hgive := returns_giveBack h hr
  cases operation with
  | acquire name' type => exact (returns_acquireEvents _ _ _).trans (if_neg id).symm
  | release name' =>
    refine Eq.trans ?_ (if_neg id).symm
    rw [eventsOf]
    cases hr' : c.plain.get? name' with
    | none => rfl
    | some r' => exact (returns_takeBack _ _ _).trans (if_neg (h.plain_ne_leased hr hr'))
  | lease name' type =>
    obtain ⟨f, hf, hlease⟩ | ⟨r', hr', hlease⟩ := c.lease_cases name' type
    · have hnot : ¬ c.Ends name (.lease name' type) := by
        rintro ⟨-, r', hr'⟩
        rw [hlease] at hr'
        cases hr'
      rw [eventsOf, hf, if_neg hnot]
      rfl
    · simp only [eventsOf, hr', returns_append, returns_acquireEvents, hgive, Nat.zero_add]
      refine if_congr ⟨fun heq => ⟨heq, r', congrArg Prod.snd hlease⟩, And.left⟩ rfl rfl
  | releaseLease name' => exact (hgive c.pool name').trans (if_congr Iff.rfl rfl rfl)
  | dropLease name' => exact (hgive c.pool name').trans (if_congr Iff.rfl rfl rfl)
  | moveLease source target =>
    by_cases heq : source = target
    · rw [eventsOf, if_pos heq, if_neg fun hends => hends.2 heq]
      rfl
    · rw [eventsOf, if_neg heq]
      exact (hgive c.pool target).trans (if_congr ⟨fun ht => ⟨ht, heq⟩, And.left⟩ rfl rfl)
  | warmUp type n => exact (returns_warmUpEvents _ _ _ _).trans (if_neg id).symm
  | openLease | use | register | clear => exact (if_neg id).symm

/-- An operation that does not end the ownership of what a lease holds leaves it to some lease. -/
theorem isLeased_of_not_ends (hr : c.leased? name = some r) {operation : CustodyOperation}
    (hnot : ¬ c.Ends name operation) : (c.perform operation).IsLeased r.serial := by
  have hstays : c.IsLeased r.serial := ⟨name, r, hr, rfl⟩
  cases operation with
  | acquire name' type =>
    obtain ⟨f, -, hacquire⟩ | ⟨r', -, hacquire⟩ := c.acquire_cases name' type
    all_goals
      rw [perform, hacquire]
      exact hstays
  | release name' =>
    rw [perform, Custody.release]
    split <;> exact hstays
  | lease name' type =>
    obtain ⟨f, -, hlease⟩ | ⟨r', -, hlease⟩ := c.lease_cases name' type
    · rw [perform, hlease]
      exact hstays
    · have hne : name ≠ name' := fun heq => hnot ⟨heq.symm, r', congrArg Prod.snd hlease⟩
      refine ⟨name, r, ?_, rfl⟩
      rw [perform, hlease, leased?_assign, if_neg hne]
      exact hr
  | openLease name' => exact ⟨name, r, (c.leased?_openLease name' name).trans hr, rfl⟩
  | releaseLease name' =>
    refine ⟨name, r, ?_, rfl⟩
    rw [perform, releaseLease, leased?_assign, if_neg (Ne.symm hnot), hr]
  | dropLease name' =>
    refine ⟨name, r, ?_, rfl⟩
    rw [perform, leased?_dropLease, if_neg (Ne.symm hnot), hr]
  | moveLease source target =>
    by_cases heq : source = target
    · rw [perform, Custody.moveLease, if_pos heq]
      exact ⟨name, r, (c.leased?_openLease source name).trans hr, rfl⟩
    · have hne : name ≠ target := fun htarget => hnot ⟨htarget.symm, heq⟩
      by_cases hsource : name = source
      · refine ⟨target, r, ?_, rfl⟩
        rw [perform, leased?_moveLease c heq, if_pos rfl, ← hsource, hr]
      · refine ⟨name, r, ?_, rfl⟩
        rw [perform, leased?_moveLease c heq, if_neg hne, if_neg hsource, hr]
  | use name' f =>
    have hserial := c.leased?_use name' name f
    rw [hr] at hserial
    obtain ⟨r', hr', heq⟩ := Option.map_eq_some_iff.mp hserial
    exact ⟨name, r', hr', heq⟩
  | warmUp | register | clear => exact hstays

/-! ## Leases over time -/

/-- A leased resource that is not handed out anew is still leased, or it went back to the pool. -/
theorem isLeased_or_pos_returns (h : Sound maxFree history c) {serial : ℕ}
    (hleased : c.IsLeased serial) {operations : List CustodyOperation}
    (hnot : ∀ e ∈ c.events operations, ¬ HandsOut serial e) :
    (c.after operations).IsLeased serial ∨ 0 < returns serial (c.events operations) := by
  classical
  induction operations using List.reverseRecOn with
  | nil => exact .inl hleased
  | append_singleton operations operation ih =>
    rw [events_concat, after_concat, returns_append]
    rw [events_concat] at hnot
    rcases ih fun e he => hnot e (List.mem_append_left _ he) with ⟨name, r, hr, rfl⟩ | hpos
    · by_cases hends : (c.after operations).Ends name operation
      · have hone := returns_eventsOf (h.after operations) hr operation
        rw [if_pos hends] at hone
        exact .inr (by omega)
      · exact .inl (isLeased_of_not_ends hr hends)
    · exact .inr (by omega)

/-- What a lease holds is held by a lease until it has been given back, and it is given back once,
while it is not handed out again. -/
theorem isLeased_or_returned (h : Sound maxFree history c) {serial : ℕ}
    (hleased : c.IsLeased serial) {operations : List CustodyOperation}
    (hnot : ∀ e ∈ c.events operations, ¬ HandsOut serial e) :
    (c.after operations).IsLeased serial ∧ returns serial (c.events operations) = 0 ∨
      ¬ (c.after operations).IsLeased serial ∧ returns serial (c.events operations) = 1 := by
  have hsound := h.after operations
  have hsum := hsound.run.lent_add_returns hnot
  have hlent {c' : Custody} {history' : List PoolEvent} (h' : Sound maxFree history' c')
      (hleased' : c'.IsLeased serial) : lent serial history' = 1 := by
    obtain ⟨name, r, hr, rfl⟩ := hleased'
    exact h'.lent_eq_one (mem_held_of_leased hr)
  rw [hlent h hleased] at hsum
  by_cases hthere : (c.after operations).IsLeased serial
  · rw [hlent hsound hthere] at hsum
    exact .inl ⟨hthere, by omega⟩
  · refine .inr ⟨hthere, ?_⟩
    have hpos := (isLeased_or_pos_returns h hleased hnot).resolve_left hthere
    omega

/-- Whatever is done with a pool: each resource has at most one place, with a holder or in the free
list of its own type. What a lease holds goes back to the pool exactly when the lease that holds it
then is released or dropped or takes on something else, which happens once until it is handed out
again. Leases that were released or moved from are empty, and to release an empty one does nothing
to the pool. What is handed out again was reset since, and each free list is a queue. -/
theorem leases_own_exclusively (maxFree : ℕ)
    (make : ℕ → Bytes → Except Failure (Option ResourceBody))
    (operations : List CustodyOperation) :
    let c := (start maxFree make).after operations
    let history := (start maxFree make).events operations
    ((c.held ++ c.pool.allFree).map Resource.serial).Nodup ∧
      (∀ type, ∀ r ∈ c.pool.freeOf type, r.type = type) ∧
      (∀ name r, c.leased? name = some r →
        (∀ operation, c.Ends name operation →
          returns r.serial (c.eventsOf operation) = 1) ∧
        (∀ operation, ¬ c.Ends name operation →
          returns r.serial (c.eventsOf operation) = 0 ∧
            (c.perform operation).IsLeased r.serial) ∧
        ∀ rest, (∀ e ∈ c.events rest, ¬ HandsOut r.serial e) →
          (c.after rest).IsLeased r.serial ∧ returns r.serial (c.events rest) = 0 ∨
            ¬ (c.after rest).IsLeased r.serial ∧ returns r.serial (c.events rest) = 1) ∧
      (∀ name, (c.releaseLease name).leased? name = none ∧
        (c.dropLease name).leased? name = none) ∧
      (∀ source target, source ≠ target →
        (c.moveLease source target).leased? source = none ∧
          (c.moveLease source target).leased? target = c.leased? source) ∧
      (∀ name, c.leased? name = none →
        (c.releaseLease name).pool = c.pool ∧ (c.dropLease name).pool = c.pool) ∧
      (∀ before r isNew rest, history = before ++ .handOut r isNew :: rest →
        (∃ e ∈ before, HandsOut r.serial e) →
          NoneSince (HandsOut r.serial) (Renews r) before) ∧
      ∀ type, history.flatMap (entering type) =
        history.flatMap (leaving type) ++ c.pool.freeOf type := by
  intro c history
  have h : Sound maxFree history c := sound_after maxFree make operations
  refine ⟨h.nodup_serials, fun type r => h.run.type_eq, ?_, ?_, ?_, ?_, ?_, h.run.entered_eq⟩
  · intro name r hr
    classical
    refine ⟨?_, ?_, fun rest => isLeased_or_returned h ⟨name, r, hr, rfl⟩⟩
    · intro operation hends
      exact (returns_eventsOf h hr operation).trans (if_pos hends)
    · intro operation hnot
      exact ⟨(returns_eventsOf h hr operation).trans (if_neg hnot), isLeased_of_not_ends hr hnot⟩
  · intro name
    exact ⟨(c.leased?_assign _ _ _).trans (if_pos rfl),
      (c.leased?_dropLease _ _).trans (if_pos rfl)⟩
  · intro source target hne
    rw [leased?_moveLease c hne, leased?_moveLease c hne, if_neg hne, if_pos rfl, if_pos rfl]
    exact ⟨rfl, rfl⟩
  · intro name hnone
    rw [releaseLease, assign, dropLease, giveBack, hnone]
    exact ⟨rfl, rfl⟩
  · intro before r isNew rest hhistory
    exact (hhistory ▸ h.run).handOut_renewed

end Custody

end SourceChunks
