import Mathlib.Data.List.Count
import Mathlib.Data.List.Range
import SourceChunks.Pool
import SourceChunks.Proofs.Dict

/-!
# The resource pool, in use

A pool hands resources out and takes them back, stocks new ones and drops free ones. All that its
operations do to it is a run of such events, and of quiet changes that concern no resource. What is
outstanding, what became free and what was dropped can be read off the run.
-/

namespace SourceChunks

/-- What does not change of a resource. -/
def Resource.identity (r : Resource) : ℕ × Bytes := (r.serial, r.type)

/-- Something that happens to the resources of a pool. -/
inductive PoolEvent where
  /-- A resource is handed out, which is new or was free. -/
  | handOut (r : Resource) (isNew : Bool)
  /-- A resource is taken back, and is kept after a reset or discarded. -/
  | takeBack (r : Resource) (isKept : Bool)
  /-- A new resource becomes free. -/
  | stock (r : Resource)
  /-- The free resources of a type are dropped. -/
  | drop (type : Bytes) (rs : List Resource)

namespace PoolEvent

/-- The event is about the resource with a serial number, and does not drop it. -/
def Concerns (serial : ℕ) : PoolEvent → Prop
  | .handOut r _ | .takeBack r _ | .stock r => r.serial = serial
  | .drop _ _ => False

/-- The type of the resources that an event is about. -/
def type : PoolEvent → Bytes
  | .handOut r _ | .takeBack r _ | .stock r => r.type
  | .drop type _ => type

/-- What is handed out and not taken back, after an event. -/
def settle (out : List (ℕ × Bytes)) : PoolEvent → List (ℕ × Bytes)
  | .handOut r _ => r.identity :: out
  | .takeBack r _ => out.erase r.identity
  | .stock _ | .drop _ _ => out

/-- The resources of a type that become free. -/
def entering (type : Bytes) : PoolEvent → List Resource
  | .takeBack r true => if r.type = type then [r.reset] else []
  | .stock r => if r.type = type then [r] else []
  | _ => []

/-- The resources of a type that stop to be free. -/
def leaving (type : Bytes) : PoolEvent → List Resource
  | .handOut r false => if r.type = type then [r] else []
  | .drop type' rs => if type' = type then rs else []
  | _ => []

/-- The resources of a type that are dropped. -/
def dropping (type : Bytes) : PoolEvent → List Resource
  | .drop type' rs => if type' = type then rs else []
  | _ => []

variable {type : Bytes} {e : PoolEvent}

/-- No resource of another type becomes free in an event. -/
theorem entering_of_type_ne (h : type ≠ e.type) : e.entering type = [] := by
  cases e with
  | takeBack r isKept =>
    cases isKept with
    | false => rfl
    | true => exact if_neg (Ne.symm h)
  | stock r => exact if_neg (Ne.symm h)
  | handOut r isNew | drop type' rs => rfl

/-- No resource of another type stops to be free in an event. -/
theorem leaving_of_type_ne (h : type ≠ e.type) : e.leaving type = [] := by
  cases e with
  | handOut r isNew =>
    cases isNew with
    | false => exact if_neg (Ne.symm h)
    | true => rfl
  | drop type' rs => exact if_neg (Ne.symm h)
  | takeBack r isKept | stock r => rfl

/-- No resource of another type is dropped in an event. -/
theorem dropping_of_type_ne (h : type ≠ e.type) : e.dropping type = [] := by
  cases e with
  | drop type' rs => exact if_neg (Ne.symm h)
  | handOut r isNew | takeBack r isKept | stock r => rfl

end PoolEvent

namespace Pool

open PoolEvent

variable {p p' : Pool} {type type' : Bytes} {r : Resource} {e : PoolEvent}
  {history : List PoolEvent} {maxFree : ℕ}

/-- The identities of the resources that were handed out and not taken back. -/
def outstanding (history : List PoolEvent) : List (ℕ × Bytes) := history.foldl settle []

/-- The free resources of all types. -/
def allFree (p : Pool) : List Resource := p.free.values.flatten

/-! ## Parts of a pool -/

/-- Counting does not move a free resource. -/
theorem freeOf_count (f : PoolCounts → PoolCounts) :
    (p.count type f).freeOf type' = p.freeOf type' := rfl

/-- Only the type that is counted has other counts. -/
theorem countsOf_count (f : PoolCounts → PoolCounts) :
    (p.count type f).countsOf type' =
      if type' = type then f (p.countsOf type) else p.countsOf type' := by
  simp only [count, countsOf, Dict.modify, Dict.get?_insert]
  split <;> rfl

/-- A list set for one type is what is free of it, and the other types are as before. -/
theorem freeOf_insert (rs : List Resource) :
    freeOf { p with free := p.free.insert type rs } type' =
      if type' = type then rs else p.freeOf type' := by
  simp only [freeOf, Dict.get?_insert]
  split <;> rfl

/-- After the list of a type is erased nothing is free of it, and the other types are as before. -/
theorem freeOf_erase :
    freeOf { p with free := p.free.erase type } type' =
      if type' = type then [] else p.freeOf type' := by
  simp only [freeOf, Dict.get?_erase]
  split <;> rfl

/-- Clearing a type drops its list of free resources. -/
theorem clear_of_ne_nil (htype : type ≠ []) : p.clear type = { p with free := p.free.erase type } :=
  if_neg (by simpa using htype)

/-- A type without a list has no free resource. -/
theorem flatten_toList_get? (p : Pool) (type : Bytes) :
    (p.free.get? type).toList.flatten = p.freeOf type := by
  rw [freeOf]
  cases p.free.get? type with
  | none => rfl
  | some rs => exact List.append_nil rs

/-- The free resources of one type are replaced. -/
theorem allFree_insert_perm (p : Pool) (type : Bytes) (rs : List Resource) :
    (p.freeOf type ++ allFree { p with free := p.free.insert type rs }).Perm (rs ++ p.allFree) := by
  have hperm := (p.free.values_insert_perm type rs).flatten
  rwa [List.flatten_append, flatten_toList_get?, List.flatten_cons] at hperm

/-- The free resources of one type are dropped. -/
theorem allFree_perm_erase (p : Pool) (type : Bytes) :
    p.allFree.Perm (p.freeOf type ++ allFree { p with free := p.free.erase type }) := by
  have hperm := (p.free.values_perm_erase type).flatten
  rwa [List.flatten_append, flatten_toList_get?] at hperm

/-- The first free resource of a type stops to be free. -/
theorem allFree_reuse_perm {rest : List Resource} (hfree : p.freeOf type = r :: rest) :
    (r :: allFree { p with free := p.free.insert type rest }).Perm p.allFree := by
  have hperm := p.allFree_insert_perm type rest
  rw [hfree, List.cons_append] at hperm
  exact (List.perm_append_left_iff rest).mp (List.perm_middle.trans hperm)

/-- What is free of a type is free. -/
theorem mem_allFree_of_mem_freeOf (h : r ∈ p.freeOf type) : r ∈ p.allFree :=
  (p.allFree_perm_erase type).mem_iff.mpr (List.mem_append_left _ h)

/-- A pool with one more free resource. -/
def enter (p : Pool) (r : Resource) : Pool :=
  { p with free := p.free.insert r.type (p.freeOf r.type ++ [r]) }

/-- A resource that enters is the last one free of its type. -/
theorem freeOf_enter :
    (p.enter r).freeOf type = if type = r.type then p.freeOf type ++ [r] else p.freeOf type := by
  rw [enter, freeOf_insert]
  split
  · next heq => rw [heq]
  · rfl

/-- A resource that enters is free with the others. -/
theorem allFree_enter_perm (p : Pool) (r : Resource) :
    (p.enter r).allFree.Perm (r :: p.allFree) := by
  have hperm := p.allFree_insert_perm r.type (p.freeOf r.type ++ [r])
  rwa [List.append_assoc, List.perm_append_left_iff] at hperm

/-- A resource is kept if there is room, and is discarded otherwise. -/
theorem keep_cases (p : Pool) (r : Resource) :
    p.hasRoom r.type = true ∧ p.keep r = p.enter r ∨
      p.hasRoom r.type = false ∧
        p.keep r = p.count r.type fun c => { c with discarded := c.discarded + 1 } := by
  rw [keep]
  split
  · next hroom => exact .inl ⟨hroom, rfl⟩
  · next hroom => exact .inr ⟨eq_false_of_ne_true hroom, rfl⟩

/-! ## Steps -/

/-- The pool has given the resource its serial number, and nothing has happened to it yet. -/
structure IsNew (history : List PoolEvent) (p : Pool) (r : Resource) : Prop where
  /-- Its serial number is not used again. -/
  serial_lt : r.serial < p.nextSerial
  /-- No event was about it. -/
  not_concerns : ∀ e ∈ history, ¬ e.Concerns r.serial

/-- A change of a pool that concerns no resource: a factory is registered, or does not make what it
was asked for. -/
structure Quiet (p p' : Pool) : Prop where
  /-- As many free resources are kept as before. -/
  maxFree_eq : p'.maxFree = p.maxFree
  /-- The free resources are as before. -/
  free_eq : p'.free = p.free
  /-- The counts are as before. -/
  countsOf_eq : ∀ type, p'.countsOf type = p.countsOf type
  /-- No serial number is used again. -/
  nextSerial_le : p.nextSerial ≤ p'.nextSerial

/-- What an event makes of a pool. Only what is outstanding is taken back. -/
inductive Step (history : List PoolEvent) (p : Pool) : PoolEvent → Pool → Prop
  | reuse {type : Bytes} {r : Resource} {rest : List Resource}
      (hfree : p.freeOf type = r :: rest) :
      Step history p (.handOut r false)
        (count { p with free := p.free.insert type rest } type fun c =>
          { c with acquired := c.acquired + 1, inUse := c.inUse + 1 })
  | create {r : Resource} (hnew : IsNew history p r) :
      Step history p (.handOut r true)
        (p.count r.type fun c =>
          { c with created := c.created + 1, acquired := c.acquired + 1, inUse := c.inUse + 1 })
  | keep {r : Resource} (hout : r.identity ∈ outstanding history) (hroom : p.hasRoom r.type) :
      Step history p (.takeBack r true)
        ((p.count r.type fun c =>
          { c with released := c.released + 1, inUse := c.inUse - 1 }).enter r.reset)
  | discard {r : Resource} (hout : r.identity ∈ outstanding history) :
      Step history p (.takeBack r false)
        ((p.count r.type fun c =>
          { c with released := c.released + 1, inUse := c.inUse - 1 }).count r.type fun c =>
            { c with discarded := c.discarded + 1 })
  | stock {r : Resource} (hnew : IsNew history p r) (hroom : p.hasRoom r.type) :
      Step history p (.stock r)
        ((p.count r.type fun c => { c with created := c.created + 1 }).enter r)
  | drop {type : Bytes} (htype : type ≠ []) :
      Step history p (.drop type (p.freeOf type)) (p.clear type)

/-- A pool with its own way to make parsers is used for some time. -/
inductive Run (maxFree : ℕ) : List PoolEvent → Pool → Prop
  | start (make : ℕ → Bytes → Except Failure (Option ResourceBody)) :
      Run maxFree [] (withParsers maxFree make)
  | quiet {history : List PoolEvent} {p p' : Pool} (h : Run maxFree history p)
      (hquiet : Quiet p p') : Run maxFree history p'
  | next {history : List PoolEvent} {p p' : Pool} {e : PoolEvent} (h : Run maxFree history p)
      (hstep : Step history p e p') : Run maxFree (history ++ [e]) p'

/-- The last event settles what was outstanding before it. -/
theorem outstanding_concat : outstanding (history ++ [e]) = settle (outstanding history) e :=
  List.foldl_append

/-- No event changes how many free resources are kept. -/
theorem Step.maxFree_eq (hstep : Step history p e p') : p'.maxFree = p.maxFree := by
  cases hstep with
  | reuse | create | keep | discard | stock => rfl
  | drop htype => rw [clear_of_ne_nil htype]

/-- As many free resources are kept as the pool was made for. -/
theorem Run.maxFree_eq (h : Run maxFree history p) : p.maxFree = maxFree := by
  induction h with
  | start make => rfl
  | quiet h hquiet ih => exact hquiet.maxFree_eq.trans ih
  | next h hstep ih => exact hstep.maxFree_eq.trans ih

/-- The events themselves use up no serial number. -/
theorem Step.nextSerial_eq (hstep : Step history p e p') : p'.nextSerial = p.nextSerial := by
  cases hstep with
  | reuse | create | keep | discard | stock => rfl
  | drop htype => rw [clear_of_ne_nil htype]

/-- Only what is outstanding is taken back. -/
theorem Step.mem_outstanding {isKept : Bool} (hstep : Step history p e p')
    (he : e = .takeBack r isKept) : r.identity ∈ outstanding history := by
  subst he
  cases hstep with
  | keep hout hroom => exact hout
  | discard hout => exact hout

/-! ## The free lists -/

/-- A quiet change leaves what is free. -/
theorem Quiet.freeOf_eq (h : Quiet p p') : p'.freeOf type = p.freeOf type := by
  rw [freeOf, h.free_eq, freeOf]

/-- A free list has only resources of its type. -/
theorem Step.type_eq (hstep : Step history p e p')
    (h : ∀ type, ∀ r ∈ p.freeOf type, r.type = type) (hr : r ∈ p'.freeOf type) :
    r.type = type := by
  have henter {q : Pool} {r' : Resource} (hq : ∀ r ∈ q.freeOf type, r.type = type)
      (hr : r ∈ (q.enter r').freeOf type) : r.type = type := by
    rw [freeOf_enter] at hr
    split at hr
    · next heq =>
      rcases List.mem_append.mp hr with hr | hr
      · exact hq r hr
      · rw [List.mem_singleton.mp hr, heq]
    · exact hq r hr
  cases hstep with
  | @reuse type' r' rest hfree =>
    rw [freeOf_count, freeOf_insert] at hr
    split at hr
    · next heq =>
      subst heq
      exact h type r (hfree ▸ List.mem_cons_of_mem r' hr)
    · exact h type r hr
  | create | discard => exact h type r hr
  | keep | stock => exact henter (h type) hr
  | drop htype =>
    rw [clear_of_ne_nil htype, freeOf_erase] at hr
    split at hr
    · exact absurd hr List.not_mem_nil
    · exact h type r hr

/-- The free resources of a type are of this type. -/
theorem Run.type_eq (h : Run maxFree history p) (hr : r ∈ p.freeOf type) : r.type = type := by
  induction h generalizing type r with
  | start make => exact absurd hr List.not_mem_nil
  | quiet h hquiet ih => exact ih (hquiet.freeOf_eq ▸ hr)
  | next h hstep ih => exact hstep.type_eq (fun type r => ih) hr

/-- What was free or becomes free stops to be free, in the same order, or is free afterwards. -/
theorem Step.freeOf_append (hstep : Step history p e p')
    (h : ∀ type, ∀ r ∈ p.freeOf type, r.type = type) (type : Bytes) :
    p.freeOf type ++ e.entering type = e.leaving type ++ p'.freeOf type := by
  have henter {q : Pool} {r : Resource} :
      (q.enter r).freeOf type = q.freeOf type ++ if r.type = type then [r] else [] := by
    rw [freeOf_enter]
    by_cases heq : type = r.type
    · rw [if_pos heq, if_pos heq.symm]
    · rw [if_neg heq, if_neg (Ne.symm heq), List.append_nil]
  cases hstep with
  | @reuse type' r rest hfree =>
    have hr : r.type = type' := h type' r (hfree ▸ List.mem_cons_self)
    simp only [freeOf_count, freeOf_insert, entering, leaving, hr, List.append_nil]
    by_cases heq : type = type'
    · subst heq
      rw [if_pos rfl, if_pos rfl, hfree]
      rfl
    · rw [if_neg heq, if_neg (Ne.symm heq)]
      rfl
  | create | discard => exact List.append_nil _
  | keep | stock =>
    rw [henter]
    rfl
  | @drop type' htype =>
    simp only [clear_of_ne_nil htype, freeOf_erase, entering, leaving, List.append_nil]
    by_cases heq : type = type'
    · subst heq
      rw [if_pos rfl, if_pos rfl, List.append_nil]
    · rw [if_neg heq, if_neg (Ne.symm heq)]
      rfl

/-- Each free list is a queue: what has become free has stopped to be free, in the same order, or
is still free. -/
theorem Run.entered_eq (h : Run maxFree history p) (type : Bytes) :
    history.flatMap (entering type) = history.flatMap (leaving type) ++ p.freeOf type := by
  induction h with
  | start make => rfl
  | quiet h hquiet ih => rw [hquiet.freeOf_eq, ih]
  | next h hstep ih =>
    rw [List.flatMap_append, List.flatMap_append, ih, List.append_assoc, List.append_assoc]
    simpa using hstep.freeOf_append (fun type r => h.type_eq) type

/-- No free list becomes longer than allowed. -/
theorem Step.size_le (hstep : Step history p e p') (h : ∀ type, p.size type ≤ p.maxFree)
    (type : Bytes) : p'.size type ≤ p.maxFree := by
  have henter {q : Pool} {r : Resource} (hq : ∀ type, q.freeOf type = p.freeOf type)
      (hroom : p.hasRoom r.type) : (q.enter r).size type ≤ p.maxFree := by
    have hlt : p.size r.type < p.maxFree := of_decide_eq_true hroom
    rw [size, freeOf_enter, hq]
    split
    · next heq =>
      rw [List.length_append, heq]
      exact hlt
    · exact h type
  cases hstep with
  | @reuse type' r rest hfree =>
    have hle := h type'
    rw [size, hfree, List.length_cons] at hle
    rw [size, freeOf_count, freeOf_insert]
    split
    · exact Nat.le_of_succ_le hle
    · exact h type
  | create | discard => exact h type
  | keep hout hroom => exact henter (fun type => rfl) hroom
  | stock hnew hroom => exact henter (fun type => rfl) hroom
  | drop htype =>
    rw [clear_of_ne_nil htype, size, freeOf_erase]
    split
    · exact Nat.zero_le _
    · exact h type

/-- No more resources of a type are free than are kept. -/
theorem Run.size_le (h : Run maxFree history p) (type : Bytes) : p.size type ≤ maxFree := by
  induction h generalizing type with
  | start make => exact Nat.zero_le _
  | quiet h hquiet ih => simpa [size, hquiet.freeOf_eq] using ih type
  | next h hstep ih =>
    rw [← h.maxFree_eq]
    exact hstep.size_le (fun type => h.maxFree_eq ▸ ih type) type

/-! ## Places -/

/-- The serial numbers of what is outstanding or free, one for each place. -/
def places (history : List PoolEvent) (p : Pool) : List ℕ :=
  (outstanding history).map Prod.fst ++ p.allFree.map Resource.serial

/-- Of the places only some become empty in a step, or a resource takes one that is new. -/
theorem Step.places_perm (hstep : Step history p e p') :
    (∃ gone, (gone ++ places (history ++ [e]) p').Perm (places history p)) ∨
      ∃ r, IsNew history p r ∧ e.Concerns r.serial ∧
        (places (history ++ [e]) p').Perm (r.serial :: places history p) := by
  have hback {r : Resource} (hout : r.identity ∈ outstanding history) :
      (r.serial :: ((outstanding history).erase r.identity).map Prod.fst).Perm
        ((outstanding history).map Prod.fst) :=
    (List.perm_cons_erase hout).symm.map Prod.fst
  simp only [places, outstanding_concat]
  cases hstep with
  | @reuse type r rest hfree =>
    have hperm := (allFree_reuse_perm hfree).map Resource.serial
    exact .inl ⟨[], List.perm_middle.symm.trans (hperm.append_left _)⟩
  | @create r hnew => exact .inr ⟨r, hnew, rfl, .refl _⟩
  | @keep r hout hroom =>
    have hperm := (allFree_enter_perm (p.count r.type fun c =>
      { c with released := c.released + 1, inUse := c.inUse - 1 }) r.reset).map Resource.serial
    refine .inl ⟨[], (hperm.append_left _).trans ?_⟩
    exact List.perm_middle.trans ((hback hout).append_right _)
  | @discard r hout => exact .inl ⟨[r.serial], (hback hout).append_right _⟩
  | @stock r hnew hroom =>
    have hperm := (allFree_enter_perm (p.count r.type fun c =>
      { c with created := c.created + 1 }) r).map Resource.serial
    exact .inr ⟨r, hnew, rfl, (hperm.append_left _).trans List.perm_middle⟩
  | @drop type htype =>
    have hperm := ((p.allFree_perm_erase type).map Resource.serial).symm
    rw [List.map_append] at hperm
    rw [clear_of_ne_nil htype]
    exact .inl ⟨_, (List.perm_append_comm_assoc _ _ _).trans (hperm.append_left _)⟩

/-- An event that is not about something new is about something outstanding or free. -/
theorem Step.mem_places_or_isNew (hstep : Step history p e p') {serial : ℕ}
    (he : e.Concerns serial) :
    serial ∈ places history p ∨ ∃ r, IsNew history p r ∧ r.serial = serial := by
  have hout {r : Resource} (hr : r.identity ∈ outstanding history) :
      r.serial ∈ places history p := List.mem_append_left _ (List.mem_map_of_mem hr)
  cases hstep with
  | @reuse type r rest hfree =>
    have hr : r ∈ p.freeOf type := hfree ▸ List.mem_cons_self
    refine .inl (List.mem_append_right _ ?_)
    exact List.mem_map.mpr ⟨r, mem_allFree_of_mem_freeOf hr, he⟩
  | create hnew => exact .inr ⟨_, hnew, he⟩
  | keep hr hroom => exact .inl (he ▸ hout hr)
  | discard hr => exact .inl (he ▸ hout hr)
  | stock hnew hroom => exact .inr ⟨_, hnew, he⟩
  | drop htype => exact he.elim

/-- Each resource has at most one place, and a serial number that is not used again. -/
structure Placed (history : List PoolEvent) (p : Pool) : Prop where
  /-- No resource has two places. -/
  nodup : (places history p).Nodup
  /-- Something has happened to what has a place. -/
  exists_concerns : ∀ serial ∈ places history p, ∃ e ∈ history, e.Concerns serial
  /-- The serial numbers of the past are not used again. -/
  serial_lt : ∀ e ∈ history, ∀ serial, e.Concerns serial → serial < p.nextSerial

/-- A new resource has no place yet. -/
theorem IsNew.not_mem_places (hnew : IsNew history p r) (h : Placed history p) :
    r.serial ∉ places history p := by
  intro hr
  obtain ⟨e, he, hconcerns⟩ := h.exists_concerns _ hr
  exact hnew.not_concerns e he hconcerns

/-- An event keeps every resource in one place at most. -/
theorem Step.placed (hstep : Step history p e p') (h : Placed history p) :
    Placed (history ++ [e]) p' := by
  have hlt : ∀ e' ∈ history ++ [e], ∀ serial, e'.Concerns serial → serial < p'.nextSerial := by
    intro e' he' serial hconcerns
    rw [hstep.nextSerial_eq]
    rcases List.mem_append.mp he' with he' | he'
    · exact h.serial_lt e' he' serial hconcerns
    · rw [List.mem_singleton.mp he'] at hconcerns
      rcases hstep.mem_places_or_isNew hconcerns with hold | ⟨r, hnew, rfl⟩
      · obtain ⟨e'', he'', hconcerns⟩ := h.exists_concerns serial hold
        exact h.serial_lt e'' he'' serial hconcerns
      · exact hnew.serial_lt
  have hold {serial : ℕ} (hserial : serial ∈ places history p) :
      ∃ e' ∈ history ++ [e], e'.Concerns serial := by
    obtain ⟨e', he', hconcerns⟩ := h.exists_concerns serial hserial
    exact ⟨e', List.mem_append_left _ he', hconcerns⟩
  obtain ⟨gone, hperm⟩ | ⟨r, hnew, hconcerns, hperm⟩ := hstep.places_perm
  · refine ⟨(List.nodup_append.mp (hperm.nodup_iff.mpr h.nodup)).2.1, ?_, hlt⟩
    intro serial hserial
    exact hold (hperm.mem_iff.mp (List.mem_append_right _ hserial))
  · refine ⟨hperm.nodup_iff.mpr (List.nodup_cons.mpr ⟨hnew.not_mem_places h, h.nodup⟩), ?_, hlt⟩
    intro serial hserial
    rcases List.mem_cons.mp (hperm.mem_iff.mp hserial) with rfl | hserial
    · exact ⟨e, List.mem_append_right _ List.mem_cons_self, hconcerns⟩
    · exact hold hserial

/-- In every pool each resource has one place at most. -/
theorem Run.placed (h : Run maxFree history p) : Placed history p := by
  induction h with
  | start make => exact ⟨List.nodup_nil, nofun, nofun⟩
  | @quiet history p p' h hquiet ih =>
    have hplaces : places history p' = places history p := by
      rw [places, allFree, hquiet.free_eq, places, allFree]
    refine ⟨hplaces ▸ ih.nodup, hplaces ▸ ih.exists_concerns, ?_⟩
    intro e he serial hconcerns
    exact Nat.lt_of_lt_of_le (ih.serial_lt e he serial hconcerns) hquiet.nextSerial_le
  | next h hstep ih => exact hstep.placed ih

end Pool

end SourceChunks
