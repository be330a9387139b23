import SourceChunks.Proofs.Pool

/-!
# What the operations of a pool do to it

Each operation of a pool makes it run: an acquisition hands one resource out, a release takes one
back, and to warm a pool up stocks new resources. An operation that fails changes the pool quietly.
-/

namespace SourceChunks

namespace Pool

variable {p : Pool} {type : Bytes} {history : List PoolEvent} {maxFree : ℕ}

/-! ## New resources -/

/-- The resource with the next serial number is made, or none is. -/
theorem make_cases (p : Pool) (type : Bytes) :
    (∃ f n, p.nextSerial ≤ n ∧ p.make type = ({ p with nextSerial := n }, .error f)) ∨
      ∃ body, p.make type =
        ({ p with nextSerial := p.nextSerial + 1 }, .ok ⟨p.nextSerial, type, body⟩) := by
  simp only [make]
  split
  · exact .inl ⟨_, p.nextSerial, Nat.le_refl _, rfl⟩
  · split
    · exact .inl ⟨_, p.nextSerial + 1, Nat.le_succ _, rfl⟩
    · exact .inl ⟨_, p.nextSerial + 1, Nat.le_succ _, rfl⟩
    · exact .inr ⟨_, rfl⟩

/-- Resources with the next serial numbers are made, or none is. -/
theorem makeAll_cases (p : Pool) (type : Bytes) (k : ℕ) :
    (∃ f n, p.nextSerial ≤ n ∧ p.makeAll type k = ({ p with nextSerial := n }, .error f)) ∨
      ∃ rs : List Resource, rs.map Resource.serial = List.range' p.nextSerial k ∧
        (∀ r ∈ rs, r.type = type) ∧
        p.makeAll type k = ({ p with nextSerial := p.nextSerial + k }, .ok rs) := by
  induction k generalizing p with
  | zero => exact .inr ⟨[], rfl, nofun, rfl⟩
  | succ k ih =>
    obtain ⟨f, n, hn, hmake⟩ | ⟨body, hmake⟩ := p.make_cases type
    · exact .inl ⟨f, n, hn, by rw [makeAll, hmake]⟩
    · obtain ⟨f, n, hn, hrest⟩ | ⟨rs, hserials, htypes, hrest⟩ :=
        ih { p with nextSerial := p.nextSerial + 1 }
      · exact .inl ⟨f, n, Nat.le_of_succ_le hn, by simp only [makeAll, hmake, hrest, Except.map]⟩
      · refine .inr ⟨⟨p.nextSerial, type, body⟩ :: rs, ?_, ?_, ?_⟩
        · rw [List.map_cons, hserials, List.range'_succ]
        · intro r hr
          rcases List.mem_cons.mp hr with rfl | hr
          · rfl
          · exact htypes r hr
        · simp only [makeAll, hmake, hrest, Except.map, Nat.add_right_comm, Nat.add_assoc]

/-- Passing over serial numbers is a quiet change. -/
theorem quiet_nextSerial {n : ℕ} (hn : p.nextSerial ≤ n) : Quiet p { p with nextSerial := n } :=
  ⟨rfl, rfl, fun _ => rfl, hn⟩

/-- A resource with a serial number from the next one on is new. -/
theorem Placed.isNew (h : Placed history p) {p' : Pool} {r : Resource}
    (hlt : r.serial < p'.nextSerial) (hle : p.nextSerial ≤ r.serial) : IsNew history p' r := by
  refine ⟨hlt, ?_⟩
  intro e he hconcerns
  exact absurd (h.serial_lt e he _ hconcerns) (Nat.not_lt.mpr hle)

/-! ## Acquisition and release -/

/-- The first free resource is handed out; if none is free a new one is made, which may fail. -/
theorem acquire_cases (p : Pool) (type : Bytes) :
    (∃ r rest, p.freeOf type = r :: rest ∧
        p.acquire type =
          (count { p with free := p.free.insert type rest } type fun c =>
            { c with acquired := c.acquired + 1, inUse := c.inUse + 1 }, .ok r)) ∨
      (p.freeOf type = [] ∧ ∃ f n, p.nextSerial ≤ n ∧
        p.acquire type = ({ p with nextSerial := n }, .error f)) ∨
      (p.freeOf type = [] ∧ ∃ body,
        p.acquire type =
          (count { p with nextSerial := p.nextSerial + 1 } type fun c =>
            { c with created := c.created + 1, acquired := c.acquired + 1, inUse := c.inUse + 1 },
            .ok ⟨p.nextSerial, type, body⟩)) := by
  cases hfree : p.freeOf type with
  | cons r rest => exact .inl ⟨r, rest, rfl, by simp only [acquire, takeFree?, hfree]⟩
  | nil =>
    refine .inr ?_
    have hacquire : p.acquire type = p.create type := by simp only [acquire, takeFree?, hfree]
    rw [hacquire]
    obtain ⟨f, n, hn, hmake⟩ | ⟨body, hmake⟩ := p.make_cases type
    · exact .inl ⟨rfl, f, n, hn, by simp only [create, hmake]⟩
    · exact .inr ⟨rfl, body, by simp only [create, hmake]⟩

/-- What an acquisition does to the resources. -/
def acquireEvents (p : Pool) (type : Bytes) : List PoolEvent :=
  match (p.acquire type).2 with
  | .ok r => [.handOut r (p.freeOf type).isEmpty]
  | .error _ => []

/-- An acquisition is a part of a run, whether it succeeds or not. -/
theorem Run.acquire (h : Run maxFree history p) (type : Bytes) :
    Run maxFree (history ++ p.acquireEvents type) (p.acquire type).1 := by
  obtain ⟨r, rest, hfree, hacquire⟩ | ⟨-, f, n, hn, hacquire⟩ | ⟨hfree, body, hacquire⟩ :=
    p.acquire_cases type
  · rw [acquireEvents, hacquire, hfree]
    exact h.next (.reuse hfree)
  · rw [acquireEvents, hacquire, List.append_nil]
    exact h.quiet (quiet_nextSerial hn)
  · rw [acquireEvents, hacquire, hfree]
    refine (h.quiet (quiet_nextSerial (Nat.le_succ _))).next (.create ?_)
    exact h.placed.isNew (Nat.lt_succ_self _) (Nat.le_refl _)

/-- What an acquisition hands out is outstanding. -/
theorem outstanding_acquireEvents {r : Resource} (hr : (p.acquire type).2 = .ok r) :
    outstanding (history ++ p.acquireEvents type) = r.identity :: outstanding history := by
  rw [acquireEvents, hr]
  exact outstanding_concat

/-- An acquisition that fails does nothing to the resources. -/
theorem acquireEvents_of_eq_error {f : Failure} (hf : (p.acquire type).2 = .error f) :
    p.acquireEvents type = [] := by
  rw [acquireEvents, hf]

/-- What a release does to the resource. -/
def releaseEvent (p : Pool) (r : Resource) : PoolEvent := .takeBack r (p.hasRoom r.type)

/-- A release of what is outstanding is a part of a run. -/
theorem Run.release (h : Run maxFree history p) {r : Resource}
    (hout : r.identity ∈ outstanding history) :
    Run maxFree (history ++ [p.releaseEvent r]) (p.release r) := by
  have hroom : (p.count r.type fun c =>
      { c with released := c.released + 1, inUse := c.inUse - 1 }).hasRoom r.type =
        p.hasRoom r.type := rfl
  rw [releaseEvent, ← hroom, Pool.release]
  obtain ⟨hroom', hkeep⟩ | ⟨hroom', hkeep⟩ := keep_cases (p.count r.type fun c =>
    { c with released := c.released + 1, inUse := c.inUse - 1 }) r.reset
  · rw [hkeep, show hasRoom _ r.type = true from hroom']
    exact h.next (.keep hout hroom')
  · rw [hkeep, show hasRoom _ r.type = false from hroom']
    exact h.next (.discard hout)

/-! ## Warming up -/

/-- New resources of a type are stocked one after another while there is room. -/
theorem Run.stockAll (h : Run maxFree history p) {rs : List Resource}
    (hnew : ∀ r ∈ rs, IsNew history p r) (hnodup : (rs.map Resource.serial).Nodup)
    (htypes : ∀ r ∈ rs, r.type = type) (hroom : p.size type + rs.length ≤ p.maxFree) :
    Run maxFree (history ++ rs.map .stock) (rs.foldl stock p) := by
  induction rs generalizing history p with
  | nil => simpa using h
  | cons r rest ih =>
    obtain ⟨hr, hrest⟩ := List.forall_mem_cons.mp htypes
    obtain ⟨hout, hnodup⟩ := List.nodup_cons.mp hnodup
    subst hr
    rw [List.length_cons] at hroom
    let q := (p.count r.type fun c => { c with created := c.created + 1 }).enter r
    have hlt : p.size r.type < p.maxFree := by omega
    have hstock : p.stock r = q := if_pos (decide_eq_true hlt)
    have hstep : Step history p (.stock r) q :=
      .stock (hnew r List.mem_cons_self) (decide_eq_true hlt)
    have hsize : q.size r.type = p.size r.type + 1 := by
      rw [size, freeOf_enter, if_pos rfl]
      exact List.length_append
    have hnew' : ∀ r' ∈ rest, IsNew (history ++ [.stock r]) q r' := by
      intro r' hr'
      obtain ⟨hserial, hnot⟩ := hnew r' (List.mem_cons_of_mem r hr')
      refine ⟨hserial, ?_⟩
      intro e he
      rcases List.mem_append.mp he with he | he
      · exact hnot e he
      · rw [List.mem_singleton.mp he]
        intro heq
        exact hout (List.mem_map.mpr ⟨r', hr', Eq.symm heq⟩)
    have hroom' : q.size r.type + rest.length ≤ q.maxFree := by
      rw [hsize, hstep.maxFree_eq]
      omega
    rw [List.foldl_cons, hstock, List.map_cons, List.append_cons]
    exact ih (h.next hstep) hnew' hnodup hrest hroom'

/-- What warming up does to the resources. -/
def warmUpEvents (p : Pool) (type : Bytes) (n : ℕ) : List PoolEvent :=
  match (p.makeAll type (min n (p.maxFree - p.size type))).2 with
  | .ok rs => rs.map .stock
  | .error _ => []

/-- Counting nothing leaves all counts. -/
theorem countsOf_count_id (p : Pool) (type type' : Bytes) :
    (p.count type id).countsOf type' = p.countsOf type' := by
  rw [countsOf_count]
  split
  · next heq => rw [heq, id]
  · rfl

/-- A warm-up is a part of a run, also if a factory fails amid it. -/
theorem Run.warmUp (h : Run maxFree history p) (type : Bytes) (n : ℕ) :
    Run maxFree (history ++ p.warmUpEvents type n) (p.warmUp type n).1 := by
  have hmaxFree := h.size_le type
  rw [← h.maxFree_eq] at hmaxFree
  obtain ⟨f, n', hn', hmake⟩ | ⟨rs, hserials, htypes, hmake⟩ :=
    p.makeAll_cases type (min n (p.maxFree - p.size type))
  · rw [warmUpEvents, Pool.warmUp, hmake, List.append_nil]
    exact h.quiet (quiet_nextSerial hn')
  · rw [warmUpEvents, Pool.warmUp, hmake]
    generalize hk : min n (p.maxFree - p.size type) = k at *
    let q := count { p with nextSerial := p.nextSerial + k } type id
    have hlength : rs.length = k := by
      rw [← List.length_map Resource.serial, hserials, List.length_range']
    have hquiet : Quiet p q := ⟨rfl, rfl, countsOf_count_id _ type, Nat.le_add_right _ _⟩
    have hnew : ∀ r ∈ rs, IsNew history q r := by
      intro r hr
      have hmem : r.serial ∈ rs.map Resource.serial := List.mem_map_of_mem hr
      rw [hserials, List.mem_range'_1] at hmem
      exact h.placed.isNew hmem.2 hmem.1
    have hroom : q.size type + rs.length ≤ q.maxFree := by
      show p.size type + rs.length ≤ p.maxFree
      omega
    exact (h.quiet hquiet).stockAll hnew (hserials ▸ List.nodup_range') htypes hroom

/-- Warming up hands nothing out. -/
theorem outstanding_warmUpEvents (n : ℕ) :
    outstanding (history ++ p.warmUpEvents type n) = outstanding history := by
  have hstock (rs : List Resource) :
      outstanding (history ++ rs.map .stock) = outstanding history := by
    induction rs using List.reverseRecOn with
    | nil => rw [List.map_nil, List.append_nil]
    | append_singleton rs r ih =>
      rw [List.map_append, ← List.append_assoc]
      exact outstanding_concat.trans ih
  rw [warmUpEvents]
  split
  · exact hstock _
  · rw [List.append_nil]

/-! ## Failures -/

/-- An acquisition that fails changes no count and no free resource. -/
theorem quiet_of_acquire_eq_error {f : Failure} (hf : (p.acquire type).2 = .error f) :
    Quiet p (p.acquire type).1 := by
  obtain ⟨r, rest, -, hacquire⟩ | ⟨-, f', n, hn, hacquire⟩ | ⟨-, body, hacquire⟩ :=
    p.acquire_cases type
  · exact absurd (hacquire ▸ hf) nofun
  · rw [hacquire]
    exact quiet_nextSerial hn
  · exact absurd (hacquire ▸ hf) nofun

/-- Warming up that fails stocks nothing and changes no count. -/
theorem quiet_of_warmUp_eq_error {n : ℕ} {f : Failure} (hf : (p.warmUp type n).2 = .error f) :
    p.warmUpEvents type n = [] ∧ Quiet p (p.warmUp type n).1 := by
  obtain ⟨f', n', hn', hmake⟩ | ⟨rs, -, -, hmake⟩ :=
    p.makeAll_cases type (min n (p.maxFree - p.size type))
  · rw [warmUpEvents, warmUp, hmake]
    exact ⟨rfl, quiet_nextSerial hn'⟩
  · rw [warmUp, hmake] at hf
    exact absurd hf nofun

end Pool

end SourceChunks
