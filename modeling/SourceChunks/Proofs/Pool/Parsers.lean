import SourceChunks.Proofs.Pool.Custody

/-!
# A pool serves parsers

Whatever was done with a pool, as long as the factory of its parsers was left alone and those who
held a parser gave back a parser of the same language, the pool hands out a parser of each language
that it is asked for.
-/

namespace SourceChunks

/-- A resource of the type of the parsers of a language is such a parser. -/
def Resource.Suits (r : Resource) : Prop :=
  ∀ language : Language, r.type = ResourceFactory.parserType language.name →
    ∃ parser : Parser, r.body = .parser parser ∧ parser.language = language

/-- A parser that is reset is still one of its language. -/
theorem Resource.Suits.reset {r : Resource} (h : r.Suits) : r.reset.Suits := by
  intro language htype
  obtain ⟨parser, hbody, hlanguage⟩ := h language htype
  refine ⟨parser.reset, ?_, hlanguage⟩
  rw [Resource.reset, hbody]
  rfl

namespace ResourceFactory

/-- The types of parsers tell their languages apart. -/
theorem parserType_inj {language language' : Language}
    (h : parserType language.name = parserType language'.name) : language = language' := by
  have hname := List.append_cancel_left h
  have hsome := Language.ofName?_name language
  rw [hname, Language.ofName?_name] at hsome
  exact (Option.some.inj hsome).symm

/-- The parser of a language is made from the name of the language. -/
theorem parserOf_name (language : Language) :
    parserOf language.name = .ok (some (.parser (.new language))) := by
  rw [parserOf, Language.named, Language.ofName?_name]
  rfl

end ResourceFactory

namespace Pool

open ResourceFactory

variable {p p' : Pool} {type : Bytes} {r : Resource}

/-! ## The factory of the parsers -/

/-- Of the factories that serve a type the one with the longest text is chosen. -/
theorem foldl_longest {es : List (Bytes × ResourceFactory)} {x : Bytes × ResourceFactory}
    (hx : x ∈ es) (hlongest : ∀ e ∈ es, e = x ∨ e.1.length < x.1.length) :
    es.foldl (fun best e =>
      match best with
      | none => some e
      | some b => if b.1.length ≤ e.1.length then some e else some b) none = some x := by
  -- Once the longest one has been met it stays, and before that only shorter ones have been met.
  have hgeneral (best : Option (Bytes × ResourceFactory))
      (hbest : ∀ b ∈ best, b = x ∨ b.1.length < x.1.length) (hmeet : best = some x ∨ x ∈ es) :
      es.foldl (fun best e =>
        match best with
        | none => some e
        | some b => if b.1.length ≤ e.1.length then some e else some b) best = some x := by
    clear hx
    induction es generalizing best with
    | nil => exact hmeet.resolve_right List.not_mem_nil
    | cons e rest ih =>
      obtain ⟨he, hrest⟩ := List.forall_mem_cons.mp hlongest
      rw [List.foldl_cons]
      apply ih hrest
      · cases best with
        | none => simpa using he
        | some b =>
          have hb := hbest b rfl
          dsimp only
          split
          · simpa using he
          · simpa using hb
      · rcases hmeet with rfl | hx
        · rcases he with rfl | hlt
          · simp
          · simp [Nat.not_le.mpr hlt]
        · rcases List.mem_cons.mp hx with rfl | hx
          · cases best with
            | none => exact .inl rfl
            | some b =>
              have hle : b.1.length ≤ x.1.length := by
                rcases hbest b rfl with rfl | hlt
                · exact Nat.le_refl _
                · exact Nat.le_of_lt hlt
              exact .inl (if_pos hle)
          · exact .inr hx
  exact hgeneral none nofun (.inr hx)

/-- The parsers are made as usual, and what is free is what its type says. -/
structure ServesParsers (p : Pool) : Prop where
  /-- Parsers are made by the name of their language. -/
  factory : p.factories.get? parserPrefix = some (.parsers fun _ => parserOf)
  /-- No other factory serves only some parsers. -/
  no_other : ∀ start, parserPrefix <+: start → start ≠ parserPrefix →
    p.factories.get? start = none
  /-- A free resource has the type of its list and is what this type says. -/
  free_suits : ∀ type, ∀ r ∈ p.freeOf type, r.type = type ∧ r.Suits

/-- Parsers are made by the usual factory. -/
theorem ServesParsers.factoryFor?_eq (h : p.ServesParsers) (language : Bytes) :
    p.factoryFor? (parserType language) = some (.parsers fun _ => parserOf) := by
  rw [factoryFor?]
  refine (congrArg (Option.map Prod.snd) (foldl_longest
    (x := (parserPrefix, .parsers fun _ => parserOf)) ?_ ?_)).trans rfl
  · refine List.mem_filter.mpr ⟨Dict.get?_eq_some_iff.mp h.factory, ?_⟩
    exact List.isPrefixOf_iff_prefix.mpr (List.prefix_append _ _)
  · rintro ⟨start, factory⟩ he
    obtain ⟨hmem, hserves⟩ := List.mem_filter.mp he
    have hget := Dict.get?_eq_some_iff.mpr hmem
    have hserves : start <+: parserType language := List.isPrefixOf_iff_prefix.mp hserves
    by_cases hprefix : parserPrefix <+: start
    · by_cases heq : start = parserPrefix
      · subst heq
        exact .inl (congrArg _ (Option.some.inj (hget.symm.trans h.factory)))
      · exact absurd (hget.symm.trans (h.no_other start hprefix heq)) nofun
    · have hshort : start <+: parserPrefix :=
        (List.prefix_or_prefix_of_prefix hserves (List.prefix_append _ _)).resolve_right hprefix
      refine .inr (Nat.lt_of_le_of_ne hshort.length_le ?_)
      intro hlength
      exact hprefix (hshort.eq_of_length hlength ▸ List.prefix_rfl)

/-- A new pool serves parsers. -/
theorem servesParsers_new (maxFree : ℕ) : (new maxFree).ServesParsers := by
  have hget (start : Bytes) : (new maxFree).factories.get? start =
      if start = bytes "chunk_list" then some .chunkLists
      else if start = bytes "byte_buffer" then some .byteBuffers
      else if start = parserPrefix then some (.parsers fun _ => parserOf) else none := by
    simp only [new, withParsers, Dict.ofList, List.foldl_cons, List.foldl_nil, Dict.get?_insert,
      Dict.get?_empty]
  refine ⟨?_, ?_, fun _ => List.forall_mem_nil _⟩
  · rw [hget, if_neg (by decide), if_neg (by decide), if_pos rfl]
  · intro start hprefix hne
    have hother {text : Bytes} (htext : ¬ parserPrefix <+: text) : start ≠ text := by
      rintro rfl
      exact htext hprefix
    rw [hget, if_neg (hother (by decide)), if_neg (hother (by decide)), if_neg hne]

/-- What is changed leaves the factories and only lists what suits. -/
theorem ServesParsers.of_freeOf (h : p.ServesParsers) (hfactories : p'.factories = p.factories)
    (hfree : ∀ type, ∀ r ∈ p'.freeOf type, r.type = type ∧ r.Suits) : p'.ServesParsers :=
  ⟨hfactories ▸ h.factory, hfactories ▸ h.no_other, hfree⟩

/-! ## Handing out -/

/-- A parser of a language is made, and it has not been given a text. -/
theorem ServesParsers.make_parserType (h : p.ServesParsers) (language : Language) :
    p.make (parserType language.name) =
      ({ p with nextSerial := p.nextSerial + 1 },
        .ok ⟨p.nextSerial, parserType language.name, .parser (.new language)⟩) := by
  have hname : (parserType language.name).drop parserPrefix.length = language.name :=
    List.drop_left
  simp only [make, h.factoryFor?_eq, parsers, hname, parserOf_name]

/-- What is made is what its type says. -/
theorem ServesParsers.suits_of_make (h : p.ServesParsers) (type : Bytes) (r : Resource)
    (hr : (p.make type).2 = .ok r) : r.type = type ∧ r.Suits := by
  obtain ⟨f, n, -, hmake⟩ | ⟨body, hmake⟩ := p.make_cases type
  · exact absurd (hmake ▸ hr) nofun
  · have htype : r.type = type := by
      rw [hmake] at hr
      rw [← Except.ok.inj hr]
    refine ⟨htype, ?_⟩
    intro language hlanguage
    rw [← htype, hlanguage, h.make_parserType] at hr
    rw [← Except.ok.inj hr]
    exact ⟨.new language, rfl, rfl⟩

/-- What is handed out leaves a pool that serves parsers, and is what its type says. -/
theorem ServesParsers.takeFree (h : p.ServesParsers) (htake : p.takeFree? type = some (p', r)) :
    p'.ServesParsers ∧ r.type = type ∧ r.Suits ∧
      ∀ type', (p'.countsOf type').inUse =
        (p.countsOf type').inUse + if type' = r.type then 1 else 0 := by
  rw [takeFree?] at htake
  split at htake
  · cases htake
  · next r' rest hfree =>
    obtain ⟨rfl, rfl⟩ := Prod.mk.inj (Option.some.inj htake)
    obtain ⟨htype, hsuits⟩ := h.free_suits type r' (hfree ▸ List.mem_cons_self)
    refine ⟨h.of_freeOf rfl ?_, htype, hsuits, ?_⟩
    · intro type' r hr
      rw [freeOf_count, freeOf_insert] at hr
      split at hr
      · next heq =>
        subst heq
        exact h.free_suits type' r (hfree ▸ List.mem_cons_of_mem r' hr)
      · exact h.free_suits type' r hr
    · intro type'
      rw [countsOf_count, htype]
      split
      · next heq =>
        subst heq
        rfl
      · rfl

/-- A new parser is handed out, and leaves a pool that serves parsers. -/
theorem ServesParsers.create (h : p.ServesParsers) (language : Language) :
    ∃ p' r, p.create (parserType language.name) = (p', .ok r) ∧ p'.ServesParsers ∧
      r.type = parserType language.name ∧ r.Suits ∧
      ∀ type', (p'.countsOf type').inUse =
        (p.countsOf type').inUse + if type' = r.type then 1 else 0 := by
  have hmake := h.make_parserType language
  obtain ⟨htype, hsuits⟩ := h.suits_of_make _ _ (congrArg Prod.snd hmake)
  have hcreate : p.create (parserType language.name) =
      (count { p with nextSerial := p.nextSerial + 1 } (parserType language.name) fun c =>
        { c with created := c.created + 1, acquired := c.acquired + 1, inUse := c.inUse + 1 },
        .ok ⟨p.nextSerial, parserType language.name, .parser (.new language)⟩) := by
    simp only [Pool.create, hmake]
  refine ⟨_, _, hcreate, h.of_freeOf rfl h.free_suits, htype, hsuits, ?_⟩
  intro type'
  rw [countsOf_count]
  split
  · next heq =>
    subst heq
    rfl
  · rfl

/-- What is acquired leaves a pool that serves parsers, and is what its type says. -/
theorem ServesParsers.acquire (h : p.ServesParsers) (type : Bytes) :
    (p.acquire type).1.ServesParsers ∧
      ∀ r, (p.acquire type).2 = .ok r → r.type = type ∧ r.Suits := by
  rw [Pool.acquire]
  split
  · next p' r htake =>
    obtain ⟨hserves, htype, hsuits, -⟩ := h.takeFree htake
    refine ⟨hserves, ?_⟩
    intro r' hr'
    obtain rfl := Except.ok.inj hr'
    exact ⟨htype, hsuits⟩
  · rw [Pool.create]
    have hmake := h.suits_of_make type
    obtain ⟨f, n, -, heq⟩ | ⟨body, heq⟩ := p.make_cases type
    · rw [heq]
      refine ⟨h.of_freeOf rfl h.free_suits, ?_⟩
      intro r hr
      cases hr
    · rw [heq] at hmake ⊢
      exact ⟨h.of_freeOf rfl h.free_suits, hmake⟩

/-! ## Taking back -/

/-- A resource that is what its type says can be added to what is free. -/
theorem freeOf_enter_suits (h : ∀ type, ∀ r ∈ p.freeOf type, r.type = type ∧ r.Suits)
    (hr : r.Suits) : ∀ type, ∀ r' ∈ (p.enter r).freeOf type, r'.type = type ∧ r'.Suits := by
  intro type r' hr'
  rw [freeOf_enter] at hr'
  split at hr'
  · next heq =>
    rcases List.mem_append.mp hr' with hr' | hr'
    · exact h type r' hr'
    · rw [List.mem_singleton.mp hr']
      exact ⟨heq.symm, hr⟩
  · exact h type r' hr'

/-- A pool that serves parsers may keep what is what its type says. -/
theorem ServesParsers.keep (h : p.ServesParsers) (hr : r.Suits) : (p.keep r).ServesParsers := by
  obtain ⟨-, hkeep⟩ | ⟨-, hkeep⟩ := p.keep_cases r
  · rw [hkeep]
    exact h.of_freeOf rfl (freeOf_enter_suits h.free_suits hr)
  · rw [hkeep]
    exact h.of_freeOf rfl h.free_suits

/-- What is taken back must be what its type says. -/
theorem ServesParsers.release (h : p.ServesParsers) (hr : r.Suits) : (p.release r).ServesParsers :=
  ServesParsers.keep (h.of_freeOf rfl h.free_suits) hr.reset

/-- What is taken back is no longer in use. -/
theorem inUse_release (p : Pool) (r : Resource) (type : Bytes) :
    ((p.release r).countsOf type).inUse =
      (p.countsOf type).inUse - if type = r.type then 1 else 0 := by
  have hkeep (q : Pool) : ((q.keep r.reset).countsOf type).inUse = (q.countsOf type).inUse := by
    obtain ⟨-, hkeep⟩ | ⟨-, hkeep⟩ := q.keep_cases r.reset
    · rw [hkeep]
      rfl
    · rw [hkeep, countsOf_count]
      split
      · next heq => rw [heq]
      · rfl
  rw [release, hkeep, countsOf_count]
  split
  · next heq => rw [heq]
  · rfl

/-- The resources made for a warm-up are what their type says. -/
theorem ServesParsers.suits_of_makeAll (h : p.ServesParsers) (type : Bytes) (k : ℕ)
    (rs : List Resource) (hrs : (p.makeAll type k).2 = .ok rs) : ∀ r ∈ rs, r.Suits := by
  induction k generalizing p rs with
  | zero =>
    rw [← Except.ok.inj hrs]
    exact List.forall_mem_nil _
  | succ k ih =>
    have hmake := h.suits_of_make type
    rw [makeAll] at hrs
    obtain ⟨f, n, -, heq⟩ | ⟨body, heq⟩ := p.make_cases type
    · rw [heq] at hrs
      cases hrs
    · rw [heq] at hrs hmake
      have hnext : ServesParsers { p with nextSerial := p.nextSerial + 1 } :=
        h.of_freeOf rfl h.free_suits
      cases hrest : (makeAll { p with nextSerial := p.nextSerial + 1 } type k).2 with
      | error f =>
        simp only [hrest] at hrs
        cases hrs
      | ok rest =>
        simp only [hrest] at hrs
        rw [← Except.ok.inj hrs]
        exact List.forall_mem_cons.mpr ⟨(hmake _ rfl).2, ih hnext _ hrest⟩

/-- A pool serves parsers after a warm-up, also after one that failed. -/
theorem ServesParsers.warmUp (h : p.ServesParsers) (type : Bytes) (n : ℕ) :
    (p.warmUp type n).1.ServesParsers := by
  have hstock {q : Pool} {rs : List Resource} (hq : q.ServesParsers) (hrs : ∀ r ∈ rs, r.Suits) :
      (rs.foldl stock q).ServesParsers := by
    induction rs generalizing q with
    | nil => exact hq
    | cons r rest ih =>
      obtain ⟨hr, hrest⟩ := List.forall_mem_cons.mp hrs
      exact ih (ServesParsers.keep (hq.of_freeOf rfl hq.free_suits) hr) hrest
  have hmake := h.suits_of_makeAll type (min n (p.maxFree - p.size type))
  rw [Pool.warmUp]
  obtain ⟨f, n', -, heq⟩ | ⟨rs, -, -, heq⟩ :=
    p.makeAll_cases type (min n (p.maxFree - p.size type))
  · rw [heq]
    exact h.of_freeOf rfl h.free_suits
  · rw [heq] at hmake ⊢
    exact hstock (h.of_freeOf rfl h.free_suits) (hmake rs rfl)

/-- A factory that does not serve parsers only leaves the pool serving them. -/
theorem ServesParsers.register (h : p.ServesParsers) {start : Bytes} (factory : ResourceFactory)
    (hstart : ¬ parserPrefix <+: start) : (p.register start factory).ServesParsers := by
  refine ⟨?_, ?_, h.free_suits⟩
  · rw [Pool.register, Dict.get?_insert, if_neg]
    · exact h.factory
    · rintro rfl
      exact hstart List.prefix_rfl
  · intro start' hprefix hne
    rw [Pool.register, Dict.get?_insert, if_neg]
    · exact h.no_other start' hprefix hne
    · rintro rfl
      exact hstart hprefix

/-- A pool serves parsers after a type was cleared. -/
theorem ServesParsers.clear (h : p.ServesParsers) (type : Bytes) :
    (p.clear type).ServesParsers := by
  rw [Pool.clear]
  split
  · exact h.of_freeOf rfl nofun
  · refine h.of_freeOf rfl ?_
    intro type' r hr
    rw [freeOf_erase] at hr
    split at hr
    · exact absurd hr List.not_mem_nil
    · exact h.free_suits type' r hr

end Pool

namespace Custody

open Pool ResourceFactory

variable {c : Custody} {name type : Bytes} {r : Resource}

/-- The operation leaves parsers what they are: no factory comes in that serves parsers only, and a
parser that is used stays a parser of its language. -/
def KeepsParsers : CustodyOperation → Prop
  | .register start _ => ¬ parserPrefix <+: start
  | .use _ f => ∀ parser : Parser,
    ∃ parser' : Parser, f (.parser parser) = .parser parser' ∧ parser'.language = parser.language
  | _ => True

/-- The pool serves parsers, and whoever holds a resource holds what its type says. -/
structure HoldsParsers (c : Custody) : Prop where
  /-- The pool serves parsers. -/
  serves : c.pool.ServesParsers
  /-- What is held is what its type says. -/
  held_suits : ∀ r ∈ c.held, r.Suits

/-- What a lease gives back leaves the pool serving parsers. -/
theorem HoldsParsers.giveBack (h : c.HoldsParsers) (name : Bytes) :
    (c.giveBack name).pool.ServesParsers := by
  rw [Custody.giveBack]
  split
  · exact h.serves
  · next r hr =>
    have hmem : r ∈ c.held := by
      have hperm := c.held_perm_erase_lease name
      rw [hr] at hperm
      exact hperm.mem_iff.mpr List.mem_cons_self
    exact h.serves.release (h.held_suits r hmem)

/-- A lease may be given what is what its type says. -/
theorem HoldsParsers.assign (h : c.HoldsParsers) (name : Bytes) {o : Option Resource}
    (ho : ∀ r ∈ o, r.Suits) : (c.assign name o).HoldsParsers := by
  refine ⟨h.giveBack name, ?_⟩
  intro r hr
  rw [Custody.assign, held, leases_giveBack, plain_giveBack] at hr
  have hmem := (c.held_insert_lease_perm name o).mem_iff.mp (List.mem_append_right _ hr)
  rcases List.mem_append.mp hmem with hmem | hmem
  · exact ho r (Option.mem_toList.mp hmem)
  · exact h.held_suits r hmem

/-- An acquisition hands out what its type says. -/
theorem HoldsParsers.acquire (h : c.HoldsParsers) (name type : Bytes) :
    (c.acquire name type).1.HoldsParsers := by
  obtain ⟨hserves, hsuits⟩ := h.serves.acquire type
  obtain ⟨f, -, hacquire⟩ | ⟨r, hr, hacquire⟩ := c.acquire_cases name type
  · rw [hacquire]
    exact ⟨hserves, h.held_suits⟩
  · rw [hacquire]
    refine ⟨hserves, ?_⟩
    intro r' hr'
    have hmem := (c.held_insert_plain_perm name r).mem_iff.mp (List.mem_append_right _ hr')
    rcases List.mem_cons.mp hmem with rfl | hmem
    · exact (hsuits _ hr).2
    · exact h.held_suits r' hmem

/-- A lease gets what its type says. -/
theorem HoldsParsers.lease (h : c.HoldsParsers) (name type : Bytes) :
    (c.lease name type).1.HoldsParsers := by
  obtain ⟨hserves, hsuits⟩ := h.serves.acquire type
  obtain ⟨f, -, hlease⟩ | ⟨r, hr, hlease⟩ := c.lease_cases name type
  · rw [hlease]
    exact ⟨hserves, h.held_suits⟩
  · have hacquired : HoldsParsers { c with pool := (c.pool.acquire type).1 } :=
      ⟨hserves, h.held_suits⟩
    rw [hlease]
    refine hacquired.assign name ?_
    rintro r' ⟨⟩
    exact (hsuits r hr).2

/-- A release gives back what its type says. -/
theorem HoldsParsers.release (h : c.HoldsParsers) (name : Bytes) :
    (c.release name).HoldsParsers := by
  rw [Custody.release]
  split
  · exact h
  · next r hr =>
    have hperm := c.held_perm_erase_plain name
    rw [hr] at hperm
    refine ⟨h.serves.release (h.held_suits r (hperm.mem_iff.mpr List.mem_cons_self)), ?_⟩
    intro r' hr'
    exact h.held_suits r' (hperm.mem_iff.mpr (List.mem_cons_of_mem r hr'))

/-- A lease that is dropped gives back what its type says. -/
theorem HoldsParsers.dropLease (h : c.HoldsParsers) (name : Bytes) :
    (c.dropLease name).HoldsParsers := by
  refine ⟨h.giveBack name, ?_⟩
  intro r hr
  rw [Custody.dropLease, held, leases_giveBack, plain_giveBack] at hr
  exact h.held_suits r ((c.held_perm_erase_lease name).mem_iff.mpr (List.mem_append_right _ hr))

/-- A lease that is moved hands on what its type says. -/
theorem HoldsParsers.moveLease (h : c.HoldsParsers) (source target : Bytes) :
    (c.moveLease source target).HoldsParsers := by
  by_cases heq : source = target
  · rw [Custody.moveLease, if_pos heq]
    refine ⟨c.pool_openLease source ▸ h.serves, ?_⟩
    intro r hr
    exact h.held_suits r ((c.held_openLease_perm source).mem_iff.mp hr)
  · have hperm := c.held_insert_lease_perm source none
    have hemptied : HoldsParsers { c with leases := c.leases.insert source none } := by
      refine ⟨h.serves, ?_⟩
      intro r hr
      exact h.held_suits r (hperm.mem_iff.mp (List.mem_append_right _ hr))
    rw [moveLease_eq heq]
    refine hemptied.assign target ?_
    intro r hr
    exact h.held_suits r (hperm.mem_iff.mp (List.mem_append_left _ (Option.mem_toList.mpr hr)))

/-- A use that leaves parsers parsers of their language keeps what types say. -/
theorem HoldsParsers.use (h : c.HoldsParsers) (name : Bytes) {f : ResourceBody → ResourceBody}
    (hf : ∀ parser : Parser, ∃ parser' : Parser,
      f (.parser parser) = .parser parser' ∧ parser'.language = parser.language) :
    (c.use name f).HoldsParsers := by
  have hchange {r : Resource} (hr : r ∈ c.held) : Resource.Suits { r with body := f r.body } := by
    intro language htype
    obtain ⟨parser, hbody, rfl⟩ := h.held_suits r hr language htype
    obtain ⟨parser', hf, hlanguage⟩ := hf parser
    exact ⟨parser', by rw [hbody, hf], hlanguage⟩
  refine ⟨c.pool_use name f ▸ h.serves, ?_⟩
  intro r hr
  rw [Custody.use] at hr
  split at hr
  · have hmem := (c.held_insert_lease_perm name _).mem_iff.mp (List.mem_append_right _ hr)
    rcases List.mem_append.mp hmem with hmem | hmem
    · obtain ⟨r', hr', rfl⟩ := Option.map_eq_some_iff.mp (Option.mem_toList.mp hmem)
      refine hchange ((c.held_perm_erase_lease name).mem_iff.mpr (List.mem_append_left _ ?_))
      exact Option.mem_toList.mpr hr'
    · exact h.held_suits r hmem
  · split at hr
    · exact h.held_suits r hr
    · next r' hr' =>
      have hmem := (c.held_insert_plain_perm name _).mem_iff.mp (List.mem_append_right _ hr)
      rcases List.mem_cons.mp hmem with rfl | hmem
      · refine hchange ((c.held_perm_erase_plain name).mem_iff.mpr (List.mem_append_left _ ?_))
        exact Option.mem_toList.mpr hr'
      · exact h.held_suits r hmem

/-- Every such operation keeps what types say. -/
theorem HoldsParsers.perform (h : c.HoldsParsers) {operation : CustodyOperation}
    (hkeeps : KeepsParsers operation) : (c.perform operation).HoldsParsers := by
  cases operation with
  | acquire name type => exact h.acquire name type
  | release name => exact h.release name
  | lease name type => exact h.lease name type
  | openLease name =>
    refine ⟨c.pool_openLease name ▸ h.serves, ?_⟩
    intro r hr
    exact h.held_suits r ((c.held_openLease_perm name).mem_iff.mp hr)
  | releaseLease name => exact h.assign name nofun
  | dropLease name => exact h.dropLease name
  | moveLease source target => exact h.moveLease source target
  | use name f => exact h.use name hkeeps
  | warmUp type n => exact ⟨h.serves.warmUp type n, h.held_suits⟩
  | register start factory => exact ⟨h.serves.register factory hkeeps, h.held_suits⟩
  | clear type isOne => exact ⟨h.serves.clear type, h.held_suits⟩

/-- A new pool has been used in any way that leaves parsers what they are. It may have been cleared
while some of its resources were held. -/
inductive Used : Custody → Prop
  | new (maxFree : ℕ) : Used (ofPool (.new maxFree))
  | perform {c : Custody} (h : Used c) {operation : CustodyOperation}
      (hkeeps : KeepsParsers operation) : Used (c.perform operation)
  | clear {c : Custody} (h : Used c) (type : Bytes) : Used { c with pool := c.pool.clear type }

/-- A pool in use stays one in use. -/
theorem Used.after (h : c.Used) (operations : List CustodyOperation)
    (hkeeps : ∀ operation ∈ operations, KeepsParsers operation) : (c.after operations).Used := by
  induction operations generalizing c with
  | nil => exact h
  | cons operation rest ih =>
    refine ih (h.perform (hkeeps operation List.mem_cons_self)) ?_
    exact fun o ho => hkeeps o (List.mem_cons_of_mem _ ho)

/-- In use, all that is held is what its type says. -/
theorem Used.holdsParsers (h : c.Used) : c.HoldsParsers := by
  induction h with
  | new maxFree => exact ⟨servesParsers_new maxFree, nofun⟩
  | perform h hkeeps ih => exact ih.perform hkeeps
  | clear h type ih => exact ⟨ih.serves.clear type, ih.held_suits⟩

end Custody

end SourceChunks
