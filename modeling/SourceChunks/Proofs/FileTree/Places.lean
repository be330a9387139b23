import SourceChunks.FileTree.Access

/-!
# Changes at one place

A change at a place in a directory is seen at that place and at no other name of the directory. If
neither what was there nor what comes there is a directory, then the directories of the tree stay
where they are, and every path leads where it led before.
-/

namespace SourceChunks.FileTree

/-- There is a directory at a place. -/
def HasDirectory (t : FileTree) (p : Place) : Prop := ∃ es, t.get? p = some (.directory es)

/-- Two trees that have directories at the same places. -/
def SameDirectories (t t' : FileTree) : Prop := ∀ p, t.HasDirectory p ↔ t'.HasDirectory p

/-- A tree has its directories where it has them. -/
theorem SameDirectories.refl (t : FileTree) : SameDirectories t t := fun _ => Iff.rfl

/-- Having the same directories does not depend on the order of the trees. -/
theorem SameDirectories.symm {t t' : FileTree} (h : SameDirectories t t') : SameDirectories t' t :=
  fun p => (h p).symm

/-- Trees with the directories of a third one have the same directories. -/
theorem SameDirectories.trans {t t' t'' : FileTree} (h : SameDirectories t t')
    (h' : SameDirectories t' t'') : SameDirectories t t'' := fun p => (h p).trans (h' p)

/-- The directories of one tree are directories of another one. -/
def DirectoriesWithin (t t' : FileTree) : Prop := ∀ p, t.HasDirectory p → t'.HasDirectory p

/-- Trees with the same directories have each other's. -/
theorem SameDirectories.within {t t' : FileTree} (h : SameDirectories t t') :
    DirectoriesWithin t t' := fun p => (h p).mp

/-- What is below a directory is below one of its entries. -/
theorem get?_directory_cons (es : Entries FileTree) (name : Bytes) (rest : Place) :
    (directory es).get? (name :: rest) =
      (Entries.get? name es).bind fun found => found.get? rest := by
  rw [get?]
  cases Entries.get? name es <;> rfl

variable {f : Option FileTree → Option FileTree}

/-- A change below a name is a change of what is under the name. -/
theorem alter_directory_cons (es : Entries FileTree) (name : Bytes) {rest : Place}
    (hrest : rest ≠ []) : alter f (directory es) (name :: rest) =
      match Entries.get? name es with
      | some t => .directory (Entries.insert name (alter f t rest) es)
      | none => .directory es := by
  cases rest with
  | nil => exact absurd rfl hrest
  | cons name' rest => exact alter.eq_4 f es name (name' :: rest) nofun

/-- A change is seen at its place. -/
theorem get?_alter {t : FileTree} {place : Place} {es : Entries FileTree}
    (h : t.get? place = some (.directory es)) (name : Bytes) :
    (t.alter f (place ++ [name])).get? (place ++ [name]) = f (Entries.get? name es) := by
  induction place generalizing t with
  | nil =>
    obtain rfl := Option.some.inj h
    rw [List.nil_append, alter]
    cases f (Entries.get? name es) with
    | some new => rw [get?_directory_cons, Entries.get?_insert, if_pos rfl]; rfl
    | none => rw [get?_directory_cons, Entries.get?_erase, if_pos rfl]; rfl
  | cons first rest ih =>
    cases t with
    | file c => exact absurd h nofun
    | directory es' =>
      rw [get?_directory_cons] at h
      obtain ⟨sub, hsub, hrest⟩ := Option.bind_eq_some_iff.mp h
      rw [List.cons_append, alter_directory_cons es' first (by simp), hsub]
      rw [get?_directory_cons, Entries.get?_insert, if_pos rfl]
      exact ih hrest

/-- A change is not seen under another name of the same directory. -/
theorem get?_alter_of_ne {name name' : Bytes} (hne : name' ≠ name) (t : FileTree) (place : Place) :
    (t.alter f (place ++ [name])).get? (place ++ [name']) = t.get? (place ++ [name']) := by
  induction place generalizing t with
  | nil =>
    cases t with
    | file c => rfl
    | directory es =>
      rw [List.nil_append, List.nil_append, alter, get?_directory_cons es]
      cases f (Entries.get? name es) with
      | some new => rw [get?_directory_cons, Entries.get?_insert, if_neg hne]
      | none => rw [get?_directory_cons, Entries.get?_erase, if_neg hne]
  | cons first rest ih =>
    cases t with
    | file c => rfl
    | directory es =>
      rw [List.cons_append, List.cons_append, alter_directory_cons es first (by simp)]
      cases hsub : Entries.get? first es with
      | none => rfl
      | some sub =>
        rw [get?_directory_cons, get?_directory_cons, Entries.get?_insert, if_pos rfl, hsub]
        exact ih sub

/-- There is no directory at a file or below it. -/
theorem not_hasDirectory_file (c : Bytes) (p : Place) : ¬ (file c).HasDirectory p := by
  rintro ⟨es, hes⟩
  cases p <;> exact absurd hes nofun

/-- A directory has a directory at its own place. -/
theorem hasDirectory_nil (es : Entries FileTree) : (directory es).HasDirectory [] := ⟨es, rfl⟩

/-- A directory below a name is one of what is under the name. -/
theorem hasDirectory_cons_iff {es : Entries FileTree} {name : Bytes} {rest : Place} :
    (directory es).HasDirectory (name :: rest) ↔
      ∃ sub, Entries.get? name es = some sub ∧ sub.HasDirectory rest := by
  unfold HasDirectory
  rw [get?_directory_cons]
  constructor
  · rintro ⟨es', h⟩
    obtain ⟨sub, hsub, hrest⟩ := Option.bind_eq_some_iff.mp h
    exact ⟨sub, hsub, es', hrest⟩
  · rintro ⟨sub, hsub, es', hrest⟩
    exact ⟨es', Option.bind_eq_some_iff.mpr ⟨sub, hsub, hrest⟩⟩

/-- There are no directories below what is none itself. -/
theorem not_hasDirectory_of_nil {t : FileTree} (h : ¬ t.HasDirectory []) (p : Place) :
    ¬ t.HasDirectory p := by
  cases t with
  | file c => exact not_hasDirectory_file c p
  | directory es => exact absurd (hasDirectory_nil es) h

/-- What is put under a name moves no directory if it has directories where there were directories
below the name. -/
theorem sameDirectories_insert {es : Entries FileTree} {name : Bytes} {new : FileTree}
    (h : ∀ rest, (directory es).HasDirectory (name :: rest) ↔ new.HasDirectory rest) :
    SameDirectories (directory es) (directory (Entries.insert name new es)) := by
  intro p
  cases p with
  | nil => exact iff_of_true (hasDirectory_nil es) (hasDirectory_nil _)
  | cons q rest =>
    by_cases hq : q = name
    · rw [hq, h, hasDirectory_cons_iff, Entries.get?_insert, if_pos rfl]
      simp
    · rw [hasDirectory_cons_iff, hasDirectory_cons_iff, Entries.get?_insert, if_neg hq]

/-- Taking away what is under a name moves no directory if there were none below the name. -/
theorem sameDirectories_erase {es : Entries FileTree} {name : Bytes}
    (h : ∀ rest, ¬ (directory es).HasDirectory (name :: rest)) :
    SameDirectories (directory es) (directory (Entries.erase name es)) := by
  intro p
  cases p with
  | nil => exact iff_of_true (hasDirectory_nil es) (hasDirectory_nil _)
  | cons q rest =>
    by_cases hq : q = name
    · subst hq
      refine iff_of_false (h rest) ?_
      rw [hasDirectory_cons_iff, Entries.get?_erase, if_pos rfl]
      simp
    · rw [hasDirectory_cons_iff, hasDirectory_cons_iff, Entries.get?_erase, if_neg hq]

/-- A change that neither finds nor leaves a directory moves no directory. -/
theorem sameDirectories_alter {place : Place} (hne : place ≠ [])
    (hf : ∀ found es, f found ≠ some (.directory es)) {t : FileTree}
    (ht : ¬ t.HasDirectory place) : SameDirectories t (t.alter f place) := by
  induction place generalizing t with
  | nil => exact absurd rfl hne
  | cons name rest ih =>
    cases t with
    | file c => exact SameDirectories.refl _
    | directory es =>
      by_cases hrest : rest = []
      · subst hrest
        -- What is under the name has no directory before, as it is none itself.
        have hold (rest : Place) : ¬ (directory es).HasDirectory (name :: rest) := by
          intro hdir
          obtain ⟨sub, hsub, hdir⟩ := hasDirectory_cons_iff.mp hdir
          have hnil : ¬ sub.HasDirectory [] :=
            fun h => ht (hasDirectory_cons_iff.mpr ⟨sub, hsub, h⟩)
          exact not_hasDirectory_of_nil hnil rest hdir
        rw [alter]
        cases hnew : f (Entries.get? name es) with
        | none => exact sameDirectories_erase hold
        | some new =>
          have hnil : ¬ new.HasDirectory [] := by
            rintro ⟨es', hes'⟩
            obtain rfl := Option.some.inj hes'
            exact hf _ es' hnew
          exact sameDirectories_insert fun rest =>
            iff_of_false (hold rest) (not_hasDirectory_of_nil hnil rest)
      · rw [alter_directory_cons es name hrest]
        cases hsub : Entries.get? name es with
        | none => exact SameDirectories.refl _
        | some sub =>
          have hbelow (rest : Place) :
              (directory es).HasDirectory (name :: rest) ↔ sub.HasDirectory rest := by
            rw [hasDirectory_cons_iff, hsub]
            simp
          have hsame := ih hrest fun h => ht ((hbelow rest).mpr h)
          exact sameDirectories_insert fun rest' => (hbelow rest').trans (hsame rest')

/-- What is removed adds no directory. -/
theorem directoriesWithin_delete (t : FileTree) (place : Place) :
    DirectoriesWithin (t.delete place) t := by
  unfold delete
  intro p
  induction place generalizing t p with
  | nil => exact id
  | cons name rest ih =>
    cases t with
    | file c => exact id
    | directory es =>
      intro hdir
      cases p with
      | nil => exact hasDirectory_nil es
      | cons q p =>
        by_cases hrest : rest = []
        · subst hrest
          rw [alter, hasDirectory_cons_iff] at hdir
          obtain ⟨sub, hsub, hdir⟩ := hdir
          rw [Entries.get?_erase] at hsub
          split at hsub
          · exact absurd hsub nofun
          · exact hasDirectory_cons_iff.mpr ⟨sub, hsub, hdir⟩
        · rw [alter_directory_cons es name hrest] at hdir
          cases hold : Entries.get? name es with
          | none =>
            rw [hold] at hdir
            exact hdir
          | some old =>
            rw [hold, hasDirectory_cons_iff] at hdir
            obtain ⟨sub, hsub, hdir⟩ := hdir
            rw [Entries.get?_insert] at hsub
            split at hsub
            · next heq =>
              obtain rfl := Option.some.inj hsub
              exact hasDirectory_cons_iff.mpr ⟨old, heq ▸ hold, ih old p hdir⟩
            · exact hasDirectory_cons_iff.mpr ⟨sub, hsub, hdir⟩

/-! ## Following paths -/

/-- Spots of two trees at the same place. -/
def Agree {t t' : FileTree} (here : Option (Spot t)) (here' : Option (Spot t')) : Prop :=
  here.map Spot.place = here'.map Spot.place

/-- What a name leads to it leads to where there are more directories, too. -/
theorem DirectoriesWithin.step {t t' : FileTree} (h : DirectoriesWithin t t')
    {here next : Option (Spot t)} {here' : Option (Spot t')} (hhere : Agree here here')
    {name : Bytes} (hstep : Spot.step here name = .ok next) :
    ∃ next', Spot.step here' name = .ok next' ∧ Agree next next' := by
  cases here with
  | none =>
    obtain rfl : here' = none := by simpa [Agree] using hhere.symm
    simp only [Spot.step] at hstep ⊢
    split at hstep
    · next hdots =>
      obtain rfl := Except.ok.inj hstep
      rw [if_pos hdots]
      exact ⟨none, rfl, rfl⟩
    · exact absurd hstep nofun
  | some s =>
    obtain ⟨s', rfl, hplace⟩ : ∃ s', here' = some s' ∧ s'.place = s.place := by
      cases here' with
      | none => exact absurd hhere nofun
      | some s' => exact ⟨s', rfl, (Option.some.inj hhere).symm⟩
    have hdirectory : t.HasDirectory s.place → t'.HasDirectory s'.place := by
      rw [hplace]
      exact h s.place
    simp only [Spot.step] at hstep ⊢
    split at hstep
    · exact absurd hstep nofun
    · exact absurd hstep nofun
    · next es hfound =>
      obtain ⟨es', hfound'⟩ : t'.HasDirectory s'.place :=
        hdirectory ⟨es, by rw [← s.found_eq, hfound]⟩
      rw [s'.found_eq, hfound']
      simp only
      split at hstep
      · next hdot =>
        obtain rfl := Except.ok.inj hstep
        rw [if_pos hdot]
        exact ⟨some s', rfl, congrArg some hplace.symm⟩
      · next hdot =>
        rw [if_neg hdot]
        split at hstep
        · next hdots =>
          obtain rfl := Except.ok.inj hstep
          rw [if_pos hdots]
          refine ⟨s'.parent?, rfl, ?_⟩
          unfold Agree Spot.parent?
          rw [hplace]
          split <;> rfl
        · next hdots =>
          rw [if_neg hdots]
          split at hstep
          · next hlength =>
            obtain rfl := Except.ok.inj hstep
            rw [if_pos hlength]
            refine ⟨some (s'.child name), rfl, ?_⟩
            simp only [Agree, Option.map_some, Spot.child, hplace]
          · exact absurd hstep nofun

/-- What names lead to they lead to where there are more directories, too. -/
theorem DirectoriesWithin.foldlM_step {t t' : FileTree} (h : DirectoriesWithin t t')
    {names : List Bytes} {here next : Option (Spot t)} {here' : Option (Spot t')}
    (hhere : Agree here here') (hsteps : names.foldlM Spot.step here = .ok next) :
    ∃ next', names.foldlM Spot.step here' = .ok next' ∧ Agree next next' := by
  induction names generalizing here here' with
  | nil =>
    obtain rfl := Except.ok.inj hsteps
    exact ⟨here', rfl, hhere⟩
  | cons name rest ih =>
    rw [List.foldlM_cons] at hsteps
    cases hstep : Spot.step here name with
    | error e =>
      rw [hstep] at hsteps
      exact absurd hsteps nofun
    | ok middle =>
      rw [hstep] at hsteps
      obtain ⟨middle', hstep', hmiddle⟩ := h.step hhere hstep
      obtain ⟨next', hsteps', hnext⟩ := ih hmiddle hsteps
      refine ⟨next', ?_, hnext⟩
      rw [List.foldlM_cons, hstep']
      exact hsteps'

/-- Where names with one more lead is where the last name leads. -/
theorem foldlM_step_concat {t : FileTree} {names : List Bytes} {name : Bytes}
    {here next : Option (Spot t)} (h : (names ++ [name]).foldlM Spot.step here = .ok next) :
    ∃ middle, names.foldlM Spot.step here = .ok middle ∧ Spot.step middle name = .ok next := by
  rw [List.foldlM_append] at h
  cases hnames : names.foldlM Spot.step here with
  | error e =>
    rw [hnames] at h
    exact absurd h nofun
  | ok middle =>
    rw [hnames] at h
    change (Spot.step middle name >>= fun s => pure s) = _ at h
    rw [bind_pure] at h
    exact ⟨middle, rfl, h⟩

/-- Where the way of a path begins: outside of the tree if the path is absolute. -/
def Spot.start (t : FileTree) (p : Bytes) : Option (Spot t) :=
  if Path.isAbsolute p then none else some (.ofPlace t [])

/-- The names to follow for a path, with a dot for a slash at its end. -/
def steps (p : Bytes) : List Bytes :=
  Path.names p ++ if p.getLast? = some Bytes.slash then [bytes "."] else []

/-- A path leads where its names do. -/
theorem resolve_eq_ok_iff {t : FileTree} {p : Bytes} {place : Option Place} :
    t.resolve p = .ok place ↔ Path.visible p ≠ [] ∧ (Path.visible p).length ≤ maxPathLength ∧
      ∃ spot, (steps (Path.visible p)).foldlM Spot.step (Spot.start t (Path.visible p)) = .ok spot ∧
        spot.map Spot.place = place := by
  change (if (Path.visible p).isEmpty then .error .notFound
    else if (Path.visible p).length > maxPathLength then .error .nameTooLong
    else ((steps (Path.visible p)).foldlM Spot.step (Spot.start t (Path.visible p))).map
      fun spot => spot.map Spot.place) = Except.ok place ↔ _
  by_cases hempty : Path.visible p = []
  · simp [hempty]
  · rw [if_neg (by simpa using hempty)]
    by_cases hlength : (Path.visible p).length > maxPathLength
    · simp [hlength, Nat.not_le.mpr hlength]
    · rw [if_neg hlength]
      cases (steps (Path.visible p)).foldlM Spot.step (Spot.start t (Path.visible p)) with
      | error e => simp [Except.map]
      | ok spot => simp [Except.map, hempty, Nat.not_lt.mp hlength]

/-- Where a path leads it leads where there are more directories, too. -/
theorem DirectoriesWithin.resolve {t t' : FileTree} (h : DirectoriesWithin t t') {p : Bytes}
    {place : Option Place} (hp : t.resolve p = .ok place) : t'.resolve p = .ok place := by
  obtain ⟨hempty, hlength, spot, hsteps, hplace⟩ := resolve_eq_ok_iff.mp hp
  have hstart : Agree (Spot.start t (Path.visible p)) (Spot.start t' (Path.visible p)) := by
    unfold Agree Spot.start
    split <;> rfl
  obtain ⟨spot', hsteps', hspot⟩ := h.foldlM_step hstart hsteps
  exact resolve_eq_ok_iff.mpr ⟨hempty, hlength, spot', hsteps', hspot ▸ hplace⟩

/-- Where a path leads depends on nothing but where the directories are. -/
theorem SameDirectories.resolve {t t' : FileTree} (h : SameDirectories t t') {p : Bytes}
    {place : Option Place} (hp : t.resolve p = .ok place) : t'.resolve p = .ok place :=
  h.within.resolve hp

/-- Where neither directories nor what is at the place of a path change, the same is found. -/
theorem SameDirectories.find?_eq {t t' : FileTree} (h : SameDirectories t t') {p : Bytes}
    (hget : ∀ place, t.resolve p = .ok (some place) → t'.get? place = t.get? place) :
    t'.find? p = t.find? p := by
  cases hresolve : t.resolve p with
  | error e =>
    cases hresolve' : t'.resolve p with
    | error e' => rw [find?, find?, hresolve, hresolve']
    | ok place => exact absurd (hresolve.symm.trans (h.symm.resolve hresolve')) nofun
  | ok found =>
    rw [find?, find?, hresolve, h.resolve hresolve]
    cases found with
    | none => rfl
    | some place => exact hget place hresolve

/-! ## Where paths lead -/

/-- A directory is in a directory, unless it is the root. -/
theorem HasDirectory.dropLast {t : FileTree} {place : Place} (h : t.HasDirectory place) :
    t.HasDirectory place.dropLast := by
  rcases List.eq_nil_or_concat place with rfl | ⟨outer, name, rfl⟩
  · exact h
  · obtain ⟨es, hes⟩ := h
    rw [List.concat_eq_append, get?_concat] at hes
    rw [List.concat_eq_append, List.dropLast_concat]
    obtain ⟨found, hfound, hentry⟩ := Option.bind_eq_some_iff.mp hes
    cases found with
    | file c => exact absurd hentry nofun
    | directory es' => exact ⟨es', hfound⟩

/-- A spot at the root or in a directory. -/
def Spot.IsHeld {t : FileTree} (s : Spot t) : Prop := s.place = [] ∨ t.HasDirectory s.place.dropLast

/-- A name leads from there to the root or into a directory. -/
theorem Spot.isHeld_step {t : FileTree} {here next : Option (Spot t)} {name : Bytes}
    (hhere : ∀ s ∈ here, s.IsHeld) (hstep : Spot.step here name = .ok next) :
    ∀ s ∈ next, s.IsHeld := by
  cases here with
  | none =>
    simp only [Spot.step] at hstep
    split at hstep
    · obtain rfl := Except.ok.inj hstep
      exact nofun
    · exact absurd hstep nofun
  | some s =>
    simp only [Spot.step] at hstep
    split at hstep
    · exact absurd hstep nofun
    · exact absurd hstep nofun
    · next es hfound =>
      have hdirectory : t.HasDirectory s.place := ⟨es, by rw [← s.found_eq, hfound]⟩
      split at hstep
      · obtain rfl := Except.ok.inj hstep
        exact hhere
      · split at hstep
        · obtain rfl := Except.ok.inj hstep
          intro s' hs'
          unfold Spot.parent? at hs'
          split at hs'
          · exact absurd hs' nofun
          · obtain rfl := Option.some.inj hs'
            exact Or.inr hdirectory.dropLast.dropLast
        · split at hstep
          · obtain rfl := Except.ok.inj hstep
            intro s' hs'
            obtain rfl := Option.some.inj hs'
            right
            rw [Spot.child, List.dropLast_concat]
            exact hdirectory
          · exact absurd hstep nofun

/-- Names lead to the root or into a directory. -/
theorem Spot.isHeld_foldlM_step {t : FileTree} {names : List Bytes} {here next : Option (Spot t)}
    (hhere : ∀ s ∈ here, s.IsHeld) (hsteps : names.foldlM Spot.step here = .ok next) :
    ∀ s ∈ next, s.IsHeld := by
  induction names generalizing here with
  | nil =>
    obtain rfl := Except.ok.inj hsteps
    exact hhere
  | cons name rest ih =>
    rw [List.foldlM_cons] at hsteps
    cases hstep : Spot.step here name with
    | error e =>
      rw [hstep] at hsteps
      exact absurd hsteps nofun
    | ok middle =>
      rw [hstep] at hsteps
      exact ih (isHeld_step hhere hstep) hsteps

/-- A path leads to the root or into a directory. -/
theorem eq_nil_or_hasDirectory_of_resolve {t : FileTree} {p : Bytes} {place : Place}
    (h : t.resolve p = .ok (some place)) : place = [] ∨ t.HasDirectory place.dropLast := by
  obtain ⟨-, -, spot, hsteps, hplace⟩ := resolve_eq_ok_iff.mp h
  obtain ⟨s, rfl, rfl⟩ := Option.map_eq_some_iff.mp hplace
  refine Spot.isHeld_foldlM_step ?_ hsteps s rfl
  intro s' hs'
  unfold Spot.start at hs'
  split at hs'
  · exact absurd hs' nofun
  · obtain rfl := Option.some.inj hs'
    exact Or.inl rfl

end SourceChunks.FileTree
