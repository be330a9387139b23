import SourceChunks.Proofs.EditScript.Search

/-!
# The search finds a path

A search begins with round zero, goes through the diagonals of each round and from round to round,
until a point has both sides behind it or too many rounds have been gone through. Wherever it is,
its array has the reaches of this round on the diagonals behind it and those of the round before on
the others, so no look-up fails; and since as many rounds as there are elements are enough, it
always ends. A point may be beyond the end of one side, but the first one that has both sides behind
it is the far corner, and the way back from there ends at the near one. A script of fewer edits
would have let an earlier round reach the corner.
-/

namespace SourceChunks.EditScript

variable {α : Type} [DecidableEq α]

/-! ## The way of a search -/

/-- Where a search is. -/
inductive SearchPhase where
  /-- A round is next. -/
  | begin (d : ℕ) (f : Frontier) (slices : Array (Array Int))
  /-- Some diagonals of a round are left. -/
  | within (d : ℕ) (ks : List Int) (f : Frontier) (slices : Array (Array Int))

/-- A search with so many edits allowed comes to be there. -/
inductive Passes (a b : Array α) (limit : ℕ) : SearchPhase → Prop
  | start (h : a.size + b.size ≠ 0) :
      Passes a b limit (.begin 0 (Frontier.start (a.size + b.size)) #[])
  | enter {d : ℕ} {f : Frontier} {slices : Array (Array Int)}
      (h : Passes a b limit (.begin d f slices)) (htotal : d ≤ a.size + b.size)
      (hlimit : d ≤ limit) :
      Passes a b limit (.within d (diagonals d) f (slices.push (f.slice d)))
  | next {d : ℕ} {k x y : Int} {ks : List Int} {f f' : Frontier} {slices : Array (Array Int)}
      (h : Passes a b limit (.within d (k :: ks) f slices))
      (hadvance : advance? a b d k f = some (f', x, y)) (hcorner : ¬ (a.size ≤ x ∧ b.size ≤ y)) :
      Passes a b limit (.within d ks f' slices)
  | leave {d : ℕ} {f : Frontier} {slices : Array (Array Int)}
      (h : Passes a b limit (.within d [] f slices)) : Passes a b limit (.begin (d + 1) f slices)

/-- In some round a search comes to a point that has both sides behind it. -/
def Arrives (a b : Array α) (limit d : ℕ) (slices : Array (Array Int)) : Prop :=
  ∃ k ks f f' x y, Passes a b limit (.within d (k :: ks) f slices) ∧
    advance? a b d k f = some (f', x, y) ∧ a.size ≤ x ∧ b.size ≤ y

variable {a b : List α} {limit d : ℕ} {k : Int} {ks : List Int} {f : Frontier}
  {slices : Array (Array Int)}

/-! ## What the arrays hold -/

/-- When a round is next, the reaches of the round before are known, and those before every earlier
round are kept. -/
structure Begins (a b : List α) (limit d : ℕ) (f : Frontier) (slices : Array (Array Int)) :
    Prop where
  /-- The frontier has the reaches. -/
  holds : f.Holds (a.length + b.length) (reaches a b d)
  /-- There is a slice for each earlier round. -/
  size_eq : slices.size = d
  /-- It holds the reaches before that round. -/
  keeps : Keeps a b slices d
  /-- No earlier reach has both sides behind it. -/
  not_covers : ∀ c < d, ∀ k ∈ diagonals c, ¬ Covers a b c k
  /-- All earlier rounds are allowed. -/
  le_limit : d ≤ limit + 1

/-- In a round the diagonals that have been gone through have got its reaches. -/
structure Within (a b : List α) (limit d : ℕ) (ks : List Int) (f : Frontier)
    (slices : Array (Array Int)) : Prop where
  /-- There are not more rounds than elements. -/
  le_total : d ≤ a.length + b.length
  /-- The round is allowed. -/
  le_limit : d ≤ limit
  /-- The diagonals that are not left have the reaches of this round, not yet at the corner. -/
  exists_done : ∃ done, diagonals d = done ++ ks ∧ (∀ k ∈ done, ¬ Covers a b d k) ∧
    f.Holds (a.length + b.length) fun k => if k ∈ done then reachOf a b d k else reaches a b d k
  /-- There is a slice for each round up to this one. -/
  size_eq : slices.size = d + 1
  /-- It holds the reaches before that round. -/
  keeps : Keeps a b slices (d + 1)
  /-- No reach of an earlier round has both sides behind it. -/
  not_covers : ∀ c < d, ∀ k ∈ diagonals c, ¬ Covers a b c k

/-- A search starts at round zero with nothing known and no slice kept. -/
theorem begins_start (a b : List α) (limit : ℕ) :
    Begins a b limit 0 (Frontier.start (a.length + b.length)) #[] where
  holds := holds_start (a.length + b.length)
  size_eq := Array.size_empty
  keeps := nofun
  not_covers := nofun
  le_limit := Nat.zero_le _

/-- A round is next only as long as there are elements for it, since a last one would have found the
corner. -/
theorem Begins.le_total (h : Begins a b limit d f slices) : d ≤ a.length + b.length := by
  by_contra hlt
  obtain ⟨hmem, hcovers⟩ := covers_length_add_length a b
  exact h.not_covers _ (by omega) _ hmem hcovers

/-- Entering an allowed round keeps its slice, and all its diagonals are left to do. -/
theorem Begins.enter (h : Begins a b limit d f slices) (hlimit : d ≤ limit) :
    Within a b limit d (diagonals d) f (slices.push (f.slice d)) where
  le_total := h.le_total
  le_limit := hlimit
  exists_done := ⟨[], rfl, nofun, by simpa using h.holds⟩
  size_eq := by rw [Array.size_push, h.size_eq]
  keeps := h.keeps.push h.size_eq h.le_total h.holds
  not_covers := h.not_covers

/-- The next diagonal of a round is one of its diagonals. -/
theorem Within.mem_diagonals (h : Within a b limit d (k :: ks) f slices) : k ∈ diagonals d := by
  obtain ⟨done, hdiagonals, -⟩ := h.exists_done
  rw [hdiagonals]
  exact List.mem_append_right done List.mem_cons_self

/-- On the next diagonal no look-up fails, and the reach of the round is found. -/
theorem Within.exists_advance? (h : Within a b limit d (k :: ks) f slices) :
    ∃ f', advance? a.toArray b.toArray d k f = some (f', reachOf a b d k, reachOf a b d k - k) ∧
      (¬ Covers a b d k → Within a b limit d ks f' slices) := by
  obtain ⟨done, hdiagonals, hdone, hholds⟩ := h.exists_done
  obtain ⟨f', hadvance, hholds'⟩ := EditScript.exists_advance? h.le_total h.mem_diagonals hholds
    fun j hj => by
      have hnot : j ∉ done := fun hmem => hj (hdiagonals ▸ List.mem_append_left (k :: ks) hmem)
      exact if_neg hnot
  refine ⟨f', hadvance, fun hcovers => ?_⟩
  refine ⟨h.le_total, h.le_limit, ⟨done ++ [k], ?_, ?_, ?_⟩, h.size_eq, h.keeps, h.not_covers⟩
  · rw [hdiagonals, List.append_assoc, List.singleton_append]
  · intro j hj
    rcases List.mem_append.mp hj with hold | hlast
    · exact hdone j hold
    · rwa [List.mem_singleton.mp hlast]
  · have hreach : (fun j => if j ∈ done ++ [k] then reachOf a b d j else reaches a b d j) = fun j =>
        if j = k then reachOf a b d k
        else if j ∈ done then reachOf a b d j else reaches a b d j := by
      funext j
      by_cases hjk : j = k
      · simp [hjk]
      · simp [hjk]
    rw [hreach]
    exact hholds'

/-- What is found on the next diagonal is the reach of the round. -/
theorem Within.of_advance? (h : Within a b limit d (k :: ks) f slices) {f' : Frontier} {x y : Int}
    (hadvance : advance? a.toArray b.toArray d k f = some (f', x, y)) :
    x = reachOf a b d k ∧ y = reachOf a b d k - k ∧
      (¬ Covers a b d k → Within a b limit d ks f' slices) := by
  obtain ⟨f'', hadvance', hnext⟩ := h.exists_advance?
  obtain ⟨rfl, hpoint⟩ := Prod.mk.inj (Option.some.inj (hadvance.symm.trans hadvance'))
  obtain ⟨hx, hy⟩ := Prod.mk.inj hpoint
  exact ⟨hx, hy, hnext⟩

/-- When no diagonal of a round is left, the next round is due. -/
theorem Within.leave (h : Within a b limit d [] f slices) : Begins a b limit (d + 1) f slices := by
  obtain ⟨done, hdiagonals, hdone, hholds⟩ := h.exists_done
  rw [List.append_nil] at hdiagonals
  rw [← hdiagonals] at hdone hholds
  refine ⟨hholds, h.size_eq, h.keeps, ?_, Nat.succ_le_succ h.le_limit⟩
  intro c hc
  rcases Nat.lt_succ_iff_lt_or_eq.mp hc with hlt | rfl
  · exact h.not_covers c hlt
  · exact hdone

/-- What the arrays hold wherever a search is. -/
def SearchPhase.Sound (a b : List α) (limit : ℕ) : SearchPhase → Prop
  | .begin d f slices => Begins a b limit d f slices
  | .within d ks f slices => Within a b limit d ks f slices

/-- Wherever a search of two lists comes, its arrays hold the reaches. -/
theorem Passes.sound {p : SearchPhase} (h : Passes a.toArray b.toArray limit p) :
    p.Sound a b limit := by
  induction h with
  | start h =>
    rw [List.size_toArray, List.size_toArray]
    exact begins_start a b limit
  | enter h htotal hlimit ih => exact Begins.enter ih hlimit
  | next h hadvance hcorner ih =>
    obtain ⟨rfl, rfl, hnext⟩ := Within.of_advance? ih hadvance
    exact hnext hcorner
  | leave h ih => exact Within.leave ih

/-! ## Arriving at the corner -/

/-- The first point that has both sides behind it is the far corner, and the way back from there
ends at the near one. -/
theorem Within.exists_followBack? (h : Within a b limit d (k :: ks) f slices)
    (hcovers : Covers a b d k) :
    reachOf a b d k = a.length ∧ reachOf a b d k - k = b.length ∧
      ∃ t, followBack? slices d ⟨a.length, b.length, []⟩ = some t ∧ t.x = 0 ∧ t.y = 0 ∧
        Turns t.steps a b ∧ edits t.steps = d := by
  obtain ⟨hreach, rfl⟩ := hcovers.eq_corner h.mem_diagonals h.not_covers
  have hcorner : Trail.LeadsFrom ⟨a.length, b.length, []⟩ a b d :=
    ⟨h.mem_diagonals, hreach, Int.le_refl _, Int.le_refl _, by simpa using Turns.nil⟩
  obtain ⟨t, hback, hx, hy, hturns, hedits⟩ := EditScript.exists_followBack? h.keeps hcorner
  exact ⟨hreach, by omega, t, hback, hx, hy, hturns, hedits.trans (Nat.zero_add d)⟩

/-- Where a search comes to a point that has both sides behind it, its arrays hold the reaches. -/
theorem Arrives.exists_within (h : Arrives a.toArray b.toArray limit d slices) :
    ∃ k ks f, Within a b limit d (k :: ks) f slices ∧ Covers a b d k := by
  obtain ⟨k, ks, f, f', x, y, hpasses, hadvance, hcorner⟩ := h
  have hwithin : Within a b limit d (k :: ks) f slices := hpasses.sound
  obtain ⟨rfl, rfl, -⟩ := hwithin.of_advance? hadvance
  exact ⟨k, ks, f, hwithin, hcorner⟩

/-- On a diagonal that is not the last one of the search its round goes on with the next one. -/
theorem Passes.exists_next (h : Passes a.toArray b.toArray limit (.within d (k :: ks) f slices))
    (hcovers : ¬ Covers a b d k) :
    ∃ f', Passes a.toArray b.toArray limit (.within d ks f' slices) := by
  obtain ⟨f', hadvance, -⟩ := Within.exists_advance? h.sound
  exact ⟨f', h.next hadvance hcovers⟩

/-! ## How a search ends -/

/-- A round ends without a point that has both sides behind it, or comes to one. -/
theorem Passes.round?_cases (h : Passes a.toArray b.toArray limit (.within d ks f slices)) :
    (∃ f', round? a.toArray b.toArray d ks f = some (f', false) ∧
      Passes a.toArray b.toArray limit (.within d [] f' slices)) ∨
    ∃ f', round? a.toArray b.toArray d ks f = some (f', true) ∧
      Arrives a.toArray b.toArray limit d slices := by
  induction ks generalizing f with
  | nil => exact .inl ⟨f, rfl, h⟩
  | cons k ks ih =>
    obtain ⟨f', hadvance, -⟩ := Within.exists_advance? h.sound
    have hround : round? a.toArray b.toArray d (k :: ks) f =
        if Covers a b d k then some (f', true) else round? a.toArray b.toArray d ks f' := by
      rw [round?_cons, hadvance]
      rfl
    rw [hround]
    by_cases hcovers : Covers a b d k
    · exact .inr ⟨f', if_pos hcovers, k, ks, f, f', _, _, h, hadvance, hcovers⟩
    · rw [if_neg hcovers]
      exact ih (h.next hadvance hcovers)

/-- The rounds end with one that comes to such a point, or with the last one that is allowed. -/
theorem Passes.rounds?_cases {remaining : ℕ}
    (h : Passes a.toArray b.toArray limit (.begin d f slices))
    (hremaining : d + remaining = a.length + b.length + 1) :
    (rounds? a.toArray b.toArray limit remaining d f slices = some .tooManyEdits ∧
      ∃ f' slices', Passes a.toArray b.toArray limit (.begin (limit + 1) f' slices')) ∨
    ∃ e slices', rounds? a.toArray b.toArray limit remaining d f slices =
      some (.reached e slices') ∧ Arrives a.toArray b.toArray limit e slices' := by
  have hbegins : Begins a b limit d f slices := h.sound
  have htotal := hbegins.le_total
  induction remaining generalizing d f slices with
  | zero => omega
  | succ remaining ih =>
    rw [rounds?]
    by_cases hlimit : limit < d
    · have hlast : d = limit + 1 := by
        have hle := hbegins.le_limit
        omega
      subst hlast
      exact .inl ⟨if_pos hlimit, f, slices, h⟩
    · rw [if_neg hlimit]
      have hwithin := h.enter (by simpa using htotal) (by omega)
      obtain ⟨f', hround, hleft⟩ | ⟨f', hround, harrives⟩ := hwithin.round?_cases
      · rw [hround]
        have hnext := hleft.leave
        exact ih hnext (by omega) hnext.sound (Begins.le_total hnext.sound)
      · rw [hround]
        exact .inr ⟨d, _, rfl, harrives⟩

/-- A search ends at once if there are no elements, or when all allowed rounds have been gone
through, or at a point that has both sides behind it, in a round that is allowed and not later than
there are elements. -/
theorem search?_ends (limit : ℕ) (a b : List α) :
    (a.length + b.length = 0 ∧ search? limit a.toArray b.toArray = some (.script [])) ∨
      (∃ f slices, Passes a.toArray b.toArray limit (.begin (limit + 1) f slices) ∧
        search? limit a.toArray b.toArray = some .tooManyEdits) ∨
      ∃ d slices t, Arrives a.toArray b.toArray limit d slices ∧ d ≤ a.length + b.length ∧
        d ≤ limit ∧ followBack? slices d ⟨a.length, b.length, []⟩ = some t ∧
        search? limit a.toArray b.toArray = some (.script t.steps) := by
  by_cases hempty : a.length + b.length = 0
  · refine .inl ⟨hempty, ?_⟩
    rw [search?, List.size_toArray, List.size_toArray, if_pos hempty]
  · have hstart : Passes a.toArray b.toArray limit
        (.begin 0 (Frontier.start (a.length + b.length)) #[]) := by
      simpa using Passes.start (a := a.toArray) (b := b.toArray) (by simpa using hempty)
    rw [search?, List.size_toArray, List.size_toArray, if_neg hempty]
    obtain ⟨hrounds, f, slices, hlast⟩ | ⟨d, slices, hrounds, harrives⟩ :=
      hstart.rounds?_cases (Nat.zero_add _)
    · exact .inr (.inl ⟨f, slices, hlast, by rw [hrounds]; rfl⟩)
    · obtain ⟨k, ks, f, hwithin, hcovers⟩ := harrives.exists_within
      obtain ⟨-, -, t, hback, -⟩ := hwithin.exists_followBack? hcovers
      refine .inr (.inr ⟨d, slices, t, harrives, hwithin.le_total, hwithin.le_limit, hback, ?_⟩)
      rw [hrounds]
      simp [hback]

/-- A search never leaves its arrays and always ends, with steps that turn one side into the other
by no more edits than are allowed and than any steps need, or without any if all steps need more
edits than are allowed. -/
theorem search?_cases (limit : Nat) (a b : List α) :
    (search? limit a.toArray b.toArray = some .tooManyEdits ∧
      ∀ steps, Turns steps a b → limit < edits steps) ∨
    ∃ steps, search? limit a.toArray b.toArray = some (.script steps) ∧ Turns steps a b ∧
      edits steps ≤ limit ∧ ∀ steps', Turns steps' a b → edits steps ≤ edits steps' := by
  obtain ⟨hempty, hsearch⟩ | ⟨f, slices, hlast, hsearch⟩ | ⟨d, slices, t, harrives, -, hlimit,
    hback, hsearch⟩ := search?_ends limit a b
  · have hold : a = [] := List.eq_nil_of_length_eq_zero (by omega)
    have hnew : b = [] := List.eq_nil_of_length_eq_zero (by omega)
    subst hold hnew
    exact .inr ⟨[], hsearch, .nil, Nat.zero_le _, fun _ _ => Nat.zero_le _⟩
  · have hbegins : Begins a b limit (limit + 1) f slices := hlast.sound
    refine .inl ⟨hsearch, fun steps hsteps => ?_⟩
    obtain ⟨hk, hcovers⟩ := hsteps.covers
    by_contra hle
    exact hbegins.not_covers _ (by omega) _ hk hcovers
  · obtain ⟨k, ks, f, hwithin, hcovers⟩ := harrives.exists_within
    obtain ⟨-, -, t', hback', -, -, hturns, hedits⟩ := hwithin.exists_followBack? hcovers
    obtain rfl : t = t' := Option.some.inj (hback.symm.trans hback')
    refine .inr ⟨t.steps, hsearch, hturns, hedits ▸ hlimit, fun steps hsteps => ?_⟩
    obtain ⟨hk, hcovers'⟩ := hsteps.covers
    by_contra hlt
    exact hwithin.not_covers _ (by omega) _ hk hcovers'

/-- Wherever a search is, no look-up fails: a round that is next finds its slice in the array, and
on the next diagonal of a round the reaches that are read and the one that is written are in the
array and the elements that are compared are in the lists. If the point that is reached has both
sides behind it, it is the far corner, no look-up fails on the way back from there, the way back
ends at the near corner, and its steps go through all elements of both sides. A search ends at once
if there are no elements, or when all allowed rounds have been gone through, or at such a point, in
a round that is allowed and not later than there are elements. -/
theorem search?_stays_within (limit : ℕ) (a b : List α) :
    (∀ d f slices, Passes a.toArray b.toArray limit (.begin d f slices) →
      d ≤ a.length + b.length ∧ d ≤ limit + 1 ∧ 0 ≤ f.offset - d ∧
        f.offset + d + 1 ≤ f.reach.size) ∧
    (∀ d k ks f slices, Passes a.toArray b.toArray limit (.within d (k :: ks) f slices) →
      ∃ f' x y, advance? a.toArray b.toArray d k f = some (f', x, y) ∧
        (a.length ≤ x → b.length ≤ y → x = a.length ∧ y = b.length ∧
          ∃ t, followBack? slices d ⟨x, y, []⟩ = some t ∧ t.x = 0 ∧ t.y = 0 ∧
            t.steps.count .keep + t.steps.count .delete = a.length ∧
            t.steps.count .keep + t.steps.count .insert = b.length)) ∧
    ((a.length + b.length = 0 ∧ search? limit a.toArray b.toArray = some (.script [])) ∨
      (∃ f slices, Passes a.toArray b.toArray limit (.begin (limit + 1) f slices) ∧
        search? limit a.toArray b.toArray = some .tooManyEdits) ∨
      ∃ d slices t, Arrives a.toArray b.toArray limit d slices ∧ d ≤ a.length + b.length ∧
        d ≤ limit ∧ followBack? slices d ⟨a.length, b.length, []⟩ = some t ∧
        search? limit a.toArray b.toArray = some (.script t.steps)) := by
  refine ⟨?_, ?_, search?_ends limit a b⟩
  · intro d f slices h
    have hbegins : Begins a b limit d f slices := h.sound
    have hoffset := hbegins.holds.offset_eq
    have hsize := hbegins.holds.size_eq
    have htotal := hbegins.le_total
    exact ⟨htotal, hbegins.le_limit, by omega, by omega⟩
  · intro d k ks f slices h
    have hwithin : Within a b limit d (k :: ks) f slices := h.sound
    obtain ⟨f', hadvance, -⟩ := hwithin.exists_advance?
    refine ⟨f', _, _, hadvance, fun hold hnew => ?_⟩
    obtain ⟨hx, hy, t, hback, htx, hty, hturns, -⟩ := hwithin.exists_followBack? ⟨hold, hnew⟩
    refine ⟨hx, hy, t, ?_, htx, hty, hturns.length_old.symm, hturns.length_new.symm⟩
    rw [hy, hx]
    exact hback

/-- Where one element of two is replaced, the second round comes to the far corner on its middle
diagonal, and the way back reads the slices of both rounds. -/
theorem search?_stays_within_replaced :
    let a : List ℕ := [7, 8]
    let b : List ℕ := [7, 9]
    ∃ f slices f' t, Passes a.toArray b.toArray editLimit (.within 2 [0, 2] f slices) ∧
      slices.size = 3 ∧ advance? a.toArray b.toArray 2 0 f = some (f', 2, 2) ∧
      followBack? slices 2 ⟨2, 2, []⟩ = some t ∧ t.x = 0 ∧ t.y = 0 ∧
      t.steps.count .keep + t.steps.count .delete = 2 ∧
      t.steps.count .keep + t.steps.count .insert = 2 := by
  intro a b
  have hstart : Passes a.toArray b.toArray editLimit (.begin 0 (Frontier.start 4) #[]) :=
    .start (by decide)
  have hround₀ := hstart.enter (by decide) (by decide)
  obtain ⟨f₁, hdone₀⟩ := hround₀.exists_next (show ¬ Covers a b 0 0 by decide)
  have hround₁ := hdone₀.leave.enter (by decide) (by decide)
  obtain ⟨f₂, hupper₁⟩ := hround₁.exists_next (show ¬ Covers a b 1 (-1) by decide)
  obtain ⟨f₃, hdone₁⟩ := hupper₁.exists_next (show ¬ Covers a b 1 1 by decide)
  have hround₂ := hdone₁.leave.enter (by decide) (by decide)
  obtain ⟨f, hmiddle⟩ := hround₂.exists_next (show ¬ Covers a b 2 (-2) by decide)
  obtain ⟨-, hdiagonal, -⟩ := search?_stays_within editLimit a b
  obtain ⟨f', x, y, hadvance, hcorner⟩ := hdiagonal 2 0 [2] f _ hmiddle
  obtain ⟨hx, hy, -⟩ := Within.of_advance? hmiddle.sound hadvance
  obtain rfl : x = 2 := hx.trans (by decide)
  obtain rfl : y = 2 := hy.trans (by decide)
  obtain ⟨-, -, t, hback, htx, hty, hold, hnew⟩ := hcorner (by decide) (by decide)
  exact ⟨f, _, f', t, hmiddle, Within.size_eq hmiddle.sound, hadvance, hback, htx, hty, hold, hnew⟩

end SourceChunks.EditScript
