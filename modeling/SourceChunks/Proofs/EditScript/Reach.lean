import Mathlib.Data.List.Induction
import SourceChunks.Proofs.EditScript.Steps

/-!
# How far the paths of each round reach

A path comes to a diagonal from one of the two next to it, where it was one round before, and goes
on along the diagonal as long as both sides agree. So the reaches of a round are a function of those
of the round before, and they grow from round to round in the direction of both sides.

A reach may lie beyond the end of a side, since a step off a diagonal is taken without looking. But
beyond an end nothing is kept, and next to a reach that is too far there is always one which is
almost as far. So the first reach that has both sides behind it is the far corner itself.
-/

namespace SourceChunks.EditScript

/-- The diagonals of a round lie within it and have its parity. -/
theorem mem_diagonals {d : Nat} {k : Int} :
    k ∈ diagonals d ↔ -d ≤ k ∧ k ≤ d ∧ (k + d) % 2 = 0 := by
  simp only [diagonals, List.mem_map, List.mem_range]
  constructor
  · rintro ⟨i, hi, rfl⟩
    omega
  · rintro ⟨hlow, hhigh, heven⟩
    exact ⟨((k + d) / 2).toNat, by omega, by omega⟩

/-! ## From one diagonal to the next -/

section Entry

variable (reach : Int → Int) {d : Nat} {k : Int}

/-- The diagonal from which a path comes to diagonal `k` in round `d`. -/
def source (reach : Int → Int) (d : Nat) (k : Int) : Int :=
  if k = -d ∨ k ≠ d ∧ reach (k - 1) < reach (k + 1) then k + 1 else k - 1

/-- How far the path is when it comes there: a step down leaves it where it was, a step right takes
it one further. -/
def entry (reach : Int → Int) (d : Nat) (k : Int) : Int :=
  if source reach d k = k + 1 then reach (k + 1) else reach (k - 1) + 1

/-- A path comes from above by a step down or from below by a step right. -/
theorem entry_cases (hk : k ∈ diagonals (d + 1)) :
    (source reach (d + 1) k = k + 1 ∧ k + 1 ∈ diagonals d ∧
      entry reach (d + 1) k = reach (k + 1)) ∨
    (source reach (d + 1) k = k - 1 ∧ k - 1 ∈ diagonals d ∧
      entry reach (d + 1) k = reach (k - 1) + 1) := by
  rw [mem_diagonals] at hk
  simp only [mem_diagonals, entry]
  unfold source
  split
  case isTrue h =>
    exact .inl ⟨rfl, by omega, if_pos rfl⟩
  case isFalse h =>
    exact .inr ⟨rfl, by omega, if_neg (by omega)⟩

/-- It is at least as far as a step down takes it. -/
theorem le_entry (h : k + 1 ∈ diagonals d) : reach (k + 1) ≤ entry reach (d + 1) k := by
  rw [mem_diagonals] at h
  unfold entry source
  split <;> split <;> omega

/-- It is at least as far as a step right takes it. -/
theorem lt_entry (h : k - 1 ∈ diagonals d) : reach (k - 1) < entry reach (d + 1) k := by
  rw [mem_diagonals] at h
  unfold entry source
  split <;> split <;> omega

end Entry

variable {α : Type} [DecidableEq α] {a b : List α} {d : Nat} {k x y : Int}

/-! ## Along a diagonal -/

/-- The number of elements that both sides have in common from a point on. -/
def kept (a b : List α) (x y : Int) : Nat := commonLength (a.drop x.toNat) (b.drop y.toNat)

/-- What is kept lies within both sides. -/
theorem kept_eq_zero_or_le (hx : 0 ≤ x) (hy : 0 ≤ y) :
    kept a b x y = 0 ∨ x + kept a b x y ≤ a.length ∧ y + kept a b x y ≤ b.length := by
  have hleft : kept a b x y ≤ (a.drop x.toNat).length := commonLength_le_left ..
  have hright : kept a b x y ≤ (b.drop y.toNat).length := commonLength_le_right ..
  rw [List.length_drop] at hleft hright
  omega

/-- The reaches before a round, in which nothing has been reached before the first one. -/
def reaches (a b : List α) : Nat → Int → Int
  | 0, _ => 0
  | d + 1, k =>
    if k ∈ diagonals d then
      let x := entry (reaches a b d) d k
      x + kept a b x (x - k)
    else reaches a b d k

/-- The reach of a round on one of its diagonals. -/
def reachOf (a b : List α) (d : Nat) (k : Int) : Int :=
  entry (reaches a b d) d k + kept a b (entry (reaches a b d) d k) (entry (reaches a b d) d k - k)

/-- After a round its diagonals have its reach. -/
theorem reaches_of_mem (hk : k ∈ diagonals d) : reaches a b (d + 1) k = reachOf a b d k := if_pos hk

/-- Round zero follows diagonal zero from the corner. -/
theorem reachOf_zero (a b : List α) : reachOf a b 0 0 = commonLength a b := by
  have hstart : entry (reaches a b 0) 0 0 = 0 := rfl
  rw [reachOf, hstart]
  simp [kept]

/-- The reach of a round comes from a reach of the round before, from above by a step down or from
below by a step right. -/
theorem entry_reaches_cases (hk : k ∈ diagonals (d + 1)) :
    (source (reaches a b (d + 1)) (d + 1) k = k + 1 ∧ k + 1 ∈ diagonals d ∧
      entry (reaches a b (d + 1)) (d + 1) k = reachOf a b d (k + 1)) ∨
    (source (reaches a b (d + 1)) (d + 1) k = k - 1 ∧ k - 1 ∈ diagonals d ∧
      entry (reaches a b (d + 1)) (d + 1) k = reachOf a b d (k - 1) + 1) := by
  obtain ⟨hsource, hmem, heq⟩ | ⟨hsource, hmem, heq⟩ := entry_cases (reaches a b (d + 1)) hk
  · exact .inl ⟨hsource, hmem, by rw [heq, reaches_of_mem hmem]⟩
  · exact .inr ⟨hsource, hmem, by rw [heq, reaches_of_mem hmem]⟩

/-- Round zero has the one diagonal zero. -/
theorem eq_zero_of_mem_diagonals (hk : k ∈ diagonals 0) : k = 0 := by
  have := mem_diagonals.mp hk
  omega

/-- Every step off a diagonal goes on by one along one of the sides. -/
theorem le_two_mul_entry (hk : k ∈ diagonals d) : d + k ≤ 2 * entry (reaches a b d) d k := by
  induction d generalizing k with
  | zero =>
    have hstart : entry (reaches a b 0) 0 0 = 0 := rfl
    rw [eq_zero_of_mem_diagonals hk, hstart]
    omega
  | succ d ih =>
    obtain ⟨-, hmem, heq⟩ | ⟨-, hmem, heq⟩ := entry_reaches_cases (a := a) (b := b) hk
    · have hbefore := ih hmem
      rw [heq, reachOf]
      omega
    · have hbefore := ih hmem
      rw [heq, reachOf]
      omega

/-- So a path never leaves the grid at the near sides. -/
theorem entry_nonneg (hk : k ∈ diagonals d) :
    0 ≤ entry (reaches a b d) d k ∧ 0 ≤ entry (reaches a b d) d k - k := by
  have hfar := le_two_mul_entry (a := a) (b := b) hk
  have hrange := mem_diagonals.mp hk
  omega

/-- A reach lies on neither side before the beginning. -/
theorem reachOf_nonneg (hk : k ∈ diagonals d) : 0 ≤ reachOf a b d k ∧ 0 ≤ reachOf a b d k - k := by
  have hentry := entry_nonneg (a := a) (b := b) hk
  rw [reachOf]
  omega

/-- Only what lies within both sides is kept. -/
theorem reachOf_eq_entry_or_le (hk : k ∈ diagonals d) :
    reachOf a b d k = entry (reaches a b d) d k ∨
      entry (reaches a b d) d k < reachOf a b d k ∧
        reachOf a b d k ≤ a.length ∧ reachOf a b d k - k ≤ b.length := by
  obtain ⟨hx, hy⟩ := entry_nonneg (a := a) (b := b) hk
  have hin := kept_eq_zero_or_le (a := a) (b := b) hx hy
  rw [reachOf]
  omega

/-! ## Beyond the ends -/

/-- A round reaches at least as far as a step down from the round before. -/
theorem reachOf_le_reachOf_succ (h : k + 1 ∈ diagonals d) :
    reachOf a b d (k + 1) ≤ reachOf a b (d + 1) k := by
  have hentry := le_entry (reaches a b (d + 1)) h
  rw [reaches_of_mem h] at hentry
  rw [reachOf.eq_1 a b (d + 1) k]
  omega

/-- A round reaches at least as far as a step right from the round before. -/
theorem reachOf_lt_reachOf_succ (h : k - 1 ∈ diagonals d) :
    reachOf a b d (k - 1) < reachOf a b (d + 1) k := by
  have hentry := lt_entry (reaches a b (d + 1)) h
  rw [reaches_of_mem h] at hentry
  rw [reachOf.eq_1 a b (d + 1) k]
  omega

/-- Round zero stays within both sides. -/
theorem reachOf_zero_le (hk : k ∈ diagonals 0) :
    reachOf a b 0 k ≤ a.length ∧ reachOf a b 0 k - k ≤ b.length := by
  have hleft := commonLength_le_left a b
  have hright := commonLength_le_right a b
  rw [eq_zero_of_mem_diagonals hk, reachOf_zero]
  omega

/-- Where a reach is beyond the end of the old side, the next lower diagonal reaches almost as
far. -/
theorem exists_below_of_length_lt (hk : k ∈ diagonals d) (hbeyond : a.length < reachOf a b d k) :
    k - 2 ∈ diagonals d ∧ reachOf a b d k - 1 ≤ reachOf a b d (k - 2) := by
  induction d generalizing k with
  | zero =>
    have := (reachOf_zero_le (a := a) (b := b) hk).1
    omega
  | succ d ih =>
    have hkept := reachOf_eq_entry_or_le (a := a) (b := b) hk
    -- Wherever the path came from, a path was on diagonal `k - 1` in the round before, from which a
    -- step down leads to diagonal `k - 2`.
    have hnext : k - 2 + 1 ∈ diagonals d ∧
        reachOf a b (d + 1) k - 1 ≤ reachOf a b d (k - 2 + 1) := by
      obtain ⟨-, hmem, heq⟩ | ⟨-, hmem, heq⟩ := entry_reaches_cases (a := a) (b := b) hk
      · have hbefore := ih hmem (by omega)
        rw [show k + 1 - 2 = k - 2 + 1 by omega] at hbefore
        exact ⟨hbefore.1, by omega⟩
      · rw [show k - 1 = k - 2 + 1 by omega] at hmem heq
        exact ⟨hmem, by omega⟩
    have hdown := reachOf_le_reachOf_succ (a := a) (b := b) hnext.1
    refine ⟨?_, by omega⟩
    rw [mem_diagonals] at hnext ⊢
    omega

/-- Where a reach is beyond the end of the new side, the next higher diagonal reaches farther. -/
theorem exists_above_of_length_lt (hk : k ∈ diagonals d)
    (hbeyond : b.length < reachOf a b d k - k) :
    k + 2 ∈ diagonals d ∧ reachOf a b d k < reachOf a b d (k + 2) := by
  induction d generalizing k with
  | zero =>
    have := (reachOf_zero_le (a := a) (b := b) hk).2
    omega
  | succ d ih =>
    have hkept := reachOf_eq_entry_or_le (a := a) (b := b) hk
    have hnext : k + 2 - 1 ∈ diagonals d ∧ reachOf a b (d + 1) k ≤ reachOf a b d (k + 2 - 1) := by
      obtain ⟨-, hmem, heq⟩ | ⟨-, hmem, heq⟩ := entry_reaches_cases (a := a) (b := b) hk
      · rw [show k + 1 = k + 2 - 1 by omega] at hmem heq
        exact ⟨hmem, by omega⟩
      · have hbefore := ih hmem (by omega)
        rw [show k - 1 + 2 = k + 2 - 1 by omega] at hbefore
        exact ⟨hbefore.1, by omega⟩
    have hright := reachOf_lt_reachOf_succ (a := a) (b := b) hnext.1
    refine ⟨?_, by omega⟩
    rw [mem_diagonals] at hnext ⊢
    omega

/-! ## The far corner -/

/-- The reach of a round on a diagonal has both sides behind it. -/
def Covers (a b : List α) (d : Nat) (k : Int) : Prop :=
  a.length ≤ reachOf a b d k ∧ b.length ≤ reachOf a b d k - k

instance (a b : List α) (d : Nat) (k : Int) : Decidable (Covers a b d k) :=
  inferInstanceAs (Decidable (_ ∧ _))

/-- The first reach that has both sides behind it is the far corner. -/
theorem Covers.eq_corner (h : Covers a b d k) (hk : k ∈ diagonals d)
    (hfirst : ∀ c < d, ∀ j ∈ diagonals c, ¬ Covers a b c j) :
    reachOf a b d k = a.length ∧ k = a.length - b.length := by
  obtain ⟨hold, hnew⟩ := h
  cases d with
  | zero =>
    have := reachOf_zero_le (a := a) (b := b) hk
    omega
  | succ d =>
    have hkept := reachOf_eq_entry_or_le (a := a) (b := b) hk
    have hbefore {j : Int} (hj : j ∈ diagonals d) :
        ¬ (a.length ≤ reachOf a b d j ∧ b.length ≤ reachOf a b d j - j) := hfirst d (by omega) j hj
    -- Had a step led beyond an end, a path of the round before would have had both sides behind it:
    -- the one from which the step was taken, or the one next to it.
    obtain ⟨-, hmem, heq⟩ | ⟨-, hmem, heq⟩ := entry_reaches_cases (a := a) (b := b) hk
    · have hlast := hbefore hmem
      by_cases hbeyond : a.length < reachOf a b d (k + 1)
      · obtain ⟨hmem', hle⟩ := exists_below_of_length_lt hmem hbeyond
        have hnext := hbefore hmem'
        omega
      · omega
    · have hlast := hbefore hmem
      by_cases hbeyond : b.length < reachOf a b d (k - 1) - (k - 1)
      · obtain ⟨hmem', hlt⟩ := exists_above_of_length_lt hmem hbeyond
        have hnext := hbefore hmem'
        omega
      · omega

/-- As many rounds as there are elements on both sides are enough. -/
theorem covers_length_add_length (a b : List α) :
    (a.length : Int) - b.length ∈ diagonals (a.length + b.length) ∧
      Covers a b (a.length + b.length) (a.length - b.length) := by
  have hmem : (a.length : Int) - b.length ∈ diagonals (a.length + b.length) := by
    rw [mem_diagonals]
    omega
  have hfar := le_two_mul_entry (a := a) (b := b) hmem
  refine ⟨hmem, ?_, ?_⟩ <;> rw [reachOf] <;> omega

/-! ## No path is farther -/

/-- Nothing is kept from a reach on. -/
theorem commonLength_drop_reachOf (hk : k ∈ diagonals d) :
    commonLength (a.drop (reachOf a b d k).toNat) (b.drop (reachOf a b d k - k).toNat) = 0 := by
  obtain ⟨hx, hy⟩ := entry_nonneg (a := a) (b := b) hk
  obtain ⟨x, hxeq⟩ : ∃ x, entry (reaches a b d) d k = x := ⟨_, rfl⟩
  rw [hxeq] at hx hy
  have hold : (x + kept a b x (x - k)).toNat = x.toNat + kept a b x (x - k) := by omega
  have hnew : (x + kept a b x (x - k) - k).toNat = (x - k).toNat + kept a b x (x - k) := by omega
  rw [reachOf, hxeq, hold, hnew, ← List.drop_drop, ← List.drop_drop]
  exact commonLength_drop ..

/-- A step off a diagonal leads to a diagonal of the next round. -/
theorem mem_diagonals_succ (h : k - 1 ∈ diagonals d ∨ k + 1 ∈ diagonals d) :
    k ∈ diagonals (d + 1) := by
  simp only [mem_diagonals] at h ⊢
  omega

/-- Steps through the beginnings of both sides end on a diagonal of the round of their edits, and
not beyond the reach of the round there. -/
theorem Turns.le_reachOf {steps : List Step} {a₁ a₂ b₁ b₂ : List α} (h : Turns steps a₁ b₁)
    (ha : a = a₁ ++ a₂) (hb : b = b₁ ++ b₂) :
    (a₁.length : Int) - b₁.length ∈ diagonals (edits steps) ∧
      a₁.length ≤ reachOf a b (edits steps) (a₁.length - b₁.length) := by
  -- The last step leads from one point to the next, so the induction takes steps off the end.
  induction steps using List.reverseRecOn generalizing a₁ a₂ b₁ b₂ with
  | nil =>
    cases h
    have hmem : (0 : Int) ∈ diagonals 0 := by decide
    exact ⟨hmem, (reachOf_nonneg hmem).1⟩
  | append_singleton steps s ih =>
    obtain ⟨a₁, c, b₁, e, rfl, rfl, hsteps, hlast⟩ := h.exists_of_append
    rw [List.append_assoc] at ha hb
    obtain ⟨hmem, hle⟩ := ih hsteps ha hb
    cases hlast with
    | keep x hnil =>
      cases hnil
      have hedits : edits (steps ++ [.keep]) = edits steps := edits_append ..
      have hdiagonal : ((a₁ ++ [x]).length : Int) - (b₁ ++ [x]).length = a₁.length - b₁.length := by
        simp only [List.length_append, List.length_singleton]
        omega
      rw [hedits, hdiagonal, List.length_append, List.length_singleton]
      refine ⟨hmem, ?_⟩
      -- At the reach itself nothing is kept, so the point lies before it.
      have hne : (a₁.length : Int) ≠ reachOf a b (edits steps) (a₁.length - b₁.length) := by
        intro heq
        have hkept := commonLength_drop_reachOf (a := a) (b := b) hmem
        rw [← heq, Int.sub_sub_self, Int.toNat_natCast, Int.toNat_natCast, ha, hb, List.drop_left,
          List.drop_left, List.singleton_append, List.singleton_append, commonLength,
          if_pos rfl] at hkept
        exact Nat.succ_ne_zero _ hkept
      omega
    | delete x hnil =>
      cases hnil
      have hedits : edits (steps ++ [.delete]) = edits steps + 1 := edits_append ..
      obtain ⟨k, hk⟩ : ∃ k : Int, (a₁ ++ [x]).length - (b₁ ++ []).length = k := ⟨_, rfl⟩
      have hbefore : (a₁.length : Int) - b₁.length = k - 1 := by
        rw [← hk, List.append_nil, List.length_append, List.length_singleton]
        omega
      rw [hbefore] at hmem hle
      rw [hedits, hk, List.length_append, List.length_singleton]
      have hreach := reachOf_lt_reachOf_succ (a := a) (b := b) hmem
      exact ⟨mem_diagonals_succ (.inl hmem), by omega⟩
    | insert x hnil =>
      cases hnil
      have hedits : edits (steps ++ [.insert]) = edits steps + 1 := edits_append ..
      obtain ⟨k, hk⟩ : ∃ k : Int, (a₁ ++ []).length - (b₁ ++ [x]).length = k := ⟨_, rfl⟩
      have hbefore : (a₁.length : Int) - b₁.length = k + 1 := by
        rw [← hk, List.append_nil, List.length_append, List.length_singleton]
        omega
      rw [hbefore] at hmem hle
      rw [hedits, hk, List.append_nil]
      have hreach := reachOf_le_reachOf_succ (a := a) (b := b) hmem
      exact ⟨mem_diagonals_succ (.inr hmem), by omega⟩

/-- So the round of the edits of a script has reached the far corner. -/
theorem Turns.covers {steps : List Step} (h : Turns steps a b) :
    (a.length : Int) - b.length ∈ diagonals (edits steps) ∧
      Covers a b (edits steps) (a.length - b.length) := by
  have ha : a = a ++ [] := (List.append_nil a).symm
  have hb : b = b ++ [] := (List.append_nil b).symm
  obtain ⟨hmem, hle⟩ := h.le_reachOf ha hb
  exact ⟨hmem, hle, by omega⟩

end SourceChunks.EditScript
