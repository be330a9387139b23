import SourceChunks.EditScript

/-!
# Lists of steps

A list of steps turns one list into another if it goes through both at once: what is kept is on both
sides, what is deleted is on the old side only, and what is inserted is on the new side only. Steps
can be put together, turned round and taken apart with the lists that they turn into each other.
-/

namespace SourceChunks.EditScript

variable {α : Type} {a a' b b' : List α} {steps steps' : List Step}

/-- The steps turn the first list into the second one. -/
inductive Turns : List Step → List α → List α → Prop
  | nil : Turns [] [] []
  | keep (x : α) {steps : List Step} {a b : List α} (h : Turns steps a b) :
    Turns (.keep :: steps) (x :: a) (x :: b)
  | delete (x : α) {steps : List Step} {a b : List α} (h : Turns steps a b) :
    Turns (.delete :: steps) (x :: a) b
  | insert (x : α) {steps : List Step} {a b : List α} (h : Turns steps a b) :
    Turns (.insert :: steps) a (x :: b)

/-! ## Steps of one kind -/

/-- What is the same on both sides is kept. -/
theorem turns_replicate_keep (h : Turns steps a b) (l : List α) :
    Turns (List.replicate l.length .keep ++ steps) (l ++ a) (l ++ b) := by
  induction l with
  | nil => exact h
  | cons x rest ih => exact .keep x ih

/-- Deleting a list first makes room for it before the old one. -/
theorem turns_replicate_delete (h : Turns steps a b) (l : List α) :
    Turns (List.replicate l.length .delete ++ steps) (l ++ a) b := by
  induction l with
  | nil => exact h
  | cons x rest ih => exact .delete x ih

/-- Inserting a list first puts it before the new one. -/
theorem turns_replicate_insert (h : Turns steps a b) (l : List α) :
    Turns (List.replicate l.length .insert ++ steps) a (l ++ b) := by
  induction l with
  | nil => exact h
  | cons x rest ih => exact .insert x ih

namespace Turns

/-! ## Putting together and taking apart -/

/-- Steps for the front and then for the rest turn the whole lists. -/
theorem append (h : Turns steps a b) (h' : Turns steps' a' b') :
    Turns (steps ++ steps') (a ++ a') (b ++ b') := by
  induction h with
  | nil => exact h'
  | keep x _ ih => exact .keep x ih
  | delete x _ ih => exact .delete x ih
  | insert x _ ih => exact .insert x ih

/-- The steps from the end turn the lists from their ends into each other. -/
theorem reverse (h : Turns steps a b) : Turns steps.reverse a.reverse b.reverse := by
  induction h with
  | nil => exact .nil
  | keep x _ ih =>
    rw [List.reverse_cons, List.reverse_cons, List.reverse_cons]
    exact ih.append (.keep x .nil)
  | delete x _ ih =>
    have h := ih.append (.delete x .nil)
    rwa [List.append_nil, ← List.reverse_cons, ← List.reverse_cons] at h
  | insert x _ ih =>
    have h := ih.append (.insert x .nil)
    rwa [List.append_nil, ← List.reverse_cons, ← List.reverse_cons] at h

/-- Steps that go on turn the rests of the lists into each other. -/
theorem exists_of_append (h : Turns (steps ++ steps') a b) :
    ∃ a₁ a₂ b₁ b₂, a = a₁ ++ a₂ ∧ b = b₁ ++ b₂ ∧ Turns steps a₁ b₁ ∧ Turns steps' a₂ b₂ := by
  induction steps generalizing a b with
  | nil => exact ⟨[], a, [], b, rfl, rfl, .nil, h⟩
  | cons s rest ih =>
    cases h with
    | keep x h =>
      obtain ⟨a₁, a₂, b₁, b₂, rfl, rfl, hfirst, hsecond⟩ := ih h
      exact ⟨x :: a₁, a₂, x :: b₁, b₂, rfl, rfl, .keep x hfirst, hsecond⟩
    | delete x h =>
      obtain ⟨a₁, a₂, b₁, b₂, rfl, rfl, hfirst, hsecond⟩ := ih h
      exact ⟨x :: a₁, a₂, b₁, b₂, rfl, rfl, .delete x hfirst, hsecond⟩
    | insert x h =>
      obtain ⟨a₁, a₂, b₁, b₂, rfl, rfl, hfirst, hsecond⟩ := ih h
      exact ⟨a₁, a₂, x :: b₁, b₂, rfl, rfl, .insert x hfirst, hsecond⟩

/-! ## Counting -/

/-- The old list has an element for each step that keeps or deletes. -/
theorem length_old (h : Turns steps a b) :
    a.length = steps.count .keep + steps.count .delete := by
  induction h with
  | nil => rfl
  | keep x _ ih => simp [ih]; omega
  | delete x _ ih => simp [ih]; omega
  | insert x _ ih => simp [ih]

/-- The new list has an element for each step that keeps or inserts. -/
theorem length_new (h : Turns steps a b) :
    b.length = steps.count .keep + steps.count .insert := by
  induction h with
  | nil => rfl
  | keep x _ ih => simp [ih]; omega
  | delete x _ ih => simp [ih]
  | insert x _ ih => simp [ih]; omega

/-- Where all is kept both sides are the same. -/
theorem eq_of_forall_keep (h : Turns steps a b) (hkeep : ∀ s ∈ steps, s = .keep) : a = b := by
  induction h with
  | nil => rfl
  | keep x _ ih => rw [ih fun s hs => hkeep s (List.mem_cons_of_mem _ hs)]
  | delete => exact absurd (hkeep .delete (List.mem_cons_self ..)) nofun
  | insert => exact absurd (hkeep .insert (List.mem_cons_self ..)) nofun

end Turns

/-- The number of deletions and insertions. -/
def edits (steps : List Step) : Nat := steps.countP fun s => s ≠ .keep

/-- A step that does not keep is one more edit. -/
theorem edits_cons_of_ne {s : Step} (hs : s ≠ .keep) (steps : List Step) :
    edits (s :: steps) = edits steps + 1 := by
  simp [edits, hs]

/-- Steps that keep are no edits. -/
theorem edits_replicate_keep_append (n : Nat) (steps : List Step) :
    edits (List.replicate n .keep ++ steps) = edits steps := by
  simp [edits]

/-- Edits of two parts add up. -/
theorem edits_append (steps steps' : List Step) :
    edits (steps ++ steps') = edits steps + edits steps' := List.countP_append ..

/-- Edits are as many in the reverse order. -/
theorem edits_reverse (steps : List Step) : edits steps.reverse = edits steps :=
  List.countP_reverse ..

/-- Each edit deletes or inserts. -/
theorem edits_eq (steps : List Step) : edits steps = steps.count .delete + steps.count .insert := by
  induction steps with
  | nil => rfl
  | cons s rest ih => cases s <;> simp [edits] at ih ⊢ <;> omega

/-- What is kept is on both sides, and all else on one side is an edit. -/
theorem Turns.edits_add (h : Turns steps a b) :
    edits steps + 2 * steps.count .keep = a.length + b.length := by
  have hold := h.length_old
  have hnew := h.length_new
  rw [edits_eq]
  omega

/-! ## Common beginnings -/

section Common

variable [DecidableEq α]

/-- The common start is no longer than the first list. -/
theorem commonLength_le_left (a b : List α) : commonLength a b ≤ a.length := by
  fun_induction commonLength a b with
  | case1 as b bs ih =>
    rw [List.length_cons]
    omega
  | case2 => exact Nat.zero_le _
  | case3 => exact Nat.zero_le _

/-- The common start is no longer than the second list. -/
theorem commonLength_le_right (a b : List α) : commonLength a b ≤ b.length := by
  fun_induction commonLength a b with
  | case1 as b bs ih =>
    rw [List.length_cons]
    omega
  | case2 => exact Nat.zero_le _
  | case3 => exact Nat.zero_le _

/-- The lists begin with the same elements as far as their common length says. -/
theorem exists_append_drop_commonLength (a b : List α) :
    ∃ l, l.length = commonLength a b ∧ a = l ++ a.drop (commonLength a b) ∧
      b = l ++ b.drop (commonLength a b) := by
  fun_induction commonLength a b with
  | case1 as b bs ih =>
    obtain ⟨l, hlength, hleft, hright⟩ := ih
    refine ⟨b :: l, by rw [List.length_cons, hlength], ?_, ?_⟩
    · rw [List.drop_succ_cons, List.cons_append, ← hleft]
    · rw [List.drop_succ_cons, List.cons_append, ← hright]
  | case2 => exact ⟨[], rfl, rfl, rfl⟩
  | case3 => exact ⟨[], rfl, rfl, rfl⟩

/-- They end with the same elements as far as their reverses begin alike. -/
theorem exists_take_append_commonLength (a b : List α) :
    ∃ l, l.length = commonLength a.reverse b.reverse ∧
      a = a.take (a.length - commonLength a.reverse b.reverse) ++ l ∧
      b = b.take (b.length - commonLength a.reverse b.reverse) ++ l := by
  obtain ⟨l, hlength, hleft, hright⟩ := exists_append_drop_commonLength a.reverse b.reverse
  rw [List.drop_reverse] at hleft hright
  refine ⟨l.reverse, by rw [List.length_reverse, hlength], ?_, ?_⟩
  · rw [← List.reverse_inj, List.reverse_append, List.reverse_reverse, ← hleft]
  · rw [← List.reverse_inj, List.reverse_append, List.reverse_reverse, ← hright]

/-- Beyond that they have nothing in common. -/
theorem commonLength_drop (a b : List α) :
    commonLength (a.drop (commonLength a b)) (b.drop (commonLength a b)) = 0 := by
  fun_induction commonLength a b with
  | case1 as b bs ih => rwa [List.drop_succ_cons, List.drop_succ_cons]
  | case2 a as b bs hne => exact if_neg hne
  | case3 a b hcons =>
    cases a with
    | nil => rfl
    | cons x as =>
      cases b with
      | nil => rfl
      | cons y bs => exact absurd rfl (hcons x as y bs rfl)

/-- Steps between lists that have nothing in common at the front do not begin by keeping. -/
theorem Turns.head?_ne_keep (h : Turns steps a b) (hcommon : commonLength a b = 0) :
    steps.head? ≠ some .keep := by
  cases h with
  | keep x h =>
    rw [commonLength, if_pos rfl] at hcommon
    exact absurd hcommon (Nat.succ_ne_zero _)
  | nil | delete | insert => exact nofun

end Common

end SourceChunks.EditScript
