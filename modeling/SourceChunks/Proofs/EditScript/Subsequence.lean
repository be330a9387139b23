import Mathlib.Order.Bounds.Basic
import SourceChunks.Proofs.EditScript.Steps

/-!
# Longest common subsequences

What a script keeps is a common subsequence of both sides, and every common subsequence is what some
script keeps. So the least number of edits is the number of elements on both sides without twice the
length of a longest common subsequence. What both sides begin or end with does not change it.
-/

namespace SourceChunks.EditScript

variable {α : Type} {a b : List α}

/-- What steps keep is a common subsequence. -/
theorem Turns.exists_sublist {steps : List Step} (h : Turns steps a b) :
    ∃ l : List α, l.Sublist a ∧ l.Sublist b ∧ l.length = steps.count .keep := by
  induction h with
  | nil => exact ⟨[], .slnil, .slnil, rfl⟩
  | keep x _ ih =>
    obtain ⟨l, hold, hnew, hlength⟩ := ih
    exact ⟨x :: l, hold.cons_cons x, hnew.cons_cons x, by simp [hlength]⟩
  | delete x _ ih =>
    obtain ⟨l, hold, hnew, hlength⟩ := ih
    exact ⟨l, hold.cons x, hnew, by simp [hlength]⟩
  | insert x _ ih =>
    obtain ⟨l, hold, hnew, hlength⟩ := ih
    exact ⟨l, hold, hnew.cons x, by simp [hlength]⟩

variable [DecidableEq α]

/-- The length of a longest common subsequence of two lists. -/
def lcsLength : List α → List α → Nat
  | x :: a, y :: b =>
    if x = y then lcsLength a b + 1 else max (lcsLength a (y :: b)) (lcsLength (x :: a) b)
  | _, _ => 0
termination_by a b => a.length + b.length

/-- No common subsequence is longer. -/
theorem length_le_lcsLength {l : List α} (hold : l.Sublist a) (hnew : l.Sublist b) :
    l.length ≤ lcsLength a b := by
  fun_induction lcsLength a b generalizing l with
  | case1 a y b ih =>
    have hrest := ih hold.tail hnew.tail
    rw [List.length_tail] at hrest
    omega
  | case2 x a y b hne ihold ihnew =>
    -- The first element of the subsequence is not that of both sides.
    rcases List.sublist_cons_iff.mp hold with hold' | ⟨rest, rfl, -⟩
    · exact (ihold hold' hnew).trans (Nat.le_max_left ..)
    · rcases List.sublist_cons_iff.mp hnew with hnew' | ⟨rest', heq, -⟩
      · exact (ihnew hold hnew').trans (Nat.le_max_right ..)
      · exact absurd (List.cons.inj heq).1 hne
  | case3 a b hnil =>
    cases a with
    | nil => rw [List.sublist_nil.mp hold, List.length_nil]
    | cons x a =>
      cases b with
      | nil => rw [List.sublist_nil.mp hnew, List.length_nil]
      | cons y b => exact absurd rfl (hnil x a y b rfl)

/-- Some steps keep as much. -/
theorem exists_turns_lcsLength (a b : List α) :
    ∃ steps, Turns steps a b ∧ steps.count .keep = lcsLength a b := by
  fun_induction lcsLength a b with
  | case1 a y b ih =>
    obtain ⟨steps, hturns, hcount⟩ := ih
    exact ⟨.keep :: steps, .keep y hturns, by simp [hcount]⟩
  | case2 x a y b hne ihold ihnew =>
    obtain ⟨steps, hturns, hcount⟩ := ihold
    obtain ⟨steps', hturns', hcount'⟩ := ihnew
    rcases Nat.le_total (lcsLength (x :: a) b) (lcsLength a (y :: b)) with hle | hle
    · exact ⟨.delete :: steps, .delete x hturns, by simp [hcount, Nat.max_eq_left hle]⟩
    · exact ⟨.insert :: steps', .insert y hturns', by simp [hcount', Nat.max_eq_right hle]⟩
  | case3 a b hnil =>
    have hsteps := turns_replicate_delete (turns_replicate_insert .nil b) a
    refine ⟨_, by simpa using hsteps, by simp [List.count_replicate]⟩

/-- A longest common subsequence has this length. -/
theorem isGreatest_lcsLength (a b : List α) :
    IsGreatest {n | ∃ l : List α, l.Sublist a ∧ l.Sublist b ∧ l.length = n} (lcsLength a b) := by
  refine ⟨?_, ?_⟩
  · obtain ⟨steps, hturns, hcount⟩ := exists_turns_lcsLength a b
    rw [← hcount]
    exact hturns.exists_sublist
  · rintro n ⟨l, hold, hnew, rfl⟩
    exact length_le_lcsLength hold hnew

/-! ## The least number of edits -/

/-- How many elements are deleted and inserted at least. -/
def leastEdits (a b : List α) : Nat := a.length + b.length - 2 * lcsLength a b

/-- No script has fewer edits, and some script has as many. -/
theorem isLeast_leastEdits (a b : List α) :
    IsLeast {n | ∃ steps, Turns steps a b ∧ edits steps = n} (leastEdits a b) := by
  refine ⟨?_, ?_⟩
  · obtain ⟨steps, hturns, hcount⟩ := exists_turns_lcsLength a b
    have hedits := hturns.edits_add
    exact ⟨steps, hturns, by rw [leastEdits, ← hcount]; omega⟩
  · rintro n ⟨steps, hturns, rfl⟩
    have hedits := hturns.edits_add
    obtain ⟨l, hold, hnew, hlength⟩ := hturns.exists_sublist
    have hle := length_le_lcsLength hold hnew
    rw [leastEdits]
    omega

/-- A common first element costs no edit. -/
theorem leastEdits_cons_cons (x : α) (a b : List α) :
    leastEdits (x :: a) (x :: b) = leastEdits a b := by
  rw [leastEdits, leastEdits, lcsLength, if_pos rfl, List.length_cons, List.length_cons]
  omega

/-- What both sides begin with is kept. -/
theorem leastEdits_append_left (l a b : List α) :
    leastEdits (l ++ a) (l ++ b) = leastEdits a b := by
  induction l with
  | nil => rfl
  | cons x rest ih => rw [List.cons_append, List.cons_append, leastEdits_cons_cons, ih]

/-- Scripts can be read from their ends. -/
theorem leastEdits_reverse (a b : List α) : leastEdits a.reverse b.reverse = leastEdits a b := by
  have hle (a b : List α) : leastEdits a.reverse b.reverse ≤ leastEdits a b := by
    obtain ⟨steps, hturns, hedits⟩ := (isLeast_leastEdits a b).1
    exact (isLeast_leastEdits _ _).2 ⟨_, hturns.reverse, (edits_reverse steps).trans hedits⟩
  have hge := hle a.reverse b.reverse
  rw [List.reverse_reverse, List.reverse_reverse] at hge
  exact Nat.le_antisymm (hle a b) hge

/-- What both sides end with is kept. -/
theorem leastEdits_append_right (l a b : List α) :
    leastEdits (a ++ l) (b ++ l) = leastEdits a b := by
  rw [← leastEdits_reverse, List.reverse_append, List.reverse_append, leastEdits_append_left,
    leastEdits_reverse]

end SourceChunks.EditScript
