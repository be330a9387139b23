import Mathlib.Order.Bounds.Basic
import SourceChunks.Similarity

/-!
# The fewest single edits

A single edit inserts, deletes or replaces one element anywhere in a list. The least number of them
that turn one list into another, over all sequences of edits, is computed by the first elements of
both lists: a single edit of one side changes the computed number by at most one, and a sequence of
as many edits can be read off the computation. Edits can be taken back and can be read from either
end, so the number is that of the lists in the other order and of the lists read backwards.
-/

namespace SourceChunks.EditDistance

variable {α : Type} {a b c : List α} {n : Nat}

/-- One element is inserted, deleted or replaced. -/
inductive SingleEdit : List α → List α → Prop
  | insert (before after : List α) (x : α) : SingleEdit (before ++ after) (before ++ x :: after)
  | delete (before after : List α) (x : α) : SingleEdit (before ++ x :: after) (before ++ after)
  | replace (before after : List α) (x y : α) :
    SingleEdit (before ++ x :: after) (before ++ y :: after)

namespace SingleEdit

/-- A single edit can be undone by one. -/
theorem symm (h : SingleEdit a b) : SingleEdit b a := by
  cases h with
  | insert before after x => exact .delete before after x
  | delete before after x => exact .insert before after x
  | replace before after x y => exact .replace before after y x

/-- A single edit is one behind another element, too. -/
theorem cons (z : α) (h : SingleEdit a b) : SingleEdit (z :: a) (z :: b) := by
  cases h with
  | insert before after x => exact .insert (z :: before) after x
  | delete before after x => exact .delete (z :: before) after x
  | replace before after x y => exact .replace (z :: before) after x y

/-- A single edit is one of the reversed lists. -/
theorem reverse (h : SingleEdit a b) : SingleEdit a.reverse b.reverse := by
  cases h with
  | insert before after x => simpa using insert after.reverse before.reverse x
  | delete before after x => simpa using delete after.reverse before.reverse x
  | replace before after x y => simpa using replace after.reverse before.reverse x y

end SingleEdit

/-- A number of single edits, one after the other, turns one list into another. -/
inductive EditedIn : Nat → List α → List α → Prop
  | refl (a : List α) : EditedIn 0 a a
  | tail {n : Nat} {a b c : List α} (h : EditedIn n a b) (edit : SingleEdit b c) :
    EditedIn (n + 1) a c

namespace EditedIn

/-- Edits may start with one more. -/
theorem head (edit : SingleEdit a b) (h : EditedIn n b c) : EditedIn (n + 1) a c := by
  induction h with
  | refl => exact (refl a).tail edit
  | tail _ edit' ih => exact (ih edit).tail edit'

/-- Edits can be undone by as many. -/
theorem symm (h : EditedIn n a b) : EditedIn n b a := by
  induction h with
  | refl => exact refl _
  | tail _ edit ih => exact head edit.symm ih

/-- Edits are as many behind another element. -/
theorem cons (z : α) (h : EditedIn n a b) : EditedIn n (z :: a) (z :: b) := by
  induction h with
  | refl => exact refl _
  | tail _ edit ih => exact ih.tail (edit.cons z)

/-- Edits of the reversed lists are as many. -/
theorem reverse (h : EditedIn n a b) : EditedIn n a.reverse b.reverse := by
  induction h with
  | refl => exact refl _
  | tail _ edit ih => exact ih.tail edit.reverse

/-- No edit leaves the list as it is. -/
theorem eq_of_zero (h : EditedIn 0 a b) : a = b := by
  cases h
  rfl

/-- Each edit changes the length by at most one. -/
theorem length_le (h : EditedIn n a b) : b.length ≤ a.length + n := by
  induction h with
  | refl => exact Nat.le_add_right ..
  | tail _ edit ih =>
    cases edit <;> simp only [List.length_append, List.length_cons] at ih ⊢ <;> omega

/-- A list is made of nothing by inserting its elements, the last one first. -/
theorem length_of_nil (b : List α) : EditedIn b.length [] b := by
  induction b with
  | nil => exact refl []
  | cons y b ih => exact ih.tail (.insert [] b y)

end EditedIn

/-! ## The number by the first elements -/

variable [DecidableEq α]

/-- The fewest single edits that turn one list into another: the first element of the one is
deleted, that of the other is inserted, or the two are matched, which costs nothing if they are
equal. -/
def fewestEdits : List α → List α → Nat
  | [], b => b.length
  | a, [] => a.length
  | x :: a, y :: b =>
    min (min (fewestEdits a (y :: b) + 1) (fewestEdits (x :: a) b + 1))
      (fewestEdits a b + if x = y then 0 else 1)
termination_by a b => a.length + b.length

/-- The empty list is edited by inserting all elements. -/
@[simp] theorem fewestEdits_nil_left (b : List α) : fewestEdits [] b = b.length := by
  rw [fewestEdits]

/-- The empty list is reached by deleting all elements. -/
@[simp] theorem fewestEdits_nil_right (a : List α) : fewestEdits a [] = a.length := by
  cases a with
  | nil => rw [fewestEdits]
  | cons x a =>
    rw [fewestEdits]
    exact nofun

/-- The fewest edits of two lists follow from those without their first elements. -/
theorem fewestEdits_cons_cons (x y : α) (a b : List α) :
    fewestEdits (x :: a) (y :: b) =
      min (min (fewestEdits a (y :: b) + 1) (fewestEdits (x :: a) b + 1))
        (fewestEdits a b + if x = y then 0 else 1) := by
  rw [fewestEdits]

/-- One more element on the left is at most one more edit. -/
theorem fewestEdits_cons_left_le (x : α) (a b : List α) :
    fewestEdits (x :: a) b ≤ fewestEdits a b + 1 := by
  cases b with
  | nil => simp
  | cons y b =>
    rw [fewestEdits_cons_cons]
    omega

/-- One more element on the right is at most one more edit. -/
theorem fewestEdits_cons_right_le (y : α) (a b : List α) :
    fewestEdits a (y :: b) ≤ fewestEdits a b + 1 := by
  cases a with
  | nil => simp
  | cons x a =>
    rw [fewestEdits_cons_cons]
    omega

/-- One element less on the right is at most one more edit. -/
theorem fewestEdits_le_cons_right (y : α) (a b : List α) :
    fewestEdits a b ≤ fewestEdits a (y :: b) + 1 := by
  induction a with
  | nil =>
    rw [fewestEdits_nil_left, fewestEdits_nil_left, List.length_cons]
    omega
  | cons x a ih =>
    have hleft := fewestEdits_cons_left_le x a b
    rw [fewestEdits_cons_cons]
    omega

/-- Another first element on the right is at most one more edit. -/
theorem fewestEdits_cons_right_le_cons (x y : α) (a b : List α) :
    fewestEdits a (y :: b) ≤ fewestEdits a (x :: b) + 1 := by
  induction a with
  | nil => simp
  | cons z a ih =>
    rw [fewestEdits_cons_cons, fewestEdits_cons_cons]
    split <;> omega

/-- What a change of the right side costs at most, it costs at most behind a common element. -/
theorem fewestEdits_cons_right_mono (z : α) (h : ∀ a, fewestEdits a c ≤ fewestEdits a b + 1)
    (a : List α) : fewestEdits a (z :: c) ≤ fewestEdits a (z :: b) + 1 := by
  induction a with
  | nil => simpa using h []
  | cons x a ih =>
    have htail := h a
    have hcons := h (x :: a)
    rw [fewestEdits_cons_cons, fewestEdits_cons_cons]
    omega

/-- A single edit of the right side changes the number by at most one. -/
theorem SingleEdit.fewestEdits_le (h : SingleEdit b c) (a : List α) :
    fewestEdits a c ≤ fewestEdits a b + 1 := by
  have hbefore {b c : List α} (before : List α)
      (h : ∀ a, fewestEdits a c ≤ fewestEdits a b + 1) (a : List α) :
      fewestEdits a (before ++ c) ≤ fewestEdits a (before ++ b) + 1 := by
    induction before generalizing a with
    | nil => exact h a
    | cons z before ih => exact fewestEdits_cons_right_mono z ih a
  cases h with
  | insert before after x => exact hbefore before (fewestEdits_cons_right_le x · after) a
  | delete before after x => exact hbefore before (fewestEdits_le_cons_right x · after) a
  | replace before after x y =>
    exact hbefore before (fewestEdits_cons_right_le_cons x y · after) a

/-- A list needs no edit to be itself. -/
@[simp] theorem fewestEdits_self (a : List α) : fewestEdits a a = 0 := by
  induction a with
  | nil => simp
  | cons x a ih =>
    rw [fewestEdits_cons_cons, ih, if_pos rfl]
    omega

/-- No sequence of edits is shorter. -/
theorem EditedIn.fewestEdits_le (h : EditedIn n a b) : fewestEdits a b ≤ n := by
  induction h with
  | refl a => exact (fewestEdits_self a).le
  | tail _ edit ih => exact (edit.fewestEdits_le _).trans (Nat.succ_le_succ ih)

/-- Some sequence of edits is as short. -/
theorem editedIn_fewestEdits (a b : List α) : EditedIn (fewestEdits a b) a b := by
  fun_induction fewestEdits a b with
  | case1 b => exact .length_of_nil b
  | case2 a => exact (EditedIn.length_of_nil a).symm
  | case3 x a y b ihdelete ihinsert ihmatch =>
    have hdelete : EditedIn (fewestEdits a (y :: b) + 1) (x :: a) (y :: b) :=
      .head (.delete [] a x) ihdelete
    have hinsert : EditedIn (fewestEdits (x :: a) b + 1) (x :: a) (y :: b) :=
      ihinsert.tail (.insert [] b y)
    have hmatch : EditedIn (fewestEdits a b + if x = y then 0 else 1) (x :: a) (y :: b) := by
      split
      · next heq => exact heq ▸ ihmatch.cons x
      · exact .head (.replace [] a x y) (ihmatch.cons y)
    have hother := min_rec' (EditedIn · (x :: a) (y :: b)) hdelete hinsert
    exact min_rec' (EditedIn · (x :: a) (y :: b)) hother hmatch

/-- The number is the least over all sequences of edits. -/
theorem isLeast_fewestEdits (a b : List α) :
    IsLeast {n | EditedIn n a b} (fewestEdits a b) :=
  ⟨editedIn_fewestEdits a b, fun _ h => h.fewestEdits_le⟩

/-! ## Laws of the number -/

/-- The fewest edits do not depend on the order of the lists. -/
theorem fewestEdits_comm (a b : List α) : fewestEdits a b = fewestEdits b a :=
  Nat.le_antisymm (editedIn_fewestEdits b a).symm.fewestEdits_le
    (editedIn_fewestEdits a b).symm.fewestEdits_le

/-- Read backwards, lists are as far apart as before. -/
theorem fewestEdits_reverse (a b : List α) :
    fewestEdits a.reverse b.reverse = fewestEdits a b := by
  have hle (a b : List α) : fewestEdits a.reverse b.reverse ≤ fewestEdits a b :=
    (editedIn_fewestEdits a b).reverse.fewestEdits_le
  refine Nat.le_antisymm (hle a b) ?_
  simpa using hle a.reverse b.reverse

/-- Only equal lists are turned into each other without an edit. -/
theorem fewestEdits_eq_zero_iff : fewestEdits a b = 0 ↔ a = b := by
  constructor
  · intro h
    exact (h ▸ editedIn_fewestEdits a b).eq_of_zero
  · rintro rfl
    exact fewestEdits_self a

/-- Every element of the longer list is inserted, deleted or matched at most once. -/
theorem fewestEdits_le_max (a b : List α) : fewestEdits a b ≤ max a.length b.length := by
  fun_induction fewestEdits a b with
  | case1 b => simp
  | case2 a => simp
  | case3 x a y b _ _ ih =>
    simp only [List.length_cons]
    split <;> omega

/-- The lengths alone call for so many edits. -/
theorem max_sub_min_le_fewestEdits (a b : List α) :
    max a.length b.length - min a.length b.length ≤ fewestEdits a b := by
  have hedits := editedIn_fewestEdits a b
  have hright := hedits.length_le
  have hleft := hedits.symm.length_le
  omega

end SourceChunks.EditDistance
