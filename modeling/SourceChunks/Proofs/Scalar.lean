import Mathlib.Algebra.Order.Field.Basic
import Mathlib.Algebra.Order.Ring.Rat
import Mathlib.Data.Rat.Cast.Order
import SourceChunks.Scalar

/-!
# Scores in exact numbers

Over the rationals the operations that scores are computed with are the ordinary ones, so what is
proved in exact numbers is about the same definitions that the program computes with.
-/

namespace SourceChunks.Scalar

/-- A whole number is itself as a rational. -/
@[simp] theorem ofInt_rat (i : Int) : (ofInt i : Rat) = i := rfl

/-- A natural number is itself as a rational. -/
@[simp] theorem ofNat_rat (n : Nat) : (ofNat n : Rat) = n := rfl

/-- The test of rationals is their order. -/
@[simp] theorem lt_rat (a b : Rat) : lt a b = decide (a < b) := rfl

/-- The test of rationals, equality included, is their order. -/
@[simp] theorem le_rat (a b : Rat) : le a b = decide (a ≤ b) := rfl

/-- The lesser of two rationals is their minimum. -/
@[simp] theorem least_rat (a b : Rat) : least a b = min a b := by
  rw [least, lt_rat, min_comm, min_def_lt]
  simp only [decide_eq_true_eq]

/-- The greater of two rationals is their maximum. -/
@[simp] theorem greatest_rat (a b : Rat) : greatest a b = max a b := by
  rw [greatest, lt_rat, max_def_lt]
  simp only [decide_eq_true_eq]

/-- The complement of a part is what it lacks to one. -/
theorem complement_rat (part whole : Nat) : (complement part whole : Rat) = 1 - part / whole := by
  show ((ofNat 1 : Rat) - ofNat part / ofNat whole) = _
  simp

/-- The more is taken away, the less is left. -/
theorem complement_le_complement {part part' : Nat} (h : part ≤ part') (whole : Nat) :
    (complement part' whole : Rat) ≤ complement part whole := by
  rw [complement_rat, complement_rat]
  have hcast : (part : Rat) ≤ part' := Nat.cast_le.mpr h
  exact sub_le_sub_left (div_le_div_of_nonneg_right hcast (Nat.cast_nonneg whole)) 1

end SourceChunks.Scalar
