/-!
# Numbers that scores are computed in

Scores, costs and statistics are computed with the few operations below, so each of them is defined
once for all kinds of number: the program computes with floating-point numbers, in which the order
of the operations decides the last bits, and statements about the same definitions can be made over
the rationals, in which they are exact.
-/

namespace SourceChunks

/-- A kind of number to compute scores in. -/
class Scalar (α : Type) extends Add α, Sub α, Div α where
  /-- The number of a whole number. -/
  ofInt : Int → α
  /-- Whether one number is below another. -/
  lt : α → α → Bool
  /-- Whether one number is at most another. -/
  le : α → α → Bool

namespace Scalar

instance : Scalar Float where
  ofInt := Float.ofInt
  lt a b := a < b
  le a b := a ≤ b

instance : Scalar Rat where
  ofInt i := i
  lt a b := a < b
  le a b := a ≤ b

variable {α : Type} [Scalar α]

/-- The number of a count. -/
def ofNat (n : Nat) : α := ofInt n

/-- The lesser of two numbers, the first one if neither is. -/
def least (a b : α) : α := if lt b a then b else a

/-- The greater of two numbers, the first one if neither is. -/
def greatest (a b : α) : α := if lt a b then b else a

/-- How much of a whole is left when a part is taken away, as a number between zero and one. -/
def complement (part whole : Nat) : α := ofNat 1 - ofNat part / ofNat whole

end Scalar

end SourceChunks
