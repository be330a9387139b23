/-!
# Double-precision numbers by their bits

A number of a document is kept as the 64 bits of its IEEE 754 double, and everything that reading
and writing needs is exact arithmetic on natural numbers: a finite number is
`± significand * 2 ^ scale`, and a ratio is rounded to the nearest such number, a tie going to the
even significand.
-/

namespace SourceChunks

/-- A double-precision number, given by its bits. -/
structure Binary64 where
  /-- Sign bit, eleven bits of exponent, 52 bits of fraction. -/
  bits : UInt64
  deriving DecidableEq, Repr, Inhabited

namespace Binary64

/-- Whether the sign bit is set. -/
def isNegative (x : Binary64) : Bool := x.bits >>> 63 == 1

/-- The exponent field. -/
def exponentField (x : Binary64) : Nat := (x.bits >>> 52).toNat % 2048

/-- The fraction field. -/
def fractionField (x : Binary64) : Nat := x.bits.toNat % Nat.pow 2 52

/-- Neither infinite nor not-a-number. -/
def isFinite (x : Binary64) : Bool := x.exponentField ≠ 2047

/-- Not-a-number. -/
def isNaN (x : Binary64) : Bool := x.exponentField == 2047 && x.fractionField ≠ 0

/-- Either of the two zeros. -/
def isZero (x : Binary64) : Bool := x.exponentField == 0 && x.fractionField == 0

/-- The whole number that the magnitude is a power of two times of. -/
def significand (x : Binary64) : Nat :=
  if x.exponentField = 0 then x.fractionField else Nat.pow 2 52 + x.fractionField

/-- The exponent of that power of two. -/
def scale (x : Binary64) : Int := (max x.exponentField 1 : Nat) - 1075

/-- Positive infinity as bits of a magnitude. -/
def infinityBits : Nat := 2047 * Nat.pow 2 52

/-- The quotient of two whole numbers, rounded to the nearest one, a tie to the even one. -/
def roundDiv (num den : Nat) : Nat :=
  let quotient := num / den
  let rest := num % den
  if den < 2 * rest ∨ (den = 2 * rest ∧ quotient % 2 = 1) then quotient + 1 else quotient

/-- `num * 2 ^ e` over `den`, as a pair of whole numbers. -/
def shiftRatio (num den : Nat) (e : Int) : Nat × Nat :=
  (num * Nat.pow 2 e.toNat, den * Nat.pow 2 (-e).toNat)

/-- The exponent at which a ratio has a significand of 53 bits, or the least exponent there is. -/
def scaleOfRatio (num den : Nat) : Int :=
  let low : Int := (num.log2 : Int) - den.log2 - 53
  let (n, d) := shiftRatio num den (-low)
  max (if Nat.pow 2 53 * d ≤ n then low + 1 else low) (-1074)

/-- The bits of the double nearest to a ratio of whole numbers. A significand that rounds up to 54
bits carries into the exponent field, where it belongs. -/
def magnitudeOfRatio (num den : Nat) : Nat :=
  if num = 0 then 0
  else
    let e := scaleOfRatio num den
    let (n, d) := shiftRatio num den (-e)
    min ((e + 1074).toNat * Nat.pow 2 52 + roundDiv n d) infinityBits

/-- A double from its sign and the bits of its magnitude. -/
def ofMagnitude (negative : Bool) (magnitude : Nat) : Binary64 :=
  ⟨(if negative then 0x8000000000000000 else 0) ||| magnitude.toUInt64⟩

/-- The double nearest to `± digits * 10 ^ exponent`. Beyond the exponents of doubles the answer is
infinite or zero whatever the digits are, which keeps the powers of ten small. -/
def ofDecimal (negative : Bool) (digits : Nat) (exponent : Int) : Binary64 :=
  ofMagnitude negative <|
    if digits = 0 then 0
    else if 400 < exponent then infinityBits
    else if exponent < -((digits.log2 : Int) + 400) then 0
    else magnitudeOfRatio (digits * Nat.pow 10 exponent.toNat) (Nat.pow 10 (-exponent).toNat)

/-- The double nearest to a whole number. -/
def ofInt (i : Int) : Binary64 := ofMagnitude (i < 0) (magnitudeOfRatio i.natAbs 1)

/-- Numeric equality of doubles: the two zeros are equal, and not-a-number equals nothing. -/
def equal (x y : Binary64) : Bool := !x.isNaN && !y.isNaN && (x == y || (x.isZero && y.isZero))

/-- The whole number next to a finite double in the direction of zero. -/
def truncate (x : Binary64) : Int :=
  let (n, d) := shiftRatio x.significand 1 x.scale
  if x.isNegative then -(n / d : Nat) else (n / d : Nat)

/-- The floating-point value with these bits. -/
def toFloat (x : Binary64) : Float := Float.ofBits x.bits

/-- The bits of a floating-point value. -/
def ofFloat (x : Float) : Binary64 := ⟨x.toBits⟩

end Binary64

end SourceChunks
