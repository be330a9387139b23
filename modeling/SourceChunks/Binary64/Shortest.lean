import SourceChunks.Binary64
import SourceChunks.Bytes

/-!
# Shortest decimal digits of a double

The digits written for a double are the fewest that read back as it, and among equally many the
ones nearest to it. For each number of digits the decimal grid has at most two points next to the
value, so the first grid with a point inside the interval that rounds to the double decides.
-/

namespace SourceChunks.Binary64

/-- A positive decimal number, `digits * 10 ^ exponent`. -/
structure Decimal where
  /-- The digits as one whole number. -/
  digits : Nat
  /-- The power of ten that they are multiplied by. -/
  exponent : Int
  deriving DecidableEq, Repr

/-- The decimal without zeros at the end of its digits, of which there are at most `fuel`. -/
def Decimal.stripZeros : Nat → Decimal → Decimal
  | 0, d => d
  | fuel + 1, d =>
    if d.digits % 10 = 0 ∧ d.digits ≠ 0 then stripZeros fuel ⟨d.digits / 10, d.exponent + 1⟩ else d

/-- The values that round to a positive double: the double itself and the ends of the interval, all
over one denominator, and whether the ends belong to it. -/
structure Neighbourhood where
  /-- The numerator of the lower end. -/
  low : Nat
  /-- The numerator of the value. -/
  mid : Nat
  /-- The numerator of the upper end. -/
  high : Nat
  /-- The common denominator. -/
  den : Nat
  /-- Whether the ends round to the double too, as they do if its significand is even. -/
  closed : Bool

/-- Below the least significand the doubles lie twice as close, so the interval is half as long on
that side. -/
def neighbourhood (x : Binary64) : Neighbourhood :=
  let m := x.significand
  let step := if m = Nat.pow 2 52 ∧ x.scale ≠ -1074 then 1 else 2
  let up := Nat.pow 2 (x.scale - 2).toNat
  ⟨(4 * m - step) * up, 4 * m * up, (4 * m + 2) * up, Nat.pow 2 (2 - x.scale).toNat, m % 2 = 0⟩

/-- Whether `n * 10 ^ exponent` rounds to the double. -/
def Neighbourhood.holds (r : Neighbourhood) (n : Nat) (exponent : Int) : Bool :=
  let value := n * Nat.pow 10 exponent.toNat * r.den
  let unit := Nat.pow 10 (-exponent).toNat
  if r.closed then r.low * unit ≤ value && value ≤ r.high * unit
  else r.low * unit < value && value < r.high * unit

/-- The least `p` from `start` on with the value below `10 ^ p`, if there is one within `fuel`. -/
def Neighbourhood.magnitude (r : Neighbourhood) : Nat → Int → Int
  | 0, start => start
  | fuel + 1, start =>
    if r.mid * Nat.pow 10 (-start).toNat < r.den * Nat.pow 10 start.toNat then start
    else magnitude r fuel (start + 1)

/-- The point of the grid of `10 ^ exponent` that rounds to the double; of two the nearer one, and
of two equally near ones the even one. -/
def Neighbourhood.pick? (r : Neighbourhood) (exponent : Int) : Option Decimal :=
  let num := r.mid * Nat.pow 10 (-exponent).toNat
  let den := r.den * Nat.pow 10 exponent.toNat
  let below := num / den
  match r.holds below exponent, r.holds (below + 1) exponent with
  | true, true => some ⟨roundDiv num den, exponent⟩
  | true, false => some ⟨below, exponent⟩
  | false, true => some ⟨below + 1, exponent⟩
  | false, false => none

/-- The shortest decimal that reads back as a positive finite double. Seventeen digits always
suffice. -/
def shortest (x : Binary64) : Decimal :=
  let r := x.neighbourhood
  let start := ((r.mid.log2 : Int) - r.den.log2 - 1) * 30103 / 100000 - 1
  let p := r.magnitude 5 start
  let grids := (List.range 17).map fun (n : Nat) => p - 1 - n
  ((grids.findSome? r.pick?).getD ⟨0, 0⟩).stripZeros 17

end SourceChunks.Binary64
