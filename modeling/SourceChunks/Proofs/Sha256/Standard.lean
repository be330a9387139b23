import Mathlib.Data.Fin.VecNotation
import Mathlib.Data.Nat.NthRoot.Defs
import Mathlib.Data.Nat.Nth
import Mathlib.Data.Nat.Prime.Defs

/-!
# The hash that the standard defines

FIPS 180-4 defines SHA-256 for reading, not for speed: a block has a schedule of sixty-four words,
the working variables have names, and the constants are said to be digits of roots of primes. These
are its definitions. None of them is made of those that compute a digest.
-/

namespace SourceChunks.Sha256.Standard

/-- A word of 32 bits. Words are added modulo `2 ^ 32`. -/
abbrev Word := BitVec 32

/-! ## Functions and constants -/

/-- `Ch` in the standard. -/
def choose (x y z : Word) : Word := (x &&& y) ^^^ (~~~x &&& z)

/-- `Maj` in the standard. -/
def majority (x y z : Word) : Word := (x &&& y) ^^^ (x &&& z) ^^^ (y &&& z)

/-- `Σ₀` in the standard. -/
def bigSigma0 (x : Word) : Word := x.rotateRight 2 ^^^ x.rotateRight 13 ^^^ x.rotateRight 22

/-- `Σ₁` in the standard. -/
def bigSigma1 (x : Word) : Word := x.rotateRight 6 ^^^ x.rotateRight 11 ^^^ x.rotateRight 25

/-- `σ₀` in the standard. -/
def smallSigma0 (x : Word) : Word := x.rotateRight 7 ^^^ x.rotateRight 18 ^^^ (x >>> 3)

/-- `σ₁` in the standard. -/
def smallSigma1 (x : Word) : Word := x.rotateRight 17 ^^^ x.rotateRight 19 ^^^ (x >>> 10)

/-- The first 32 bits of the fractional part of a root of `n`, such as its square root if `k` is
two. The root of `n * 2 ^ (32 * k)` is that of `n` with the point moved by 32 places, and the word
leaves out what was before the point. -/
def rootBits (k n : ℕ) : Word := BitVec.ofNat 32 (Nat.nthRoot k (n * 2 ^ (32 * k)))

/-- `K` in the standard, from the cube roots of the primes. -/
noncomputable def roundConstant (t : ℕ) : Word := rootBits 3 (Nat.nth Nat.Prime t)

/-- The hash value to begin with, from the square roots of the first eight primes. -/
noncomputable def initialHash (i : Fin 8) : Word := rootBits 2 (Nat.nth Nat.Prime i)

/-! ## One block -/

/-- A block is read as sixteen words, the first byte of each being its most significant one. -/
def parse (block : Vector UInt8 64) (i : Fin 16) : Word :=
  block[4 * i.val].toBitVec ++ block[4 * i.val + 1].toBitVec ++ block[4 * i.val + 2].toBitVec ++
    block[4 * i.val + 3].toBitVec

/-- `W` in the standard, the whole message schedule. -/
def schedule (message : Fin 16 → Word) (t : ℕ) : Word :=
  if ht : t < 16 then message ⟨t, ht⟩
  else
    smallSigma1 (schedule message (t - 2)) + schedule message (t - 7) +
      smallSigma0 (schedule message (t - 15)) + schedule message (t - 16)

variable {message : Fin 16 → Word} {t : ℕ}

/-- The first words of the schedule are those of the block. -/
theorem schedule_of_lt (ht : t < 16) : schedule message t = message ⟨t, ht⟩ := by
  rw [schedule, dif_pos ht]

/-- Each later word of the schedule follows from four earlier ones. -/
theorem schedule_of_le (ht : 16 ≤ t) :
    schedule message t =
      smallSigma1 (schedule message (t - 2)) + schedule message (t - 7) +
        smallSigma0 (schedule message (t - 15)) + schedule message (t - 16) := by
  rw [schedule, dif_neg (Nat.not_lt.mpr ht)]

/-- The eight working variables. -/
structure Variables where
  (a b c d e f g h : Word)

/-- The working variables begin as the words of the last hash value. -/
def Variables.ofHash (hash : Fin 8 → Word) : Variables :=
  { a := hash 0, b := hash 1, c := hash 2, d := hash 3, e := hash 4, f := hash 5, g := hash 6,
    h := hash 7 }

/-- What one round makes of the working variables. -/
def Variables.round (v : Variables) (constant word : Word) : Variables :=
  let t1 := v.h + bigSigma1 v.e + choose v.e v.f v.g + constant + word
  let t2 := bigSigma0 v.a + majority v.a v.b v.c
  { h := v.g, g := v.f, f := v.e, e := v.d + t1, d := v.c, c := v.b, b := v.a, a := t1 + t2 }

/-- The working variables after some rounds. -/
noncomputable def Variables.after (hash : Fin 8 → Word) (message : Fin 16 → Word) : ℕ → Variables
  | 0 => ofHash hash
  | t + 1 => (after hash message t).round (roundConstant t) (schedule message t)

/-- The next hash value, once all rounds are done. -/
def Variables.addTo (v : Variables) (hash : Fin 8 → Word) : Fin 8 → Word :=
  ![v.a + hash 0, v.b + hash 1, v.c + hash 2, v.d + hash 3, v.e + hash 4, v.f + hash 5,
    v.g + hash 6, v.h + hash 7]

/-- What a block makes of a hash value. -/
noncomputable def compress (hash : Fin 8 → Word) (message : Fin 16 → Word) : Fin 8 → Word :=
  (Variables.after hash message 64).addTo hash

/-! ## Whole messages -/

/-- The hash of a padded message that is cut into blocks. -/
noncomputable def hash (blocks : List (Vector UInt8 64)) : Fin 8 → Word :=
  blocks.foldl (fun hash block => compress hash (parse block)) initialHash

end SourceChunks.Sha256.Standard
