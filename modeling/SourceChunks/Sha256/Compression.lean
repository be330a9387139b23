import SourceChunks.Bytes

/-!
# The SHA-256 compression function

One block of 64 bytes is mixed into a chaining state of eight words. The message schedule is kept
as a ring of sixteen words: before round `t`, place `t % 16` holds word `t - 16` of the schedule,
and round `t` replaces it by word `t`, which is all that later rounds need. The working variables
are an array that every round shifts by one place.
-/

namespace SourceChunks.Sha256

/-- A chaining state, and equally the working variables `a` to `h` of a compression. -/
abbrev State := Vector UInt32 8

/-- The first 32 bits of the fractional parts of the square roots of the first eight primes. -/
def initialState : State :=
  #v[0x6a09e667, 0xbb67ae85, 0x3c6ef372, 0xa54ff53a, 0x510e527f, 0x9b05688c, 0x1f83d9ab, 0x5be0cd19]

/-- The first 32 bits of the fractional parts of the cube roots of the first 64 primes. -/
def roundConstants : Vector UInt32 64 :=
  #v[0x428a2f98, 0x71374491, 0xb5c0fbcf, 0xe9b5dba5, 0x3956c25b, 0x59f111f1, 0x923f82a4, 0xab1c5ed5,
    0xd807aa98, 0x12835b01, 0x243185be, 0x550c7dc3, 0x72be5d74, 0x80deb1fe, 0x9bdc06a7, 0xc19bf174,
    0xe49b69c1, 0xefbe4786, 0x0fc19dc6, 0x240ca1cc, 0x2de92c6f, 0x4a7484aa, 0x5cb0a9dc, 0x76f988da,
    0x983e5152, 0xa831c66d, 0xb00327c8, 0xbf597fc7, 0xc6e00bf3, 0xd5a79147, 0x06ca6351, 0x14292967,
    0x27b70a85, 0x2e1b2138, 0x4d2c6dfc, 0x53380d13, 0x650a7354, 0x766a0abb, 0x81c2c92e, 0x92722c85,
    0xa2bfe8a1, 0xa81a664b, 0xc24b8b70, 0xc76c51a3, 0xd192e819, 0xd6990624, 0xf40e3585, 0x106aa070,
    0x19a4c116, 0x1e376c08, 0x2748774c, 0x34b0bcb5, 0x391c0cb3, 0x4ed8aa4a, 0x5b9cca4f, 0x682e6ff3,
    0x748f82ee, 0x78a5636f, 0x84c87814, 0x8cc70208, 0x90befffa, 0xa4506ceb, 0xbef9a3f7, 0xc67178f2]

/-- The number of bytes in a block. -/
def blockSize : Nat := 64

/-- A word turned right by `n` bits. -/
def rotateRight (x : UInt32) (n : UInt32) : UInt32 := (x >>> n) ||| (x <<< (32 - n))

/-- The mixing function of the schedule that is applied to the word fifteen places back. -/
def smallSigma0 (x : UInt32) : UInt32 := rotateRight x 7 ^^^ rotateRight x 18 ^^^ (x >>> 3)

/-- The mixing function of the schedule that is applied to the word two places back. -/
def smallSigma1 (x : UInt32) : UInt32 := rotateRight x 17 ^^^ rotateRight x 19 ^^^ (x >>> 10)

/-- The mixing function of the rounds that is applied to `a`. -/
def bigSigma0 (x : UInt32) : UInt32 := rotateRight x 2 ^^^ rotateRight x 13 ^^^ rotateRight x 22

/-- The mixing function of the rounds that is applied to `e`. -/
def bigSigma1 (x : UInt32) : UInt32 := rotateRight x 6 ^^^ rotateRight x 11 ^^^ rotateRight x 25

/-- Each bit of `y` where `x` has a one, and of `z` where it has a zero. -/
def choose (x y z : UInt32) : UInt32 := (x &&& y) ^^^ (~~~x &&& z)

/-- Each bit that at least two of the three words have. -/
def majority (x y z : UInt32) : UInt32 := (x &&& y) ^^^ (x &&& z) ^^^ (y &&& z)

/-- The word that starts at byte `4 * i` of a block, its most significant byte first. -/
def wordAt (block : Bytes) (i : Nat) : UInt32 :=
  match block.drop (4 * i) with
  | a :: b :: c :: d :: _ =>
    (a.toUInt32 <<< 24) ||| (b.toUInt32 <<< 16) ||| (c.toUInt32 <<< 8) ||| d.toUInt32
  | _ => 0

/-- What a compression holds between two rounds. -/
structure Rounds where
  /-- The last sixteen words of the schedule. -/
  ring : Vector UInt32 16
  /-- The working variables. -/
  work : State
  deriving DecidableEq

/-- The ring once it holds word `t` of the schedule; the first sixteen are there from the start. -/
def extendRing (ring : Vector UInt32 16) (t : Nat) : Vector UInt32 16 :=
  if t < 16 then ring
  else
    ring.set (t % 16)
      (ring[t % 16] + (smallSigma0 ring[(t - 15) % 16] + ring[(t - 7) % 16] +
        smallSigma1 ring[(t - 2) % 16]))

/-- Every working variable takes the value of the one before it. The first one keeps its own, and
the value of the last one is dropped. -/
def shift (v : State) : State := #v[v[0], v[0], v[1], v[2], v[3], v[4], v[5], v[6]]

/-- The working variables after one round with the given constant and schedule word: they are
shifted, and then the fifth and the first are updated. -/
def mix (v : State) (constant word : UInt32) : State :=
  let t1 := v[7] + bigSigma1 v[4] + choose v[4] v[5] v[6] + constant + word
  let t2 := bigSigma0 v[0] + majority v[0] v[1] v[2]
  let shifted := shift v
  (shifted.set 4 (shifted[4] + t1)).set 0 (t1 + t2)

/-- The ring holds the sixteen words of the block, and the working variables the state. -/
def Rounds.start (state : State) (block : Bytes) : Rounds :=
  ⟨Vector.ofFn fun i => wordAt block i, state⟩

/-- Round `t`. -/
def Rounds.step (r : Rounds) (t : Fin 64) : Rounds :=
  let ring := extendRing r.ring t
  ⟨ring, mix r.work roundConstants[t] ring[t.val % 16]⟩

/-- Mix one block into a chaining state. -/
def compress (state : State) (block : Bytes) : State :=
  let final := Fin.foldl 64 Rounds.step (.start state block)
  Vector.zipWith (· + ·) state final.work

end SourceChunks.Sha256
