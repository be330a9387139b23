import SourceChunks.Proofs.Sha256.Standard
import SourceChunks.Sha256.Compression

/-!
# The constants are digits of roots of primes

The tables of constants hold what the standard says they do. The first sixty-four primes are the
primes below 312, which trial division finds, and whole roots of large numbers give the digits.
-/

namespace SourceChunks.Sha256

/-! ## The first primes -/

/-- The numbers with some property below a bound are the first ones with it, in order. -/
theorem getElem_filter_range {p : ℕ → Prop} [DecidablePred p] {n k : ℕ}
    (hk : k < ((List.range n).filter p).length) :
    ((List.range n).filter p)[k] = Nat.nth p k := by
  induction n with
  | zero => simp at hk
  | succ n ih =>
    by_cases hn : p n
    · have hsplit : (List.range (n + 1)).filter p = (List.range n).filter p ++ [n] := by
        rw [List.range_succ, List.filter_append, List.filter_singleton, decide_eq_true hn]
        rfl
      have hcount : ((List.range n).filter p).length = Nat.count p n :=
        List.countP_eq_length_filter.symm
      simp only [hsplit, List.length_append, List.length_singleton] at hk ⊢
      rcases Nat.lt_succ_iff_lt_or_eq.mp hk with hlt | heq
      · rw [List.getElem_append_left hlt, ih hlt]
      · subst heq
        rw [List.getElem_concat_length rfl, hcount, Nat.nth_count hn]
    · have hsplit : (List.range (n + 1)).filter p = (List.range n).filter p := by
        rw [List.range_succ, List.filter_append, List.filter_singleton, decide_eq_false hn]
        exact List.append_nil _
      simp only [hsplit] at hk ⊢
      exact ih hk

/-- Divisors below 18 are enough to tell whether a number below `18 * 18` is prime. -/
theorem prime_iff_of_lt {n : ℕ} (hn : n < 18 * 18) :
    n.Prime ↔ 2 ≤ n ∧ ∀ m < 18, 2 ≤ m → m ∣ n → n ≤ m := by
  constructor
  · intro hprime
    refine ⟨hprime.two_le, fun m _ hm hdvd => ?_⟩
    rcases hprime.eq_one_or_self_of_dvd m hdvd with rfl | rfl
    · omega
    · exact Nat.le_refl _
  · rintro ⟨htwo, hdivisors⟩
    refine Nat.prime_def_le_sqrt.mpr ⟨htwo, fun m hm hsqrt hdvd => ?_⟩
    have hsquare : m * m ≤ n := Nat.le_sqrt.mp hsqrt
    have hsmall : m < 18 := Nat.mul_self_lt_mul_self_iff.mp (hsquare.trans_lt hn)
    have hle : n ≤ m := hdivisors m hsmall hm hdvd
    have hlt : m * 2 ≤ m * m := Nat.mul_le_mul_left m hm
    omega

/-- The first sixty-four primes. -/
def primes : Vector ℕ 64 :=
  #v[2, 3, 5, 7, 11, 13, 17, 19, 23, 29, 31, 37, 41, 43, 47, 53, 59, 61, 67, 71, 73, 79, 83, 89, 97,
    101, 103, 107, 109, 113, 127, 131, 137, 139, 149, 151, 157, 163, 167, 173, 179, 181, 191, 193,
    197, 199, 211, 223, 227, 229, 233, 239, 241, 251, 257, 263, 269, 271, 277, 281, 283, 293, 307,
    311]

/-- The table has all primes below 312. -/
theorem filter_prime_range : (List.range 312).filter Nat.Prime = primes.toList := by
  have htrial : (List.range 312).filter Nat.Prime =
      (List.range 312).filter fun n => 2 ≤ n ∧ ∀ m < 18, 2 ≤ m → m ∣ n → n ≤ m :=
    List.filter_congr fun n hn =>
      decide_eq_decide.mpr (prime_iff_of_lt ((List.mem_range.mp hn).trans (by decide)))
  rw [htrial]
  decide +kernel

/-- The primes of the table are the first ones, in order. -/
theorem nth_prime {t : ℕ} (ht : t < 64) : Nat.nth Nat.Prime t = primes[t] := by
  have hlength : ((List.range 312).filter Nat.Prime).length = 64 := by
    rw [filter_prime_range, Vector.length_toList]
  rw [← getElem_filter_range (ht.trans_eq hlength.symm), List.getElem_of_eq filter_prime_range,
    Vector.getElem_toList]

/-! ## The tables -/

/-- The constants of the rounds are the bits that the standard takes from cube roots. -/
theorem toBitVec_roundConstants (t : Fin 64) :
    (roundConstants.get t).toBitVec = Standard.roundConstant t := by
  rw [Standard.roundConstant, nth_prime t.isLt]
  revert t
  decide +kernel

/-- The initial words are the bits that the standard takes from square roots. -/
theorem toBitVec_initialState (i : Fin 8) :
    (initialState.get i).toBitVec = Standard.initialHash i := by
  rw [Standard.initialHash, nth_prime (i.isLt.trans (by decide))]
  revert i
  decide +kernel

end SourceChunks.Sha256
