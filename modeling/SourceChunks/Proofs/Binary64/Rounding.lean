import Mathlib.Algebra.Order.Field.Power
import Mathlib.Data.Rat.Cast.Order
import Mathlib.Tactic.FieldSimp
import Mathlib.Tactic.Linarith
import Mathlib.Tactic.Positivity
import Mathlib.Tactic.Ring
import SourceChunks.Binary64.Shortest

/-!
# Rounding to the nearest double

Every ratio in the interval of a positive double rounds to this double. The scale of a ratio is the
only one at which it has a significand of 53 bits, or the least scale there is. Only below the least
significand of a scale the ratio belongs to the scale before, where it is rounded up to the power of
two that the double is.
-/

namespace SourceChunks.Binary64

/-! ## Ratios -/

/-- A power of a whole number with an exponent of any sign is a ratio of two powers, one of which is
trivial. -/
theorem pow_toNat_div (b : Nat) (e : Int) :
    ((b ^ e.toNat : Nat) : ℚ) / ((b ^ (-e).toNat : Nat) : ℚ) = (b : ℚ) ^ e := by
  obtain ⟨n, rfl | rfl⟩ := e.eq_nat_or_neg
  · simp
  · simp

/-- A ratio that is shifted is multiplied by a power of two. -/
theorem shiftRatio_div (num den : Nat) (e : Int) :
    ((shiftRatio num den e).1 : ℚ) / (shiftRatio num den e).2 = (num : ℚ) / den * 2 ^ e := by
  have hpow := pow_toNat_div 2 e
  simp only [shiftRatio, Nat.pow_eq, Nat.cast_mul, mul_div_mul_comm, hpow, Nat.cast_ofNat]

/-- The denominator stays positive. -/
theorem shiftRatio_pos {num den : Nat} (hden : 0 < den) (e : Int) : 0 < (shiftRatio num den e).2 :=
  Nat.mul_pos hden (Nat.pow_pos (by decide))

/-- A ratio is rounded to a whole number that it is not more than a half away from; if it is a half
away from it, the number has to be even. -/
theorem roundDiv_eq {num den q : Nat} (hden : 0 < den) (hlow : (q : ℚ) - 1 / 2 ≤ (num : ℚ) / den)
    (hhigh : (num : ℚ) / den ≤ q + 1 / 2)
    (htie : (num : ℚ) / den = q - 1 / 2 ∨ (num : ℚ) / den = q + 1 / 2 → q % 2 = 0) :
    roundDiv num den = q := by
  have hpos : (0 : ℚ) < den := Nat.cast_pos.mpr hden
  have hlow : 2 * (q * den) ≤ 2 * num + den := by
    rw [le_div_iff₀ hpos] at hlow
    have hle : (2 * (q * den) : ℚ) ≤ 2 * num + den := by linarith
    exact_mod_cast hle
  have hhigh : 2 * num ≤ 2 * (q * den) + den := by
    rw [div_le_iff₀ hpos] at hhigh
    have hle : (2 * num : ℚ) ≤ 2 * (q * den) + den := by linarith
    exact_mod_cast hle
  have htie : 2 * (q * den) = 2 * num + den ∨ 2 * num = 2 * (q * den) + den → q % 2 = 0 := by
    intro h
    apply htie
    rw [div_eq_iff hpos.ne', div_eq_iff hpos.ne']
    refine h.imp (fun heq => ?_) fun heq => ?_
    · have heq : (2 * (q * den) : ℚ) = 2 * num + den := by exact_mod_cast heq
      linarith
    · have heq : (2 * num : ℚ) = 2 * (q * den) + den := by exact_mod_cast heq
      linarith
  -- The number is the quotient or the one after it, as any other one is too far away.
  have hdiv := Nat.div_add_mod num den
  have hmod := Nat.mod_lt num hden
  rw [roundDiv]
  rw [Nat.mul_comm] at hdiv
  generalize num / den = k at *
  generalize num % den = rest at *
  have hcases : q = k ∨ q = k + 1 := by
    rcases Nat.lt_trichotomy q k with hlt | heq | hgt
    · have hmul := Nat.mul_le_mul_right den hlt
      rw [Nat.succ_mul] at hmul
      omega
    · exact Or.inl heq
    · rcases Nat.lt_or_ge (k + 1) q with hgt | hle
      · have hmul := Nat.mul_le_mul_right den hgt
        simp only [Nat.succ_eq_add_one, Nat.add_mul] at hmul
        omega
      · exact Or.inr (by omega)
  rcases hcases with rfl | rfl
  · rw [if_neg]
    omega
  · rw [Nat.add_mul, Nat.one_mul] at hlow hhigh htie
    rw [if_pos]
    omega

/-! ## Scales -/

/-- A number is at least the power of two of its logarithm, and below the next one. -/
theorem pow_log2_le {n : Nat} (hn : 0 < n) :
    (2 : ℚ) ^ (n.log2 : Int) ≤ n ∧ (n : ℚ) < 2 ^ ((n.log2 : Int) + 1) := by
  constructor
  · rw [zpow_natCast]
    exact_mod_cast Nat.log2_self_le hn.ne'
  · have hlt : n < 2 ^ (n.log2 + 1) := Nat.lt_log2_self
    exact_mod_cast hlt

/-- A ratio is between the powers of two that the logarithms of its two numbers tell. -/
theorem pow_log2_sub_lt {num den : Nat} (hnum : 0 < num) (hden : 0 < den) :
    (2 : ℚ) ^ ((num.log2 : Int) - den.log2 - 1) < (num : ℚ) / den ∧
      (num : ℚ) / den < 2 ^ ((num.log2 : Int) - den.log2 + 1) := by
  obtain ⟨hnumLow, hnumHigh⟩ := pow_log2_le hnum
  obtain ⟨hdenLow, hdenHigh⟩ := pow_log2_le hden
  have hpos : (0 : ℚ) < den := Nat.cast_pos.mpr hden
  constructor
  · rw [lt_div_iff₀ hpos]
    calc (2 : ℚ) ^ ((num.log2 : Int) - den.log2 - 1) * den
        < 2 ^ ((num.log2 : Int) - den.log2 - 1) * 2 ^ ((den.log2 : Int) + 1) := by gcongr
      _ = 2 ^ (num.log2 : Int) := by
        rw [← zpow_add₀ two_ne_zero]
        congr 1
        omega
      _ ≤ num := hnumLow
  · rw [div_lt_iff₀ hpos]
    calc (num : ℚ) < 2 ^ ((num.log2 : Int) + 1) := hnumHigh
      _ = 2 ^ ((num.log2 : Int) - den.log2 + 1) * 2 ^ (den.log2 : Int) := by
        rw [← zpow_add₀ two_ne_zero]
        congr 1
        omega
      _ ≤ 2 ^ ((num.log2 : Int) - den.log2 + 1) * den := by gcongr

/-- The scale of a ratio is the one at which its significand has 53 bits, or the least scale. -/
theorem scaleOfRatio_spec {num den : Nat} (hnum : 0 < num) (hden : 0 < den) :
    -1074 ≤ scaleOfRatio num den ∧ (num : ℚ) / den < 2 ^ 53 * 2 ^ scaleOfRatio num den ∧
      (scaleOfRatio num den = -1074 ∨
        2 ^ 52 * 2 ^ scaleOfRatio num den ≤ (num : ℚ) / den) := by
  obtain ⟨hlow, hhigh⟩ := pow_log2_sub_lt hnum hden
  generalize hv : (num : ℚ) / den = v at *
  generalize hl : (num.log2 : Int) - den.log2 - 53 = low at *
  have hstep (e : Int) : (2 : ℚ) ^ (e + 1) = 2 * 2 ^ e := by
    rw [zpow_add_one₀ two_ne_zero, mul_comm]
  have hpow (n : Nat) : (2 : ℚ) ^ (low + n) = 2 ^ n * 2 ^ low := by
    rw [zpow_add₀ two_ne_zero, zpow_natCast, mul_comm]
  have hlow : 2 ^ 52 * 2 ^ low < v := by
    rw [← hpow]
    convert hlow using 2
    push_cast
    omega
  have hhigh : v < 2 ^ 54 * 2 ^ low := by
    rw [← hpow]
    convert hhigh using 2
    push_cast
    omega
  -- The test asks whether the ratio has 54 bits at the first scale.
  have htest : Nat.pow 2 53 * (shiftRatio num den (-low)).2 ≤ (shiftRatio num den (-low)).1 ↔
      2 ^ 53 * 2 ^ low ≤ v := by
    have hpos : (0 : ℚ) < (shiftRatio num den (-low)).2 :=
      Nat.cast_pos.mpr (shiftRatio_pos hden _)
    have hratio := shiftRatio_div num den (-low)
    rw [hv, zpow_neg, ← div_eq_mul_inv] at hratio
    have hcast : Nat.pow 2 53 * (shiftRatio num den (-low)).2 ≤ (shiftRatio num den (-low)).1 ↔
        (2 : ℚ) ^ 53 * (shiftRatio num den (-low)).2 ≤ (shiftRatio num den (-low)).1 := by
      rw [Nat.pow_eq]
      exact_mod_cast Iff.rfl
    rw [hcast, ← le_div_iff₀ hpos, hratio, le_div_iff₀ (by positivity)]
  have hfits (e : Int) (hlt : v < 2 ^ 53 * 2 ^ e) (hle : 2 ^ 52 * 2 ^ e ≤ v) :
      -1074 ≤ max e (-1074) ∧ v < 2 ^ 53 * 2 ^ max e (-1074) ∧
        (max e (-1074) = -1074 ∨ 2 ^ 52 * 2 ^ max e (-1074) ≤ v) := by
    refine ⟨le_max_right .., ?_, ?_⟩
    · have hmono : (2 : ℚ) ^ e ≤ 2 ^ max e (-1074) :=
        zpow_le_zpow_right₀ one_le_two (le_max_left ..)
      linarith
    · rcases max_choice e (-1074) with heq | heq
      · right
        rwa [heq]
      · exact Or.inl heq
  simp only [scaleOfRatio, hl, htest]
  split
  · next hle =>
    refine hfits _ ?_ ?_ <;> rw [hstep] <;> linarith
  · next hlt => exact hfits _ (not_le.mp hlt) hlow.le

/-- There is only one such scale. -/
theorem scaleOfRatio_eq {num den : Nat} (hnum : 0 < num) (hden : 0 < den) {s : Int} (hs : -1074 ≤ s)
    (hhigh : (num : ℚ) / den < 2 ^ 53 * 2 ^ s)
    (hlow : s = -1074 ∨ 2 ^ 52 * 2 ^ s ≤ (num : ℚ) / den) : scaleOfRatio num den = s := by
  obtain ⟨hs', hhigh', hlow'⟩ := scaleOfRatio_spec hnum hden
  have hnotLt {e e' : Int} (he : e = -1074 ∨ 2 ^ 52 * 2 ^ e ≤ (num : ℚ) / den) (he' : -1074 ≤ e')
      (hlt : (num : ℚ) / den < 2 ^ 53 * 2 ^ e') : e ≤ e' := by
    by_contra hgt
    have hle : (2 : ℚ) ^ (e' + 1) ≤ 2 ^ e := zpow_le_zpow_right₀ one_le_two (by omega)
    rw [zpow_add_one₀ two_ne_zero] at hle
    rcases he with rfl | he
    · omega
    · linarith
  exact le_antisymm (hnotLt hlow' hs hhigh) (hnotLt hlow hs' hhigh')

/-- A ratio with a scale is rounded to the number that it is near to at this scale. -/
theorem magnitudeOfRatio_eq {num den q : Nat} (hnum : 0 < num) (hden : 0 < den) {s : Int}
    (hscale : scaleOfRatio num den = s) (hlow : (q - 1 / 2) * 2 ^ s ≤ (num : ℚ) / den)
    (hhigh : (num : ℚ) / den ≤ (q + 1 / 2) * 2 ^ s)
    (htie : (num : ℚ) / den = (q - 1 / 2) * 2 ^ s ∨ (num : ℚ) / den = (q + 1 / 2) * 2 ^ s →
      q % 2 = 0) :
    magnitudeOfRatio num den = min ((s + 1074).toNat * 2 ^ 52 + q) infinityBits := by
  have hpos : (0 : ℚ) < 2 ^ s := by positivity
  have hratio := shiftRatio_div num den (-s)
  rw [zpow_neg, ← div_eq_mul_inv] at hratio
  have hround : roundDiv (shiftRatio num den (-s)).1 (shiftRatio num den (-s)).2 = q := by
    apply roundDiv_eq (shiftRatio_pos hden _) <;> rw [hratio]
    · rwa [le_div_iff₀ hpos]
    · rwa [div_le_iff₀ hpos]
    · rwa [div_eq_iff hpos.ne', div_eq_iff hpos.ne']
  simp only [magnitudeOfRatio, if_neg hnum.ne', hscale, hround, Nat.pow_eq]

/-! ## Doubles -/

/-- The significand and the scale of a positive finite double. -/
structure Regular (m : Nat) (s : Int) : Prop where
  pos : 0 < m
  lt : m < 2 ^ 53
  low : -1074 ≤ s
  high : s ≤ 971
  /-- Only at the least scale the significand may have less than 53 bits. -/
  normal : s = -1074 ∨ 2 ^ 52 ≤ m

/-- The exponent field is the eleven bits above the fraction. -/
theorem exponentField_eq (x : Binary64) : x.exponentField = x.bits.toNat / 2 ^ 52 % 2 ^ 11 := by
  rw [exponentField, UInt64.toNat_shiftRight, Nat.shiftRight_eq_div_pow]
  rfl

/-- A finite number other than zero has a significand and a scale in the range of the format. -/
theorem regular_of_isFinite {x : Binary64} (hfinite : x.isFinite) (hzero : ¬ x.isZero) :
    Regular x.significand x.scale := by
  have hfield := x.exponentField_eq
  simp only [isFinite, decide_eq_true_eq] at hfinite
  simp only [isZero, Bool.and_eq_true, beq_iff_eq, not_and] at hzero
  have hfraction : x.fractionField < 2 ^ 52 := Nat.mod_lt _ (by decide)
  simp only [significand, scale, Nat.pow_eq]
  split
  · constructor <;> omega
  · constructor <;> omega

/-- The bits of the magnitude of a double are made of its scale and its significand. -/
theorem magnitude_eq (x : Binary64) :
    (x.scale + 1074).toNat * 2 ^ 52 + x.significand = x.bits.toNat % 2 ^ 63 := by
  have hfield := x.exponentField_eq
  have hfraction : x.fractionField = x.bits.toNat % 2 ^ 52 := rfl
  simp only [significand, scale, Nat.pow_eq]
  split
  · omega
  · omega

/-- A double is made of its sign and its magnitude. -/
theorem ofMagnitude_magnitude (x : Binary64) :
    ofMagnitude x.isNegative (x.bits.toNat % 2 ^ 63) = x := by
  have hbits := x.bits.toNat_lt
  have hmagnitude : (x.bits.toNat % 2 ^ 63).toUInt64.toNat = x.bits.toNat % 2 ^ 63 := by
    rw [Nat.toUInt64_eq, UInt64.toNat_ofNat']
    omega
  have hsign : x.isNegative = true ↔ x.bits.toNat / 2 ^ 63 = 1 := by
    rw [isNegative, beq_iff_eq, ← UInt64.toNat_inj, UInt64.toNat_shiftRight,
      Nat.shiftRight_eq_div_pow]
    rfl
  have hjoined : (ofMagnitude x.isNegative (x.bits.toNat % 2 ^ 63)).bits.toNat = x.bits.toNat := by
    rw [ofMagnitude, UInt64.toNat_or, hmagnitude]
    split
    · next hnegative =>
      have hor := Nat.two_pow_add_eq_or_of_lt (Nat.mod_lt x.bits.toNat (by decide : 0 < 2 ^ 63)) 1
      rw [hsign] at hnegative
      rw [Nat.mul_one] at hor
      exact hor.symm.trans (by omega)
    · next hnegative =>
      rw [hsign] at hnegative
      rw [UInt64.toNat_zero, Nat.zero_or]
      omega
  exact congrArg Binary64.mk (UInt64.toNat_inj.mp hjoined)

/-- A zero is read as zero with its sign. -/
theorem ofDecimal_zero {x : Binary64} (hzero : x.isZero) (exponent : Int) :
    ofDecimal x.isNegative 0 exponent = x := by
  have hmagnitude := x.magnitude_eq
  simp only [isZero, Bool.and_eq_true, beq_iff_eq] at hzero
  have hsignificand : x.significand = 0 := by rw [significand, if_pos hzero.1, hzero.2]
  have hscale : x.scale = -1074 := by rw [scale, hzero.1]; rfl
  have hbits : x.bits.toNat % 2 ^ 63 = 0 := by rw [← hmagnitude, hsignificand, hscale]; rfl
  rw [ofDecimal, if_pos rfl, ← hbits, ofMagnitude_magnitude]

/-! ## The interval of a double -/

/-- A number is in the interval of a double. -/
structure Neighbourhood.Contains (r : Neighbourhood) (v : ℚ) : Prop where
  low_le : r.low ≤ v * r.den
  le_high : v * r.den ≤ r.high
  /-- The ends may not belong to it. -/
  closed : v * r.den = r.low ∨ v * r.den = r.high → r.closed

/-- How many quarters of its unit a double is above the lower end of its interval: one at the least
significand of a scale, where the doubles below lie twice as close, and else two. -/
def lowerStep (x : Binary64) : Nat := if x.significand = 2 ^ 52 ∧ x.scale ≠ -1074 then 1 else 2

/-- A double is at most two quarters of its unit above the lower end of its interval. -/
theorem lowerStep_le (x : Binary64) : x.lowerStep ≤ 2 := by
  rw [lowerStep]
  split <;> omega

/-- The quarter of the unit of a double is a ratio over the denominator of the interval. -/
theorem pow_quarter_eq (x : Binary64) :
    ((2 ^ (x.scale - 2).toNat : Nat) : ℚ) = 2 ^ (x.scale - 2) * x.neighbourhood.den := by
  have hden : x.neighbourhood.den = 2 ^ (2 - x.scale).toNat := rfl
  have hpos : (0 : ℚ) < x.neighbourhood.den := Nat.cast_pos.mpr (Nat.pow_pos (by decide))
  have hpow := pow_toNat_div 2 (x.scale - 2)
  rw [neg_sub, ← hden, div_eq_iff hpos.ne'] at hpow
  exact hpow

/-- The interval of a positive double in quarters of its unit. -/
theorem contains_neighbourhood_iff {x : Binary64} (hm : 0 < x.significand) {v : ℚ} :
    x.neighbourhood.Contains v ↔
      (4 * x.significand - x.lowerStep) * 2 ^ (x.scale - 2) ≤ v ∧
      v ≤ (4 * x.significand + 2) * 2 ^ (x.scale - 2) ∧
      (v = (4 * x.significand - x.lowerStep) * 2 ^ (x.scale - 2) ∨
        v = (4 * x.significand + 2) * 2 ^ (x.scale - 2) → x.significand % 2 = 0) := by
  have hden : 0 < x.neighbourhood.den := Nat.pow_pos (by decide)
  have hpos : (0 : ℚ) < x.neighbourhood.den := Nat.cast_pos.mpr hden
  have hstep : x.lowerStep ≤ 4 * x.significand := x.lowerStep_le.trans (by omega)
  have hlow : (x.neighbourhood.low : ℚ) =
      (4 * x.significand - x.lowerStep) * 2 ^ (x.scale - 2) * x.neighbourhood.den := by
    have heq : x.neighbourhood.low =
        (4 * x.significand - x.lowerStep) * 2 ^ (x.scale - 2).toNat := rfl
    rw [heq, Nat.cast_mul, pow_quarter_eq, Nat.cast_sub hstep]
    push_cast
    ring
  have hhigh : (x.neighbourhood.high : ℚ) =
      (4 * x.significand + 2) * 2 ^ (x.scale - 2) * x.neighbourhood.den := by
    have heq : x.neighbourhood.high = (4 * x.significand + 2) * 2 ^ (x.scale - 2).toNat := rfl
    rw [heq, Nat.cast_mul, pow_quarter_eq]
    push_cast
    ring
  have hclosed : x.neighbourhood.closed ↔ x.significand % 2 = 0 := decide_eq_true_iff
  constructor
  · rintro ⟨hl, hh, hc⟩
    rw [hlow] at hl hc
    rw [hhigh] at hh hc
    rw [hclosed, mul_left_inj' hpos.ne', mul_left_inj' hpos.ne'] at hc
    exact ⟨le_of_mul_le_mul_right hl hpos, le_of_mul_le_mul_right hh hpos, hc⟩
  · rintro ⟨hl, hh, hc⟩
    refine ⟨?_, ?_, ?_⟩
    · rw [hlow]
      exact mul_le_mul_of_nonneg_right hl hpos.le
    · rw [hhigh]
      exact mul_le_mul_of_nonneg_right hh hpos.le
    · rw [hlow, hhigh, hclosed, mul_left_inj' hpos.ne', mul_left_inj' hpos.ne']
      exact hc

/-! ## Ratios in the interval -/

section Ratio

variable {num den : Nat} {s : Int}

/-- A unit is four quarters of it, and half of it are two. -/
theorem two_zpow_quarters (s : Int) :
    (2 : ℚ) ^ s = 4 * 2 ^ (s - 2) ∧ (2 : ℚ) ^ (s - 1) = 2 * 2 ^ (s - 2) := by
  constructor
  · rw [zpow_sub₀ two_ne_zero]
    norm_num
    ring
  · rw [show s - 1 = s - 2 + 1 by omega, zpow_add_one₀ two_ne_zero, mul_comm]

/-- A ratio is rounded to a significand that it is near to, if it is not below the least one of the
scale. -/
theorem magnitudeOfRatio_of_le {m : Nat} (hnum : 0 < num) (hden : 0 < den) (hm : m < 2 ^ 53)
    (hs : -1074 ≤ s) (hnormal : s = -1074 ∨ 2 ^ 52 * 2 ^ s ≤ (num : ℚ) / den)
    (hlower : (4 * m - 2) * 2 ^ (s - 2) ≤ (num : ℚ) / den)
    (hupper : (num : ℚ) / den ≤ (4 * m + 2) * 2 ^ (s - 2))
    (htie : (num : ℚ) / den = (4 * m - 2) * 2 ^ (s - 2) ∨
      (num : ℚ) / den = (4 * m + 2) * 2 ^ (s - 2) → m % 2 = 0) :
    magnitudeOfRatio num den = min ((s + 1074).toNat * 2 ^ 52 + m) infinityBits := by
  have hm : (m : ℚ) + 1 ≤ 2 ^ 53 := by exact_mod_cast hm
  obtain ⟨hunit, -⟩ := two_zpow_quarters s
  have hpos : (0 : ℚ) < 2 ^ (s - 2) := by positivity
  have hscale : scaleOfRatio num den = s := by
    refine scaleOfRatio_eq hnum hden hs ?_ hnormal
    rw [hunit]
    nlinarith
  rw [magnitudeOfRatio_eq hnum hden hscale] <;> rw [hunit]
  · linarith
  · linarith
  · rintro (heq | heq)
    · exact htie (Or.inl (by linarith))
    · exact htie (Or.inr (by linarith))

/-- A ratio that is not more than a quarter below the least significand of a scale has the scale
before, and is rounded up. -/
theorem magnitudeOfRatio_of_lt (hnum : 0 < num) (hden : 0 < den) (hs : -1074 < s)
    (hlower : (4 * 2 ^ 52 - 1) * 2 ^ (s - 2) ≤ (num : ℚ) / den)
    (hlt : (num : ℚ) / den < 2 ^ 52 * 2 ^ s) :
    magnitudeOfRatio num den = min ((s + 1074).toNat * 2 ^ 52 + 2 ^ 52) infinityBits := by
  obtain ⟨hunit, hhalf⟩ := two_zpow_quarters s
  have hpos : (0 : ℚ) < 2 ^ (s - 2) := by positivity
  rw [hunit] at hlt
  have hscale : scaleOfRatio num den = s - 1 := by
    apply scaleOfRatio_eq hnum hden (by omega) <;> rw [hhalf]
    · linarith
    · right
      linarith
  have hsame : (s - 1 + 1074).toNat * 2 ^ 52 + 2 ^ 53 = (s + 1074).toNat * 2 ^ 52 + 2 ^ 52 := by
    omega
  rw [magnitudeOfRatio_eq (q := 2 ^ 53) hnum hden hscale, hsame] <;> rw [hhalf]
  · push_cast
    linarith
  · push_cast
    linarith
  · exact fun _ => by norm_num

/-- A ratio in the interval of a positive double is rounded to the magnitude of the double. -/
theorem magnitudeOfRatio_of_contains {x : Binary64} (hfinite : x.isFinite) (hzero : ¬ x.isZero)
    (hnum : 0 < num) (hden : 0 < den) (h : x.neighbourhood.Contains ((num : ℚ) / den)) :
    magnitudeOfRatio num den = x.bits.toNat % 2 ^ 63 := by
  obtain ⟨hm, hm53, hlow, hhigh, hfull⟩ := regular_of_isFinite hfinite hzero
  obtain ⟨hlower, hupper, htie⟩ := (contains_neighbourhood_iff hm).mp h
  have hbound : (x.scale + 1074).toNat * 2 ^ 52 + x.significand ≤ infinityBits := by
    rw [infinityBits, Nat.pow_eq]
    omega
  have hpos : (0 : ℚ) < 2 ^ (x.scale - 2) := by positivity
  have hstep : (x.lowerStep : ℚ) ≤ 2 := by exact_mod_cast x.lowerStep_le
  rw [← x.magnitude_eq, ← min_eq_left hbound]
  by_cases hnormal : x.scale = -1074 ∨ 2 ^ 52 * 2 ^ x.scale ≤ (num : ℚ) / den
  · refine magnitudeOfRatio_of_le hnum hden hm53 hlow hnormal (by nlinarith) hupper ?_
    rintro (heq | heq)
    · exact htie (Or.inl (le_antisymm (by nlinarith) hlower))
    · exact htie (Or.inr heq)
  · -- The double is the power of two at which the scales meet.
    obtain ⟨hleast, hbelow⟩ := not_or.mp hnormal
    obtain ⟨hunit, -⟩ := two_zpow_quarters x.scale
    rw [not_le] at hbelow
    have hm52 : x.significand = 2 ^ 52 := by
      have hlt : (4 * x.significand - x.lowerStep : ℚ) < 4 * 2 ^ 52 := by
        refine lt_of_mul_lt_mul_right (hlower.trans_lt ?_) hpos.le
        linarith
      have hlt : (x.significand : ℚ) < 2 ^ 52 + 1 := by linarith
      have hlt : x.significand < 2 ^ 52 + 1 := by exact_mod_cast hlt
      omega
    have hquarter : x.lowerStep = 1 := if_pos ⟨hm52, hleast⟩
    rw [hquarter, hm52] at hlower
    push_cast at hlower
    rw [hm52]
    exact magnitudeOfRatio_of_lt hnum hden (by omega) hlower hbelow

end Ratio

/-! ## Decimals -/

/-- Two powers compare as the exponents tell, if one comparison of powers of the same bases is
known. -/
theorem zpow_le_zpow_of_pow_le {b c : ℚ} (hb : 1 ≤ b) (hc : 0 < c) {p q : Nat} (hq : 0 < q)
    (hpow : b ^ p ≤ c ^ q) {k a : Int} (ha : 0 ≤ a) (hle : q * k ≤ p * a) : b ^ k ≤ c ^ a := by
  have hbpos : 0 < b := one_pos.trans_le hb
  have hraised : (b ^ k) ^ q ≤ (c ^ a) ^ q :=
    calc (b ^ k) ^ q = b ^ (q * k) := by rw [← zpow_natCast, ← zpow_mul, mul_comm]
      _ ≤ b ^ (p * a) := zpow_le_zpow_right₀ hb hle
      _ = (b ^ p) ^ a := by rw [zpow_mul, zpow_natCast]
      _ ≤ (c ^ q) ^ a := zpow_le_zpow_left₀ ha (pow_pos hbpos p).le hpow
      _ = (c ^ a) ^ q := by rw [← zpow_natCast, ← zpow_natCast, ← zpow_mul, ← zpow_mul, mul_comm]
  exact (pow_le_pow_iff_left₀ (zpow_pos hbpos k).le (zpow_pos hc a).le hq.ne').mp hraised

/-- A power of ten is at least the power of two with three times the exponent. -/
theorem two_zpow_le_ten_zpow {k a : Int} (ha : 0 ≤ a) (hle : k ≤ 3 * a) : (2 : ℚ) ^ k ≤ 10 ^ a :=
  zpow_le_zpow_of_pow_le (p := 3) (q := 1) one_le_two (by norm_num) one_pos (by norm_num) ha
    (by omega)

/-- With a negative exponent it is at most that. -/
theorem ten_zpow_le_two_zpow {k a : Int} (ha : a ≤ 0) (hle : 3 * a ≤ k) : (10 : ℚ) ^ a ≤ 2 ^ k := by
  have hinv := two_zpow_le_ten_zpow (neg_nonneg.mpr ha) (k := -k) (by omega)
  rw [zpow_neg, zpow_neg] at hinv
  exact (inv_le_inv₀ (by positivity) (by positivity)).mp hinv

section Decimal

variable {x : Binary64} {digits : Nat} {exponent : Int}

/-- The exponent of a decimal in the interval of a double is not beyond those of doubles, -/
theorem exponent_le_of_contains (hfinite : x.isFinite) (hzero : ¬ x.isZero) (hdigits : 0 < digits)
    (h : x.neighbourhood.Contains ((digits : ℚ) * 10 ^ exponent)) : exponent ≤ 400 := by
  obtain ⟨hm, hm53, hlow, hhigh, -⟩ := regular_of_isFinite hfinite hzero
  obtain ⟨-, hupper, -⟩ := (contains_neighbourhood_iff hm).mp h
  have hm53 : (x.significand : ℚ) + 1 ≤ 2 ^ 53 := by exact_mod_cast hm53
  have hone : (1 : ℚ) ≤ digits := by exact_mod_cast hdigits
  by_contra hlarge
  have hten : (2 : ℚ) ^ (1024 : Int) ≤ 10 ^ exponent := two_zpow_le_ten_zpow (by omega) (by omega)
  have hle : (10 : ℚ) ^ exponent ≤ digits * 10 ^ exponent :=
    le_mul_of_one_le_left (by positivity) hone
  have hlt : (digits : ℚ) * 10 ^ exponent < 2 ^ (1024 : Int) :=
    calc (digits : ℚ) * 10 ^ exponent ≤ (4 * x.significand + 2) * 2 ^ (x.scale - 2) := hupper
      _ < 2 ^ 55 * 2 ^ (x.scale - 2) := by
        gcongr
        linarith
      _ ≤ 2 ^ 55 * 2 ^ (969 : Int) := by
        gcongr
        · exact one_le_two
        · omega
      _ = 2 ^ (1024 : Int) := by
        rw [← zpow_natCast, ← zpow_add₀ two_ne_zero, Nat.cast_ofNat]
        rfl
  exact absurd (hten.trans hle) (not_le.mpr hlt)

/-- and not so small that all its digits are below the doubles. -/
theorem le_exponent_of_contains (hfinite : x.isFinite) (hzero : ¬ x.isZero) (hdigits : 0 < digits)
    (h : x.neighbourhood.Contains ((digits : ℚ) * 10 ^ exponent)) :
    -((digits.log2 : Int) + 400) ≤ exponent := by
  obtain ⟨hm, -, hlow, -⟩ := regular_of_isFinite hfinite hzero
  obtain ⟨hlower, -⟩ := (contains_neighbourhood_iff hm).mp h
  have hm : (1 : ℚ) ≤ x.significand := by exact_mod_cast hm
  have hstep : (x.lowerStep : ℚ) ≤ 2 := by exact_mod_cast x.lowerStep_le
  by_contra hsmall
  obtain ⟨-, hlog⟩ := pow_log2_le hdigits
  have hten : (10 : ℚ) ^ exponent ≤ 2 ^ (-1076 - ((digits.log2 : Int) + 1)) :=
    ten_zpow_le_two_zpow (by omega) (by omega)
  have hlt : (digits : ℚ) * 10 ^ exponent < 2 ^ (-1076 : Int) :=
    calc (digits : ℚ) * 10 ^ exponent
        < 2 ^ ((digits.log2 : Int) + 1) * 10 ^ exponent := by gcongr
      _ ≤ 2 ^ ((digits.log2 : Int) + 1) * 2 ^ (-1076 - ((digits.log2 : Int) + 1)) := by gcongr
      _ = 2 ^ (-1076 : Int) := by
        rw [← zpow_add₀ two_ne_zero]
        congr 1
        omega
  have hunit : (2 : ℚ) ^ (-1076 : Int) ≤ 2 ^ (x.scale - 2) :=
    zpow_le_zpow_right₀ one_le_two (by omega)
  have hle : (2 : ℚ) ^ (x.scale - 2) ≤ digits * 10 ^ exponent :=
    (le_mul_of_one_le_left (by positivity) (by linarith)).trans hlower
  exact absurd (hunit.trans hle) (not_le.mpr hlt)

/-- A decimal in the interval of a double is read as the double. -/
theorem ofDecimal_of_contains (hfinite : x.isFinite) (hzero : ¬ x.isZero) (hdigits : 0 < digits)
    (h : x.neighbourhood.Contains ((digits : ℚ) * 10 ^ exponent)) :
    ofDecimal x.isNegative digits exponent = x := by
  have hle := exponent_le_of_contains hfinite hzero hdigits h
  have hge := le_exponent_of_contains hfinite hzero hdigits h
  have hratio : ((digits * 10 ^ exponent.toNat : Nat) : ℚ) / ((10 ^ (-exponent).toNat : Nat) : ℚ) =
      digits * 10 ^ exponent := by
    rw [Nat.cast_mul, mul_div_assoc, pow_toNat_div]
    norm_num
  have hmagnitude := magnitudeOfRatio_of_contains hfinite hzero
    (Nat.mul_pos hdigits (Nat.pow_pos (by decide : 0 < 10)))
    (Nat.pow_pos (by decide : 0 < 10)) (hratio ▸ h)
  simp only [ofDecimal, if_neg hdigits.ne', if_neg (not_lt.mpr hle), if_neg (not_lt.mpr hge),
    Nat.pow_eq, hmagnitude, ofMagnitude_magnitude]

end Decimal

end SourceChunks.Binary64
