import SourceChunks.Proofs.Binary64.Rounding

/-!
# The shortest digits are in the interval

The decimal that is picked for a double is in the interval of the double, so it is read back as this
double. Among the grids that are tried the last one has seventeen digits and is finer than the
interval is wide, so one of the two points next to the double is in the interval.
-/

namespace SourceChunks.Binary64

/-! ## Grids -/

namespace Neighbourhood

variable {r : Neighbourhood} {n : Nat} {exponent : Int}

/-- An interval around a positive number, which is less than 10 ^ 16 times as large as the interval
is wide. -/
@[mk_iff]
structure Wide (r : Neighbourhood) : Prop where
  den_pos : 0 < r.den
  low_pos : 0 < r.low
  low_lt : r.low < r.mid
  lt_high : r.mid < r.high
  mid_lt : r.mid + 10 ^ 16 * r.low < 10 ^ 16 * r.high

/-- A point of a grid in numbers over the denominator. -/
theorem mul_den_eq (n : Nat) (exponent : Int) : (n : ℚ) * 10 ^ exponent * r.den =
    ((n * Nat.pow 10 exponent.toNat * r.den : Nat) : ℚ) /
      ((Nat.pow 10 (-exponent).toNat : Nat) : ℚ) := by
  have hpow := pow_toNat_div 10 exponent
  rw [Nat.cast_ofNat] at hpow
  rw [← hpow]
  simp only [Nat.pow_eq, Nat.cast_mul]
  ring

/-- A point of a grid rounds to the double if it is in the interval. -/
theorem holds_iff : r.holds n exponent ↔ r.Contains ((n : ℚ) * 10 ^ exponent) := by
  have hunit : 0 < Nat.pow 10 (-exponent).toNat := Nat.pow_pos (by decide)
  have hpos : (0 : ℚ) < ((Nat.pow 10 (-exponent).toNat : Nat) : ℚ) := Nat.cast_pos.mpr hunit
  have hpoint := r.mul_den_eq n exponent
  simp only [holds]
  generalize n * Nat.pow 10 exponent.toNat * r.den = value at *
  generalize Nat.pow 10 (-exponent).toNat = unit at *
  generalize (n : ℚ) * 10 ^ exponent = v at *
  have hlow : (r.low : ℚ) ≤ v * r.den ↔ r.low * unit ≤ value := by
    rw [hpoint, le_div_iff₀ hpos]
    exact_mod_cast Iff.rfl
  have hhigh : v * r.den ≤ r.high ↔ value ≤ r.high * unit := by
    rw [hpoint, div_le_iff₀ hpos]
    exact_mod_cast Iff.rfl
  have hlow' : v * r.den = r.low ↔ value = r.low * unit := by
    rw [hpoint, div_eq_iff hpos.ne']
    exact_mod_cast Iff.rfl
  have hhigh' : v * r.den = r.high ↔ value = r.high * unit := by
    rw [hpoint, div_eq_iff hpos.ne']
    exact_mod_cast Iff.rfl
  have hcontains : r.Contains v ↔ r.low * unit ≤ value ∧ value ≤ r.high * unit ∧
      (value = r.low * unit ∨ value = r.high * unit → r.closed) := by
    rw [← hlow, ← hhigh, ← hlow', ← hhigh']
    exact ⟨fun h => ⟨h.low_le, h.le_high, h.closed⟩, fun ⟨h, h', h''⟩ => ⟨h, h', h''⟩⟩
  rw [hcontains]
  split
  · next hclosed => simp [hclosed]
  · next hopen =>
    simp only [Bool.and_eq_true, decide_eq_true_eq, eq_false_of_ne_true hopen, Bool.false_eq_true,
      imp_false]
    omega

/-- How a point of a grid compares with the number, in whole numbers. -/
theorem point_le_iff (hden : 0 < r.den) : (n : ℚ) * 10 ^ exponent ≤ (r.mid : ℚ) / r.den ↔
    n * (r.den * Nat.pow 10 exponent.toNat) ≤ r.mid * Nat.pow 10 (-exponent).toNat := by
  have hpos : (0 : ℚ) < r.den := Nat.cast_pos.mpr hden
  have hunit : (0 : ℚ) < ((Nat.pow 10 (-exponent).toNat : Nat) : ℚ) :=
    Nat.cast_pos.mpr (Nat.pow_pos (by decide))
  rw [le_div_iff₀ hpos, mul_den_eq, div_le_iff₀ hunit, mul_right_comm, mul_assoc]
  exact_mod_cast Iff.rfl

/-- What is between the ends is in the interval whether these belong to it or not. -/
theorem contains_of_lt {v : ℚ} (hlow : r.low < v * r.den) (hhigh : v * r.den < r.high) :
    r.Contains v := by
  refine ⟨hlow.le, hhigh.le, ?_⟩
  rintro (heq | heq)
  · exact absurd heq hlow.ne'
  · exact absurd heq hhigh.ne

/-- What is picked of a grid is in the interval. -/
theorem contains_of_pick? {d : Decimal} (h : r.pick? exponent = some d) :
    r.Contains ((d.digits : ℚ) * 10 ^ d.exponent) := by
  rw [← holds_iff]
  simp only [pick?] at h
  split at h
  · next hbelow habove =>
    obtain rfl := Option.some.inj h
    simp only [roundDiv]
    split
    · exact habove
    · exact hbelow
  · next hbelow _ =>
    obtain rfl := Option.some.inj h
    exact hbelow
  · next _ habove =>
    obtain rfl := Option.some.inj h
    exact habove
  · cases h

/-- A grid that is finer than the interval is wide has a point in it. -/
theorem Wide.exists_pick? (h : r.Wide) (hfine : (10 : ℚ) ^ (exponent + 16) ≤ (r.mid : ℚ) / r.den) :
    ∃ d, r.pick? exponent = some d := by
  obtain ⟨hden, -, hlow, hhigh, hmid⟩ := h
  have hpos : (0 : ℚ) < r.den := Nat.cast_pos.mpr hden
  have hlow : (r.low : ℚ) < r.mid := Nat.cast_lt.mpr hlow
  have hhigh : (r.mid : ℚ) < r.high := Nat.cast_lt.mpr hhigh
  have hmid : (r.mid : ℚ) + 10 ^ 16 * r.low < 10 ^ 16 * r.high := by exact_mod_cast hmid
  have hgrid : (0 : ℚ) < 10 ^ exponent := by positivity
  have hfine : (10 : ℚ) ^ 16 * (10 ^ exponent * r.den) ≤ r.mid := by
    rw [le_div_iff₀ hpos, zpow_add₀ (by norm_num)] at hfine
    calc (10 : ℚ) ^ 16 * (10 ^ exponent * r.den)
        = 10 ^ exponent * 10 ^ (16 : Int) * r.den := by
          norm_num
          ring
      _ ≤ r.mid := hfine
  -- The number is between two neighbouring points of the grid.
  have hunit : 0 < r.den * Nat.pow 10 exponent.toNat :=
    Nat.mul_pos hden (Nat.pow_pos (by decide))
  have hle := (point_le_iff hden).mpr
    (Nat.div_mul_le_self (r.mid * Nat.pow 10 (-exponent).toNat) (r.den * Nat.pow 10 exponent.toNat))
  have hlt := not_le.mp (mt (point_le_iff hden).mp (not_le.mpr
    (Nat.lt_mul_of_div_lt (Nat.lt_succ_self (r.mid * Nat.pow 10 (-exponent).toNat /
      (r.den * Nat.pow 10 exponent.toNat))) hunit)))
  rw [le_div_iff₀ hpos] at hle
  rw [div_lt_iff₀ hpos] at hlt
  simp only [pick?]
  generalize r.mid * Nat.pow 10 (-exponent).toNat / (r.den * Nat.pow 10 exponent.toNat) = below at *
  cases hfirst : r.holds below exponent with
  | true =>
    cases r.holds (below + 1) exponent with
    | true => exact ⟨_, rfl⟩
    | false => exact ⟨_, rfl⟩
  | false =>
    cases hsecond : r.holds (below + 1) exponent with
    | true => exact ⟨_, rfl⟩
    | false =>
      -- If neither were in the interval, the grid would be at least as wide as the interval.
      have hbelowLow : (below : ℚ) * 10 ^ exponent * r.den ≤ r.low := by
        by_contra hgt
        have hholds := holds_iff.mpr (contains_of_lt (not_le.mp hgt) (hle.trans_lt hhigh))
        rw [hfirst] at hholds
        exact Bool.false_ne_true hholds
      have haboveHigh : (r.high : ℚ) ≤ ((below + 1 : Nat) : ℚ) * 10 ^ exponent * r.den := by
        by_contra hgt
        have hholds := holds_iff.mpr (contains_of_lt (hlow.trans hlt) (not_le.mp hgt))
        rw [hsecond] at hholds
        exact Bool.false_ne_true hholds
      push_cast at haboveHigh
      nlinarith

/-- The magnitude is not more than one digit too large. -/
theorem zpow_magnitude_le (hden : 0 < r.den) {start : Int}
    (hstart : (10 : ℚ) ^ (start - 1) ≤ (r.mid : ℚ) / r.den) (fuel : Nat) :
    (10 : ℚ) ^ (r.magnitude fuel start - 1) ≤ (r.mid : ℚ) / r.den := by
  induction fuel generalizing start with
  | zero => exact hstart
  | succ fuel ih =>
    rw [magnitude]
    split
    · exact hstart
    · next hlarge =>
      refine ih ?_
      have hle := (point_le_iff (n := 1) hden).mpr (by rwa [Nat.one_mul, ← Nat.not_lt])
      rwa [Nat.cast_one, one_mul, ← add_sub_cancel_right start 1] at hle

end Neighbourhood

/-! ## Digits -/

/-- Digits without the zeros at their end are the same number. -/
theorem Decimal.stripZeros_spec (fuel : Nat) {d : Decimal} (hpos : 0 < d.digits) :
    0 < (d.stripZeros fuel).digits ∧
      ((d.stripZeros fuel).digits : ℚ) * 10 ^ (d.stripZeros fuel).exponent =
        d.digits * 10 ^ d.exponent := by
  induction fuel generalizing d with
  | zero => exact ⟨hpos, rfl⟩
  | succ fuel ih =>
    rw [stripZeros]
    split
    · next hzero =>
      obtain ⟨hpos', hvalue⟩ := ih (d := ⟨d.digits / 10, d.exponent + 1⟩)
        (Nat.div_pos (Nat.le_of_dvd hpos (Nat.dvd_of_mod_eq_zero hzero.1)) (by decide))
      refine ⟨hpos', hvalue.trans ?_⟩
      have hdigits : (d.digits : ℚ) = 10 * (d.digits / 10 : Nat) := by
        have heq : d.digits = 10 * (d.digits / 10) := by omega
        exact_mod_cast heq
      rw [hdigits, zpow_add_one₀ (by norm_num)]
      ring
    · exact ⟨hpos, rfl⟩

/-! ## Doubles -/

section Finite

variable {x : Binary64}

/-- The number in the middle of the interval is the double. -/
theorem mid_div_den (x : Binary64) :
    (x.neighbourhood.mid : ℚ) / x.neighbourhood.den = x.significand * 2 ^ x.scale := by
  have hpos : (0 : ℚ) < x.neighbourhood.den := Nat.cast_pos.mpr (Nat.pow_pos (by decide))
  have hmid : x.neighbourhood.mid = 4 * x.significand * 2 ^ (x.scale - 2).toNat := rfl
  rw [hmid, Nat.cast_mul, pow_quarter_eq, div_eq_iff hpos.ne', zpow_sub₀ two_ne_zero]
  push_cast
  ring

/-- The interval of a positive double is wide enough for a decimal of seventeen digits. -/
theorem wide_neighbourhood (hfinite : x.isFinite) (hzero : ¬ x.isZero) : x.neighbourhood.Wide := by
  obtain ⟨hm, hm53, -⟩ := regular_of_isFinite hfinite hzero
  have hup : 0 < 2 ^ (x.scale - 2).toNat := Nat.pow_pos (by decide)
  have hstep : x.lowerStep = 2 ∨ x.lowerStep = 1 ∧ x.significand = 2 ^ 52 := by
    rw [lowerStep]
    split
    · next h => exact Or.inr ⟨rfl, h.1⟩
    · exact Or.inl rfl
  have hlow : x.neighbourhood.low =
    (4 * x.significand - x.lowerStep) * 2 ^ (x.scale - 2).toNat := rfl
  have hmid : x.neighbourhood.mid = 4 * x.significand * 2 ^ (x.scale - 2).toNat := rfl
  have hhigh : x.neighbourhood.high = (4 * x.significand + 2) * 2 ^ (x.scale - 2).toNat := rfl
  rw [Neighbourhood.wide_iff, hlow, hmid, hhigh]
  generalize x.lowerStep = step at *
  generalize x.significand = m at *
  generalize 2 ^ (x.scale - 2).toNat = up at *
  refine ⟨Nat.pow_pos (by decide), Nat.mul_pos (by omega) hup,
    Nat.mul_lt_mul_of_pos_right (by omega) hup, Nat.mul_lt_mul_of_pos_right (by omega) hup, ?_⟩
  calc 4 * m * up + 10 ^ 16 * ((4 * m - step) * up)
      = (4 * m + 10 ^ 16 * (4 * m - step)) * up := by ring
    _ < (10 ^ 16 * (4 * m + 2)) * up := Nat.mul_lt_mul_of_pos_right (by omega) hup
    _ = 10 ^ 16 * ((4 * m + 2) * up) := by ring

/-- The search for the magnitude does not begin above it. -/
theorem zpow_start_le (hfinite : x.isFinite) (hzero : ¬ x.isZero) :
    (10 : ℚ) ^ (((x.neighbourhood.mid.log2 : Int) - x.neighbourhood.den.log2 - 1) * 30103 / 100000 -
      1 - 1) ≤ (x.neighbourhood.mid : ℚ) / x.neighbourhood.den := by
  obtain ⟨hm, hm53, hlow, hhigh, -⟩ := regular_of_isFinite hfinite hzero
  have hwide := wide_neighbourhood hfinite hzero
  obtain ⟨habove, hbelow⟩ := pow_log2_sub_lt (hwide.low_pos.trans hwide.low_lt) hwide.den_pos
  refine le_trans ?_ habove.le
  rw [mid_div_den] at habove hbelow
  generalize (x.neighbourhood.mid.log2 : Int) - x.neighbourhood.den.log2 = k at *
  have hm : (1 : ℚ) ≤ x.significand := by exact_mod_cast hm
  have hm53 : (x.significand : ℚ) ≤ 2 ^ 53 := by exact_mod_cast hm53.le
  have hunit : (0 : ℚ) < 2 ^ x.scale := by positivity
  have hkHigh : k - 1 < 1024 := by
    refine (zpow_lt_zpow_iff_right₀ one_lt_two).mp (habove.trans_le ?_)
    calc (x.significand : ℚ) * 2 ^ x.scale ≤ 2 ^ 53 * 2 ^ (971 : Int) := by
          gcongr
          · exact one_le_two
      _ = 2 ^ (1024 : Int) := by
        rw [← zpow_natCast, ← zpow_add₀ two_ne_zero]
        rfl
  have hkLow : -1074 < k + 1 := by
    refine (zpow_lt_zpow_iff_right₀ one_lt_two).mp (lt_of_le_of_lt ?_ hbelow)
    calc (2 : ℚ) ^ (-1074 : Int) ≤ 2 ^ x.scale := zpow_le_zpow_right₀ one_le_two hlow
      _ ≤ x.significand * 2 ^ x.scale := le_mul_of_one_le_left hunit.le hm
  rcases le_or_gt 0 (k - 1) with hk | hk
  · exact zpow_le_zpow_of_pow_le (p := 3) (q := 10) (by norm_num) (by norm_num) (by decide)
      (by norm_num) hk (by omega)
  · have hinv : (2 : ℚ) ^ (-(k - 1)) ≤ 10 ^ (-((k - 1) * 30103 / 100000 - 1 - 1)) :=
      zpow_le_zpow_of_pow_le (p := 93) (q := 28) (by norm_num) (by norm_num) (by decide)
        (by norm_num) (by omega) (by omega)
    rw [zpow_neg, zpow_neg] at hinv
    exact (inv_le_inv₀ (by positivity) (by positivity)).mp hinv

/-- The digits written for a double are a number in its interval. -/
theorem contains_shortest (hfinite : x.isFinite) (hzero : ¬ x.isZero) :
    0 < x.shortest.digits ∧
      x.neighbourhood.Contains ((x.shortest.digits : ℚ) * 10 ^ x.shortest.exponent) := by
  have hwide := wide_neighbourhood hfinite hzero
  simp only [shortest]
  have hmagnitude :=
    Neighbourhood.zpow_magnitude_le hwide.den_pos (zpow_start_le hfinite hzero) 5
  generalize x.neighbourhood.magnitude 5 _ = p at *
  generalize hgrids : (List.range 17).map (fun (n : Nat) => p - 1 - n) = grids
  -- The last grid has a point in the interval.
  have hsome : (grids.findSome? x.neighbourhood.pick?).isSome := by
    rw [List.findSome?_isSome_iff, ← hgrids]
    refine ⟨p - 1 - (16 : Nat), List.mem_map.mpr ⟨16, by simp, rfl⟩, ?_⟩
    rw [Option.isSome_iff_exists]
    refine hwide.exists_pick? ?_
    convert hmagnitude using 2
    omega
  obtain ⟨d, hfound⟩ := Option.isSome_iff_exists.mp hsome
  obtain ⟨exponent, -, hpick⟩ := List.exists_of_findSome?_eq_some hfound
  have hcontains := Neighbourhood.contains_of_pick? hpick
  rw [hfound, Option.getD_some]
  have hpos : 0 < d.digits := by
    by_contra hnot
    have hle := hcontains.low_le
    rw [Nat.eq_zero_of_not_pos hnot, Nat.cast_zero, zero_mul, zero_mul] at hle
    exact absurd (Nat.cast_le.mp (hle.trans_eq Nat.cast_zero.symm)) (Nat.not_le.mpr hwide.low_pos)
  obtain ⟨hpos', hvalue⟩ := d.stripZeros_spec 17 hpos
  rw [hvalue]
  exact ⟨hpos', hcontains⟩

end Finite

end SourceChunks.Binary64
