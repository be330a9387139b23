import SourceChunks.Proofs.Binary64.Shortest
import SourceChunks.Proofs.Json.RoundTrip

/-!
# Doubles read back

The text of a finite double has a point or an exponent, so it is read as a double. Wherever the
point is put, the digits stand for the number that was picked for the double.
-/

namespace SourceChunks.Json

/-! ## Parts of a number -/

/-- A run of one or more digits. -/
structure IsDigits (t : Bytes) : Prop where
  ne_nil : t ≠ []
  isDigit : ∀ b ∈ t, Bytes.isDigit b

/-- The digit zero is a run of digits. -/
theorem isDigits_zero : IsDigits (bytes "0") where
  ne_nil := List.cons_ne_nil _ _
  isDigit := fun b hb => by
    obtain rfl := List.mem_singleton.mp hb
    decide

/-- A natural number is written as a run of digits. -/
theorem isDigits_ofNat (n : Nat) : IsDigits (Bytes.ofNat n) :=
  ⟨Bytes.ofNat_ne_nil n, fun _ => Bytes.isDigit_of_mem_ofNat⟩

/-- Zeros may stand behind digits, -/
theorem IsDigits.append_zeros {t : Bytes} (h : IsDigits t) (k : Nat) :
    IsDigits (t ++ List.replicate k 0x30) where
  ne_nil := List.append_ne_nil_of_left_ne_nil h.ne_nil _
  isDigit := fun b hb => (List.mem_append.mp hb).elim (h.isDigit b) fun hb => by
    rw [(List.mem_replicate.mp hb).2]
    decide

/-- and in front of them. -/
theorem IsDigits.zeros_append {t : Bytes} (h : IsDigits t) (k : Nat) :
    IsDigits (List.replicate k 0x30 ++ t) where
  ne_nil := List.append_ne_nil_of_right_ne_nil _ h.ne_nil
  isDigit := fun b hb => (List.mem_append.mp hb).elim (fun hb => by
    rw [(List.mem_replicate.mp hb).2]
    decide) (h.isDigit b)

/-- Digits are cut into digits, -/
theorem IsDigits.take {t : Bytes} (h : IsDigits t) {k : Nat} (hk : 0 < k) :
    IsDigits (t.take k) where
  ne_nil := by
    rw [ne_eq, List.take_eq_nil_iff, not_or]
    exact ⟨hk.ne', h.ne_nil⟩
  isDigit := fun b hb => h.isDigit b (List.mem_of_mem_take hb)

/-- on both sides. -/
theorem IsDigits.drop {t : Bytes} (h : IsDigits t) {k : Nat} (hk : k < t.length) :
    IsDigits (t.drop k) where
  ne_nil := by
    rw [ne_eq, List.drop_eq_nil_iff, not_le]
    exact hk
  isDigit := fun b hb => h.isDigit b (List.mem_of_mem_drop hb)

/-- A minus sign, if there is one. -/
def signText (negative : Bool) : Bytes := if negative then bytes "-" else []

/-- A fraction with its point. -/
def fractionText : Option Bytes → Bytes
  | none => []
  | some digits => bytes "." ++ digits

/-- An exponent with its letter and a sign. -/
def exponentText : Option Int → Bytes
  | none => []
  | some e => bytes "e" ++ (if e < 0 then bytes "-" else bytes "+") ++
      Bytes.ofNatPadded numberFormat.exponentWidth e.natAbs

/-- The parts of a number without its sign. -/
structure NumberParts where
  /-- The digits in front of the point. -/
  whole : Bytes
  /-- The digits behind it. -/
  fraction : Option Bytes
  /-- The power of ten that the number is multiplied by. -/
  exponent : Option Int

namespace NumberParts

/-- The parts one after the other. -/
def text (p : NumberParts) : Bytes :=
  p.whole ++ (fractionText p.fraction ++ exponentText p.exponent)

/-- All digits of the number as one whole number. -/
def digits (p : NumberParts) : Nat := Bytes.digitsValue (p.whole ++ p.fraction.getD [])

/-- The power of ten that this whole number is multiplied by. -/
def power (p : NumberParts) : Int := p.exponent.getD 0 - (p.fraction.getD []).length

/-- The parts make a number that is read as a double. -/
structure IsDouble (p : NumberParts) : Prop where
  whole_digits : IsDigits p.whole
  /-- A whole part of several digits does not begin with a zero. -/
  leading : 1 < p.whole.length → p.whole.head? ≠ some 0x30
  fraction_digits : ∀ digits ∈ p.fraction, IsDigits digits
  /-- Without a point and an exponent it would be a whole number. -/
  marked : p.fraction.isSome ∨ p.exponent.isSome

end NumberParts

/-! ## Reading the parts -/

/-- Digits end where an exponent or the end of the number follows. -/
theorem endsDigits_exponentText (e : Option Int) {tail : Bytes} (htail : EndsNumber tail) :
    EndsDigits (exponentText e ++ tail) := by
  cases e with
  | none => exact htail.endsDigits
  | some e =>
    rintro b hb
    obtain rfl := Option.some.inj hb
    decide

/-- A written exponent is read back. -/
theorem readExponent_exponentText (e : Option Int) {tail : Bytes} (htail : EndsNumber tail) :
    readExponent (exponentText e ++ tail) = some (e, tail) := by
  cases e with
  | none => exact readExponent_of_endsNumber htail
  | some e =>
    generalize hdigits : Bytes.ofNatPadded numberFormat.exponentWidth e.natAbs = digits
    have hread : readDigits (digits ++ tail) = some (digits, tail) := by
      obtain ⟨_, _, heq, -⟩ := Bytes.exists_ofNatPadded_eq_cons numberFormat.exponentWidth e.natAbs
      refine readDigits_append ?_ (fun b hb => ?_) htail.endsDigits
      · rw [← hdigits, heq]
        exact List.cons_ne_nil _ _
      · exact Bytes.isDigit_of_mem_ofNatPadded (hdigits ▸ hb)
    have hvalue : Bytes.digitsValue digits = e.natAbs := by
      rw [← hdigits, Bytes.digitsValue_ofNatPadded]
    rw [exponentText, hdigits]
    split
    · next hnegative =>
      have hsigned : readExponent (bytes "e" ++ bytes "-" ++ digits ++ tail) =
          (readDigits (digits ++ tail)).map fun r =>
            (some (-(Bytes.digitsValue r.1 : Int)), r.2) := rfl
      rw [hsigned, hread, Option.map_some, hvalue, ← Int.eq_neg_natAbs_of_nonpos hnegative.le]
    · next hpositive =>
      have hsigned : readExponent (bytes "e" ++ bytes "+" ++ digits ++ tail) =
          (readDigits (digits ++ tail)).map fun r =>
            (some (Bytes.digitsValue r.1 : Int), r.2) := rfl
      rw [hsigned, hread, Option.map_some, hvalue, Int.natAbs_of_nonneg (not_lt.mp hpositive)]

/-- A written fraction is read back up to the exponent. -/
theorem readFraction_fractionText {fraction : Option Bytes}
    (h : ∀ digits ∈ fraction, IsDigits digits) (e : Option Int)
    {tail : Bytes} (htail : EndsNumber tail) :
    readFraction (fractionText fraction ++ (exponentText e ++ tail)) =
      some (fraction, exponentText e ++ tail) := by
  cases fraction with
  | some digits =>
    obtain ⟨hne, hdigits⟩ := h digits rfl
    have hread := readDigits_append hne hdigits (endsDigits_exponentText e htail)
    exact congrArg (Option.map _) hread
  | none =>
    cases e with
    | none => exact readFraction_of_endsNumber htail
    | some e => rfl

namespace NumberParts

variable {p : NumberParts}

/-- A number with a point or an exponent is a double. -/
theorem IsDouble.numberValue?_eq (h : p.IsDouble) {negative : Bool} {x : Binary64}
    (hfinite : x.isFinite) (hx : Binary64.ofDecimal negative p.digits p.power = x) :
    numberValue? negative p.whole p.fraction p.exponent = some (.double x) := by
  subst hx
  obtain ⟨whole, fraction, exponent⟩ := p
  have hmarked := h.marked
  cases fraction with
  | some digits => exact if_pos hfinite
  | none =>
    cases exponent with
    | some e => exact if_pos hfinite
    | none => exact absurd hmarked (by simp)

/-- The text of such a number is read as the double next to it. -/
theorem IsDouble.readNumber_text (h : p.IsDouble) {negative : Bool} {x : Binary64}
    (hfinite : x.isFinite) (hx : Binary64.ofDecimal negative p.digits p.power = x) {tail : Bytes}
    (htail : EndsNumber tail) :
    readNumber (signText negative ++ p.text ++ tail) = some (.double x, tail) := by
  have hvalue := h.numberValue?_eq hfinite hx
  obtain ⟨⟨hne, hwhole⟩, hleading, hfraction, -⟩ := h
  have hends : EndsDigits (fractionText p.fraction ++ (exponentText p.exponent ++ tail)) := by
    cases p.fraction with
    | none => exact endsDigits_exponentText p.exponent htail
    | some digits =>
      rintro b hb
      obtain rfl := Option.some.inj hb
      decide
  have hdigits := readDigits_append hne hwhole hends
  have hfraction := readFraction_fractionText hfraction p.exponent htail
  have hexponent := readExponent_exponentText p.exponent htail
  have hzero : ¬ (p.whole.head? == some 0x30 && 1 < p.whole.length) = true := by
    simp only [Bool.and_eq_true, beq_iff_eq, decide_eq_true_eq, not_and']
    exact hleading
  have hunsigned (rest : Bytes) : p.text ++ tail ≠ 0x2D :: rest := by
    intro heq
    obtain ⟨d, more, hd⟩ := List.exists_cons_of_ne_nil hne
    have hdigit : Bytes.isDigit d := hwhole d (hd ▸ List.mem_cons_self ..)
    rw [text, hd, List.cons_append, List.cons_append] at heq
    rw [(List.cons.inj heq).1] at hdigit
    exact absurd hdigit (by decide)
  have hread : readMagnitude negative (p.text ++ tail) = some (.double x, tail) := by
    simp only [readMagnitude, text, List.append_assoc, hdigits, Option.bind_eq_bind,
      Option.bind_some, if_neg hzero, hfraction, hexponent, hvalue, Option.pure_def]
  rw [List.append_assoc]
  cases negative with
  | true =>
    rw [signText, if_pos rfl]
    change readNumber (0x2D :: (p.text ++ tail)) = _
    rw [readNumber.eq_1, hread]
  | false =>
    rw [signText, if_neg Bool.false_ne_true, List.nil_append, readNumber.eq_2 _ hunsigned, hread]

/-! ## Where the point is put -/

/-- The number of the parts. -/
def value (p : NumberParts) : ℚ := p.digits * 10 ^ p.power

/-- The parts stand for the digits of a number times a power of ten. -/
structure Shows (p : NumberParts) (n : Nat) (e : Int) : Prop where
  isDouble : p.IsDouble
  value_eq : p.value = n * 10 ^ e

variable {n : Nat} {e : Int}

/-- Digits with a point between them are a double. -/
theorem isDouble_of_isDigits {whole fraction : Bytes} (hwhole : IsDigits whole)
    (hleading : 1 < whole.length → whole.head? ≠ some 0x30) (hfraction : IsDigits fraction) :
    IsDouble ⟨whole, some fraction, none⟩ where
  whole_digits := hwhole
  leading := hleading
  fraction_digits := by
    rintro digits hdigits
    rwa [← Option.some.inj hdigits]
  marked := Or.inl rfl

/-- Zeros are added up to the point. -/
theorem shows_whole (hn : 0 < n) (he : 0 ≤ e) :
    Shows ⟨Bytes.ofNat n ++ List.replicate e.toNat 0x30, some (bytes "0"), none⟩ n e where
  isDouble := by
    refine isDouble_of_isDigits ((isDigits_ofNat n).append_zeros _) (fun _ => ?_) isDigits_zero
    rw [List.head?_append_of_ne_nil _ (Bytes.ofNat_ne_nil n)]
    exact Bytes.head?_ofNat_ne_zero hn
  value_eq := by
    have hdigits : digits ⟨Bytes.ofNat n ++ List.replicate e.toNat 0x30, some (bytes "0"), none⟩ =
        n * 10 ^ e.toNat * 10 := by
      have hzero : Bytes.digitsValue (bytes "0") = 0 := rfl
      have hlength : (bytes "0").length = 1 := rfl
      rw [digits, Option.getD_some, Bytes.digitsValue_append, Bytes.digitsValue_append,
        Bytes.digitsValue_replicate_zero, Bytes.digitsValue_ofNat, List.length_replicate, hzero,
        hlength, pow_one, Nat.add_zero, Nat.add_zero]
    rw [value, hdigits]
    change ((n * 10 ^ e.toNat * 10 : Nat) : ℚ) * 10 ^ (-1 : Int) = _
    push_cast
    rw [zpow_neg_one, ← zpow_natCast, Int.toNat_of_nonneg he]
    field_simp

/-- The point stands between the digits. -/
theorem shows_point (hn : 0 < n) {k : Nat} (hk : 0 < k) (hlt : k < (Bytes.ofNat n).length)
    (he : e + (Bytes.ofNat n).length = k) :
    Shows ⟨(Bytes.ofNat n).take k, some ((Bytes.ofNat n).drop k), none⟩ n e where
  isDouble := by
    refine isDouble_of_isDigits ((isDigits_ofNat n).take hk) (fun _ => ?_)
      ((isDigits_ofNat n).drop hlt)
    rw [List.head?_take, if_neg hk.ne']
    exact Bytes.head?_ofNat_ne_zero hn
  value_eq := by
    rw [value, digits, power, Option.getD_some, List.take_append_drop, Bytes.digitsValue_ofNat,
      List.length_drop, Option.getD_none, Nat.cast_sub hlt.le]
    congr 2
    omega

/-- The point stands in front of the digits, with zeros between. -/
theorem shows_fraction {k : Nat} (he : e + (Bytes.ofNat n).length = -k) :
    Shows ⟨bytes "0", some (List.replicate k 0x30 ++ Bytes.ofNat n), none⟩ n e where
  isDouble := isDouble_of_isDigits isDigits_zero (fun hlength => absurd hlength (by decide))
    ((isDigits_ofNat n).zeros_append k)
  value_eq := by
    have hzero : Bytes.digitsValue (bytes "0") = 0 := rfl
    rw [value, digits, power, Option.getD_some, Bytes.digitsValue_append, Bytes.digitsValue_append,
      hzero, Bytes.digitsValue_replicate_zero, Bytes.digitsValue_ofNat, List.length_append,
      List.length_replicate, Option.getD_none]
    push_cast
    congr 2
    · ring
    · omega

/-- The point stands behind the first digit, and an exponent follows the last one. -/
theorem shows_exponent (n : Nat) (e : Int) :
    Shows ⟨(Bytes.ofNat n).take 1,
      if (Bytes.ofNat n).length = 1 then none else some ((Bytes.ofNat n).drop 1),
      some (e + (Bytes.ofNat n).length - 1)⟩ n e where
  isDouble := by
    refine ⟨(isDigits_ofNat n).take one_pos, fun hlength => ?_,
      fun digits hdigits => ?_, Or.inr rfl⟩
    · exact absurd (List.length_take_le 1 _) (Nat.not_le.mpr hlength)
    · simp only at hdigits
      split at hdigits
      · exact absurd hdigits (Option.not_mem_none _)
      · next hlength =>
        have hpos := List.length_pos_iff.mpr (Bytes.ofNat_ne_nil n)
        obtain rfl := Option.some.inj hdigits
        exact (isDigits_ofNat n).drop (by omega)
  value_eq := by
    have hpos := List.length_pos_iff.mpr (Bytes.ofNat_ne_nil n)
    have hrest : (if (Bytes.ofNat n).length = 1 then none
        else some ((Bytes.ofNat n).drop 1)).getD [] =
        (Bytes.ofNat n).drop 1 := by
      split
      · next hlength => rw [Option.getD_none, List.drop_eq_nil_of_le hlength.le]
      · rfl
    rw [value, digits, power, hrest, List.take_append_drop, Bytes.digitsValue_ofNat,
      List.length_drop, Option.getD_some, Nat.cast_sub hpos]
    congr 2
    push_cast
    omega

end NumberParts

/-! ## Doubles -/

/-- The digits of a nonzero double are laid out as parts of a number. -/
theorem exists_doubleText_eq {x : Binary64} (hfinite : x.isFinite) (hzero : ¬ x.isZero) :
    ∃ p : NumberParts, p.Shows x.shortest.digits x.shortest.exponent ∧
      doubleText x = signText x.isNegative ++ p.text := by
  obtain ⟨hpos, -⟩ := Binary64.contains_shortest hfinite hzero
  have hsign : (if x.isNegative then bytes "-" else []) = signText x.isNegative := rfl
  simp only [doubleText, if_neg hzero, hsign]
  generalize x.shortest.digits = n at *
  generalize x.shortest.exponent = e at *
  split
  · split
    · next hle =>
      refine ⟨_, NumberParts.shows_whole hpos (by omega), ?_⟩
      rw [add_sub_cancel_right]
      rfl
    · next hlt =>
      split
      · next hpoint =>
        refine ⟨_, NumberParts.shows_point hpos (k := (e + (Bytes.ofNat n).length).toNat) (by omega)
          (by omega) (by omega), ?_⟩
        simp only [NumberParts.text, fractionText, exponentText, List.append_assoc, List.append_nil]
      · next hpoint =>
        refine ⟨_, NumberParts.shows_fraction (k := (-(e + (Bytes.ofNat n).length)).toNat)
            (by omega),
          ?_⟩
        have hzero : bytes "0." = bytes "0" ++ bytes "." := rfl
        simp only [NumberParts.text, fractionText, exponentText, List.append_assoc, List.append_nil,
          hzero]
  · refine ⟨_, NumberParts.shows_exponent n e, ?_⟩
    rw [NumberParts.text, apply_ite fractionText]
    simp only [fractionText, exponentText, List.append_assoc]

/-- Every finite double is read back from its text. -/
theorem readsBack_of_isFinite {x : Binary64} (hfinite : x.isFinite) : ReadsBack x := by
  intro tail htail
  by_cases hzero : x.isZero
  · have hdouble : NumberParts.IsDouble ⟨bytes "0", some (bytes "0"), none⟩ :=
      NumberParts.isDouble_of_isDigits isDigits_zero (fun hlength => absurd hlength (by decide))
        isDigits_zero
    have htext : doubleText x =
        signText x.isNegative ++ NumberParts.text ⟨bytes "0", some (bytes "0"), none⟩ := by
      rw [doubleText, if_pos hzero]
      rfl
    rw [htext]
    exact hdouble.readNumber_text hfinite (Binary64.ofDecimal_zero hzero _) htail
  · obtain ⟨p, ⟨hdouble, hvalue⟩, htext⟩ := exists_doubleText_eq hfinite hzero
    obtain ⟨hpos, hcontains⟩ := Binary64.contains_shortest hfinite hzero
    rw [← hvalue] at hcontains
    have hdigits : 0 < p.digits := by
      apply Nat.pos_of_ne_zero
      intro heq
      rw [NumberParts.value, heq, Nat.cast_zero, zero_mul] at hvalue
      have hpos : (0 : ℚ) < x.shortest.digits := Nat.cast_pos.mpr hpos
      have hshown : (0 : ℚ) < x.shortest.digits * 10 ^ x.shortest.exponent := by positivity
      exact hshown.ne hvalue
    rw [htext]
    exact hdouble.readNumber_text hfinite
      (Binary64.ofDecimal_of_contains hfinite hzero hdigits hcontains) htail

end SourceChunks.Json
