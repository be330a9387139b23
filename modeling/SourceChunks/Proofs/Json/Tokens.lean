import SourceChunks.Json.Parser
import SourceChunks.Json.Printer
import SourceChunks.Proofs.Bytes.Decimal

/-!
# Strings and whole numbers read back

What is written for a string ends at the quote after it, and every byte of the string comes back
from its written form, whichever of the three forms that is. A whole number comes back from its
digits if what follows it cannot be taken for more of the number.
-/

namespace SourceChunks.Json

/-! ## Bytes of a string -/

/-- The three forms in which a byte of a string is written: a backslash and a letter, a backslash
and four digits, or the byte itself. -/
theorem escapeByte_cases (b : UInt8) :
    (∃ e, escapeByte b = [0x5C, e] ∧ b < 0x80 ∧ e < 0x80 ∧ e ≠ 0x75 ∧ shortEscape? e = some b) ∨
    (b < 0x20 ∧ escapeByte b =
      [0x5C, 0x75, 0x30, 0x30, Bytes.hexDigit (b >>> 4), Bytes.hexDigit (b &&& 0x0F)]) ∨
    (escapeByte b = [b] ∧ ¬ b < 0x20 ∧ b ≠ 0x22 ∧ b ≠ 0x5C) := by
  by_cases hshort : b ∈ [0x22, 0x5C, 0x08, 0x0C, 0x0A, 0x0D, (0x09 : UInt8)]
  · left
    simp only [List.mem_cons, List.not_mem_nil, or_false] at hshort
    rcases hshort with rfl | rfl | rfl | rfl | rfl | rfl | rfl
    · exact ⟨0x22, by decide⟩
    · exact ⟨0x5C, by decide⟩
    · exact ⟨0x62, by decide⟩
    · exact ⟨0x66, by decide⟩
    · exact ⟨0x6E, by decide⟩
    · exact ⟨0x72, by decide⟩
    · exact ⟨0x74, by decide⟩
  · right
    simp only [List.mem_cons, List.not_mem_nil, or_false, not_or] at hshort
    obtain ⟨h22, h5C, h08, h0C, h0A, h0D, h09⟩ := hshort
    have hbytes : bytes "\\u00" = [0x5C, 0x75, 0x30, 0x30] := by decide
    by_cases hcontrol : b < 0x20
    · left
      refine ⟨hcontrol, ?_⟩
      simp [escapeByte, h22, h5C, h08, h0C, h0A, h0D, h09, hcontrol, hbytes, Bytes.hex]
    · right
      refine ⟨?_, hcontrol, h22, h5C⟩
      simp [escapeByte, h22, h5C, h08, h0C, h0A, h0D, h09, hcontrol]

/-- The four digits of a byte stand for it. -/
theorem hexCode?_hexDigits (b : UInt8) :
    hexCode? 0x30 0x30 (Bytes.hexDigit (b >>> 4)) (Bytes.hexDigit (b &&& 0x0F)) =
      some b.toNat := by
  obtain ⟨hhigh, hlow⟩ := Bytes.halves_lt b
  have h := Bytes.hexValue?_hexDigit ⟨(b >>> 4).toNat, UInt8.lt_iff_toNat_lt.mp hhigh⟩
  have h' := Bytes.hexValue?_hexDigit ⟨(b &&& 0x0F).toNat, UInt8.lt_iff_toNat_lt.mp hlow⟩
  rw [UInt8.ofNat_toNat] at h h'
  have hzero : Bytes.hexValue? 0x30 = some 0 := by decide
  simp only [hexCode?, hzero, h, h', Option.bind_eq_bind, Option.bind_some, Option.pure_def,
    Option.some.injEq]
  obtain ⟨hdiv, hmod⟩ := Bytes.toNat_halves b
  rw [hdiv, hmod]
  omega

/-- A digit is neither a quote nor a backslash. -/
theorem hexDigit_ne {b : UInt8} (h : b < 16) :
    Bytes.hexDigit b ≠ 0x22 ∧ Bytes.hexDigit b ≠ 0x5C := by
  have hvalue := Bytes.hexValue?_hexDigit ⟨b.toNat, UInt8.lt_iff_toNat_lt.mp h⟩
  rw [UInt8.ofNat_toNat] at hvalue
  have hquote : Bytes.hexValue? 0x22 = none := by decide
  have hbackslash : Bytes.hexValue? 0x5C = none := by decide
  constructor
  · intro heq
    rw [heq, hquote] at hvalue
    exact absurd hvalue nofun
  · intro heq
    rw [heq, hbackslash] at hvalue
    exact absurd hvalue nofun

/-- Reading up to the closing quote passes over an ordinary byte. -/
theorem readRaw_cons {b : UInt8} (hquote : b ≠ 0x22) (hbackslash : b ≠ 0x5C) (t : Bytes) :
    readRaw (b :: t) = (readRaw t).map fun r => (b :: r.1, r.2) :=
  readRaw.eq_4 b t hquote fun _ _ h _ => hbackslash h

/-- Reading up to the closing quote passes over the written form of a byte. -/
theorem readRaw_escapeByte (b : UInt8) (t : Bytes) :
    readRaw (escapeByte b ++ t) = (readRaw t).map fun r => (escapeByte b ++ r.1, r.2) := by
  rcases escapeByte_cases b with ⟨e, heq, -⟩ | ⟨-, heq⟩ | ⟨heq, -, hquote, hbackslash⟩
  · rw [heq]
    rfl
  · obtain ⟨hhigh, hlow⟩ := Bytes.halves_lt b
    have hhigh := hexDigit_ne hhigh
    have hlow := hexDigit_ne hlow
    rw [heq]
    simp only [List.cons_append, List.nil_append, readRaw.eq_3]
    rw [readRaw_cons (by decide) (by decide), readRaw_cons (by decide) (by decide),
      readRaw_cons hhigh.1 hhigh.2, readRaw_cons hlow.1 hlow.2]
    simp only [Option.map_map, Function.comp_def]
  · rw [heq]
    exact readRaw_cons hquote hbackslash t

/-- The written form of a string ends at the quote after it. -/
theorem readRaw_flatMap (t tail : Bytes) :
    readRaw (t.flatMap escapeByte ++ 0x22 :: tail) = some (t.flatMap escapeByte, tail) := by
  induction t with
  | nil => rfl
  | cons b rest ih =>
    rw [List.flatMap_cons, List.append_assoc, readRaw_escapeByte, ih]
    rfl

/-- A code unit below the surrogates is a scalar value of its own. -/
theorem assemble?_code {u : Nat} (h : u < 0xD800) (us : List TextUnit) :
    assemble? (.code u :: us) = (assemble? us).map (Bytes.encodeScalar u ++ ·) := by
  have hlow : ¬ (0xD800 ≤ u ∧ u < 0xDC00) := by omega
  have hhigh : ¬ (0xDC00 ≤ u ∧ u < 0xE000) := by omega
  have hboth : ¬ (0xD800 ≤ u ∧ u < 0xE000) := by omega
  rcases us with - | ⟨b | v, rest⟩
  · rw [assemble?.eq_4 u [] nofun, if_neg hboth]
  · rw [assemble?.eq_4 u (.byte b :: rest) (by simp), if_neg hboth]
  · rw [assemble?.eq_3, if_neg hlow, if_neg hhigh]

/-- Each byte is written as one unit, which makes the byte again. -/
theorem exists_unit (b : UInt8) : ∃ u : TextUnit,
    (∀ t, textUnits? (escapeByte b ++ t) = (textUnits? t).map (u :: ·)) ∧
      ∀ us, assemble? (u :: us) = (assemble? us).map (b :: ·) := by
  rcases escapeByte_cases b with ⟨e, heq, -, -, hu, hshort⟩ | ⟨hcontrol, heq⟩ |
    ⟨heq, hcontrol, -, hbackslash⟩
  · refine ⟨.byte b, fun t => ?_, fun us => rfl⟩
    rw [heq, List.cons_append, List.cons_append, List.nil_append, textUnits?.eq_3 e t ?_]
    · simp only [hshort, Option.bind_eq_bind, Option.bind_some, Option.pure_def]
      exact (Option.map_eq_bind ..).symm
    · rintro _ _ _ _ _ rfl
      exact absurd rfl hu
  · refine ⟨.code b.toNat, fun t => ?_, fun us => ?_⟩
    · rw [heq]
      simp only [List.cons_append, List.nil_append, textUnits?.eq_2, hexCode?_hexDigits,
        Option.bind_eq_bind, Option.bind_some, Option.pure_def]
      exact (Option.map_eq_bind ..).symm
    · have hlt : b.toNat < 0x20 := UInt8.lt_iff_toNat_lt.mp hcontrol
      have hscalar : Bytes.encodeScalar b.toNat = [b] := by
        rw [Bytes.encodeScalar, if_pos (by omega), Nat.toUInt8_eq, UInt8.ofNat_toNat]
      rw [assemble?_code (by omega), hscalar]
      rfl
  · refine ⟨.byte b, fun t => ?_, fun us => rfl⟩
    rw [heq, List.singleton_append, textUnits?.eq_4 b t (fun _ _ _ _ _ h _ => hbackslash h)
      (fun _ _ h _ => hbackslash h), if_neg (by simp [hcontrol, hbackslash])]

/-- The units of a written string make the string again. -/
theorem exists_units (t : Bytes) :
    ∃ us, textUnits? (t.flatMap escapeByte) = some us ∧ assemble? us = some t := by
  induction t with
  | nil => exact ⟨[], rfl, rfl⟩
  | cons b rest ih =>
    obtain ⟨u, htext, hassemble⟩ := exists_unit b
    obtain ⟨us, htexts, hassembles⟩ := ih
    refine ⟨u :: us, ?_, ?_⟩
    · rw [List.flatMap_cons, htext, htexts, Option.map_some]
    · rw [hassemble, hassembles, Option.map_some]

/-- What is written for a well-formed string is well-formed. -/
theorem isUtf8_flatMap_escapeByte {t : Bytes} (ht : Bytes.isUtf8 t) :
    Bytes.isUtf8 (t.flatMap escapeByte) := by
  refine (Bytes.isUtf8_flatMap_iff fun b => ?_).mpr ht
  rcases escapeByte_cases b with ⟨e, heq, hb, he, -⟩ | ⟨hcontrol, heq⟩ | ⟨heq, -⟩
  · rw [heq]
    exact Or.inr ⟨hb, by simpa using he, nofun⟩
  · rw [heq]
    obtain ⟨hhigh, hlow⟩ := Bytes.halves_lt b
    refine Or.inr ⟨UInt8.lt_trans hcontrol (by decide), ?_, nofun⟩
    simpa using ⟨Bytes.hexDigit_lt hhigh, Bytes.hexDigit_lt hlow⟩
  · exact Or.inl heq

/-- A well-formed string is written between quotes. -/
theorem quote?_eq {t : Bytes} (ht : Bytes.isUtf8 t) (tail : Bytes) :
    quote? t tail = some (0x22 :: (t.flatMap escapeByte ++ 0x22 :: tail)) := by
  rw [quote?, if_pos ht]
  rfl

/-- A well-formed string is read back from what is written between the quotes. -/
theorem readString_flatMap {t : Bytes} (ht : Bytes.isUtf8 t) (tail : Bytes) :
    readString (t.flatMap escapeByte ++ 0x22 :: tail) = some (t, tail) := by
  obtain ⟨us, htext, hassemble⟩ := exists_units t
  rw [readString, readRaw_flatMap]
  simp only [Option.bind_eq_bind, Option.bind_some, if_pos (isUtf8_flatMap_escapeByte ht), htext,
    hassemble, Option.pure_def]

/-! ## Whole numbers -/

/-- A text that cannot go on a number: it begins with no digit, point or exponent. -/
def EndsNumber (t : Bytes) : Prop :=
  ∀ b ∈ t.head?, ¬ Bytes.isDigit b ∧ b ≠ 0x2E ∧ b ≠ 0x65 ∧ b ≠ 0x45

/-- The end of the text ends a number. -/
theorem endsNumber_nil : EndsNumber [] := nofun

/-- A byte that cannot go on a number ends it. -/
theorem endsNumber_cons {b : UInt8} (t : Bytes)
    (h : ¬ Bytes.isDigit b ∧ b ≠ 0x2E ∧ b ≠ 0x65 ∧ b ≠ 0x45) : EndsNumber (b :: t) := by
  rintro b' hb'
  rwa [← Option.some.inj hb']

/-- A text that cannot go on a run of digits. -/
def EndsDigits (t : Bytes) : Prop := ∀ b ∈ t.head?, ¬ Bytes.isDigit b

/-- What ends a number ends a run of digits. -/
theorem EndsNumber.endsDigits {t : Bytes} (h : EndsNumber t) : EndsDigits t :=
  fun b hb => (h b hb).1

/-- Digits are read up to the end of their run. -/
theorem readDigits_append {digits tail : Bytes} (hne : digits ≠ [])
    (hdigits : ∀ b ∈ digits, Bytes.isDigit b) (htail : EndsDigits tail) :
    readDigits (digits ++ tail) = some (digits, tail) := by
  have htake : tail.takeWhile Bytes.isDigit = [] := by
    cases tail with
    | nil => rfl
    | cons b rest => rw [List.takeWhile_cons_of_neg (htail b rfl)]
  have hdrop : tail.dropWhile Bytes.isDigit = tail := by
    cases tail with
    | nil => rfl
    | cons b rest => rw [List.dropWhile_cons_of_neg (htail b rfl)]
  rw [readDigits, List.takeWhile_append_of_pos hdigits, List.dropWhile_append_of_pos hdigits, htake,
    hdrop, List.append_nil, if_neg (by simpa using hne)]

/-- Nothing of the number follows its end. -/
theorem readFraction_of_endsNumber {t : Bytes} (h : EndsNumber t) :
    readFraction t = some (none, t) := by
  cases t with
  | nil => rfl
  | cons b rest =>
    rw [readFraction.eq_2]
    rintro _ heq
    exact (h b rfl).2.1 (List.cons.inj heq).1

/-- There is no exponent where a number ends. -/
theorem readExponent_of_endsNumber {t : Bytes} (h : EndsNumber t) :
    readExponent t = some (none, t) := by
  cases t with
  | nil => rfl
  | cons b rest =>
    obtain ⟨-, -, he, hE⟩ := h b rfl
    simp [readExponent, he, hE]

/-- A text that begins with a digit begins with no sign. -/
theorem ofNat_ne_minus (n : Nat) (tail rest : Bytes) : Bytes.ofNat n ++ tail ≠ 0x2D :: rest := by
  intro heq
  obtain ⟨d, more, hd⟩ := List.exists_cons_of_ne_nil (Bytes.ofNat_ne_nil n)
  have hdigit : Bytes.isDigit d := Bytes.isDigit_of_mem_ofNat (n := n) (hd ▸ List.mem_cons_self ..)
  rw [hd, List.cons_append] at heq
  rw [(List.cons.inj heq).1] at hdigit
  exact absurd hdigit (by decide)

/-- A whole number of 64 bits is read back from its digits. -/
theorem readNumber_ofInt {i : Int} (hlow : -(2 * i) ≤ UInt64.size) (hhigh : i < UInt64.size)
    {tail : Bytes} (htail : EndsNumber tail) :
    readNumber (Bytes.ofInt i ++ tail) = some (.int i, tail) := by
  have hdigits (n : Nat) : readDigits (Bytes.ofNat n ++ tail) = some (Bytes.ofNat n, tail) :=
    readDigits_append (Bytes.ofNat_ne_nil n) (fun _ => Bytes.isDigit_of_mem_ofNat) htail.endsDigits
  have hzero (n : Nat) :
      ¬ ((Bytes.ofNat n).head? == some 0x30 && 1 < (Bytes.ofNat n).length) = true := by
    simp only [Bool.and_eq_true, beq_iff_eq, decide_eq_true_eq, not_and']
    exact Bytes.head?_ofNat_of_length
  have hfraction := readFraction_of_endsNumber htail
  have hexponent := readExponent_of_endsNumber htail
  cases i with
  | ofNat n =>
    rw [Bytes.ofInt, readNumber.eq_2 _ (ofNat_ne_minus n tail), readMagnitude]
    simp only [hdigits, Option.bind_eq_bind, Option.bind_some, if_neg (hzero n),
      hfraction, hexponent, numberValue?, Bytes.digitsValue_ofNat, Bool.false_eq_true, if_false,
      if_pos (Int.ofNat_lt.mp hhigh), Option.pure_def]
    rfl
  | negSucc n =>
    have hle : 2 * (n + 1) ≤ UInt64.size := by omega
    rw [Bytes.ofInt, List.cons_append, readNumber.eq_1, readMagnitude]
    simp only [hdigits, Option.bind_eq_bind, Option.bind_some, if_neg (hzero _), hfraction,
      hexponent, numberValue?, Bytes.digitsValue_ofNat, if_true, if_pos hle, Option.pure_def]
    rfl

end SourceChunks.Json
