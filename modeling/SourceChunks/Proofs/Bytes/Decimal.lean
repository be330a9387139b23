import Mathlib.Algebra.Group.Nat.Defs
import Mathlib.Data.List.Induction
import SourceChunks.Proofs.Bytes.Utf8

/-!
# Decimal and hexadecimal digits

The digits of a number are its digits: they are never empty, begin with a zero only for zero itself,
and their value is the number again. A number written in front of a byte that is no digit can
therefore be read back. Numbers that are written in one width sort by their texts.
-/

namespace SourceChunks.Bytes

/-- A byte is a digit exactly between `0` and `9`. -/
theorem isDigit_iff {b : UInt8} : isDigit b ↔ 0x30 ≤ b.toNat ∧ b.toNat ≤ 0x39 := by
  simp [isDigit, UInt8.le_iff_toNat_le]

/-- The byte of a digit is so far beyond that of zero. -/
theorem toNat_digit {n : Nat} (h : n < 10) : (0x30 + n.toUInt8).toNat = 0x30 + n := by
  simp only [UInt8.toNat_add, Nat.toUInt8_eq, UInt8.toNat_ofNat', UInt8.reduceToNat]
  omega

/-- The digit of a number below ten is a digit. -/
theorem isDigit_digit {n : Nat} (h : n < 10) : isDigit (0x30 + n.toUInt8) := by
  rw [isDigit_iff, toNat_digit h]
  omega

/-- A digit is an ASCII byte. -/
theorem lt_of_isDigit {b : UInt8} (h : isDigit b) : b < 0x80 := by
  have hb := (isDigit_iff.mp h).2
  rw [UInt8.lt_iff_toNat_lt]
  exact Nat.lt_of_le_of_lt hb (by decide)

/-! ## Numbers -/

/-- A number is written with at least one digit. -/
theorem ofNat_ne_nil (n : Nat) : ofNat n ≠ [] := by
  rw [ofNat]
  split <;> simp

/-- A number is written with digits only. -/
theorem isDigit_of_mem_ofNat {n : Nat} {b : UInt8} (hb : b ∈ ofNat n) : isDigit b := by
  induction n using ofNat.induct with
  | case1 n hn =>
    rw [ofNat, if_pos hn] at hb
    rw [List.mem_singleton.mp hb]
    exact isDigit_digit hn
  | case2 n hn ih =>
    rw [ofNat, if_neg hn] at hb
    rcases List.mem_append.mp hb with hb | hb
    · exact ih hb
    · rw [List.mem_singleton.mp hb]
      exact isDigit_digit (Nat.mod_lt _ (by decide))

/-- The digits of a number stand for it. -/
theorem digitsValue_ofNat (n : Nat) : digitsValue (ofNat n) = n := by
  induction n using ofNat.induct with
  | case1 n hn =>
    rw [ofNat, if_pos hn]
    simp only [digitsValue, List.foldl_cons, List.foldl_nil, toNat_digit hn]
    omega
  | case2 n hn ih =>
    rw [ofNat, if_neg hn]
    simp only [digitsValue, List.foldl_append, List.foldl_cons, List.foldl_nil] at ih ⊢
    rw [ih, toNat_digit (Nat.mod_lt _ (by decide))]
    omega

/-- A number of several digits does not begin with a zero. -/
theorem head?_ofNat_ne_zero {n : Nat} (h : 0 < n) : (ofNat n).head? ≠ some 0x30 := by
  induction n using ofNat.induct with
  | case1 n hn =>
    rw [ofNat, if_pos hn, List.head?_cons, ne_eq, Option.some.injEq]
    intro heq
    have hvalue : (0x30 : UInt8).toNat = 0x30 + n := heq ▸ toNat_digit hn
    simp only [UInt8.reduceToNat] at hvalue
    omega
  | case2 n hn ih =>
    have ih := ih (by omega)
    obtain ⟨d, rest, heq⟩ := List.exists_cons_of_ne_nil (ofNat_ne_nil (n / 10))
    rw [ofNat, if_neg hn]
    rw [heq] at ih ⊢
    exact ih

/-- A text that begins with a zero and goes on is not that of a number. -/
theorem head?_ofNat_of_length {n : Nat} (h : 1 < (ofNat n).length) :
    (ofNat n).head? ≠ some 0x30 := by
  refine head?_ofNat_ne_zero (Nat.pos_of_ne_zero fun hn => ?_)
  rw [hn, ofNat, if_pos (by decide), List.length_singleton] at h
  exact absurd h (by decide)

/-- A number is known by its digits. -/
theorem ofNat_injective {m n : Nat} (h : ofNat m = ofNat n) : m = n := by
  rw [← digitsValue_ofNat m, h, digitsValue_ofNat]

/-- An integer is known by its text. -/
theorem ofInt_injective {i j : Int} (h : ofInt i = ofInt j) : i = j := by
  have hminus (m n : Nat) : ofNat m ≠ 0x2D :: ofNat n := by
    intro heq
    have : isDigit 0x2D := isDigit_of_mem_ofNat (n := m) (heq ▸ List.mem_cons_self ..)
    exact absurd this (by decide)
  cases i with
  | ofNat m =>
    cases j with
    | ofNat n => rw [ofNat_injective h]
    | negSucc n => exact absurd h (hminus _ _)
  | negSucc m =>
    cases j with
    | ofNat n => exact absurd h.symm (hminus _ _)
    | negSucc n => rw [Nat.succ.inj (ofNat_injective (List.cons.inj h).2)]

/-- The text of an integer has nothing but digits and a minus sign. -/
theorem mem_ofInt {i : Int} {b : UInt8} (hb : b ∈ ofInt i) : b = 0x2D ∨ isDigit b := by
  cases i with
  | ofNat n => exact Or.inr (isDigit_of_mem_ofNat hb)
  | negSucc n =>
    rcases List.mem_cons.mp hb with hb | hb
    · exact Or.inl hb
    · exact Or.inr (isDigit_of_mem_ofNat hb)

/-! ## Numbers of a width -/

/-- A number has no more digits than a power of ten above it has zeros. -/
theorem length_ofNat_le {n width : Nat} (hwidth : 0 < width) (h : n < 10 ^ width) :
    (ofNat n).length ≤ width := by
  induction n using ofNat.induct generalizing width with
  | case1 n hn =>
    rw [ofNat, if_pos hn]
    exact hwidth
  | case2 n hn ih =>
    obtain ⟨width, rfl⟩ := Nat.exists_eq_add_of_le' hwidth
    have hwidth : 0 < width := by
      apply Nat.pos_of_ne_zero
      rintro rfl
      exact hn h
    have hdiv : n / 10 < 10 ^ width := by
      rw [Nat.pow_succ] at h
      omega
    have hlength := ih hwidth hdiv
    rw [ofNat, if_neg hn, List.length_append, List.length_singleton]
    omega

/-- A number that a width has room for is written in exactly this width. -/
theorem length_ofNatPadded {n width : Nat} (hwidth : 0 < width) (h : n < 10 ^ width) :
    (ofNatPadded width n).length = width := by
  have hlength := length_ofNat_le hwidth h
  rw [ofNatPadded, List.length_append, List.length_replicate]
  omega

/-- A padded number is written with digits only. -/
theorem isDigit_of_mem_ofNatPadded {width n : Nat} {b : UInt8} (hb : b ∈ ofNatPadded width n) :
    isDigit b := by
  rcases List.mem_append.mp hb with hb | hb
  · rw [(List.mem_replicate.mp hb).2]
    decide
  · exact isDigit_of_mem_ofNat hb

/-- Digits in front of others count as many times more as these have places. -/
theorem digitsValue_append (s t : Bytes) :
    digitsValue (s ++ t) = digitsValue s * 10 ^ t.length + digitsValue t := by
  induction t using List.reverseRecOn with
  | nil => rw [List.append_nil, List.length_nil, Nat.pow_zero, Nat.mul_one]; rfl
  | append_singleton t d ih =>
    have hlast (u : Bytes) : digitsValue (u ++ [d]) = 10 * digitsValue u + (d.toNat - 0x30) := by
      simp only [digitsValue, List.foldl_append, List.foldl_cons, List.foldl_nil]
    rw [← List.append_assoc, hlast, ih, hlast, List.length_append, List.length_singleton,
      Nat.pow_succ, Nat.mul_add, ← Nat.add_assoc, Nat.mul_left_comm, Nat.mul_comm 10 (10 ^ _)]

/-- Zeros stand for nothing. -/
theorem digitsValue_replicate_zero (n : Nat) : digitsValue (List.replicate n 0x30) = 0 := by
  induction n with
  | zero => rfl
  | succ n ih => exact ih

/-- Zeros in front of a number do not count. -/
theorem digitsValue_ofNatPadded (width n : Nat) : digitsValue (ofNatPadded width n) = n := by
  rw [ofNatPadded, digitsValue_append, digitsValue_replicate_zero, digitsValue_ofNat, Nat.zero_mul,
    Nat.zero_add]

/-- A digit is no white space. -/
theorem not_isSpace_of_isDigit {b : UInt8} (h : isDigit b) : ¬ isSpace b := by
  rw [isDigit_iff] at h
  simp only [isSpace, Bool.or_eq_true, beq_iff_eq, Bool.and_eq_true, decide_eq_true_eq,
    UInt8.le_iff_toNat_le, ← UInt8.toNat_inj, UInt8.reduceToNat]
  omega

/-- The digits of a number begin with one, and not with white space. -/
theorem exists_ofNatPadded_eq_cons (width n : Nat) :
    ∃ d digits, ofNatPadded width n = d :: digits ∧ ¬ isSpace d := by
  have hne : ofNatPadded width n ≠ [] := List.append_ne_nil_of_right_ne_nil _ (ofNat_ne_nil n)
  obtain ⟨d, digits, heq⟩ := List.exists_cons_of_ne_nil hne
  have hdigit : isDigit d := isDigit_of_mem_ofNatPadded (heq ▸ List.mem_cons_self ..)
  exact ⟨d, digits, heq, not_isSpace_of_isDigit hdigit⟩

/-! ## Order -/

/-- Texts that start with pieces of one length are in order when the first pieces are, or are equal
and the rests are in order. -/
theorem append_lt_append_iff {s s' t t' : Bytes} (h : s.length = s'.length) :
    s ++ t < s' ++ t' ↔ s < s' ∨ s = s' ∧ t < t' := by
  induction s generalizing s' with
  | nil =>
    obtain rfl := List.length_eq_zero_iff.mp h.symm
    simp
  | cons b s ih =>
    cases s' with
    | nil => exact absurd h nofun
    | cons b' s' =>
      simp only [List.cons_append, List.cons_lt_cons_iff, List.cons.injEq,
        ih (Nat.succ.inj h), and_or_left, and_assoc, or_assoc]

/-- The first digit counts with the power of ten of the digits after it. -/
theorem digitsValue_cons (d : UInt8) (s : Bytes) :
    digitsValue (d :: s) = (d.toNat - 0x30) * 10 ^ s.length + digitsValue s := by
  rw [← List.singleton_append, digitsValue_append]
  simp [digitsValue]

/-- The value of a run of digits is below the power of ten of its length. -/
theorem digitsValue_lt {s : Bytes} (h : ∀ b ∈ s, isDigit b) : digitsValue s < 10 ^ s.length := by
  induction s with
  | nil => exact Nat.one_pos
  | cons d s ih =>
    obtain ⟨hd, hs⟩ := List.forall_mem_cons.mp h
    have hlt := ih hs
    have hdigit := (isDigit_iff.mp hd).2
    have hle : (d.toNat - 0x30) * 10 ^ s.length ≤ 9 * 10 ^ s.length :=
      Nat.mul_le_mul_right _ (by omega)
    rw [digitsValue_cons, List.length_cons, Nat.pow_succ]
    omega

/-- Of two runs of equally many digits the smaller one stands for the smaller number. -/
theorem lt_iff_digitsValue_lt {s t : Bytes} (hs : ∀ b ∈ s, isDigit b) (ht : ∀ b ∈ t, isDigit b)
    (hlength : s.length = t.length) : s < t ↔ digitsValue s < digitsValue t := by
  induction s generalizing t with
  | nil =>
    obtain rfl := List.length_eq_zero_iff.mp hlength.symm
    simp
  | cons d s ih =>
    cases t with
    | nil => exact absurd hlength nofun
    | cons d' t =>
      obtain ⟨hd, hs⟩ := List.forall_mem_cons.mp hs
      obtain ⟨hd', ht⟩ := List.forall_mem_cons.mp ht
      have hlength := Nat.succ.inj hlength
      have hvalue := digitsValue_lt hs
      have hvalue' := digitsValue_lt ht
      have hlow := (isDigit_iff.mp hd).1
      have hlow' := (isDigit_iff.mp hd').1
      rw [List.cons_lt_cons_iff, ih hs ht hlength, digitsValue_cons, digitsValue_cons,
        UInt8.lt_iff_toNat_lt, ← UInt8.toNat_inj, hlength]
      rw [hlength] at hvalue
      -- The first digit outweighs all that follow it.
      have houtweighs {m n v w : Nat} (hmn : m < n) (hv : v < 10 ^ t.length) :
          m * 10 ^ t.length + v < n * 10 ^ t.length + w := by
        have hle : (m + 1) * 10 ^ t.length ≤ n * 10 ^ t.length := Nat.mul_le_mul_right _ hmn
        rw [Nat.add_mul] at hle
        omega
      constructor
      · rintro (hlt | ⟨heq, hlt⟩)
        · exact houtweighs (by omega) hvalue
        · rw [heq]
          exact Nat.add_lt_add_left hlt _
      · intro hlt
        rcases Nat.lt_trichotomy d.toNat d'.toNat with hfirst | heq | hfirst
        · exact .inl hfirst
        · rw [heq] at hlt
          exact .inr ⟨heq, Nat.lt_of_add_lt_add_left hlt⟩
        · have hgreater : d'.toNat - 0x30 < d.toNat - 0x30 := by omega
          exact absurd hlt (Nat.lt_asymm (houtweighs hgreater hvalue'))

/-- Numbers that are written in one width sort by their texts, and what follows them sorts what is
behind equal ones. -/
theorem ofNatPadded_append_lt_iff {width m n : Nat} (hwidth : 0 < width) (hm : m < 10 ^ width)
    (hn : n < 10 ^ width) {s t : Bytes} :
    ofNatPadded width m ++ s < ofNatPadded width n ++ t ↔ m < n ∨ m = n ∧ s < t := by
  have hlength : (ofNatPadded width m).length = (ofNatPadded width n).length := by
    rw [length_ofNatPadded hwidth hm, length_ofNatPadded hwidth hn]
  have hinj : ofNatPadded width m = ofNatPadded width n ↔ m = n := by
    refine ⟨fun heq => ?_, congrArg _⟩
    rw [← digitsValue_ofNatPadded width m, heq, digitsValue_ofNatPadded]
  rw [append_lt_append_iff hlength,
    lt_iff_digitsValue_lt (fun _ => isDigit_of_mem_ofNatPadded)
      (fun _ => isDigit_of_mem_ofNatPadded) hlength,
    digitsValue_ofNatPadded, digitsValue_ofNatPadded, hinj]

/-! ## Digits are ASCII -/

/-- Decimal numbers are ASCII. -/
theorem ascii_ofNat (n : Nat) : Ascii (ofNat n) := fun _ hb =>
  lt_of_isDigit (isDigit_of_mem_ofNat hb)

/-- Padded decimal numbers are ASCII. -/
theorem ascii_ofNatPadded (width n : Nat) : Ascii (ofNatPadded width n) := by
  refine ascii_append.mpr ⟨fun b hb => ?_, ascii_ofNat n⟩
  rw [(List.mem_replicate.mp hb).2]
  decide

/-- The digit of a value below sixteen stands for that value. -/
theorem hexValue?_hexDigit (n : Fin 16) :
    hexValue? (hexDigit (UInt8.ofNat n)) = some n.val := by
  revert n
  decide

/-- A hexadecimal digit is ASCII. -/
theorem hexDigit_lt {n : UInt8} (h : n < 16) : hexDigit n < 0x80 := by
  unfold hexDigit
  rw [UInt8.lt_iff_toNat_lt] at h ⊢
  split <;> simp only [UInt8.toNat_add, UInt8.reduceToNat] at h ⊢ <;> omega

/-- The two halves of a byte as numbers. -/
theorem toNat_halves (b : UInt8) :
    (b >>> 4).toNat = b.toNat / 16 ∧ (b &&& 0x0F).toNat = b.toNat % 16 := by
  constructor
  · rw [UInt8.toNat_shiftRight, Nat.shiftRight_eq_div_pow]
    rfl
  · rw [UInt8.toNat_and]
    exact Nat.and_two_pow_sub_one_eq_mod b.toNat 4

/-- Both halves of a byte are below sixteen. -/
theorem halves_lt (b : UInt8) : b >>> 4 < 16 ∧ b &&& 0x0F < 16 := by
  obtain ⟨hhigh, hlow⟩ := toNat_halves b
  have hb := b.toNat_lt
  rw [UInt8.lt_iff_toNat_lt, UInt8.lt_iff_toNat_lt, hhigh, hlow]
  simp only [UInt8.reduceToNat]
  omega

/-- Hexadecimal text is ASCII. -/
theorem ascii_hex (t : Bytes) : Ascii (hex t) := by
  intro d hd
  obtain ⟨b, -, hmem⟩ := List.mem_flatMap.mp hd
  obtain ⟨hhigh, hlow⟩ := halves_lt b
  rcases List.mem_cons.mp hmem with rfl | hmem
  · exact hexDigit_lt hhigh
  · rw [List.mem_singleton.mp hmem]
    exact hexDigit_lt hlow

/-- The digits of bytes are those of values. -/
theorem isSome_hexValue?_of_mem_hex {t : Bytes} {d : UInt8} (hd : d ∈ hex t) :
    (hexValue? d).isSome := by
  have hdigit {n : UInt8} (hn : n < 16) : (hexValue? (hexDigit n)).isSome := by
    have hvalue := hexValue?_hexDigit ⟨n.toNat, UInt8.lt_iff_toNat_lt.mp hn⟩
    rw [UInt8.ofNat_toNat] at hvalue
    rw [hvalue]
    rfl
  obtain ⟨b, -, hmem⟩ := List.mem_flatMap.mp hd
  obtain ⟨hhigh, hlow⟩ := halves_lt b
  rcases List.mem_cons.mp hmem with rfl | hmem
  · exact hdigit hhigh
  · rw [List.mem_singleton.mp hmem]
    exact hdigit hlow

/-- Hexadecimal text has two digits for each byte. -/
theorem length_hex (t : Bytes) : (hex t).length = 2 * t.length := by
  induction t with
  | nil => rfl
  | cons b rest ih =>
    simp only [hex, List.flatMap_cons, List.length_append, List.length_cons,
      List.length_nil] at ih ⊢
    omega

end SourceChunks.Bytes
