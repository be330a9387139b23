import SourceChunks.Proofs.Json.RoundTrip

/-!
# Documents that are cut off

A reader that has left something of a text leaves it also if more text follows, and then leaves that
as well. An object ends with its brace, so there is something left whenever the text of an object
goes on. What was written for an object can therefore not be read if its end is missing.
-/

namespace SourceChunks.Json

variable {t rest : Bytes}

/-- A reader that leaves something of a text reads the same of every longer text. -/
def Settles {α : Type} (read : Bytes → Option (α × Bytes)) : Prop :=
  ∀ t v rest, read t = some (v, rest) → rest ≠ [] → ∀ s, read (t ++ s) = some (v, rest ++ s)

/-- White space ends where it did before more text followed. -/
theorem skipSpace_append {b : UInt8} (h : skipSpace t = b :: rest) (s : Bytes) :
    skipSpace (t ++ s) = b :: (rest ++ s) := by
  rw [skipSpace] at h ⊢
  rw [List.dropWhile_append, h]
  rfl

/-- A text has a byte if there is one behind its white space. -/
theorem ne_nil_of_skipSpace {b : UInt8} (h : skipSpace t = b :: rest) : t ≠ [] := by
  rintro rfl
  cases h

/-- A text that starts in some way still does when more text follows. -/
theorem stripPrefix?_append {start : Bytes} (h : Bytes.stripPrefix? start t = some rest)
    (s : Bytes) : Bytes.stripPrefix? start (t ++ s) = some (rest ++ s) := by
  induction start generalizing t with
  | nil =>
    obtain rfl := Option.some.inj h
    rfl
  | cons a start ih =>
    cases t with
    | nil => exact absurd h nofun
    | cons b t =>
      obtain ⟨hab, h⟩ := Option.ite_none_right_eq_some.mp h
      exact (if_pos hab).trans (ih h)

/-! ## Strings -/

/-- The closing quote stays where it is. -/
theorem readRaw_append {raw : Bytes} (h : readRaw t = some (raw, rest)) (s : Bytes) :
    readRaw (t ++ s) = some (raw, rest ++ s) := by
  induction t using readRaw.induct generalizing raw with
  | case1 => cases h
  | case2 t =>
    obtain ⟨rfl, rfl⟩ := Prod.mk.inj (Option.some.inj h)
    rfl
  | case3 b t ih =>
    rw [readRaw] at h
    obtain ⟨⟨raw, after⟩, hraw, h⟩ := Option.map_eq_some_iff.mp h
    obtain ⟨rfl, rfl⟩ := Prod.mk.inj h
    rw [List.cons_append, List.cons_append, readRaw, ih hraw]
    rfl
  | case4 b t hquote hescape ih =>
    rw [readRaw.eq_4 b t hquote hescape] at h
    obtain ⟨⟨raw, after⟩, hraw, h⟩ := Option.map_eq_some_iff.mp h
    obtain ⟨rfl, rfl⟩ := Prod.mk.inj h
    -- A backslash at the end of the text would escape what follows, but then no quote was found.
    have hbackslash : b ≠ 0x5C := by
      intro hb
      cases t with
      | nil => cases hraw
      | cons c t => exact hescape c t hb rfl
    rw [List.cons_append, readRaw_cons hquote hbackslash, ih hraw]
    rfl

/-- A string that was read is read the same when more text follows. -/
theorem readString_append {text : Bytes} (h : readString t = some (text, rest)) (s : Bytes) :
    readString (t ++ s) = some (text, rest ++ s) := by
  unfold readString at h ⊢
  obtain ⟨⟨raw, after⟩, hraw, h⟩ := Option.bind_eq_some_iff.mp h
  rw [readRaw_append hraw]
  obtain ⟨hutf8, h⟩ := Option.ite_none_right_eq_some.mp h
  obtain ⟨us, hunits, h⟩ := Option.bind_eq_some_iff.mp h
  obtain ⟨bs, hassemble, h⟩ := Option.bind_eq_some_iff.mp h
  obtain ⟨rfl, rfl⟩ := Prod.mk.inj (Option.some.inj h)
  simp [hutf8, hunits, hassemble]

/-! ## Numbers -/

/-- A run of digits is read the same of every longer text once something follows it. -/
theorem settles_readDigits : Settles readDigits := by
  intro t digits rest h hrest s
  unfold readDigits at h ⊢
  obtain ⟨hempty, h⟩ := Option.ite_none_left_eq_some.mp h
  obtain ⟨rfl, rfl⟩ := Prod.mk.inj (Option.some.inj h)
  have hlength : (t.takeWhile Bytes.isDigit).length ≠ t.length := by
    intro heq
    have hparts := congrArg List.length (t.takeWhile_append_dropWhile (p := Bytes.isDigit))
    rw [List.length_append, heq] at hparts
    exact hrest (List.length_eq_zero_iff.mp (by omega))
  have htake : (t ++ s).takeWhile Bytes.isDigit = t.takeWhile Bytes.isDigit := by
    rw [List.takeWhile_append, if_neg hlength]
  have hdrop : (t ++ s).dropWhile Bytes.isDigit = t.dropWhile Bytes.isDigit ++ s := by
    rw [List.dropWhile_append, if_neg (by simpa using hrest)]
  simp only [htake, hdrop, if_neg hempty]

/-- A fraction is read the same of every longer text once something follows it. -/
theorem settles_readFraction : Settles readFraction := by
  intro t fraction rest h hrest s
  unfold readFraction at h
  split at h
  · next more =>
    obtain ⟨⟨digits, after⟩, hdigits, h⟩ := Option.map_eq_some_iff.mp h
    obtain ⟨rfl, rfl⟩ := Prod.mk.inj h
    rw [List.cons_append, readFraction, settles_readDigits _ _ _ hdigits hrest]
    rfl
  · next hpoint =>
    obtain ⟨rfl, rfl⟩ := Prod.mk.inj (Option.some.inj h)
    obtain ⟨b, t, rfl⟩ := List.exists_cons_of_ne_nil hrest
    refine readFraction.eq_2 _ fun more heq => ?_
    exact hpoint t (by rw [(List.cons.inj heq).1])

/-- A sign stays the same when more text follows. -/
theorem readSign_append (ht : t ≠ []) (s : Bytes) :
    readSign (t ++ s) = ((readSign t).1, (readSign t).2 ++ s) := by
  obtain ⟨b, t, rfl⟩ := List.exists_cons_of_ne_nil ht
  by_cases hminus : b = 0x2D
  · subst hminus
    rfl
  by_cases hplus : b = 0x2B
  · subst hplus
    rfl
  · have hnone (t : Bytes) : readSign (b :: t) = (false, b :: t) :=
      readSign.eq_3 _ (fun _ heq => hminus (List.cons.inj heq).1)
        fun _ heq => hplus (List.cons.inj heq).1
    rw [List.cons_append, hnone, hnone]
    rfl

/-- An exponent is read the same of every longer text once something follows it. -/
theorem settles_readExponent : Settles readExponent := by
  intro t exponent rest h hrest s
  cases t with
  | nil =>
    obtain ⟨rfl, rfl⟩ := Prod.mk.inj (Option.some.inj h)
    exact absurd rfl hrest
  | cons b t =>
    rw [readExponent] at h
    split at h
    · next hletter =>
      have ht : t ≠ [] := by
        rintro rfl
        cases h
      have hsign := readSign_append ht s
      rcases hparts : readSign t with ⟨negative, more⟩
      rw [hparts] at h hsign
      obtain ⟨⟨digits, after⟩, hdigits, h⟩ := Option.map_eq_some_iff.mp h
      obtain ⟨rfl, rfl⟩ := Prod.mk.inj h
      rw [List.cons_append, readExponent, if_pos hletter, hsign]
      simp only [settles_readDigits _ _ _ hdigits hrest, Option.map_some]
    · next hletter =>
      obtain ⟨rfl, rfl⟩ := Prod.mk.inj (Option.some.inj h)
      exact if_neg hletter

/-- What follows the digits of a number is left by none of its parts if it is left by the last. -/
theorem settles_readMagnitude (negative : Bool) : Settles (readMagnitude negative) := by
  intro t v rest h hrest s
  unfold readMagnitude at h ⊢
  obtain ⟨⟨whole, t₁⟩, hwhole, h⟩ := Option.bind_eq_some_iff.mp h
  obtain ⟨hzero, h⟩ := Option.ite_none_left_eq_some.mp h
  obtain ⟨⟨fraction, t₂⟩, hfraction, h⟩ := Option.bind_eq_some_iff.mp h
  obtain ⟨⟨exponent, t₃⟩, hexponent, h⟩ := Option.bind_eq_some_iff.mp h
  obtain ⟨value, hvalue, h⟩ := Option.bind_eq_some_iff.mp h
  obtain ⟨rfl, rfl⟩ := Prod.mk.inj (Option.some.inj h)
  have ht₂ : t₂ ≠ [] := by
    rintro rfl
    obtain ⟨-, rfl⟩ := Prod.mk.inj (Option.some.inj hexponent)
    exact hrest rfl
  have ht₁ : t₁ ≠ [] := by
    rintro rfl
    obtain ⟨-, rfl⟩ := Prod.mk.inj (Option.some.inj hfraction)
    exact ht₂ rfl
  simp only [settles_readDigits _ _ _ hwhole ht₁, settles_readFraction _ _ _ hfraction ht₂,
    settles_readExponent _ _ _ hexponent hrest, hvalue, if_neg hzero, Option.bind_eq_bind,
    Option.bind_some, Option.pure_def]

/-- A number is read the same of every longer text once something follows it. -/
theorem settles_readNumber : Settles readNumber := by
  intro t v rest h hrest s
  obtain ⟨b, t, rfl, -⟩ := start_of_readNumber h
  by_cases hminus : b = 0x2D
  · subst hminus
    exact settles_readMagnitude true _ _ _ h hrest s
  · have hnone (t : Bytes) : readNumber (b :: t) = readMagnitude false (b :: t) :=
      readNumber.eq_2 _ fun _ heq => hminus (List.cons.inj heq).1
    rw [hnone] at h
    rw [List.cons_append, hnone]
    exact settles_readMagnitude false _ _ _ h hrest s

/-! ## Values -/

/-- Behind the white space before a value there is something. -/
theorem exists_skipSpace_of_readValue {fuel : ℕ} {r : Json × Bytes}
    (h : readValue fuel t = some r) :
    ∃ b rest, skipSpace t = b :: rest := by
  cases fuel with
  | zero => cases h
  | succ fuel =>
    rw [readValue] at h
    cases hskip : skipSpace t with
    | nil =>
      rw [hskip] at h
      cases h
    | cons b rest => exact ⟨b, rest, rfl⟩

/-- So there is before items. -/
theorem exists_skipSpace_of_readItems {fuel : ℕ} {r : List Json × Bytes}
    (h : readItems fuel t = some r) : ∃ b rest, skipSpace t = b :: rest := by
  cases fuel with
  | zero => exact absurd h nofun
  | succ fuel =>
    rw [readItems] at h
    obtain ⟨first, hfirst, -⟩ := Option.bind_eq_some_iff.mp h
    exact exists_skipSpace_of_readValue hfirst

/-- So there is before members, and it is a quote. -/
theorem exists_skipSpace_of_readMembers {fuel : ℕ} {r : List (Bytes × Json) × Bytes}
    (h : readMembers fuel t = some r) : ∃ rest, skipSpace t = 0x22 :: rest := by
  cases fuel with
  | zero => cases h
  | succ fuel =>
    rw [readMembers] at h
    split at h
    · next rest hquote => exact ⟨rest, hquote⟩
    · cases h

/-- A text starts with the first byte of its start. -/
theorem eq_of_stripPrefix? {a b : UInt8} {start : Bytes}
    (h : Bytes.stripPrefix? (a :: start) (b :: t) = some rest) : a = b :=
  (Option.ite_none_right_eq_some.mp h).1

/-- No word starts like a number. -/
theorem ne_of_readNumber {b : UInt8} {r : Json × Bytes} (h : readNumber (b :: t) = some r) :
    0x74 ≠ b ∧ 0x66 ≠ b ∧ 0x6E ≠ b := by
  obtain ⟨c, rest, heq, hc⟩ := start_of_readNumber h
  obtain ⟨rfl, rfl⟩ := List.cons.inj heq
  refine ⟨?_, ?_, ?_⟩ <;> rintro rfl <;> revert hc <;> decide

mutual

/-- A value is read the same when more text follows, unless it is a number that may go on. -/
theorem readValue_append (fuel : ℕ) (t : Bytes) (v : Json) (rest : Bytes)
    (h : readValue fuel t = some (v, rest))
    (hrest : readNumber (skipSpace t) = some (v, rest) → rest ≠ []) (fuel' : ℕ)
    (hfuel : fuel ≤ fuel') (s : Bytes) : readValue fuel' (t ++ s) = some (v, rest ++ s) := by
  match fuel with
  | 0 => exact absurd h nofun
  | fuel + 1 =>
    obtain ⟨fuel', rfl⟩ := Nat.exists_eq_add_of_le' (by omega : 1 ≤ fuel')
    obtain ⟨b, more, hskip⟩ := exists_skipSpace_of_readValue h
    rw [readValue, hskip] at h
    rw [readValue, skipSpace_append hskip]
    split at h
    · next text heq =>
      obtain ⟨rfl, rfl⟩ := List.cons.inj heq
      obtain ⟨⟨text, after⟩, htext, h⟩ := Option.map_eq_some_iff.mp h
      obtain ⟨rfl, rfl⟩ := Prod.mk.inj h
      simp only [readString_append htext, Option.map_some]
    · next items heq =>
      obtain ⟨rfl, rfl⟩ := List.cons.inj heq
      split at h
      · next after hclose =>
        obtain ⟨rfl, rfl⟩ := Prod.mk.inj (Option.some.inj h)
        simp only [skipSpace_append hclose]
      · next hopen =>
        obtain ⟨⟨vs, after⟩, hitems, h⟩ := Option.map_eq_some_iff.mp h
        obtain ⟨rfl, rfl⟩ := Prod.mk.inj h
        obtain ⟨c, more, hcons⟩ := exists_skipSpace_of_readItems hitems
        simp only [skipSpace_append hcons]
        split
        · next heq => exact absurd (hcons.trans (by rw [(List.cons.inj heq).1])) (hopen more)
        · rw [readItems_extend fuel _ vs after hitems fuel' (by omega) s]
          rfl
    · next members heq =>
      obtain ⟨rfl, rfl⟩ := List.cons.inj heq
      split at h
      · next after hclose =>
        obtain ⟨rfl, rfl⟩ := Prod.mk.inj (Option.some.inj h)
        simp only [skipSpace_append hclose]
      · obtain ⟨⟨ms, after⟩, hmembers, h⟩ := Option.map_eq_some_iff.mp h
        obtain ⟨rfl, rfl⟩ := Prod.mk.inj h
        obtain ⟨more, hcons⟩ := exists_skipSpace_of_readMembers hmembers
        simp only [skipSpace_append hcons,
          readMembers_extend fuel _ ms after hmembers fuel' (by omega) s]
        rfl
    · next hstring harray hobject =>
      split
      · next heq => exact absurd (by rw [(List.cons.inj heq).1]) (hstring more)
      · next heq => exact absurd (by rw [(List.cons.inj heq).1]) (harray more)
      · next heq => exact absurd (by rw [(List.cons.inj heq).1]) (hobject more)
      · split at h
        · next after htrue =>
          obtain ⟨rfl, rfl⟩ := Prod.mk.inj (Option.some.inj h)
          simp only [← List.cons_append, stripPrefix?_append htrue]
        · next after hfalse hnone =>
          obtain ⟨rfl, rfl⟩ := Prod.mk.inj (Option.some.inj h)
          obtain rfl := eq_of_stripPrefix? hfalse
          simp only [← List.cons_append, stripPrefix?_append hfalse]
          rfl
        · next after hnull hnone hnone' =>
          obtain ⟨rfl, rfl⟩ := Prod.mk.inj (Option.some.inj h)
          obtain rfl := eq_of_stripPrefix? hnull
          simp only [← List.cons_append, stripPrefix?_append hnull]
          rfl
        · obtain ⟨h74, h66, h6E⟩ := ne_of_readNumber h
          simp only [← List.cons_append, settles_readNumber _ _ _ h (hrest (hskip ▸ h)) s]
          have htrue : Bytes.stripPrefix? (bytes "true") (b :: more ++ s) = none := if_neg h74
          have hfalse : Bytes.stripPrefix? (bytes "false") (b :: more ++ s) = none := if_neg h66
          have hnull : Bytes.stripPrefix? (bytes "null") (b :: more ++ s) = none := if_neg h6E
          rw [htrue, hfalse, hnull]

/-- So are items, whose closing bracket tells that nothing is missing, -/
theorem readItems_extend (fuel : ℕ) (t : Bytes) (vs : List Json) (rest : Bytes)
    (h : readItems fuel t = some (vs, rest)) (fuel' : ℕ) (hfuel : fuel ≤ fuel') (s : Bytes) :
    readItems fuel' (t ++ s) = some (vs, rest ++ s) := by
  match fuel with
  | 0 => exact absurd h nofun
  | fuel + 1 =>
    obtain ⟨fuel', rfl⟩ := Nat.exists_eq_add_of_le' (by omega : 1 ≤ fuel')
    rw [readItems] at h ⊢
    obtain ⟨⟨v, after⟩, hv, h⟩ := Option.bind_eq_some_iff.mp h
    simp only at h
    cases hskip : skipSpace after with
    | nil =>
      rw [hskip] at h
      exact absurd h nofun
    | cons b more =>
      have hafter := ne_nil_of_skipSpace hskip
      rw [readValue_append fuel t v after hv (fun _ => hafter) fuel' (by omega) s]
      rw [hskip] at h
      simp only [Option.bind_eq_bind, Option.bind_some, skipSpace_append hskip]
      split at h
      · next heq =>
        obtain ⟨rfl, rfl⟩ := List.cons.inj heq
        obtain ⟨⟨vs, last⟩, hvs, h⟩ := Option.bind_eq_some_iff.mp h
        obtain ⟨rfl, rfl⟩ := Prod.mk.inj (Option.some.inj h)
        simp only [readItems_extend fuel _ vs last hvs fuel' (by omega) s, Option.bind_some]
        rfl
      · next heq =>
        obtain ⟨rfl, rfl⟩ := List.cons.inj heq
        obtain ⟨rfl, rfl⟩ := Prod.mk.inj (Option.some.inj h)
        rfl
      · exact absurd h nofun

/-- and members, whose closing brace does. -/
theorem readMembers_extend (fuel : ℕ) (t : Bytes) (ms : List (Bytes × Json)) (rest : Bytes)
    (h : readMembers fuel t = some (ms, rest)) (fuel' : ℕ) (hfuel : fuel ≤ fuel') (s : Bytes) :
    readMembers fuel' (t ++ s) = some (ms, rest ++ s) := by
  match fuel with
  | 0 => exact absurd h nofun
  | fuel + 1 =>
    obtain ⟨fuel', rfl⟩ := Nat.exists_eq_add_of_le' (by omega : 1 ≤ fuel')
    rw [readMembers] at h ⊢
    split at h
    · next text hquote =>
      rw [skipSpace_append hquote]
      obtain ⟨⟨k, after⟩, hk, h⟩ := Option.bind_eq_some_iff.mp h
      simp only at h
      split at h
      · next colon hcolon =>
        obtain ⟨⟨v, after'⟩, hv, h⟩ := Option.bind_eq_some_iff.mp h
        simp only at h
        simp only [readString_append hk, Option.bind_eq_bind, Option.bind_some,
          skipSpace_append hcolon]
        cases hskip : skipSpace after' with
        | nil =>
          rw [hskip] at h
          exact absurd h nofun
        | cons b more =>
          have hafter := ne_nil_of_skipSpace hskip
          rw [readValue_append fuel colon v after' hv (fun _ => hafter) fuel' (by omega) s]
          rw [hskip] at h
          simp only [Option.bind_some, skipSpace_append hskip]
          split at h
          · next heq =>
            obtain ⟨rfl, rfl⟩ := List.cons.inj heq
            obtain ⟨⟨ms, last⟩, hms, h⟩ := Option.bind_eq_some_iff.mp h
            obtain ⟨rfl, rfl⟩ := Prod.mk.inj (Option.some.inj h)
            simp only [readMembers_extend fuel _ ms last hms fuel' (by omega) s, Option.bind_some]
            rfl
          · next heq =>
            obtain ⟨rfl, rfl⟩ := List.cons.inj heq
            obtain ⟨rfl, rfl⟩ := Prod.mk.inj (Option.some.inj h)
            rfl
          · exact absurd h nofun
      · exact absurd h nofun
    · exact absurd h nofun

end

/-! ## Objects -/

/-- The text of an object begins with its brace. -/
theorem exists_eq_brace_cons {l : Layout} {level : ℕ} {members : List (Bytes × Json)} {text : Bytes}
    (h : write? l level (.object members) [] = some text) : ∃ rest, text = 0x7B :: rest := by
  rcases members with - | ⟨⟨k, v⟩, members⟩
  · exact ⟨_, (Option.some.inj h).symm⟩
  · rw [write?] at h
    obtain ⟨more, -, h⟩ := Option.bind_eq_some_iff.mp h
    obtain ⟨value, -, h⟩ := Option.bind_eq_some_iff.mp h
    obtain ⟨key, -, h⟩ := Option.bind_eq_some_iff.mp h
    exact ⟨_, (Option.some.inj h).symm⟩

/-- No part of the text of an object that lacks its end can be read. -/
theorem Prints.parse?_eq_none {l : Layout} {level : ℕ} {members : List (Bytes × Json)}
    {text part : Bytes} (h : Prints l level (.object members) text)
    (hpart : part <+: text.dropLast) :
    parse? part = none := by
  obtain ⟨more, hmore⟩ := exists_eq_brace_cons ((h.writes []).trans (by rw [List.append_nil]))
  obtain ⟨s, hs, htext⟩ : ∃ s, s ≠ [] ∧ text = part ++ s := by
    obtain ⟨s, hs⟩ := hpart
    have hne : text ≠ [] := by simp [hmore]
    refine ⟨s ++ [text.getLast hne], by simp, ?_⟩
    rw [← List.append_assoc, hs, List.dropLast_concat_getLast]
  cases part with
  | nil => decide
  | cons b part =>
    obtain rfl : b = 0x7B := by
      rw [hmore] at htext
      exact (List.cons.inj htext).1.symm
    have hmark : Bytes.stripPrefix? [0xEF, 0xBB, 0xBF] (0x7B :: part) = none := rfl
    simp only [parse?, hmark, Option.getD_none]
    cases hread : readValue (2 * (0x7B :: part).length + 2) (0x7B :: part) with
    | none => rfl
    | some r =>
      -- The whole text would be read with something left, but it is read to its end.
      obtain ⟨v, rest⟩ := r
      have hlength := congrArg List.length htext
      rw [List.length_append] at hlength
      have hlong := readValue_append _ _ _ _ hread (fun hnumber => by cases hnumber)
        (2 * text.length + 2) (by omega) s
      have hall := h.spells.reads (2 * text.length + 2) [] (by omega) endsNumber_nil
      rw [List.append_nil] at hall
      rw [← htext, hall] at hlong
      have hnil := (Prod.mk.inj (Option.some.inj hlong)).2
      exact absurd (List.append_eq_nil_iff.mp hnil.symm).2 hs

/-- So is no part of a faithful object that is written in some layout. -/
theorem Faithful.parse?_eq_none {members : List (Bytes × Json)} (h : Faithful (.object members))
    {l : Layout} {text part : Bytes} (hwrite : write? l 0 (.object members) [] = some text)
    (hpart : part <+: text.dropLast) : parse? part = none := by
  obtain ⟨text', hprints⟩ := h.exists_prints l 0
  have hsame := hprints.writes []
  rw [hwrite, List.append_nil] at hsame
  obtain rfl := Option.some.inj hsame
  exact hprints.parse?_eq_none hpart

end SourceChunks.Json
