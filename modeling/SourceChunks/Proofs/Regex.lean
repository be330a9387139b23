import Mathlib.Data.Nat.Notation
import SourceChunks.Regex

/-!
# What a regular expression matches

The texts of an expression are built up part by part. The backtracking search finds a way to cut a
text into a match and a rest that is fit to follow whenever there is one: a star may skip its empty
rounds, and then it needs no more rounds than there are bytes.
-/

namespace SourceChunks.Regex

/-- A text is built as an expression says. -/
inductive Matches : Regex → Bytes → Prop
  | empty : Matches .empty []
  | one {set : ByteSet} {b : UInt8} (h : set.has b) : Matches (.one set) [b]
  | append {r r' : Regex} {s t : Bytes} (hs : Matches r s) (ht : Matches r' t) :
    Matches (.append r r') (s ++ t)
  | noRound {r : Regex} : Matches (.star r) []
  | round {r : Regex} {s t : Bytes} (hs : Matches r s) (ht : Matches (.star r) t) :
    Matches (.star r) (s ++ t)
  | absent {r : Regex} : Matches (.optional r) []
  | present {r : Regex} {s : Bytes} (hs : Matches r s) : Matches (.optional r) s

/-! ## Parts -/

/-- The empty expression matches the empty text only. -/
theorem matches_empty_iff {t : Bytes} : empty.Matches t ↔ t = [] := by
  constructor
  · rintro ⟨⟩
    rfl
  · rintro rfl
    exact .empty

/-- A set matches each of its bytes alone. -/
theorem matches_one_iff {set : ByteSet} {t : Bytes} :
    (one set).Matches t ↔ ∃ b, set.has b ∧ t = [b] := by
  constructor
  · rintro ⟨⟩
    exact ⟨_, ‹_›, rfl⟩
  · rintro ⟨b, hb, rfl⟩
    exact .one hb

/-- A sequence matches a text that can be cut in two for its parts. -/
theorem matches_append_iff {r r' : Regex} {t : Bytes} :
    (append r r').Matches t ↔ ∃ s u, t = s ++ u ∧ r.Matches s ∧ r'.Matches u := by
  constructor
  · rintro ⟨⟩
    exact ⟨_, _, rfl, ‹_›, ‹_›⟩
  · rintro ⟨s, u, rfl, hs, hu⟩
    exact .append hs hu

/-- An optional expression matches the empty text and what it matches otherwise. -/
theorem matches_optional_iff {r : Regex} {t : Bytes} :
    (optional r).Matches t ↔ t = [] ∨ r.Matches t := by
  constructor
  · rintro ⟨⟩
    · exact Or.inl rfl
    · exact Or.inr ‹_›
  · rintro (rfl | h)
    · exact .absent
    · exact .present h

/-- The rounds of a star that take nothing can be left out. -/
theorem matches_star_iff {r : Regex} {t : Bytes} :
    (star r).Matches t ↔
      t = [] ∨ ∃ s u, t = s ++ u ∧ s ≠ [] ∧ r.Matches s ∧ (star r).Matches u := by
  constructor
  · intro h
    generalize hstar : star r = r' at h
    induction h with
    | noRound => exact Or.inl rfl
    | @round _ s u hs hu _ ih =>
      obtain rfl := Regex.star.inj hstar
      by_cases hnil : s = []
      · subst hnil
        exact ih rfl
      · exact Or.inr ⟨s, u, rfl, hnil, hs, hu⟩
    | _ => cases hstar
  · rintro (rfl | ⟨s, u, rfl, _, hs, hu⟩)
    · exact .noRound
    · exact .round hs hu

/-- A star of single bytes matches the texts all of whose bytes are in the set. -/
theorem matches_star_one_iff {set : ByteSet} {t : Bytes} :
    (star (one set)).Matches t ↔ ∀ b ∈ t, set.has b := by
  induction t with
  | nil => exact ⟨fun _ => nofun, fun _ => .noRound⟩
  | cons b t ih =>
    rw [matches_star_iff, List.forall_mem_cons, ← ih]
    constructor
    · rintro (hnil | ⟨s, u, heq, _, hs, hu⟩)
      · cases hnil
      · obtain ⟨c, hc, rfl⟩ := matches_one_iff.mp hs
        obtain ⟨rfl, rfl⟩ := List.cons.inj heq
        exact ⟨hc, hu⟩
    · rintro ⟨hb, ht⟩
      exact Or.inr ⟨[b], t, rfl, List.cons_ne_nil _ _, .one hb, ht⟩

/-! ## The search -/

/-- A part of the search finds every way to cut off a match of an expression. -/
def Finds (r : Regex) (round : (Bytes → Bool) → Bytes → Bool) : Prop :=
  ∀ (rest : Bytes → Bool) (t : Bytes),
    round rest t = true ↔ ∃ s u, t = s ++ u ∧ r.Matches s ∧ rest u = true

/-- With a bound of at least the length of the text, the rounds of a star find every match. -/
theorem Finds.searchRounds {r : Regex} {round : (Bytes → Bool) → Bytes → Bool}
    (h : r.Finds round) (rest : Bytes → Bool) {bound : ℕ} {t : Bytes} (hbound : t.length ≤ bound) :
    searchRounds round rest bound t = true ↔
      ∃ s u, t = s ++ u ∧ (star r).Matches s ∧ rest u = true := by
  induction bound generalizing t with
  | zero =>
    obtain rfl := List.length_eq_zero_iff.mp (Nat.le_zero.mp hbound)
    constructor
    · exact fun hrest => ⟨[], [], rfl, .noRound, hrest⟩
    · rintro ⟨s, u, heq, _, hrest⟩
      obtain ⟨rfl, rfl⟩ := List.nil_eq_append_iff.mp heq
      exact hrest
  | succ bound ih =>
    rw [Regex.searchRounds, Bool.or_eq_true, h]
    constructor
    · rintro (⟨s, u, rfl, hs, hu⟩ | hrest)
      · obtain ⟨hshort, hu⟩ := Bool.and_eq_true_iff.mp hu
        have hshort := of_decide_eq_true hshort
        obtain ⟨s', u', rfl, hs', hrest⟩ := (ih (by omega)).mp hu
        exact ⟨s ++ s', u', (List.append_assoc ..).symm, .round hs hs', hrest⟩
      · exact ⟨[], t, rfl, .noRound, hrest⟩
    · rintro ⟨s, u, rfl, hs, hrest⟩
      rcases matches_star_iff.mp hs with rfl | ⟨a, s', rfl, hnil, ha, hs'⟩
      · exact Or.inr hrest
      · have hpos := List.length_pos_iff.mpr hnil
        simp only [List.length_append] at hbound
        refine Or.inl ⟨a, s' ++ u, List.append_assoc .., ha, Bool.and_eq_true_iff.mpr ⟨?_, ?_⟩⟩
        · simp only [List.length_append, decide_eq_true_eq]
          omega
        · exact (ih (by simp only [List.length_append]; omega)).mpr ⟨s', u, rfl, hs', hrest⟩

/-- The search finds every way to cut off a match. -/
theorem finds_search (r : Regex) : r.Finds r.search := by
  induction r with
  | empty =>
    intro rest t
    constructor
    · exact fun hrest => ⟨[], t, rfl, .empty, hrest⟩
    · rintro ⟨s, u, rfl, hs, hrest⟩
      obtain rfl := matches_empty_iff.mp hs
      exact hrest
  | one set =>
    intro rest t
    cases t with
    | nil => simp [search, matches_one_iff]
    | cons b t =>
      rw [search, Bool.and_eq_true]
      constructor
      · rintro ⟨hb, hrest⟩
        exact ⟨[b], t, rfl, .one hb, hrest⟩
      · rintro ⟨s, u, heq, hs, hrest⟩
        obtain ⟨c, hc, rfl⟩ := matches_one_iff.mp hs
        obtain ⟨rfl, rfl⟩ := List.cons.inj heq
        exact ⟨hc, hrest⟩
  | append r r' ih ih' =>
    intro rest t
    rw [search, ih]
    constructor
    · rintro ⟨s, u, rfl, hs, hu⟩
      obtain ⟨s', u', rfl, hs', hrest⟩ := (ih' _ _).mp hu
      exact ⟨s ++ s', u', (List.append_assoc ..).symm, .append hs hs', hrest⟩
    · rintro ⟨_, u, rfl, hs, hrest⟩
      obtain ⟨s, s', rfl, hs, hs'⟩ := matches_append_iff.mp hs
      exact ⟨s, s' ++ u, List.append_assoc .., hs, (ih' _ _).mpr ⟨s', u, rfl, hs', hrest⟩⟩
  | star r ih =>
    intro rest t
    exact ih.searchRounds rest (Nat.le_refl _)
  | optional r ih =>
    intro rest t
    rw [search, Bool.or_eq_true, ih]
    constructor
    · rintro (⟨s, u, rfl, hs, hrest⟩ | hrest)
      · exact ⟨s, u, rfl, .present hs, hrest⟩
      · exact ⟨[], t, rfl, .absent, hrest⟩
    · rintro ⟨s, u, rfl, hs, hrest⟩
      rcases matches_optional_iff.mp hs with rfl | hs
      · exact Or.inr hrest
      · exact Or.inl ⟨s, u, rfl, hs, hrest⟩

/-- An expression accepts exactly the texts that it matches. -/
theorem accepts_iff {r : Regex} {t : Bytes} : r.accepts t = true ↔ r.Matches t := by
  rw [accepts, finds_search]
  constructor
  · rintro ⟨s, u, rfl, hs, hu⟩
    obtain rfl := List.isEmpty_iff.mp hu
    rwa [List.append_nil]
  · exact fun h => ⟨t, [], (List.append_nil t).symm, h, rfl⟩

end SourceChunks.Regex
