import Mathlib.Data.List.Forall2
import SourceChunks.Glob

/-!
# What a glob matches

A text matches a glob if it can be cut into pieces, one for each token in order. The places that the
search keeps are exactly those up to which the text matches the tokens gone through so far, so at
the end the search tells whether the whole text matches.
-/

namespace SourceChunks

/-- A text without a line break. -/
def Bytes.OnOneLine (t : Bytes) : Prop := ∀ b ∈ t, ¬ Glob.isLineBreak b

instance (t : Bytes) : Decidable t.OnOneLine :=
  List.decidableBAll (fun b => ¬ Glob.isLineBreak b) t

/-- The texts that a token stands for. -/
def GlobToken.Fits : GlobToken → Bytes → Prop
  | .literal b, s => s = [b]
  | .separator, s => s = [Bytes.slash] ∨ s = [Bytes.backslash]
  | .anyByte, s => ∃ b, ¬ Glob.isLineBreak b ∧ s = [b]
  | .anyRun, s => s.OnOneLine
  | .anyDirectories, s => s = [] ∨ ∃ r : Bytes, r.OnOneLine ∧ s = r ++ [Bytes.slash]

namespace Glob

/-- A text can be cut into pieces that the tokens of a glob stand for. -/
inductive Matches : Glob → Bytes → Prop
  | nil : Matches [] []
  | cons {token : GlobToken} {g : Glob} {s t : Bytes} (hs : token.Fits s) (ht : Matches g t) :
    Matches (token :: g) (s ++ t)

/-- A glob that begins with a token matches what can be cut after a piece for the token. -/
theorem matches_cons_iff {token : GlobToken} {g : Glob} {t : Bytes} :
    Matches (token :: g) t ↔ ∃ s r, t = s ++ r ∧ token.Fits s ∧ Matches g r := by
  constructor
  · rintro ⟨⟩
    exact ⟨_, _, rfl, ‹_›, ‹_›⟩
  · rintro ⟨s, r, rfl, hs, hr⟩
    exact .cons hs hr

/-- Two globs after one another match what can be cut into a match of each. -/
theorem matches_append_iff {g g' : Glob} {t : Bytes} :
    Matches (g ++ g') t ↔ ∃ s r, t = s ++ r ∧ Matches g s ∧ Matches g' r := by
  induction g generalizing t with
  | nil =>
    constructor
    · intro h
      exact ⟨[], t, rfl, .nil, h⟩
    · rintro ⟨s, r, rfl, hs, hr⟩
      cases hs
      exact hr
  | cons token g ih =>
    rw [List.cons_append, matches_cons_iff]
    constructor
    · rintro ⟨s, r, rfl, hs, hr⟩
      obtain ⟨s', r', rfl, hs', hr'⟩ := ih.mp hr
      exact ⟨s ++ s', r', (List.append_assoc ..).symm, .cons hs hs', hr'⟩
    · rintro ⟨_, r, rfl, hs, hr⟩
      obtain ⟨s, s', rfl, hs, hs'⟩ := matches_cons_iff.mp hs
      exact ⟨s, s' ++ r, List.append_assoc .., hs, ih.mpr ⟨s', r, rfl, hs', hr⟩⟩

/-- A glob of one token matches what the token stands for. -/
theorem matches_singleton_iff {token : GlobToken} {s : Bytes} :
    Matches [token] s ↔ token.Fits s := by
  rw [matches_cons_iff]
  constructor
  · rintro ⟨s, r, rfl, hs, hr⟩
    cases hr
    rwa [List.append_nil]
  · intro h
    exact ⟨s, [], (List.append_nil s).symm, h, .nil⟩

/-! ## Places -/

/-- The places of a text up to which it is of a kind. -/
inductive Reaches : Bytes → Places → (Bytes → Prop) → Prop
  | nil {here : Bool} {P : Bytes → Prop} (h : here = true ↔ P []) : Reaches [] [here] P
  | cons {b : UInt8} {t : Bytes} {here : Bool} {places : Places} {P : Bytes → Prop}
    (h : here = true ↔ P []) (ht : Reaches t places fun s => P (b :: s)) :
    Reaches (b :: t) (here :: places) P

/-- The last place tells of the whole text. -/
theorem Reaches.getLastD {t : Bytes} {places : Places} {P : Bytes → Prop} (h : Reaches t places P) :
    places.getLastD false = true ↔ P t := by
  induction h with
  | nil h => exact h
  | cons _ ht ih => cases ht <;> exact ih

/-- At the start only the first place is reached. -/
theorem reaches_start {here : Bool} {P : Bytes → Prop} (h : here = true ↔ P [])
    (hP : ∀ b s, ¬ P (b :: s)) (t : Bytes) : Reaches t (here :: t.map fun _ => false) P := by
  induction t generalizing here P with
  | nil => exact .nil h
  | cons b t ih => exact .cons h (ih (by simp [hP]) fun _ _ => hP _ _)

/-- One fitting byte on, a place is reached if the one before it was. -/
theorem Reaches.zipWith {fits : UInt8 → Bool} {t : Bytes} {places : Places} {P Q : Bytes → Prop}
    (h : Reaches t places P) {here : Bool} (hhere : here = true ↔ Q [])
    (hQ : ∀ s b, Q (s ++ [b]) ↔ P s ∧ fits b) :
    Reaches t (here :: List.zipWith (fun b reached => reached && fits b) t places) Q := by
  induction h generalizing here Q with
  | nil _ => exact .nil hhere
  | @cons b _ _ _ _ h _ ih =>
    refine .cons hhere (ih ?_ fun s c => hQ (b :: s) c)
    have hone := hQ [] b
    rw [List.nil_append] at hone
    rw [Bool.and_eq_true, h, hone]

/-- One more byte of a kind reaches one place further. -/
theorem Reaches.afterByte {t : Bytes} {places : Places} {P Q : Bytes → Prop}
    (h : Reaches t places P) (fits : UInt8 → Bool)
    (hQ : ∀ u, Q u ↔ ∃ s b, u = s ++ [b] ∧ P s ∧ fits b) :
    Reaches t (Glob.afterByte fits t places) Q := by
  apply h.zipWith (by simp [hQ])
  intro s b
  rw [hQ]
  constructor
  · rintro ⟨s', b', heq, hs, hb⟩
    obtain ⟨rfl, hsingle⟩ := List.append_inj' heq rfl
    obtain rfl := List.head_eq_of_cons_eq hsingle
    exact ⟨hs, hb⟩
  · rintro ⟨hs, hb⟩
    exact ⟨s, b, rfl, hs, hb⟩

/-- After a run a place is reached if the run began at an earlier one, or before the first. -/
theorem Reaches.afterRun {t : Bytes} {places : Places} {P Q : Bytes → Prop}
    (h : Reaches t places P) {running : Bool}
    (hQ : ∀ u, Q u ↔ running ∧ u.OnOneLine ∨ ∃ s r : Bytes, u = s ++ r ∧ P s ∧ r.OnOneLine) :
    Reaches t (Glob.afterRun running t places) Q := by
  have hnil : Bytes.OnOneLine [] := nofun
  induction h generalizing running Q with
  | nil h =>
    refine .nil ?_
    simp [hQ, h, hnil]
  | @cons b _ reached _ _ h _ ih =>
    refine .cons (by simp [hQ, h, hnil]) (ih ?_)
    intro u
    have hcons : Bytes.OnOneLine (b :: u) ↔ ¬ isLineBreak b ∧ u.OnOneLine := List.forall_mem_cons
    rw [hQ, hcons]
    simp only [Bool.and_eq_true, Bool.or_eq_true, Bool.not_eq_true', Bool.not_eq_true]
    constructor
    · rintro (⟨hrun, hb, hu⟩ | ⟨s, r, heq, hs, hr⟩)
      · exact Or.inl ⟨⟨Or.inl hrun, hb⟩, hu⟩
      · rcases List.cons_eq_append_iff.mp heq with ⟨rfl, rfl⟩ | ⟨s', rfl, rfl⟩
        · obtain ⟨hb, hu⟩ := hcons.mp hr
          exact Or.inl ⟨⟨Or.inr (h.mpr hs), by simpa using hb⟩, hu⟩
        · exact Or.inr ⟨s', r, rfl, hs, hr⟩
    · rintro (⟨⟨hrun | hreached, hb⟩, hu⟩ | ⟨s, r, rfl, hs, hr⟩)
      · exact Or.inl ⟨hrun, hb, hu⟩
      · exact Or.inr ⟨[], b :: u, rfl, h.mp hreached, hcons.mpr ⟨by simpa using hb, hu⟩⟩
      · exact Or.inr ⟨b :: s, r, rfl, hs, hr⟩

/-- The places of one kind or of another. -/
theorem Reaches.or {t : Bytes} {places places' : Places} {P P' Q : Bytes → Prop}
    (h : Reaches t places P) (h' : Reaches t places' P') (hQ : ∀ u, Q u ↔ P u ∨ P' u) :
    Reaches t (List.zipWith (· || ·) places places') Q := by
  induction h generalizing places' P' Q with
  | nil h =>
    cases h' with
    | nil h' => exact .nil (by simp [hQ, h, h'])
  | cons h _ ih =>
    cases h' with
    | cons h' ht' => exact .cons (by simp [hQ, h, h']) (ih ht' fun _ => hQ _)

/-- After a token those places are reached up to which a piece follows that the token stands
for. -/
theorem Reaches.afterToken {t : Bytes} {places : Places} {P : Bytes → Prop}
    (h : Reaches t places P) (token : GlobToken) :
    Reaches t (Glob.afterToken t places token) fun u =>
      ∃ s r, u = s ++ r ∧ P s ∧ token.Fits r := by
  cases token with
  | literal b =>
    apply h.afterByte _
    intro u
    simp only [GlobToken.Fits, beq_iff_eq]
    constructor
    · rintro ⟨s, r, rfl, hs, rfl⟩
      exact ⟨s, b, rfl, hs, rfl⟩
    · rintro ⟨s, b', rfl, hs, rfl⟩
      exact ⟨s, [b'], rfl, hs, rfl⟩
  | separator =>
    apply h.afterByte _
    intro u
    simp only [GlobToken.Fits, Bool.or_eq_true, beq_iff_eq]
    constructor
    · rintro ⟨s, r, rfl, hs, rfl | rfl⟩
      · exact ⟨s, _, rfl, hs, Or.inl rfl⟩
      · exact ⟨s, _, rfl, hs, Or.inr rfl⟩
    · rintro ⟨s, b, rfl, hs, hb⟩
      exact ⟨s, [b], rfl, hs, hb.imp (congrArg (fun b => [b])) (congrArg fun b => [b])⟩
  | anyByte =>
    apply h.afterByte _
    intro u
    simp only [GlobToken.Fits, Bool.not_eq_true', Bool.not_eq_true]
    constructor
    · rintro ⟨s, r, rfl, hs, b, hb, rfl⟩
      exact ⟨s, b, rfl, hs, hb⟩
    · rintro ⟨s, b, rfl, hs, hb⟩
      exact ⟨s, [b], rfl, hs, b, hb, rfl⟩
  | anyRun => exact h.afterRun fun u => by simp [GlobToken.Fits]
  | anyDirectories =>
    have hrun : Reaches t (Glob.afterRun false t places) fun u =>
        ∃ s r : Bytes, u = s ++ r ∧ P s ∧ r.OnOneLine := h.afterRun fun u => by simp
    refine h.or (hrun.afterByte (· == Bytes.slash) fun u => Iff.rfl) fun u => ?_
    simp only [GlobToken.Fits, beq_iff_eq]
    constructor
    · rintro ⟨s, r, rfl, hs, rfl | ⟨r, hr, rfl⟩⟩
      · exact Or.inl (by rwa [List.append_nil])
      · exact Or.inr ⟨s ++ r, _, (List.append_assoc ..).symm, ⟨s, r, rfl, hs, hr⟩, rfl⟩
    · rintro (hu | ⟨_, _, rfl, ⟨s, r, rfl, hs, hr⟩, rfl⟩)
      · exact ⟨u, [], (List.append_nil u).symm, hu, Or.inl rfl⟩
      · exact ⟨s, _, List.append_assoc .., hs, Or.inr ⟨r, hr, rfl⟩⟩

/-- After the tokens of a glob those places are reached up to which a match follows. -/
theorem Reaches.foldl_afterToken {t : Bytes} {places : Places} {P : Bytes → Prop}
    (h : Reaches t places P) (g : Glob) :
    Reaches t (g.foldl (Glob.afterToken t) places) fun u =>
      ∃ s r, u = s ++ r ∧ P s ∧ Matches g r := by
  induction g generalizing places P with
  | nil =>
    have hP : (fun u => ∃ s r, u = s ++ r ∧ P s ∧ Matches [] r) = P := by
      funext u
      refine propext ⟨?_, fun hu => ⟨u, [], (List.append_nil u).symm, hu, .nil⟩⟩
      rintro ⟨s, r, rfl, hs, hr⟩
      cases hr
      rwa [List.append_nil]
    rwa [hP]
  | cons token g ih =>
    have hP : (fun u => ∃ s r, u = s ++ r ∧ P s ∧ Matches (token :: g) r) = fun u =>
        ∃ s r, u = s ++ r ∧ (∃ s' r', s = s' ++ r' ∧ P s' ∧ token.Fits r') ∧ Matches g r := by
      funext u
      refine propext ⟨?_, ?_⟩
      · rintro ⟨s, r, rfl, hs, hr⟩
        cases hr with
        | @cons _ _ r r' hfits hrest =>
          exact ⟨s ++ r, r', (List.append_assoc ..).symm, ⟨s, r, rfl, hs, hfits⟩, hrest⟩
      · rintro ⟨_, r', rfl, ⟨s, r, rfl, hs, hfits⟩, hrest⟩
        exact ⟨s, r ++ r', List.append_assoc .., hs, .cons hfits hrest⟩
    rw [hP]
    exact ih (h.afterToken token)

/-- The search accepts exactly the texts that match. -/
theorem accepts_iff_matches {g : Glob} {t : Bytes} : g.accepts t = true ↔ Matches g t := by
  have hstart : Reaches t (true :: t.map fun _ => false) (· = []) :=
    reaches_start (by simp) (by simp) t
  rw [accepts, (hstart.foldl_afterToken g).getLastD]
  constructor
  · rintro ⟨_, r, rfl, rfl, hr⟩
    exact hr
  · exact fun h => ⟨[], t, rfl, rfl, h⟩

/-! ## Escaped texts -/

/-- The token of a byte that is escaped if it needs to be. -/
def tokenOf (b : UInt8) : GlobToken := if b = Bytes.slash then .separator else .literal b

/-- The pattern of an escaped text has one token for each byte. -/
theorem parse_escape_append (s t : Bytes) : parse (escape s ++ t) = s.map tokenOf ++ parse t := by
  induction s with
  | nil => rfl
  | cons b s ih =>
    by_cases hb : b = 0x2A ∨ b = 0x3F ∨ b = Bytes.backslash
    · have hescape : escape (b :: s) = 0x5C :: b :: escape s := by
        simp only [escape, List.flatMap_cons, if_pos hb]
        rfl
      rw [hescape, List.cons_append, List.cons_append, parse, ih]
      rfl
    · have hescape : escape (b :: s) = b :: escape s := by
        simp only [escape, List.flatMap_cons, if_neg hb]
        rfl
      simp only [not_or] at hb
      rw [hescape, List.cons_append, parse, ih, if_neg hb.1, if_neg hb.2.1]
      · rfl
      · rintro c rest rfl
        exact fun _ => hb.2.2 rfl
      · rintro rest rfl
        exact fun _ => hb.1 rfl

/-- A byte that was escaped stands for itself, and a slash also for a backslash. -/
def ReadsAs (b c : UInt8) : Prop := c = b ∨ b = Bytes.slash ∧ c = Bytes.backslash

instance (b c : UInt8) : Decidable (ReadsAs b c) := inferInstanceAs (Decidable (_ ∨ _))

/-- An escaped byte fits the bytes that it reads as. -/
theorem fits_tokenOf_iff {b : UInt8} {s : Bytes} :
    (tokenOf b).Fits s ↔ ∃ c, s = [c] ∧ ReadsAs b c := by
  by_cases hb : b = Bytes.slash
  · simp [tokenOf, hb, GlobToken.Fits, ReadsAs, and_or_left, exists_or]
  · simp [tokenOf, hb, GlobToken.Fits, ReadsAs]

/-- The pattern of an escaped text matches the text, read byte by byte. -/
theorem matches_map_tokenOf_iff {s t : Bytes} :
    Matches (s.map tokenOf) t ↔ List.Forall₂ ReadsAs s t := by
  induction s generalizing t with
  | nil =>
    rw [List.forall₂_nil_left_iff]
    constructor
    · rintro ⟨⟩
      rfl
    · rintro rfl
      exact .nil
  | cons b s ih =>
    rw [List.map_cons, matches_cons_iff, List.forall₂_cons_left_iff]
    constructor
    · rintro ⟨_, r, rfl, hfits, hr⟩
      obtain ⟨c, rfl, hc⟩ := fits_tokenOf_iff.mp hfits
      exact ⟨c, r, hc, ih.mp hr, rfl⟩
    · rintro ⟨c, r, hc, hr, rfl⟩
      exact ⟨[c], r, rfl, fits_tokenOf_iff.mpr ⟨c, rfl, hc⟩, ih.mpr hr⟩

end Glob

end SourceChunks
