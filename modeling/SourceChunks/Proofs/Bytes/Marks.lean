import SourceChunks.Bytes

/-!
# Texts cut at a mark

A text may have a mark in several places. Two cuts of it at a mark are one cut, or the part before
the mark goes on in one of them beyond the mark of the other. What stands before the first mark is
therefore known from the text, and what stands before another one is not.
-/

namespace SourceChunks.Bytes

variable {mark : UInt8} {s s' t t' : Bytes}

/-- Two pairs of texts are joined alike: they are the same, or the first part of one pair goes on
with the mark and the beginning of the second part of the other pair. -/
def JoinedAlike (mark : UInt8) (s t s' t' : Bytes) : Prop :=
  s = s' ∧ t = t' ∨ (∃ r, s' = s ++ mark :: r ∧ t = r ++ mark :: t') ∨
    ∃ r, s = s' ++ mark :: r ∧ t' = r ++ mark :: t

/-- Pairs of texts are joined alike if a mark between their parts makes one text of both. -/
theorem append_cons_eq_iff : s ++ mark :: t = s' ++ mark :: t' ↔ JoinedAlike mark s t s' t' := by
  constructor
  · intro h
    obtain ⟨q, hs', ht⟩ | ⟨q, hs, ht⟩ := List.append_eq_append_iff.mp h
    · cases q with
      | nil => exact .inl ⟨by rw [hs', List.append_nil], (List.cons.inj ht).2⟩
      | cons b r =>
        obtain ⟨rfl, htail⟩ := List.cons.inj ht
        exact .inr (.inl ⟨r, hs', htail⟩)
    · cases q with
      | nil => exact .inl ⟨by rw [hs, List.append_nil], (List.cons.inj ht).2.symm⟩
      | cons b r =>
        obtain ⟨rfl, htail⟩ := List.cons.inj ht
        exact .inr (.inr ⟨r, hs, htail⟩)
  · rintro (⟨rfl, rfl⟩ | ⟨r, rfl, rfl⟩ | ⟨r, rfl, rfl⟩)
    · rfl
    · simp
    · simp

/-- What has no mark ends at the first mark of the text; what else ends at a mark goes on behind the
first one. -/
theorem eq_or_exists_of_append_cons_eq (hs : mark ∉ s) (h : s' ++ mark :: t' = s ++ mark :: t) :
    s' = s ∧ t' = t ∨ ∃ r, s' = s ++ mark :: r ∧ t = r ++ mark :: t' := by
  obtain hsame | ⟨r, rfl, -⟩ | hbehind := append_cons_eq_iff.mp h
  · exact .inl hsame
  · exact absurd (List.mem_append_right _ (List.mem_cons_self ..)) hs
  · exact .inr hbehind

/-- What stands before the first mark in a text, and what after it, is known from the text. -/
theorem eq_of_append_cons_eq (hs : mark ∉ s) (hs' : mark ∉ s')
    (h : s ++ mark :: t = s' ++ mark :: t') : s = s' ∧ t = t' := by
  obtain hsame | ⟨r, rfl, -⟩ := eq_or_exists_of_append_cons_eq hs' h
  · exact hsame
  · exact absurd (List.mem_append_right _ (List.mem_cons_self ..)) hs

end SourceChunks.Bytes
