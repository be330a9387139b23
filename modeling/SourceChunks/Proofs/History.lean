import Mathlib.Data.List.Induction

/-!
# Histories

A history is the list of what has happened, the first event first. Often the state depends on the
last of some events only: a value is there if it was put in and not taken out since.
-/

namespace SourceChunks

variable {α β : Type} {ends starts : α → Prop} {history : List α}

/-- Some event starts what is asked for, and no later one ends it. -/
def NoneSince (ends starts : α → Prop) (history : List α) : Prop :=
  ∃ before x after, history = before ++ x :: after ∧ starts x ∧ ∀ y ∈ after, ¬ ends y

/-- In an empty history nothing was started. -/
theorem not_noneSince_nil : ¬ NoneSince ends starts [] := by
  rintro ⟨before, x, after, hnil, -⟩
  exact absurd hnil.symm (by simp)

/-- The last event starts it, or it went on until then and the last event does not end it. An event
that does both starts it anew. -/
theorem noneSince_concat_iff {x : α} :
    NoneSince ends starts (history ++ [x]) ↔
      starts x ∨ NoneSince ends starts history ∧ ¬ ends x := by
  constructor
  · rintro ⟨before, y, after, heq, hy, hafter⟩
    rcases List.eq_nil_or_concat after with rfl | ⟨after, z, rfl⟩
    · obtain ⟨-, hlast⟩ := List.append_inj' heq rfl
      obtain rfl := List.singleton_inj.mp hlast
      exact .inl hy
    · have hsplit : history ++ [x] = (before ++ y :: after) ++ [z] := by
        rw [heq]
        simp
      obtain ⟨rfl, hlast⟩ := List.append_inj' hsplit rfl
      obtain rfl := List.singleton_inj.mp hlast
      refine .inr ⟨⟨before, y, after, rfl, hy, ?_⟩, hafter x (by simp)⟩
      intro w hw
      exact hafter w (by simp [hw])
  · rintro (hx | ⟨⟨before, y, after, rfl, hy, hafter⟩, hx⟩)
    · exact ⟨history, x, [], rfl, hx, nofun⟩
    · refine ⟨before, y, after ++ [x], by simp, hy, ?_⟩
      intro w hw
      rcases List.mem_append.mp hw with hw | hw
      · exact hafter w hw
      · rwa [List.mem_singleton.mp hw]

/-- Of a history in which each event shows as another one, or not at all, only the events that show
count. -/
theorem noneSince_filterMap_iff (f : α → Option β) {ends starts : β → Prop} :
    NoneSince ends starts (history.filterMap f) ↔
      NoneSince (fun x => ∃ y ∈ f x, ends y) (fun x => ∃ y ∈ f x, starts y) history := by
  induction history using List.reverseRecOn with
  | nil => exact iff_of_false not_noneSince_nil not_noneSince_nil
  | append_singleton history x ih =>
    rw [List.filterMap_append, noneSince_concat_iff]
    cases hx : f x with
    | none => simp [hx, ih]
    | some y => simp [hx, noneSince_concat_iff, ih]

end SourceChunks
