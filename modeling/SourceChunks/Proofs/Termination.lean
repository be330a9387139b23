import Mathlib.Data.Nat.Init
import Mathlib.Logic.Relation

/-!
# Systems that come to an end

A system that may go on in several ways comes to an end with a property if it does so however it
goes on: it cannot go on for ever, and where it cannot go on the property holds.
-/

namespace SourceChunks

variable {σ : Type} {step : σ → σ → Prop} {P Q : σ → Prop} {s t : σ}

/-- However a system goes on, it comes to an end with a property. -/
inductive ComesToEnd (step : σ → σ → Prop) (P : σ → Prop) : σ → Prop
  | intro {s : σ} (next : ∀ t, step s t → ComesToEnd step P t)
      (last : (∀ t, ¬ step s t) → P s) : ComesToEnd step P s

/-- Where a measure becomes less with each step while an invariant holds, the system comes to an
end. -/
theorem ComesToEnd.of_measure {Inv : σ → Prop} (measure : σ → ℕ)
    (hstep : ∀ s t, Inv s → step s t → Inv t ∧ measure t < measure s)
    (hlast : ∀ s, Inv s → (∀ t, ¬ step s t) → P s) (hs : Inv s) : ComesToEnd step P s := by
  induction hn : measure s using Nat.strong_induction_on generalizing s with
  | _ n ih =>
    refine .intro ?_ (hlast s hs)
    intro t ht
    obtain ⟨hInv, hlt⟩ := hstep s t hs ht
    exact ih (measure t) (hn ▸ hlt) hInv rfl

/-- What comes to an end with one property comes to an end with a weaker one. -/
theorem ComesToEnd.mono (h : ComesToEnd step P s) (hPQ : ∀ t, P t → Q t) :
    ComesToEnd step Q s := by
  induction h with
  | intro next last ih => exact .intro ih fun hend => hPQ _ (last hend)

/-- What has come to an end on some way has the property. -/
theorem ComesToEnd.of_reflTransGen (h : ComesToEnd step P s) (hrun : Relation.ReflTransGen step s t)
    (hend : ∀ u, ¬ step t u) : P t := by
  induction hrun using Relation.ReflTransGen.head_induction_on with
  | refl =>
    cases h with
    | intro next last => exact last hend
  | head hstep _ ih =>
    cases h with
    | intro next last => exact ih (next _ hstep)

end SourceChunks
