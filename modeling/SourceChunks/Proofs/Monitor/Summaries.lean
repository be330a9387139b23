import Mathlib.Order.Bounds.Basic
import SourceChunks.Proofs.Monitor
import SourceChunks.Proofs.Scalar

/-!
# Summaries of metrics

A metric that has values has a summary, which says how many they are, what their mean is, and which
of them are the least and the greatest. In exact numbers the order of the values makes no difference
to it.
-/

namespace SourceChunks

namespace Monitor

variable {α : Type} {values : List ℚ} {s s' : MetricSummary ℚ}

/-- The summary is that of the values. -/
structure Summarizes (values : List ℚ) (s : MetricSummary ℚ) : Prop where
  /-- There is a value. -/
  ne_nil : values ≠ []
  /-- All values are counted. -/
  count_eq : s.count = values.length
  /-- The mean is their sum, shared out among them. -/
  mean_eq : s.mean = values.sum / values.length
  /-- The least value is one of them, and none is below it. -/
  isLeast : IsLeast {v | v ∈ values} s.least
  /-- The greatest value is one of them, and none is above it. -/
  isGreatest : IsGreatest {v | v ∈ values} s.greatest

/-- Values have one summary at most. -/
theorem Summarizes.unique (h : Summarizes values s) (h' : Summarizes values s') : s = s' := by
  obtain ⟨count, mean, least, greatest⟩ := s
  obtain ⟨count', mean', least', greatest'⟩ := s'
  obtain rfl : count = count' := h.count_eq.trans h'.count_eq.symm
  obtain rfl : mean = mean' := h.mean_eq.trans h'.mean_eq.symm
  obtain rfl : least = least' := h.isLeast.unique h'.isLeast
  obtain rfl : greatest = greatest' := h.isGreatest.unique h'.isGreatest
  rfl

/-- Going through the values finds the least one. -/
theorem isLeast_foldl (v : ℚ) (vs : List ℚ) :
    IsLeast {x | x ∈ v :: vs} (vs.foldl Scalar.least v) := by
  have hmin : vs.foldl Scalar.least v = vs.foldl min v := by
    congr 1
    funext a b
    exact Scalar.least_rat a b
  have hleast : (v :: vs).min? = some (vs.foldl min v) := rfl
  rw [hmin]
  exact List.min?_eq_some_iff.mp hleast

/-- Going through the values finds the greatest one. -/
theorem isGreatest_foldl (v : ℚ) (vs : List ℚ) :
    IsGreatest {x | x ∈ v :: vs} (vs.foldl Scalar.greatest v) := by
  have hmax : vs.foldl Scalar.greatest v = vs.foldl max v := by
    congr 1
    funext a b
    exact Scalar.greatest_rat a b
  have hgreatest : (v :: vs).max? = some (vs.foldl max v) := rfl
  rw [hmax]
  exact List.max?_eq_some_iff.mp hgreatest

/-- Values have a summary if there are any. -/
theorem summarize_eq_some_iff : summarize values = some s ↔ Summarizes values s := by
  cases values with
  | nil => exact iff_of_false nofun fun h => h.ne_nil rfl
  | cons v vs =>
    have hsum : (v :: vs).foldl (· + ·) (Scalar.ofNat 0 : ℚ) = (v :: vs).sum := by
      rw [List.sum_eq_foldl]
      rfl
    have hsummary : ∃ s', summarize (v :: vs) = some s' ∧ Summarizes (v :: vs) s' := by
      refine ⟨_, rfl, List.cons_ne_nil v vs, List.length_cons.symm, ?_, isLeast_foldl v vs,
        isGreatest_foldl v vs⟩
      rw [← hsum]
      simp
    obtain ⟨s', heq, hs'⟩ := hsummary
    rw [heq, Option.some.injEq]
    constructor
    · rintro rfl
      exact hs'
    · exact hs'.unique

/-- The metrics that have values are listed with their summaries. -/
theorem mem_metrics_iff [Scalar α] {m : Monitor α} {name : Bytes} {s : MetricSummary α} :
    (name, s) ∈ m.metrics ↔ summarize (m.valuesOf name) = some s := by
  simp only [metrics, List.mem_filterMap, Option.map_eq_some_iff, Prod.mk.injEq, Prod.exists,
    ← Dict.get?_eq_some_iff]
  constructor
  · rintro ⟨name, samples, hget, s, hs, rfl, rfl⟩
    rwa [valuesOf, samplesOf, hget]
  · intro hs
    cases hget : m.samples.get? name with
    | none =>
      rw [valuesOf, samplesOf, hget] at hs
      exact absurd hs (Option.some_ne_none s).symm
    | some samples =>
      rw [valuesOf, samplesOf, hget] at hs
      exact ⟨name, samples, hget, s, hs, rfl, rfl⟩

/-- No metric is listed twice. -/
theorem pairwise_metrics [Scalar α] (m : Monitor α) :
    m.metrics.Pairwise fun a b => a.1 < b.1 := by
  refine List.pairwise_filterMap.mpr (m.samples.sorted.imp ?_)
  intro e e' hlt x hx x' hx'
  obtain ⟨s, -, rfl⟩ := Option.map_eq_some_iff.mp hx
  obtain ⟨s', -, rfl⟩ := Option.map_eq_some_iff.mp hx'
  exact hlt

end Monitor

end SourceChunks
