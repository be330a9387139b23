import SourceChunks.Bytes

/-!
# The order of byte strings

Byte strings are ordered by the first byte in which they differ, and a text comes before those that
it begins. One pass over two texts tells how they stand.

Main statements: `order_eq_lt_iff` and `order_eq_eq_iff` say that the pass agrees with the order and
the equality of lists.
-/

namespace SourceChunks.Bytes

/-- How two texts stand in the order. -/
def order : Bytes → Bytes → Ordering
  | [], [] => .eq
  | [], _ :: _ => .lt
  | _ :: _, [] => .gt
  | a :: s, b :: t => if a < b then .lt else if b < a then .gt else order s t

/-- The byte order answers `lt` exactly for texts in lexicographic order. -/
theorem order_eq_lt_iff {s t : Bytes} : order s t = .lt ↔ s < t := by
  fun_induction order s t with
  | case1 => simp
  | case2 => simp
  | case3 => simp
  | case4 a s b t h => simp [List.cons_lt_cons_iff, h]
  | case5 a s b t h h' =>
    have : a ≠ b := fun hab => UInt8.lt_irrefl b (hab ▸ h')
    simp [List.cons_lt_cons_iff, h, this]
  | case6 a s b t h h' ih =>
    have : a = b := UInt8.le_antisymm (UInt8.not_lt.mp h') (UInt8.not_lt.mp h)
    simp [this, ih]

/-- The byte order answers `eq` exactly for equal texts. -/
theorem order_eq_eq_iff {s t : Bytes} : order s t = .eq ↔ s = t := by
  fun_induction order s t with
  | case1 => simp
  | case2 => simp
  | case3 => simp
  | case4 a s b t h =>
    have : a ≠ b := fun hab => UInt8.lt_irrefl b (hab ▸ h)
    simp [this]
  | case5 a s b t h h' =>
    have : a ≠ b := fun hab => UInt8.lt_irrefl b (hab ▸ h')
    simp [this]
  | case6 a s b t h h' ih =>
    have : a = b := UInt8.le_antisymm (UInt8.not_lt.mp h') (UInt8.not_lt.mp h)
    simp [this, ih]

/-- The byte order answers `gt` exactly for texts in the reverse order. -/
theorem order_eq_gt_iff {s t : Bytes} : order s t = .gt ↔ t < s := by
  have hlt := order_eq_lt_iff (s := s) (t := t)
  have heq := order_eq_eq_iff (s := s) (t := t)
  rcases Std.lt_trichotomy s t with h | h | h
  · simp [hlt.mpr h, List.not_lt.mpr (List.le_of_lt h)]
  · subst h
    simp [heq.mpr rfl]
  · cases ho : order s t with
    | lt => exact absurd (hlt.mp ho) (List.not_lt.mpr (List.le_of_lt h))
    | eq => exact absurd (heq.mp ho) (fun he => List.lt_irrefl s (he ▸ h))
    | gt => simp [h]

end SourceChunks.Bytes
