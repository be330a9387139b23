import SourceChunks.Bytes.Line
import SourceChunks.Bytes.Utf8

/-!
# Cutting and joining well-formed UTF-8

A byte of ASCII never lies inside the encoding of a scalar value, so a well-formed text may be cut
and joined there. All that is cut or written between ASCII bytes is therefore well-formed as well.
-/

namespace SourceChunks.Bytes

/-- A text of ASCII bytes. -/
def Ascii (t : Bytes) : Prop := ∀ b ∈ t, b < 0x80

instance (t : Bytes) : Decidable (Ascii t) := List.decidableBAll (· < 0x80) t

/-- The empty text is ASCII. -/
@[simp] theorem ascii_nil : Ascii [] := nofun

/-- A text is ASCII when its first byte and the rest are. -/
@[simp] theorem ascii_cons {b : UInt8} {t : Bytes} : Ascii (b :: t) ↔ b < 0x80 ∧ Ascii t :=
  List.forall_mem_cons

/-- A text in two pieces is ASCII when both are. -/
@[simp] theorem ascii_append {s t : Bytes} : Ascii (s ++ t) ↔ Ascii s ∧ Ascii t :=
  List.forall_mem_append

/-! ## What is owed -/

/-- Nothing is owed, as at the beginning of a text. -/
def Owed.nothing : Owed := ⟨0, 0x80, 0xBF⟩

/-- What can be owed somewhere in a text: ranges lie beyond ASCII, and there is only one way to owe
nothing. -/
structure Owed.Proper (o : Owed) : Prop where
  /-- Nothing is owed in one way only. -/
  eq_nothing : o.count = 0 → o = nothing
  /-- Only a byte beyond ASCII continues a scalar value. -/
  low_le : 0x80 ≤ o.low

/-- A decoder that owes no bytes is in order. -/
theorem Owed.proper_nothing : nothing.Proper := ⟨fun _ => rfl, by decide⟩

/-- What is owed after the first byte of a scalar value is proper. -/
theorem Owed.proper_of_after? {b : UInt8} {o : Owed} (h : after? b = some o) : o.Proper := by
  simp only [after?] at h
  repeat' split at h
  all_goals cases h
  all_goals exact ⟨by decide, by decide⟩

/-- One more byte leaves a proper debt. -/
theorem Owed.proper_of_step? {o o' : Owed} {b : UInt8} (h : o.step? b = some o') : o'.Proper := by
  unfold Owed.step? at h
  split at h
  · exact proper_of_after? h
  · split at h
    · obtain rfl := Option.some.inj h
      exact ⟨fun hcount => by rw [nothing, ← hcount], UInt8.le_refl 0x80⟩
    · exact absurd h nofun

/-- Each byte of a text leaves a proper debt. -/
theorem Owed.Proper.run? {o o' : Owed} (ho : o.Proper) {t : Bytes} (h : o.run? t = some o') :
    o'.Proper := by
  induction t generalizing o with
  | nil =>
    obtain rfl := Option.some.inj h
    exact ho
  | cons b rest ih =>
    obtain ⟨o₁, hstep, hrun⟩ := Option.bind_eq_some_iff.mp h
    exact ih (proper_of_step? hstep) hrun

/-- The decoder reads a text byte by byte. -/
theorem Owed.run?_cons (o : Owed) (b : UInt8) (t : Bytes) :
    o.run? (b :: t) = (o.step? b).bind fun o' => o'.run? t := rfl

/-- An ASCII byte fits exactly where nothing is owed, and then nothing is owed after it. -/
theorem Owed.Proper.step?_ascii {o : Owed} (ho : o.Proper) {b : UInt8} (hb : b < 0x80) :
    o.step? b = if o = nothing then some nothing else none := by
  unfold Owed.step?
  split
  · next hcount =>
    have hle : b ≤ 0x7F := UInt8.le_iff_toNat_le.mpr (by
      have := UInt8.lt_iff_toNat_lt.mp hb
      simp only [UInt8.reduceToNat] at this ⊢
      omega)
    rw [if_pos (ho.eq_nothing hcount), after?, if_pos hle]
    rfl
  · next hcount =>
    have hlow : ¬ o.low ≤ b := UInt8.not_le.mpr (UInt8.lt_of_lt_of_le hb ho.low_le)
    have hne : o ≠ nothing := fun heq => hcount (by rw [heq]; rfl)
    rw [if_neg fun h => hlow h.1, if_neg hne]

/-- A run of ASCII bytes fits exactly where nothing is owed. -/
theorem Owed.Proper.run?_ascii {o : Owed} (ho : o.Proper) {t : Bytes} (ht : Ascii t)
    (hne : t ≠ []) : o.run? t = if o = nothing then some nothing else none := by
  induction t generalizing o with
  | nil => exact absurd rfl hne
  | cons b rest ih =>
    obtain ⟨hb, hrest⟩ := ascii_cons.mp ht
    rw [run?_cons, ho.step?_ascii hb]
    split
    · rw [Option.bind_some]
      by_cases hnil : rest = []
      · rw [hnil]
        rfl
      · rw [ih proper_nothing hrest hnil, if_pos rfl]
    · rfl

/-! ## Well-formed texts -/

/-- A text is well-formed if nothing is owed after it. -/
theorem isUtf8_iff {t : Bytes} : isUtf8 t = true ↔ Owed.nothing.run? t = some Owed.nothing := by
  unfold isUtf8
  change (Option.any (fun o => o.count == 0) (Owed.nothing.run? t) = true) ↔ _
  cases h : Owed.nothing.run? t with
  | none => simp
  | some o =>
    have ho : o.Proper := Owed.proper_nothing.run? h
    simp only [Option.any_some, beq_iff_eq, Option.some.injEq]
    exact ⟨ho.eq_nothing, fun heq => by rw [heq]; rfl⟩

/-- A text after a well-formed one is well-formed if both together are. -/
theorem isUtf8_append_iff {s t : Bytes} (hs : isUtf8 s) : isUtf8 (s ++ t) ↔ isUtf8 t := by
  rw [isUtf8_iff, isUtf8_iff, Owed.run?_append, isUtf8_iff.mp hs, Option.bind_some]

/-- Well-formed texts may be joined. -/
theorem isUtf8_append {s t : Bytes} (hs : isUtf8 s) (ht : isUtf8 t) : isUtf8 (s ++ t) :=
  (isUtf8_append_iff hs).mpr ht

/-- ASCII is well-formed. -/
theorem Ascii.isUtf8 {t : Bytes} (h : Ascii t) : isUtf8 t := by
  by_cases hne : t = []
  · subst hne
    decide
  · rw [isUtf8_iff, Owed.proper_nothing.run?_ascii h hne, if_pos rfl]

/-- Replacing ASCII bytes by ASCII texts leaves what is owed as it is. -/
theorem Owed.Proper.run?_flatMap {f : UInt8 → Bytes} (hf : ∀ b, f b = [b] ∨
    (b < 0x80 ∧ Ascii (f b) ∧ f b ≠ [])) {o : Owed} (ho : o.Proper) (t : Bytes) :
    o.run? (t.flatMap f) = o.run? t := by
  induction t generalizing o with
  | nil => rfl
  | cons b rest ih =>
    have hhead : o.run? (f b) = o.step? b := by
      rcases hf b with h | ⟨hb, hascii, hne⟩
      · rw [h, run?_cons]
        cases o.step? b <;> rfl
      · rw [ho.run?_ascii hascii hne, ho.step?_ascii hb]
    rw [List.flatMap_cons, run?_append, run?_cons, hhead]
    cases hstep : o.step? b with
    | none => rfl
    | some o' => exact ih (Owed.proper_of_step? hstep)

/-- Replacing ASCII bytes by ASCII texts keeps a text well-formed. -/
theorem isUtf8_flatMap_iff {f : UInt8 → Bytes} (hf : ∀ b, f b = [b] ∨
    (b < 0x80 ∧ Ascii (f b) ∧ f b ≠ [])) {t : Bytes} : isUtf8 (t.flatMap f) ↔ isUtf8 t := by
  rw [isUtf8_iff, isUtf8_iff, Owed.proper_nothing.run?_flatMap hf]

/-! ## Pieces -/

/-- Where an ASCII byte cuts a text, the first piece pays what was owed before it, and the other
pieces are well-formed. -/
theorem run?_pieces {stop : UInt8} (hstop : stop < 0x80) {o : Owed} (ho : o.Proper) {t : Bytes}
    (h : o.run? t = some Owed.nothing) :
    match pieces stop t with
    | [] => o = Owed.nothing
    | first :: more => o.run? first = some Owed.nothing ∧ ∀ piece ∈ more, isUtf8 piece := by
  induction t generalizing o with
  | nil => exact Option.some.inj h
  | cons b rest ih =>
    obtain ⟨o', hstep, hrun⟩ := Option.bind_eq_some_iff.mp h
    have ih := ih (Owed.proper_of_step? hstep) hrun
    by_cases hb : b = stop
    · rw [hb, ho.step?_ascii hstop] at hstep
      obtain ⟨rfl, rfl⟩ : o = Owed.nothing ∧ Owed.nothing = o' := by simpa using hstep
      rw [pieces, if_pos hb]
      refine ⟨rfl, ?_⟩
      cases hpieces : pieces stop rest with
      | nil => exact List.forall_mem_nil _
      | cons first more =>
        rw [hpieces] at ih
        exact List.forall_mem_cons.mpr ⟨isUtf8_iff.mpr ih.1, ih.2⟩
    · rw [pieces, if_neg hb]
      cases hpieces : pieces stop rest with
      | nil =>
        rw [hpieces] at ih
        refine ⟨?_, List.forall_mem_nil _⟩
        rw [Owed.run?_cons, hstep, ← ih]
        rfl
      | cons first more =>
        rw [hpieces] at ih
        refine ⟨?_, ih.2⟩
        rw [Owed.run?_cons, hstep]
        exact ih.1

/-- The lines of a well-formed text are well-formed. -/
theorem isUtf8_of_mem_lines {t line : Bytes} (ht : isUtf8 t) (hline : line ∈ lines t) :
    isUtf8 line := by
  have h := run?_pieces (show newline < 0x80 by decide) Owed.proper_nothing (isUtf8_iff.mp ht)
  rw [lines] at hline
  split at h
  · next hpieces =>
    rw [hpieces] at hline
    exact absurd hline List.not_mem_nil
  · next first more hpieces =>
    rw [hpieces] at hline
    rcases List.mem_cons.mp hline with rfl | hmore
    · exact isUtf8_iff.mpr h.1
    · exact h.2 line hmore

/-- Well-formed lines make a well-formed text. -/
theorem isUtf8_unlines {ls : List Bytes} (h : ∀ line ∈ ls, isUtf8 line) : isUtf8 (unlines ls) := by
  induction ls with
  | nil => decide
  | cons line rest ih =>
    obtain ⟨hline, hrest⟩ := List.forall_mem_cons.mp h
    cases rest with
    | nil => simpa [unlines] using hline
    | cons line' rest =>
      have hnewline : isUtf8 [newline] := by decide
      have hjoin : unlines (line :: line' :: rest) =
          line ++ ([newline] ++ unlines (line' :: rest)) := by
        simp [unlines, List.intercalate]
      rw [hjoin]
      exact isUtf8_append hline (isUtf8_append hnewline (ih hrest))

end SourceChunks.Bytes
