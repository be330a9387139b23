import Mathlib.Data.List.Basic
import Mathlib.Data.List.GetD
import Mathlib.Data.List.Pairwise
import Mathlib.Data.Nat.Basic
import Mathlib.Order.Basic
import SourceChunks.Chunk.Block

/-!
# The blocks of a text

The search for blocks goes through the lines once. What it has found when it ends is described here
by the lines alone: where blocks begin, that every line that is not blank is in a block, and that a
block ends with such a line.
-/

namespace SourceChunks

/-! ## Lines that begin a block -/

/-- A line is blank. What comes after the last line counts as blank. -/
def BlankAt (lines : List Bytes) (i : Nat) : Prop := Bytes.isBlank (lines.getD i []) = true

/-- A line begins a block: it is the first one that is not blank, or it comes after a blank line and
begins with neither white space nor a closing bracket. -/
def Begins (lines : List Bytes) (i : Nat) : Prop :=
  ¬ BlankAt lines i ∧ ((∀ j < i, BlankAt lines j) ∨
    (0 < i ∧ BlankAt lines (i - 1) ∧
      ∀ b, (lines.getD i []).head? = some b → Bytes.isSpace b = false ∧ b ∉ [0x7D, 0x29, 0x5D]))

/-- Past the last line everything is blank. -/
theorem blankAt_of_length_le {lines : List Bytes} {i : Nat} (h : lines.length ≤ i) :
    BlankAt lines i := by
  rw [BlankAt, List.getD_eq_default _ _ h]
  rfl

/-- A line that is not blank is a line of the text. -/
theorem lt_length_of_not_blankAt {lines : List Bytes} {i : Nat} (h : ¬ BlankAt lines i) :
    i < lines.length :=
  Nat.lt_of_not_le fun hle => h (blankAt_of_length_le hle)

/-- The lines from one on are that line and the lines from the next one on. -/
theorem getD_of_drop_eq_cons {lines rest : List Bytes} {i : Nat} {line : Bytes}
    (h : lines.drop i = line :: rest) : lines.getD i [] = line ∧ lines.drop (i + 1) = rest := by
  constructor
  · rw [List.getD_eq_getElem?_getD, ← List.head?_drop, h]
    rfl
  · rw [← List.drop_drop, h]
    rfl

/-- A line starts a block when it is not indented and does not begin with a closing bracket. -/
theorem startsBlock_iff {line : Bytes} (h : Bytes.isBlank line = false) :
    Bytes.startsBlock line = true ↔
      ∀ b, line.head? = some b → Bytes.isSpace b = false ∧ b ∉ [0x7D, 0x29, 0x5D] := by
  cases line with
  | nil => cases h
  | cons b rest =>
    simp only [Bytes.startsBlock, List.head?_cons, Option.some.injEq, forall_eq', Bool.and_eq_true,
      Bool.not_eq_true', bne_iff_ne, ne_eq, List.mem_cons, List.not_mem_nil, or_false, not_or,
      and_assoc]

/-! ## What has been found up to a line -/

variable {lines rest : List Bytes} {i : Nat} {b : Block}

/-- A block is current before a line: it began before that line, no other one did since, and its
last line is the last one so far that is not blank. -/
structure Block.IsCurrent (b : Block) (lines : List Bytes) (i : Nat) : Prop where
  first_le_last : b.first ≤ b.last
  last_lt : b.last < i
  begins_first : Begins lines b.first
  not_begins : ∀ j, b.first < j → j < i → ¬ Begins lines j
  not_blankAt_last : ¬ BlankAt lines b.last
  blankAt : ∀ j, b.last < j → j < i → BlankAt lines j

/-- What the search holds before a line is true of the lines before it. -/
structure BlockSearch.Holds (s : BlockSearch) (lines : List Bytes) (i : Nat) : Prop where
  afterBlank_iff : s.afterBlank = true ↔ i = 0 ∨ BlankAt lines (i - 1)
  blankAt : s.current? = none → ∀ j < i, BlankAt lines j
  isCurrent : ∀ b, s.current? = some b → b.IsCurrent lines i

/-- Blocks are those of the lines from one on. -/
structure Cuts (lines : List Bytes) (i : Nat) (bs : List Block) : Prop where
  le_first : ∀ b ∈ bs, i ≤ b.first
  first_le_last : ∀ b ∈ bs, b.first ≤ b.last
  not_blankAt_last : ∀ b ∈ bs, ¬ BlankAt lines b.last
  ordered : bs.Pairwise fun b b' => b.last < b'.first
  covers : ∀ k, i ≤ k → ¬ BlankAt lines k → ∃ b ∈ bs, b.first ≤ k ∧ k ≤ b.last
  begins_iff : ∀ k, i ≤ k → ((∃ b ∈ bs, b.first = k) ↔ Begins lines k)

/-- Blank lines are cut into no blocks. -/
theorem Cuts.nil (h : ∀ k, i ≤ k → BlankAt lines k) : Cuts lines i [] where
  le_first := nofun
  first_le_last := nofun
  not_blankAt_last := nofun
  ordered := .nil
  covers k hk hblank := absurd (h k hk) hblank
  begins_iff k hk := ⟨nofun, fun hbegins => absurd (h k hk) hbegins.1⟩

/-- A blank line changes nothing. -/
theorem Cuts.of_succ {bs : List Block} (hblank : BlankAt lines i) (h : Cuts lines (i + 1) bs) :
    Cuts lines i bs where
  le_first b hb := Nat.le_of_succ_le (h.le_first b hb)
  first_le_last := h.first_le_last
  not_blankAt_last := h.not_blankAt_last
  ordered := h.ordered
  covers k hk hk' := by
    rcases hk.eq_or_lt with rfl | hlt
    · exact absurd hblank hk'
    · exact h.covers k hlt hk'
  begins_iff k hk := by
    rcases hk.eq_or_lt with rfl | hlt
    · refine ⟨fun ⟨b, hb, hfirst⟩ => ?_, fun hbegins => absurd hblank hbegins.1⟩
      have := h.le_first b hb
      omega
    · exact h.begins_iff k hlt

/-- A current block comes before the blocks that begin later. -/
theorem Cuts.cons {bs : List Block} (hb : b.IsCurrent lines i) (h : Cuts lines i bs) :
    Cuts lines b.first (b :: bs) where
  le_first b' hb' := by
    rcases List.mem_cons.mp hb' with rfl | hb'
    · exact Nat.le_refl _
    · exact hb.first_le_last.trans (hb.last_lt.le.trans (h.le_first b' hb'))
  first_le_last := List.forall_mem_cons.mpr ⟨hb.first_le_last, h.first_le_last⟩
  not_blankAt_last := List.forall_mem_cons.mpr ⟨hb.not_blankAt_last, h.not_blankAt_last⟩
  ordered := List.pairwise_cons.mpr
    ⟨fun b' hb' => hb.last_lt.trans_le (h.le_first b' hb'), h.ordered⟩
  covers k hk hk' := by
    by_cases hlast : k ≤ b.last
    · exact ⟨b, List.mem_cons_self, hk, hlast⟩
    · have hi : i ≤ k := by
        by_contra hlt
        exact hk' (hb.blankAt k (by omega) (by omega))
      obtain ⟨b', hb', hin⟩ := h.covers k hi hk'
      exact ⟨b', List.mem_cons_of_mem _ hb', hin⟩
  begins_iff k hk := by
    rw [List.exists_mem_cons_iff]
    rcases hk.eq_or_lt with rfl | hlt
    · exact ⟨fun _ => hb.begins_first, fun _ => .inl rfl⟩
    by_cases hi : i ≤ k
    · rw [or_iff_right hlt.ne]
      exact h.begins_iff k hi
    · have hnone : ¬ ∃ b' ∈ bs, b'.first = k := fun ⟨b', hb', hfirst⟩ => by
        have := h.le_first b' hb'
        omega
      exact iff_of_false (not_or.mpr ⟨hlt.ne, hnone⟩) (hb.not_begins k hlt (by omega))

/-! ## One line, and all of them -/

/-- A blank line leaves the current block as it is. -/
theorem Block.IsCurrent.succ (hb : b.IsCurrent lines i) (hblank : BlankAt lines i) :
    b.IsCurrent lines (i + 1) where
  first_le_last := hb.first_le_last
  last_lt := hb.last_lt.trans (Nat.lt_succ_self i)
  begins_first := hb.begins_first
  not_begins j hj hji := by
    rcases (Nat.le_of_lt_succ hji).eq_or_lt with rfl | hlt
    · exact fun hbegins => hbegins.1 hblank
    · exact hb.not_begins j hj hlt
  not_blankAt_last := hb.not_blankAt_last
  blankAt j hj hji := by
    rcases (Nat.le_of_lt_succ hji).eq_or_lt with rfl | hlt
    · exact hblank
    · exact hb.blankAt j hj hlt

/-- The current block takes a line in that is not blank, unless that line begins a block. -/
theorem Block.IsCurrent.extend (hb : b.IsCurrent lines i) (hblank : ¬ BlankAt lines i)
    (hbegins : ¬ Begins lines i) : Block.IsCurrent ⟨b.first, i⟩ lines (i + 1) where
  first_le_last := hb.first_le_last.trans hb.last_lt.le
  last_lt := Nat.lt_succ_self i
  begins_first := hb.begins_first
  not_begins j hj hji := by
    rcases (Nat.le_of_lt_succ hji).eq_or_lt with rfl | hlt
    · exact hbegins
    · exact hb.not_begins j hj hlt
  not_blankAt_last := hblank
  blankAt _ hj hji := absurd hj (Nat.not_lt.mpr (Nat.le_of_lt_succ hji))

/-- A line that begins a block is a current block of one line. -/
theorem Begins.isCurrent (h : Begins lines i) : Block.IsCurrent ⟨i, i⟩ lines (i + 1) where
  first_le_last := Nat.le_refl i
  last_lt := Nat.lt_succ_self i
  begins_first := h
  not_begins _ hj hji := absurd hj (Nat.not_lt.mpr (Nat.le_of_lt_succ hji))
  not_blankAt_last := h.1
  blankAt _ hj hji := absurd hj (Nat.not_lt.mpr (Nat.le_of_lt_succ hji))

namespace BlockSearch

variable {s : BlockSearch}

/-- The scan starts with no block open and nothing seen. -/
theorem holds_start : start.Holds lines 0 :=
  ⟨iff_of_true rfl (.inl rfl), fun _ => nofun, nofun⟩

/-- After a line of a block, the block is all that the search has to hold. -/
theorem holds_of_isCurrent (hb : b.IsCurrent lines (i + 1)) (hblank : ¬ BlankAt lines i) :
    Holds ⟨some b, false⟩ lines (i + 1) where
  afterBlank_iff := iff_of_false Bool.false_ne_true (not_or.mpr ⟨Nat.succ_ne_zero i, hblank⟩)
  blankAt := nofun
  isCurrent _ hb' := Option.some.inj hb' ▸ hb

/-- With a block current, a line begins another one if it may begin one and comes after a blank
line. -/
theorem Holds.begins_iff (h : s.Holds lines i) (hcurrent : s.current? = some b)
    (hblank : ¬ BlankAt lines i) :
    Begins lines i ↔ s.afterBlank = true ∧ Bytes.startsBlock (lines.getD i []) = true := by
  have hlast := h.isCurrent b hcurrent
  rw [h.afterBlank_iff, startsBlock_iff (Bool.eq_false_iff.mpr hblank), Begins]
  constructor
  · rintro ⟨-, hall | ⟨-, hbefore, hbyte⟩⟩
    · exact absurd (hall b.last hlast.last_lt) hlast.not_blankAt_last
    · exact ⟨.inr hbefore, hbyte⟩
  · rintro ⟨rfl | hbefore, hbyte⟩
    · exact absurd hlast.last_lt (Nat.not_lt_zero _)
    · exact ⟨hblank, .inr ⟨hlast.last_lt.trans_le' (Nat.zero_le _), hbefore, hbyte⟩⟩

/-- What one line does: it leaves the block as it is, begins one, which ends the current one, or
goes on with the current one. -/
theorem Holds.step_cases (h : s.Holds lines i) :
    (BlankAt lines i ∧ s.step i (lines.getD i []) = (none, { s with afterBlank := true }) ∧
        Holds { s with afterBlank := true } lines (i + 1)) ∨
      (s.step i (lines.getD i []) = (s.current?, ⟨some ⟨i, i⟩, false⟩) ∧
        Holds ⟨some ⟨i, i⟩, false⟩ lines (i + 1)) ∨
      (s.step i (lines.getD i []) = (none, ⟨some ⟨s.first i, i⟩, false⟩) ∧
        Holds ⟨some ⟨s.first i, i⟩, false⟩ lines (i + 1)) := by
  by_cases hblank : BlankAt lines i
  · have hstep : Bytes.isBlank (lines.getD i []) = true := hblank
    refine .inl ⟨hblank, by rw [step, if_pos hstep], ?_, fun hnone j hj => ?_, fun b hb => ?_⟩
    · exact iff_of_true rfl (.inr hblank)
    · rcases (Nat.le_of_lt_succ hj).eq_or_lt with rfl | hlt
      · exact hblank
      · exact h.blankAt hnone j hlt
    · exact (h.isCurrent b hb).succ hblank
  have hstep : ¬ Bytes.isBlank (lines.getD i []) = true := hblank
  right
  rw [step, if_neg hstep]
  rcases hcurrent : s.current? with _ | b
  · -- The first line that is not blank begins a block whatever it looks like.
    have hbegins : Begins lines i := ⟨hblank, .inl (h.blankAt hcurrent)⟩
    have hfirst : s.first i = i := by rw [first, hcurrent]; rfl
    have hholds := holds_of_isCurrent hbegins.isCurrent hblank
    rw [hfirst]
    split
    · exact .inl ⟨rfl, hholds⟩
    · exact .inr ⟨rfl, hholds⟩
  · have hfirst : s.first i = b.first := by rw [first, hcurrent]; rfl
    have hiff := h.begins_iff hcurrent hblank
    rw [← Bool.and_eq_true] at hiff
    rw [hfirst]
    split
    · next hstarts =>
      exact .inl ⟨rfl, holds_of_isCurrent (hiff.mpr hstarts).isCurrent hblank⟩
    · next hstarts =>
      have hext := (h.isCurrent b hcurrent).extend hblank fun hb => hstarts (hiff.mp hb)
      exact .inr ⟨rfl, holds_of_isCurrent hext hblank⟩

/-- What is found from a line on, with the block that is current there. -/
theorem Holds.cuts (h : s.Holds lines i) (hrest : lines.drop i = rest) :
    Cuts lines (s.first i) (s.run i rest) := by
  induction rest generalizing s i with
  | nil =>
    have hend : Cuts lines i [] := .nil fun k hk =>
      blankAt_of_length_le ((List.drop_eq_nil_iff.mp hrest).trans hk)
    rcases hcurrent : s.current? with _ | b
    · rw [first, run, hcurrent]
      exact hend
    · rw [first, run, hcurrent]
      exact hend.cons (h.isCurrent b hcurrent)
  | cons line rest ih =>
    obtain ⟨hline, hrest'⟩ := getD_of_drop_eq_cons hrest
    rw [run, ← hline]
    rcases h.step_cases with ⟨hblank, hstep, hholds⟩ | ⟨hstep, hholds⟩ | ⟨hstep, hholds⟩
    · have hcuts := ih hholds hrest'
      rw [hstep]
      rcases hcurrent : s.current? with _ | b
      · simp only [first, hcurrent] at hcuts ⊢
        exact hcuts.of_succ hblank
      · simp only [first, hcurrent] at hcuts ⊢
        exact hcuts
    · have hcuts := ih hholds hrest'
      rw [hstep]
      rcases hcurrent : s.current? with _ | b
      · simp only [first, hcurrent]
        exact hcuts
      · simp only [first, hcurrent]
        exact hcuts.cons (h.isCurrent b hcurrent)
    · have hcuts := ih hholds hrest'
      rw [hstep]
      exact hcuts

end BlockSearch

/-- The blocks of a text begin where the lines say, hold every line that is not blank, and come in
order. -/
theorem cuts_blocks (lines : List Bytes) : Cuts lines 0 (blocks lines) :=
  BlockSearch.holds_start.cuts rfl

example : blocks (Bytes.lines (bytes "f(\n\n)\n\ng")) = [⟨0, 2⟩, ⟨4, 4⟩] := by decide

/-- A block begins with a line that is not blank. -/
theorem Cuts.not_blankAt_first {bs : List Block} (h : Cuts lines i bs) (hb : b ∈ bs) :
    ¬ BlankAt lines b.first :=
  ((h.begins_iff b.first (h.le_first b hb)).mp ⟨b, hb, rfl⟩).1

/-- Two blocks that share a line are one, as one would begin after the other has ended. -/
theorem Cuts.eq_of_mem {bs : List Block} {b' : Block} {k : Nat} (h : Cuts lines i bs) (hb : b ∈ bs)
    (hb' : b' ∈ bs) (hk : b.first ≤ k ∧ k ≤ b.last) (hk' : b'.first ≤ k ∧ k ≤ b'.last) :
    b = b' := by
  by_contra hne
  have hsymm : Std.Symm fun b b' : Block => b.last < b'.first ∨ b'.last < b.first :=
    ⟨fun _ _ => Or.symm⟩
  have hapart : bs.Pairwise fun b b' => b.last < b'.first ∨ b'.last < b.first := h.ordered.imp .inl
  rcases hapart.forall hb hb' hne with hlt | hlt <;> omega

end SourceChunks
