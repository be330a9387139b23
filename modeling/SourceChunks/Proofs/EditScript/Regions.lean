import Mathlib.Data.List.Sort
import SourceChunks.EditScript.Region
import SourceChunks.Proofs.EditScript.Script

/-!
# The lines that an edit script touches

A script covers the old lines without a gap. Where an operation that keeps lines ends before the old
text does, an operation follows that does not keep any, and the region of that operation begins with
the next line, whether lines are taken away there or only new ones put in. So lines between which
there is no region are kept together.

The lines of all regions are listed in increasing order, each of them once.
-/

namespace SourceChunks

/-! ## Regions as lists of lines -/

/-- Dropping repeats keeps every element. -/
theorem mem_dropRepeats {n : Int} {l : List Int} : n ∈ dropRepeats l ↔ n ∈ l := by
  fun_induction dropRepeats l with
  | case1 => exact Iff.rfl
  | case2 a => exact Iff.rfl
  | case3 a rest ih => simp [ih]
  | case4 a b rest hne ih => simp [ih]

/-- Numbers in order are in strict order without those that repeat. -/
theorem pairwise_lt_dropRepeats {l : List Int} (h : l.Pairwise (· ≤ ·)) :
    (dropRepeats l).Pairwise (· < ·) := by
  fun_induction dropRepeats l with
  | case1 => exact .nil
  | case2 a => exact List.pairwise_singleton _ a
  | case3 a rest ih => exact ih h.of_cons
  | case4 a b rest hne ih =>
    obtain ⟨hhead, htail⟩ := List.pairwise_cons.mp h
    refine List.pairwise_cons.mpr ⟨?_, ih htail⟩
    intro n hn
    have hab := hhead b List.mem_cons_self
    rcases List.mem_cons.mp (mem_dropRepeats.mp hn) with rfl | hn
    · omega
    · have hbn := (List.pairwise_cons.mp htail).1 n hn
      omega

/-- The lines that are listed for some regions are those in one of them. -/
theorem mem_expandRegions {rs : List LineRange} {n : Int} :
    n ∈ expandRegions rs ↔ ∃ r ∈ rs, r.first ≤ n ∧ n ≤ r.last := by
  simp only [expandRegions, mem_dropRepeats, List.mem_mergeSort, List.mem_flatMap,
    LineRange.mem_lines]

/-- They are listed in increasing order. -/
theorem pairwise_lt_expandRegions (rs : List LineRange) :
    (expandRegions rs).Pairwise (· < ·) := by
  have hsorted : ((rs.flatMap LineRange.lines).mergeSort fun a b => decide (a ≤ b)).Pairwise
      fun a b => decide (a ≤ b) = true :=
    List.pairwise_mergeSort (by simp only [decide_eq_true_eq]; omega)
      (by simp only [Bool.or_eq_true, decide_eq_true_eq]; omega) _
  exact pairwise_lt_dropRepeats (hsorted.imp of_decide_eq_true)

namespace EditScript

variable {α : Type} {a b : List α} {ops : List LineOp} {op : LineOp} {i j i' j' n : Nat}

/-- A line is in some region of a script if an operation that is not there to keep lines takes it
away or puts new lines in front of it. -/
theorem mem_expandRegions_regions {n : Int} : n ∈ expandRegions (regions ops) ↔
    ∃ op ∈ ops, op.kind ≠ .equal ∧ op.oldBegin < n ∧ (n ≤ op.oldEnd ∨ n = op.oldBegin + 1) := by
  rw [mem_expandRegions]
  constructor
  · rintro ⟨r, hr, hfirst, hlast⟩
    obtain ⟨op, hop, rfl⟩ := List.mem_map.mp hr
    obtain ⟨hop, hkind⟩ := List.mem_filter.mp hop
    dsimp only at hfirst hlast
    exact ⟨op, hop, of_decide_eq_true hkind, by omega, by omega⟩
  · rintro ⟨op, hop, hkind, hfirst, hlast⟩
    have hmem : op ∈ ops.filter fun op => op.kind ≠ .equal :=
      List.mem_filter.mpr ⟨hop, decide_eq_true hkind⟩
    refine ⟨_, List.mem_map.mpr ⟨op, hmem, rfl⟩, ?_, ?_⟩
    · dsimp only
      omega
    · dsimp only
      omega

/-! ## Operations one after another -/

/-- Every old line is in the range of an operation. -/
theorem Connected.exists_covering (h : Connected i j ops i' j') (hi : i ≤ n) (hn : n < i') :
    ∃ op ∈ ops, op.oldBegin ≤ n ∧ n < op.oldEnd := by
  induction ops generalizing i j with
  | nil =>
    obtain ⟨rfl, -⟩ := h
    omega
  | cons op ops ih =>
    obtain ⟨hbegin, -, hrest⟩ := h
    by_cases hend : n < op.oldEnd
    · exact ⟨op, List.mem_cons_self, by omega, hend⟩
    · obtain ⟨q, hq, hcovers⟩ := ih hrest (by omega)
      exact ⟨q, List.mem_cons_of_mem _ hq, hcovers⟩

/-- An operation that ends before the last old line is followed by one that begins there. -/
theorem Connected.exists_next {R : LineOp → LineOp → Prop} (h : Connected i j ops i' j')
    (hchain : ops.IsChain R) (hop : op ∈ ops) (hend : op.oldEnd < i') :
    ∃ q ∈ ops, q.oldBegin = op.oldEnd ∧ R op q := by
  induction ops generalizing i j with
  | nil => exact absurd hop List.not_mem_nil
  | cons first rest ih =>
    obtain ⟨-, -, hrest⟩ := h
    rcases List.mem_cons.mp hop with rfl | hop
    · cases rest with
      | nil =>
        obtain ⟨hlast, -⟩ := hrest
        omega
      | cons q rest =>
        obtain ⟨hbegin, -, -⟩ := hrest
        have hfollows := (List.isChain_cons_cons.mp hchain).1
        exact ⟨q, List.mem_cons_of_mem _ List.mem_cons_self, hbegin, hfollows⟩
    · obtain ⟨q, hq, hnext⟩ := ih hrest hchain.tail hop
      exact ⟨q, List.mem_cons_of_mem _ hq, hnext⟩

/-- An old line that no operation keeps is in a region. -/
theorem IsScript.mem_expandRegions_of_not_kept (h : IsScript a b ops) {n : Int} (hfirst : 1 ≤ n)
    (hlast : n ≤ a.length)
    (hkept : ∀ op ∈ ops, op.kind = .equal → ¬ (op.oldBegin < n ∧ n ≤ op.oldEnd)) :
    n ∈ expandRegions (regions ops) := by
  obtain ⟨op, hop, hbegin, hend⟩ :=
    h.connected.exists_covering (n := (n - 1).toNat) (by omega) (by omega)
  rw [mem_expandRegions_regions]
  exact ⟨op, hop, fun hkind => hkept op hop hkind (by omega), by omega, by omega⟩

/-- Old lines none of which is in a region are kept by one operation. -/
theorem IsScript.exists_keeps (h : IsScript a b ops) {first last : Int} (hfirst : 1 ≤ first)
    (hle : first ≤ last) (hlast : last ≤ a.length)
    (hnone : ∀ n, first ≤ n → n ≤ last → n ∉ expandRegions (regions ops)) :
    ∃ op ∈ ops, op.kind = .equal ∧ op.oldBegin < first ∧ last ≤ op.oldEnd := by
  have hnot (op : LineOp) (hop : op ∈ ops) (hkind : op.kind ≠ .equal) (n : Int)
      (hn : first ≤ n ∧ n ≤ last) (hbegin : op.oldBegin < n)
      (hend : n ≤ op.oldEnd ∨ n = op.oldBegin + 1) : False :=
    hnone n hn.1 hn.2 (mem_expandRegions_regions.mpr ⟨op, hop, hkind, hbegin, hend⟩)
  -- The operation of the first line keeps it, and ends only where the lines do.
  obtain ⟨op, hop, hbegin, hend⟩ :=
    h.connected.exists_covering (n := (first - 1).toNat) (by omega) (by omega)
  have hkind : op.kind = .equal := by
    by_contra hne
    exact hnot op hop hne first ⟨le_rfl, hle⟩ (by omega) (by omega)
  refine ⟨op, hop, hkind, by omega, ?_⟩
  by_contra hshort
  obtain ⟨q, hq, hnext, hturn⟩ := h.connected.exists_next h.alternating hop (by omega)
  exact hnot q hq (hturn.mp hkind) (op.oldEnd + 1) (by omega) (by omega) (by omega)

end EditScript

end SourceChunks
