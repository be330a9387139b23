import Mathlib.Algebra.GroupWithZero.Nat
import SourceChunks.Proofs.EditScript.Script
import SourceChunks.Proofs.EditScript.Subsequence

/-!
# How long an edit script is

The script between two texts deletes and inserts as few lines as any script does, unless more than
the limit are needed. Then it says only what both texts begin and end with, and puts all lines in
between into one operation.
-/

namespace SourceChunks.EditScript

/-! ## The lines that are not kept -/

/-- The number of lines that an operation deletes and inserts. -/
def opCost (op : LineOp) : Nat :=
  if op.kind = .equal then 0 else op.oldEnd - op.oldBegin + (op.newEnd - op.newBegin)

/-- The number of lines that operations delete and insert. -/
def cost (ops : List LineOp) : Nat := (ops.map opCost).sum

/-- The cost of a script is that of its first operation and of the others. -/
theorem cost_cons (op : LineOp) (ops : List LineOp) : cost (op :: ops) = opCost op + cost ops := by
  rw [cost, List.map_cons, List.sum_cons, cost]

/-- The cost of two scripts adds up. -/
theorem cost_append (ops ops' : List LineOp) : cost (ops ++ ops') = cost ops + cost ops' := by
  rw [cost, List.map_append, List.sum_append, cost, cost]

/-- An empty operation deletes and inserts nothing. -/
theorem cost_dropEmpty (ops : List LineOp) : cost (dropEmpty ops) = cost ops := by
  induction ops with
  | nil => rfl
  | cons op ops ih =>
    rw [cost_cons, dropEmpty, List.filter_cons]
    split
    · rw [cost_cons]
      exact congrArg (opCost op + ·) ih
    · next hempty =>
      have hzero : opCost op = 0 := by
        simp only [decide_eq_true_eq, not_or, not_not] at hempty
        rw [opCost, hempty.1, hempty.2]
        split <;> simp
      rw [hzero, Nat.zero_add]
      exact ih

/-- A run of steps deletes and inserts as many lines as it has edits. -/
theorem opCost_opOfRun (i j : Nat) {run : List Step}
    (hchain : run.IsChain fun s t => alike s t = true) : opCost (opOfRun i j run) = edits run := by
  have hedits := edits_eq run
  rw [opCost]
  split
  · next hkind =>
    -- A run that keeps anything keeps all.
    have hkeep := kind_opOfRun_eq_equal_iff.mp hkind
    have hall : ∀ s ∈ run, s = .keep := fun s hs => (keep_mem_iff hchain hs).mp hkeep
    exact (List.countP_eq_zero.mpr fun s hs => by simp [hall s hs]).symm
  · next hkind =>
    have hkeep : run.count .keep = 0 :=
      List.count_eq_zero.mpr fun h => hkind (kind_opOfRun_eq_equal_iff.mpr h)
    simp only [opOfRun, hkeep]
    omega

/-- The operations of steps delete and insert as many lines as there are edits. -/
theorem cost_opsOfSteps (i j : Nat) (steps : List Step) :
    cost (opsOfSteps i j steps) = edits steps := by
  have hruns {runs : List (List Step)} (i j : Nat)
      (hchain : ∀ run ∈ runs, run.IsChain fun s t => alike s t = true) :
      cost (opsOfRuns i j runs) = edits runs.flatten := by
    induction runs generalizing i j with
    | nil => rfl
    | cons run rest ih =>
      obtain ⟨hrun, hrest⟩ := List.forall_mem_cons.mp hchain
      rw [opsOfRuns, cost_cons, ih _ _ hrest, opCost_opOfRun i j hrun, List.flatten_cons,
        edits_append]
  rw [opsOfSteps_eq, hruns i j fun run => List.isChain_of_mem_splitBy, List.flatten_splitBy]

/-! ## Common ends -/

/-- The longest list with which two lists begin. -/
structure IsLongestPrefix {α : Type} (l a b : List α) : Prop where
  left : l <+: a
  right : l <+: b
  longest : ∀ l', l' <+: a → l' <+: b → l'.length ≤ l.length

/-- The longest list with which two lists end. -/
structure IsLongestSuffix {α : Type} (l a b : List α) : Prop where
  left : l <:+ a
  right : l <:+ b
  longest : ∀ l', l' <:+ a → l' <:+ b → l'.length ≤ l.length

section Common

variable {α : Type} [DecidableEq α] {a b : List α}

/-- No list with which two lists begin is longer than what they have in common. -/
theorem length_le_commonLength {l : List α} (hleft : l <+: a) (hright : l <+: b) :
    l.length ≤ commonLength a b := by
  induction l generalizing a b with
  | nil => exact Nat.zero_le _
  | cons x rest ih =>
    obtain ⟨a', rfl⟩ := hleft
    obtain ⟨b', rfl⟩ := hright
    have hrest := ih (List.prefix_append rest a') (List.prefix_append rest b')
    rw [List.cons_append, List.cons_append, commonLength, if_pos rfl, List.length_cons]
    omega

/-- Lists that go on without anything in common begin with no more than what is in front. -/
theorem isLongestPrefix_append (l : List α) (h : commonLength a b = 0) :
    IsLongestPrefix l (l ++ a) (l ++ b) where
  left := List.prefix_append l a
  right := List.prefix_append l b
  longest := by
    have hlength : commonLength (l ++ a) (l ++ b) = l.length := by
      induction l with
      | nil => exact h
      | cons x rest ih =>
        rw [List.cons_append, List.cons_append, commonLength, if_pos rfl, ih, List.length_cons]
    exact fun l' hleft hright => (length_le_commonLength hleft hright).trans hlength.le

/-- The same holds from their ends. -/
theorem isLongestSuffix_append (l : List α) (h : commonLength a.reverse b.reverse = 0) :
    IsLongestSuffix l (a ++ l) (b ++ l) where
  left := List.suffix_append a l
  right := List.suffix_append b l
  longest := by
    intro l' hleft hright
    have hlongest := (isLongestPrefix_append l.reverse h).longest l'.reverse
    rw [← List.reverse_append, ← List.reverse_append, List.reverse_prefix, List.reverse_prefix,
      List.length_reverse, List.length_reverse] at hlongest
    exact hlongest hleft hright

end Common

/-! ## Operations between texts -/

/-- The operations that replace all but what two lists of lines begin and end with. -/
def replaceBetween (head middleOld middleNew tail : List Bytes) : List LineOp :=
  let oldStop := head.length + middleOld.length
  let newStop := head.length + middleNew.length
  dropEmpty
    [⟨.equal, 0, head.length, 0, head.length⟩,
      ⟨.ofEdit middleOld.length middleNew.length, head.length, oldStop, head.length, newStop⟩,
      ⟨.equal, oldStop, oldStop + tail.length, newStop, newStop + tail.length⟩]

/-- A longest common subsequence of the lines tells how many lines have to be deleted and inserted.
The operations delete and insert no more if these are not more than two thousand. Otherwise they
keep the longest beginning that both texts have and the longest end that both rests have, and one
operation replaces what lies between. -/
theorem cost_ofTexts (old new : Bytes) :
    let a := Bytes.lines old
    let b := Bytes.lines new
    IsGreatest {n | ∃ l : List Bytes, l.Sublist a ∧ l.Sublist b ∧ l.length = n} (lcsLength a b) ∧
    IsLeast {n | ∃ steps, Turns steps a b ∧ edits steps = n}
      (a.length + b.length - 2 * lcsLength a b) ∧
    (a.length + b.length - 2 * lcsLength a b ≤ 2000 →
      cost (ofTexts old new) = a.length + b.length - 2 * lcsLength a b) ∧
    (2000 < a.length + b.length - 2 * lcsLength a b →
      ∃ head middleOld middleNew tail, a = head ++ (middleOld ++ tail) ∧
        b = head ++ (middleNew ++ tail) ∧ IsLongestPrefix head a b ∧
        IsLongestSuffix tail (middleOld ++ tail) (middleNew ++ tail) ∧
        ofTexts old new = replaceBetween head middleOld middleNew tail) := by
  intro a b
  obtain ⟨head, middleOld, middleNew, tail, hold, hnew, hfirst, hlast, hops⟩ :=
    exists_ofLines_eq_append a b
  have hleast : leastEdits middleOld middleNew = a.length + b.length - 2 * lcsLength a b := by
    rw [← leastEdits, hold, hnew, leastEdits_append_left, leastEdits_append_right]
  have hmiddle := isLeast_leastEdits middleOld middleNew
  refine ⟨isGreatest_lcsLength a b, isLeast_leastEdits a b, ?_⟩
  rw [← hleast]
  rcases search?_cases editLimit middleOld middleNew with
    ⟨hnone, hmany⟩ | ⟨steps, hsome, hturns, hlimit, hshortest⟩
  · obtain ⟨steps, hturns, hedits⟩ := hmiddle.1
    have hlt : 2000 < leastEdits middleOld middleNew := hedits ▸ hmany steps hturns
    refine ⟨fun hle => by omega, fun _ => ⟨head, middleOld, middleNew, tail, hold, hnew, ?_,
      isLongestSuffix_append tail hlast, ?_⟩⟩
    · rw [hold, hnew]
      exact isLongestPrefix_append head hfirst
    · rw [ofTexts, hops, middleOps, hnone, replaceBetween, ← dropEmpty_append, ← dropEmpty_append,
        hold, hnew]
      simp only [List.length_append, Nat.add_assoc]
      rfl
  · have hedits : edits steps = leastEdits middleOld middleNew := by
      obtain ⟨steps', hturns', hedits'⟩ := hmiddle.1
      exact Nat.le_antisymm (hedits' ▸ hshortest steps' hturns') (hmiddle.2 ⟨steps, hturns, rfl⟩)
    have hle : leastEdits middleOld middleNew ≤ 2000 := hedits ▸ hlimit
    refine ⟨fun _ => ?_, fun hlt => by omega⟩
    rw [ofTexts, hops, middleOps, hsome, cost_append, cost_append, cost_dropEmpty, cost_dropEmpty,
      cost_dropEmpty, cost_opsOfSteps, hedits]
    simp [cost, opCost]

end SourceChunks.EditScript
