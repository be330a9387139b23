import Mathlib.Data.List.SplitBy
import SourceChunks.Proofs.EditScript.Phases

/-!
# What an edit script says

The operations between two lists go through both from the beginning to the end without a gap and
without an empty operation. Operations that keep and operations that do not take turns; what is kept
is the same on both sides; and the kind of any other operation says which of its two ranges have
something in them. So the new list is what the operations make of the old one.

The search tells steps, not operations. Steps of one sort that stand together become one operation,
and the operations for what both lists begin and end with are those of steps that keep: the search
has nothing to keep at either end, so they cannot be taken together with what it finds.
-/

namespace SourceChunks

/-! ## Scripts -/

section Scripts

variable {α : Type} {a b : List α} {ops : List LineOp} {i j i' j' : Nat}

/-- An operation says truly what becomes of its lines. -/
structure LineOp.Fits (op : LineOp) (a b : List α) : Prop where
  old_le : op.oldBegin ≤ op.oldEnd
  new_le : op.newBegin ≤ op.newEnd
  /-- At least one of the ranges has a line. -/
  lt_or_lt : op.oldBegin < op.oldEnd ∨ op.newBegin < op.newEnd
  /-- Lines that are kept are as many on both sides, and the same. -/
  equal : op.kind = .equal → op.oldEnd - op.oldBegin = op.newEnd - op.newBegin ∧
    ∀ i < op.oldEnd - op.oldBegin,
      ∃ line, a[op.oldBegin + i]? = some line ∧ b[op.newBegin + i]? = some line
  delete : op.kind = .delete → op.oldBegin < op.oldEnd ∧ op.newBegin = op.newEnd
  insert : op.kind = .insert → op.oldBegin = op.oldEnd ∧ op.newBegin < op.newEnd
  replace : op.kind = .replace → op.oldBegin < op.oldEnd ∧ op.newBegin < op.newEnd

namespace EditScript

/-- Each operation begins where the one before it ends, on both sides, from the first pair of lines
to the second one. -/
def Connected : (i j : Nat) → List LineOp → (i' j' : Nat) → Prop
  | i, j, [], i', j' => i = i' ∧ j = j'
  | i, j, op :: ops, i', j' =>
    op.oldBegin = i ∧ op.newBegin = j ∧ Connected op.oldEnd op.newEnd ops i' j'

/-- The operations are a script from one list to another one. -/
structure IsScript (a b : List α) (ops : List LineOp) : Prop where
  connected : Connected 0 0 ops a.length b.length
  fits : ∀ op ∈ ops, op.Fits a b
  /-- Of two operations that follow each other exactly one keeps lines. -/
  alternating : ops.IsChain fun p q => p.kind = .equal ↔ q.kind ≠ .equal

/-- What the operations make of a list: lines that are kept come from it, all others are new. -/
def rebuild (a b : List α) (ops : List LineOp) : List α :=
  ops.flatMap fun op =>
    if op.kind = .equal then a.extract op.oldBegin op.oldEnd
    else b.extract op.newBegin op.newEnd

/-- Lines that are kept are the new ones too. -/
theorem extract_eq_of_fits {op : LineOp} (h : op.Fits a b) (hkind : op.kind = .equal) :
    a.extract op.oldBegin op.oldEnd = b.extract op.newBegin op.newEnd := by
  obtain ⟨hlength, hline⟩ := h.equal hkind
  apply List.ext_getElem?
  intro n
  rw [List.extract_eq_take_drop, List.extract_eq_take_drop, ← hlength, List.getElem?_take,
    List.getElem?_take]
  split
  case isTrue hn =>
    obtain ⟨line, hold, hnew⟩ := hline n hn
    rw [List.getElem?_drop, List.getElem?_drop, hold, hnew]
  case isFalse => rfl

/-- Rebuilding with the operations gives what is left of the new list. -/
theorem rebuild_eq_drop (hconnected : Connected i j ops i' b.length)
    (hfits : ∀ op ∈ ops, op.Fits a b) : rebuild a b ops = b.drop j := by
  induction ops generalizing i j with
  | nil =>
    obtain ⟨-, rfl⟩ := hconnected
    exact List.drop_length.symm
  | cons op ops ih =>
    obtain ⟨-, rfl, hrest⟩ := hconnected
    have hop := hfits op (List.mem_cons_self ..)
    have hmade : (if op.kind = .equal then a.extract op.oldBegin op.oldEnd
        else b.extract op.newBegin op.newEnd) = b.extract op.newBegin op.newEnd := by
      split
      case isTrue hkind => exact extract_eq_of_fits hop hkind
      case isFalse => rfl
    have hend : op.newEnd = op.newBegin + (op.newEnd - op.newBegin) := by
      have := hop.new_le
      omega
    calc rebuild a b (op :: ops)
        = b.extract op.newBegin op.newEnd ++ rebuild a b ops := by
          rw [rebuild, List.flatMap_cons, hmade, rebuild]
      _ = b.extract op.newBegin op.newEnd ++ b.drop op.newEnd := by
          rw [ih hrest fun op hop => hfits op (List.mem_cons_of_mem _ hop)]
      _ = b.drop op.newBegin := by
          rw [List.extract_eq_take_drop]
          conv_lhs => rw [hend]
          rw [← List.drop_drop, Nat.add_sub_cancel_left, List.take_append_drop]

/-- A script makes the new list of the old one. -/
theorem IsScript.rebuild_eq (h : IsScript a b ops) : rebuild a b ops = b :=
  rebuild_eq_drop h.connected h.fits

end EditScript

end Scripts

namespace EditScript

/-! ## Runs of steps -/

section Runs

variable {α : Type} {a b old new : List α} {run steps steps' : List Step} {i j : Nat}

/-- Both steps keep, or neither does. -/
def alike (s t : Step) : Bool := (s == .keep) == (t == .keep)

/-- The operations of some steps are those of their runs. -/
theorem opsOfSteps_eq (i j : Nat) (steps : List Step) :
    opsOfSteps i j steps = opsOfRuns i j (steps.splitBy alike) := rfl

/-- An edit never keeps lines. -/
theorem ofEdit_ne_equal (deleted inserted : Nat) :
    LineOp.Kind.ofEdit deleted inserted ≠ .equal := by
  unfold LineOp.Kind.ofEdit
  split
  · nofun
  · split <;> nofun

/-- Every step keeps, deletes or inserts. -/
theorem count_add_count (steps : List Step) :
    steps.count .keep + steps.count .delete + steps.count .insert = steps.length := by
  induction steps with
  | nil => rfl
  | cons s rest ih => cases s <;> simp <;> omega

/-- The steps of a run keep all or nothing. -/
theorem forall_keep_or_of_isChain (h : run.IsChain fun s t => alike s t = true) :
    (∀ s ∈ run, s = .keep) ∨ ∀ s ∈ run, s ≠ .keep := by
  induction run with
  | nil => exact .inl nofun
  | cons s rest ih =>
    cases rest with
    | nil => simpa using Decidable.em (s = .keep)
    | cons t rest =>
      obtain ⟨halike, hrest⟩ := List.isChain_cons_cons.mp h
      have hiff : s = .keep ↔ t = .keep := by
        simpa [alike] using halike
      obtain hall | hnone := ih hrest
      · left
        intro u hu
        obtain rfl | hu := List.mem_cons.mp hu
        · exact hiff.mpr (hall t (List.mem_cons_self ..))
        · exact hall u hu
      · right
        intro u hu
        obtain rfl | hu := List.mem_cons.mp hu
        · exact fun h => hnone t (List.mem_cons_self ..) (hiff.mp h)
        · exact hnone u hu

/-- The steps of a run keep lines together or not at all. -/
theorem keep_mem_iff {s : Step} (h : run.IsChain fun s t => alike s t = true) (hs : s ∈ run) :
    .keep ∈ run ↔ s = .keep := by
  obtain hall | hnone := forall_keep_or_of_isChain h
  · have hkeep := hall s hs
    exact iff_of_true (hkeep ▸ hs) hkeep
  · exact iff_of_false (fun h => hnone _ h rfl) (hnone s hs)

/-- The operation of a run keeps lines exactly when its steps do. -/
theorem kind_opOfRun_eq_equal_iff : (opOfRun i j run).kind = .equal ↔ .keep ∈ run := by
  rw [← List.count_pos_iff, opOfRun]
  dsimp only
  split
  case isTrue h => exact iff_of_false (ofEdit_ne_equal _ _) (by omega)
  case isFalse h => exact iff_of_true rfl (by omega)

/-- The kind of an edit says which of its ranges have something in them. -/
theorem ofEdit_cases {deleted inserted : Nat} (h : 0 < deleted ∨ 0 < inserted) :
    (0 < deleted ∧ 0 < inserted ∧ LineOp.Kind.ofEdit deleted inserted = .replace) ∨
    (0 < deleted ∧ inserted = 0 ∧ LineOp.Kind.ofEdit deleted inserted = .delete) ∨
    (deleted = 0 ∧ 0 < inserted ∧ LineOp.Kind.ofEdit deleted inserted = .insert) := by
  unfold LineOp.Kind.ofEdit
  by_cases hdeleted : 0 < deleted
  · by_cases hinserted : 0 < inserted
    · exact .inl ⟨hdeleted, hinserted, if_pos ⟨hdeleted, hinserted⟩⟩
    · refine .inr (.inl ⟨hdeleted, by omega, ?_⟩)
      rw [if_neg (by omega), if_pos hdeleted]
  · refine .inr (.inr ⟨by omega, by omega, ?_⟩)
    rw [if_neg (by omega), if_neg hdeleted]

/-- An edit that touches something fits. -/
theorem fits_ofEdit {deleted inserted : Nat} (h : 0 < deleted ∨ 0 < inserted) :
    (⟨.ofEdit deleted inserted, i, i + deleted, j, j + inserted⟩ : LineOp).Fits a b := by
  have hold : i ≤ i + deleted := Nat.le_add_right ..
  have hnew : j ≤ j + inserted := Nat.le_add_right ..
  obtain ⟨hd, hi, heq⟩ | ⟨hd, rfl, heq⟩ | ⟨rfl, hi, heq⟩ := ofEdit_cases h
  · rw [heq]
    exact ⟨hold, hnew, .inl (by simpa), nofun, nofun, nofun, fun _ => ⟨by simpa, by simpa⟩⟩
  · rw [heq]
    exact ⟨hold, hnew, .inl (by simpa), nofun, fun _ => ⟨by simpa, rfl⟩, nofun, nofun⟩
  · rw [heq]
    exact ⟨hold, hnew, .inr (by simpa), nofun, nofun, fun _ => ⟨rfl, by simpa⟩, nofun⟩

/-- The operation of a run that turns one part of the lists into the other fits. -/
theorem fits_opOfRun (hne : run ≠ []) (hchain : run.IsChain fun s t => alike s t = true)
    (hturns : Turns run old new) (hold : ∀ n < old.length, a[i + n]? = old[n]?)
    (hnew : ∀ n < new.length, b[j + n]? = new[n]?) :
    (opOfRun i j run).Fits a b := by
  have hcount := count_add_count run
  have hpos := List.length_pos_of_ne_nil hne
  have hlength := hturns.length_old
  obtain hall | hnone := forall_keep_or_of_isChain hchain
  · have hdelete : run.count .delete = 0 := List.count_eq_zero.mpr fun h => nomatch hall _ h
    have hinsert : run.count .insert = 0 := List.count_eq_zero.mpr fun h => nomatch hall _ h
    obtain rfl := hturns.eq_of_forall_keep hall
    have hop : opOfRun i j run = ⟨.equal, i, i + old.length, j, j + old.length⟩ := by
      rw [opOfRun, hlength, hdelete, hinsert, if_neg (by omega)]
      rfl
    rw [hop]
    refine ⟨by simp, by simp, by simp; omega, fun _ => ⟨by simp, ?_⟩, nofun, nofun, nofun⟩
    intro n hn
    have hlt : n < old.length := by simpa using hn
    have hline : old[n]? = some old[n] := List.getElem?_eq_getElem hlt
    exact ⟨old[n], by rw [hold n hlt, hline], by rw [hnew n hlt, hline]⟩
  · have hkeep : run.count .keep = 0 := List.count_eq_zero.mpr fun h => hnone _ h rfl
    have hop : opOfRun i j run = ⟨.ofEdit (run.count .delete) (run.count .insert), i,
        i + run.count .delete, j, j + run.count .insert⟩ := by
      rw [opOfRun, hkeep, if_pos rfl, Nat.add_zero, Nat.add_zero]
    rw [hop]
    exact fits_ofEdit (by omega)

/-- The operations of runs fit, and go without a gap through the lists that the runs turn into each
other. -/
theorem connected_fits_opsOfRuns {runs : List (List Step)} (hne : ∀ run ∈ runs, run ≠ [])
    (hchain : ∀ run ∈ runs, run.IsChain fun s t => alike s t = true)
    (hturns : Turns runs.flatten old new) (hold : a.drop i = old) (hnew : b.drop j = new)
    (hi : i ≤ a.length) (hj : j ≤ b.length) :
    Connected i j (opsOfRuns i j runs) a.length b.length ∧
      ∀ op ∈ opsOfRuns i j runs, op.Fits a b := by
  induction runs generalizing i j old new with
  | nil =>
    cases hturns
    have hi' := List.drop_eq_nil_iff.mp hold
    have hj' := List.drop_eq_nil_iff.mp hnew
    exact ⟨⟨by omega, by omega⟩, nofun⟩
  | cons run rest ih =>
    rw [List.flatten_cons] at hturns
    obtain ⟨a₁, a₂, b₁, b₂, rfl, rfl, hrun, hrest⟩ := hturns.exists_of_append
    have hlength₁ := hrun.length_old
    have hlength₂ := hrun.length_new
    have htotal₁ : (a.drop i).length = (a₁ ++ a₂).length := by rw [hold]
    have htotal₂ : (b.drop j).length = (b₁ ++ b₂).length := by rw [hnew]
    rw [List.length_drop, List.length_append] at htotal₁ htotal₂
    have hfits : (opOfRun i j run).Fits a b := by
      have hmem : run ∈ run :: rest := List.mem_cons_self ..
      refine fits_opOfRun (hne run hmem) (hchain run hmem) hrun ?_ ?_
      · intro n hn
        rw [← List.getElem?_drop, hold, List.getElem?_append_left hn]
      · intro n hn
        rw [← List.getElem?_drop, hnew, List.getElem?_append_left hn]
    have hend₁ : (opOfRun i j run).oldEnd = i + a₁.length := by
      rw [hlength₁, ← Nat.add_assoc]
      rfl
    have hend₂ : (opOfRun i j run).newEnd = j + b₁.length := by
      rw [hlength₂, ← Nat.add_assoc]
      rfl
    obtain ⟨hconnected, hall⟩ := ih (i := (opOfRun i j run).oldEnd) (j := (opOfRun i j run).newEnd)
      (fun r hr => hne r (List.mem_cons_of_mem _ hr))
      (fun r hr => hchain r (List.mem_cons_of_mem _ hr)) hrest
      (by rw [hend₁, ← List.drop_drop, hold, List.drop_left])
      (by rw [hend₂, ← List.drop_drop, hnew, List.drop_left]) (by omega) (by omega)
    refine ⟨⟨rfl, rfl, hconnected⟩, ?_⟩
    intro op hop
    obtain rfl | hop := List.mem_cons.mp hop
    · exact hfits
    · exact hall op hop

/-- Runs of different sorts make operations of different kinds. -/
theorem isChain_opsOfRuns {runs : List (List Step)}
    (hchain : runs.IsChain fun r r' => .keep ∈ r ↔ .keep ∉ r') :
    (opsOfRuns i j runs).IsChain fun p q => p.kind = .equal ↔ q.kind ≠ .equal := by
  induction runs generalizing i j with
  | nil => exact .nil
  | cons run rest ih =>
    cases rest with
    | nil => exact .singleton _
    | cons run' rest =>
      obtain ⟨hne, hrest⟩ := List.isChain_cons_cons.mp hchain
      refine .cons_cons ?_ (ih hrest)
      rw [Ne, kind_opOfRun_eq_equal_iff, kind_opOfRun_eq_equal_iff]
      exact hne

/-- Steps that turn one list into another make a script. -/
theorem isScript_opsOfSteps (h : Turns steps a b) : IsScript a b (opsOfSteps 0 0 steps) := by
  have hchain : ∀ run ∈ steps.splitBy alike, run.IsChain fun s t => alike s t = true :=
    fun run => List.isChain_of_mem_splitBy
  obtain ⟨hconnected, hfits⟩ := connected_fits_opsOfRuns (a := a) (b := b) (i := 0) (j := 0)
    (fun run => List.ne_nil_of_mem_splitBy) hchain (by rwa [List.flatten_splitBy]) rfl rfl
    (Nat.zero_le _) (Nat.zero_le _)
  refine ⟨hconnected, hfits, isChain_opsOfRuns ?_⟩
  -- A run ends where a step of the other sort follows.
  refine (List.isChain_getLast_head_splitBy alike steps).imp_of_mem_imp ?_
  rintro r r' hr hr' ⟨hne, hne', hdiffer⟩
  rw [keep_mem_iff (hchain r hr) (List.getLast_mem hne),
    keep_mem_iff (hchain r' hr') (List.head_mem hne')]
  have hnot : ¬ (r.getLast hne = .keep ↔ r'.head hne' = .keep) := by
    simpa [alike] using hdiffer
  exact (not_iff_comm.mp (not_iff.mp hnot)).symm

end Runs

/-! ## Operations between lists -/

section Lists

variable {steps steps' : List Step}

/-- The operation of a run has something on at least one side. -/
theorem opOfRun_ne (i j : Nat) {run : List Step} (hne : run ≠ []) :
    (opOfRun i j run).oldBegin ≠ (opOfRun i j run).oldEnd ∨
      (opOfRun i j run).newBegin ≠ (opOfRun i j run).newEnd := by
  have hcount := count_add_count run
  have hpos := List.length_pos_of_ne_nil hne
  simp only [opOfRun]
  omega

/-- Steps of one sort make one operation, or none if there are none. -/
theorem opsOfSteps_of_isChain (i j : Nat) (h : steps.IsChain fun s t => alike s t = true) :
    opsOfSteps i j steps = dropEmpty [opOfRun i j steps] := by
  obtain rfl | hne := eq_or_ne steps []
  · simp [opsOfSteps, opsOfRuns, dropEmpty, opOfRun]
  · have hfull := opOfRun_ne i j hne
    rw [opsOfSteps_eq, List.splitBy_of_isChain hne h, dropEmpty,
      List.filter_cons_of_pos (by simpa using hfull)]
    rfl

/-- Steps make no empty operation. -/
theorem dropEmpty_opsOfSteps (i j : Nat) (steps : List Step) :
    dropEmpty (opsOfSteps i j steps) = opsOfSteps i j steps := by
  have hruns {runs : List (List Step)} (hne : ∀ run ∈ runs, run ≠ []) (i j : Nat) :
      dropEmpty (opsOfRuns i j runs) = opsOfRuns i j runs := by
    induction runs generalizing i j with
    | nil => rfl
    | cons run rest ih =>
      have hfull := opOfRun_ne i j (hne run (List.mem_cons_self ..))
      have hrest := ih fun r hr => hne r (List.mem_cons_of_mem _ hr)
      unfold dropEmpty at hrest ⊢
      rw [opsOfRuns, List.filter_cons_of_pos (by simpa using hfull), hrest]
  exact hruns (fun run => List.ne_nil_of_mem_splitBy) i j

/-- The operations of more runs go on where those of the first runs end. -/
theorem opsOfRuns_append (i j : Nat) (runs runs' : List (List Step)) :
    opsOfRuns i j (runs ++ runs') =
      opsOfRuns i j runs ++ opsOfRuns (i + runs.flatten.count .keep + runs.flatten.count .delete)
        (j + runs.flatten.count .keep + runs.flatten.count .insert) runs' := by
  induction runs generalizing i j with
  | nil => rfl
  | cons run rest ih =>
    rw [List.cons_append, opsOfRuns, opsOfRuns, ih, List.cons_append, List.flatten_cons,
      List.count_append, List.count_append, List.count_append]
    simp only [opOfRun]
    congr 2
    congr 1 <;> omega

/-- Steps that cannot be taken together make the operations that both make. -/
theorem opsOfSteps_append (i j : Nat)
    (h : ∀ s ∈ steps.getLast?, ∀ t ∈ steps'.head?, alike s t = false) :
    opsOfSteps i j (steps ++ steps') =
      opsOfSteps i j steps ++ opsOfSteps (i + steps.count .keep + steps.count .delete)
        (j + steps.count .keep + steps.count .insert) steps' := by
  have hflatten : (steps.splitBy alike).flatten = steps := List.flatten_splitBy ..
  rw [opsOfSteps_eq, List.splitBy_append h, opsOfRuns_append, hflatten]
  rfl

/-- Steps that keep make one operation that does. -/
theorem opsOfSteps_replicate_keep (i j n : Nat) :
    opsOfSteps i j (List.replicate n .keep) = dropEmpty [⟨.equal, i, i + n, j, j + n⟩] := by
  have hchain : (List.replicate n Step.keep).IsChain fun s t => alike s t = true :=
    List.isChain_replicate_of_rel n rfl
  rw [opsOfSteps_of_isChain i j hchain]
  cases n with
  | zero => simp [opOfRun, dropEmpty]
  | succ n => simp [opOfRun, List.count_replicate]

/-- Steps none of which keeps are of one sort. -/
theorem isChain_of_forall_ne_keep (h : ∀ s ∈ steps, s ≠ .keep) :
    steps.IsChain fun s t => alike s t = true := by
  have hpairs : steps.Pairwise fun _ _ => True := List.pairwise_of_forall fun _ _ => trivial
  refine hpairs.isChain.imp_of_mem_imp ?_
  intro s t hs ht _
  simp [alike, h s hs, h t ht]

/-- Empty operations are dropped part by part. -/
theorem dropEmpty_append (ops ops' : List LineOp) :
    dropEmpty (ops ++ ops') = dropEmpty ops ++ dropEmpty ops' := List.filter_append ..

/-- The operations between two lists that have no line in common at either end: those of the script
that is found, or one for all lines. -/
def middleOps (front : Nat) (old new : List Bytes) : List LineOp :=
  match search? editLimit old.toArray new.toArray with
  | some (.script steps) => opsOfSteps front front steps
  | _ => [⟨.ofEdit old.length new.length, front, front + old.length, front, front + new.length⟩]

/-- Whether a script is found between two lists or all of the old one is replaced, the operations
are those of some steps. -/
theorem exists_middleOps_eq (front : Nat) (old new : List Bytes) :
    ∃ steps, Turns steps old new ∧
      dropEmpty (middleOps front old new) = opsOfSteps front front steps := by
  obtain ⟨hnone, -⟩ | ⟨steps, hsome, hturns, -, -⟩ := search?_cases editLimit old new
  · have hinsert : Turns (List.replicate new.length .insert) [] new := by
      simpa using turns_replicate_insert .nil new
    have hturns := turns_replicate_delete hinsert old
    rw [List.append_nil] at hturns
    have hchain : (List.replicate old.length Step.delete ++
        List.replicate new.length Step.insert).IsChain fun s t => alike s t = true :=
      isChain_of_forall_ne_keep (by simp +contextual [or_imp])
    refine ⟨_, hturns, ?_⟩
    rw [middleOps, hnone, opsOfSteps_of_isChain front front hchain]
    simp [opOfRun, List.count_replicate]
  · refine ⟨steps, hturns, ?_⟩
    rw [middleOps, hsome]
    exact dropEmpty_opsOfSteps front front steps

/-- What both lists begin with is set aside, and then what both rests end with. There are operations
for these and for what lies between. -/
theorem exists_ofLines_eq_append (old new : List Bytes) :
    ∃ head middleOld middleNew tail, old = head ++ (middleOld ++ tail) ∧
      new = head ++ (middleNew ++ tail) ∧
      commonLength (middleOld ++ tail) (middleNew ++ tail) = 0 ∧
      commonLength middleOld.reverse middleNew.reverse = 0 ∧
      ofLines old new = dropEmpty [⟨.equal, 0, head.length, 0, head.length⟩] ++
        (dropEmpty (middleOps head.length middleOld middleNew) ++
          dropEmpty [⟨.equal, head.length + middleOld.length, old.length,
            head.length + middleNew.length, new.length⟩]) := by
  obtain ⟨front, hfront⟩ : ∃ n, commonLength old new = n := ⟨_, rfl⟩
  obtain ⟨old', hold'⟩ : ∃ l, old.drop front = l := ⟨_, rfl⟩
  obtain ⟨new', hnew'⟩ : ∃ l, new.drop front = l := ⟨_, rfl⟩
  obtain ⟨back, hback⟩ : ∃ n, commonLength old'.reverse new'.reverse = n := ⟨_, rfl⟩
  obtain ⟨middleOld, hmiddleOld⟩ : ∃ l, old'.take (old'.length - back) = l := ⟨_, rfl⟩
  obtain ⟨middleNew, hmiddleNew⟩ : ∃ l, new'.take (new'.length - back) = l := ⟨_, rfl⟩
  obtain ⟨head, hhead, hold, hnew⟩ := exists_append_drop_commonLength old new
  obtain ⟨tail, htail, hold₂, hnew₂⟩ := exists_take_append_commonLength old' new'
  have hfirst := commonLength_drop old new
  have hlast := commonLength_drop old'.reverse new'.reverse
  rw [hfront, hold', hnew'] at hfirst
  rw [hback, List.drop_reverse, List.drop_reverse, hmiddleOld, hmiddleNew] at hlast
  rw [hfront] at hhead
  rw [hfront, hold'] at hold
  rw [hfront, hnew'] at hnew
  rw [hback, hmiddleOld] at hold₂
  rw [hback, hmiddleNew] at hnew₂
  refine ⟨head, middleOld, middleNew, tail, hold₂ ▸ hold, hnew₂ ▸ hnew, ?_, hlast, ?_⟩
  · rwa [← hold₂, ← hnew₂]
  · simp only [ofLines, hfront, hold', hnew', hback, hmiddleOld, hmiddleNew, hhead]
    rw [← dropEmpty_append, ← dropEmpty_append]
    rfl

/-- The operations are those of steps that turn the old lines into the new ones. -/
theorem exists_ofLines_eq (old new : List Bytes) :
    ∃ steps, Turns steps old new ∧ ofLines old new = opsOfSteps 0 0 steps := by
  obtain ⟨head, middleOld, middleNew, tail, hold, hnew, hfirst, hlast, hofLines⟩ :=
    exists_ofLines_eq_append old new
  obtain ⟨steps, hturns, hops⟩ := exists_middleOps_eq head.length middleOld middleNew
  have hturnsBack : Turns (steps ++ List.replicate tail.length .keep) (middleOld ++ tail)
      (middleNew ++ tail) := by
    have h := turns_replicate_keep .nil tail
    rw [List.append_nil, List.append_nil] at h
    exact hturns.append h
  have hkept {n : Nat} {s : Step} (hs : s ∈ List.replicate n Step.keep) : s = .keep :=
    List.eq_of_mem_replicate hs
  have hfirstStep : ∀ s ∈ (List.replicate head.length Step.keep).getLast?,
      ∀ t ∈ (steps ++ List.replicate tail.length Step.keep).head?, alike s t = false := by
    intro s hs t ht
    have hne : t ≠ .keep := fun h => hturnsBack.head?_ne_keep hfirst (h ▸ ht)
    simp [alike, hkept (List.mem_of_getLast? hs), hne]
  have hlastStep : ∀ s ∈ steps.getLast?,
      ∀ t ∈ (List.replicate tail.length Step.keep).head?, alike s t = false := by
    intro s hs t ht
    rw [← List.head?_reverse] at hs
    have hne : s ≠ .keep := fun h => hturns.reverse.head?_ne_keep hlast (h ▸ hs)
    simp [alike, hkept (List.mem_of_head? ht), hne]
  have hlength₁ : old.length = head.length + middleOld.length + tail.length := by
    rw [hold]
    simp only [List.length_append]
    omega
  have hlength₂ : new.length = head.length + middleNew.length + tail.length := by
    rw [hnew]
    simp only [List.length_append]
    omega
  have hcounts (i : Nat) (s : Step) : i + steps.count .keep + steps.count s =
      i + (steps.count .keep + steps.count s) := Nat.add_assoc ..
  refine ⟨List.replicate head.length .keep ++ (steps ++ List.replicate tail.length .keep), ?_, ?_⟩
  · rw [hold, hnew]
    exact turns_replicate_keep hturnsBack head
  · rw [hofLines, hops, opsOfSteps_append 0 0 hfirstStep, opsOfSteps_append _ _ hlastStep]
    rw [opsOfSteps_replicate_keep, opsOfSteps_replicate_keep, hcounts, hcounts, ← hturns.length_old,
      ← hturns.length_new, hlength₁, hlength₂]
    simp [List.count_replicate]

/-- The operations between two lists of lines are a script from one to the other. -/
theorem isScript_ofLines (old new : List Bytes) : IsScript old new (ofLines old new) := by
  obtain ⟨steps, hturns, hops⟩ := exists_ofLines_eq old new
  rw [hops]
  exact isScript_opsOfSteps hturns

/-- The operations between two texts are a script from the lines of one to the lines of the other,
and make the new lines of the old ones, however much the texts differ. -/
theorem isScript_ofTexts (old new : Bytes) :
    IsScript (Bytes.lines old) (Bytes.lines new) (ofTexts old new) ∧
      rebuild (Bytes.lines old) (Bytes.lines new) (ofTexts old new) = Bytes.lines new := by
  have hscript : IsScript (Bytes.lines old) (Bytes.lines new) (ofTexts old new) :=
    isScript_ofLines _ _
  exact ⟨hscript, hscript.rebuild_eq⟩

end Lists

end EditScript

end SourceChunks
