import SourceChunks.Proofs.EditScript.Regions

/-!
# Changed regions cover exactly the edit

Operations that do not keep lines have at least one line between them that is kept, so their regions
are apart and in order. A region holds the old lines that its operation takes away. An operation
that takes away none puts new lines in front of a line, which is then the whole region.
-/

namespace SourceChunks

namespace LineOp

variable {α : Type} {a b : List α} {op : LineOp}

/-- An old line is in the range of an operation. -/
def Covers (op : LineOp) (n : Int) : Prop := op.oldBegin < n ∧ n ≤ op.oldEnd

/-- The region that an operation touches. -/
def region (op : LineOp) : LineRange := ⟨op.oldBegin + 1, max op.oldEnd (op.oldBegin + 1)⟩

/-- An operation that keeps lines has an old line. -/
theorem Fits.lt_of_equal (h : op.Fits a b) (hkind : op.kind = .equal) :
    op.oldBegin < op.oldEnd := by
  obtain ⟨hlength, -⟩ := h.equal hkind
  have hlt := h.lt_or_lt
  omega

/-- An operation without old lines puts in new ones. -/
theorem Fits.eq_insert_iff (h : op.Fits a b) : op.kind = .insert ↔ op.oldBegin = op.oldEnd := by
  constructor
  · exact fun hkind => (h.insert hkind).1
  · intro hempty
    cases hkind : op.kind with
    | equal => exact absurd hempty (h.lt_of_equal hkind).ne
    | replace => exact absurd hempty (h.replace hkind).1.ne
    | delete => exact absurd hempty (h.delete hkind).1.ne
    | insert => rfl

end LineOp

namespace EditScript

variable {α : Type} {a b : List α} {ops : List LineOp} {op : LineOp} {i j i' j' : Nat}

/-- The operations that do not keep lines. -/
def edited (ops : List LineOp) : List LineOp := ops.filter fun op => op.kind ≠ .equal

/-- The changed regions are those of the operations that do not keep lines. -/
theorem regions_eq_map (ops : List LineOp) : regions ops = (edited ops).map LineOp.region := rfl

/-- The edited operations are those that do not keep lines. -/
theorem mem_edited_iff : op ∈ edited ops ↔ op ∈ ops ∧ op.kind ≠ .equal := by
  simp [edited]

/-! ## Where operations stand -/

/-- Operations that follow each other stay between the first line and the last one. -/
theorem Connected.bounds (h : Connected i j ops i' j')
    (hle : ∀ op ∈ ops, op.oldBegin ≤ op.oldEnd) :
    i ≤ i' ∧ ∀ op ∈ ops, i ≤ op.oldBegin ∧ op.oldEnd ≤ i' := by
  induction ops generalizing i j with
  | nil => exact ⟨h.1.le, nofun⟩
  | cons first rest ih =>
    obtain ⟨rfl, -, hrest⟩ := h
    obtain ⟨hfirst, hle⟩ := List.forall_mem_cons.mp hle
    obtain ⟨hend, hbounds⟩ := ih hrest hle
    refine ⟨hfirst.trans hend, List.forall_mem_cons.mpr ⟨⟨le_rfl, hend⟩, ?_⟩⟩
    intro op hop
    exact ⟨hfirst.trans (hbounds op hop).1, (hbounds op hop).2⟩

/-- An operation ends before a later one begins. -/
theorem Connected.pairwise (h : Connected i j ops i' j')
    (hle : ∀ op ∈ ops, op.oldBegin ≤ op.oldEnd) :
    ops.Pairwise fun p q => p.oldEnd ≤ q.oldBegin := by
  induction ops generalizing i j with
  | nil => exact .nil
  | cons first rest ih =>
    obtain ⟨-, -, hrest⟩ := h
    obtain ⟨-, hle⟩ := List.forall_mem_cons.mp hle
    exact List.pairwise_cons.mpr ⟨fun op hop => ((hrest.bounds hle).2 op hop).1, ih hrest hle⟩

/-- Between two operations that do not keep lines there is a line that is kept. -/
theorem Connected.pairwise_edited (h : Connected i j ops i' j') (hfits : ∀ op ∈ ops, op.Fits a b)
    (hchain : ops.IsChain fun p q => p.kind = .equal ↔ q.kind ≠ .equal) :
    (edited ops).Pairwise fun p q => p.oldEnd < q.oldBegin := by
  induction ops generalizing i j with
  | nil => exact .nil
  | cons first rest ih =>
    obtain ⟨-, -, hrest⟩ := h
    obtain ⟨-, hfits⟩ := List.forall_mem_cons.mp hfits
    have ih := ih hrest hfits hchain.tail
    by_cases hkind : first.kind = .equal
    · rwa [edited, List.filter_cons_of_neg (by simpa using hkind)]
    · rw [edited, List.filter_cons_of_pos (by simpa using hkind)]
      refine List.pairwise_cons.mpr ⟨?_, ih⟩
      intro op hop
      obtain ⟨hop, hedit⟩ := mem_edited_iff.mp hop
      -- The operation that follows keeps a line, and all others follow it.
      cases rest with
      | nil => exact absurd hop List.not_mem_nil
      | cons kept rest =>
        obtain ⟨hbegin, -, hrest⟩ := hrest
        obtain ⟨hkept, hfits⟩ := List.forall_mem_cons.mp hfits
        have hkeeps : kept.kind = .equal := by
          by_contra hne
          exact hkind ((List.isChain_cons_cons.mp hchain).1.mpr hne)
        have hop : op ∈ rest := by
          rcases List.mem_cons.mp hop with rfl | hop
          · exact absurd hkeeps hedit
          · exact hop
        have hbounds := (hrest.bounds fun op hop => (hfits op hop).old_le).2 op hop
        have hlt := hkept.lt_of_equal hkeeps
        omega

/-- Of two operations one ends before the other begins. -/
theorem IsScript.apart (h : IsScript a b ops) {op' : LineOp} (hop : op ∈ ops) (hop' : op' ∈ ops)
    (hne : op ≠ op') : op.oldEnd ≤ op'.oldBegin ∨ op'.oldEnd ≤ op.oldBegin := by
  have hsymm : Std.Symm fun p q : LineOp => p.oldEnd ≤ q.oldBegin ∨ q.oldEnd ≤ p.oldBegin :=
    ⟨fun _ _ => Or.symm⟩
  have hordered := h.connected.pairwise fun op hop => (h.fits op hop).old_le
  have hapart : ops.Pairwise fun p q => p.oldEnd ≤ q.oldBegin ∨ q.oldEnd ≤ p.oldBegin :=
    hordered.imp .inl
  exact hapart.forall hop hop' hne

/-! ## Where regions stand -/

/-- Regions are apart and in order. -/
theorem IsScript.pairwise_regions (h : IsScript a b ops) :
    (regions ops).Pairwise fun r s => r.last < s.first := by
  rw [regions_eq_map, List.pairwise_map]
  refine (h.connected.pairwise_edited h.fits h.alternating).imp_of_mem ?_
  intro p q hp _ hlt
  have hle := (h.fits p (mem_edited_iff.mp hp).1).old_le
  dsimp only [LineOp.region]
  omega

/-- A region has a line, and none but old lines and the one that would come after them. -/
theorem IsScript.bounds_of_mem_regions (h : IsScript a b ops) {r : LineRange}
    (hr : r ∈ regions ops) : 1 ≤ r.first ∧ r.first ≤ r.last ∧ r.last ≤ a.length + 1 := by
  rw [regions_eq_map] at hr
  obtain ⟨op, hop, rfl⟩ := List.mem_map.mp hr
  obtain ⟨hop, -⟩ := mem_edited_iff.mp hop
  have hle := (h.fits op hop).old_le
  obtain ⟨-, hend⟩ := (h.connected.bounds fun op hop => (h.fits op hop).old_le).2 op hop
  dsimp only [LineOp.region]
  omega

/-- The old lines of an operation that does not keep them are in its region. -/
theorem exists_mem_regions_of_covers (hop : op ∈ ops) (hkind : op.kind ≠ .equal) {n : Int}
    (hcovers : op.Covers n) : ∃ r ∈ regions ops, n ∈ r.lines := by
  refine ⟨op.region, ?_, LineRange.mem_lines.mpr ?_⟩
  · rw [regions_eq_map]
    exact List.mem_map_of_mem (mem_edited_iff.mpr ⟨hop, hkind⟩)
  · obtain ⟨hbegin, hend⟩ := hcovers
    dsimp only [LineOp.region]
    omega

/-- A line that is kept is in a region only if new lines come right in front of it, and is then all
of that region. -/
theorem IsScript.region_eq_of_kept (h : IsScript a b ops) (hop : op ∈ ops)
    (hkind : op.kind = .equal) {n : Int} (hcovers : op.Covers n) {r : LineRange}
    (hr : r ∈ regions ops) (hn : n ∈ r.lines) :
    r = ⟨n, n⟩ ∧ ∃ edit ∈ ops, edit.kind = .insert ∧ edit.oldBegin + 1 = n := by
  rw [regions_eq_map] at hr
  obtain ⟨edit, hedit, rfl⟩ := List.mem_map.mp hr
  obtain ⟨hedit, hedits⟩ := mem_edited_iff.mp hedit
  have hapart := h.apart hop hedit fun heq => hedits (heq ▸ hkind)
  have hle := (h.fits edit hedit).old_le
  obtain ⟨hbegin, hend⟩ := hcovers
  obtain ⟨hfirst, hlast⟩ := LineRange.mem_lines.mp hn
  dsimp only [LineOp.region] at hfirst hlast ⊢
  have hempty : edit.oldBegin = edit.oldEnd := by omega
  have hnext : (edit.oldBegin : Int) + 1 = n := by omega
  refine ⟨?_, edit, hedit, (h.fits edit hedit).eq_insert_iff.mpr hempty, hnext⟩
  congr 1
  omega

/-! ## Scripts that change nothing -/

/-- A script that keeps all lines leads from a list to itself. -/
theorem IsScript.eq_of_edited_eq_nil (h : IsScript a b ops) (hnone : edited ops = []) : a = b := by
  have hkeep : ∀ op ∈ ops, op.kind = .equal := by
    intro op hop
    by_contra hne
    exact List.ne_nil_of_mem (mem_edited_iff.mpr ⟨hop, hne⟩) hnone
  have hrebuild := h.rebuild_eq
  have hconnected := h.connected
  cases ops with
  | nil =>
    obtain ⟨hold, hnew⟩ := hconnected
    rw [List.length_eq_zero_iff.mp hold.symm, List.length_eq_zero_iff.mp hnew.symm]
  | cons op rest =>
    cases rest with
    | nil =>
      obtain ⟨hbegin, -, hend, -⟩ := hconnected
      rw [rebuild, List.flatMap_singleton, if_pos (hkeep op List.mem_cons_self), hbegin, hend,
        List.extract_eq_take_drop] at hrebuild
      simpa using hrebuild
    | cons q rest =>
      have hturn := (List.isChain_cons_cons.mp h.alternating).1
      have hq := hkeep q (List.mem_cons_of_mem _ List.mem_cons_self)
      exact absurd hq (hturn.mp (hkeep op List.mem_cons_self))

/-- A list has all of itself in common with itself. -/
theorem commonLength_self (l : List α) [DecidableEq α] : commonLength l l = l.length := by
  induction l with
  | nil => rfl
  | cons x rest ih => rw [commonLength, if_pos rfl, ih, List.length_cons]

/-- Between a list and itself there is nothing to edit. -/
theorem edited_ofLines_self (lines : List Bytes) : edited (ofLines lines lines) = [] := by
  obtain ⟨head, middleOld, middleNew, tail, hold, hnew, hcommon, -, hops⟩ :=
    exists_ofLines_eq_append lines lines
  have hrest : middleOld ++ tail = middleNew ++ tail :=
    List.append_cancel_left (hold.symm.trans hnew)
  rw [← hrest, commonLength_self, List.length_eq_zero_iff] at hcommon
  obtain ⟨rfl, rfl⟩ := List.append_eq_nil_iff.mp hcommon
  obtain rfl : [] = middleNew := by simpa using hrest
  have hmiddle : middleOps head.length [] [] = [] := rfl
  refine List.filter_eq_nil_iff.mpr ?_
  intro op hop
  rw [hops, hmiddle] at hop
  simp only [dropEmpty, List.mem_append, List.mem_filter, List.mem_singleton,
    List.not_mem_nil] at hop
  rcases hop with ⟨rfl, -⟩ | ⟨⟨⟩, -⟩ | ⟨rfl, -⟩ <;> simp

end EditScript

/-! ## Regions of texts -/

/-- The regions in which a text differs from another one are apart and in order, and none begins
before the first line or ends behind the line after the last one. Each line that is deleted or
replaced is in one of them. A line that is kept is in one only if new lines come right in front of
it, and is then all of that region. There is no region exactly if the texts have the same lines. -/
theorem changedRegions_cover (old new : Bytes) :
    let ops := EditScript.ofTexts old new
    let regions := changedRegions old new
    (regions.Pairwise fun r s => r.last < s.first) ∧
      (∀ r ∈ regions, 1 ≤ r.first ∧ r.first ≤ r.last ∧ r.last ≤ (Bytes.lines old).length + 1) ∧
      (∀ op ∈ ops, op.kind = .delete ∨ op.kind = .replace → ∀ n, op.Covers n →
        ∃ r ∈ regions, n ∈ r.lines) ∧
      (∀ op ∈ ops, op.kind = .equal → ∀ n, op.Covers n → ∀ r ∈ regions, n ∈ r.lines →
        r = ⟨n, n⟩ ∧ ∃ edit ∈ ops, edit.kind = .insert ∧ edit.oldBegin + 1 = n) ∧
      (regions = [] ↔ Bytes.lines old = Bytes.lines new) := by
  intro ops regions
  have hscript : EditScript.IsScript (Bytes.lines old) (Bytes.lines new)
      (EditScript.ofTexts old new) := EditScript.isScript_ofLines _ _
  refine ⟨hscript.pairwise_regions, fun r => hscript.bounds_of_mem_regions, ?_, ?_, ?_⟩
  · intro op hop hkind n hcovers
    refine EditScript.exists_mem_regions_of_covers hop ?_ hcovers
    rcases hkind with hkind | hkind <;> rw [hkind] <;> nofun
  · intro op hop hkind n hcovers r hr hn
    exact hscript.region_eq_of_kept hop hkind hcovers hr hn
  · have hnone : regions = [] ↔ EditScript.edited ops = [] := List.map_eq_nil_iff
    rw [hnone]
    constructor
    · exact hscript.eq_of_edited_eq_nil
    · intro hlines
      have hops : ops = EditScript.ofLines (Bytes.lines old) (Bytes.lines new) := rfl
      rw [hops, ← hlines]
      exact EditScript.edited_ofLines_self _

example : changedRegions (bytes "a\nb\nc") (bytes "x\na\nc\ny") = [⟨1, 1⟩, ⟨2, 2⟩, ⟨4, 4⟩] := by
  decide +kernel

end SourceChunks
