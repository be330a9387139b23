import SourceChunks.Proofs.Bytes.Lines

/-!
# Cutting at a blank line

The search for blocks holds only its current block and whether the line before is blank, so what it
finds in joined lines is what it finds in the first ones and then in the others from that state on.
After a blank line this state matters only for the current block, which goes on unless the next line
that is not blank may begin one. So a text is cut at such a blank line as its two parts are, with
the second one moved.
-/

namespace SourceChunks

/-! ## Moving blocks -/

/-- The block so many lines further down. -/
def Block.shift (k : Nat) (b : Block) : Block := ⟨b.first + k, b.last + k⟩

namespace BlockSearch

variable {s : BlockSearch} {i : Nat} {ls : List Bytes}

/-- The search with its block so many lines further down. -/
def shift (k : Nat) (s : BlockSearch) : BlockSearch :=
  { s with current? := s.current?.map (·.shift k) }

/-- A block that is moved along starts as much later. -/
theorem first_shift (k : Nat) : (s.shift k).first (i + k) = s.first i + k := by
  obtain ⟨current?, afterBlank⟩ := s
  cases current? <;> rfl

/-- A step of the scan commutes with moving lines along. -/
theorem step_shift (k : Nat) (line : Bytes) :
    (s.shift k).step (i + k) line =
      ((s.step i line).1.map (·.shift k), (s.step i line).2.shift k) := by
  unfold step
  split
  · rfl
  · rw [first_shift]
    show (if s.afterBlank && Bytes.startsBlock line then _ else _) = _
    split <;> rfl

/-- The same lines further down have the same blocks further down. -/
theorem run_shift (k : Nat) :
    (s.shift k).run (i + k) ls = (s.run i ls).map (·.shift k) := by
  induction ls generalizing s i with
  | nil =>
    obtain ⟨current?, afterBlank⟩ := s
    cases current? <;> rfl
  | cons line rest ih =>
    have hindex : i + k + 1 = i + 1 + k := by omega
    rw [run, run, step_shift, hindex, ih, List.map_append]
    cases (s.step i line).1 <;> rfl

/-! ## The search past some lines -/

/-- What the search holds after some lines. -/
def after (s : BlockSearch) (i : Nat) : List Bytes → BlockSearch
  | [] => s
  | line :: rest => (s.step i line).2.after (i + 1) rest

/-- The blocks that have ended after some lines, without the current one. -/
def closed (s : BlockSearch) (i : Nat) : List Bytes → List Block
  | [] => []
  | line :: rest => (s.step i line).1.toList ++ (s.step i line).2.closed (i + 1) rest

/-- The scan of two pieces closes the blocks of the first and goes on with the second from where
that stopped. -/
theorem run_append (ls ls' : List Bytes) :
    s.run i (ls ++ ls') = s.closed i ls ++ (s.after i ls).run (i + ls.length) ls' := by
  induction ls generalizing s i with
  | nil => rfl
  | cons line rest ih =>
    have hindex : i + 1 + rest.length = i + (line :: rest).length := by
      rw [List.length_cons]
      omega
    rw [List.cons_append, run, ih, closed, after, hindex, List.append_assoc]

/-- A scan gives the blocks it closed and then the one that is still open. -/
theorem run_eq_closed_append :
    s.run i ls = s.closed i ls ++ (s.after i ls).current?.toList := by
  have happend := run_append (s := s) (i := i) ls []
  rwa [List.append_nil] at happend

/-- What the search holds stays true past one line. -/
theorem Holds.step {lines : List Bytes} (h : s.Holds lines i) :
    (s.step i (lines.getD i [])).2.Holds lines (i + 1) := by
  rcases h.step_cases with ⟨-, hstep, hholds⟩ | ⟨hstep, hholds⟩ | ⟨hstep, hholds⟩ <;> rwa [hstep]

/-- What the search holds is true of the lines in the end. -/
theorem Holds.after {lines rest : List Bytes} (h : s.Holds lines i)
    (hrest : lines.drop i = rest) : (s.after i rest).Holds lines (i + rest.length) := by
  induction rest generalizing s i with
  | nil => exact h
  | cons line rest ih =>
    obtain ⟨hline, hrest'⟩ := getD_of_drop_eq_cons hrest
    have hindex : i + (line :: rest).length = i + 1 + rest.length := by
      rw [List.length_cons]
      omega
    rw [BlockSearch.after, hindex, ← hline]
    exact ih h.step hrest'

/-- After a blank line a current block only comes before what is found without it, if there is none
or the next line that is not blank may begin a block. -/
theorem run_of_afterBlank (hafter : s.afterBlank = true)
    (h : s.current? = none ∨
      ∀ line, ls.find? (!Bytes.isBlank ·) = some line → Bytes.startsBlock line = true) :
    s.run i ls = s.current?.toList ++ start.run i ls := by
  obtain ⟨current?, afterBlank⟩ := s
  obtain rfl : afterBlank = true := hafter
  rcases h with hnone | hstarts
  · obtain rfl : current? = none := hnone
    rfl
  induction ls generalizing i with
  | nil => exact (List.append_nil _).symm
  | cons line rest ih =>
    rw [run, run, step, step]
    cases hblank : Bytes.isBlank line with
    | true => exact ih (fun line' hfind => hstarts line' (by simpa [hblank] using hfind))
    | false =>
      have hbegins := hstarts line (by simp [hblank])
      simp [hbegins, start]

end BlockSearch

/-! ## Blocks of joined lines -/

/-- Lines have a block boundary after them, if the last one is blank. -/
theorem blocks_append {ls ls' : List Bytes}
    (hlast : ∀ line, ls.getLast? = some line → Bytes.isBlank line = true)
    (hseam : (∀ line ∈ ls, Bytes.isBlank line = true) ∨
      ∀ line, ls'.find? (!Bytes.isBlank ·) = some line → Bytes.startsBlock line = true) :
    blocks (ls ++ ls') = blocks ls ++ (blocks ls').map (·.shift ls.length) := by
  have hholds : (BlockSearch.start.after 0 ls).Holds ls (0 + ls.length) :=
    BlockSearch.holds_start.after rfl
  rw [Nat.zero_add] at hholds
  have hafter : (BlockSearch.start.after 0 ls).afterBlank = true := by
    rw [hholds.afterBlank_iff]
    rcases List.eq_nil_or_concat' ls with rfl | ⟨before, line, rfl⟩
    · exact .inl rfl
    · right
      have hline := hlast line (List.getLast?_concat ..)
      simpa [BlankAt] using hline
  have hcurrent : (BlockSearch.start.after 0 ls).current? = none ∨
      ∀ line, ls'.find? (!Bytes.isBlank ·) = some line → Bytes.startsBlock line = true := by
    refine hseam.imp_left fun hall => ?_
    cases hb : (BlockSearch.start.after 0 ls).current? with
    | none => rfl
    | some b =>
      have hnot := (hholds.isCurrent b hb).not_blankAt_last
      have hlt := lt_length_of_not_blankAt hnot
      refine absurd ?_ hnot
      rw [BlankAt, List.getD_eq_getElem _ _ hlt]
      exact hall _ (List.getElem_mem hlt)
  have hshift : BlockSearch.start.run ls.length ls' = (blocks ls').map (·.shift ls.length) := by
    rw [blocks, ← BlockSearch.run_shift, Nat.zero_add]
    rfl
  calc blocks (ls ++ ls')
      = BlockSearch.start.closed 0 ls ++ ((BlockSearch.start.after 0 ls).current?.toList ++
          BlockSearch.start.run ls.length ls') := by
        rw [blocks, BlockSearch.run_append, Nat.zero_add,
          BlockSearch.run_of_afterBlank hafter hcurrent]
    _ = blocks ls ++ (blocks ls').map (·.shift ls.length) := by
        rw [← List.append_assoc, ← BlockSearch.run_eq_closed_append, hshift]
        rfl

/-! ## Chunks of joined texts -/

/-- The chunk of the same content so many lines and bytes further down in its file. -/
def Chunk.moveDown (lines bytes : Nat) (c : Chunk) : Chunk :=
  { c with
    startLine := c.startLine + lines
    endLine := c.endLine + lines
    byteStart := c.byteStart + bytes
    byteEnd := c.byteEnd + bytes
    id := makeId c.filePath (c.startLine + lines) (c.endLine + lines) c.content }

section Blocks

variable {language : Language} {filePath : Bytes} {ls ls' : List Bytes} {b : Block}

/-- Lines that follow do not change the chunk of a block. -/
theorem Chunk.ofBlock_append (h : b.first ≤ b.last ∧ b.last < ls.length) :
    ofBlock language filePath (ls ++ ls') (Bytes.offsets 0 (ls ++ ls')) b =
      ofBlock language filePath ls (Bytes.offsets 0 ls) b := by
  obtain ⟨hle, hlt⟩ := h
  have hextract : (ls ++ ls').extract b.first (b.last + 1) = ls.extract b.first (b.last + 1) := by
    rw [List.extract_eq_take_drop, List.extract_eq_take_drop,
      List.drop_append_of_le_length (by omega),
      List.take_append_of_le_length (by rw [List.length_drop]; omega)]
  have hline {i : Nat} (hi : i < ls.length) : (ls ++ ls').getD i [] = ls.getD i [] :=
    List.getD_append _ _ _ _ hi
  have hoffset {i : Nat} (hi : i < ls.length) :
      (Bytes.offsets 0 (ls ++ ls')).getD i 0 = (Bytes.offsets 0 ls).getD i 0 := by
    rw [Bytes.getD_offsets hi, Bytes.getD_offsets (by rw [List.length_append]; omega),
      List.take_append_of_le_length hi.le]
  rw [ofBlock, ofBlock, hextract, hline hlt, hline (hle.trans_lt hlt), hoffset hlt,
    hoffset (hle.trans_lt hlt)]

/-- Lines that come before move the chunk of a block down. -/
theorem Chunk.ofBlock_append_shift (h : b.first ≤ b.last ∧ b.last < ls'.length) :
    ofBlock language filePath (ls ++ ls') (Bytes.offsets 0 (ls ++ ls')) (b.shift ls.length) =
      (ofBlock language filePath ls' (Bytes.offsets 0 ls') b).moveDown ls.length
        (Bytes.terminated ls).length := by
  obtain ⟨hle, hlt⟩ := h
  have hextract : (ls ++ ls').extract (b.first + ls.length) (b.last + ls.length + 1) =
      ls'.extract b.first (b.last + 1) := by
    rw [List.extract_eq_take_drop, List.extract_eq_take_drop, Nat.add_comm b.first,
      List.drop_length_add_append]
    congr 1
    omega
  have hline (i : Nat) : (ls ++ ls').getD (i + ls.length) [] = ls'.getD i [] := by
    rw [List.getD_append_right _ _ _ _ (Nat.le_add_left ..), Nat.add_sub_cancel]
  have hoffset {i : Nat} (hi : i < ls'.length) :
      (Bytes.offsets 0 (ls ++ ls')).getD (i + ls.length) 0 =
        (Bytes.offsets 0 ls').getD i 0 + (Bytes.terminated ls).length := by
    rw [Bytes.getD_offsets hi, Bytes.getD_offsets (by rw [List.length_append]; omega),
      Nat.add_comm i, List.take_length_add_append, Bytes.terminated_append, List.length_append]
    omega
  have hstart : ((b.first + ls.length : Nat) : Int) + 1 = (b.first : Int) + 1 + ls.length := by
    omega
  have hend : ((b.last + ls.length : Nat) : Int) + 1 = (b.last : Int) + 1 + ls.length := by
    omega
  simp only [ofBlock, Block.shift, moveDown, hextract, hline, hoffset hlt,
    hoffset (hle.trans_lt hlt), hstart, hend, Nat.add_right_comm]

end Blocks

namespace Bytes

/-- A text is empty, or its last line is blank and ends with a line feed. -/
def EndsBlank (t : Bytes) : Prop :=
  t = [] ∨ (t.getLast? = some newline ∧
    ∃ line, (lines t).getLast? = some line ∧ isBlank line = true)

/-- No line of a text is other than blank. -/
def AllBlank (t : Bytes) : Prop := ∀ line ∈ lines t, isBlank line = true

/-- The first line of a text that is not blank begins with neither white space nor a closing
bracket. -/
def OpensBlock (t : Bytes) : Prop :=
  ∀ line, (lines t).find? (!isBlank ·) = some line →
    ∀ b, line.head? = some b → isSpace b = false ∧ b ∉ [0x7D, 0x29, 0x5D]

end Bytes

/-- A text that is joined to another one at a blank line keeps its chunks and is followed by those
of the other, moved down by its lines and its bytes, if the other begins a block there or one of
them has nothing but blank lines. -/
theorem chunkText_append (language : Language) (filePath : Bytes) {t t' : Bytes}
    (hend : t.EndsBlank) (hseam : t.AllBlank ∨ t'.AllBlank ∨ t'.OpensBlock) :
    chunkText language filePath (t ++ t') =
        chunkText language filePath t ++
          (chunkText language filePath t').map
            (Chunk.moveDown (Bytes.lines t).length t.length) ∧
      chunkText language filePath t <+: chunkText language filePath (t ++ t') := by
  have hends : t.EndsLine := hend.imp_right And.left
  have hlast : ∀ line, (Bytes.lines t).getLast? = some line → Bytes.isBlank line = true := by
    rcases hend with rfl | ⟨-, line, hline, hblank⟩
    · exact nofun
    · rw [hline]
      rintro _ ⟨⟩
      exact hblank
  have hstarts : (∀ line ∈ Bytes.lines t, Bytes.isBlank line = true) ∨
      ∀ line, (Bytes.lines t').find? (!Bytes.isBlank ·) = some line →
        Bytes.startsBlock line = true := by
    refine hseam.imp_right fun hseam line hfind => ?_
    have hnot : Bytes.isBlank line = false := by simpa using List.find?_some hfind
    rcases hseam with hall | hopens
    · exact absurd (hall line (List.mem_of_find?_eq_some hfind)) (Bool.eq_false_iff.mp hnot)
    · exact (startsBlock_iff hnot).mpr (hopens line hfind)
  have happend : chunkText language filePath (t ++ t') =
      chunkText language filePath t ++ (chunkText language filePath t').map
        (Chunk.moveDown (Bytes.lines t).length t.length) := by
    rw [chunkText, hends.lines_append, blocks_append hlast hstarts, List.map_append, chunkText,
      chunkText, List.map_map, List.map_map]
    congr 1
    · exact List.map_congr_left fun b hb => Chunk.ofBlock_append (mem_lines_of_mem_blocks hb)
    · refine List.map_congr_left fun b hb => ?_
      rw [Function.comp_apply, Function.comp_apply,
        Chunk.ofBlock_append_shift (mem_lines_of_mem_blocks hb), hends.terminated_lines]
  exact ⟨happend, happend ▸ List.prefix_append _ _⟩

/-- A function after a blank line is a chunk of its own, whatever bracket comes later in it. -/
theorem chunkText_append_twoFunctions :
    let t := bytes "f()\n\n"
    let t' := bytes "\ng(\n\n)"
    t.EndsBlank ∧ t'.OpensBlock ∧ (chunkText .cpp (bytes "a") t).length = 1 ∧
      (chunkText .cpp (bytes "a") t').map (fun c => (c.startLine, c.endLine)) = [(2, 4)] ∧
      (chunkText .cpp (bytes "a") (t ++ t')).map (fun c => (c.startLine, c.endLine)) =
        [(1, 1), (4, 6)] ∧
      chunkText .cpp (bytes "a") (t ++ t') = chunkText .cpp (bytes "a") t ++
        (chunkText .cpp (bytes "a") t').map (Chunk.moveDown 2 5) := by
  intro t t'
  have hend : t.EndsBlank := .inr ⟨by decide, [], by decide, by decide⟩
  have hopens : t'.OpensBlock := by
    intro line hfind b hb
    obtain rfl : bytes "g(" = line := Option.some.inj hfind
    obtain rfl : 0x67 = b := Option.some.inj hb
    decide
  exact ⟨hend, hopens, by decide +kernel, by decide +kernel, by decide +kernel,
    (chunkText_append .cpp (bytes "a") hend (.inr (.inr hopens))).1⟩

end SourceChunks
