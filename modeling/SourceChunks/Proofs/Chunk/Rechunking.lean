import SourceChunks.Proofs.Bytes.Lines
import SourceChunks.Proofs.Chunk.Cutting

/-!
# The content of a chunk as a text

Whether a line begins a block is told by that line and the one before it, unless it is the first one
that is not blank. So no line of a block begins one among the lines of that block either, but for
the first one: these lines are one block, and the content of a chunk is cut into that chunk alone.
-/

namespace SourceChunks

/-! ## The lines of a block -/

section Lines

variable {ls : List Bytes} {b : Block} {first last i k : Nat}

/-- The lines from the first to the last of a block are as many as the block has. -/
theorem length_extract_of_mem_blocks (hb : b ∈ blocks ls) :
    (ls.extract b.first (b.last + 1)).length = b.last - b.first + 1 := by
  obtain ⟨hle, hlt⟩ := mem_lines_of_mem_blocks hb
  rw [List.extract_eq_take_drop, List.length_take, List.length_drop]
  omega

/-- Lines taken from the middle of a text are the lines of the text, counted from the first one
taken. -/
theorem getD_extract_succ (h : first + k ≤ last) :
    (ls.extract first (last + 1)).getD k [] = ls.getD (first + k) [] := by
  rw [List.getD_eq_getElem?_getD, List.getD_eq_getElem?_getD, List.extract_eq_take_drop,
    List.getElem?_take_of_lt (by omega), List.getElem?_drop]

/-- A line that begins a block in a run of lines begins one among all of them, unless it is the
first one of the run that is not blank. -/
theorem Begins.of_extract (h : Begins (ls.extract first (last + 1)) k) (hlt : 0 < k)
    (hle : first + k ≤ last) (hfirst : ¬ BlankAt ls first) : Begins ls (first + k) := by
  obtain ⟨hblank, hall | ⟨-, hbefore, hbyte⟩⟩ := h
  · have hzero := hall 0 hlt
    rw [BlankAt, getD_extract_succ (by omega)] at hzero
    exact absurd hzero hfirst
  · rw [BlankAt, getD_extract_succ hle] at hblank
    rw [BlankAt, getD_extract_succ (by omega), ← Nat.add_sub_assoc hlt] at hbefore
    rw [getD_extract_succ hle] at hbyte
    exact ⟨hblank, .inr ⟨by omega, hbefore, hbyte⟩⟩

/-- No line within a block begins one. -/
theorem Cuts.not_begins {bs : List Block} (h : Cuts ls i bs) (hb : b ∈ bs) (hlt : b.first < k)
    (hle : k ≤ b.last) : ¬ Begins ls k := by
  intro hbegins
  have hi : i ≤ k := (h.le_first b hb).trans hlt.le
  obtain ⟨b', hb', rfl⟩ := (h.begins_iff k hi).mpr hbegins
  have heq := h.eq_of_mem hb hb' ⟨hlt.le, hle⟩ ⟨Nat.le_refl _, h.first_le_last b' hb'⟩
  exact hlt.ne (congrArg Block.first heq)

/-- Lines of which the first one alone begins a block, and of which the last one is not blank, are
one block. -/
theorem blocks_eq_singleton (hlength : ls.length = last + 1) (hbegins : ∀ k, Begins ls k → k = 0)
    (hlast : ¬ BlankAt ls last) : blocks ls = [⟨0, last⟩] := by
  have hcuts := cuts_blocks ls
  have hzero : ∀ b ∈ blocks ls, b.first = 0 := fun b hb =>
    hbegins _ ((hcuts.begins_iff _ (Nat.zero_le _)).mp ⟨b, hb, rfl⟩)
  obtain ⟨b, hb, -, hle⟩ := hcuts.covers last (Nat.zero_le _) hlast
  have hlt := (mem_lines_of_mem_blocks hb).2
  have hordered := hcuts.ordered
  rcases hblocks : blocks ls with _ | ⟨b', _ | ⟨b'', rest⟩⟩
  · rw [hblocks] at hb
    cases hb
  · rw [hblocks] at hb hzero
    obtain rfl := List.mem_singleton.mp hb
    have hfirst := hzero b hb
    have hlast : b.last = last := by omega
    rw [← hfirst, ← hlast]
  · rw [hblocks] at hordered hzero
    have hsecond := hzero b'' (by simp)
    have hbetween := (List.pairwise_cons.mp hordered).1 b'' (by simp)
    omega

/-- The lines of a block are one block. -/
theorem blocks_extract (hb : b ∈ blocks ls) :
    blocks (ls.extract b.first (b.last + 1)) = [⟨0, b.last - b.first⟩] := by
  have hcuts := cuts_blocks ls
  have hle := hcuts.first_le_last b hb
  have hlength := length_extract_of_mem_blocks hb
  refine blocks_eq_singleton hlength (fun k hk => ?_) ?_
  · have hrun := lt_length_of_not_blankAt hk.1
    by_contra hne
    have hpos : 0 < k := Nat.pos_of_ne_zero hne
    exact hcuts.not_begins hb (by omega) (by omega)
      (hk.of_extract hpos (by omega) (hcuts.not_blankAt_first hb))
  · rw [BlankAt, getD_extract_succ (by omega), Nat.add_sub_cancel' hle]
    exact hcuts.not_blankAt_last b hb

/-- The joined lines of a block have these lines again, since the last one is not empty. -/
theorem lines_unlines_of_mem_blocks {text : Bytes} (hb : b ∈ blocks (Bytes.lines text)) :
    Bytes.lines (Bytes.unlines ((Bytes.lines text).extract b.first (b.last + 1))) =
      (Bytes.lines text).extract b.first (b.last + 1) := by
  have hle := (mem_lines_of_mem_blocks hb).1
  have hlength := length_extract_of_mem_blocks hb
  have hne : (Bytes.lines text).extract b.first (b.last + 1) ≠ [] :=
    List.ne_nil_of_length_pos (by omega)
  refine Bytes.lines_unlines (fun line hline => ?_) hne fun hempty => ?_
  · rw [List.extract_eq_take_drop] at hline
    exact Bytes.not_mem_of_mem_pieces (List.mem_of_mem_drop (List.mem_of_mem_take hline))
  · have hlast :
        ((Bytes.lines text).extract b.first (b.last + 1)).getD (b.last - b.first) [] = [] := by
      rw [List.getLast_eq_getElem] at hempty
      rw [List.getD_eq_getElem _ _ (by omega), ← hempty]
      congr 1
      omega
    rw [getD_extract_succ (by omega), Nat.add_sub_cancel' hle] at hlast
    refine (cuts_blocks _).not_blankAt_last b hb ?_
    rw [BlankAt, hlast]
    rfl

/-- The chunk of all lines of a text has all of its bytes. -/
theorem Chunk.ofBlock_whole (language : Language) (filePath : Bytes)
    (hlines : Bytes.lines (Bytes.unlines ls) = ls) (hlength : ls.length = last + 1) :
    let c := ofBlock language filePath ls (Bytes.offsets 0 ls) ⟨0, last⟩
    c.content = Bytes.unlines ls ∧ c.byteStart = 0 ∧ c.byteEnd = (Bytes.unlines ls).length := by
  have hwhole : ls.extract 0 (last + 1) = ls := by
    rw [List.extract_eq_take_drop, List.drop_zero, List.take_of_length_le (by omega)]
  have hzero : (Bytes.offsets 0 ls).getD 0 0 = 0 := by
    rw [Bytes.getD_offsets (by omega)]
    rfl
  obtain ⟨before, -, -, hstart, hend⟩ := Bytes.exists_eq_append_unlines (t := Bytes.unlines ls)
    (Nat.zero_le last) (by rw [hlines]; omega)
  rw [hlines] at hstart hend
  rw [hwhole, ← hstart, hzero, Nat.zero_add] at hend
  exact ⟨congrArg Bytes.unlines hwhole, hzero, hend⟩

end Lines

/-! ## The chunks of a content -/

/-- The content of a chunk is cut into that chunk alone, with its lines and bytes counted from its
own beginning. -/
theorem chunkText_content {language : Language} {filePath text : Bytes} {c : Chunk}
    (h : c ∈ chunkText language filePath text) (filePath' : Bytes) :
    chunkText language filePath' c.content =
      [{ c with
        filePath := filePath'
        startLine := 1
        endLine := c.endLine - c.startLine + 1
        byteStart := 0
        byteEnd := c.content.length
        id := Chunk.makeId filePath' 1 (c.endLine - c.startLine + 1) c.content }] := by
  obtain ⟨b, hb, rfl⟩ := mem_chunkText_iff.mp h
  obtain ⟨run, hrun⟩ : ∃ run, (Bytes.lines text).extract b.first (b.last + 1) = run := ⟨_, rfl⟩
  have hle := (mem_lines_of_mem_blocks hb).1
  have hlines := lines_unlines_of_mem_blocks hb
  have hblocks := blocks_extract hb
  have hlength := length_extract_of_mem_blocks hb
  have hfirst : run.getD 0 [] = (Bytes.lines text).getD b.first [] :=
    hrun ▸ getD_extract_succ (k := 0) hle
  rw [hrun] at hlines hblocks hlength
  obtain ⟨hcontent, hbyteStart, hbyteEnd⟩ :=
    Chunk.ofBlock_whole language filePath' hlines hlength
  have hstart : ((0 : Nat) : Int) + 1 = 1 := rfl
  have hend : ((b.last - b.first : Nat) : Int) + 1 = (b.last : Int) + 1 - (b.first + 1) + 1 := by
    omega
  simp only [Chunk.ofBlock] at hcontent hbyteStart hbyteEnd
  simp only [chunkText, Chunk.ofBlock, hrun, hlines, hblocks, List.map_cons, List.map_nil, hfirst,
    hcontent, hbyteStart, hbyteEnd, hstart, hend]

/-- A bracket after a blank line goes on with its block in the content of the chunk as it does in
the text. -/
theorem chunkText_content_closingBracket :
    let c := (chunkText .cpp (bytes "a") (bytes "g\n\nf(\n\n)\n")).getLast (by decide +kernel)
    c.content = bytes "f(\n\n)" ∧ (c.startLine, c.endLine, c.byteStart, c.byteEnd) = (3, 5, 3, 8) ∧
      chunkText .cpp (bytes "b") c.content =
        [{ c with
          filePath := bytes "b"
          startLine := 1
          endLine := 3
          byteStart := 0
          byteEnd := 5
          id := Chunk.makeId (bytes "b") 1 3 c.content }] := by
  intro c
  have hmem : c ∈ chunkText .cpp (bytes "a") (bytes "g\n\nf(\n\n)\n") := List.getLast_mem _
  have hcontent : c.content = bytes "f(\n\n)" := by decide +kernel
  have hplace : (c.startLine, c.endLine, c.byteStart, c.byteEnd) = (3, 5, 3, 8) := by
    decide +kernel
  exact ⟨hcontent, hplace, chunkText_content hmem (bytes "b")⟩

end SourceChunks
