import SourceChunks.Proofs.Chunk.Cutting

/-!
# Chunks partition a text

The lines of a text that are not blank are shared out among its chunks. Line numbers, positions,
content and id of a chunk tell of the same lines.
-/

namespace SourceChunks

/-- A chunk is that of the given first and last line of a text, however one looks at it. -/
structure Chunk.Spans (c : Chunk) (text : Bytes) (first last : Nat) : Prop where
  /-- The lines are in order, and in the text since the last one is not blank. -/
  first_le_last : first ≤ last
  not_blankAt_first : ¬ BlankAt (Bytes.lines text) first
  not_blankAt_last : ¬ BlankAt (Bytes.lines text) last
  startLine_eq : c.startLine = first + 1
  endLine_eq : c.endLine = last + 1
  content_eq : c.content = Bytes.unlines ((Bytes.lines text).extract first (last + 1))
  byteStart_le_byteEnd : c.byteStart ≤ c.byteEnd
  byteEnd_le_length : c.byteEnd ≤ text.length
  extract_eq_content : text.extract c.byteStart c.byteEnd = c.content
  id_eq : c.id = Chunk.makeId c.filePath c.startLine c.endLine c.content

/-- Chunks partition a text: each one spans lines, none begins before the one before it has ended,
each line that is not blank is in one of them and in no other, and they begin where blocks do. -/
structure IsPartition (text : Bytes) (cs : List Chunk) : Prop where
  exists_spans : ∀ c ∈ cs, ∃ first last, c.Spans text first last
  ordered : cs.Pairwise fun c c' => c.endLine < c'.startLine
  existsUnique : ∀ i : Nat, ¬ BlankAt (Bytes.lines text) i →
    ∃! c, c ∈ cs ∧ c.startLine ≤ i + 1 ∧ i + 1 ≤ c.endLine
  begins_iff : ∀ i : Nat, (∃ c ∈ cs, c.startLine = i + 1) ↔ Begins (Bytes.lines text) i

variable {language : Language} {filePath text : Bytes}

/-- Every chunk spans a range of lines of the text. -/
theorem exists_spans_of_mem_chunkText {c : Chunk} (h : c ∈ chunkText language filePath text) :
    ∃ first last, c.Spans text first last := by
  obtain ⟨before, after, htext, hstart, hend⟩ := exists_eq_append_content_append h
  have hid := chunkText_id h
  obtain ⟨block, hblock, hc⟩ := mem_chunkText_iff.mp h
  have hcuts := cuts_blocks (Bytes.lines text)
  have hlength := congrArg List.length htext
  simp only [List.length_append] at hlength
  exact ⟨block.first, block.last, {
    first_le_last := hcuts.first_le_last block hblock
    not_blankAt_first := hcuts.not_blankAt_first hblock
    not_blankAt_last := hcuts.not_blankAt_last block hblock
    startLine_eq := hc ▸ rfl
    endLine_eq := hc ▸ rfl
    content_eq := hc ▸ rfl
    byteStart_le_byteEnd := by omega
    byteEnd_le_length := by omega
    extract_eq_content := by
      rw [htext, hstart, hend, List.extract_eq_take_drop, Nat.add_sub_cancel_left,
        List.append_assoc,
        List.drop_left, List.take_left]
    id_eq := hid }⟩

/-- Two chunks that share a line are one, as they are of one block. -/
theorem eq_of_mem_chunkText {c c' : Chunk} {n : Int} (hc : c ∈ chunkText language filePath text)
    (hc' : c' ∈ chunkText language filePath text) (hn : c.startLine ≤ n ∧ n ≤ c.endLine)
    (hn' : c'.startLine ≤ n ∧ n ≤ c'.endLine) : c = c' := by
  obtain ⟨b, hb, rfl⟩ := mem_chunkText_iff.mp hc
  obtain ⟨b', hb', rfl⟩ := mem_chunkText_iff.mp hc'
  simp only [Chunk.ofBlock] at hn hn'
  obtain ⟨k, hk⟩ : ∃ k : Nat, n = k + 1 := ⟨(n - 1).toNat, by omega⟩
  rw [(cuts_blocks _).eq_of_mem hb hb' (k := k) (by omega) (by omega)]

/-- The chunks of a text partition it. -/
theorem isPartition_chunkText (language : Language) (filePath text : Bytes) :
    IsPartition text (chunkText language filePath text) where
  exists_spans _ hc := exists_spans_of_mem_chunkText hc
  ordered := pairwise_chunkText language filePath text
  existsUnique i hi := by
    obtain ⟨block, hblock, hfirst, hlast⟩ :=
      (cuts_blocks (Bytes.lines text)).covers i (Nat.zero_le i) hi
    have hmem := mem_chunkText_iff.mpr
      ⟨block, hblock, Eq.refl (Chunk.ofBlock language filePath _ _ _)⟩
    have hin : (block.first : Int) + 1 ≤ i + 1 ∧ (i : Int) + 1 ≤ block.last + 1 := by omega
    exact ⟨_, ⟨hmem, hin⟩, fun c' ⟨hmem', hin'⟩ => eq_of_mem_chunkText hmem' hmem hin' hin⟩
  begins_iff i := by
    rw [← (cuts_blocks (Bytes.lines text)).begins_iff i (Nat.zero_le i)]
    constructor
    · rintro ⟨c, hc, hstart⟩
      obtain ⟨block, hblock, rfl⟩ := mem_chunkText_iff.mp hc
      have hstart : (block.first : Int) + 1 = i + 1 := hstart
      exact ⟨block, hblock, by omega⟩
    · rintro ⟨block, hblock, rfl⟩
      exact ⟨_, mem_chunkText_iff.mpr ⟨block, hblock, rfl⟩, rfl⟩

end SourceChunks
