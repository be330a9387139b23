import Mathlib.Data.List.TakeWhile
import SourceChunks.Proofs.Chunk.Blocks

/-!
# Where chunks lie in a text

The blocks of a text are runs of its lines, taken in order, so no line is in two blocks and the
chunks come by increasing lines. What a chunk says of itself is read off its file, its language, its
lines and its content, and its content is what the text has between its two positions.
-/

namespace SourceChunks

/-! ## Lines and their places -/

namespace Bytes

/-- Pieces do not contain the byte that ends them. -/
theorem not_mem_of_mem_pieces {stop : UInt8} {t piece : Bytes} (h : piece ∈ pieces stop t) :
    stop ∉ piece := by
  induction t generalizing piece with
  | nil => simp [pieces] at h
  | cons b rest ih =>
    rw [pieces] at h
    split at h
    · rcases List.mem_cons.mp h with rfl | h
      · exact List.not_mem_nil
      · exact ih h
    · next hb =>
      split at h
      · obtain rfl := List.mem_singleton.mp h
        simpa using Ne.symm hb
      · next piece' more hpieces =>
        rcases List.mem_cons.mp h with rfl | h
        · rw [List.mem_cons, not_or]
          exact ⟨Ne.symm hb, ih (by rw [hpieces]; exact List.mem_cons_self ..)⟩
        · exact ih (by rw [hpieces]; exact List.mem_cons_of_mem _ h)

/-- Lines that each end with a line feed. -/
def terminated (ls : List Bytes) : Bytes := ls.flatMap fun line => line ++ [newline]

/-- Lines are written out one after another. -/
theorem terminated_append (ls ls' : List Bytes) :
    terminated (ls ++ ls') = terminated ls ++ terminated ls' := List.flatMap_append

/-- The lines of a text make the text up, but a line feed may be missing at its end. -/
theorem exists_terminated_lines_eq (t : Bytes) :
    ∃ tail : Bytes, tail.length ≤ 1 ∧ terminated (lines t) = t ++ tail := by
  induction t with
  | nil => exact ⟨[], Nat.zero_le _, rfl⟩
  | cons b rest ih =>
    obtain ⟨tail, htail, heq⟩ := ih
    rw [lines] at heq
    rw [lines, pieces]
    split
    · next hb => exact ⟨tail, htail, by rw [hb]; exact congrArg (newline :: ·) heq⟩
    · split
      · next hnone =>
        rw [pieces_eq_nil_iff.mp hnone]
        exact ⟨[newline], Nat.le_refl _, rfl⟩
      · next piece more hpieces =>
        rw [hpieces] at heq
        exact ⟨tail, htail, congrArg (b :: ·) heq⟩

/-- Joined lines lack the line feed after the last one. -/
theorem terminated_eq_unlines {ls : List Bytes} (h : ls ≠ []) :
    terminated ls = unlines ls ++ [newline] := by
  induction ls with
  | nil => exact absurd rfl h
  | cons line rest ih =>
    cases rest with
    | nil => simp [terminated, unlines]
    | cons line' rest =>
      rw [terminated, List.flatMap_cons, ← terminated, ih (List.cons_ne_nil _ _), unlines, unlines,
        List.intercalate_cons_cons]
      simp only [List.append_assoc]

/-- A line begins where the lines before it end. -/
theorem getD_offsets {start i : Nat} {ls : List Bytes} (h : i < ls.length) :
    (offsets start ls).getD i 0 = start + (terminated (ls.take i)).length := by
  induction ls generalizing start i with
  | nil => exact absurd h (Nat.not_lt_zero i)
  | cons line rest ih =>
    cases i with
    | zero => rfl
    | succ i =>
      rw [offsets, List.getD_cons_succ, ih (Nat.lt_of_succ_lt_succ h), List.take_succ_cons,
        terminated, terminated, List.flatMap_cons, List.length_append, List.length_append]
      simp only [List.length_singleton, Nat.add_assoc]

/-- The joined lines of a run stand in a text from where its first line begins to where its last one
ends. -/
theorem exists_eq_append_unlines {t : Bytes} {first last : Nat} (hle : first ≤ last)
    (hlt : last < (lines t).length) :
    ∃ before after, t = before ++ unlines ((lines t).extract first (last + 1)) ++ after ∧
      (offsets 0 (lines t)).getD first 0 = before.length ∧
      (offsets 0 (lines t)).getD last 0 + ((lines t).getD last []).length =
        before.length + (unlines ((lines t).extract first (last + 1))).length := by
  obtain ⟨run, hrun⟩ : ∃ run, (lines t).extract first (last + 1) = run := ⟨_, rfl⟩
  have hsplit : (lines t).take (last + 1) = (lines t).take first ++ run := by
    rw [← hrun, List.extract_eq_take_drop, ← List.take_add, Nat.add_sub_cancel' (by omega)]
  have hne : run ≠ [] := by
    intro hnil
    have hlength := congrArg List.length hsplit
    rw [hnil, List.append_nil, List.length_take, List.length_take] at hlength
    omega
  have hupto : terminated ((lines t).take (last + 1)) =
      terminated ((lines t).take first) ++ unlines run ++ [newline] := by
    rw [hsplit, terminated_append, terminated_eq_unlines hne, List.append_assoc]
  obtain ⟨tail, htail, hall⟩ := exists_terminated_lines_eq t
  -- All that follows the run is lines, and the text lacks at most one line feed of those.
  have hpre : terminated ((lines t).take first) ++ unlines run <+: t := by
    have hwhole : terminated ((lines t).take first) ++ unlines run ++ [newline] ++
        terminated ((lines t).drop (last + 1)) = t ++ tail := by
      rw [← hupto, ← terminated_append, List.take_append_drop, hall]
    refine List.prefix_of_prefix_length_le
      ⟨[newline] ++ terminated ((lines t).drop (last + 1)), ?_⟩ ⟨tail, rfl⟩ ?_
    · rw [← hwhole]
      simp only [List.append_assoc]
    · have hlength := congrArg List.length hwhole
      simp only [List.length_append, List.length_singleton] at hlength ⊢
      omega
  obtain ⟨after, hafter⟩ := hpre
  refine ⟨terminated ((lines t).take first), after, hrun ▸ hafter.symm, ?_, ?_⟩
  · rw [getD_offsets (hle.trans_lt hlt), Nat.zero_add]
  · have hlast : terminated ((lines t).take (last + 1)) =
        terminated ((lines t).take last) ++ ((lines t).getD last [] ++ [newline]) := by
      rw [List.take_succ_eq_append_getElem hlt, terminated_append, List.getD_eq_getElem _ _ hlt]
      exact congrArg (terminated ((lines t).take last) ++ ·) (List.flatMap_singleton ..)
    have hlength := congrArg List.length (hupto.symm.trans hlast)
    simp only [List.length_append, List.length_singleton] at hlength
    rw [getD_offsets hlt, hrun]
    omega

end Bytes

/-! ## Chunks -/

/-- The chunks of a text are those of its blocks. -/
theorem mem_chunkText_iff {language : Language} {filePath text : Bytes} {c : Chunk} :
    c ∈ chunkText language filePath text ↔
      ∃ block ∈ blocks (Bytes.lines text), Chunk.ofBlock language filePath (Bytes.lines text)
        (Bytes.offsets 0 (Bytes.lines text)) block = c := List.mem_map

/-- The lines of a block are lines of the text. -/
theorem mem_lines_of_mem_blocks {lines : List Bytes} {block : Block} (h : block ∈ blocks lines) :
    block.first ≤ block.last ∧ block.last < lines.length :=
  ⟨(cuts_blocks lines).first_le_last block h,
    lt_length_of_not_blankAt ((cuts_blocks lines).not_blankAt_last block h)⟩

/-- Chunks come one after the other. -/
theorem pairwise_chunkText (language : Language) (filePath text : Bytes) :
    (chunkText language filePath text).Pairwise fun a b => a.endLine < b.startLine := by
  refine List.pairwise_map.mpr ((cuts_blocks _).ordered.imp fun {b b'} hlt => ?_)
  show (b.last : Int) + 1 < b'.first + 1
  omega

/-- No chunk ends before it starts. -/
theorem startLine_le_endLine_of_mem_chunkText {language : Language} {filePath text : Bytes}
    {c : Chunk} (h : c ∈ chunkText language filePath text) : c.startLine ≤ c.endLine := by
  obtain ⟨block, hblock, rfl⟩ := mem_chunkText_iff.mp h
  have hle := (mem_lines_of_mem_blocks hblock).1
  show (block.first : Int) + 1 ≤ block.last + 1
  omega

/-- Chunks come by strictly increasing first lines. -/
theorem pairwise_startLine_chunkText (language : Language) (filePath text : Bytes) :
    (chunkText language filePath text).Pairwise fun a b => a.startLine < b.startLine :=
  (pairwise_chunkText language filePath text).imp_of_mem fun ha _ hlt =>
    Int.lt_of_le_of_lt (startLine_le_endLine_of_mem_chunkText ha) hlt

/-- Chunks belong to the file that the text is of. -/
theorem chunkText_filePath {language : Language} {filePath text : Bytes} {c : Chunk}
    (h : c ∈ chunkText language filePath text) : c.filePath = filePath := by
  obtain ⟨block, -, rfl⟩ := mem_chunkText_iff.mp h
  rfl

/-- A chunk has the id of its own file, lines and content. -/
theorem chunkText_id {language : Language} {filePath text : Bytes} {c : Chunk}
    (h : c ∈ chunkText language filePath text) :
    c.id = Chunk.makeId c.filePath c.startLine c.endLine c.content := by
  obtain ⟨block, -, rfl⟩ := mem_chunkText_iff.mp h
  rfl

/-- The first line of a content, which decides the kind of a chunk. -/
theorem takeWhile_unlines {t : Bytes} (ht : Bytes.newline ∉ t) (rest : List Bytes) :
    (Bytes.unlines (t :: rest)).takeWhile (· != Bytes.newline) = t := by
  have hall : ∀ b ∈ t, (b != Bytes.newline) = true := by
    intro b hb
    rw [bne_iff_ne]
    exact fun h => ht (h ▸ hb)
  cases rest with
  | nil => simpa [Bytes.unlines] using List.takeWhile_eq_self_iff.mpr hall
  | cons t' rest =>
    rw [Bytes.unlines, List.intercalate_cons_cons, List.append_assoc,
      List.takeWhile_append_of_pos hall]
    simp

/-- The kind of a chunk is told by its language and its content alone. -/
theorem chunkText_nodeType {language : Language} {filePath text : Bytes} {c : Chunk}
    (h : c ∈ chunkText language filePath text) :
    c.nodeType = language.nodeType (c.content.takeWhile (· != Bytes.newline)) := by
  obtain ⟨block, hblock, rfl⟩ := mem_chunkText_iff.mp h
  obtain ⟨hle, hlt⟩ := mem_lines_of_mem_blocks hblock
  have hfirst : block.first < (Bytes.lines text).length := hle.trans_lt hlt
  have hline : Bytes.newline ∉ (Bytes.lines text).getD block.first [] := by
    rw [List.getD_eq_getElem _ _ hfirst]
    exact Bytes.not_mem_of_mem_pieces (List.getElem_mem hfirst)
  have hrun : (Bytes.lines text).extract block.first (block.last + 1) =
      (Bytes.lines text).getD block.first [] ::
        (Bytes.lines text).extract (block.first + 1) (block.last + 1) := by
    rw [List.getD_eq_getElem _ _ hfirst, List.extract_eq_take_drop, List.extract_eq_take_drop,
      List.drop_eq_getElem_cons hfirst, Nat.succ_sub hle, List.take_succ_cons,
      Nat.add_sub_add_right]
  show language.nodeType ((Bytes.lines text).getD block.first []) = _
  rw [Chunk.ofBlock, hrun, takeWhile_unlines hline]

/-- The content of a chunk is what its text has between its positions. -/
theorem exists_eq_append_content_append {language : Language} {filePath text : Bytes} {c : Chunk}
    (h : c ∈ chunkText language filePath text) :
    ∃ before after, text = before ++ c.content ++ after ∧ c.byteStart = before.length ∧
      c.byteEnd = before.length + c.content.length := by
  obtain ⟨block, hblock, rfl⟩ := mem_chunkText_iff.mp h
  obtain ⟨hle, hlt⟩ := mem_lines_of_mem_blocks hblock
  exact Bytes.exists_eq_append_unlines hle hlt

/-- The lines and the bytes of a chunk lie in its text. -/
theorem chunkText_bounds {language : Language} {filePath text : Bytes} {c : Chunk}
    (h : c ∈ chunkText language filePath text) :
    (1 ≤ c.startLine ∧ c.startLine ≤ (Bytes.lines text).length) ∧
      (1 ≤ c.endLine ∧ c.endLine ≤ (Bytes.lines text).length) ∧
      c.byteStart ≤ text.length ∧ c.byteEnd ≤ text.length := by
  obtain ⟨before, after, htext, hstart, hend⟩ := exists_eq_append_content_append h
  obtain ⟨block, hblock, rfl⟩ := mem_chunkText_iff.mp h
  obtain ⟨hle, hlt⟩ := mem_lines_of_mem_blocks hblock
  have hlength := congrArg List.length htext
  simp only [List.length_append] at hlength
  rw [hstart, hend]
  simp only [Chunk.ofBlock] at hlength ⊢
  omega

/-- Increasing numbers within bounds are no more than there are numbers between the bounds. -/
theorem length_le_of_pairwise_lt (low high : Int) {ns : List Int} (h : ns.Pairwise (· < ·))
    (hlow : ∀ n ∈ ns, low ≤ n) (hhigh : ∀ n ∈ ns, n ≤ high) (hle : low ≤ high + 1) :
    (ns.length : Int) ≤ high + 1 - low := by
  induction ns generalizing low with
  | nil => simpa using hle
  | cons n rest ih =>
    obtain ⟨hhead, hrest⟩ := List.pairwise_cons.mp h
    have hn := hlow n (List.mem_cons_self ..)
    have hn' := hhigh n (List.mem_cons_self ..)
    have hlength := ih (n + 1) hrest (fun m hm => hhead m hm)
      (fun m hm => hhigh m (List.mem_cons_of_mem _ hm)) (by omega)
    simp only [List.length_cons]
    omega

/-- There are at most as many chunks as lines. -/
theorem length_chunkText_le (language : Language) (filePath text : Bytes) :
    (chunkText language filePath text).length ≤ (Bytes.lines text).length := by
  have hlength := length_le_of_pairwise_lt 1 (Bytes.lines text).length
    (List.pairwise_map.mpr (pairwise_startLine_chunkText language filePath text)) ?_ ?_ (by omega)
  · simp only [List.length_map] at hlength
    omega
  · intro n hn
    obtain ⟨c, hc, rfl⟩ := List.mem_map.mp hn
    exact (chunkText_bounds hc).1.1
  · intro n hn
    obtain ⟨c, hc, rfl⟩ := List.mem_map.mp hn
    exact (chunkText_bounds hc).1.2

end SourceChunks
