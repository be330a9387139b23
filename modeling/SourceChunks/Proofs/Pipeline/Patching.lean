import SourceChunks.Proofs.Pipeline.Coherence

/-!
# Patching the index

When the text of a file changes, its records may be patched with the diff from the old chunks to the
new text or be rebuilt. Both ways lead to the same records, of this file and of the others, whatever
else the index has and in whichever mix of additions, deletions and moves the text changed.
-/

namespace SourceChunks.SearchIndex

/-- From an index that has of a file the records of one text, following the diff to another text
leaves the records that rebuilding the file leaves. -/
theorem records_applyDiff_compute {α : Type} [Scalar α] {x : SearchIndex} {l : Language}
    {f t t' : Bytes} (h : x.ListsFile f (chunkText l f t))
    (hids : Session.IdsDistinguish (chunksOf (fun _ => l) {(f, t), (f, t')})) (threshold : α)
    (now : Int) :
    (x.applyDiff now (ChunkDiff.compute threshold (chunkText l f t) t' l f)).records =
      (x.rebuildFile f (chunkText l f t')).1.records := by
  have hold : ∀ c ∈ chunkText l f t, c ∈ chunksOf (fun _ => l) {(f, t), (f, t')} :=
    fun c hc => ⟨(f, t), Or.inl rfl, hc⟩
  have hnew : ∀ c ∈ chunkText l f t', c ∈ chunksOf (fun _ => l) {(f, t), (f, t')} :=
    fun c hc => ⟨(f, t'), Or.inr rfl, hc⟩
  have hpartitions := ChunkDiff.partitions_compute_chunkText threshold l f t t'
  exact h.records_applyDiff_eq hids.idsTell hold hnew hpartitions now

/-! ## An edit of all kinds

One construct is deleted, one moves and one is added, in an index that has another file, too. -/

/-- The text before the edit. -/
def textBefore : Bytes := bytes "def f\n\ndef g(x, y)\n"

/-- The text after the edit. -/
def textAfter : Bytes := bytes "def g(x, y)\n\nclass h\n"

/-- The index before the edit. -/
def indexBefore : SearchIndex :=
  ((empty.rebuildFile (bytes "b") (chunkText .c (bytes "b") (bytes "x"))).1.rebuildFile
    (bytes "a") (chunkText .python (bytes "a") textBefore)).1

/-- The four chunks of the two texts have different ids, also the one that moves. -/
theorem idsDistinguish_edit : Session.IdsDistinguish (chunksOf (fun _ => .python)
    {(bytes "a", textBefore), (bytes "a", textAfter)}) := by
  have hnodup : ((chunkText .python (bytes "a") textBefore ++
      chunkText .python (bytes "a") textAfter).map fun c => Sha256.hexOf c.hashedText).Nodup := by
    decide +kernel
  have hmem : ∀ c ∈ chunksOf (fun _ => .python) {(bytes "a", textBefore), (bytes "a", textAfter)},
      c ∈ chunkText .python (bytes "a") textBefore ++ chunkText .python (bytes "a") textAfter := by
    rintro c ⟨x, rfl | rfl, hc⟩
    · exact List.mem_append_left _ hc
    · exact List.mem_append_right _ hc
  have hfile : ∀ x ∈ ({(bytes "a", textBefore), (bytes "a", textAfter)} : Set (Bytes × Bytes)),
      x.1 = bytes "a" := by
    rintro x (rfl | rfl) <;> rfl
  apply Session.idsDistinguish_of_injOn hfile
  rintro _ ⟨c, hc, rfl⟩ _ ⟨c', hc', rfl⟩ heq
  have hsame : c = c' := List.inj_on_of_nodup_map hnodup (hmem c hc) (hmem c' hc') heq
  rw [hsame]

/-- The diff of such an edit is followed. -/
theorem records_applyDiff_compute_edit :
    indexBefore.ListsFile (bytes "a") (chunkText .python (bytes "a") textBefore) ∧
    Session.IdsDistinguish (chunksOf (fun _ => .python)
      {(bytes "a", textBefore), (bytes "a", textAfter)}) ∧
    (indexBefore.applyDiff 0 (ChunkDiff.compute (0.85 : Float)
      (chunkText .python (bytes "a") textBefore) textAfter .python (bytes "a"))).records =
    (indexBefore.rebuildFile (bytes "a") (chunkText .python (bytes "a") textAfter)).1.records := by
  have hchunks : ∀ c ∈ chunkText .python (bytes "a") textBefore,
      c ∈ chunksOf (fun _ => .python) {(bytes "a", textBefore), (bytes "a", textAfter)} ∧
        c.filePath = bytes "a" :=
    fun c hc => ⟨⟨(bytes "a", textBefore), Or.inl rfl, hc⟩, chunkText_filePath hc⟩
  have hlists : indexBefore.ListsFile (bytes "a") (chunkText .python (bytes "a") textBefore) :=
    listsFile_rebuildFile idsDistinguish_edit.idsTell hchunks
  exact ⟨hlists, idsDistinguish_edit,
    records_applyDiff_compute hlists idsDistinguish_edit (0.85 : Float) 0⟩

end SourceChunks.SearchIndex
