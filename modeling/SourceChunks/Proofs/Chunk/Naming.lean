import SourceChunks.Proofs.Bytes.Decimal
import SourceChunks.Proofs.Bytes.Marks
import SourceChunks.Proofs.Chunk.Cutting

/-!
# What names a chunk

Within one file the text that is hashed for the id of a chunk tells its lines and its content, as
the digits of a line number hold no colon. Chunks of one text therefore have distinct ids unless the
hash collides.
-/

namespace SourceChunks

namespace Chunk

/-- The text of an integer has no colon. -/
theorem colon_notMem_ofInt (i : Int) : 0x3A ∉ Bytes.ofInt i := fun h =>
  (Bytes.mem_ofInt h).elim (by decide) (by decide)

/-- Chunks of one file with one hashed text have the same lines and content. -/
theorem idText_injective {filePath content content' : Bytes}
    {startLine startLine' endLine endLine' : Int}
    (h : idText filePath startLine endLine content = idText filePath startLine' endLine' content') :
    startLine = startLine' ∧ endLine = endLine' ∧ content = content' := by
  have hcolon : bytes ":" = [0x3A] := rfl
  simp only [idText, hcolon, List.append_assoc, List.singleton_append] at h
  obtain ⟨-, h⟩ := List.append_inj h rfl
  obtain ⟨hstart, h⟩ := Bytes.eq_of_append_cons_eq (colon_notMem_ofInt startLine)
    (colon_notMem_ofInt startLine') (List.cons.inj h).2
  obtain ⟨hend, hcontent⟩ := Bytes.eq_of_append_cons_eq (colon_notMem_ofInt endLine)
    (colon_notMem_ofInt endLine') h
  exact ⟨Bytes.ofInt_injective hstart, Bytes.ofInt_injective hend, hcontent⟩

/-- What is hashed for the id of a chunk. -/
def hashedText (c : Chunk) : Bytes := idText c.filePath c.startLine c.endLine c.content

end Chunk

/-- The id of every chunk is the digest of its path, range and content. -/
theorem chunkText_id_eq_hexOf {language : Language} {filePath text : Bytes} {c : Chunk}
    (h : c ∈ chunkText language filePath text) : c.id = Sha256.hexOf c.hashedText :=
  chunkText_id h

/-- Chunks of one text begin on different lines, so their ids are hashes of different texts. -/
theorem nodup_ids_chunkText {language : Language} {filePath text : Bytes}
    (hhash : ∀ c ∈ chunkText language filePath text, ∀ c' ∈ chunkText language filePath text,
      Sha256.hexOf c.hashedText = Sha256.hexOf c'.hashedText → c.hashedText = c'.hashedText) :
    ((chunkText language filePath text).map Chunk.id).Nodup := by
  refine List.pairwise_map.mpr ((pairwise_startLine_chunkText language filePath text).imp_of_mem ?_)
  intro c c' hc hc' hlt hid
  rw [chunkText_id_eq_hexOf hc, chunkText_id_eq_hexOf hc'] at hid
  have htext := hhash c hc c' hc' hid
  rw [Chunk.hashedText, Chunk.hashedText, chunkText_filePath hc, chunkText_filePath hc'] at htext
  have hstart := (Chunk.idText_injective htext).1
  omega

end SourceChunks
