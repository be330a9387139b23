import SourceChunks.Proofs.Sha256.Compression
import SourceChunks.Proofs.Sha256.Streaming

/-!
# A digest is the hash that the standard defines

The blocks of a padded message go into the initial state one after the other, each as the standard
says, and the digest is the hash value that comes out.
-/

namespace SourceChunks.Sha256

/-- Blocks one after another have the length of whole blocks. -/
theorem dvd_length_flatMap_toList (blocks : List (Vector UInt8 64)) :
    blockSize ∣ (blocks.flatMap Vector.toList).length := by
  induction blocks with
  | nil => exact Nat.dvd_zero _
  | cons block rest ih =>
    rw [List.flatMap_cons, List.length_append, Vector.length_toList]
    exact Nat.dvd_add (Nat.dvd_refl _) ih

/-- Whole blocks can be cut apart. -/
theorem exists_flatMap_toList {n : ℕ} {data : Bytes} (hn : data.length = blockSize * n) :
    ∃ blocks : List (Vector UInt8 64), blocks.flatMap Vector.toList = data := by
  induction n generalizing data with
  | zero => exact ⟨[], (List.eq_nil_of_length_eq_zero hn).symm⟩
  | succ n ih =>
    rw [Nat.mul_succ] at hn
    have hdrop : (data.drop blockSize).length = blockSize * n := by
      rw [List.length_drop, hn, Nat.add_sub_cancel]
    obtain ⟨rest, hrest⟩ := ih hdrop
    have hblock : (data.take blockSize).toArray.size = 64 := by
      rw [List.size_toArray, List.length_take, hn]
      exact Nat.min_eq_left (Nat.le_add_left _ _)
    refine ⟨⟨_, hblock⟩ :: rest, ?_⟩
    rw [List.flatMap_cons, hrest, Vector.toList]
    exact List.take_append_drop _ _

/-- The chained state of whole blocks is the hash of the standard. -/
theorem wordsOf_chained (blocks : List (Vector UInt8 64)) :
    wordsOf (chained (blocks.flatMap Vector.toList)) = Standard.hash blocks := by
  induction blocks using List.reverseRecOn with
  | nil => exact funext toBitVec_initialState
  | append_singleton blocks block ih =>
    have hblock : block.toList.length = blockSize := Vector.length_toList
    rw [List.flatMap_append, List.flatMap_singleton,
      chained_append_block (dvd_length_flatMap_toList blocks) hblock, compress,
      wordsOf_zipWith_add, (Rounds.follows_foldl_step _ block).work_eq, ih, Standard.hash,
      Standard.hash, List.foldl_append]
    rfl

/-- The words of a state, listed, are its elements. -/
theorem ofFn_wordsOf (state : State) :
    List.ofFn (wordsOf state) = state.toList.map UInt32.toBitVec := by
  refine List.ext_getElem (by simp) fun i _ _ => ?_
  rw [List.getElem_ofFn, List.getElem_map, Vector.getElem_toList]
  rfl

/-- The digest of a message is the hash of the blocks that the padded message is cut into. -/
theorem Hasher.Took.exists_digest_eq {h : Hasher} {message : Bytes} (ht : h.Took message)
    (hlength : message.length < 2 ^ 61) :
    ∃ zeros blocks, IsLeast {z | blockSize ∣ (padded message z).length} zeros ∧
      blocks.flatMap Vector.toList = padded message zeros ∧
      h.digest = (List.ofFn (Standard.hash blocks)).flatMap fun word => Bytes.ofWord ⟨word⟩ := by
  obtain ⟨zeros, hleast, hstate⟩ := ht.exists_state_pad hlength
  obtain ⟨n, hn⟩ := hleast.1
  obtain ⟨blocks, hblocks⟩ := exists_flatMap_toList hn
  refine ⟨zeros, blocks, hleast, hblocks, ?_⟩
  have hwords : Standard.hash blocks = wordsOf h.pad.state := by
    rw [← wordsOf_chained, hblocks, hstate]
  rw [hwords, ofFn_wordsOf, List.flatMap_map]
  rfl

end SourceChunks.Sha256
