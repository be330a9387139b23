import Mathlib.Algebra.Group.Nat.Defs
import Mathlib.Order.Bounds.Basic
import SourceChunks.Sha256.Hasher

/-!
# A digest depends on the message alone

Whatever pieces a message is taken in, its digest is the one that the standard defines: the message
is padded to whole blocks, which are mixed into the initial state one after the other. Between two
pieces a hasher carries the message so far: the whole blocks of it in its state, and the rest in the
bytes of its block that are in use.
-/

namespace SourceChunks.Sha256

/-! ## Blocks of a run of bytes -/

/-- The whole blocks of a run of bytes. -/
def blocks (data : Bytes) : List Bytes :=
  (List.range (data.length / blockSize)).map fun i => (data.drop (blockSize * i)).take blockSize

/-- The state after the whole blocks of a run of bytes. -/
def chained (data : Bytes) : State := (blocks data).foldl compress initialState

/-- A text that begins with whole blocks is cut into these and the blocks of the rest. -/
theorem blocks_append {a : Bytes} (b : Bytes) (ha : blockSize ∣ a.length) :
    blocks (a ++ b) = blocks a ++ blocks b := by
  obtain ⟨n, hn⟩ := ha
  have hcount : (a ++ b).length / blockSize = n + b.length / blockSize := by
    rw [List.length_append, hn, Nat.mul_add_div (by decide)]
  have hfirst : a.length / blockSize = n := by rw [hn, Nat.mul_div_cancel_left _ (by decide)]
  rw [blocks, hcount, List.range_add, List.map_append, List.map_map, blocks, hfirst]
  congr 1
  · refine List.map_congr_left fun i hi => ?_
    have hi : i < n := List.mem_range.mp hi
    have hle : blockSize * i + blockSize ≤ a.length := by
      rw [hn, ← Nat.mul_succ]
      exact Nat.mul_le_mul_left _ hi
    rw [List.drop_append_of_le_length (by omega),
      List.take_append_of_le_length (by rw [List.length_drop]; omega)]
  · refine List.map_congr_left fun j _ => ?_
    rw [Function.comp_apply, Nat.mul_add, ← hn, List.drop_length_add_append]

/-- One block of bytes is cut into itself. -/
theorem blocks_of_length_eq {data : Bytes} (h : data.length = blockSize) :
    blocks data = [data] := by
  rw [blocks, h, Nat.div_self (by decide)]
  simp [← h]

/-- A block after whole blocks is mixed into the state after those. -/
theorem chained_append_block {whole block : Bytes} (hwhole : blockSize ∣ whole.length)
    (hblock : block.length = blockSize) :
    chained (whole ++ block) = compress (chained whole) block := by
  rw [chained, blocks_append _ hwhole, blocks_of_length_eq hblock, List.foldl_append]
  rfl

/-- Whole blocks that are mixed in straight from a run of bytes. -/
theorem absorbBlocks_chained {n : Nat} {whole data : Bytes} (hwhole : blockSize ∣ whole.length)
    (hn : blockSize * n ≤ data.length) :
    absorbBlocks n (chained whole) data =
      (chained (whole ++ data.take (blockSize * n)), data.drop (blockSize * n)) := by
  induction n generalizing whole data with
  | zero => simp [absorbBlocks]
  | succ n ih =>
    rw [Nat.mul_succ] at hn
    have hblock : (data.take blockSize).length = blockSize := by
      rw [List.length_take]
      omega
    have hwhole' : blockSize ∣ (whole ++ data.take blockSize).length := by
      rw [List.length_append, hblock]
      exact Nat.dvd_add hwhole (Nat.dvd_refl _)
    rw [absorbBlocks, ← chained_append_block hwhole hblock,
      ih hwhole' (by rw [List.length_drop]; omega), List.append_assoc, List.drop_drop,
      Nat.mul_succ, Nat.add_comm (blockSize * n), List.take_add]

/-! ## What a hasher carries -/

/-- The bytes before a place and those written from it on are in the block. -/
theorem take_writeOver (block : Vector UInt8 blockSize) {place : Nat} {data : Bytes}
    (h : place + data.length ≤ blockSize) :
    (writeOver block place data).toList.take (place + data.length) =
      block.toList.take place ++ data := by
  have hplace : min place blockSize = place := Nat.min_eq_left (by omega)
  refine List.ext_getElem (by simp [hplace, h]) fun i hi _ => ?_
  have hi : i < place + data.length := (List.length_take_le _ _).trans_lt' hi
  by_cases hle : place ≤ i
  · have hdata : i - place < data.length := by omega
    simp [writeOver, hplace, hle, hdata]
  · simp [writeOver, hplace, hle, Nat.not_le.mp hle]

/-- A hasher carries a message: whole blocks of it went into the state, and the bytes in use are
the rest. Nothing is said of the bytes that are not in use. -/
structure Hasher.Carries (h : Hasher) (message : Bytes) : Prop where
  used_le : h.used ≤ blockSize
  exists_whole : ∃ whole, blockSize ∣ whole.length ∧ h.state = chained whole ∧
    message = whole ++ h.block.toList.take h.used

namespace Hasher

variable {h : Hasher} {message data : Bytes}

/-- A new hasher carries the empty message. -/
theorem carries_start : start.Carries [] :=
  ⟨Nat.zero_le _, [], Nat.dvd_zero _, by simp [chained, blocks, start], by simp [start]⟩

/-- The count of the bytes does not matter to what is carried. -/
theorem Carries.withCount (hc : h.Carries message) (n : UInt64) :
    { h with bytesHashed := n }.Carries message := ⟨hc.used_le, hc.exists_whole⟩

/-- Bytes that fit into the block are carried with the others. -/
theorem Carries.fill (hc : h.Carries message) (hfits : h.used + data.length ≤ blockSize) :
    (h.fill data).Carries (message ++ data) := by
  obtain ⟨whole, hwhole, hstate, hmessage⟩ := hc.exists_whole
  rw [Hasher.fill]
  refine ⟨hfits, whole, hwhole, hstate, ?_⟩
  rw [take_writeOver _ hfits, hmessage, List.append_assoc]

/-- Going on from a full block carries the same message. -/
theorem Carries.flush (hc : h.Carries message) (hfull : h.used = blockSize) :
    h.flush.Carries message := by
  obtain ⟨whole, hwhole, hstate, hmessage⟩ := hc.exists_whole
  have hblock : h.block.toList.length = blockSize := Vector.length_toList
  rw [hfull, List.take_of_length_le hblock.le] at hmessage
  rw [Hasher.flush]
  refine ⟨Nat.zero_le _, message, ?_, ?_, (List.append_nil _).symm⟩
  · rw [hmessage, List.length_append, hblock]
    exact Nat.dvd_add hwhole (Nat.dvd_refl _)
  · rw [hmessage, chained_append_block hwhole hblock, ← hstate]

/-- With no byte in use, the state is all that is carried. -/
theorem Carries.of_used_eq_zero (hc : h.Carries message) (hused : h.used = 0) :
    blockSize ∣ message.length ∧ h.state = chained message := by
  obtain ⟨whole, hwhole, hstate, hmessage⟩ := hc.exists_whole
  rw [hused, List.take_zero, List.append_nil] at hmessage
  rw [hmessage]
  exact ⟨hwhole, hstate⟩

/-- Absorbing data from an empty block carries it all and leaves room in the block. -/
theorem Carries.absorb (hc : h.Carries message) (hused : h.used = 0) (data : Bytes) :
    (h.absorb data).Carries (message ++ data) ∧ (h.absorb data).used < blockSize := by
  obtain ⟨hwhole, hstate⟩ := hc.of_used_eq_zero hused
  have hle : blockSize * (data.length / blockSize) ≤ data.length := Nat.mul_div_le _ _
  have hrest : (data.drop (blockSize * (data.length / blockSize))).length < blockSize := by
    rw [List.length_drop, ← Nat.mod_eq_sub_mul_div]
    exact Nat.mod_lt _ (by decide)
  have hblocks := absorbBlocks_chained hwhole hle
  rw [← hstate] at hblocks
  simp only [Hasher.absorb, hblocks]
  refine ⟨⟨hrest.le, message ++ data.take (blockSize * (data.length / blockSize)),
    ?_, rfl, ?_⟩, hrest⟩
  · rw [List.length_append, List.length_take, Nat.min_eq_left hle]
    exact Nat.dvd_add hwhole (Nat.dvd_mul_right _ _)
  · have htake := take_writeOver h.block ((Nat.zero_add _).trans_le hrest.le)
    rw [Nat.zero_add, List.take_zero, List.nil_append] at htake
    rw [htake, List.append_assoc, List.take_append_drop]

/-- Filling up with zeros carries the zeros. -/
theorem Carries.zeroUpTo (hc : h.Carries message) {place : Nat} (hle : h.used ≤ place)
    (hplace : place ≤ blockSize) :
    (h.zeroUpTo place).Carries (message ++ List.replicate (place - h.used) 0) ∧
      (h.zeroUpTo place).used = place := by
  have hlast : h.used + (List.replicate (place - h.used) (0 : UInt8)).length = place := by
    rw [List.length_replicate]
    omega
  exact ⟨hc.fill (hlast.trans_le hplace), hlast⟩

/-! ## Padding -/

/-- A mark always fits. The zeros after it, up to the place of the length, do not fill a block. -/
theorem Carries.exists_mark (hc : h.Carries message) (hused : h.used < blockSize) :
    ∃ zeros, h.mark.Carries (message ++ [0x80] ++ List.replicate zeros 0) ∧
      h.mark.used ≤ lengthOffset ∧ zeros + (lengthOffset - h.mark.used) < blockSize := by
  have hmarked : (h.fill [0x80]).Carries (message ++ [0x80]) := hc.fill hused
  have hplace : (h.fill [0x80]).used = h.used + 1 := rfl
  rw [mark]
  split
  · next hlate =>
    obtain ⟨hzeros, hfull⟩ := hmarked.zeroUpTo hused (Nat.le_refl _)
    refine ⟨_, hzeros.flush hfull, Nat.zero_le _, ?_⟩
    have hnone : ((h.fill [0x80]).zeroUpTo blockSize).flush.used = 0 := rfl
    rw [hnone, hplace]
    simp only [hplace, lengthOffset, blockSize] at *
    omega
  · next hearly =>
    refine ⟨0, by rwa [List.replicate_zero, List.append_nil], Nat.le_of_not_lt hearly, ?_⟩
    rw [hplace]
    simp only [lengthOffset, blockSize] at *
    omega

/-- Padding carries the mark, fewer zeros than a block has bytes, and the length. -/
theorem Carries.exists_pad (hc : h.Carries message) (hused : h.used < blockSize) :
    ∃ zeros < blockSize,
      h.pad.Carries
        (message ++ [0x80] ++ List.replicate zeros 0 ++ lengthBytes (h.bytesHashed * 8)) := by
  obtain ⟨zeros, hmark, hle, hfew⟩ := hc.exists_mark hused
  obtain ⟨hzeros, hplace⟩ := hmark.zeroUpTo hle (Nat.sub_le _ _)
  have hfull : (h.mark.zeroUpTo lengthOffset).used + (lengthBytes (h.bytesHashed * 8)).length =
      blockSize := by
    rw [hplace]
    rfl
  refine ⟨_, hfew, ?_⟩
  rw [← List.replicate_append_replicate, ← List.append_assoc]
  exact (hzeros.fill hfull.le).flush hfull

end Hasher

/-- The bytes of a number, as many as are asked for, with the most significant one first. -/
def bigEndian : Nat → Nat → Bytes
  | 0, _ => []
  | width + 1, n => bigEndian width (n / 256) ++ [n.toUInt8]

/-- The bytes of the length are those of the number, the highest first. -/
theorem lengthBytes_eq_bigEndian (bits : UInt64) : lengthBytes bits = bigEndian 8 bits.toNat := by
  simp only [lengthBytes, Bytes.ofWord, bigEndian, List.nil_append, List.cons_append,
    List.cons.injEq,
    and_true]
  refine ⟨?_, ?_, ?_, ?_, ?_, ?_, ?_, ?_⟩ <;> apply UInt8.toNat.inj <;>
    simp [Nat.shiftRight_eq_div_pow] <;> omega

/-- A message with what the standard appends to it: a one bit, zero bits up to some place, and its
length in bits. -/
def padded (message : Bytes) (zeros : Nat) : Bytes :=
  message ++ [0x80] ++ List.replicate zeros 0 ++ bigEndian 8 (8 * message.length)

/-- A padded message has the mark, the zeros and eight more bytes. -/
theorem length_padded (message : Bytes) (zeros : Nat) :
    (padded message zeros).length = message.length + 1 + zeros + 8 := by
  simp only [padded, bigEndian, List.length_append, List.length_replicate, List.length_cons,
    List.length_nil]

/-! ## Runs of updates -/

/-- A hasher has taken a message. -/
structure Hasher.Took (h : Hasher) (message : Bytes) : Prop where
  carries : h.Carries message
  used_lt : h.used < blockSize
  bytesHashed_eq : h.bytesHashed = message.length.toUInt64

namespace Hasher

variable {h : Hasher} {message data : Bytes}

/-- A new hasher has taken the empty message. -/
theorem took_start : start.Took [] := ⟨carries_start, by decide, rfl⟩

/-- Absorbing does not count bytes. -/
theorem bytesHashed_absorb : (h.absorb data).bytesHashed = h.bytesHashed := by rw [absorb]

/-- The bytes of a piece may fill the block up, go into the state from where they are, and be kept,
each or none of the three. -/
theorem Took.update (ht : h.Took message) (data : Bytes) :
    (h.update data).Took (message ++ data) := by
  have hcount : h.bytesHashed + data.length.toUInt64 = (message ++ data).length.toUInt64 := by
    rw [ht.bytesHashed_eq, List.length_append]
    exact (UInt64.ofNat_add _ _).symm
  have hcarries := ht.carries.withCount (h.bytesHashed + data.length.toUInt64)
  have hlt := ht.used_lt
  rw [Hasher.update]
  split
  · next hempty =>
    rw [List.isEmpty_iff.mp hempty, List.append_nil]
    exact ht
  · dsimp only
    split
    · next hused =>
      obtain ⟨habsorb, hrest⟩ := hcarries.absorb hused data
      exact ⟨habsorb, hrest, bytesHashed_absorb.trans hcount⟩
    · have hfits : h.used + (data.take (blockSize - h.used)).length ≤ blockSize := by
        rw [List.length_take]
        omega
      have hfill := hcarries.fill hfits
      split
      · next hpart =>
        -- The piece ends in the block.
        have hpart : h.used + (data.take (blockSize - h.used)).length < blockSize := hpart
        have hall : data.take (blockSize - h.used) = data := by
          rw [List.length_take] at hpart
          exact List.take_of_length_le (by omega)
        rw [hall] at hfill hpart ⊢
        exact ⟨hfill, hpart, hcount⟩
      · next hfull =>
        have hfull := hfits.antisymm (Nat.le_of_not_lt hfull)
        obtain ⟨habsorb, hrest⟩ :=
          (hfill.flush hfull).absorb rfl (data.drop (blockSize - h.used))
        rw [List.append_assoc, List.take_append_drop] at habsorb
        exact ⟨habsorb, hrest, bytesHashed_absorb.trans hcount⟩

/-- A hasher has taken all pieces that it was updated with. -/
theorem Took.foldl_update (ht : h.Took message) (pieces : List Bytes) :
    (pieces.foldl Hasher.update h).Took (message ++ pieces.flatten) := by
  induction pieces generalizing h message with
  | nil => rwa [List.flatten_nil, List.append_nil]
  | cons piece pieces ih =>
    rw [List.flatten_cons, ← List.append_assoc]
    exact ih (ht.update piece)

/-- A file that is read piece by piece is taken as a whole. -/
theorem Took.readPieces {n : Nat} (ht : h.Took message) (hn : data.length ≤ readSize * n) :
    (h.readPieces n data).Took (message ++ data) := by
  induction n generalizing h message data with
  | zero =>
    rw [List.eq_nil_of_length_eq_zero (Nat.le_zero.mp hn), List.append_nil]
    exact ht
  | succ n ih =>
    have hrest : (data.drop readSize).length ≤ readSize * n := by
      rw [List.length_drop]
      rw [Nat.mul_succ] at hn
      omega
    have hread := ih (ht.update (data.take readSize)) hrest
    rwa [List.append_assoc, List.take_append_drop] at hread

/-- Padding is by the fewest zeros, and leaves the state after all blocks of the padded message. -/
theorem Took.exists_state_pad (ht : h.Took message) (hlength : message.length < 2 ^ 61) :
    ∃ zeros, IsLeast {z | blockSize ∣ (padded message z).length} zeros ∧
      h.pad.state = chained (padded message zeros) := by
  have hbits : lengthBytes (h.bytesHashed * 8) = bigEndian 8 (8 * message.length) := by
    have hnat : message.length.toUInt64.toNat = message.length :=
      UInt64.toNat_ofNat_of_lt' (by rw [UInt64.size]; omega)
    rw [lengthBytes_eq_bigEndian, ht.bytesHashed_eq, UInt64.toNat_mul, hnat]
    congr 1
    show message.length * 8 % 2 ^ 64 = 8 * message.length
    omega
  obtain ⟨zeros, hfew, hpad⟩ := ht.carries.exists_pad ht.used_lt
  rw [hbits] at hpad
  obtain ⟨hwhole, hstate⟩ := hpad.of_used_eq_zero rfl
  refine ⟨zeros, ⟨hwhole, fun z hz => ?_⟩, hstate⟩
  have hwhole : blockSize ∣ (padded message zeros).length := hwhole
  have hz : blockSize ∣ (padded message z).length := hz
  simp only [length_padded, blockSize] at *
  omega

/-- How the message came in, and what is left in the block of earlier ones, does not matter. -/
theorem Took.finish_eq {h' : Hasher} (ht : h.Took message) (ht' : h'.Took message)
    (hlength : message.length < 2 ^ 61) : h'.finish = h.finish := by
  obtain ⟨zeros, hleast, hstate⟩ := ht.exists_state_pad hlength
  obtain ⟨zeros', hleast', hstate'⟩ := ht'.exists_state_pad hlength
  rw [Hasher.finish, Hasher.finish, hstate, hstate', hleast.unique hleast']

/-! ## The digest of a message -/

/-- The digest of what a hasher has taken since it was made or gave a digest is the one that the
standard defines for the pieces together: the message is padded with the fewest zeros that end a
block, and its blocks are mixed into the initial state. The pieces do not matter otherwise, and
those that a file is read in give the digest of its content. Once it has given the digest, the
hasher is as it was when it was made. -/
theorem finish_foldl_update (hnew : h = start ∨ ∃ g : Hasher, h = g.finish.2) {pieces : List Bytes}
    (hlength : pieces.flatten.length < 2 ^ 61) :
    (pieces.foldl Hasher.update h).bytesHashed.toNat = pieces.flatten.length ∧
      (pieces.foldl Hasher.update h).used < blockSize ∧
      (∃ zeros, IsLeast {z | blockSize ∣ (padded pieces.flatten z).length} zeros ∧
        (pieces.foldl Hasher.update h).finish =
          (((blocks (padded pieces.flatten zeros)).foldl compress initialState).toList.flatMap
            Bytes.ofWord, start)) ∧
      (∀ pieces' : List Bytes, pieces'.flatten = pieces.flatten →
        (pieces'.foldl Hasher.update h).finish = (pieces.foldl Hasher.update h).finish) ∧
      hexOf pieces.flatten = (pieces.foldl Hasher.update h).hexDigest ∧
      fileHexOf pieces.flatten = (pieces.foldl Hasher.update h).hexDigest := by
  have hstart : h = start := hnew.elim id fun ⟨_, hg⟩ => hg
  have htook (pieces : List Bytes) : (pieces.foldl Hasher.update h).Took pieces.flatten := by
    rw [hstart]
    exact took_start.foldl_update pieces
  have ht := htook pieces
  refine ⟨?_, ht.used_lt, ?_, fun pieces' hsame => ?_, ?_, ?_⟩
  · rw [ht.bytesHashed_eq]
    exact UInt64.toNat_ofNat_of_lt' (by rw [UInt64.size]; omega)
  · obtain ⟨zeros, hleast, hstate⟩ := ht.exists_state_pad hlength
    exact ⟨zeros, hleast, by rw [finish, hstate, chained]⟩
  · exact ht.finish_eq (hsame ▸ htook pieces') hlength
  · have hwhole : (start.update pieces.flatten).Took pieces.flatten := took_start.update _
    rw [hexOf, hexDigest, digest, ht.finish_eq hwhole hlength, hexDigest, digest]
  · have hread : (start.readPieces (pieces.flatten.length / readSize + 1) pieces.flatten).Took
        pieces.flatten :=
      took_start.readPieces (Nat.lt_mul_div_succ _ (by decide)).le
    rw [fileHexOf, hexDigest, digest, ht.finish_eq hread hlength, hexDigest, digest]

/-- A message of 112 bytes. -/
def longMessage : Bytes :=
  bytes "abcdefghbcdefghicdefghijdefghijkefghijklfghijklmghijklmn" ++
    bytes "hijklmnoijklmnopjklmnopqklmnopqrlmnopqrsmnopqrstnopqrstu"

/-- A message longer than a block in three pieces, after another digest. The first piece does not
fill the block, the second one is empty, and the third one goes across the end of the block. -/
theorem finish_foldl_update_longMessage :
    let pieces := [longMessage.take 60, [], longMessage.drop 60]
    let h := pieces.foldl Hasher.update (start.update (bytes "x")).finish.2
    pieces.flatten.length < 2 ^ 61 ∧ h.bytesHashed.toNat = 112 ∧ h.used < blockSize ∧
      (∃ zeros, IsLeast {z | blockSize ∣ (padded longMessage z).length} zeros ∧
        h.finish = ((chained (padded longMessage zeros)).toList.flatMap Bytes.ofWord, start)) ∧
      fileHexOf longMessage = h.hexDigest := by
  intro pieces h
  have hflatten : pieces.flatten = longMessage := by decide
  have hsize : longMessage.length = 112 := by decide
  have hlength : pieces.flatten.length < 2 ^ 61 := by
    rw [hflatten, hsize]
    decide
  obtain ⟨hhashed, hused, hfinish, -, -, hfile⟩ :=
    finish_foldl_update (h := (start.update (bytes "x")).finish.2) (.inr ⟨_, rfl⟩) hlength
  rw [hflatten] at hhashed hfinish hfile
  exact ⟨hlength, hhashed.trans hsize, hused, hfinish, hfile⟩

example : hexOf longMessage =
    bytes "cf5b16a778af8380036ce59e7b0492370b249b11e8f07a51afac45037afee9d1" := by decide +kernel

end Hasher

end SourceChunks.Sha256
