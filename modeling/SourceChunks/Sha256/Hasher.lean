import SourceChunks.Sha256.Compression

/-!
# Hashing a message piece by piece

A hasher takes a message in pieces of any length. It keeps the bytes that do not fill a block yet
in a block of its own, and mixes whole blocks in as they fill up: its own block, or blocks straight
from a piece. What it keeps in its block after the bytes in use is left from earlier ones.
-/

namespace SourceChunks.Sha256

/-- A hash computation under way. -/
structure Hasher where
  /-- The state after the whole blocks taken so far. -/
  state : State
  /-- The block that fills up. -/
  block : Vector UInt8 blockSize
  /-- The number of bytes of the block that are in use; those after them mean nothing. -/
  used : Nat
  /-- The number of bytes taken. -/
  bytesHashed : UInt64
  deriving DecidableEq

/-- A hasher that has taken nothing. -/
def Hasher.start : Hasher := ⟨initialState, Vector.replicate blockSize 0, 0, 0⟩

/-- A block with bytes written over its own, from a place on. -/
def writeOver (block : Vector UInt8 blockSize) (place : Nat) (data : Bytes) :
    Vector UInt8 blockSize :=
  Vector.ofFn fun i => if place ≤ i then data.getD (i - place) block[i] else block[i]

/-- Add bytes to those in use. -/
def Hasher.fill (h : Hasher) (data : Bytes) : Hasher :=
  { h with block := writeOver h.block h.used data, used := h.used + data.length }

/-- Mix the block in. Its bytes stay where they are, but none is in use. -/
def Hasher.flush (h : Hasher) : Hasher :=
  { h with state := compress h.state h.block.toList, used := 0 }

/-- Mix in the first blocks of a run of bytes; the answer has the bytes after them. -/
def absorbBlocks : Nat → State → Bytes → State × Bytes
  | 0, state, data => (state, data)
  | n + 1, state, data =>
    absorbBlocks n (compress state (data.take blockSize)) (data.drop blockSize)

/-- Mix in every whole block of a run of bytes and keep the rest of them, when no byte of the block
is in use. -/
def Hasher.absorb (h : Hasher) (data : Bytes) : Hasher :=
  let (state, rest) := absorbBlocks (data.length / blockSize) h.state data
  { h with state, block := writeOver h.block 0 rest, used := rest.length }

/-- Take the next piece of the message. -/
def Hasher.update (h : Hasher) (data : Bytes) : Hasher :=
  if data.isEmpty then h
  else
    let h := { h with bytesHashed := h.bytesHashed + data.length.toUInt64 }
    if h.used = 0 then h.absorb data
    else
      let filled := h.fill (data.take (blockSize - h.used))
      if filled.used < blockSize then filled
      else filled.flush.absorb (data.drop (blockSize - h.used))

/-- The eight bytes of a number, the most significant one first. -/
def lengthBytes (n : UInt64) : Bytes :=
  Bytes.ofWord (n >>> 32).toUInt32 ++ Bytes.ofWord n.toUInt32

/-- Where the length of the message stands in the last block. -/
def lengthOffset : Nat := blockSize - 8

/-- Add zeros up to a place. -/
def Hasher.zeroUpTo (h : Hasher) (place : Nat) : Hasher :=
  h.fill (List.replicate (place - h.used) 0)

/-- Mark the end of the message, and end the block if its length does not fit into it any more. -/
def Hasher.mark (h : Hasher) : Hasher :=
  let marked := h.fill [0x80]
  if lengthOffset < marked.used then (marked.zeroUpTo blockSize).flush else marked

/-- Pad the message and mix the last block in. -/
def Hasher.pad (h : Hasher) : Hasher :=
  ((h.mark.zeroUpTo lengthOffset).fill (lengthBytes (h.bytesHashed * 8))).flush

/-- The 32 bytes of the digest of what the hasher has taken, and the hasher once it is started
again. -/
def Hasher.finish (h : Hasher) : Bytes × Hasher :=
  (h.pad.state.toList.flatMap Bytes.ofWord, .start)

/-- The 32 bytes of the digest. -/
def Hasher.digest (h : Hasher) : Bytes := h.finish.1

/-- The digest as 64 hexadecimal digits. -/
def Hasher.hexDigest (h : Hasher) : Bytes := h.digest.hex

/-- The digest of a whole message, in hexadecimal digits. -/
def hexOf (data : Bytes) : Bytes := (Hasher.start.update data).hexDigest

/-- The number of bytes that are read from a file at a time. -/
def readSize : Nat := 8192

/-- Take the first pieces of a file that is read. -/
def Hasher.readPieces : Nat → Hasher → Bytes → Hasher
  | 0, h, _ => h
  | n + 1, h, content => readPieces n (h.update (content.take readSize)) (content.drop readSize)

/-- The digest of a file with the given content, in hexadecimal digits. It is read until a piece is
short; that piece may be empty. -/
def fileHexOf (content : Bytes) : Bytes :=
  (Hasher.start.readPieces (content.length / readSize + 1) content).hexDigest

end SourceChunks.Sha256
