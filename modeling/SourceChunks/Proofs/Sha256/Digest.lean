import SourceChunks.Proofs.Bytes.Decimal
import SourceChunks.Sha256.Hasher

/-!
# The form of a digest

A digest is written with sixty-four hexadecimal digits, whatever the message is.
-/

namespace SourceChunks.Sha256

/-- A digest has 32 bytes. -/
theorem length_digest (h : Hasher) : h.digest.length = 32 := by
  obtain ⟨words, hwords⟩ : ∃ words : List UInt32, words.length = 8 ∧
      h.digest = words.flatMap Bytes.ofWord :=
    ⟨_, Vector.length_toList, rfl⟩
  obtain ⟨hlength, heq⟩ := hwords
  have hfour (words : List UInt32) : (words.flatMap Bytes.ofWord).length = 4 * words.length := by
    induction words with
    | nil => rfl
    | cons w rest ih =>
      rw [List.flatMap_cons, List.length_append, ih, List.length_cons]
      show 4 + 4 * rest.length = 4 * (rest.length + 1)
      omega
  rw [heq, hfour, hlength]

/-- All digests have one length. -/
theorem length_hexOf (data : Bytes) : (hexOf data).length = 64 := by
  rw [hexOf, Hasher.hexDigest, Bytes.length_hex, length_digest]

/-- A digest in hexadecimal is ASCII. -/
theorem ascii_hexOf (data : Bytes) : Bytes.Ascii (hexOf data) := Bytes.ascii_hex _

/-- A byte that is no hexadecimal digit is not in a digest. -/
theorem notMem_hexOf {b : UInt8} (hb : Bytes.hexValue? b = none) (data : Bytes) :
    b ∉ hexOf data := by
  intro hmem
  have hdigit := Bytes.isSome_hexValue?_of_mem_hex hmem
  rw [hb] at hdigit
  exact absurd hdigit (by decide)

end SourceChunks.Sha256
