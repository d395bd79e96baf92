import Shachain2pc.Types.Value32
import Mathlib.Data.Nat.Bitwise

/-!
# The shachain derivation

A value is derived from the seed by visiting the index bits from high to low; each set
bit flips one bit of the value and hashes it. The 32-byte hash is a parameter: every
result about derivation holds for an arbitrary function.
-/

namespace Shachain2pc

/-- The bit positions `(0..INDEX_BITS).rev()` of the derivation loops. -/
def bitsDesc : List ℕ := (List.range indexBits).reverse

/-- `set_bits_desc`: the set bits of a 48-bit mask, highest first. -/
def setBitsDesc (value : ℕ) : List ℕ := bitsDesc.filter (value.testBit ·)

/-- One derivation edge: flip a bit of the value and hash it. -/
def hashBit (sha256 : Value32 → Value32) (p : Value32) (bit : ℕ) : Value32 :=
  sha256 (p.flipBit bit)

/-- The derivation edges of a list of bits, in order. -/
def hashBits (sha256 : Value32 → Value32) (p : Value32) (bits : List ℕ) : Value32 :=
  bits.foldl (hashBit sha256) p

/-- `generate_from_seed`. -/
def generateFromSeed (sha256 : Value32 → Value32) (seed : Value32) (index : ℕ) : Value32 :=
  bitsDesc.foldl (fun p b => if index.testBit b then hashBit sha256 p b else p) seed

/-- Skipping the clear bits is hashing along the set bits. -/
theorem generateFromSeed_eq (sha256 : Value32 → Value32) (seed : Value32) (index : ℕ) :
    generateFromSeed sha256 seed index = hashBits sha256 seed (setBitsDesc index) := by
  rw [hashBits, setBitsDesc, List.foldl_filter]
  rfl

/-- Every listed bit is a set bit of the mask, below `INDEX_BITS`. -/
theorem mem_setBitsDesc {value bit : ℕ} :
    bit ∈ setBitsDesc value ↔ bit < indexBits ∧ value.testBit bit = true := by
  simp [setBitsDesc, bitsDesc]

/-- Edges of a concatenated list are followed in sequence. -/
theorem hashBits_append (sha256 : Value32 → Value32) (p : Value32) (first second : List ℕ) :
    hashBits sha256 p (first ++ second) = hashBits sha256 (hashBits sha256 p first) second :=
  List.foldl_append

end Shachain2pc
