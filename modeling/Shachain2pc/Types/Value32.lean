import Mathlib.Tactic.Common
import Mathlib.Data.List.Basic
import Mathlib.Data.List.GetD
import Mathlib.Algebra.Group.Nat.Defs

/-!
# Values and indices of a shachain

The 32-byte values, their most-significant-bit-first wire encoding, and the 48-bit
indices shared by the circuit, party, and daemon crates. Bytes stay `UInt8` and bit
vectors stay byte vectors, as in the source.
-/

namespace Shachain2pc

/-- `VALUE_BITS`: the number of wires carrying one value. -/
def valueBits : ℕ := 256

/-- `INDEX_BITS`. -/
def indexBits : ℕ := 48

/-- `MAX_INDEX`, the largest 48-bit index. -/
def maxIndex : ℕ := 2 ^ 48 - 1

/-- The two parties. -/
inductive Role where
  | alice
  | bob
  deriving DecidableEq, Repr

/-- `Role::party_id`. -/
def Role.partyId : Role → UInt8
  | .alice => 1
  | .bob => 2

/-- The peer's role. -/
def Role.other : Role → Role
  | .alice => .bob
  | .bob => .alice

/-- The error type of the types crate, restricted to the variants raised by the modelled code. -/
inductive ParseError where
  | indexTooLarge (value : ℕ)
  | badBitLength (len : ℕ)
  deriving DecidableEq, Repr

/-- The text of an error. -/
def ParseError.message : ParseError → String
  | .indexTooLarge value => s!"index exceeds 48 bits: {value}"
  | .badBitLength len => s!"expected 256 bits, got {len}"

/-- A checked 48-bit index; its bound is part of the value. -/
structure Index48 where
  get : ℕ
  le_max : get ≤ maxIndex
  deriving DecidableEq

/-- `Index48::new`. -/
def Index48.new (value : ℕ) : Except ParseError Index48 :=
  if h : value ≤ maxIndex then .ok ⟨value, h⟩ else .error (.indexTooLarge value)

/-- A checked index keeps its value. -/
theorem Index48.new_get {value : ℕ} {index : Index48} (h : Index48.new value = .ok index) :
    index.get = value := by
  unfold Index48.new at h
  split at h
  · cases h
    rfl
  · cases h

/-- A 32-byte shachain value. -/
structure Value32 where
  bytes : Vector UInt8 32
  deriving DecidableEq, Repr

/-- `Value32::xor`, byte by byte. -/
def Value32.xor (a b : Value32) : Value32 := ⟨Vector.zipWith (· ^^^ ·) a.bytes b.bytes⟩

/-- Bit `k` of a byte, counted from the most significant end. -/
def byteBit (b : UInt8) (k : ℕ) : UInt8 := (b >>> UInt8.ofNat (7 - k)) &&& 1

/-- The bits of a byte vector, most significant bit of each byte first. -/
def bitsMsb {n : ℕ} (bytes : Vector UInt8 n) : List UInt8 :=
  List.ofFn fun i : Fin (8 * n) =>
    have hbyte : i.val / 8 < n := Nat.div_lt_of_lt_mul i.isLt
    byteBit bytes[i.val / 8] (i.val % 8)

/-- `Value32::to_bits_msb`. -/
def Value32.toBitsMsb (v : Value32) : List UInt8 := bitsMsb v.bytes

/-- One byte reassembled from eight consecutive entries of a bit vector. -/
def byteFromBits (bits : List UInt8) (j : ℕ) : UInt8 :=
  (List.range 8).foldl
    (fun acc k => acc ||| ((bits.getD (8 * j + k) 0 &&& 1) <<< UInt8.ofNat (7 - k))) 0

/-- `Value32::from_bits_msb`. -/
def Value32.fromBitsMsb (bits : List UInt8) : Except ParseError Value32 :=
  if bits.length = valueBits then .ok ⟨Vector.ofFn fun j : Fin 32 => byteFromBits bits j.val⟩
  else .error (.badBitLength bits.length)

/-- `flip_bit_index`: the wire that carries bit `bit` of the little-endian value bit numbering. -/
def flipBitIndex (bit : ℕ) : ℕ := 8 * (bit / 8) + (7 - bit % 8)

/-- The in-place update `p[bit / 8] ^= 1 << (bit % 8)` of the derivation loops. -/
def Value32.flipBit (v : Value32) (bit : ℕ) : Value32 :=
  ⟨Vector.ofFn fun j : Fin 32 =>
    if j.val = bit / 8 then v.bytes[j] ^^^ (1 <<< UInt8.ofNat (bit % 8)) else v.bytes[j]⟩

/-- A byte vector contributes eight bits for each byte. -/
@[simp] theorem bitsMsb_length {n : ℕ} (bytes : Vector UInt8 n) :
    (bitsMsb bytes).length = 8 * n := by
  simp [bitsMsb]

/-- Every value occupies exactly `VALUE_BITS` wires. -/
@[simp] theorem Value32.toBitsMsb_length (v : Value32) : v.toBitsMsb.length = 256 := by
  simp [Value32.toBitsMsb]

/-- Every wire belongs to a byte. -/
theorem byte_lt {n i : ℕ} {bytes : Vector UInt8 n} (hi : i < (bitsMsb bytes).length) : i / 8 < n :=
  Nat.div_lt_of_lt_mul (bitsMsb_length bytes ▸ hi)

/-- Wire `i` carries bit `i % 8`, from the top, of byte `i / 8`. -/
theorem getElem_bitsMsb {n : ℕ} (bytes : Vector UInt8 n) (i : ℕ) (hi : i < (bitsMsb bytes).length)
    (hbyte : i / 8 < n) : (bitsMsb bytes)[i] = byteBit bytes[i / 8] (i % 8) := by
  simp [bitsMsb]

/-- A byte bit is zero or one, so masking it again changes nothing. -/
theorem byteBit_and_one (b : UInt8) (k : ℕ) : byteBit b k &&& 1 = byteBit b k := by
  simp [byteBit, UInt8.and_assoc]

/-- Encoded values are already masked to single bits. -/
theorem and_one_of_mem_bitsMsb {n : ℕ} {bytes : Vector UInt8 n} {b : UInt8}
    (hb : b ∈ bitsMsb bytes) : b &&& 1 = b := by
  obtain ⟨i, hi, rfl⟩ := List.getElem_of_mem hb
  rw [getElem_bitsMsb _ _ _ (byte_lt hi), byteBit_and_one]

/-- Encoded values are single bits. -/
theorem eq_zero_or_one_of_mem_bitsMsb {n : ℕ} {bytes : Vector UInt8 n} {b : UInt8}
    (hb : b ∈ bitsMsb bytes) : b = 0 ∨ b = 1 := by
  have hmask : b.toNat % 2 = b.toNat := by
    have := congrArg UInt8.toNat (and_one_of_mem_bitsMsb hb)
    rwa [UInt8.toNat_and, UInt8.toNat_one, Nat.and_one_is_mod] at this
  have hlt : b.toNat < 2 := hmask ▸ Nat.mod_lt _ (by decide)
  rw [← UInt8.toNat_inj, ← UInt8.toNat_inj, UInt8.toNat_zero, UInt8.toNat_one]
  omega

/-- Concatenating byte vectors concatenates their wires. -/
theorem bitsMsb_append {m n : ℕ} (left : Vector UInt8 m) (right : Vector UInt8 n) :
    bitsMsb (left ++ right) = bitsMsb left ++ bitsMsb right := by
  apply List.ext_getElem
  · simp [Nat.mul_add]
  · intro i hi _
    have hlt : i < 8 * (m + n) := by simpa using hi
    rw [getElem_bitsMsb _ _ _ (byte_lt hi)]
    by_cases hleft : i < 8 * m
    · rw [List.getElem_append_left (by simpa using hleft), getElem_bitsMsb _ _ _ (by omega),
        Vector.getElem_append_left (by omega)]
    · have hsub : (i - 8 * m) / 8 = i / 8 - m := by omega
      have hmod : (i - 8 * m) % 8 = i % 8 := by omega
      rw [List.getElem_append_right (by simpa using hleft),
        getElem_bitsMsb _ _ _ (by simp; omega), Vector.getElem_append_right (by omega) (by omega)]
      simp [hsub, hmod]

/-- Masking to one bit distributes over XOR. -/
theorem xor_and_one (a b : UInt8) : (a ^^^ b) &&& 1 = (a &&& 1) ^^^ (b &&& 1) := by
  apply UInt8.toBitVec_inj.mp
  ext i hi
  simp [Bool.and_xor_distrib_right]

/-- XOR acts on each bit separately. -/
theorem byteBit_xor (a b : UInt8) (k : ℕ) : byteBit (a ^^^ b) k = byteBit a k ^^^ byteBit b k := by
  simp only [byteBit, UInt8.shiftRight_xor, xor_and_one]

/-- XORing two values XORs their wires. -/
theorem toBitsMsb_xor (a b : Value32) :
    (a.xor b).toBitsMsb = List.zipWith (· ^^^ ·) a.toBitsMsb b.toBitsMsb := by
  apply List.ext_getElem
  · simp
  · intro i hi _
    have hbyte : i / 8 < 32 := byte_lt hi
    simp [Value32.toBitsMsb, Value32.xor, getElem_bitsMsb, hbyte, byteBit_xor]

/-- A single-bit mask contributes exactly at its own position. -/
theorem byteBit_mask : ∀ bit < 8, ∀ k < 8,
    byteBit (1 <<< UInt8.ofNat bit) k = if k = 7 - bit then 1 else 0 := by
  decide

/-- Flipping one value bit inverts exactly the wire `flip_bit_index` names. -/
theorem toBitsMsb_flipBit (v : Value32) (bit : ℕ) :
    (v.flipBit bit).toBitsMsb = v.toBitsMsb.modify (flipBitIndex bit) (· ^^^ 1) := by
  apply List.ext_getElem
  · simp
  · intro i hi _
    have hlt : i / 8 < 32 := byte_lt hi
    rw [List.getElem_modify]
    simp only [Value32.toBitsMsb, Value32.flipBit, getElem_bitsMsb, hlt, Vector.getElem_ofFn]
    have hmod : bit % 8 < 8 := Nat.mod_lt _ (by decide)
    by_cases hbyte : i / 8 = bit / 8
    · rw [if_pos hbyte, byteBit_xor, byteBit_mask _ hmod _ (Nat.mod_lt _ (by decide))]
      by_cases hpos : i % 8 = 7 - bit % 8
      · rw [if_pos hpos, if_pos (by unfold flipBitIndex; omega)]
        rfl
      · rw [if_neg hpos, if_neg (by unfold flipBitIndex; omega)]
        simp
    · rw [if_neg hbyte, if_neg (by unfold flipBitIndex; omega)]
      rfl

/-- Eight encoded bits reassemble their byte. -/
theorem byteBits_recombine : ∀ b : Fin 256,
    (List.range 8).foldl (fun acc k => acc |||
      ((byteBit (UInt8.ofNat b) k &&& 1) <<< UInt8.ofNat (7 - k))) 0 = UInt8.ofNat b := by
  decide +kernel

/-- Decoding the wires of a value returns that value. -/
theorem fromBitsMsb_toBitsMsb (v : Value32) : Value32.fromBitsMsb v.toBitsMsb = .ok v := by
  have hbyte (j : Fin 32) : byteFromBits v.toBitsMsb j.val = v.bytes[j] := by
    have hrec := byteBits_recombine ⟨v.bytes[j].toNat, v.bytes[j].toNat_lt⟩
    rw [UInt8.ofNat_toNat] at hrec
    refine Eq.trans ?_ hrec
    refine List.foldl_ext _ _ _ fun acc k hk => ?_
    have hk := List.mem_range.mp hk
    have hj := j.isLt
    have hdiv : (8 * j.val + k) / 8 = j.val := by omega
    have hmod : (8 * j.val + k) % 8 = k := by omega
    rw [List.getD_eq_getElem _ _ (by rw [Value32.toBitsMsb_length]; omega)]
    simp [Value32.toBitsMsb, getElem_bitsMsb, hdiv, hmod, hj]
  have hbytes : Vector.ofFn (fun j : Fin 32 => byteFromBits v.toBitsMsb j.val) = v.bytes := by
    apply Vector.ext
    intro j hj
    simpa using hbyte ⟨j, hj⟩
  rw [Value32.fromBitsMsb, if_pos (by simp [valueBits]), hbytes]

end Shachain2pc
