import Shachain2pc.Party.Reveal
import Shachain2pc.Types.Bytes
import Shachain2pc.Lib.AuthenticatedBits
import Mathlib.Algebra.Module.Pi
import Mathlib.LinearAlgebra.Pi

/-!
# Blocks as vectors of bits

A block is a vector of 128 bits, least significant bit of each byte first. Under this view
`Block::xor` is addition, masking with `select_block` is multiplication by a bit, and the
two low bits of a block are linear functionals.
-/

namespace Shachain2pc

open AuthenticatedBits

/-- `Block::make`, from the high and the low half. -/
def Block.make (high low : UInt64) : Block :=
  Vector.ofFn fun i : Fin 16 =>
    ((if i.val < 8 then low >>> UInt64.ofNat (8 * i.val)
      else high >>> UInt64.ofNat (8 * (i.val - 8))).toUInt8)

/-- `Block::zero`. -/
def Block.zero : Block := Vector.replicate 16 0

/-- Reading an entry which was written. -/
theorem getD_set {r : List Block} {i : ℕ} (hi : i < r.length) (j : ℕ) (b : Block) :
    (r.set i b).getD j Block.zero = if j = i then b else r.getD j Block.zero := by
  by_cases h : j = i
  · subst h
    rw [if_pos rfl, List.getD_eq_getElem _ _ (by rwa [List.length_set]), List.getElem_set_self]
  · rw [if_neg h, List.getD_eq_getElem?_getD, List.getElem?_set_ne (Ne.symm h),
      ← List.getD_eq_getElem?_getD]

/-- Lists of one length with the same entries. -/
theorem eq_of_getD_eq {a b : List Block} (hlength : a.length = b.length)
    (h : ∀ j < b.length, a.getD j Block.zero = b.getD j Block.zero) : a = b := by
  refine List.ext_getElem hlength fun j hj hj' => ?_
  rw [← List.getD_eq_getElem _ Block.zero hj, ← List.getD_eq_getElem _ Block.zero hj']
  exact h j hj'

/-- `Block::sigma`: the high half moves down, and the sum of the halves takes its place. -/
def Block.sigma (b : Block) : Block :=
  Vector.ofFn fun i : Fin 16 =>
    if h : i.val < 8 then b[i.val + 8] else b[i.val - 8] ^^^ b[i.val]

/-- `block_lsb1`. -/
def blockLsb1 (b : Block) : UInt8 := (b.get 0 >>> 1) &&& 1

/-- `bit0_mask`. -/
def bit0Mask : Block := Block.make 0 1

/-- One bit of a byte, in the two-element field. -/
def bitAt (b : UInt8) (i : ℕ) : ZMod 2 := if b.toNat.testBit i then 1 else 0

/-- The bits of a block. -/
def blockVec (b : Block) : Fin 128 → ZMod 2 := fun i =>
  have hbyte : i.val / 8 < 16 := Nat.div_lt_of_lt_mul i.isLt
  bitAt b[i.val / 8] (i.val % 8)

/-- The bit of an authenticated share is the lowest bit of its MAC. -/
def lsb : (Fin 128 → ZMod 2) →ₗ[ZMod 2] ZMod 2 := LinearMap.proj 0

/-- The second lowest bit. -/
def lsb1 : (Fin 128 → ZMod 2) →ₗ[ZMod 2] ZMod 2 := LinearMap.proj 1

/-- The bits of a sum of bytes. -/
@[simp] theorem bitAt_xor (a b : UInt8) (i : ℕ) : bitAt (a ^^^ b) i = bitAt a i + bitAt b i := by
  rw [bitAt, UInt8.toNat_xor, Nat.testBit_xor, bitAt, bitAt]
  cases a.toNat.testBit i <;> cases b.toNat.testBit i <;> decide

/-- The bits of a product of bytes. -/
@[simp] theorem bitAt_and (a b : UInt8) (i : ℕ) : bitAt (a &&& b) i = bitAt a i * bitAt b i := by
  rw [bitAt, UInt8.toNat_and, Nat.testBit_and, bitAt, bitAt]
  cases a.toNat.testBit i <;> cases b.toNat.testBit i <;> decide

@[simp] theorem bitAt_zero (i : ℕ) : bitAt 0 i = 0 := by
  simp [bitAt]

@[simp] theorem bitAt_one_zero : bitAt 1 0 = 1 := by
  decide

/-- The bits of a sum of blocks. -/
@[simp] theorem blockVec_xor (a b : Block) : blockVec (blockXor a b) = blockVec a + blockVec b := by
  funext i
  simp [blockVec, blockXor]

/-- The zero block. -/
theorem blockVec_zero : blockVec Block.zero = 0 := by
  funext i
  simp [blockVec, Block.zero]

/-- A selected block is a multiple of the block. -/
@[simp] theorem blockVec_and_selectBlock (bit : UInt8) (b : Block) :
    blockVec (blockAnd (selectBlock bit) b) = bitAt bit 0 • blockVec b := by
  funext i
  have hones : bitAt 255 (i.val % 8) = 1 := by
    have hlt : i.val % 8 < 8 := Nat.mod_lt _ (by decide)
    generalize i.val % 8 = k at hlt
    decide +revert
  have hbit : bitAt (bit &&& 1) 0 = bitAt bit 0 := by simp
  rw [Pi.smul_apply, smul_eq_mul]
  unfold selectBlock
  split
  · next h =>
    rw [h, bitAt_zero] at hbit
    simp [blockVec, blockAnd, ← hbit]
  · next h =>
    have hone : bit &&& 1 = 1 := by
      rw [← UInt8.toNat_inj] at h ⊢
      rw [UInt8.toNat_and] at h ⊢
      have := Nat.and_one_is_mod bit.toNat
      simp only [UInt8.toNat_one, UInt8.toNat_zero] at h ⊢
      omega
    rw [hone, bitAt_one_zero] at hbit
    simp [blockVec, blockAnd, ← hbit, hones]

/-- A byte is determined by its bits. -/
theorem bitAt_injective {a b : UInt8} (h : ∀ i < 8, bitAt a i = bitAt b i) : a = b := by
  apply UInt8.toNat_inj.mp
  apply Nat.eq_of_testBit_eq
  intro i
  by_cases hi : i < 8
  · have hbit := h i hi
    unfold bitAt at hbit
    cases ha : a.toNat.testBit i <;> cases hb : b.toNat.testBit i <;> simp [ha, hb] at hbit ⊢
  · have hlarge (c : UInt8) : c.toNat.testBit i = false :=
      Nat.testBit_lt_two_pow (c.toNat_lt.trans_le (Nat.pow_le_pow_right (by decide) (by omega)))
    rw [hlarge, hlarge]

/-- A block is determined by its bits. -/
theorem blockVec_injective : Function.Injective blockVec := by
  intro a b h
  apply Vector.ext
  intro i hi
  apply bitAt_injective
  intro k hk
  have hbit := congrFun h ⟨8 * i + k, by omega⟩
  have hdiv : (8 * i + k) / 8 = i := by omega
  have hmod : (8 * i + k) % 8 = k := by omega
  simpa only [blockVec, hdiv, hmod] using hbit

/-- The share bit of a MAC. -/
@[simp] theorem bitAt_blockLsb (b : Block) : bitAt (blockLsb b) 0 = lsb (blockVec b) := by
  change bitAt (b[0] &&& 1) 0 = bitAt b[0] 0
  rw [bitAt_and, bitAt_one_zero, mul_one]

/-- The second lowest bit of a block. -/
@[simp] theorem bitAt_blockLsb1 (b : Block) : bitAt (blockLsb1 b) 0 = lsb1 (blockVec b) := by
  change bitAt ((b[0] >>> 1) &&& 1) 0 = bitAt b[0] 1
  rw [bitAt_and, bitAt_one_zero, mul_one, bitAt, bitAt, UInt8.toNat_shiftRight]
  simp

/-- Bytes which are single bits agree when their lowest bits do. -/
theorem bit_eq_iff {a b : UInt8} (ha : a &&& 1 = a) (hb : b &&& 1 = b) :
    a = b ↔ bitAt a 0 = bitAt b 0 := by
  constructor
  · exact congrArg fun c => bitAt c 0
  · intro h
    apply bitAt_injective
    intro i hi
    have hone (hi : i ≠ 0) : bitAt 1 i = 0 := by
      interval_cases i <;> first | contradiction | decide
    by_cases hz : i = 0
    · rw [hz, h]
    · rw [← ha, ← hb, bitAt_and, bitAt_and, hone hz, mul_zero, mul_zero]

/-- A single bit is zero or one. -/
theorem bit_cases {b : UInt8} (h : b &&& 1 = b) : b = 0 ∨ b = 1 := by
  have hnat := congrArg UInt8.toNat h
  rw [UInt8.toNat_and, UInt8.toNat_one, Nat.and_one_is_mod] at hnat
  rw [← UInt8.toNat_inj, ← UInt8.toNat_inj, UInt8.toNat_zero, UInt8.toNat_one]
  omega

/-- The lowest bit of a block is a single bit. -/
theorem blockLsb_and_one (b : Block) : blockLsb b &&& 1 = blockLsb b := by
  rw [blockLsb, UInt8.and_assoc, UInt8.and_self]

/-- The second lowest bit of a block is a single bit. -/
theorem blockLsb1_and_one (b : Block) : blockLsb1 b &&& 1 = blockLsb1 b := by
  rw [blockLsb1, UInt8.and_assoc, UInt8.and_self]

/-- A sum of single bits is one. -/
theorem bit_xor {a b : UInt8} (ha : a &&& 1 = a) (hb : b &&& 1 = b) :
    (a ^^^ b) &&& 1 = a ^^^ b := by
  rw [xor_and_one, ha, hb]

/-- The bundle of a party as a share over the bits of blocks. -/
def AShareBundle.share (w : AShareBundle) : Share (Fin 128 → ZMod 2) :=
  ⟨blockVec w.mac, blockVec w.key⟩

@[simp] theorem AShareBundle.share_mac (w : AShareBundle) : w.share.mac = blockVec w.mac := rfl

@[simp] theorem AShareBundle.share_key (w : AShareBundle) : w.share.key = blockVec w.key := rfl

end Shachain2pc
