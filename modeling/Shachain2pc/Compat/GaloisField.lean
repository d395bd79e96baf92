import Mathlib.Tactic.LinearCombination
import Shachain2pc.Compat.BitTranspose
import Shachain2pc.Lib.BinaryPolynomial

/-!
# Arithmetic in GF(2^128)

A block is the polynomial of its bits, and products are taken modulo
`X^128 + X^7 + X^2 + X + 1`. The portable path keeps a product of 256 bits in four words, and
clears its upper bits one by one. The other path multiplies halves of registers without
carries, and folds the upper half of the product down in two steps. Both compute the remainder.
-/

namespace Shachain2pc

open BinaryPolynomial Polynomial

/-! ## The portable path -/

/-- `block_to_u128`. -/
def blockToU128 (block : Block) : BitVec 128 :=
  BitVec.ofNat 128 (block.toList.foldr (fun byte rest => byte.toNat + 256 * rest) 0)

/-- `u128_to_block`. -/
def u128ToBlock (value : BitVec 128) : Block :=
  Vector.ofFn fun i : Fin 16 => UInt8.ofNat (value >>> (8 * i.val)).toNat

/-- The four words of a product. -/
abbrev GfWords := Vector (BitVec 64) 4

/-- One of the words. -/
def wordAt (words : GfWords) (word : ℕ) : BitVec 64 := words[word]?.getD 0#64

/-- A word which is changed in place. -/
def xorWord (words : GfWords) (word : ℕ) (value : BitVec 64) : GfWords :=
  words.setIfInBounds word (wordAt words word ^^^ value)

/-- `xor_shifted_u128`. -/
def xorShiftedU128 (dst : GfWords) (value : BitVec 128) (shift : ℕ) : GfWords :=
  let lo := value.setWidth 64
  let hi := (value >>> 64).setWidth 64
  let word := shift / 64
  let bits := shift % 64
  if bits = 0 then xorWord (xorWord dst word lo) (word + 1) hi
  else
    let dst := xorWord dst word (lo <<< bits)
    let dst := xorWord dst (word + 1) ((lo >>> (64 - bits)) ^^^ (hi <<< bits))
    if word + 2 < 4 then xorWord dst (word + 2) (hi >>> (64 - bits)) else dst

/-- `gf_bit`. -/
def gfBit (words : GfWords) (bit : ℕ) : Bool := (wordAt words (bit / 64) >>> (bit % 64)).getLsbD 0

/-- `gf_flip`. -/
def gfFlip (words : GfWords) (bit : ℕ) : GfWords := xorWord words (bit / 64) (1#64 <<< (bit % 64))

/-- One bit of `gf_reduce`. -/
def gfReduceBit (product : GfWords) (bit : ℕ) : GfWords :=
  if gfBit product bit then
    let product := gfFlip product bit
    let base := bit - 128
    gfFlip (gfFlip (gfFlip (gfFlip product base) (base + 1)) (base + 2)) (base + 7)
  else product

/-- `gf_reduce`. -/
def gfReduce (product : GfWords) : Block :=
  let product := (List.range' 128 128).reverse.foldl gfReduceBit product
  u128ToBlock ((wordAt product 0).setWidth 128 ||| ((wordAt product 1).setWidth 128 <<< 64))

/-- `gf_mul_soft`. -/
def gfMulSoft (a b : Block) : Block :=
  let a := blockToU128 a
  let b := blockToU128 b
  gfReduce ((List.range 128).foldl
    (fun product i => if (b >>> i).getLsbD 0 then xorShiftedU128 product a i else product)
    (Vector.replicate 4 0#64))

/-- `gf_pack_128_soft`. -/
def gfPack128Soft (data : List Block) : Block :=
  gfReduce (data.zipIdx.foldl
    (fun product entry => xorShiftedU128 product (blockToU128 entry.1) entry.2)
      (Vector.replicate 4 0#64))

/-! ## The path with carry-less multiplication -/

/-- The carry-less product of two words. -/
def clmul (a b : BitVec 64) : BitVec 128 :=
  (List.range 64).foldl
    (fun product i => if b.getLsbD i then product ^^^ (a.setWidth 128 <<< i) else product) 0#128

/-- The lower half of a register. -/
def low64 (register : BitVec 128) : BitVec 64 := register.setWidth 64

/-- The upper half of a register. -/
def high64 (register : BitVec 128) : BitVec 64 := (register >>> 64).setWidth 64

/-- `_mm_clmulepi64_si128`: bit 0 of the selector chooses the half of `a`, bit 4 that of `b`. -/
def mmClmulepi64Si128 (a b : BitVec 128) (imm : ℕ) : BitVec 128 :=
  clmul (if imm.testBit 0 then high64 a else low64 a) (if imm.testBit 4 then high64 b else low64 b)

/-- `_mm_slli_si128`: a shift by bytes. -/
def mmSlliSi128 (register : BitVec 128) (bytes : ℕ) : BitVec 128 := register <<< (8 * bytes)

/-- `_mm_srli_si128`: a shift by bytes. -/
def mmSrliSi128 (register : BitVec 128) (bytes : ℕ) : BitVec 128 := register >>> (8 * bytes)

/-- `_mm_slli_epi64`: a shift of each half. -/
def mmSlliEpi64 (register : BitVec 128) (bits : ℕ) : BitVec 128 :=
  (high64 register <<< bits) ++ (low64 register <<< bits)

/-- `_mm_srli_epi64`: a shift of each half. -/
def mmSrliEpi64 (register : BitVec 128) (bits : ℕ) : BitVec 128 :=
  (high64 register >>> bits) ++ (low64 register >>> bits)

/-- The product of two halves is folded down twice, as both functions of this path do at their
end. -/
def gfFold (lo hi : BitVec 128) : Block :=
  let g := 0x87#128
  let c0 := mmClmulepi64Si128 hi g 0x00
  let c1 := mmClmulepi64Si128 hi g 0x01
  let qLo := c0 ^^^ mmSlliSi128 c1 8
  let qHi := mmSrliSi128 c1 8
  let e := mmClmulepi64Si128 qHi g 0x00
  u128ToBlock ((lo ^^^ qLo) ^^^ e)

/-- `gf_mul_clmul`. -/
def gfMulClmul (a b : Block) : Block :=
  let a := blockToU128 a
  let b := blockToU128 b
  let t0 := mmClmulepi64Si128 a b 0x00
  let t3 := mmClmulepi64Si128 a b 0x11
  let t1 := mmClmulepi64Si128 a b 0x01
  let t2 := mmClmulepi64Si128 a b 0x10
  let mid := t1 ^^^ t2
  let pLo := t0 ^^^ mmSlliSi128 mid 8
  let pHi := t3 ^^^ mmSrliSi128 mid 8
  gfFold pLo pHi

/-- The macro `bit`: a register shifted by less than a byte, and the bits which leave it. -/
def packBit (ld : ℕ → BitVec 128) (base : ℕ) (c : BitVec 128 × BitVec 128) (b : ℕ) :
    BitVec 128 × BitVec 128 :=
  let d := ld (base + b)
  let s := mmSlliEpi64 d b
  let carry := mmSrliEpi64 d (64 - b)
  (c.1 ^^^ (s ^^^ mmSlliSi128 carry 8), c.2 ^^^ mmSrliSi128 carry 8)

/-- The macro `pack_byte`: eight registers, shifted by whole bytes. -/
def gfPackByte (ld : ℕ → BitVec 128) (sum : BitVec 128 × BitVec 128) (boff : ℕ) :
    BitVec 128 × BitVec 128 :=
  let base := boff * 8
  let c := [1, 2, 3, 4, 5, 6, 7].foldl (packBit ld base) (ld base, 0#128)
  if boff = 0 then (sum.1 ^^^ c.1, sum.2 ^^^ c.2)
  else (sum.1 ^^^ mmSlliSi128 c.1 boff,
    sum.2 ^^^ (mmSrliSi128 c.1 (16 - boff) ^^^ mmSlliSi128 c.2 boff))

/-- `gf_pack_128_clmul`. -/
def gfPack128Clmul (data : List Block) : Block :=
  let ld (i : ℕ) : BitVec 128 := blockToU128 (data.getD i Block.zero)
  let sum := (List.range 16).foldl (gfPackByte ld) (0#128, 0#128)
  gfFold sum.1 sum.2

/-! ## Blocks as polynomials -/

/-- The modulus. -/
noncomputable def gfModulus : (ZMod 2)[X] := X ^ 128 + (X ^ 7 + X ^ 2 + X + 1)

/-- The polynomial of a block. -/
noncomputable def blockPoly (block : Block) : (ZMod 2)[X] := toPoly (blockToU128 block)

/-- The bits of little-endian bytes. -/
theorem testBit_bytes (bytes : List UInt8) (i : ℕ) :
    (bytes.foldr (fun (byte : UInt8) (rest : ℕ) => byte.toNat + 256 * rest) 0).testBit i =
      (bytes.getD (i / 8) 0).toNat.testBit (i % 8) := by
  induction bytes generalizing i with
  | nil => simp
  | cons byte rest ih =>
    have hbyte : byte.toNat < 2 ^ 8 := byte.toNat_lt
    rw [List.foldr_cons, Nat.add_comm, Nat.testBit_two_pow_mul_add (i := 8) _ hbyte]
    by_cases hlow : i < 8
    · rw [if_pos hlow, Nat.div_eq_of_lt hlow, Nat.mod_eq_of_lt hlow]
      rfl
    · have hindex : i / 8 = (i - 8) / 8 + 1 := by omega
      have hbit : i % 8 = (i - 8) % 8 := by omega
      rw [if_neg hlow, ih, hindex, hbit]
      rfl

/-- The bits of a block as a word. -/
theorem getLsbD_blockToU128 (block : Block) {i : ℕ} (hi : i < 128) :
    (blockToU128 block).getLsbD i = blockBit block i := by
  rw [blockToU128, BitVec.getLsbD_ofNat, decide_eq_true hi, Bool.true_and, testBit_bytes, blockBit]

/-- The bits of a word as a block. -/
theorem blockBit_u128ToBlock (value : BitVec 128) {i : ℕ} (hi : i < 128) :
    blockBit (u128ToBlock value) i = value.getLsbD i := by
  have hread :
      (u128ToBlock value).toList.getD (i / 8) 0 = UInt8.ofNat (value >>> (8 * (i / 8))).toNat := by
    rw [List.getD_eq_getElem _ _ (by simp; omega), Vector.getElem_toList, u128ToBlock,
      Vector.getElem_ofFn]
  have hbyte (n : ℕ) : (UInt8.ofNat n).toNat = n % 2 ^ 8 := rfl
  rw [blockBit, hread, hbyte, Nat.testBit_mod_two_pow, decide_eq_true (by omega), Bool.true_and,
    BitVec.testBit_toNat, BitVec.getLsbD_ushiftRight, Nat.div_add_mod]

/-- Going to a block and back. -/
theorem blockToU128_u128ToBlock (value : BitVec 128) : blockToU128 (u128ToBlock value) = value :=
  BitVec.eq_of_getLsbD_eq fun _ hi =>
    (getLsbD_blockToU128 _ hi).trans (blockBit_u128ToBlock value hi)

/-- A block is determined by its bits. -/
theorem blockBit_ext {a b : Block} (h : ∀ i < 128, blockBit a i = blockBit b i) : a = b := by
  apply blockVec_injective
  funext i
  have hbit := h i i.isLt
  have hbyte : i.val / 8 < 16 := by omega
  have hread (block : Block) : block.toList.getD (i / 8) 0 = block[i.val / 8] := by
    rw [List.getD_eq_getElem _ _ (by simp; omega), Vector.getElem_toList]
  rw [blockBit, blockBit, hread, hread] at hbit
  rw [blockVec, blockVec, bitAt, bitAt, hbit]

/-- A block is determined by its polynomial. -/
theorem blockPoly_injective : Function.Injective blockPoly := by
  intro a b h
  have hword := toPoly_injective h
  refine blockBit_ext fun i hi => ?_
  rw [← getLsbD_blockToU128 a hi, ← getLsbD_blockToU128 b hi, hword]

/-- The polynomial of a block which is made from a word. -/
theorem blockPoly_u128ToBlock (value : BitVec 128) :
    blockPoly (u128ToBlock value) = toPoly value := by
  rw [blockPoly, blockToU128_u128ToBlock]

/-- The lower terms of the modulus. -/
theorem degree_gfModulus_tail {n : ℕ} (hn : 8 ≤ n) :
    (X ^ 7 + X ^ 2 + X + 1 : (ZMod 2)[X]).degree < n := by
  rw [degree_lt_iff_coeff_zero]
  intro i hi
  simp only [coeff_add, coeff_X_pow, coeff_X, coeff_one]
  rw [if_neg (by omega), if_neg (by omega), if_neg (by omega), if_neg (by omega)]
  rfl

/-- The modulus is monic, and its degree. -/
theorem monic_X_pow_add_tail {n : ℕ} (hn : 8 ≤ n) :
    (X ^ n + (X ^ 7 + X ^ 2 + X + 1) : (ZMod 2)[X]).Monic ∧
      (X ^ n + (X ^ 7 + X ^ 2 + X + 1) : (ZMod 2)[X]).degree = n := by
  have htail := degree_gfModulus_tail hn
  refine ⟨monic_X_pow_add htail, ?_⟩
  rw [degree_add_eq_left_of_degree_lt, degree_X_pow]
  rwa [degree_X_pow]

/-- The modulus is monic. -/
theorem gfModulus_monic : gfModulus.Monic := by
  unfold gfModulus
  exact (monic_X_pow_add_tail (by omega)).1

/-- The degree of the modulus. -/
theorem degree_gfModulus : gfModulus.degree = (128 : ℕ) := by
  unfold gfModulus
  exact (monic_X_pow_add_tail (by omega)).2

/-- A word which is congruent to a polynomial is its remainder. -/
theorem mod_gfModulus {p : (ZMod 2)[X]} {value : BitVec 128} (h : gfModulus ∣ p - toPoly value) :
    p %ₘ gfModulus = toPoly value := by
  have hlt := degree_toPoly_lt value
  rw [← degree_gfModulus] at hlt
  exact modByMonic_eq gfModulus_monic h hlt

/-! ### The portable path -/

/-- The polynomial of four words. -/
noncomputable def wordsPoly (words : GfWords) : (ZMod 2)[X] := ofBits 256 (gfBit words)

/-- The bits of the words. -/
theorem gfBit_eq (words : GfWords) (i : ℕ) :
    gfBit words i = (wordAt words (i / 64)).getLsbD (i % 64) := by
  rw [gfBit, BitVec.getLsbD_ushiftRight, Nat.add_zero]

/-- A word which is changed adds to the polynomial. -/
theorem wordsPoly_xorWord (words : GfWords) {word : ℕ} (hword : word < 4) (value : BitVec 64) :
    wordsPoly (xorWord words word value) = wordsPoly words + X ^ (64 * word) * toPoly value := by
  have hread (i : ℕ) : wordAt (xorWord words word value) i =
      if word = i then wordAt words i ^^^ value else wordAt words i := by
    rw [wordAt, xorWord, Vector.getElem?_setIfInBounds]
    by_cases h : word = i
    · rw [if_pos h, if_pos hword, if_pos h, h]
      rfl
    · rw [if_neg h, if_neg h]
      rfl
  ext i
  rw [coeff_add, coeff_X_pow_mul', wordsPoly, wordsPoly, coeff_ofBits, coeff_ofBits,
    coeff_toPoly, gfBit_eq, gfBit_eq, hread]
  by_cases hsame : word = i / 64
  · have hindex : i - 64 * word = i % 64 := by omega
    rw [if_pos hsame, if_pos (by omega), if_pos (by omega), if_pos (by omega), hindex,
      BitVec.getLsbD_xor, BinaryPolynomial.bit_xor]
  · rw [if_neg hsame]
    have hout : (if 64 * word ≤ i then bit (value.getLsbD (i - 64 * word)) else 0) = 0 := by
      split
      · rw [BitVec.getLsbD_of_ge value _ (by omega)]
        rfl
      · rfl
    rw [hout, add_zero]

/-- A shifted word of 128 bits adds to the polynomial. -/
theorem wordsPoly_xorShiftedU128 (dst : GfWords) (value : BitVec 128) {shift : ℕ}
    (hshift : shift < 128) :
    wordsPoly (xorShiftedU128 dst value shift) = wordsPoly dst + X ^ shift * toPoly value := by
  have hhigh : toPoly ((value >>> 64).setWidth 64) = toPoly (value >>> 64) := by
    ext i
    rw [coeff_toPoly, coeff_toPoly, BitVec.getLsbD_setWidth, BitVec.getLsbD_ushiftRight]
    by_cases hi : i < 64
    · rw [decide_eq_true hi, Bool.true_and]
    · rw [decide_eq_false hi, Bool.false_and, BitVec.getLsbD_of_ge value _ (by omega)]
  have hvalue := toPoly_ushiftRight value 64
  rw [← hhigh] at hvalue
  rw [xorShiftedU128]
  by_cases hbits : shift % 64 = 0
  · have hexp : shift = 64 * (shift / 64) := by omega
    rw [if_pos hbits, wordsPoly_xorWord _ (by omega), wordsPoly_xorWord _ (by omega), hvalue]
    conv_rhs => rw [hexp]
    rw [Nat.mul_succ]
    ring
  · have hlow := toPoly_shift (value.setWidth 64) (k := shift % 64) (by omega)
    have hup := toPoly_shift ((value >>> 64).setWidth 64) (k := shift % 64) (by omega)
    have hexp : shift = 64 * (shift / 64) + shift % 64 := by omega
    rw [if_neg hbits]
    simp only
    rw [if_pos (by omega), wordsPoly_xorWord _ (by omega), wordsPoly_xorWord _ (by omega),
      wordsPoly_xorWord _ (by omega), toPoly_xor, hvalue]
    conv_rhs => rw [hexp]
    rw [Nat.mul_add, Nat.mul_add]
    linear_combination (-X ^ (64 * (shift / 64))) * hlow - X ^ (64 * (shift / 64) + 64) * hup

/-- Without any bits. -/
theorem wordsPoly_zero : wordsPoly (Vector.replicate 4 0#64) = 0 := by
  refine ofBits_eq_zero fun i hi => ?_
  rw [gfBit_eq, wordAt, Vector.getElem?_replicate, if_pos (by omega)]
  exact BitVec.getLsbD_zero

/-- A flipped bit adds a power. -/
theorem wordsPoly_gfFlip (words : GfWords) {bit : ℕ} (hbit : bit < 256) :
    wordsPoly (gfFlip words bit) = wordsPoly words + X ^ bit := by
  rw [gfFlip, wordsPoly_xorWord _ (by omega), toPoly_one_shiftLeft (by omega), ← pow_add,
    Nat.div_add_mod]

/-- A bit is a coefficient. -/
theorem coeff_wordsPoly (words : GfWords) {bit : ℕ} (hbit : bit < 256) :
    (wordsPoly words).coeff bit = BinaryPolynomial.bit (gfBit words bit) := by
  rw [wordsPoly, coeff_ofBits, if_pos hbit]

/-- Twice a polynomial is zero. -/
theorem two_eq_zero : (2 : (ZMod 2)[X]) = 0 := CharTwo.two_eq_zero

/-- A multiple of a polynomial with these lower terms. -/
theorem X_pow_mul_add_tail (base n : ℕ) :
    X ^ base * (X ^ n + (X ^ 7 + X ^ 2 + X + 1) : (ZMod 2)[X]) =
      X ^ (base + n) + X ^ base + X ^ (base + 1) + X ^ (base + 2) + X ^ (base + 7) := by
  ring

/-- A multiple of the modulus. -/
theorem X_pow_mul_gfModulus (base : ℕ) :
    X ^ base * gfModulus = X ^ (base + 128) + X ^ base + X ^ (base + 1) + X ^ (base + 2) +
      X ^ (base + 7) := by
  unfold gfModulus
  exact X_pow_mul_add_tail base 128

/-- One step of the reduction clears the highest bit, and adds a multiple of the modulus. -/
theorem gfReduceBit_spec {words : GfWords} {base : ℕ} (hbase : base < 128)
    (hdegree : (wordsPoly words).degree < (base + 128 + 1 : ℕ)) :
    (wordsPoly (gfReduceBit words (base + 128))).degree < (base + 128 : ℕ) ∧
      gfModulus ∣ wordsPoly words - wordsPoly (gfReduceBit words (base + 128)) := by
  rw [degree_lt_iff_coeff_zero] at hdegree
  have hcoeff := @coeff_wordsPoly words (base + 128) (by omega)
  rw [gfReduceBit]
  by_cases hset : gfBit words (base + 128)
  · rw [if_pos hset]
    simp only [Nat.add_sub_cancel]
    rw [wordsPoly_gfFlip _ (by omega), wordsPoly_gfFlip _ (by omega), wordsPoly_gfFlip _ (by omega),
      wordsPoly_gfFlip _ (by omega), wordsPoly_gfFlip _ (by omega)]
    constructor
    · rw [degree_lt_iff_coeff_zero]
      intro i hi
      simp only [coeff_add, coeff_X_pow]
      by_cases hself : i = base + 128
      · rw [if_pos hself, if_neg (by omega), if_neg (by omega), if_neg (by omega),
          if_neg (by omega), hself, hcoeff, hset]
        decide
      · rw [if_neg hself, if_neg (by omega), if_neg (by omega), if_neg (by omega),
          if_neg (by omega), hdegree i (by omega)]
        decide
    · refine ⟨X ^ base, ?_⟩
      rw [mul_comm, X_pow_mul_gfModulus, BinaryPolynomial.sub_eq_add]
      generalize (X ^ (base + 128) : (ZMod 2)[X]) = top
      linear_combination wordsPoly words * two_eq_zero
  · rw [if_neg hset]
    refine ⟨?_, by rw [sub_self]; exact dvd_zero _⟩
    rw [degree_lt_iff_coeff_zero]
    intro i hi
    by_cases hself : i = base + 128
    · rw [hself, hcoeff, Bool.eq_false_iff.mpr hset]
      rfl
    · exact hdegree i (by omega)

/-- The steps of the reduction, from the highest bit down. -/
theorem foldl_gfReduceBit {n : ℕ} (hn : n ≤ 128) {words : GfWords}
    (hdegree : (wordsPoly words).degree < (n + 128 : ℕ)) :
    let reduced := (List.range' 128 n).reverse.foldl gfReduceBit words
    (wordsPoly reduced).degree < (128 : ℕ) ∧ gfModulus ∣ wordsPoly words - wordsPoly reduced := by
  induction n generalizing words with
  | zero =>
    rw [Nat.zero_add] at hdegree
    refine ⟨hdegree, ?_⟩
    rw [List.range'_zero, List.reverse_nil, List.foldl_nil, sub_self]
    exact dvd_zero _
  | succ n ih =>
    obtain ⟨hdegree', hdvd⟩ := @gfReduceBit_spec words n hn (by rwa [Nat.add_right_comm] at hdegree)
    obtain ⟨hfinal, hdvd'⟩ := ih (by omega) hdegree'
    rw [List.range'_1_concat, List.reverse_append, List.reverse_singleton, List.singleton_append,
      List.foldl_cons, Nat.add_comm 128 n]
    refine ⟨hfinal, ?_⟩
    have hsum := dvd_add hdvd hdvd'
    rwa [sub_add_sub_cancel] at hsum

/-- The reduction computes the remainder. -/
theorem blockPoly_gfReduce (words : GfWords) :
    blockPoly (gfReduce words) = wordsPoly words %ₘ gfModulus := by
  have hdegree : (wordsPoly words).degree < (128 + 128 : ℕ) := degree_ofBits_lt 256 _
  obtain ⟨hlow, hdvd⟩ := foldl_gfReduceBit le_rfl hdegree
  rw [gfReduce]
  generalize (List.range' 128 128).reverse.foldl gfReduceBit words = reduced at *
  have hvalue :
      toPoly ((wordAt reduced 0).setWidth 128 ||| ((wordAt reduced 1).setWidth 128 <<< 64)) =
      wordsPoly reduced := by
    rw [degree_lt_iff_coeff_zero] at hlow
    ext i
    rw [coeff_toPoly, BitVec.getLsbD_or, BitVec.getLsbD_shiftLeft, BitVec.getLsbD_setWidth,
      BitVec.getLsbD_setWidth]
    by_cases hin : i < 128
    · rw [coeff_wordsPoly reduced (by omega), gfBit_eq]
      congr 1
      by_cases hlower : i < 64
      · rw [Nat.div_eq_of_lt hlower, Nat.mod_eq_of_lt hlower, decide_eq_true hin,
          decide_eq_true hlower]
        simp
      · have hword : i / 64 = 1 := by omega
        have hbit : i % 64 = i - 64 := by omega
        rw [hword, hbit, decide_eq_true hin, decide_eq_false hlower, decide_eq_true (by omega),
          BitVec.getLsbD_of_ge (wordAt reduced 0) i (by omega)]
        simp
    · rw [hlow i (by omega), decide_eq_false hin]
      rfl
  rw [blockPoly_u128ToBlock, hvalue]
  rw [← hvalue] at hdvd ⊢
  exact (mod_gfModulus hdvd).symm

/-- The portable product. -/
theorem blockPoly_gfMulSoft (a b : Block) :
    blockPoly (gfMulSoft a b) = (blockPoly a * blockPoly b) %ₘ gfModulus := by
  have hfold {n : ℕ} (hn : n ≤ 128) : wordsPoly ((List.range n).foldl
      (fun product i => if (blockToU128 b >>> i).getLsbD 0 then
        xorShiftedU128 product (blockToU128 a) i
        else product) (Vector.replicate 4 0#64)) = blockPoly a *
            ofBits n (blockToU128 b).getLsbD := by
    induction n with
    | zero =>
      rw [ofBits_eq_zero fun i hi => absurd hi (Nat.not_lt_zero i), mul_zero]; exact wordsPoly_zero
    | succ n ih =>
      rw [List.range_succ, List.foldl_append, List.foldl_cons, List.foldl_nil, ofBits_succ, mul_add,
        ← ih (by omega), BitVec.getLsbD_ushiftRight, Nat.add_zero]
      by_cases hbit : (blockToU128 b).getLsbD n
      · rw [if_pos hbit, if_pos hbit, wordsPoly_xorShiftedU128 _ _ (by omega),
          mul_comm (X ^ n), blockPoly]
      · rw [if_neg hbit, if_neg hbit, mul_zero, add_zero]
  rw [gfMulSoft, blockPoly_gfReduce, hfold le_rfl]
  rfl

/-- The portable packing. -/
theorem blockPoly_gfPack128Soft {data : List Block} (hdata : data.length = 128) :
    blockPoly (gfPack128Soft data) =
      (∑ s ∈ Finset.range 128, X ^ s * blockPoly (data.getD s Block.zero)) %ₘ gfModulus := by
  have hfold {n : ℕ} (hn : n ≤ 128) : wordsPoly ((data.take n).zipIdx.foldl
      (fun product entry => xorShiftedU128 product (blockToU128 entry.1) entry.2)
        (Vector.replicate 4 0#64)) =
        ∑ s ∈ Finset.range n, X ^ s * blockPoly (data.getD s Block.zero) := by
    induction n with
    | zero => exact wordsPoly_zero
    | succ n ih =>
      rw [List.take_succ_eq_append_getElem (by omega), List.zipIdx_append, List.foldl_append,
        Finset.sum_range_succ, ← ih (by omega), List.length_take, Nat.zero_add,
        Nat.min_eq_left (by omega),
        List.zipIdx_singleton, List.foldl_cons, List.foldl_nil,
        wordsPoly_xorShiftedU128 _ _ (by omega),
        List.getD_eq_getElem _ _ (by omega), blockPoly]
  have hall := hfold le_rfl
  rw [List.take_of_length_le (by omega)] at hall
  rw [gfPack128Soft, blockPoly_gfReduce, hall]

/-! ### The path with carry-less multiplication -/

/-- The halves of a register. -/
theorem toPoly_halves (register : BitVec 128) :
    toPoly register = toPoly (low64 register) + X ^ 64 * toPoly (high64 register) := by
  have hhigh : toPoly (high64 register) = toPoly (register >>> 64) := by
    ext i
    rw [coeff_toPoly, coeff_toPoly, high64, BitVec.getLsbD_setWidth, BitVec.getLsbD_ushiftRight]
    by_cases hi : i < 64
    · rw [decide_eq_true hi, Bool.true_and]
    · rw [decide_eq_false hi, Bool.false_and, BitVec.getLsbD_of_ge register _ (by omega)]
  rw [hhigh, low64, ← toPoly_ushiftRight]

/-- A factor has room for a shift within a register. -/
theorem setWidth_ushiftRight (a : BitVec 64) {n : ℕ} (hn : n < 64) :
    a.setWidth 128 >>> (128 - n) = 0#128 := by
  refine BitVec.eq_of_getLsbD_eq fun i _ => ?_
  rw [BitVec.getLsbD_ushiftRight, BitVec.getLsbD_setWidth, BitVec.getLsbD_of_ge a _ (by omega),
    Bool.and_false]
  exact BitVec.getLsbD_zero.symm

/-- A factor which is shifted within a register. -/
theorem toPoly_setWidth_shiftLeft (a : BitVec 64) {n : ℕ} (hn : n < 64) :
    toPoly (a.setWidth 128 <<< n) = X ^ n * toPoly a := by
  rw [toPoly_shiftLeft (by omega) (setWidth_ushiftRight a hn), toPoly_setWidth (by omega)]

/-- The first steps of a carry-less product. -/
theorem foldl_clmul (a b : BitVec 64) {n : ℕ} (hn : n ≤ 64) :
    toPoly ((List.range n).foldl
      (fun product i => if b.getLsbD i then product ^^^ (a.setWidth 128 <<< i) else product)
      0#128) = toPoly a * ofBits n b.getLsbD := by
  induction n with
  | zero =>
    rw [ofBits_eq_zero fun i hi => absurd hi (Nat.not_lt_zero i), mul_zero]
    exact toPoly_zero
  | succ n ih =>
    rw [List.range_succ, List.foldl_append, List.foldl_cons, List.foldl_nil, ofBits_succ, mul_add,
      ← ih (by omega)]
    by_cases hbit : b.getLsbD n
    · rw [if_pos hbit, if_pos hbit, toPoly_xor, toPoly_setWidth_shiftLeft a (by omega),
        mul_comm (X ^ n)]
    · rw [if_neg hbit, if_neg hbit, mul_zero, add_zero]

/-- The carry-less product is the product. -/
theorem toPoly_clmul (a b : BitVec 64) : toPoly (clmul a b) = toPoly a * toPoly b :=
  foldl_clmul a b le_rfl

/-- The selector chooses the halves. -/
theorem toPoly_mmClmulepi64Si128 (a b : BitVec 128) :
    toPoly (mmClmulepi64Si128 a b 0x00) = toPoly (low64 a) * toPoly (low64 b) ∧
      toPoly (mmClmulepi64Si128 a b 0x01) = toPoly (high64 a) * toPoly (low64 b) ∧
      toPoly (mmClmulepi64Si128 a b 0x10) = toPoly (low64 a) * toPoly (high64 b) ∧
      toPoly (mmClmulepi64Si128 a b 0x11) = toPoly (high64 a) * toPoly (high64 b) :=
  ⟨toPoly_clmul .., toPoly_clmul .., toPoly_clmul .., toPoly_clmul ..⟩

/-- A register shifted by eight bytes up. -/
theorem toPoly_mmSlliSi128_eight (register : BitVec 128) :
    toPoly (mmSlliSi128 register 8) = X ^ 64 * toPoly (low64 register) := by
  have hshift := toPoly_shift register (k := 64) (by omega)
  have hsplit := toPoly_ushiftRight register 64
  have hexp : (X ^ 128 : (ZMod 2)[X]) = X ^ 64 * X ^ 64 := by rw [← pow_add]
  rw [hexp] at hshift
  rw [mmSlliSi128, low64]
  linear_combination X ^ 64 * hsplit - hshift

/-- A register shifted by eight bytes down. -/
theorem toPoly_mmSrliSi128_eight (register : BitVec 128) :
    toPoly (mmSrliSi128 register 8) = toPoly (high64 register) := by
  ext i
  rw [coeff_toPoly, coeff_toPoly, mmSrliSi128, high64, BitVec.getLsbD_setWidth,
    BitVec.getLsbD_ushiftRight]
  by_cases hi : i < 64
  · rw [decide_eq_true hi, Bool.true_and]
  · rw [decide_eq_false hi, Bool.false_and, BitVec.getLsbD_of_ge register _ (by omega)]

/-- The polynomial of two registers, the lower one first. -/
noncomputable def pairPoly (lo hi : BitVec 128) : (ZMod 2)[X] := toPoly lo + X ^ 128 * toPoly hi

/-- The lower terms of the modulus as a register. -/
theorem toPoly_tail : toPoly (low64 0x87#128) = X ^ 7 + X ^ 2 + X + 1 := by
  have hbits : low64 0x87#128 = (1#64 <<< 7) ^^^ (1#64 <<< 2) ^^^
      (1#64 <<< 1) ^^^ (1#64 <<< 0) := by
    decide
  rw [hbits, toPoly_xor, toPoly_xor, toPoly_xor, toPoly_one_shiftLeft (by omega),
    toPoly_one_shiftLeft (by omega), toPoly_one_shiftLeft (by omega),
    toPoly_one_shiftLeft (by omega),
    pow_one, pow_zero]

/-- The two foldings compute the remainder. -/
theorem blockPoly_gfFold (lo hi : BitVec 128) :
    blockPoly (gfFold lo hi) = pairPoly lo hi %ₘ gfModulus := by
  rw [gfFold, blockPoly_u128ToBlock]
  refine (mod_gfModulus ?_).symm
  obtain ⟨hc0, hc1, -, -⟩ := toPoly_mmClmulepi64Si128 hi 0x87#128
  generalize mmClmulepi64Si128 hi 0x87#128 0x00 = c0 at *
  generalize mmClmulepi64Si128 hi 0x87#128 0x01 = c1 at *
  obtain ⟨he, -, -, -⟩ := toPoly_mmClmulepi64Si128 (mmSrliSi128 c1 8) 0x87#128
  generalize mmClmulepi64Si128 (mmSrliSi128 c1 8) 0x87#128 0x00 = e at *
  have hqHi : low64 (mmSrliSi128 c1 8) = high64 c1 := rfl
  rw [toPoly_tail] at hc0 hc1 he
  rw [hqHi] at he
  have hhi := toPoly_halves hi
  have hsplit := toPoly_halves c1
  have hshift := toPoly_mmSlliSi128_eight c1
  have hexp : (X ^ 128 : (ZMod 2)[X]) = X ^ 64 * X ^ 64 := by rw [← pow_add]
  have hresult : toPoly ((lo ^^^ (c0 ^^^ mmSlliSi128 c1 8)) ^^^ e) =
      toPoly lo + (toPoly c0 + X ^ 64 * toPoly (low64 c1)) + toPoly e := by
    rw [toPoly_xor, toPoly_xor, toPoly_xor, hshift]
  unfold gfModulus pairPoly
  generalize (X ^ 64 : (ZMod 2)[X]) = half at *
  generalize (X ^ 128 : (ZMod 2)[X]) = top at *
  generalize (X ^ 7 + X ^ 2 + X + 1 : (ZMod 2)[X]) = tail at *
  refine ⟨toPoly (low64 hi) + half * toPoly (high64 hi) - toPoly (high64 c1), ?_⟩
  rw [hresult, hexp, hhi, hc0, he]
  rw [hc1] at hsplit
  linear_combination (-half) * hsplit -
    (toPoly (low64 hi) * tail + half * toPoly (low64 c1)) * two_eq_zero

/-- The product of registers, by halves. -/
theorem pairPoly_clmul (a b : BitVec 128) :
    let mid := mmClmulepi64Si128 a b 0x01 ^^^ mmClmulepi64Si128 a b 0x10
    pairPoly (mmClmulepi64Si128 a b 0x00 ^^^ mmSlliSi128 mid 8)
      (mmClmulepi64Si128 a b 0x11 ^^^ mmSrliSi128 mid 8) = toPoly a * toPoly b := by
  intro mid
  obtain ⟨h0, h1, h2, h3⟩ := toPoly_mmClmulepi64Si128 a b
  have ha := toPoly_halves a
  have hb := toPoly_halves b
  have hmid : toPoly mid = toPoly (low64 mid) + X ^ 64 * toPoly (high64 mid) := toPoly_halves mid
  have hexp : (X ^ 128 : (ZMod 2)[X]) = X ^ 64 * X ^ 64 := by rw [← pow_add]
  have hlo := toPoly_xor (mmClmulepi64Si128 a b 0x00) (mmSlliSi128 mid 8)
  have hhi := toPoly_xor (mmClmulepi64Si128 a b 0x11) (mmSrliSi128 mid 8)
  rw [toPoly_mmSlliSi128_eight] at hlo
  rw [toPoly_mmSrliSi128_eight] at hhi
  rw [toPoly_xor, h1, h2] at hmid
  unfold pairPoly
  generalize (X ^ 64 : (ZMod 2)[X]) = half at *
  generalize (X ^ 128 : (ZMod 2)[X]) = top at *
  rw [hlo, hhi, hexp, ha, hb, h0, h3]
  linear_combination (-half) * hmid

/-- The product on this path. -/
theorem blockPoly_gfMulClmul (a b : Block) :
    blockPoly (gfMulClmul a b) = (blockPoly a * blockPoly b) %ₘ gfModulus := by
  have hproduct := pairPoly_clmul (blockToU128 a) (blockToU128 b)
  rw [gfMulClmul, blockPoly_gfFold, blockPoly, blockPoly]
  simp only at hproduct
  rw [hproduct]

/-! ### Packing -/

/-- The lower half of a concatenation. -/
@[simp] theorem low64_append (hi lo : BitVec 64) : low64 (hi ++ lo) = lo := by
  refine BitVec.eq_of_getLsbD_eq fun i hi' => ?_
  rw [low64, BitVec.getLsbD_setWidth, BitVec.getLsbD_append, decide_eq_true hi', if_pos hi',
    Bool.true_and]

/-- The upper half of a concatenation. -/
@[simp] theorem high64_append (hi lo : BitVec 64) : high64 (hi ++ lo) = hi := by
  refine BitVec.eq_of_getLsbD_eq fun i hi' => ?_
  rw [high64, BitVec.getLsbD_setWidth, BitVec.getLsbD_ushiftRight, BitVec.getLsbD_append,
    decide_eq_true hi', if_neg (by omega), Nat.add_sub_cancel_left, Bool.true_and]

/-- A register which is shifted by less than a byte, with the bits which leave it. -/
theorem pairPoly_shift (d : BitVec 128) {b : ℕ} (hb : b < 64) :
    pairPoly (mmSlliEpi64 d b ^^^ mmSlliSi128 (mmSrliEpi64 d (64 - b)) 8)
      (mmSrliSi128 (mmSrliEpi64 d (64 - b)) 8) = X ^ b * toPoly d := by
  have hlow := toPoly_shift (low64 d) (k := b) (by omega)
  have hup := toPoly_shift (high64 d) (k := b) (by omega)
  have hs := toPoly_halves (mmSlliEpi64 d b)
  have hd := toPoly_halves d
  have hexp : (X ^ 128 : (ZMod 2)[X]) = X ^ 64 * X ^ 64 := by rw [← pow_add]
  have hlo := toPoly_xor (mmSlliEpi64 d b) (mmSlliSi128 (mmSrliEpi64 d (64 - b)) 8)
  have hhi := toPoly_mmSrliSi128_eight (mmSrliEpi64 d (64 - b))
  have hlowS : low64 (mmSlliEpi64 d b) = low64 d <<< b := low64_append _ _
  have hhighS : high64 (mmSlliEpi64 d b) = high64 d <<< b := high64_append _ _
  have hlowCarry : low64 (mmSrliEpi64 d (64 - b)) = low64 d >>> (64 - b) := low64_append _ _
  have hhighCarry : high64 (mmSrliEpi64 d (64 - b)) = high64 d >>> (64 - b) := high64_append _ _
  rw [hlowS, hhighS] at hs
  rw [toPoly_mmSlliSi128_eight, hlowCarry] at hlo
  rw [hhighCarry] at hhi
  unfold pairPoly
  generalize (X ^ 64 : (ZMod 2)[X]) = half at *
  generalize (X ^ 128 : (ZMod 2)[X]) = top at *
  rw [hlo, hhi, hexp, hs, hd]
  linear_combination -hlow - half * hup

/-- Sums of pairs. -/
theorem pairPoly_xor (lo hi lo' hi' : BitVec 128) :
    pairPoly (lo ^^^ lo') (hi ^^^ hi') = pairPoly lo hi + pairPoly lo' hi' := by
  unfold pairPoly
  generalize (X ^ 128 : (ZMod 2)[X]) = top
  rw [toPoly_xor, toPoly_xor]
  ring

/-- An empty upper register. -/
theorem pairPoly_zero (lo : BitVec 128) : pairPoly lo 0#128 = toPoly lo := by
  unfold pairPoly
  generalize (X ^ 128 : (ZMod 2)[X]) = top
  rw [toPoly_zero, mul_zero, add_zero]

/-- The upper sums hold less than a byte. -/
def FitsByte (register : BitVec 128) : Prop := register >>> 8 = 0#128

/-- A register which is shifted by less than a byte is added to the sums. -/
theorem packBit_spec (ld : ℕ → BitVec 128) (base : ℕ) {c : BitVec 128 × BitVec 128} {b : ℕ}
    (hb : b < 8) (hfits : FitsByte c.2) :
    FitsByte (packBit ld base c b).2 ∧
      pairPoly (packBit ld base c b).1 (packBit ld base c b).2 =
        pairPoly c.1 c.2 + X ^ b * toPoly (ld (base + b)) := by
  rw [packBit]
  refine ⟨BitVec.eq_of_getLsbD_eq fun i _ => ?_, ?_⟩
  · have hkept := congrArg (fun v => BitVec.getLsbD v i) hfits
    simp only [BitVec.getLsbD_ushiftRight] at hkept
    rw [BitVec.getLsbD_ushiftRight, BitVec.getLsbD_xor, hkept, mmSrliSi128,
      BitVec.getLsbD_ushiftRight,
      mmSrliEpi64, BitVec.getLsbD_append, if_neg (by omega), BitVec.getLsbD_ushiftRight,
      BitVec.getLsbD_of_ge (high64 (ld (base + b))) _ (by omega), BitVec.getLsbD_zero]
    rfl
  · rw [pairPoly_xor, pairPoly_shift _ (by omega)]

/-- Eight registers, each shifted by one bit more. -/
theorem foldl_packBit (ld : ℕ → BitVec 128) (base : ℕ) :
    let c := [1, 2, 3, 4, 5, 6, 7].foldl (packBit ld base) (ld base, 0#128)
    FitsByte c.2 ∧ pairPoly c.1 c.2 = ∑ b ∈ Finset.range 8, X ^ b * toPoly (ld (base + b)) := by
  have hstep {n : ℕ} (hn : n < 8) :
      let c := (List.range' 1 n).foldl (packBit ld base) (ld base, 0#128)
      FitsByte c.2 ∧ pairPoly c.1 c.2 = ∑ b ∈ Finset.range (n + 1),
      X ^ b * toPoly (ld (base + b)) := by
    induction n with
    | zero =>
      refine ⟨BitVec.zero_ushiftRight, ?_⟩
      rw [Finset.sum_range_one, pow_zero, one_mul]
      exact pairPoly_zero _
    | succ n ih =>
      obtain ⟨hfits, hsum⟩ := ih (by omega)
      rw [List.range'_1_concat, List.foldl_append, List.foldl_cons, List.foldl_nil]
      obtain ⟨hfits', hsum'⟩ := packBit_spec ld base (b := 1 + n) (by omega) hfits
      refine ⟨hfits', ?_⟩
      rw [hsum', hsum, Finset.sum_range_succ _ (n + 1), Nat.add_comm 1 n]
  have hlist : [1, 2, 3, 4, 5, 6, 7] = List.range' 1 7 := rfl
  rw [hlist]
  exact hstep (by omega)

/-- A shift of a pair by whole bytes, of which the upper register holds less than a byte. -/
theorem pairPoly_shiftBytes {lo hi : BitVec 128} (hfits : FitsByte hi) {boff : ℕ}
    (hboff : boff < 16) :
    pairPoly (mmSlliSi128 lo boff) (mmSrliSi128 lo (16 - boff) ^^^ mmSlliSi128 hi boff) =
      X ^ (8 * boff) * pairPoly lo hi := by
  have hlo := toPoly_shift lo (k := 8 * boff) (by omega)
  have hcount : 128 - 8 * boff = 8 * (16 - boff) := by omega
  have hhi : toPoly (hi <<< (8 * boff)) = X ^ (8 * boff) * toPoly hi := by
    refine toPoly_shiftLeft (by omega) (BitVec.eq_of_getLsbD_eq fun i _ => ?_)
    have hbit := congrArg (fun v => BitVec.getLsbD v (120 - 8 * boff + i)) hfits
    simp only [BitVec.getLsbD_ushiftRight, BitVec.getLsbD_zero] at hbit
    have hindex : 128 - 8 * boff + i = 8 + (120 - 8 * boff + i) := by omega
    rw [BitVec.getLsbD_ushiftRight, hindex, hbit, BitVec.getLsbD_zero]
  have hsum := toPoly_xor (mmSrliSi128 lo (16 - boff)) (mmSlliSi128 hi boff)
  rw [hcount] at hlo
  unfold pairPoly
  unfold mmSlliSi128 mmSrliSi128 at *
  generalize (X ^ 128 : (ZMod 2)[X]) = top at *
  rw [hsum, hhi]
  linear_combination -hlo

/-- Eight registers are added to the sums. -/
theorem gfPackByte_spec (ld : ℕ → BitVec 128) (sum : BitVec 128 × BitVec 128) {boff : ℕ}
    (hboff : boff < 16) :
    pairPoly (gfPackByte ld sum boff).1 (gfPackByte ld sum boff).2 =
      pairPoly sum.1 sum.2 + ∑ b ∈ Finset.range 8, X ^ (8 * boff + b) *
        toPoly (ld (8 * boff + b)) := by
  obtain ⟨hfits, hsum⟩ := foldl_packBit ld (boff * 8)
  rw [gfPackByte]
  generalize [1, 2, 3, 4, 5, 6, 7].foldl (packBit ld (boff * 8)) (ld (boff * 8), 0#128) = c at *
  have hterms : ∑ b ∈ Finset.range 8, X ^ (8 * boff + b) * toPoly (ld (8 * boff + b)) =
      X ^ (8 * boff) * pairPoly c.1 c.2 := by
    rw [hsum, Finset.mul_sum]
    refine Finset.sum_congr rfl fun b _ => ?_
    rw [pow_add, mul_assoc, Nat.mul_comm 8 boff]
  rw [hterms]
  by_cases hzero : boff = 0
  · rw [if_pos hzero, pairPoly_xor, hzero, Nat.mul_zero, pow_zero, one_mul]
  · rw [if_neg hzero, pairPoly_xor, pairPoly_shiftBytes hfits hboff]

/-- The first registers, eight at a time. -/
theorem foldl_gfPackByte (ld : ℕ → BitVec 128) {n : ℕ} (hn : n ≤ 16) :
    let sum := (List.range n).foldl (gfPackByte ld) (0#128, 0#128)
    pairPoly sum.1 sum.2 = ∑ s ∈ Finset.range (8 * n), X ^ s * toPoly (ld s) := by
  induction n with
  | zero => exact (pairPoly_zero _).trans toPoly_zero
  | succ n ih =>
    have hbyte :=
      @gfPackByte_spec ld ((List.range n).foldl (gfPackByte ld) (0#128, 0#128)) n (by omega)
    simp only [List.range_succ, List.foldl_append, List.foldl_cons, List.foldl_nil]
    have hbefore := ih (by omega)
    simp only at hbefore
    rw [hbyte, hbefore, Nat.mul_succ, Finset.sum_range_add]

/-- The packing on this path. -/
theorem blockPoly_gfPack128Clmul (data : List Block) :
    blockPoly (gfPack128Clmul data) =
      (∑ s ∈ Finset.range 128, X ^ s * blockPoly (data.getD s Block.zero)) %ₘ gfModulus := by
  have hall := foldl_gfPackByte (fun i => blockToU128 (data.getD i Block.zero)) le_rfl
  simp only at hall
  rw [gfPack128Clmul, blockPoly_gfFold, hall]
  rfl

/-- The two paths agree, and compute the product and the packing in the field. -/
theorem gf_paths_agree :
    (∀ a b : Block, gfMulClmul a b = gfMulSoft a b ∧
      blockPoly (gfMulSoft a b) = (blockPoly a * blockPoly b) %ₘ gfModulus) ∧
    ∀ data : List Block, data.length = 128 → gfPack128Clmul data = gfPack128Soft data ∧
      blockPoly (gfPack128Soft data) =
        (∑ s ∈ Finset.range 128, blockPoly (data.getD s Block.zero) * X ^ s) %ₘ gfModulus := by
  refine ⟨fun a b => ⟨blockPoly_injective ?_, blockPoly_gfMulSoft a b⟩,
    fun data hdata => ⟨blockPoly_injective ?_, ?_⟩⟩
  · rw [blockPoly_gfMulClmul, blockPoly_gfMulSoft]
  · rw [blockPoly_gfPack128Clmul, blockPoly_gfPack128Soft hdata]
  · have hswap : ∑ s ∈ Finset.range 128, blockPoly (data.getD s Block.zero) * X ^ s =
        ∑ s ∈ Finset.range 128, X ^ s * blockPoly (data.getD s Block.zero) :=
      Finset.sum_congr rfl fun s _ => mul_comm _ _
    rw [hswap]
    exact blockPoly_gfPack128Soft hdata

/-- Packing 128 equal blocks. -/
theorem gf_paths_agree_replicate :
    gfPack128Clmul (List.replicate 128 (Block.make 1 3)) =
      gfPack128Soft (List.replicate 128 (Block.make 1 3)) :=
  (gf_paths_agree.2 _ List.length_replicate).1

end Shachain2pc
