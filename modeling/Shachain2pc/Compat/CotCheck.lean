import Mathlib.RingTheory.AdjoinRoot
import Shachain2pc.Compat.CotCorrelation

/-!
# The check of the correlations

Blocks are elements of the ring of polynomials modulo that of the field. A combination of
correlated COTs with coefficients is that of the sender's COTs, plus the combination of the
choice bits times Delta, so the receiver's sums stay the sender's sum with the product of the
receiver's choice sum and Delta. An honest receiver passes the check of its sender.
-/

namespace Shachain2pc

open BinaryPolynomial Polynomial
open SoftSpoken4State

/-- A block as an element of the field. -/
noncomputable def gfElem (block : Block) : AdjoinRoot gfModulus :=
  AdjoinRoot.mk gfModulus (blockPoly block)

/-- The polynomial of a block, by its bits. -/
theorem blockPoly_eq_ofBits (block : Block) : blockPoly block = ofBits 128 (blockBit block) :=
  ofBits_congr fun _ hi => getLsbD_blockToU128 block hi

/-- The bits of a sum of blocks. -/
theorem blockBit_xor (a b : Block) {i : ℕ} (hi : i < 128) :
    blockBit (blockXor a b) i = (blockBit a i ^^ blockBit b i) := by
  have hbyte : i / 8 < 16 := by omega
  have hread (block : Block) : block.toList.getD (i / 8) 0 = block[i / 8] := by
    rw [List.getD_eq_getElem _ _ (by rwa [Vector.length_toList]), Vector.getElem_toList]
  rw [blockBit, blockBit, blockBit, hread, hread, hread, blockXor, Vector.getElem_zipWith,
    UInt8.toNat_xor, Nat.testBit_xor]

/-- Different blocks are different elements. -/
theorem gfElem_injective : Function.Injective gfElem := by
  intro a b h
  apply blockPoly_injective
  rw [gfElem, gfElem, AdjoinRoot.mk_eq_mk] at h
  have hdegree (block : Block) : (blockPoly block).degree < gfModulus.degree := by
    rw [degree_gfModulus]
    exact degree_toPoly_lt _
  have ha := hdegree a
  have hb := hdegree b
  generalize blockPoly a = p at *
  generalize blockPoly b = q at *
  generalize gfModulus = modulus at *
  have hsub : (p - q).degree < modulus.degree := (degree_sub_le p q).trans_lt (max_lt ha hb)
  exact sub_eq_zero.mp (eq_zero_of_dvd_of_degree_lt h hsub)

/-- Exclusive or is addition. -/
theorem gfElem_xor (a b : Block) : gfElem (blockXor a b) = gfElem a + gfElem b := by
  have hpoly : blockPoly (blockXor a b) = blockPoly a + blockPoly b := by
    rw [blockPoly_eq_ofBits, blockPoly_eq_ofBits, blockPoly_eq_ofBits, ← ofBits_xor]
    exact ofBits_congr fun _ hi => blockBit_xor a b hi
  rw [gfElem, hpoly, map_add]
  rfl

/-- The zero block. -/
theorem gfElem_zero : gfElem Block.zero = 0 := by
  have hself : blockXor Block.zero Block.zero = Block.zero := blockVec_injective (by
    rw [blockVec_xor, blockVec_zero, add_zero])
  have hadd := gfElem_xor Block.zero Block.zero
  rw [hself] at hadd
  exact left_eq_add.mp hadd

/-- A remainder is the element it is the remainder of. -/
theorem mk_modByMonic (p : (ZMod 2)[X]) :
    AdjoinRoot.mk gfModulus (p %ₘ gfModulus) = AdjoinRoot.mk gfModulus p := by
  rw [AdjoinRoot.mk_eq_mk, modByMonic_eq_sub_mul_div]
  exact ⟨-(p /ₘ gfModulus), by ring⟩

/-- `gf_mul` is the product. -/
theorem gfElem_mul (a b : Block) : gfElem (gfMul a b) = gfElem a * gfElem b := by
  rw [gfElem, gfMul, blockPoly_gfMulSoft, mk_modByMonic, map_mul]
  rfl

/-- `gf_pack_128` is the combination with the powers of the root. -/
theorem gfElem_pack {data : List Block} (hdata : data.length = 128) :
    gfElem (gfPack128 data) =
      ∑ s ∈ Finset.range 128, AdjoinRoot.root gfModulus ^ s * gfElem (data.getD s Block.zero) := by
  rw [gfElem, gfPack128, blockPoly_gfPack128Soft hdata, mk_modByMonic, map_sum]
  refine Finset.sum_congr rfl fun s _ => ?_
  rw [map_mul, map_pow, AdjoinRoot.mk_X]
  rfl

/-- A block is the combination of its bits. -/
theorem gfElem_eq_sum (block : Block) :
    gfElem block = ∑ s ∈ Finset.range 128, AdjoinRoot.root gfModulus ^ s *
      if blockBit block s then 1 else 0 := by
  rw [gfElem, blockPoly_eq_ofBits, ofBits, map_sum]
  refine Finset.sum_congr rfl fun s _ => ?_
  cases blockBit block s with
  | false => simp [bit]
  | true =>
    have hone : monomial s (bit true) = (X : (ZMod 2)[X]) ^ s := (X_pow_eq_monomial s).symm
    rw [hone, map_pow, AdjoinRoot.mk_X, if_pos rfl, mul_one]

/-- `gf_inner_product` is the sum of the products. -/
theorem gfElem_innerProduct (a b : List Block) :
    gfElem (gfInnerProduct a b) =
      ((a.zip b).map fun pair => gfElem pair.1 * gfElem pair.2).sum := by
  have hfold (pairs : List (Block × Block)) (acc : Block) :
      gfElem (pairs.foldl (fun acc pair => blockXor acc (gfMul pair.1 pair.2)) acc) =
        gfElem acc + (pairs.map fun pair => gfElem pair.1 * gfElem pair.2).sum := by
    induction pairs generalizing acc with
    | nil => simp
    | cons pair rest ih =>
      rw [List.foldl_cons, ih, gfElem_xor, gfElem_mul, List.map_cons, List.sum_cons, add_assoc]
  rw [gfInnerProduct, hfold, gfElem_zero, zero_add]

/-! ## Combinations -/

variable {delta : Block}

/-- The COTs of a receiver are those of the sender, plus Delta where the choice bit is set. -/
theorem Correlated.gfElem_eq {q t : Block} (h : Correlated delta q t) :
    gfElem t = gfElem q + (if blockBit t 0 then 1 else 0) * gfElem delta := by
  have hbit : lsb (blockVec t) = if blockBit t 0 then 1 else 0 := blockVec_eq_blockBit t 0
  have hmac := h.mac
  rw [hbit] at hmac
  by_cases hset : blockBit t 0
  · rw [if_pos hset, one_smul, ← blockVec_xor] at hmac
    rw [if_pos hset, one_mul, ← gfElem_xor, blockVec_injective hmac]
  · rw [if_neg hset, zero_smul, add_zero] at hmac
    rw [if_neg hset, zero_mul, add_zero, blockVec_injective hmac]

/-- Correlated COTs, and the blocks of their choice bits. -/
structure CorrelatedChunk (delta : Block) (bs : ℕ) (q t u : List Block) : Prop where
  lengthQ : q.length = bs * 128
  lengthT : t.length = bs * 128
  lengthU : u.length = bs
  cots : ∀ c < bs * 128, Correlated delta (q.getD c Block.zero) (t.getD c Block.zero)
  choices : ∀ c < bs * 128, blockBit (t.getD c Block.zero) 0 =
    blockBit (u.getD (c / 128) Block.zero) (c % 128)

/-- A part of consecutive COTs. -/
theorem getD_take_drop_chunk (out : List Block) {i s : ℕ} (hs : s < 128) :
    ((out.drop (i * 128)).take 128).getD s Block.zero = out.getD (i * 128 + s) Block.zero := by
  rw [List.getD_eq_getElem?_getD, List.getD_eq_getElem?_getD, List.getElem?_take_of_lt hs,
    List.getElem?_drop]

/-- One packed block of a receiver is that of the sender, plus the choice bits times Delta. -/
theorem CorrelatedChunk.packed_eq {bs : ℕ} {q t u : List Block} (h : CorrelatedChunk delta bs q t u)
    {i : ℕ} (hi : i < bs) :
    gfElem ((packed t bs).getD i Block.zero) =
      gfElem ((packed q bs).getD i Block.zero) + gfElem (u.getD i Block.zero) * gfElem delta := by
  have hpart (out : List Block) (hlength : out.length = bs * 128) :
      gfElem ((packed out bs).getD i Block.zero) = ∑ s ∈ Finset.range 128,
        AdjoinRoot.root gfModulus ^ s * gfElem (out.getD (i * 128 + s) Block.zero) := by
    have hfit : (i + 1) * 128 ≤ bs * 128 := Nat.mul_le_mul_right _ hi
    rw [packed, List.getD_eq_getElem _ _ (by simpa using hi), List.getElem_map, List.getElem_range,
      gfElem_pack (by rw [List.length_take, List.length_drop]; omega)]
    exact Finset.sum_congr rfl fun s hs => by rw [getD_take_drop_chunk out (Finset.mem_range.mp hs)]
  rw [hpart t h.lengthT, hpart q h.lengthQ, gfElem_eq_sum (u.getD i Block.zero), Finset.sum_mul,
    ← Finset.sum_add_distrib]
  refine Finset.sum_congr rfl fun s hs => ?_
  have hlow := Finset.mem_range.mp hs
  have hplace : i * 128 + s < bs * 128 := by omega
  have hdiv : (i * 128 + s) / 128 = i := by omega
  have hmod : (i * 128 + s) % 128 = s := by omega
  have hchoice := h.choices _ hplace
  rw [hdiv, hmod] at hchoice
  rw [(h.cots _ hplace).gfElem_eq, hchoice, mul_add, mul_assoc]

/-- The combination of a receiver's COTs is that of the sender's, plus that of the choice bits times
Delta. -/
theorem CorrelatedChunk.innerProduct_eq {bs : ℕ} {q t u chi : List Block}
    (h : CorrelatedChunk delta bs q t u) (hchi : chi.length = bs) :
    gfElem (gfInnerProduct chi (packed t bs)) =
      gfElem (gfInnerProduct chi (packed q bs)) + gfElem (gfInnerProduct chi u) * gfElem delta := by
  have hsum (xs : List Block) (hxs : xs.length = bs) : gfElem (gfInnerProduct chi xs) =
      ∑ i ∈ Finset.range bs, gfElem (chi.getD i Block.zero) * gfElem (xs.getD i Block.zero) := by
    rw [gfElem_innerProduct, ← Fin.sum_univ_getElem, ← Fin.sum_univ_eq_sum_range
      (fun i => gfElem (chi.getD i Block.zero) * gfElem (xs.getD i Block.zero))]
    have hlength : ((chi.zip xs).map fun pair => gfElem pair.1 * gfElem pair.2).length = bs := by
      rw [List.length_map, List.length_zip, hchi, hxs, Nat.min_self]
    refine Fintype.sum_equiv (finCongr hlength) _ _ fun i => ?_
    have hi : i.val < bs := hlength ▸ i.isLt
    rw [List.getElem_map, List.getElem_zip, List.getD_eq_getElem _ _ (by simpa [hchi] using hi),
      List.getD_eq_getElem _ _ (by simpa [hxs] using hi)]
    rfl
  have hpacked (out : List Block) : (packed out bs).length = bs := by simp [packed]
  rw [hsum _ (hpacked t), hsum _ (hpacked q), hsum u h.lengthU,
    Finset.sum_mul, ← Finset.sum_add_distrib]
  refine Finset.sum_congr rfl fun i hi => ?_
  rw [h.packed_eq (Finset.mem_range.mp hi), mul_add, mul_assoc]

/-! ## The sums of a session -/

variable {permute : Block → Block → Block} {s r : SoftSpoken4State} {bs : ℕ}

/-- Two sums of bits are equal when the bits are. -/
theorem blockBit_eq_of_blockVec {a b : Block} {i j : Fin 128} (h : blockVec a i = blockVec b j) :
    blockBit a i = blockBit b j := by
  rw [blockVec_eq_blockBit, blockVec_eq_blockBit] at h
  cases ha : blockBit a i <;> cases hb : blockBit b j <;> rw [ha, hb] at h <;>
    first | rfl | exact absurd h (by decide)

/-- The COTs of a chunk and the choice bits of its receiver. -/
theorem InStep.correlatedChunk (h : InStep s r) :
    CorrelatedChunk s.delta bs (sendOut permute s r bs) (recvChunk permute r bs).out
      (recvChunk permute r bs).uCanonical where
  lengthQ := transposeSoftspokenPlanes_length ..
  lengthT := transposeSoftspokenPlanes_length ..
  lengthU := (recvTree_length ..).1
  cots _ hc := h.correlated hc
  choices c hc := by
    have hfirst := blockBit_eq_of_blockVec (recvChunk_choice permute r hc)
    have hindex : (Fin.ofNat 128 (c % 128)).val = c % 128 := Nat.mod_mod ..
    rw [hindex] at hfirst
    exact hfirst

/-- The sums of the two endpoints differ by the product of the receiver's choice sum and Delta. -/
def Checked (s r : SoftSpoken4State) : Prop := blockXor s.checkQ (gfMul r.checkX s.delta) = r.checkT

/-- The sums as elements of the field. -/
theorem checked_iff : Checked s r ↔
    gfElem r.checkT = gfElem s.checkQ + gfElem r.checkX * gfElem s.delta := by
  rw [Checked, ← gfElem_mul, ← gfElem_xor]
  exact ⟨fun h => congrArg gfElem h.symm, fun h => (gfElem_injective h).symm⟩

/-- Combining a correlated chunk under one seed keeps the sums in relation. -/
theorem Checked.combine (h : Checked s r) {q t u : List Block}
    (hchunk : CorrelatedChunk s.delta bs q t u) (seed : Block) :
    Checked (s.combineSendChunk permute seed q bs) (r.combineRecvChunk permute seed t u bs) := by
  have hchi : (chi permute seed bs).length = bs := by simp [chi, Prg.randomBlock]
  rw [checked_iff] at h ⊢
  change gfElem (blockXor r.checkT _) = gfElem (blockXor s.checkQ _) +
    gfElem (blockXor r.checkX _) * gfElem s.delta
  rw [gfElem_xor, gfElem_xor, gfElem_xor, h, hchunk.innerProduct_eq hchi]
  ring

end Shachain2pc
