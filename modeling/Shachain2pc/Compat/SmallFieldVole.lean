import Shachain2pc.Compat.OtPrimitives
import Shachain2pc.Lib.Butterfly

/-!
# Small-field VOLE

The sender knows every leaf of a tree and obtains, for each block, the sum of the leaves'
hashes and the sums by the bits of their positions. The receiver knows every leaf but one,
and obtains the sums by the bits of the positions relative to that leaf. The two differ by a
multiple of the sender's first sum.
-/

namespace Shachain2pc

open Butterfly

/-- The value of an entry. -/
def entryVec (r : List Block) (x : ℕ) : Fin 128 → ZMod 2 := blockVec (r.getD x Block.zero)

/-- Every element is its own inverse. -/
theorem blockVec_add_self (m : Fin 128 → ZMod 2) : m + m = 0 :=
  funext fun i => CharTwo.add_self_eq_zero (m i)

/-! ## One level in place -/

/-- The first steps of a level: the entries which are written hold the sums of neighbours, the other
entries are kept. -/
theorem foldl_butterflyStep {r : List Block} {m : ℕ} (hm : 2 * m ≤ r.length) :
    let result := (List.range m).foldl butterflyStep (Block.zero, r)
    result.2.length = r.length ∧
      blockVec result.1 = ∑ y ∈ Finset.range m, entryVec r (2 * y + 1) ∧
      (∀ y < m, entryVec result.2 y = fold (entryVec r) y) ∧
      ∀ y, m ≤ y → result.2.getD y Block.zero = r.getD y Block.zero := by
  induction m with
  | zero => exact ⟨rfl, blockVec_zero, by simp, fun _ _ => rfl⟩
  | succ m ih =>
    obtain ⟨hlength, hsum, hfolded, hkept⟩ := ih (by omega)
    rw [List.range_succ, List.foldl_append, List.foldl_cons, List.foldl_nil]
    generalize (List.range m).foldl butterflyStep (Block.zero, r) = before at *
    have hlo := hkept (2 * m) (by omega)
    have hhi := hkept (2 * m + 1) (by omega)
    simp only [butterflyStep, hlo, hhi]
    refine ⟨by rw [List.length_set, hlength], ?_, ?_, ?_⟩
    · rw [blockVec_xor, hsum, Finset.sum_range_succ]
      rfl
    · intro y hy
      rw [entryVec, getD_set (by omega)]
      by_cases hlast : y = m
      · subst hlast
        rw [if_pos rfl, blockVec_xor]
        rfl
      · rw [if_neg hlast]
        exact hfolded y (by omega)
    · intro y hy
      rw [getD_set (by omega), if_neg (by omega)]
      exact hkept y (by omega)

/-- The levels of a butterfly sum up the entries by the bits of their positions. -/
theorem butterflyLevels_spec {k : ℕ} {r : List Block} (hlength : 2 ^ k ≤ r.length) :
    let result := butterflyLevels k (2 ^ k) r
    result.1.length = k ∧
      (∀ b < k, blockVec (result.1.getD b Block.zero) = bitSum k b (entryVec r)) ∧
      entryVec result.2 0 = total k (entryVec r) := by
  induction k generalizing r with
  | zero => simp [butterflyLevels, total]
  | succ k ih =>
    have hhalf : 2 ^ (k + 1) / 2 = 2 ^ k := by
      rw [pow_succ, Nat.mul_div_cancel _ (by decide)]
    have hfit : 2 * 2 ^ k ≤ r.length := by rwa [← pow_succ']
    obtain ⟨hkeep, hacc, hfolded, -⟩ := foldl_butterflyStep hfit
    simp only [butterflyLevels, hhalf]
    generalize (List.range (2 ^ k)).foldl butterflyStep (Block.zero, r) = level at *
    obtain ⟨hcount, hsums, hlast⟩ := ih (r := level.2) (by omega)
    refine ⟨by rw [List.length_cons, hcount], ?_, ?_⟩
    · intro b hb
      cases b with
      | zero =>
        rw [List.getD_cons_zero, hacc, bitSum_zero]
      | succ b =>
        rw [List.getD_cons_succ, hsums b (by omega), bitSum_succ]
        exact bitSum_congr hfolded
    · rw [hlast, total_succ]
      exact total_congr hfolded

/-- The sums of a butterfly. -/
theorem butterfly_sums {k b : ℕ} {r : List Block} (hlength : 2 ^ k ≤ r.length) (hb : b < k) :
    blockVec ((butterfly k r).1.getD b Block.zero) = bitSum k b (entryVec r) :=
  (butterflyLevels_spec hlength).2.1 b hb

/-- What is left of a butterfly. -/
theorem butterfly_total {k : ℕ} {r : List Block} (hlength : 2 ^ k ≤ r.length) :
    blockVec (butterfly k r).2 = total k (entryVec r) :=
  (butterflyLevels_spec hlength).2.2

/-! ## The two sides -/

variable (permute : Block → Block → Block)

/-- The hash of one leaf. -/
def sfvoleHash (tweak : SfvoleTweak) (leaf : Block) : Block :=
  let input := blockXor (Block.make 0 tweak.2) leaf
  blockXor (permute (Block.make 0 tweak.1) input) input

/-- The hash of a leaf at a position in range. -/
theorem sfvoleHashes_getD {leaves : List Block} {x : ℕ} (hx : x < leaves.length)
    (tweak : SfvoleTweak) :
    (sfvoleHashes permute leaves tweak).getD x Block.zero =
      sfvoleHash permute tweak (leaves.getD x Block.zero) := by
  rw [sfvoleHashes, List.getD_eq_getElem _ _ (by rwa [List.length_map]), List.getElem_map,
    List.getD_eq_getElem _ _ hx]
  rfl

/-- The sums which a receiver forms differ from the sender's by a multiple of the sender's total. -/
theorem butterfly_receiver {k alpha b : ℕ} (halpha : alpha < 2 ^ k) (hb : b < k)
    {leaves known : List Block} (hleaves : leaves.length = 2 ^ k)
    (hagree : ∀ x < 2 ^ k, x ≠ alpha → known.getD x Block.zero = leaves.getD x Block.zero)
    (tweak : SfvoleTweak) :
    let shifted := (List.range (2 ^ k)).map fun y => known.getD (alpha ^^^ y) Block.zero
    let sender := butterfly k (sfvoleHashes permute leaves tweak)
    (butterfly k (sfvoleHashes permute shifted tweak)).1.getD b Block.zero =
      blockXor (sender.1.getD b Block.zero) (if alpha.testBit b then sender.2 else Block.zero) := by
  intro shifted sender
  have hshifted : shifted.length = 2 ^ k := by simp [shifted]
  have hlength (leaves : List Block) : (sfvoleHashes permute leaves tweak).length = leaves.length :=
    List.length_map ..
  apply blockVec_injective
  rw [blockVec_xor, butterfly_sums (by rw [hlength, hshifted]) hb,
    butterfly_sums (by rw [hlength, hleaves]) hb]
  have hsender : bitSum k b (entryVec (sfvoleHashes permute leaves tweak)) =
      bitSum k b fun x => blockVec (sfvoleHash permute tweak (leaves.getD x Block.zero)) := by
    refine bitSum_congr fun x hx => ?_
    rw [entryVec, sfvoleHashes_getD permute (by omega)]
  have hreceiver : bitSum k b (entryVec (sfvoleHashes permute shifted tweak)) =
      bitSum k b fun y =>
        blockVec (sfvoleHash permute tweak (known.getD (alpha ^^^ y) Block.zero)) := by
    refine bitSum_congr fun y hy => ?_
    rw [entryVec, sfvoleHashes_getD permute (by omega), List.getD_eq_getElem _ _ (by omega),
      List.getElem_map, List.getElem_range]
  have htotal : blockVec sender.2 =
      total k fun x => blockVec (sfvoleHash permute tweak (leaves.getD x Block.zero)) := by
    rw [butterfly_total (by rw [hlength, hleaves])]
    refine total_congr fun x hx => ?_
    rw [entryVec, sfvoleHashes_getD permute (by omega)]
  rw [hsender, hreceiver, bitSum_shifted blockVec_add_self halpha
    (g := fun x => blockVec (sfvoleHash permute tweak (known.getD x Block.zero)))
    (f := fun x => blockVec (sfvoleHash permute tweak (leaves.getD x Block.zero)))]
  · congr 1
    split
    · exact htotal.symm
    · exact blockVec_zero.symm
  · intro x hx hne
    rw [hagree x hx hne]

/-! ## Blocks -/

/-- There are `k` sums for each row. -/
theorem butterflyRows_length (k : ℕ) (rows : List (List Block × Block)) :
    (butterflyRows k rows).length = k * rows.length := by
  simp [butterflyRows]

/-- The sums of one level are next to each other. -/
theorem butterflyRows_getD {k b j : ℕ} (rows : List (List Block × Block)) (hb : b < k)
    (hj : j < rows.length) :
    (butterflyRows k rows).getD (b * rows.length + j) Block.zero = rows[j].1.getD b Block.zero := by
  induction k with
  | zero => exact absurd hb (by omega)
  | succ k ih =>
    have hsplit : butterflyRows (k + 1) rows =
        butterflyRows k rows ++ rows.map fun row => row.1.getD k Block.zero := by
      simp only [butterflyRows, List.range_succ, List.flatMap_append, List.flatMap_cons,
        List.flatMap_nil, List.append_nil]
    have hlength := butterflyRows_length k rows
    rw [hsplit]
    rcases Nat.lt_succ_iff_lt_or_eq.mp hb with hlt | rfl
    · have hin : b * rows.length + j < k * rows.length := by
        have hle : (b + 1) * rows.length ≤ k * rows.length := Nat.mul_le_mul_right _ hlt
        rw [Nat.succ_mul] at hle
        omega
      rw [List.getD_append _ _ _ _ (by omega), ih hlt]
    · rw [List.getD_append_right _ _ _ _ (by omega), hlength, Nat.add_sub_cancel_left,
        List.getD_eq_getElem _ _ (by rwa [List.length_map]), List.getElem_map]

/-- The receiver's sums are the sender's, plus the sender's first sums where the bit of the unknown
position is set. -/
theorem sfvole_correct {k alpha : ℕ} (halpha : alpha < 2 ^ k) (bs : ℕ)
    (counterBase sessionId : UInt64) {leaves known : List Block} (hleaves : leaves.length = 2 ^ k)
    (hagree : ∀ x < 2 ^ k, x ≠ alpha → known.getD x Block.zero = leaves.getD x Block.zero) :
    let sender := sfvoleSenderButterfly permute k leaves counterBase bs sessionId
    let w := sfvoleReceiverButterfly permute k alpha known counterBase bs sessionId
    sender.1.length = bs ∧ sender.2.length = k * bs ∧ w.length = k * bs ∧
      ∀ b < k, ∀ j < bs, w.getD (b * bs + j) Block.zero =
        blockXor (sender.2.getD (b * bs + j) Block.zero)
          (if alpha.testBit b then sender.1.getD j Block.zero else Block.zero) := by
  intro sender w
  have htweaks : (sfvoleTweaks sessionId counterBase bs).length = bs := by simp [sfvoleTweaks]
  refine ⟨?_, ?_, ?_, ?_⟩
  · simp [sender, sfvoleSenderButterfly, htweaks]
  · simp [sender, sfvoleSenderButterfly, butterflyRows_length, htweaks]
  · simp [w, sfvoleReceiverButterfly, butterflyRows_length, htweaks]
  · intro b hb j hj
    have hj' : j < (sfvoleTweaks sessionId counterBase bs).length := by omega
    have hrow (r : SfvoleTweak → List Block) :
        (butterflyRows k ((sfvoleTweaks sessionId counterBase bs).map fun tweak =>
          butterfly k (r tweak))).getD (b * bs + j) Block.zero =
          (butterfly k (r (sfvoleTweaks sessionId counterBase bs)[j])).1.getD b Block.zero := by
      have hget := butterflyRows_getD ((sfvoleTweaks sessionId counterBase bs).map fun tweak =>
        butterfly k (r tweak)) hb (by rwa [List.length_map])
      simpa only [List.length_map, htweaks, List.getElem_map] using hget
    have htotal : sender.1.getD j Block.zero =
        (butterfly k
          (sfvoleHashes permute leaves (sfvoleTweaks sessionId counterBase bs)[j])).2 := by
      simp only [sender, sfvoleSenderButterfly]
      rw [List.getD_eq_getElem _ _ (by simpa using hj'), List.getElem_map, List.getElem_map]
    rw [htotal]
    simp only [sender, w, sfvoleSenderButterfly, sfvoleReceiverButterfly, hrow]
    exact butterfly_receiver permute halpha hb hleaves hagree _

/-- A tree of four leaves, of which the receiver does not know the one at position two. -/
theorem sfvole_correct_four :
    let leaves := [Block.make 0 1, Block.make 0 2, Block.make 0 4, Block.make 0 8]
    let known := [Block.make 0 1, Block.make 0 2, Block.zero, Block.make 0 8]
    let sender := sfvoleSenderButterfly blockXor 2 leaves 5 1 7
    (sfvoleReceiverButterfly blockXor 2 2 known 5 1 7).getD 1 Block.zero =
      blockXor (sender.2.getD 1 Block.zero) (sender.1.getD 0 Block.zero) := by
  intro leaves known sender
  have hagree : ∀ x < 2 ^ 2, x ≠ 2 → known.getD x Block.zero = leaves.getD x Block.zero := by
    decide
  exact (@sfvole_correct blockXor 2 2 (by decide) 1 5 7 leaves known rfl hagree).2.2.2 1
    (by decide) 0 (by decide)

end Shachain2pc
