import Mathlib.Algebra.BigOperators.Group.Finset.Basic
import Mathlib.Data.Nat.Bitwise
import Mathlib.Tactic.Abel

/-!
# Levels of a punctured tree

The two children of a node sum up to the node. A party knows all nodes of a level but one,
and is given the sum of all the children on one side, or that sum and the sum of the level.
It then knows all nodes of the next level but one: it replaces the child of the node it does
not know by what the sum leaves over.

Values are in a group of exponent two, and a level may project its children to a subgroup.
-/

namespace PuncturedTree

variable {M : Type*} [AddCommGroup M]

/-- The children of a level sum up to the projection of the level. -/
theorem sum_children {project : M →+ M} {n : ℕ} (child : Bool → ℕ → M) {node : ℕ → M}
    (hchildren : ∀ j < n, child false j + child true j = project (node j)) :
    ∑ j ∈ Finset.range n, child false j + ∑ j ∈ Finset.range n, child true j =
      project (∑ j ∈ Finset.range n, node j) := by
  rw [← Finset.sum_add_distrib, map_sum]
  exact Finset.sum_congr rfl fun j hj => hchildren j (Finset.mem_range.mp hj)

/-- Both sums of a level's sides are known when one of them and the level's sum are. -/
theorem sum_side (htwo : ∀ m : M, m + m = 0) {project : M →+ M} {n : ℕ} (child : Bool → ℕ → M)
    {node : ℕ → M} (hchildren : ∀ j < n, child false j + child true j = project (node j))
    (side : Bool) :
    ∑ j ∈ Finset.range n, child side j =
      ∑ j ∈ Finset.range n, child false j +
        if side then project (∑ j ∈ Finset.range n, node j) else 0 := by
  cases side with
  | false => exact (add_zero _).symm
  | true =>
    rw [if_pos rfl, ← sum_children child hchildren, ← add_assoc, htwo, zero_add]

/-- The sum of one side, taken over what is known, differs from the whole sum in the child of the
unknown node. -/
theorem sum_known {n pos : ℕ} (hpos : pos < n) {child known : ℕ → M}
    (hagree : ∀ j < n, j ≠ pos → known j = child j) :
    ∑ j ∈ Finset.range n, known j + child pos = ∑ j ∈ Finset.range n, child j + known pos := by
  have hmem : pos ∈ Finset.range n := Finset.mem_range.mpr hpos
  rw [← Finset.sum_erase_add _ known hmem, ← Finset.sum_erase_add _ child hmem]
  have hrest :
      ∑ j ∈ (Finset.range n).erase pos, known j = ∑ j ∈ (Finset.range n).erase pos, child j := by
    refine Finset.sum_congr rfl fun j hj => ?_
    exact hagree j (Finset.mem_range.mp (Finset.mem_of_mem_erase hj)) (Finset.ne_of_mem_erase hj)
  rw [hrest]
  abel

/-- The child of the unknown node is what the given sum leaves over. -/
theorem sibling_eq (htwo : ∀ m : M, m + m = 0) {project : M →+ M} {n pos : ℕ} (hpos : pos < n)
    (child known : Bool → ℕ → M) {node : ℕ → M} {delta junk : M} (side : Bool)
    (hproject : ∀ j < n, project (child side j) = child side j)
    (hprojectLeft : ∀ j < n, project (child false j) = child false j)
    (hchildren : ∀ j < n, child false j + child true j = project (node j))
    (hsum : ∑ j ∈ Finset.range n, node j = delta)
    (hagree : ∀ j < n, j ≠ pos → known side j = child side j)
    (hjunk : known side pos = junk) (hprojectJunk : project junk = junk) :
    project (∑ j ∈ Finset.range n, known side j + junk +
        (∑ j ∈ Finset.range n, child false j + if side then delta else 0)) = child side pos := by
  have hgiven : project (∑ j ∈ Finset.range n, child false j + if side then delta else 0) =
      ∑ j ∈ Finset.range n, child side j := by
    rw [sum_side htwo child hchildren side, hsum, map_add, map_sum]
    congr 1
    · exact Finset.sum_congr rfl fun j hj => hprojectLeft j (Finset.mem_range.mp hj)
    · cases side with
      | false => exact map_zero project
      | true => rfl
  have hknown : ∑ j ∈ Finset.range n, known side j =
      ∑ j ∈ Finset.range n, child side j + junk + child side pos := by
    rw [← hjunk, ← sum_known hpos hagree, add_assoc, htwo, add_zero]
  rw [map_add, hgiven, map_add, hknown, map_add, map_add, map_sum, hprojectJunk, hproject pos hpos]
  have hfixed : ∑ j ∈ Finset.range n, project (child side j) = ∑ j ∈ Finset.range n, child side j :=
    Finset.sum_congr rfl fun j hj => hproject j (Finset.mem_range.mp hj)
  rw [hfixed]
  calc ∑ j ∈ Finset.range n, child side j + junk + child side pos + junk +
        ∑ j ∈ Finset.range n, child side j
      = (∑ j ∈ Finset.range n, child side j + ∑ j ∈ Finset.range n, child side j) + (junk + junk) +
          child side pos := by abel
    _ = child side pos := by rw [htwo, htwo, add_zero, zero_add]

/-! ## The position of the unknown node -/

/-- The lowest `depth` bits of a number in reverse order. -/
def bitReverse (depth x : ℕ) : ℕ := Nat.ofBits fun i : Fin depth => x.testBit (depth - 1 - i)

/-- The bits of the reversal. -/
theorem testBit_bitReverse {depth i : ℕ} (hi : i < depth) (x : ℕ) :
    (bitReverse depth x).testBit i = x.testBit (depth - 1 - i) :=
  Nat.testBit_ofBits_lt _ i hi

/-- The reversal is in range. -/
theorem bitReverse_lt (depth x : ℕ) : bitReverse depth x < 2 ^ depth :=
  Nat.ofBits_lt_two_pow _

/-- A number in range with the reversed bits is the reversal. -/
theorem eq_bitReverse {depth x pos : ℕ} (hpos : pos < 2 ^ depth)
    (hbits : ∀ i < depth, pos.testBit i = x.testBit (depth - 1 - i)) :
    pos = bitReverse depth x := by
  apply Nat.eq_of_testBit_eq
  intro i
  by_cases hi : i < depth
  · rw [hbits i hi, testBit_bitReverse hi]
  · have hle : 2 ^ depth ≤ 2 ^ i := Nat.pow_le_pow_right (by decide) (by omega)
    rw [Nat.testBit_lt_two_pow (by omega),
      Nat.testBit_lt_two_pow ((bitReverse_lt depth x).trans_le hle)]

/-- A bit above a position. -/
theorem testBit_add_bit {level pos i : ℕ} (hpos : pos < 2 ^ level) (bit : Bool) (hi : i ≤ level) :
    (pos + bit.toNat * 2 ^ level).testBit i = if i = level then bit else pos.testBit i := by
  rw [Nat.add_comm, Nat.mul_comm, Nat.testBit_two_pow_mul_add _ hpos]
  by_cases hlast : i = level
  · subst hlast
    rw [if_neg (by omega), if_pos rfl, Nat.sub_self]
    cases bit <;> rfl
  · rw [if_pos (by omega), if_neg hlast]

/-- A bit above a position keeps it in range. -/
theorem add_bit_lt {level pos : ℕ} (hpos : pos < 2 ^ level) (bit : Bool) :
    pos + bit.toNat * 2 ^ level < 2 ^ (level + 1) := by
  rw [pow_succ]
  cases bit <;> simp <;> omega

end PuncturedTree
