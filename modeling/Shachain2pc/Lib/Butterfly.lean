import Mathlib.Algebra.BigOperators.Group.Finset.Basic
import Mathlib.Algebra.Module.Basic
import Mathlib.Data.Nat.Bitwise

/-!
# Sums over the positions whose index has a bit set

A butterfly folds `2 ^ k` values by adding neighbours, `k` times, and at each level also adds
up the values at odd positions. At level `b` that is the sum of the original values whose
index has bit `b` set. When the indices are shifted by an exclusive or, the sums change by a
multiple of the total, whatever the value at the index which is shifted to zero.
-/

namespace Butterfly

variable {M : Type*} [AddCommGroup M]

/-- The sums of neighbours. -/
def fold (f : ℕ → M) (y : ℕ) : M := f (2 * y) + f (2 * y + 1)

/-- The sum of all values. -/
def total (k : ℕ) (f : ℕ → M) : M := ∑ x ∈ Finset.range (2 ^ k), f x

/-- The sum of the values whose index has a bit set. -/
def bitSum (k b : ℕ) (f : ℕ → M) : M := ∑ x ∈ Finset.range (2 ^ k), if x.testBit b then f x else 0

/-- A sum over an even range adds up neighbours. -/
theorem sum_range_two_mul (f : ℕ → M) (n : ℕ) :
    ∑ x ∈ Finset.range (2 * n), f x = ∑ y ∈ Finset.range n, fold f y := by
  induction n with
  | zero => rfl
  | succ n ih =>
    rw [Finset.sum_range_succ, ← ih, Nat.mul_succ, Finset.sum_range_succ, Finset.sum_range_succ,
      add_assoc, fold]

/-- Folding keeps the total. -/
theorem total_succ (k : ℕ) (f : ℕ → M) : total (k + 1) f = total k (fold f) := by
  rw [total, pow_succ', sum_range_two_mul, total]

/-- The lowest bit is set at the odd positions. -/
theorem bitSum_zero (k : ℕ) (f : ℕ → M) :
    bitSum (k + 1) 0 f = ∑ y ∈ Finset.range (2 ^ k), f (2 * y + 1) := by
  rw [bitSum, pow_succ', sum_range_two_mul]
  refine Finset.sum_congr rfl fun y _ => ?_
  simp [fold, Nat.testBit_zero]

/-- A higher bit is one of the folded values. -/
theorem bitSum_succ (k b : ℕ) (f : ℕ → M) : bitSum (k + 1) (b + 1) f = bitSum k b (fold f) := by
  rw [bitSum, pow_succ', sum_range_two_mul, bitSum]
  refine Finset.sum_congr rfl fun y _ => ?_
  have heven : (2 * y).testBit (b + 1) = y.testBit b := by
    rw [Nat.testBit_succ, Nat.mul_div_cancel_left _ (by decide)]
  have hodd : (2 * y + 1).testBit (b + 1) = y.testBit b := by
    rw [Nat.testBit_succ]
    congr 1
    omega
  rw [fold, heven, hodd, fold]
  split
  · rfl
  · exact add_zero 0

/-- The sums depend only on the values in range. -/
theorem bitSum_congr {k b : ℕ} {f g : ℕ → M} (h : ∀ x < 2 ^ k, f x = g x) :
    bitSum k b f = bitSum k b g := by
  refine Finset.sum_congr rfl fun x hx => ?_
  rw [h x (Finset.mem_range.mp hx)]

/-- The total depends only on the values in range. -/
theorem total_congr {k : ℕ} {f g : ℕ → M} (h : ∀ x < 2 ^ k, f x = g x) : total k f = total k g :=
  Finset.sum_congr rfl fun x hx => h x (Finset.mem_range.mp hx)

/-- The positions shifted by an exclusive or. -/
theorem sum_xor {k alpha : ℕ} (halpha : alpha < 2 ^ k) (f : ℕ → M) :
    ∑ y ∈ Finset.range (2 ^ k), f (alpha ^^^ y) = ∑ x ∈ Finset.range (2 ^ k), f x := by
  have hmem : ∀ y ∈ Finset.range (2 ^ k), alpha ^^^ y ∈ Finset.range (2 ^ k) := by
    intro y hy
    exact Finset.mem_range.mpr (Nat.xor_lt_two_pow halpha (Finset.mem_range.mp hy))
  exact Finset.sum_nbij' (fun y => alpha ^^^ y) (fun x => alpha ^^^ x) hmem hmem
    (fun y _ => Nat.xor_xor_cancel_left alpha y) (fun x _ => Nat.xor_xor_cancel_left alpha x)
      fun _ _ => rfl

/-- Values which agree off one position, with that position shifted to zero: the sum of a bit
changes by the total when the bit of the position is set. -/
theorem bitSum_shifted (htwo : ∀ m : M, m + m = 0) {k b alpha : ℕ} (halpha : alpha < 2 ^ k)
    {f g : ℕ → M} (hagree : ∀ x < 2 ^ k, x ≠ alpha → g x = f x) :
    bitSum k b (fun y => g (alpha ^^^ y)) =
      bitSum k b f + if alpha.testBit b then total k f else 0 := by
  have hshift : bitSum k b (fun y => g (alpha ^^^ y)) =
      ∑ x ∈ Finset.range (2 ^ k), if (alpha ^^^ x).testBit b then f x else 0 := by
    rw [← sum_xor halpha]
    refine Finset.sum_congr rfl fun y hy => ?_
    rw [Nat.xor_xor_cancel_left]
    split
    · next hbit =>
      refine hagree _ (Nat.xor_lt_two_pow halpha (Finset.mem_range.mp hy)) ?_
      intro hself
      have hzero : y = 0 := by
        rw [← Nat.xor_xor_cancel_left alpha y, hself, Nat.xor_self]
      rw [hzero, Nat.zero_testBit] at hbit
      cases hbit
    · rfl
  rw [hshift, bitSum]
  split
  · next hbit =>
    rw [total, ← Finset.sum_add_distrib]
    refine Finset.sum_congr rfl fun x _ => ?_
    rw [Nat.testBit_xor, hbit]
    cases x.testBit b
    · simp
    · simp [htwo]
  · next hbit =>
    rw [add_zero]
    refine Finset.sum_congr rfl fun x _ => ?_
    rw [Nat.testBit_xor, Bool.eq_false_iff.mpr hbit, Bool.false_xor]

end Butterfly
