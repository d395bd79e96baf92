import Mathlib.Algebra.CharP.Two
import Mathlib.Algebra.Field.ZMod
import Mathlib.Algebra.Polynomial.Div
import Mathlib.Data.ZMod.Basic

/-!
# Words as polynomials over the field of two elements

A word is the polynomial whose coefficients are its bits. Exclusive or is addition, a shift
which loses no bits is multiplication by a power of the variable, and a shift which loses bits
splits a product at the width of the word. A reduction which only adds multiples of a modulus
and ends below its degree computes the remainder.
-/

namespace BinaryPolynomial

open Polynomial

/-- A coefficient. -/
def bit (b : Bool) : ZMod 2 := if b then 1 else 0

/-- Exclusive or adds coefficients. -/
theorem bit_xor (a b : Bool) : bit (a ^^ b) = bit a + bit b := by
  cases a <;> cases b <;> decide

/-- A coefficient determines the bit. -/
theorem bit_injective : Function.Injective bit := by
  intro a b h
  cases a <;> cases b <;> first | rfl | exact absurd h (by decide)

/-- The polynomial whose coefficients are the first bits of a sequence. -/
noncomputable def ofBits (n : ℕ) (f : ℕ → Bool) : (ZMod 2)[X] :=
  ∑ i ∈ Finset.range n, monomial i (bit (f i))

/-- The coefficients. -/
theorem coeff_ofBits (n : ℕ) (f : ℕ → Bool) (k : ℕ) :
    (ofBits n f).coeff k = if k < n then bit (f k) else 0 := by
  rw [ofBits, finsetSum_coeff]
  simp only [coeff_monomial]
  rw [Finset.sum_ite_eq' (Finset.range n) k]
  simp only [Finset.mem_range]

/-- Sequences with the same first bits. -/
theorem ofBits_congr {n : ℕ} {f g : ℕ → Bool} (h : ∀ i < n, f i = g i) : ofBits n f = ofBits n g :=
  Finset.sum_congr rfl fun i hi => by rw [h i (Finset.mem_range.mp hi)]

/-- Exclusive or is addition. -/
theorem ofBits_xor (n : ℕ) (f g : ℕ → Bool) :
    ofBits n (fun i => f i ^^ g i) = ofBits n f + ofBits n g := by
  rw [ofBits, ofBits, ofBits, ← Finset.sum_add_distrib]
  refine Finset.sum_congr rfl fun i _ => ?_
  rw [bit_xor, map_add]

/-- The degree is below the number of bits. -/
theorem degree_ofBits_lt (n : ℕ) (f : ℕ → Bool) : (ofBits n f).degree < n := by
  rw [degree_lt_iff_coeff_zero]
  intro k hk
  rw [coeff_ofBits, if_neg (by omega)]

/-- The first bits are determined by the polynomial. -/
theorem ofBits_inj {n : ℕ} {f g : ℕ → Bool} (h : ofBits n f = ofBits n g) {i : ℕ} (hi : i < n) :
    f i = g i := by
  have hcoeff := congrArg (fun p => p.coeff i) h
  simp only [coeff_ofBits, if_pos hi] at hcoeff
  exact bit_injective hcoeff

/-- One bit more. -/
theorem ofBits_succ (n : ℕ) (f : ℕ → Bool) :
    ofBits (n + 1) f = ofBits n f + if f n then X ^ n else 0 := by
  rw [ofBits, Finset.sum_range_succ, ← ofBits]
  congr 1
  cases f n with
  | false => exact map_zero _
  | true => exact (X_pow_eq_monomial n).symm

/-- Bits which are all zero. -/
theorem ofBits_eq_zero {n : ℕ} {f : ℕ → Bool} (h : ∀ i < n, f i = false) : ofBits n f = 0 := by
  refine Finset.sum_eq_zero fun i hi => ?_
  rw [h i (Finset.mem_range.mp hi), bit, if_neg Bool.false_ne_true, map_zero]

/-! ## Words -/

/-- The polynomial of a word. -/
noncomputable def toPoly {w : ℕ} (v : BitVec w) : (ZMod 2)[X] := ofBits w v.getLsbD

variable {w : ℕ}

/-- The coefficients are the bits, also those beyond the word. -/
theorem coeff_toPoly (v : BitVec w) (k : ℕ) : (toPoly v).coeff k = bit (v.getLsbD k) := by
  rw [toPoly, coeff_ofBits]
  split
  · rfl
  · next hk =>
    rw [BitVec.getLsbD_of_ge v k (by omega)]
    rfl

/-- Exclusive or is addition. -/
theorem toPoly_xor (v v' : BitVec w) : toPoly (v ^^^ v') = toPoly v + toPoly v' := by
  rw [toPoly, toPoly, toPoly, ← ofBits_xor]
  exact ofBits_congr fun i _ => BitVec.getLsbD_xor

@[simp] theorem toPoly_zero : toPoly 0#w = 0 :=
  ofBits_eq_zero fun _ _ => BitVec.getLsbD_zero

/-- A word is determined by its polynomial. -/
theorem toPoly_injective : Function.Injective (@toPoly w) := by
  intro v v' h
  exact BitVec.eq_of_getLsbD_eq fun i hi => ofBits_inj h hi

/-- The degree is below the width. -/
theorem degree_toPoly_lt (v : BitVec w) : (toPoly v).degree < w :=
  degree_ofBits_lt w _

/-- A wider word. -/
theorem toPoly_setWidth {w' : ℕ} (h : w ≤ w') (v : BitVec w) :
    toPoly (v.setWidth w') = toPoly v := by
  ext k
  rw [coeff_toPoly, coeff_toPoly, BitVec.getLsbD_setWidth]
  by_cases hk : k < w'
  · rw [decide_eq_true hk, Bool.true_and]
  · rw [decide_eq_false hk, Bool.false_and, BitVec.getLsbD_of_ge v k (by omega)]

/-- A shifted word, and what it loses. -/
theorem toPoly_shift (v : BitVec w) {k : ℕ} (hk : k ≤ w) :
    X ^ k * toPoly v = toPoly (v <<< k) + X ^ w * toPoly (v >>> (w - k)) := by
  ext i
  rw [coeff_add, coeff_X_pow_mul', coeff_X_pow_mul', coeff_toPoly, coeff_toPoly, coeff_toPoly,
    BitVec.getLsbD_shiftLeft, BitVec.getLsbD_ushiftRight]
  by_cases hlow : k ≤ i
  · by_cases hin : i < w
    · rw [if_pos hlow, if_neg (by omega), add_zero, decide_eq_true hin, decide_eq_false (by omega)]
      rfl
    · have hindex : w - k + (i - w) = i - k := by omega
      rw [if_pos hlow, if_pos (by omega), hindex, decide_eq_false hin]
      exact (zero_add _).symm
  · rw [if_neg hlow, if_neg (by omega), add_zero, decide_eq_true (p := i < k) (by omega),
      Bool.not_true, Bool.and_false, Bool.false_and]
    rfl

/-- A shift which loses no bits. -/
theorem toPoly_shiftLeft {v : BitVec w} {k : ℕ} (hk : k ≤ w) (h : v >>> (w - k) = 0#w) :
    toPoly (v <<< k) = X ^ k * toPoly v := by
  rw [toPoly_shift v hk, h, toPoly_zero, mul_zero, add_zero]

/-- A word of which the lowest bits are cut off. -/
theorem toPoly_ushiftRight (v : BitVec w) (k : ℕ) :
    toPoly v = toPoly (v.setWidth k) + X ^ k * toPoly (v >>> k) := by
  ext i
  rw [coeff_add, coeff_X_pow_mul', coeff_toPoly, coeff_toPoly, coeff_toPoly,
    BitVec.getLsbD_setWidth, BitVec.getLsbD_ushiftRight]
  by_cases hlow : k ≤ i
  · have hindex : k + (i - k) = i := by omega
    rw [if_pos hlow, hindex, decide_eq_false (by omega), Bool.false_and]
    exact (zero_add _).symm
  · rw [if_neg hlow, add_zero, decide_eq_true (by omega), Bool.true_and]

/-- The word with a single bit. -/
theorem toPoly_one_shiftLeft {k : ℕ} (hk : k < w) : toPoly (1#w <<< k) = X ^ k := by
  ext i
  rw [coeff_toPoly, coeff_X_pow, BitVec.getLsbD_shiftLeft]
  by_cases hi : i = k
  · rw [if_pos hi, decide_eq_true (by omega), decide_eq_false (by omega), hi, Nat.sub_self]
    have hone : (1#w).getLsbD 0 = true := by
      simp [BitVec.getLsbD_one]
      omega
    rw [hone]
    rfl
  · rw [if_neg hi]
    have hbit : (decide (i < w) && !decide (i < k) && (1#w).getLsbD (i - k)) = false := by
      by_cases hlow : i < k
      · rw [decide_eq_true hlow, Bool.not_true, Bool.and_false, Bool.false_and]
      · have hone : (1#w).getLsbD (i - k) = false := by
          simp [BitVec.getLsbD_one]
          omega
        rw [hone, Bool.and_false]
    rw [hbit]
    rfl

/-! ## Remainders -/

/-- Every polynomial over the field of two elements is its own negative. -/
theorem sub_eq_add (p q : (ZMod 2)[X]) : p - q = p + q :=
  CharTwo.sub_eq_add p q

/-- A polynomial below the degree of the modulus, congruent to another one, is its remainder. -/
theorem modByMonic_eq {g p r : (ZMod 2)[X]} (hg : g.Monic) (hdvd : g ∣ p - r)
    (hdegree : r.degree < g.degree) :
    p %ₘ g = r := by
  rw [modByMonic_eq_of_dvd_sub hg hdvd, modByMonic_eq_self_iff hg]
  exact hdegree

end BinaryPolynomial
