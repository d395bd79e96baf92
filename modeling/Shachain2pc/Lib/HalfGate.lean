import Shachain2pc.Lib.AuthenticatedBits

/-!
# Authenticated half gates

A garbler holds a zero label for each wire, and the evaluator the label of the wire's
masked bit, which differs from the zero label by the garbler's Delta where the masked bit
is set. The garbler sends two rows for each AND gate. The evaluator adds the rows its
masked bits select, and corrects them with its own shares, which are authenticated under
the garbler's Delta. The hash of the labels is an arbitrary function.
-/

namespace HalfGate

open AuthenticatedBits

variable {V : Type*} [AddCommGroup V] [Module (ZMod 2) V] (bit : V →ₗ[ZMod 2] ZMod 2)
  (deltaA deltaB : V) (hash : V → V) (label0 label1 : V)

/-- The garbler's row for the masked bit of the left input. -/
def leftRow (in1 : Share V) : V :=
  hash label0 + hash (label0 + deltaA) + in1.key + bit in1.mac • deltaA

/-- The garbler's row for the masked bit of the right input. -/
def rightRow (in0 : Share V) : V :=
  hash label1 + hash (label1 + deltaA) + label0 + in0.key + bit in0.mac • deltaA

/-- The zero label of the output wire. -/
def outLabel (product out : Share V) : V :=
  hash label0 + hash label1 + product.key + bit product.mac • deltaA + out.key +
    bit out.mac • deltaA

/-- The label the evaluator computes from the labels `eval0` and `eval1` of the masked bits. -/
def evaluate (eval0 eval1 row0 row1 : V) (masked0 masked1 : ZMod 2)
    (in0 in1 product out : Share V) :
    V :=
  hash eval0 + hash eval1 + masked0 • row0 + masked1 • (row1 + eval0) +
    (product.mac + out.mac + masked0 • in1.mac + masked1 • in0.mac)

/-- The masked bit of the output wire, from the shares of both parties. -/
def outMasked (masked0 masked1 : ZMod 2)
    (inA0 inB0 inA1 inB1 productA productB outA outB : Share V) :
    ZMod 2 :=
  masked0 * masked1 + masked0 * (bit inA1.mac + bit inB1.mac) +
    masked1 * (bit inA0.mac + bit inB0.mac) + (bit productA.mac + bit productB.mac) +
    (bit outA.mac + bit outB.mac)

/-- The garbler's part of the check on the masked output bit. -/
def checkLeft (masked0 masked1 : ZMod 2) (in0 in1 product out : Share V) : V :=
  product.mac + out.mac + masked0 • in1.mac + masked1 • in0.mac

/-- The evaluator's part of the check on the masked output bit. -/
def checkRight (masked0 masked1 masked : ZMod 2) (in0 in1 product out : Share V) : V :=
  (masked0 * masked1 + masked + masked0 * bit in1.mac + masked1 * bit in0.mac + bit product.mac +
      bit out.mac) • deltaB +
    masked0 • in1.key + masked1 • in0.key + product.key + out.key

variable {bit deltaA deltaB hash label0 label1}

/-- The hash of an active label is the hash of the zero label, corrected where the masked bit is
set. -/
theorem hash_offset (hash : V → V) (label delta : V) (masked : ZMod 2) :
    hash (label + masked • delta) = hash label + masked • (hash label + hash (label + delta)) := by
  obtain rfl | rfl : masked = 0 ∨ masked = 1 := by decide +revert
  · rw [zero_smul, zero_smul, add_zero, add_zero]
  · rw [one_smul, one_smul, add_add_cancel_self]

/-- From the labels of the masked input bits the evaluator computes the label of the masked output
bit. -/
theorem evaluate_eq {masked0 masked1 : ZMod 2}
    {inA0 inB0 inA1 inB1 productA productB outA outB : Share V}
    (hin0 : Authenticated bit deltaA deltaB inA0 inB0)
    (hin1 : Authenticated bit deltaA deltaB inA1 inB1)
    (hproduct : Authenticated bit deltaA deltaB productA productB)
    (hout : Authenticated bit deltaA deltaB outA outB) :
    evaluate hash (label0 + masked0 • deltaA) (label1 + masked1 • deltaA)
        (leftRow bit deltaA hash label0 inA1) (rightRow bit deltaA hash label0 label1 inA0)
        masked0 masked1 inB0 inB1 productB outB =
      outLabel bit deltaA hash label0 label1 productA outA +
        outMasked bit masked0 masked1 inA0 inB0 inA1 inB1 productA productB outA outB • deltaA := by
  have h0 := hin0.mac_right
  have h1 := hin1.mac_right
  have hp := hproduct.mac_right
  have ho := hout.mac_right
  unfold evaluate leftRow rightRow outLabel outMasked
  rw [hash_offset hash label0, hash_offset hash label1]
  generalize bit inB0.mac = v0 at *
  generalize bit inB1.mac = v1 at *
  generalize bit productB.mac = vp at *
  generalize bit outB.mac = vo at *
  rw [h0, h1, hp, ho]
  match_scalars <;> grind

/-- With a product share of the input masks, the masked output bit is the product of the plain
bits under the mask of the output. -/
theorem outMasked_eq {x0 x1 masked0 masked1 : ZMod 2}
    {inA0 inB0 inA1 inB1 productA productB outA outB : Share V}
    (h0 : masked0 = x0 + (bit inA0.mac + bit inB0.mac))
    (h1 : masked1 = x1 + (bit inA1.mac + bit inB1.mac))
    (hproduct : bit productA.mac + bit productB.mac =
      (bit inA0.mac + bit inB0.mac) * (bit inA1.mac + bit inB1.mac)) :
    outMasked bit masked0 masked1 inA0 inB0 inA1 inB1 productA productB outA outB =
      x0 * x1 + (bit outA.mac + bit outB.mac) := by
  unfold outMasked
  rw [hproduct, h0, h1]
  grind

/-- The two parts of the check agree on the masked output bit. -/
theorem checkLeft_eq_checkRight {masked0 masked1 : ZMod 2}
    {inA0 inB0 inA1 inB1 productA productB outA outB : Share V}
    (hin0 : Authenticated bit deltaA deltaB inA0 inB0)
    (hin1 : Authenticated bit deltaA deltaB inA1 inB1)
    (hproduct : Authenticated bit deltaA deltaB productA productB)
    (hout : Authenticated bit deltaA deltaB outA outB) :
    checkLeft masked0 masked1 inA0 inA1 productA outA =
      checkRight bit deltaB masked0 masked1
        (outMasked bit masked0 masked1 inA0 inB0 inA1 inB1 productA productB outA outB)
        inB0 inB1 productB outB := by
  have h0 := hin0.mac_left
  have h1 := hin1.mac_left
  have hp := hproduct.mac_left
  have ho := hout.mac_left
  unfold checkLeft checkRight outMasked
  generalize bit inA0.mac = v0 at *
  generalize bit inA1.mac = v1 at *
  generalize bit productA.mac = vp at *
  generalize bit outA.mac = vo at *
  rw [h0, h1, hp, ho]
  match_scalars <;> grind

/-- The two parts of the check are equal only for the masked output bit. -/
theorem checkLeft_eq_checkRight_iff {masked0 masked1 masked : ZMod 2}
    {inA0 inB0 inA1 inB1 productA productB outA outB : Share V}
    (hin0 : Authenticated bit deltaA deltaB inA0 inB0)
    (hin1 : Authenticated bit deltaA deltaB inA1 inB1)
    (hproduct : Authenticated bit deltaA deltaB productA productB)
    (hout : Authenticated bit deltaA deltaB outA outB) (hdelta : deltaB ≠ 0) :
    checkLeft masked0 masked1 inA0 inA1 productA outA =
        checkRight bit deltaB masked0 masked1 masked inB0 inB1 productB outB ↔
      masked = outMasked bit masked0 masked1 inA0 inB0 inA1 inB1 productA productB outA outB := by
  rw [checkLeft_eq_checkRight hin0 hin1 hproduct hout]
  generalize outMasked bit masked0 masked1 inA0 inB0 inA1 inB1 productA productB outA outB = right
  have hdiff : checkRight bit deltaB masked0 masked1 masked inB0 inB1 productB outB =
      checkRight bit deltaB masked0 masked1 right inB0 inB1 productB outB +
        (masked + right) • deltaB := by
    unfold checkRight
    match_scalars <;> grind
  rw [hdiff, left_eq_add, smul_eq_zero, or_iff_left hdelta]
  exact ⟨fun h => (CharTwo.add_eq_zero.mp h), fun h => CharTwo.add_eq_zero.mpr h⟩

end HalfGate
