import Shachain2pc.Compat.SlotPass
import Shachain2pc.Lib.HalfGate
import Mathlib.Tactic.MkIffOfInductiveProp

/-!
# The wires of an honest run

What the two parties of an honest run should hold for each wire, whatever slots it is kept
in: mask shares, the garbler's zero label, and the evaluator's label and masked bit. The
values follow the gates. They satisfy the invariant of a session when the inputs, the drawn
shares, and the product shares of the AND gates do.
-/

namespace Shachain2pc

open AuthenticatedBits HalfGate

/-- A plain bit as a byte. -/
def bitByte (x : Bool) : UInt8 := if x then 1 else 0

/-- A plain bit in the two-element field. -/
def bitZ (x : Bool) : ZMod 2 := if x then 1 else 0

/-- The parts of an authenticated bit at the two parties. -/
@[mk_iff authenticatedPair_iff_and]
structure AuthenticatedPair (deltaA deltaB : Block) (alice bob : AShareBundle) : Prop where
  macAlice : alice.mac = expectedMac deltaB bob (blockLsb alice.mac)
  macBob : bob.mac = expectedMac deltaA alice (blockLsb bob.mac)
  keyAlice : blockLsb alice.key = 0
  keyBob : blockLsb bob.key = 0

/-- The invariant of a session for one wire: Bob's label is that of the masked bit. -/
@[mk_iff validWire_iff_and]
structure ValidWire (deltaA deltaB : Block) (alice bob : AShareBundle) (label0 evalLabel : Block)
    (lambda : UInt8) (plain : Bool) : Prop where
  pair : AuthenticatedPair deltaA deltaB alice bob
  masked : lambda = bitByte plain ^^^ blockLsb alice.mac ^^^ blockLsb bob.mac
  label : evalLabel = blockXor label0 (blockAnd (selectBlock lambda) deltaA)

instance (deltaA deltaB : Block) (alice bob : AShareBundle) :
    Decidable (AuthenticatedPair deltaA deltaB alice bob) :=
  decidable_of_iff _ (authenticatedPair_iff_and ..).symm

instance (deltaA deltaB : Block) (alice bob : AShareBundle) (label0 evalLabel : Block)
    (lambda : UInt8) (plain : Bool) :
    Decidable (ValidWire deltaA deltaB alice bob label0 evalLabel lambda plain) :=
  decidable_of_iff _ (validWire_iff_and ..).symm

section gates

variable (tweak : Block → Block) (delta : Block)

/-- The garbler's first row. -/
def garbledRow0 (label0 : Block) (in1 : AShareBundle) : Block :=
  blockXor (blockXor (blockXor (tweak label0) (tweak (blockXor label0 delta))) in1.key)
    (blockAnd (selectBlock (blockLsb in1.mac)) delta)

/-- The garbler's second row. -/
def garbledRow1 (label0 label1 : Block) (in0 : AShareBundle) : Block :=
  blockXor (blockXor (blockXor (blockXor (tweak label1) (tweak (blockXor label1 delta))) label0)
    in0.key) (blockAnd (selectBlock (blockLsb in0.mac)) delta)

/-- The garbler's zero label of an AND output. -/
def garbledLabel (label0 label1 : Block) (sigma out : AShareBundle) : Block :=
  blockXor (blockXor (blockXor (blockXor (blockXor (tweak label0) (tweak label1)) sigma.key)
    (blockAnd (selectBlock (blockLsb sigma.mac)) delta)) out.key)
    (blockAnd (selectBlock (blockLsb out.mac)) delta)

/-- The evaluator's label of an AND output. -/
def evaluatedLabel (eval0 eval1 row0 row1 : Block) (la lb : UInt8)
    (in0 in1 sigma out : AShareBundle) : Block :=
  blockXor (blockXor (blockXor (blockXor (tweak eval0) (tweak eval1))
    (blockAnd (selectBlock la) row0)) (blockAnd (selectBlock lb) (blockXor row1 eval0)))
    (blockXor (blockXor (blockXor sigma.mac out.mac) (blockAnd (selectBlock la) in1.mac))
      (blockAnd (selectBlock lb) in0.mac))

/-- The garbler's check value of an AND gate. -/
def garblerCheckValue (la lb : UInt8) (in0 in1 sigma out : AShareBundle) : Block :=
  blockXor (blockXor (blockXor sigma.mac out.mac) (blockAnd (selectBlock la) in1.mac))
    (blockAnd (selectBlock lb) in0.mac)

/-- The evaluator's check value of an AND gate. -/
def evaluatorCheckValue (la lb lg : UInt8) (in0 in1 sigma out : AShareBundle) : Block :=
  blockXor (blockXor (blockXor (blockXor
    (blockAnd (selectBlock ((la &&& lb) ^^^ lg ^^^ (la &&& blockLsb in1.mac) ^^^
      (lb &&& blockLsb in0.mac) ^^^ blockLsb sigma.mac ^^^ blockLsb out.mac)) delta)
    (blockAnd (selectBlock la) in1.key)) (blockAnd (selectBlock lb) in0.key)) sigma.key) out.key

end gates

/-- An honest run of a program: the inputs of the parties, what the triple pools give them, and
the hash state they start from. -/
structure HonestRun (M : Type) where
  program : Ag2pcProgram
  deltaA : Block
  deltaB : Block
  inputsA : Ag2pcSecureWires
  inputsB : Ag2pcSecureWires
  drawA : ℕ → List AShareBundle
  drawB : ℕ → List AShareBundle
  sigmaA : List AShareBundle
  sigmaB : List AShareBundle
  mitc : M

namespace HonestRun

variable {M : Type} (H : TweakableHash M) (R : HonestRun M)

/-- Alice's mask share of each wire. -/
def shareA : ℕ → AShareBundle := R.program.shares R.drawA R.inputsA

/-- Bob's mask share of each wire. -/
def shareB : ℕ → AShareBundle := R.program.shares R.drawB R.inputsB

/-- The hash function of an AND gate. -/
def tweakAt (andIndex : ℕ) : Block → Block := H.tweak (H.after R.mitc andIndex)

/-- The zero label of a gate's output. -/
def labelFn (step : GateStep) (x y : Block) : Block :=
  match step.gate.typ with
  | .and => garbledLabel (R.tweakAt H step.andIndex) R.deltaA x y
      (R.sigmaA.getD step.andIndex default) (R.shareA (R.program.numInputs + step.index))
  | .xor => blockXor x y
  | .inv => blockXor x R.deltaA

/-- Alice's zero label of each wire. -/
def label0 : ℕ → Block :=
  R.program.wires (R.labelFn H) fun w => R.inputsA.label0.getD w Block.zero

/-- The first row of an AND gate. -/
def row0 (step : GateStep) : Block :=
  garbledRow0 (R.tweakAt H step.andIndex) R.deltaA (R.label0 H step.gate.in0)
    (R.shareA step.gate.right)

/-- The second row of an AND gate. -/
def row1 (step : GateStep) : Block :=
  garbledRow1 (R.tweakAt H step.andIndex) R.deltaA (R.label0 H step.gate.in0)
    (R.label0 H step.gate.right) (R.shareA step.gate.in0)

/-- Bob's label and masked bit of a gate's output. -/
def evalFn (step : GateStep) (x y : Block × UInt8) : Block × UInt8 :=
  match step.gate.typ with
  | .and =>
    let t := evaluatedLabel (R.tweakAt H step.andIndex) x.1 y.1 (R.row0 H step) (R.row1 H step)
      x.2 y.2 (R.shareB step.gate.in0) (R.shareB step.gate.right)
      (R.sigmaB.getD step.andIndex default) (R.shareB (R.program.numInputs + step.index))
    (t, (blockLsb1 (R.label0 H (R.program.numInputs + step.index)) ^^^ blockLsb1 t) &&& 1)
  | .xor => (blockXor x.1 y.1, (x.2 ^^^ y.2) &&& 1)
  | .inv => (x.1, (x.2 ^^^ 1) &&& 1)

/-- Bob's label and masked bit of each wire. -/
def evals : ℕ → Block × UInt8 :=
  R.program.wires (R.evalFn H) fun w =>
    (R.inputsB.evalLabel.getD w Block.zero, R.inputsB.lambda.getD w 0)

/-- Bob's label of each wire. -/
def evalLabel (w : ℕ) : Block := (R.evals H w).1

/-- Bob's masked bit of each wire. -/
def masked (w : ℕ) : UInt8 := (R.evals H w).2

variable {H R}

/-- Alice's mask shares follow the gates. -/
theorem shareA_gate (hwf : R.program.WellFormed) {step : GateStep}
    (hstep : step ∈ gateSteps 0 0 R.program.gates) :
    R.shareA (R.program.numInputs + step.index) =
      step.share R.drawA (R.shareA step.gate.in0) (R.shareA step.gate.right) :=
  hwf.wires_gate hstep

/-- Bob's mask shares follow the gates. -/
theorem shareB_gate (hwf : R.program.WellFormed) {step : GateStep}
    (hstep : step ∈ gateSteps 0 0 R.program.gates) :
    R.shareB (R.program.numInputs + step.index) =
      step.share R.drawB (R.shareB step.gate.in0) (R.shareB step.gate.right) :=
  hwf.wires_gate hstep

/-- Alice's labels follow the gates. -/
theorem label0_gate (hwf : R.program.WellFormed) {step : GateStep}
    (hstep : step ∈ gateSteps 0 0 R.program.gates) :
    R.label0 H (R.program.numInputs + step.index) =
      R.labelFn H step (R.label0 H step.gate.in0) (R.label0 H step.gate.right) :=
  hwf.wires_gate hstep

/-- Bob's labels and masked bits follow the gates. -/
theorem evals_gate (hwf : R.program.WellFormed) {step : GateStep}
    (hstep : step ∈ gateSteps 0 0 R.program.gates) :
    R.evals H (R.program.numInputs + step.index) =
      R.evalFn H step (R.evals H step.gate.in0) (R.evals H step.gate.right) :=
  hwf.wires_gate hstep

/-- The plain values follow the gates. -/
theorem plainWires_gate (hwf : R.program.WellFormed) (plain : List Bool) {step : GateStep}
    (hstep : step ∈ gateSteps 0 0 R.program.gates) :
    R.program.plainWires plain (R.program.numInputs + step.index) =
      step.plain (R.program.plainWires plain step.gate.in0)
        (R.program.plainWires plain step.gate.right) :=
  hwf.wires_gate hstep

end HonestRun

/-- The session invariant for the inputs or outputs of a program. -/
structure ValidWires (deltaA deltaB : Block) (a b : Ag2pcSecureWires) (plain : List Bool) :
    Prop where
  lambdaA : a.lambda.length = plain.length
  lambdaB : b.lambda.length = plain.length
  bundleA : a.wireBundle.length = plain.length
  bundleB : b.wireBundle.length = plain.length
  label0 : a.label0.length = plain.length
  evalLabel : b.evalLabel.length = plain.length
  wires : ∀ w < plain.length, ValidWire deltaA deltaB (a.wireBundle.getD w default)
    (b.wireBundle.getD w default) (a.label0.getD w Block.zero) (b.evalLabel.getD w Block.zero)
    (b.lambda.getD w 0) (plain.getD w false)

/-- The honest run starts from valid inputs, which the parties agree on, and its triple pools give
them authenticated shares. -/
structure HonestRun.Valid {M : Type} (R : HonestRun M) (plain : List Bool) : Prop where
  program : R.program.WellFormed
  width : plain.length = R.program.numInputs
  inputs : ValidWires R.deltaA R.deltaB R.inputsA R.inputsB plain
  agree : R.inputsA.lambda = R.inputsB.lambda
  delta0 : blockLsb R.deltaA = 1
  delta1 : blockLsb1 R.deltaA = 1
  batchesA : FullBatches R.drawA
  batchesB : FullBatches R.drawB
  drawn : ∀ k, AuthenticatedPair R.deltaA R.deltaB (drawnShare R.drawA k) (drawnShare R.drawB k)
  sigma : ∀ k < countAnds R.program.gates, AuthenticatedPair R.deltaA R.deltaB
    (R.sigmaA.getD k default) (R.sigmaB.getD k default)

/-- The parties start from authenticated shares of their inputs, agree on the masked bits, and their
triple pools give them authenticated shares. -/
structure HonestRun.Shared {M : Type} (R : HonestRun M) : Prop where
  program : R.program.WellFormed
  width : R.inputsA.lambda.length = R.program.numInputs
  agree : R.inputsA.lambda = R.inputsB.lambda
  inputs : ∀ w < R.program.numInputs, AuthenticatedPair R.deltaA R.deltaB
    (R.inputsA.wireBundle.getD w default) (R.inputsB.wireBundle.getD w default)
  batchesA : FullBatches R.drawA
  batchesB : FullBatches R.drawB
  drawn : ∀ k, AuthenticatedPair R.deltaA R.deltaB (drawnShare R.drawA k) (drawnShare R.drawB k)
  sigma : ∀ k < countAnds R.program.gates, AuthenticatedPair R.deltaA R.deltaB
    (R.sigmaA.getD k default) (R.sigmaB.getD k default)

/-- A valid run starts from authenticated shares. -/
theorem HonestRun.Valid.shared {M : Type} {R : HonestRun M} {plain : List Bool}
    (h : R.Valid plain) :
    R.Shared :=
  ⟨h.program, h.inputs.lambdaA.trans h.width, h.agree,
    fun w hw => (h.inputs.wires w (h.width ▸ hw)).pair, h.batchesA, h.batchesB, h.drawn, h.sigma⟩

/-- The product shares multiply the mask bits of the inputs of each AND gate. -/
def HonestRun.Products {M : Type} (R : HonestRun M) : Prop :=
  ∀ step ∈ R.program.andSteps,
    blockLsb (R.sigmaA.getD step.andIndex default).mac ^^^
        blockLsb (R.sigmaB.getD step.andIndex default).mac =
      (blockLsb (R.shareA step.gate.in0).mac ^^^ blockLsb (R.shareB step.gate.in0).mac) &&&
        (blockLsb (R.shareA step.gate.right).mac ^^^ blockLsb (R.shareB step.gate.right).mac)

variable {deltaA deltaB : Block} {alice bob : AShareBundle} {label evalLabel : Block}
  {masked : UInt8} {plain : Bool}

@[simp] theorem bitAt_bitByte (x : Bool) : bitAt (bitByte x) 0 = bitZ x := by
  cases x <;> decide

/-- A plain bit is a single bit. -/
theorem bitByte_and_one (x : Bool) : bitByte x &&& 1 = bitByte x := by
  cases x <;> decide

/-- A single bit is the byte of whether it is set. -/
theorem bitByte_ne_zero {b : UInt8} (h : b &&& 1 = b) : bitByte (b != 0) = b := by
  rcases bit_cases h with rfl | rfl <;> decide

/-- Blocks of shares belong together when their bits do. -/
theorem authenticatedPair_iff : AuthenticatedPair deltaA deltaB alice bob ↔
    Authenticated lsb (blockVec deltaA) (blockVec deltaB) alice.share bob.share := by
  have hkey (b : Block) : blockLsb b = 0 ↔ lsb (blockVec b) = 0 := by
    rw [bit_eq_iff (blockLsb_and_one b) (by decide), bitAt_blockLsb, bitAt_zero]
  have hmac (a b d : Block) (bit : UInt8) : a = blockXor b (blockAnd (selectBlock bit) d) ↔
      blockVec a = blockVec b + bitAt bit 0 • blockVec d := by
    rw [← blockVec_and_selectBlock, ← blockVec_xor, blockVec_injective.eq_iff]
  constructor
  · intro h
    refine ⟨?_, ?_, (hkey _).mp h.keyAlice, (hkey _).mp h.keyBob⟩
    · simpa using (hmac _ _ _ _).mp h.macAlice
    · simpa using (hmac _ _ _ _).mp h.macBob
  · intro h
    refine ⟨(hmac _ _ _ _).mpr ?_, (hmac _ _ _ _).mpr ?_, (hkey _).mpr h.key_left,
      (hkey _).mpr h.key_right⟩
    · simpa using h.mac_left
    · simpa using h.mac_right

/-- The session invariant of a wire, over the bits of blocks. -/
theorem validWire_iff : ValidWire deltaA deltaB alice bob label evalLabel masked plain ↔
    Authenticated lsb (blockVec deltaA) (blockVec deltaB) alice.share bob.share ∧
      masked &&& 1 = masked ∧
      bitAt masked 0 = bitZ plain + (lsb (blockVec alice.mac) + lsb (blockVec bob.mac)) ∧
      blockVec evalLabel = blockVec label + bitAt masked 0 • blockVec deltaA := by
  have hbit : (bitByte plain ^^^ blockLsb alice.mac ^^^ blockLsb bob.mac) &&& 1 =
      bitByte plain ^^^ blockLsb alice.mac ^^^ blockLsb bob.mac :=
    bit_xor (bit_xor (bitByte_and_one _) (blockLsb_and_one _)) (blockLsb_and_one _)
  have hlabel : evalLabel = blockXor label (blockAnd (selectBlock masked) deltaA) ↔
      blockVec evalLabel = blockVec label + bitAt masked 0 • blockVec deltaA := by
    rw [← blockVec_and_selectBlock, ← blockVec_xor, blockVec_injective.eq_iff]
  have hmasked (h : masked &&& 1 = masked) :
      masked = bitByte plain ^^^ blockLsb alice.mac ^^^ blockLsb bob.mac ↔
        bitAt masked 0 = bitZ plain + (lsb (blockVec alice.mac) + lsb (blockVec bob.mac)) := by
    rw [bit_eq_iff h hbit]
    simp [add_assoc]
  constructor
  · intro h
    have hsingle : masked &&& 1 = masked := by rw [h.masked, hbit]
    exact ⟨authenticatedPair_iff.mp h.pair, hsingle, (hmasked hsingle).mp h.masked,
      hlabel.mp h.label⟩
  · rintro ⟨hpair, hsingle, hbits, hvec⟩
    exact ⟨authenticatedPair_iff.mpr hpair, (hmasked hsingle).mpr hbits, hlabel.mpr hvec⟩

end Shachain2pc
