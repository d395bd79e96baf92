import Shachain2pc.Compat.JointWires

/-!
# The session invariant along the gates

Each gate keeps the session invariant: XOR and INV gates by linearity of shares and labels,
AND gates by the half-gate identities, with the permutation bit read off the second bit of
Alice's Delta. The check values of the two parties agree at every AND gate.
-/

namespace Shachain2pc

open AuthenticatedBits HalfGate

variable {tweak : Block → Block} {deltaA deltaB : Block} {a0 b0 a1 b1 : AShareBundle}
  {l0 e0 l1 e1 : Block} {m0 m1 : UInt8} {x0 x1 : Bool}

/-- A function of blocks as a function of their bits. -/
noncomputable def hashVec (tweak : Block → Block) (v : Fin 128 → ZMod 2) : Fin 128 → ZMod 2 :=
  blockVec (tweak (Function.invFun blockVec v))

@[simp] theorem hashVec_blockVec (tweak : Block → Block) (b : Block) :
    hashVec tweak (blockVec b) = blockVec (tweak b) := by
  rw [hashVec, Function.leftInverse_invFun blockVec_injective]

/-- The first row, over the bits of blocks. -/
theorem blockVec_garbledRow0 (tweak : Block → Block) (delta label0 : Block) (in1 : AShareBundle) :
    blockVec (garbledRow0 tweak delta label0 in1) =
      leftRow lsb (blockVec delta) (hashVec tweak) (blockVec label0) in1.share := by
  rw [leftRow, ← blockVec_xor label0, hashVec_blockVec, hashVec_blockVec]
  simp [garbledRow0]

/-- The second row, over the bits of blocks. -/
theorem blockVec_garbledRow1 (tweak : Block → Block) (delta label0 label1 : Block)
    (in0 : AShareBundle) :
    blockVec (garbledRow1 tweak delta label0 label1 in0) =
      rightRow lsb (blockVec delta) (hashVec tweak) (blockVec label0) (blockVec label1)
        in0.share := by
  rw [rightRow, ← blockVec_xor label1, hashVec_blockVec, hashVec_blockVec]
  simp [garbledRow1]

/-- The zero label of an AND output, over the bits of blocks. -/
theorem blockVec_garbledLabel (tweak : Block → Block) (delta label0 label1 : Block)
    (sigma out : AShareBundle) :
    blockVec (garbledLabel tweak delta label0 label1 sigma out) =
      outLabel lsb (blockVec delta) (hashVec tweak) (blockVec label0) (blockVec label1)
        sigma.share out.share := by
  rw [outLabel, hashVec_blockVec, hashVec_blockVec]
  simp [garbledLabel]

/-- The evaluator's label of an AND output, over the bits of blocks. -/
theorem blockVec_evaluatedLabel (tweak : Block → Block) (eval0 eval1 row0 row1 : Block)
    (la lb : UInt8) (in0 in1 sigma out : AShareBundle) :
    blockVec (evaluatedLabel tweak eval0 eval1 row0 row1 la lb in0 in1 sigma out) =
      evaluate (hashVec tweak) (blockVec eval0) (blockVec eval1) (blockVec row0) (blockVec row1)
        (bitAt la 0) (bitAt lb 0) in0.share in1.share sigma.share out.share := by
  rw [evaluate, hashVec_blockVec, hashVec_blockVec]
  simp [evaluatedLabel]

/-- The garbler's check value, over the bits of blocks. -/
theorem blockVec_garblerCheckValue (la lb : UInt8) (in0 in1 sigma out : AShareBundle) :
    blockVec (garblerCheckValue la lb in0 in1 sigma out) =
      checkLeft (bitAt la 0) (bitAt lb 0) in0.share in1.share sigma.share out.share := by
  simp [garblerCheckValue, checkLeft]

/-- The evaluator's check value, over the bits of blocks. -/
theorem blockVec_evaluatorCheckValue (delta : Block) (la lb lg : UInt8)
    (in0 in1 sigma out : AShareBundle) :
    blockVec (evaluatorCheckValue delta la lb lg in0 in1 sigma out) =
      checkRight lsb (blockVec delta) (bitAt la 0) (bitAt lb 0) (bitAt lg 0) in0.share in1.share
        sigma.share out.share := by
  simp [evaluatorCheckValue, checkRight]

/-- Adding two authenticated pairs. -/
theorem AuthenticatedPair.xor (h : AuthenticatedPair deltaA deltaB a0 b0)
    (h' : AuthenticatedPair deltaA deltaB a1 b1) :
    AuthenticatedPair deltaA deltaB (a0.xor a1) (b0.xor b1) := by
  rw [authenticatedPair_iff] at h h' ⊢
  have hshare (a b : AShareBundle) : (a.xor b).share = a.share.add b.share := by
    simp [AShareBundle.xor, AShareBundle.share, Share.add]
  rw [hshare, hshare]
  exact h.add h'

/-- An XOR gate keeps the session invariant. -/
theorem ValidWire.xor (h0 : ValidWire deltaA deltaB a0 b0 l0 e0 m0 x0)
    (h1 : ValidWire deltaA deltaB a1 b1 l1 e1 m1 x1) :
    ValidWire deltaA deltaB (a0.xor a1) (b0.xor b1) (blockXor l0 l1) (blockXor e0 e1)
      ((m0 ^^^ m1) &&& 1) (x0 ^^ x1) := by
  have hpair := h0.pair.xor h1.pair
  obtain ⟨-, hs0, hb0, hv0⟩ := validWire_iff.mp h0
  obtain ⟨-, hs1, hb1, hv1⟩ := validWire_iff.mp h1
  have hx : bitZ (x0 ^^ x1) = bitZ x0 + bitZ x1 := by
    cases x0 <;> cases x1 <;> decide
  refine validWire_iff.mpr ⟨authenticatedPair_iff.mp hpair, ?_, ?_, ?_⟩
  · rw [bit_xor hs0 hs1, bit_xor hs0 hs1]
  · simp only [AShareBundle.xor, bitAt_and, bitAt_xor, bitAt_one_zero, mul_one,
      blockVec_xor, map_add, hb0, hb1, hx]
    ring
  · simp only [bitAt_and, bitAt_xor, bitAt_one_zero, mul_one, blockVec_xor, hv0, hv1, add_smul]
    abel

/-- An INV gate keeps the session invariant. -/
theorem ValidWire.inv (h : ValidWire deltaA deltaB a0 b0 l0 e0 m0 x0) :
    ValidWire deltaA deltaB a0 b0 (blockXor l0 deltaA) e0 ((m0 ^^^ 1) &&& 1) (!x0) := by
  obtain ⟨hpair, hs, hb, hv⟩ := validWire_iff.mp h
  have hx : bitZ (!x0) = bitZ x0 + 1 := by
    cases x0 <;> decide
  refine validWire_iff.mpr ⟨hpair, ?_, ?_, ?_⟩
  · rw [UInt8.and_assoc, UInt8.and_self]
  · simp only [bitAt_and, bitAt_xor, bitAt_one_zero, mul_one, hb, hx]
    ring
  · simp only [bitAt_and, bitAt_xor, bitAt_one_zero, mul_one, blockVec_xor, hv, add_smul, one_smul]
    match_scalars <;> grind

/-- The masked bit of an AND output, from the shares of both parties. -/
theorem evaluatedLabel_eq (tweak : Block → Block) {sigmaA sigmaB outA outB : AShareBundle}
    (h0 : ValidWire deltaA deltaB a0 b0 l0 e0 m0 x0)
    (h1 : ValidWire deltaA deltaB a1 b1 l1 e1 m1 x1)
    (hsigma : AuthenticatedPair deltaA deltaB sigmaA sigmaB)
    (hout : AuthenticatedPair deltaA deltaB outA outB) :
    blockVec (evaluatedLabel tweak e0 e1 (garbledRow0 tweak deltaA l0 a1)
        (garbledRow1 tweak deltaA l0 l1 a0) m0 m1 b0 b1 sigmaB outB) =
      blockVec (garbledLabel tweak deltaA l0 l1 sigmaA outA) +
        outMasked lsb (bitAt m0 0) (bitAt m1 0) a0.share b0.share a1.share b1.share sigmaA.share
          sigmaB.share outA.share outB.share • blockVec deltaA := by
  obtain ⟨hpair0, -, -, hv0⟩ := validWire_iff.mp h0
  obtain ⟨hpair1, -, -, hv1⟩ := validWire_iff.mp h1
  rw [blockVec_evaluatedLabel, blockVec_garbledRow0, blockVec_garbledRow1, blockVec_garbledLabel,
    hv0, hv1]
  exact evaluate_eq hpair0 hpair1 (authenticatedPair_iff.mp hsigma) (authenticatedPair_iff.mp hout)

/-- The bit Bob finds with the permutation bit is the masked bit of the output. -/
theorem bitAt_permuted {label eval : Block} {masked : ZMod 2} (hdelta : blockLsb1 deltaA = 1)
    (h : blockVec eval = blockVec label + masked • blockVec deltaA) :
    bitAt ((blockLsb1 label ^^^ blockLsb1 eval) &&& 1) 0 = masked := by
  have hone : lsb1 (blockVec deltaA) = 1 := by
    rw [← bitAt_blockLsb1, hdelta, bitAt_one_zero]
  rw [bitAt_and, bitAt_one_zero, mul_one, bitAt_xor, bitAt_blockLsb1, bitAt_blockLsb1, h, map_add,
    map_smul, hone, smul_eq_mul, mul_one, add_add_cancel_self]

/-- An AND gate keeps the session invariant. -/
theorem ValidWire.and {sigmaA sigmaB outA outB : AShareBundle}
    (h0 : ValidWire deltaA deltaB a0 b0 l0 e0 m0 x0)
    (h1 : ValidWire deltaA deltaB a1 b1 l1 e1 m1 x1)
    (hsigma : AuthenticatedPair deltaA deltaB sigmaA sigmaB)
    (hout : AuthenticatedPair deltaA deltaB outA outB)
    (hproduct : blockLsb sigmaA.mac ^^^ blockLsb sigmaB.mac =
      (blockLsb a0.mac ^^^ blockLsb b0.mac) &&& (blockLsb a1.mac ^^^ blockLsb b1.mac))
    (hdelta : blockLsb1 deltaA = 1) {label eval : Block}
    (hlabel : label = garbledLabel tweak deltaA l0 l1 sigmaA outA)
    (heval : eval = evaluatedLabel tweak e0 e1 (garbledRow0 tweak deltaA l0 a1)
      (garbledRow1 tweak deltaA l0 l1 a0) m0 m1 b0 b1 sigmaB outB) :
    ValidWire deltaA deltaB outA outB label eval ((blockLsb1 label ^^^ blockLsb1 eval) &&& 1)
      (x0 && x1) := by
  have hvec := evaluatedLabel_eq tweak h0 h1 hsigma hout
  rw [← hlabel, ← heval] at hvec
  obtain ⟨-, -, hb0, -⟩ := validWire_iff.mp h0
  obtain ⟨-, -, hb1, -⟩ := validWire_iff.mp h1
  have hx : bitZ (x0 && x1) = bitZ x0 * bitZ x1 := by
    cases x0 <;> cases x1 <;> decide
  have hbits := congrArg (fun b => bitAt b 0) hproduct
  simp only [bitAt_xor, bitAt_and, bitAt_blockLsb] at hbits
  have hmasked := bitAt_permuted hdelta hvec
  refine validWire_iff.mpr ⟨authenticatedPair_iff.mp hout, ?_, ?_, ?_⟩
  · rw [UInt8.and_assoc, UInt8.and_self]
  · rw [hmasked, outMasked_eq hb0 hb1 hbits, hx]
    rfl
  · rw [hmasked, hvec]

/-- The parties' check values of an AND gate agree. -/
theorem checkValue_eq {sigmaA sigmaB outA outB : AShareBundle}
    (h0 : ValidWire deltaA deltaB a0 b0 l0 e0 m0 x0)
    (h1 : ValidWire deltaA deltaB a1 b1 l1 e1 m1 x1)
    (hsigma : AuthenticatedPair deltaA deltaB sigmaA sigmaB)
    (hout : AuthenticatedPair deltaA deltaB outA outB)
    (hdelta : blockLsb1 deltaA = 1) {label eval : Block}
    (hlabel : label = garbledLabel tweak deltaA l0 l1 sigmaA outA)
    (heval : eval = evaluatedLabel tweak e0 e1 (garbledRow0 tweak deltaA l0 a1)
      (garbledRow1 tweak deltaA l0 l1 a0) m0 m1 b0 b1 sigmaB outB) :
    garblerCheckValue m0 m1 a0 a1 sigmaA outA =
      evaluatorCheckValue deltaB m0 m1 ((blockLsb1 label ^^^ blockLsb1 eval) &&& 1) b0 b1 sigmaB
        outB := by
  have hvec := evaluatedLabel_eq tweak h0 h1 hsigma hout
  rw [← hlabel, ← heval] at hvec
  obtain ⟨hpair0, -, -, -⟩ := validWire_iff.mp h0
  obtain ⟨hpair1, -, -, -⟩ := validWire_iff.mp h1
  apply blockVec_injective
  rw [blockVec_garblerCheckValue, blockVec_evaluatorCheckValue, bitAt_permuted hdelta hvec]
  exact checkLeft_eq_checkRight hpair0 hpair1 (authenticatedPair_iff.mp hsigma)
    (authenticatedPair_iff.mp hout)

namespace HonestRun

variable {M : Type} {H : TweakableHash M} {R : HonestRun M} {plain : List Bool}

/-- The session invariant of one wire of an honest run. -/
def ValidAt (H : TweakableHash M) (R : HonestRun M) (plain : List Bool) (w : ℕ) : Prop :=
  ValidWire R.deltaA R.deltaB (R.shareA w) (R.shareB w) (R.label0 H w) (R.evalLabel H w)
    (R.masked H w) (R.program.plainWires plain w)

/-- A gate of an honest run keeps the session invariant. -/
theorem Valid.gate (h : R.Valid plain) (hproducts : R.Products) {step : GateStep}
    (hstep : step ∈ gateSteps 0 0 R.program.gates)
    (h0 : ValidAt H R plain step.gate.in0) (h1 : ValidAt H R plain step.gate.right) :
    ValidAt H R plain (R.program.numInputs + step.index) := by
  have heval := evals_gate (H := H) h.program hstep
  have hplain := plainWires_gate h.program plain hstep
  have hshareA := shareA_gate h.program hstep
  have hshareB := shareB_gate h.program hstep
  have hlabel := label0_gate (H := H) h.program hstep
  unfold ValidAt at h0 h1 ⊢
  cases htyp : step.gate.typ with
  | xor =>
    simp only [GateStep.share, GateStep.plain, labelFn, evalFn, htyp]
      at hshareA hshareB hlabel heval hplain
    rw [hplain, hshareA, hshareB, hlabel, evalLabel, masked, heval]
    exact h0.xor h1
  | inv =>
    simp only [GateStep.share, GateStep.plain, labelFn, evalFn, htyp]
      at hshareA hshareB hlabel heval hplain
    rw [hplain, hshareA, hshareB, hlabel, evalLabel, masked, heval]
    exact h0.inv
  | and =>
    have hmem : step ∈ R.program.andSteps := List.mem_filter.mpr ⟨hstep, by simp [htyp]⟩
    have hlt : step.andIndex < countAnds R.program.gates := by
      rw [← length_filter_gateSteps 0 0]
      exact (List.getElem?_eq_some_iff.mp (Ag2pcProgram.getElem?_andSteps hstep htyp)).1
    have hout : AuthenticatedPair R.deltaA R.deltaB (R.shareA (R.program.numInputs + step.index))
        (R.shareB (R.program.numInputs + step.index)) := by
      simp only [GateStep.share, htyp] at hshareA hshareB
      rw [hshareA, hshareB]
      exact h.drawn step.andIndex
    simp only [GateStep.plain, labelFn, evalFn, htyp] at hlabel heval hplain
    have hfirst := congrArg Prod.fst heval
    have hsecond := congrArg Prod.snd heval
    dsimp only at hfirst hsecond
    rw [← hfirst] at hsecond
    rw [hplain, masked, hsecond]
    exact h0.and h1 (h.sigma _ hlt) hout (hproducts _ hmem) h.delta1 hlabel hfirst

/-- Every wire of an honest run satisfies the session invariant. -/
theorem Valid.wire (H : TweakableHash M) (h : R.Valid plain) (hproducts : R.Products) {w : ℕ}
    (hw : w < R.program.numInputs + R.program.gates.length) :
    ValidAt H R plain w := by
  induction w using Nat.strong_induction_on with
  | _ w ih =>
    by_cases hinput : w < R.program.numInputs
    · have hvalid := h.inputs.wires w (h.width ▸ hinput)
      simp only [ValidAt, shareA, shareB, Ag2pcProgram.shares, label0, evalLabel, masked, evals,
        Ag2pcProgram.plainWires, Ag2pcProgram.wires_input hinput]
      exact hvalid
    · obtain ⟨step, hstep, hindex⟩ := exists_mem_gateSteps 0 0 R.program.gates
        (show w - R.program.numInputs < R.program.gates.length by omega)
      have hout : w = R.program.numInputs + step.index := by omega
      have hread := h.program.reads _ _ (getElem?_of_mem_gateSteps hstep)
      have hlt0 := hread _ step.gate.right_mem.1
      have hlt1 := hread _ step.gate.right_mem.2
      have h0 := ih step.gate.in0 (by omega) (by omega)
      have h1 := ih step.gate.right (by omega) (by omega)
      subst hout
      exact h.gate hproducts hstep h0 h1

end HonestRun

end Shachain2pc
