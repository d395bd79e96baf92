import Shachain2pc.Compat.HalfGateRun

/-!
# The masked bits of the outputs

Alice computes the masked bits of gate outputs in her second pass, which she skips for
programs without AND gates. Her masked bits then stay zero, and agree with Bob's only where
his are zero too.
-/

namespace Shachain2pc

variable {M : Type} {H : TweakableHash M} {R : HonestRun M} {plain : List Bool}

/-- The masked bits of inputs, as plain bits. -/
def lambdaBits (wires : Ag2pcSecureWires) : List Bool := wires.lambda.map fun b => b != 0

/-- The masked bit of an XOR gate. -/
theorem bitByte_xor (x y : Bool) : (bitByte x ^^^ bitByte y) &&& 1 = bitByte (x ^^ y) := by
  cases x <;> cases y <;> decide

/-- The masked bit of an inverter. -/
theorem bitByte_not (x : Bool) : (bitByte x ^^^ 1) &&& 1 = bitByte !x := by
  cases x <;> decide

namespace HonestRun

/-- A program without AND gates has no AND steps. -/
theorem typ_ne_and (hands : countAnds R.program.gates = 0) {step : GateStep}
    (hstep : step ∈ gateSteps 0 0 R.program.gates) : step.gate.typ ≠ .and := by
  intro htyp
  have hmem := List.mem_of_getElem? (getElem?_of_mem_gateSteps hstep)
  rw [countAnds, List.length_eq_zero_iff, List.filter_eq_nil_iff] at hands
  exact hands _ hmem (decide_eq_true htyp)

/-- Without AND gates, the masked bits follow the gates as plain bits do. -/
theorem Valid.masked_eq (H : TweakableHash M) (h : R.Valid plain)
    (hands : countAnds R.program.gates = 0) {w : ℕ}
    (hw : w < R.program.numInputs + R.program.gates.length) :
    R.masked H w = bitByte (R.program.plainWires (lambdaBits R.inputsA) w) := by
  induction w using Nat.strong_induction_on with
  | _ w ih =>
    by_cases hinput : w < R.program.numInputs
    · have hvalid := h.inputs.wires w (h.width ▸ hinput)
      obtain ⟨-, hsingle, -, -⟩ := validWire_iff.mp hvalid
      have hlt : w < R.inputsB.lambda.length := by rwa [h.inputs.lambdaB, h.width]
      rw [masked, evals, Ag2pcProgram.plainWires, Ag2pcProgram.wires_input hinput,
        Ag2pcProgram.wires_input hinput, lambdaBits, h.agree]
      have hget : (R.inputsB.lambda.map fun b => b != 0).getD w false =
          (R.inputsB.lambda.getD w 0 != 0) := by
        rw [List.getD_eq_getElem _ _ (by rwa [List.length_map]), List.getElem_map,
          List.getD_eq_getElem _ _ hlt]
      rw [hget, bitByte_ne_zero hsingle]
    · obtain ⟨step, hstep, hindex⟩ := exists_mem_gateSteps 0 0 R.program.gates
        (j := w - R.program.numInputs) (by omega)
      have hout : w = R.program.numInputs + step.index := by omega
      have hread := h.program.reads _ _ (getElem?_of_mem_gateSteps hstep)
      have hlt0 := hread _ step.gate.right_mem.1
      have hlt1 := hread _ step.gate.right_mem.2
      have h0 := ih step.gate.in0 (by omega) (by omega)
      have h1 := ih step.gate.right (by omega) (by omega)
      subst hout
      have heval := evals_gate (H := H) h.program hstep
      have hplain := plainWires_gate h.program (lambdaBits R.inputsA) hstep
      rw [masked] at h0 h1
      rw [masked, heval, hplain, evalFn, GateStep.plain]
      cases htyp : step.gate.typ with
      | and => exact absurd htyp (typ_ne_and hands hstep)
      | xor =>
        rw [show step.gate.right = step.gate.in1 by simp [Ag2pcProgramGate.right, htyp]] at h1 ⊢
        simp only [h0, h1, bitByte_xor]
      | inv =>
        simp only [h0, bitByte_not]

/-- Without AND gates, Alice gathers the masked bit of an output if and only if it is an input or
its masked bit is zero. -/
theorem Valid.gatheredMask_eq_iff (H : TweakableHash M) (h : R.Valid plain)
    (hands : countAnds R.program.gates = 0) {w : ℕ}
    (hw : w < R.program.numInputs + R.program.gates.length) :
    R.gatheredMask H w = R.masked H w ↔
      (R.program.numInputs ≤ w → R.program.plainWires (lambdaBits R.inputsA) w = false) := by
  rw [gatheredMask, if_neg (by omega)]
  by_cases hinput : w < R.program.numInputs
  · rw [if_pos hinput, masked, evals, Ag2pcProgram.wires_input hinput, h.agree]
    exact ⟨fun _ hle => absurd hle hinput.not_ge, fun _ => rfl⟩
  · rw [if_neg hinput, h.masked_eq H hands hw]
    constructor
    · intro hzero _
      cases hbit : R.program.plainWires (lambdaBits R.inputsA) w with
      | false => rfl
      | true =>
        rw [hbit] at hzero
        exact absurd hzero (by decide)
    · intro hfalse
      rw [hfalse (not_lt.mp hinput)]
      rfl

end HonestRun

/-- The parties' outputs can be used as inputs together if and only if the program has an AND gate
or the masked bits of its gate outputs are zero. -/
theorem outputLambda_eq_iff (H : TweakableHash M) (sha256 : List UInt8 → Value32) (R : HonestRun M)
    (plain : List Bool) (h : R.Valid plain) (hsigma : R.CorrectSigma) :
    ∃ a b, R.run H sha256 = some (.ok (a, b)) ∧
      ((ValidWires R.deltaA R.deltaB a b (R.program.evalPlain plain) ∧ a.lambda = b.lambda) ↔
        (0 < countAnds R.program.gates ∨ ∀ w ∈ R.program.outputs, R.program.numInputs ≤ w →
          R.program.plainWires (lambdaBits R.inputsA) w = false)) := by
  refine ⟨_, _, h.run H sha256 hsigma, ?_⟩
  rw [and_iff_right (h.outputs H (h.shared.products hsigma) _), List.map_inj_left]
  by_cases hands : 0 < countAnds R.program.gates
  · exact ⟨fun _ => .inl hands, fun _ w _ => if_pos hands⟩
  · have hzero : countAnds R.program.gates = 0 := Nat.eq_zero_of_not_pos hands
    rw [or_iff_right hands]
    have hout (w : ℕ) (hw : w ∈ R.program.outputs) :=
      h.gatheredMask_eq_iff H hzero (h.program.numWires ▸ h.program.outputs w hw)
    exact ⟨fun heq w hw => (hout w hw).mp (heq w hw), fun hfalse w hw =>
      (hout w hw).mpr (hfalse w hw)⟩

/-- A program of one XOR gate. -/
def xorProgram : Ag2pcProgram := ⟨2, 3, [2], [⟨.xor, 0, 1⟩]⟩

/-- The criterion for the sum of two inputs, one of which has a masked bit. -/
theorem outputLambda_eq_iff_xor :
    ∃ a b, (sampleRun xorProgram).run countingHash Value32.ofList = some (.ok (a, b)) ∧
      ((ValidWires (Block.make 0 3) (Block.make 0 1) a b (xorProgram.evalPlain [false, true]) ∧
          a.lambda = b.lambda) ↔
        (0 < countAnds xorProgram.gates ∨ ∀ w ∈ xorProgram.outputs, xorProgram.numInputs ≤ w →
          xorProgram.plainWires (lambdaBits (sampleRun xorProgram).inputsA) w = false)) :=
  outputLambda_eq_iff countingHash Value32.ofList (sampleRun xorProgram) [false, true]
    (sampleRun_valid (by decide) rfl) fun _ hk => absurd hk (Nat.not_lt_zero _)

/-- The masked bits of an honest run's outputs are not always equal: without an AND gate, Alice's is
zero where Bob's is one. -/
theorem outputLambda_ne :
    (sampleRun xorProgram).Valid [false, true] ∧ (sampleRun xorProgram).CorrectSigma ∧
      ∃ a b, (sampleRun xorProgram).run countingHash Value32.ofList = some (.ok (a, b)) ∧
        a.lambda = [0] ∧ b.lambda = [1] := by
  have hvalid : (sampleRun xorProgram).Valid [false, true] := sampleRun_valid (by decide) rfl
  have hsigma : (sampleRun xorProgram).CorrectSigma := fun _ hk => absurd hk (Nat.not_lt_zero _)
  refine ⟨hvalid, hsigma, _, _, hvalid.run countingHash Value32.ofList hsigma,
    by decide, ?_⟩
  have hmasked := hvalid.masked_eq countingHash rfl (w := 2) (by decide)
  change [(sampleRun xorProgram).masked countingHash 2] = _
  rw [hmasked]
  decide

end Shachain2pc
