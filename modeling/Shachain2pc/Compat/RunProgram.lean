import Shachain2pc.Compat.Garbling
import Shachain2pc.Compat.JointWires

/-!
# Running a program

`run_program` checks its inputs, assigns the slots, computes the product shares of the AND
gates, garbles or evaluates, and gathers the outputs. An honest run composes the two
parties: each receives what the other has sent.
-/

namespace Shachain2pc

/-- The errors of `run_program`. -/
inductive SessionError where
  | compat (error : CompatError)
  | badAg2pcInputLength (expected actual : ℕ)
  deriving DecidableEq, Repr

/-- `check_secure_wires`. -/
def checkSecureWires (party : Role) (wires : Ag2pcSecureWires) : Except CompatError Unit :=
  let n := wires.lambda.length
  if wires.wireBundle.length ≠ n then .error .badAg2pcInputShape
  else match party with
    | .alice => if wires.label0.length ≠ n then .error .badAg2pcInputShape else .ok ()
    | .bob => if wires.evalLabel.length ≠ n then .error .badAg2pcInputShape else .ok ()

variable {M : Type}

/-- The slots of a run, as the liveness and slot passes leave them. -/
def slottedRun (draw : ℕ → List AShareBundle) (program : Ag2pcProgram) (party : Role)
    (delta : Block) (inputs : Ag2pcSecureWires) (mitc : M) : Ag2pcRunState M :=
  slotMaskPass draw program (Ag2pcRunState.livenessPass program (.new party delta inputs mitc))

/-- `run_program`, up to the product shares. -/
def startRun (draw : ℕ → List AShareBundle) (program : Ag2pcProgram) (party : Role) (delta : Block)
    (inputs : Ag2pcSecureWires) (mitc : M) : Except SessionError (Ag2pcRunState M) := do
  (checkSecureWires party inputs).mapError .compat
  if inputs.lambda.length ≠ program.numInputs then
    throw (.badAg2pcInputLength program.numInputs inputs.lambda.length)
  return slottedRun draw program party delta inputs mitc

/-- The state with its product shares, and no masked bits of AND outputs yet. -/
def Ag2pcRunState.withSigma (state : Ag2pcRunState M) (sigma : List AShareBundle) :
    Ag2pcRunState M :=
  { state with sigma := sigma, lambdaAnd := List.replicate (max state.numAnds 1) 0 }

variable (H : TweakableHash M) (sha256 : List UInt8 → Value32)

/-- The two parties garble and evaluate a program, over a reliable stream. -/
def halfGateRun (program : Ag2pcProgram) (alice bob : Ag2pcRunState M) :
    Option (Except CompatError (Ag2pcRunState M × Ag2pcRunState M)) := do
  let garbled := garblerSend H program alice
  let evaluated ← evaluatorSend H program bob garbled.2
  let checked ← garblerCheck sha256 program garbled.1 evaluated.2
  let result ← evaluatorCheck sha256 evaluated.1 checked.2
  return result.map fun state => (checked.1, state)

namespace HonestRun

variable (R : HonestRun M)

/-- Alice's state before she garbles. -/
def alice : Ag2pcRunState M :=
  (slottedRun R.drawA R.program .alice R.deltaA R.inputsA R.mitc).withSigma R.sigmaA

/-- Bob's state before he evaluates. -/
def bob : Ag2pcRunState M :=
  (slottedRun R.drawB R.program .bob R.deltaB R.inputsB R.mitc).withSigma R.sigmaB

/-- Both parties' `run_program`; `none` when a party waits forever. -/
def run : Option (Except SessionError (Ag2pcSecureWires × Ag2pcSecureWires)) :=
  match startRun R.drawA R.program .alice R.deltaA R.inputsA R.mitc,
    startRun R.drawB R.program .bob R.deltaB R.inputsB R.mitc with
  | .error error, _ => some (.error error)
  | _, .error error => some (.error error)
  | .ok a, .ok b =>
    (halfGateRun H sha256 R.program (a.withSigma R.sigmaA) (b.withSigma R.sigmaB)).map fun result =>
      (result.mapError .compat).map fun states =>
        (gatherOutputs states.1 R.program, gatherOutputs states.2 R.program)

/-- Alice after the first gates of her first pass. -/
def aliceAt (k : ℕ) : Ag2pcRunState M :=
  (GarblerCursor.gates H 0 (R.program.gates.take k) ⟨R.alice, [], [], 0, []⟩).state

/-- Bob after the first gates of his pass, reading what Alice sends. -/
def bobAt (k : ℕ) : Option (Ag2pcRunState M) :=
  (EvaluatorCursor.gates H 0 (R.program.gates.take k)
    ⟨R.bob, [], [], 0, 0, [], (garblerSend H R.program R.alice).2⟩).map (·.state)

end HonestRun

/-- A state ready for a pass over the gates: the needed wires have slots of their own, and the
persistent wires hold their shares. -/
structure Ready (program : Ag2pcProgram) (share : ℕ → AShareBundle) (state : Ag2pcRunState M) :
    Prop where
  numInputs : state.numInputs = program.numInputs
  numAnds : state.numAnds = countAnds program.gates
  live : program.Liveness state.persist state.lastUse
  apart : (program.layout state.persist state.lastUse).Apart program.gates.length state.phys
  phys_input : ∀ w < program.numInputs, state.phys w = w
  held : ∀ w < program.numInputs + program.gates.length, state.persist w →
    state.wireSlot (state.phys w) = share w

variable {draw : ℕ → List AShareBundle} {program : Ag2pcProgram} {party : Role} {delta : Block}
  {inputs : Ag2pcSecureWires} {mitc : M} {sigma : List AShareBundle}

/-- What the passes before garbling leave. -/
theorem slottedRun_spec (party : Role) (delta : Block) (mitc : M) (hwf : program.WellFormed)
    (hdraw : FullBatches draw) (hlength : inputs.lambda.length = program.numInputs) :
    ∃ persist lastUse, program.Liveness persist lastUse ∧
      Slotted program { Ag2pcRunState.new party delta inputs mitc with
        persist := persist, lastUse := lastUse, numAnds := countAnds program.gates }
        (program.shares draw inputs) (slottedRun draw program party delta inputs mitc) := by
  obtain ⟨persist, lastUse, heq, hlive⟩ := Ag2pcRunState.livenessPass_spec program
    (.new party delta inputs mitc) hlength
  refine ⟨persist, lastUse, hlive, ?_⟩
  rw [slottedRun, heq]
  exact slotMaskPass_spec hwf hlive hdraw hlength hlength
    (fun w hw => (Ag2pcProgram.wires_input hw).symm) fun step hstep => hwf.wires_gate hstep

/-- The state of a party before it garbles or evaluates: it is ready, it has the labels of its
inputs, and the masked bits of the gates are still zero. -/
structure Prepared (program : Ag2pcProgram) (share : ℕ → AShareBundle) (party : Role)
    (delta : Block) (inputs : Ag2pcSecureWires) (mitc : M) (sigma : List AShareBundle)
    (state : Ag2pcRunState M) : Prop where
  ready : Ready program share state
  party : state.party = party
  delta : state.delta = delta
  mitc : state.mitc = mitc
  sigma : state.sigma = sigma
  labels : state.labelSlot = fun w => inputs.label0.getD w Block.zero
  evals : state.evalSlot = fun w => inputs.evalLabel.getD w Block.zero
  masks : ∀ w < program.numInputs + program.gates.length, state.persist w →
    state.maskInput (state.phys w) = if w < program.numInputs then inputs.lambda.getD w 0 else 0
  lambdaAnd : state.lambdaAnd = List.replicate (max (countAnds program.gates) 1) 0
  repA : state.repA = program.andSteps.map fun step => share step.gate.in0
  repB : state.repB = program.andSteps.map fun step => share step.gate.right

/-- The passes before garbling prepare a party. -/
theorem prepared_withSigma (hwf : program.WellFormed) (hdraw : FullBatches draw)
    (hlength : inputs.lambda.length = program.numInputs) :
    Prepared program (program.shares draw inputs) party delta inputs mitc sigma
      ((slottedRun draw program party delta inputs mitc).withSigma sigma) := by
  obtain ⟨persist, lastUse, hlive, hslotted⟩ := slottedRun_spec party delta mitc hwf hdraw hlength
  have hframe := hslotted.frame
  have hpersist : (slottedRun draw program party delta inputs mitc).persist = persist := by
    rw [hframe]
  have hlast : (slottedRun draw program party delta inputs mitc).lastUse = lastUse := by
    rw [hframe]
  have hands : (slottedRun draw program party delta inputs mitc).numAnds =
      countAnds program.gates := by
    rw [hframe]
  unfold Ag2pcRunState.withSigma
  refine ⟨⟨?_, hands, ?_, ?_, hslotted.phys_input, ?_⟩, ?_, ?_, ?_, rfl, ?_, ?_, ?_, ?_,
    hslotted.repA,
    hslotted.repB⟩
  · rw [hframe]
    exact hlength
  · simpa only [hpersist, hlast] using hlive
  · simpa only [hpersist, hlast] using hslotted.apart
  · simpa only [hpersist] using hslotted.held
  · rw [hframe]
    rfl
  · rw [hframe]
    rfl
  · rw [hframe]
    rfl
  · rw [hframe]
    rfl
  · rw [hframe]
    rfl
  · rw [hpersist]
    exact hslotted.masks
  · rw [hands]

end Shachain2pc
