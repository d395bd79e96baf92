import Shachain2pc.Lib.StraightLine
import Shachain2pc.Lib.SlotAllocation

/-!
# Direct programs

A program lists its gates in order; gate `i` writes the wire `num_inputs + i`. The source
packs the type of a gate into the high bits of its second wire number, and leaves that
number zero for an inverter. Evaluating a program assigns each wire once, so the wires
satisfy the equation of every gate.
-/

namespace Shachain2pc

open StraightLine (Instr)

inductive Ag2pcGateType where
  | and
  | xor
  | inv
  deriving DecidableEq, Repr

structure Ag2pcProgramGate where
  typ : Ag2pcGateType
  in0 : ℕ
  in1 : ℕ
  deriving DecidableEq, Repr

structure Ag2pcProgram where
  numInputs : ℕ
  numWires : ℕ
  outputs : List ℕ
  gates : List Ag2pcProgramGate
  deriving DecidableEq, Repr

/-- The wires a gate reads, each once. -/
def Ag2pcProgramGate.reads (gate : Ag2pcProgramGate) : List ℕ :=
  if gate.typ = .inv ∨ gate.in1 = gate.in0 then [gate.in0] else [gate.in0, gate.in1]

/-- The second wire a gate reads; an inverter has only one. -/
def Ag2pcProgramGate.right (gate : Ag2pcProgramGate) : ℕ :=
  if gate.typ = .inv then gate.in0 else gate.in1

/-- `num_ands`, of a list of gates. -/
def countAnds (gates : List Ag2pcProgramGate) : ℕ :=
  (gates.filter fun gate => gate.typ = .and).length

/-- The gates of the program read only earlier wires, and the outputs are wires. -/
structure Ag2pcProgram.WellFormed (program : Ag2pcProgram) : Prop where
  numWires : program.numWires = program.numInputs + program.gates.length
  reads : ∀ i gate, program.gates[i]? = some gate →
    ∀ w ∈ gate.reads, w < program.numInputs + i
  outputs : ∀ w ∈ program.outputs, w < program.numWires

/-- A program is well formed when its indexed gates are. -/
theorem Ag2pcProgram.wellFormed_iff {program : Ag2pcProgram} : program.WellFormed ↔
    program.numWires = program.numInputs + program.gates.length ∧
      (∀ entry ∈ program.gates.zipIdx, ∀ w ∈ entry.1.reads, w < program.numInputs + entry.2) ∧
      ∀ w ∈ program.outputs, w < program.numWires := by
  constructor
  · intro h
    exact ⟨h.numWires, fun entry hmem =>
      h.reads _ _ (List.mem_zipIdx_iff_getElem?.mp hmem), h.outputs⟩
  · intro h
    exact ⟨h.1, fun i gate hget => h.2.1 (gate, i) (List.mem_zipIdx_iff_getElem?.mpr hget), h.2.2⟩

instance : DecidablePred Ag2pcProgram.WellFormed := fun _ =>
  decidable_of_iff _ Ag2pcProgram.wellFormed_iff.symm

/-- A gate with its position, and the number of AND gates before it. -/
structure GateStep where
  index : ℕ
  andIndex : ℕ
  gate : Ag2pcProgramGate

/-- The number of AND gates after one more gate. -/
def nextAnd (andIndex : ℕ) (gate : Ag2pcProgramGate) : ℕ :=
  match gate.typ with
  | .and => andIndex + 1
  | _ => andIndex

/-- The gates from a position on. -/
def gateSteps : ℕ → ℕ → List Ag2pcProgramGate → List GateStep
  | _, _, [] => []
  | i, k, gate :: rest => ⟨i, k, gate⟩ :: gateSteps (i + 1) (nextAnd k gate) rest

section wires

variable {B : Type} [Inhabited B]

/-- The instruction of a gate, whose function takes the values of its two wires. -/
def GateStep.instr (numInputs : ℕ) (fn : GateStep → B → B → B) (step : GateStep) : Instr ℕ B where
  args := step.gate.reads
  fn := fun values => fn step (values.headD default) (values.getLastD default)
  out := numInputs + step.index

/-- The values of all wires. -/
def Ag2pcProgram.wires (program : Ag2pcProgram) (fn : GateStep → B → B → B) (inputs : ℕ → B) :
    ℕ → B :=
  StraightLine.exec ((gateSteps 0 0 program.gates).map (GateStep.instr program.numInputs fn)) inputs

end wires

/-- The plain function of a gate. -/
def GateStep.plain (step : GateStep) (x y : Bool) : Bool :=
  match step.gate.typ with
  | .and => x && y
  | .xor => x ^^ y
  | .inv => !x

/-- The plain value of each wire. -/
def Ag2pcProgram.plainWires (program : Ag2pcProgram) (inputs : List Bool) : ℕ → Bool :=
  program.wires GateStep.plain fun w => inputs.getD w false

/-- The plain evaluation of a program. -/
def Ag2pcProgram.evalPlain (program : Ag2pcProgram) (inputs : List Bool) : List Bool :=
  program.outputs.map (program.plainWires inputs)

/-- Both wires of a gate are read. -/
theorem Ag2pcProgramGate.right_mem (gate : Ag2pcProgramGate) :
    gate.in0 ∈ gate.reads ∧ gate.right ∈ gate.reads := by
  unfold reads right
  split <;> split <;> simp_all

/-- A gate reads its two wires and no others. -/
theorem Ag2pcProgramGate.mem_reads (gate : Ag2pcProgramGate) {w : ℕ} :
    w ∈ gate.reads ↔ w = gate.in0 ∨ w = gate.right := by
  unfold reads right
  by_cases htyp : gate.typ = .inv
  · simp [htyp]
  · by_cases hsame : gate.in1 = gate.in0
    · simp [htyp, hsame]
    · simp [htyp, hsame]

/-- A gate reads distinct wires. -/
theorem Ag2pcProgramGate.reads_nodup (gate : Ag2pcProgramGate) : gate.reads.Nodup := by
  unfold reads
  split
  · exact List.nodup_singleton _
  · simp_all [eq_comm]

/-- The function of a gate is applied to the values of its wires. -/
theorem GateStep.instr_value {B : Type} [Inhabited B] (numInputs : ℕ) (fn : GateStep → B → B → B)
    (step : GateStep) (env : ℕ → B) :
    (step.instr numInputs fn).value env = fn step (env step.gate.in0) (env step.gate.right) := by
  change fn step ((step.gate.reads.map env).headD default) ((step.gate.reads.map env).getLastD
    default) = _
  unfold Ag2pcProgramGate.reads Ag2pcProgramGate.right
  by_cases htyp : step.gate.typ = .inv
  · simp [htyp]
  · by_cases hsame : step.gate.in1 = step.gate.in0
    · simp [htyp, hsame]
    · simp [htyp, hsame]

/-- A step's position is at least the first. -/
theorem le_of_mem_gateSteps {i k : ℕ} {gates : List Ag2pcProgramGate} {step : GateStep}
    (h : step ∈ gateSteps i k gates) : i ≤ step.index := by
  induction gates generalizing i k with
  | nil => cases h
  | cons gate rest ih =>
    rcases List.mem_cons.mp h with rfl | h
    · exact le_rfl
    · exact Nat.le_of_succ_le (ih h)

/-- A step is the gate at its position. -/
theorem getElem?_of_mem_gateSteps {i k : ℕ} {gates : List Ag2pcProgramGate} {step : GateStep}
    (h : step ∈ gateSteps i k gates) : gates[step.index - i]? = some step.gate := by
  induction gates generalizing i k with
  | nil => cases h
  | cons gate rest ih =>
    rcases List.mem_cons.mp h with rfl | h
    · simp
    · have hle := le_of_mem_gateSteps h
      have hsub : step.index - i = step.index - (i + 1) + 1 := by omega
      rw [hsub, List.getElem?_cons_succ]
      exact ih h

/-- Steps come in the order of their positions. -/
theorem gateSteps_pairwise (i k : ℕ) (gates : List Ag2pcProgramGate) :
    (gateSteps i k gates).Pairwise fun earlier later => earlier.index < later.index := by
  induction gates generalizing i k with
  | nil => exact List.Pairwise.nil
  | cons gate rest ih =>
    exact List.pairwise_cons.mpr ⟨fun later hlater => le_of_mem_gateSteps hlater, ih _ _⟩

variable {program : Ag2pcProgram} {B : Type} [Inhabited B] {fn : GateStep → B → B → B}
  {inputs : ℕ → B}

/-- Evaluation depends on the functions of the gates only. -/
theorem Ag2pcProgram.wires_congr {fn' : GateStep → B → B → B}
    (h : ∀ step ∈ gateSteps 0 0 program.gates, fn step = fn' step) :
    program.wires fn inputs = program.wires fn' inputs := by
  rw [wires, wires]
  refine congrArg (StraightLine.exec · inputs) (List.map_congr_left fun step hstep => ?_)
  rw [GateStep.instr, GateStep.instr, h step hstep]

/-- Evaluation keeps the inputs. -/
theorem Ag2pcProgram.wires_input {w : ℕ} (hw : w < program.numInputs) :
    program.wires fn inputs w = inputs w := by
  refine StraightLine.exec_frame _ _ _ fun instr hinstr => ?_
  obtain ⟨step, -, rfl⟩ := List.mem_map.mp hinstr
  exact (Nat.lt_of_lt_of_le hw (Nat.le_add_right _ _)).ne'

/-- The wires of a well-formed program satisfy the equation of every gate. -/
theorem Ag2pcProgram.WellFormed.wires_gate (h : program.WellFormed) {step : GateStep}
    (hstep : step ∈ gateSteps 0 0 program.gates) :
    program.wires fn inputs (program.numInputs + step.index) =
      fn step (program.wires fn inputs step.gate.in0)
        (program.wires fn inputs step.gate.right) := by
  have hreads {step : GateStep} (hstep : step ∈ gateSteps 0 0 program.gates) :
      ∀ w ∈ step.gate.reads, w < program.numInputs + step.index :=
    h.reads _ _ (getElem?_of_mem_gateSteps hstep)
  rw [← GateStep.instr_value program.numInputs fn step (program.wires fn inputs)]
  refine StraightLine.exec_value inputs ?_ ?_ (List.mem_map_of_mem hstep)
  · intro instr hinstr hself
    obtain ⟨other, hother, rfl⟩ := List.mem_map.mp hinstr
    exact (hreads hother _ hself).false
  · rw [List.pairwise_map]
    refine (gateSteps_pairwise 0 0 program.gates).imp_of_mem fun hfirst hlater hlt => ⟨?_, ?_⟩
    · change program.numInputs + _ ≠ program.numInputs + _
      omega
    · intro hread
      have hread' := hreads hfirst _ hread
      change program.numInputs + _ < program.numInputs + _ at hread'
      omega

/-- Every gate of a program is a step. -/
theorem exists_mem_gateSteps (i k : ℕ) (gates : List Ag2pcProgramGate) {j : ℕ}
    (hj : j < gates.length) : ∃ step ∈ gateSteps i k gates, step.index = i + j := by
  induction gates generalizing i k j with
  | nil => cases hj
  | cons gate rest ih =>
    cases j with
    | zero => exact ⟨_, List.mem_cons_self, rfl⟩
    | succ j =>
      obtain ⟨step, hmem, hindex⟩ := ih (i + 1) (nextAnd k gate) (Nat.lt_of_succ_lt_succ hj)
      exact ⟨step, List.mem_cons_of_mem _ hmem, by omega⟩

/-- Only the values of the wires satisfy the equation of every gate. -/
theorem Ag2pcProgram.WellFormed.wires_unique (h : program.WellFormed) {values : ℕ → B}
    (hinputs : ∀ w < program.numInputs, values w = inputs w)
    (hgates : ∀ step ∈ gateSteps 0 0 program.gates, values (program.numInputs + step.index) =
      fn step (values step.gate.in0) (values step.gate.right)) {w : ℕ}
    (hw : w < program.numInputs + program.gates.length) : values w = program.wires fn inputs w := by
  induction w using Nat.strong_induction_on with
  | _ w ih =>
    by_cases hinput : w < program.numInputs
    · rw [hinputs w hinput, wires_input hinput]
    · obtain ⟨step, hstep, hindex⟩ := exists_mem_gateSteps 0 0 program.gates
        (show w - program.numInputs < program.gates.length by omega)
      have hread := h.reads _ _ (getElem?_of_mem_gateSteps hstep)
      have hlt0 := hread _ step.gate.right_mem.1
      have hlt1 := hread _ step.gate.right_mem.2
      obtain rfl : w = program.numInputs + step.index := by omega
      rw [hgates step hstep, h.wires_gate hstep, ih _ (by omega) (by omega),
        ih _ (by omega) (by omega)]

end Shachain2pc
