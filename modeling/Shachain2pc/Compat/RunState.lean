import Shachain2pc.Compat.Program
import Shachain2pc.Compat.Mitccrh

/-!
# The state of a program run

A party keeps the wires of a run in slots. The liveness pass finds the last use of each
wire and the wires which keep their slot; the slot pass assigns the slots, computes the
mask shares of all wires, and collects the shares of the AND inputs. A mask share of an
AND output is drawn from the triple pool, which hands out its shares in batches.

The vectors of the source are functions of their index here, so that a pushed entry and a
resized vector hold the default until they are written. The capacity estimate only
reserves memory and is left out.
-/

namespace Shachain2pc

open Function (update)

instance : Inhabited AShareBundle := ⟨⟨Block.zero, Block.zero⟩⟩

/-- `Ag2pcRunState`; the state of the tweakable hash is of any type. -/
structure Ag2pcRunState (M : Type) where
  party : Role
  delta : Block
  numInputs : ℕ
  numAnds : ℕ
  numSlots : ℕ
  phys : ℕ → ℕ
  lastUse : ℕ → ℤ
  persist : ℕ → Bool
  wireSlot : ℕ → AShareBundle
  maskInput : ℕ → UInt8
  labelSlot : ℕ → Block
  evalSlot : ℕ → Block
  repA : List AShareBundle
  repB : List AShareBundle
  sigma : List AShareBundle
  lambdaAnd : List UInt8
  mitc : M

/-- The sum of two share bundles. -/
def AShareBundle.xor (lhs rhs : AShareBundle) : AShareBundle :=
  ⟨blockXor lhs.mac rhs.mac, blockXor lhs.key rhs.key⟩

namespace Ag2pcRunState

variable {M : Type}

/-- `Ag2pcRunState::new`. -/
def new (party : Role) (delta : Block) (inputs : Ag2pcSecureWires) (mitc : M) :
    Ag2pcRunState M where
  party := party
  delta := delta
  numInputs := inputs.lambda.length
  numAnds := 0
  numSlots := inputs.lambda.length
  phys := fun _ => 0
  lastUse := fun _ => -1
  persist := fun _ => false
  wireSlot := fun slot => inputs.wireBundle.getD slot default
  maskInput := fun slot => inputs.lambda.getD slot 0
  labelSlot := fun slot => inputs.label0.getD slot Block.zero
  evalSlot := fun slot => inputs.evalLabel.getD slot Block.zero
  repA := []
  repB := []
  sigma := []
  lambdaAnd := []
  mitc := mitc

/-- `wslot`. -/
def wslot (state : Ag2pcRunState M) (wire : ℕ) : AShareBundle := state.wireSlot (state.phys wire)

/-- `set_wslot`. -/
def setWslot (state : Ag2pcRunState M) (wire : ℕ) (value : AShareBundle) : Ag2pcRunState M :=
  { state with wireSlot := update state.wireSlot (state.phys wire) value }

/-- `minp`. -/
def minp (state : Ag2pcRunState M) (wire : ℕ) : UInt8 := state.maskInput (state.phys wire)

/-- `set_minp`. -/
def setMinp (state : Ag2pcRunState M) (wire : ℕ) (value : UInt8) : Ag2pcRunState M :=
  { state with maskInput := update state.maskInput (state.phys wire) (value &&& 1) }

/-- `lbl`. -/
def lbl (state : Ag2pcRunState M) (wire : ℕ) : Block := state.labelSlot (state.phys wire)

/-- `set_lbl`. -/
def setLbl (state : Ag2pcRunState M) (wire : ℕ) (value : Block) : Ag2pcRunState M :=
  { state with labelSlot := update state.labelSlot (state.phys wire) value }

/-- `evl`. -/
def evl (state : Ag2pcRunState M) (wire : ℕ) : Block := state.evalSlot (state.phys wire)

/-- `set_evl`. -/
def setEvl (state : Ag2pcRunState M) (wire : ℕ) (value : Block) : Ag2pcRunState M :=
  { state with evalSlot := update state.evalSlot (state.phys wire) value }

@[simp] theorem setWslot_lbl (state : Ag2pcRunState M) (wire w : ℕ) (value : AShareBundle) :
    (state.setWslot wire value).lbl w = state.lbl w := rfl

@[simp] theorem setWslot_delta (state : Ag2pcRunState M) (wire : ℕ) (value : AShareBundle) :
    (state.setWslot wire value).delta = state.delta := rfl

@[simp] theorem setWslot_evl (state : Ag2pcRunState M) (wire w : ℕ) (value : AShareBundle) :
    (state.setWslot wire value).evl w = state.evl w := rfl

@[simp] theorem setWslot_minp (state : Ag2pcRunState M) (wire w : ℕ) (value : AShareBundle) :
    (state.setWslot wire value).minp w = state.minp w := rfl

@[simp] theorem setEvl_minp (state : Ag2pcRunState M) (wire w : ℕ) (value : Block) :
    (state.setEvl wire value).minp w = state.minp w := rfl

@[simp] theorem setMinp_wslot (state : Ag2pcRunState M) (wire w : ℕ) (value : UInt8) :
    (state.setMinp wire value).wslot w = state.wslot w := rfl

/-- One gate of the liveness pass. -/
def livenessGate (gateIndex : ℕ) (gate : Ag2pcProgramGate) (state : Ag2pcRunState M) :
    Ag2pcRunState M :=
  let lastUse := update state.lastUse gate.in0 gateIndex
  { state with
    persist := update state.persist (state.numInputs + gateIndex) (gate.typ == .and)
    lastUse := if gate.typ ≠ .inv then update lastUse gate.in1 gateIndex else lastUse
    numAnds := nextAnd state.numAnds gate }

/-- The gates of the liveness pass, from a position on. -/
def livenessGates : ℕ → List Ag2pcProgramGate → Ag2pcRunState M → Ag2pcRunState M
  | _, [], state => state
  | i, gate :: rest, state => livenessGates (i + 1) rest (livenessGate i gate state)

/-- `ag2pc_liveness_pass`. -/
def livenessPass (program : Ag2pcProgram) (state : Ag2pcRunState M) : Ag2pcRunState M :=
  let start :=
    { state with
      numAnds := 0, lastUse := fun _ => -1, persist := fun w => decide (w < state.numInputs) }
  let passed := livenessGates 0 program.gates start
  { passed with
    persist := program.outputs.foldl (fun persist out => update persist out true) passed.persist }

end Ag2pcRunState

/-- The local variables of the slot pass, with the number of batches drawn. -/
structure SlotMaskCursor (M : Type) where
  state : Ag2pcRunState M
  freelist : List ℕ
  lgBuf : List AShareBundle
  lgOff : ℕ
  drawn : ℕ

namespace SlotMaskCursor

variable {M : Type}

/-- `ag2pc_alloc_slot`. -/
def allocSlot (cursor : SlotMaskCursor M) (wire : ℕ) : SlotMaskCursor M :=
  match cursor.state.persist wire, cursor.freelist with
  | false, slot :: rest =>
    { cursor with
      state := { cursor.state with phys := update cursor.state.phys wire slot }, freelist := rest }
  | _, _ =>
    { cursor with
      state := { cursor.state with
        phys := update cursor.state.phys wire cursor.state.numSlots
        numSlots := cursor.state.numSlots + 1 } }

/-- `ag2pc_free_if_dead`. -/
def freeIfDead (gateIndex : ℕ) (cursor : SlotMaskCursor M) (wire : ℕ) : SlotMaskCursor M :=
  if !cursor.state.persist wire ∧ cursor.state.lastUse wire = gateIndex then
    { cursor with freelist := cursor.state.phys wire :: cursor.freelist }
  else cursor

/-- Store the mask share of a wire in its new slot, over a placeholder for the masked bit. -/
def place (cursor : SlotMaskCursor M) (wire : ℕ) (value : AShareBundle) : SlotMaskCursor M :=
  let cursor := cursor.allocSlot wire
  { cursor with state := (cursor.state.setWslot wire value).setMinp wire 0 }

/-- Draw the next batch when the last one is used up. -/
def refill (draw : ℕ → List AShareBundle) (cursor : SlotMaskCursor M) : SlotMaskCursor M :=
  if cursor.lgBuf.length ≤ cursor.lgOff then
    { cursor with lgBuf := draw cursor.drawn, lgOff := 0, drawn := cursor.drawn + 1 }
  else cursor

/-- Collect the shares of the inputs of an AND gate. -/
def collect (gate : Ag2pcProgramGate) (cursor : SlotMaskCursor M) : SlotMaskCursor M :=
  { cursor with
    state := { cursor.state with
      repA := cursor.state.repA ++ [cursor.state.wslot gate.in0]
      repB := cursor.state.repB ++ [cursor.state.wslot gate.in1] } }

/-- One gate of the slot pass. -/
def gate (draw : ℕ → List AShareBundle) (gateIndex : ℕ) (gate : Ag2pcProgramGate)
    (cursor : SlotMaskCursor M) : SlotMaskCursor M :=
  let state := cursor.state
  let out := state.numInputs + gateIndex
  let placed := match gate.typ with
    | .and =>
      let cursor := (cursor.collect gate).refill draw
      let cursor := cursor.place out (cursor.lgBuf.getD cursor.lgOff default)
      { cursor with lgOff := cursor.lgOff + 1 }
    | .xor => cursor.place out ((state.wslot gate.in0).xor (state.wslot gate.in1))
    | .inv => cursor.place out (state.wslot gate.in0)
  gate.reads.foldl (freeIfDead gateIndex) placed

/-- The gates of the slot pass, from a position on. -/
def gates (draw : ℕ → List AShareBundle) :
    ℕ → List Ag2pcProgramGate → SlotMaskCursor M → SlotMaskCursor M
  | _, [], cursor => cursor
  | i, g :: rest, cursor => gates draw (i + 1) rest (gate draw i g cursor)

end SlotMaskCursor

/-- `ag2pc_slot_mask_pass`; `draw` gives the batches of the triple pool, in order. -/
def slotMaskPass {M : Type} (draw : ℕ → List AShareBundle) (program : Ag2pcProgram)
    (state : Ag2pcRunState M) : Ag2pcRunState M :=
  let start := { state with
    phys := fun wire => if wire < state.numInputs then wire else 2 ^ 32 - 1
    repA := [], repB := [] }
  (SlotMaskCursor.gates draw 0 program.gates ⟨start, [], [], 0, 0⟩).state

end Shachain2pc
