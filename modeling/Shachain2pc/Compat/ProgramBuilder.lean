import Shachain2pc.Compat.JointWires
import Shachain2pc.Circuit.DerivationCorrect

/-!
# Building programs

The builder numbers the output of each gate by its position, after the inputs. Wire numbers
have 30 bits, so a program has fewer than `AG2PC_GATE_WIRE_LIMIT` wires. `applyGadget`
copies a gadget circuit: its map sends the gadget's wires to wires of the program, and
`UNMAPPED` stands for a wire that is not defined yet.
-/

namespace Shachain2pc

open Rust

/-- `BadAg2pcProgram`. -/
inductive ProgramError where
  | badAg2pcProgram (message : String)
  deriving DecidableEq, Repr

/-- The text of an error. -/
def ProgramError.text : ProgramError → String
  | .badAg2pcProgram message => s!"bad AG2PC program: {message}"

/-- An error with a message. -/
def badProgram {A : Type} (message : String) : Outcome ProgramError A :=
  .error (.error (.badAg2pcProgram message))

/-- `checked_nonnegative`. -/
def checkedNonnegative (name : String) (value : ℤ) : Outcome ProgramError ℕ :=
  if value < 0 then badProgram s!"{name} must be nonnegative" else .ok (asUsize value)

/-- `checked_wire`. -/
def checkedWire (name : String) (wire : ℤ) (numWire : ℕ) : Outcome ProgramError ℕ :=
  if wire < 0 ∨ numWire ≤ asUsize wire then
    badProgram s!"{name} wire {wire} out of range 0..{numWire}"
  else .ok (asUsize wire)

/-- `AG2PC_GATE_WIRE_LIMIT`. -/
def gateWireLimit : ℕ := 2 ^ 30

/-- `UNMAPPED`. -/
def unmapped : ℕ := 2 ^ 32 - 1

structure Ag2pcProgramBuilder where
  numInputs : ℕ
  gates : List Ag2pcProgramGate

/-- The gate type of a circuit gate. -/
def GateType.program : GateType → Ag2pcGateType
  | .and => .and
  | .xor => .xor
  | .inv => .inv

/-- `resolve_direct_wire`. -/
def resolveDirectWire (map : List ℕ) (wire : ℤ) : Outcome ProgramError ℕ := do
  let wire ← checkedWire "gadget wire" wire map.length
  let resolved ← readSlot map wire
  if resolved = unmapped then badProgram "ApplyAg2pcGadget: input wire is not defined"
  else .ok resolved

/-- The second wire of a copied gate; an inverter has none, and stores zero. -/
def resolveRight (map : List ℕ) (gate : Gate) : Outcome ProgramError ℕ :=
  if gate.typ = .inv then .ok 0 else resolveDirectWire map gate.in1

namespace Ag2pcProgramBuilder

/-- `push_gate`. -/
def pushGate (b : Ag2pcProgramBuilder) (typ : Ag2pcGateType) (in0 in1 : ℕ) :
    Outcome ProgramError (ℕ × Ag2pcProgramBuilder) :=
  let out := b.numInputs + b.gates.length
  if gateWireLimit ≤ out then badProgram "AG2PC direct program is too large"
  else .ok (out, { b with gates := b.gates ++ [⟨typ, in0, in1⟩] })

/-- `and_w`. -/
def andW (b : Ag2pcProgramBuilder) (in0 in1 : ℕ) : Outcome ProgramError (ℕ × Ag2pcProgramBuilder) :=
  b.pushGate .and in0 in1

/-- `xor_w`. -/
def xorW (b : Ag2pcProgramBuilder) (in0 in1 : ℕ) : Outcome ProgramError (ℕ × Ag2pcProgramBuilder) :=
  b.pushGate .xor in0 in1

/-- `inv_w`. -/
def invW (b : Ag2pcProgramBuilder) (in0 : ℕ) : Outcome ProgramError (ℕ × Ag2pcProgramBuilder) :=
  b.pushGate .inv in0 0

/-- The gate which `apply_gadget` pushes for a gate of the gadget. -/
def gateW (b : Ag2pcProgramBuilder) (typ : GateType) (in0 in1 : ℕ) :
    Outcome ProgramError (ℕ × Ag2pcProgramBuilder) :=
  match typ with
  | .and => b.andW in0 in1
  | .xor => b.xorW in0 in1
  | .inv => b.invW in0

/-- One gate of the loop of `apply_gadget`. -/
def copyGate (s : List ℕ × Ag2pcProgramBuilder) (gate : Gate) :
    Outcome ProgramError (List ℕ × Ag2pcProgramBuilder) := do
  let in0 ← resolveDirectWire s.1 gate.in0
  let in1 ← resolveRight s.1 gate
  let (out, b) ← s.2.gateW gate.typ in0 in1
  let outWire ← checkedWire "gadget out" gate.out s.1.length
  let map ← writeSlot s.1 outWire out
  .ok (map, b)

/-- `apply_gadget`. -/
def applyGadget (b : Ag2pcProgramBuilder) (gadget : Circuit) (inputs : List ℕ) :
    Outcome ProgramError (List ℕ × Ag2pcProgramBuilder) := do
  let width ← checkedI32 (gadget.n1 + gadget.n2)
  let gin ← checkedNonnegative "gadget inputs" width
  let numWire ← checkedNonnegative "gadget num_wire" gadget.numWire
  let n3 ← checkedNonnegative "gadget n3" gadget.n3
  if inputs.length ≠ gin ∨ numWire < n3 then badProgram "ApplyAg2pcGadget: wrong gadget shape"
  else do
    let map ← newVec unmapped numWire
    -- `map[..gin]` panics when the gadget declares more inputs than wires.
    let _ ← readSlice map 0 gin
    let (map, b) ← gadget.gates.foldlM copyGate (inputs ++ map.drop gin, b)
    let outs ← readSlice map (numWire - n3) n3
    if unmapped ∈ outs then badProgram "ApplyAg2pcGadget: output wire is not defined"
    else .ok (outs, b)

/-- `finish`. -/
def finish (b : Ag2pcProgramBuilder) (outputLen : ℕ) : Outcome ProgramError Ag2pcProgram :=
  if b.gates.length + b.numInputs < outputLen then
    badProgram "AG2PC direct output length exceeds wire count"
  else
    let numWires := b.numInputs + b.gates.length
    .ok ⟨b.numInputs, numWires, (List.range outputLen).map fun k =>
      numWires - outputLen + k, b.gates⟩

/-- The number of the next wire. -/
def next (b : Ag2pcProgramBuilder) : ℕ := b.numInputs + b.gates.length

/-- The plain value of each wire, once the gates so far have run on the inputs. -/
def value (b : Ag2pcProgramBuilder) (x : List Bool) : ℕ → Bool :=
  Ag2pcProgram.plainWires ⟨b.numInputs, b.next, [], b.gates⟩ x

/-- The builder's gates read earlier wires, and its wires fit into 30 bits. -/
structure Good (b : Ag2pcProgramBuilder) : Prop where
  reads : ∀ i gate, b.gates[i]? = some gate → ∀ w ∈ gate.reads, w < b.numInputs + i
  next_le : b.next ≤ gateWireLimit

/-- A well-formed extension by a number of gates. -/
structure Extends (b : Ag2pcProgramBuilder) (count : ℕ) (b' : Ag2pcProgramBuilder) : Prop where
  good : b'.Good
  numInputs : b'.numInputs = b.numInputs
  next_eq : b'.next = b.next + count
  value_eq : ∀ x, ∀ w < b.next, b'.value x w = b.value x w

/-- The wire is numbered and carries the bit. -/
structure Carries (b : Ag2pcProgramBuilder) (x : List Bool) (w : ℕ) (v : UInt8) : Prop where
  lt_next : w < b.next
  value_eq : bitByte (b.value x w) = v

variable {b b' b'' : Ag2pcProgramBuilder} {x : List Bool} {m n w : ℕ} {v : UInt8}

/-- A builder extends itself by no gates. -/
theorem Good.extends (h : b.Good) : b.Extends 0 b := ⟨h, rfl, rfl, fun _ _ _ => rfl⟩

/-- Extensions compose. -/
theorem Extends.trans (h : b.Extends m b') (h' : b'.Extends n b'') : b.Extends (m + n) b'' where
  good := h'.good
  numInputs := h'.numInputs.trans h.numInputs
  next_eq := by rw [h'.next_eq, h.next_eq, Nat.add_assoc]
  value_eq x w hw := by
    rw [h'.value_eq x w (h.next_eq ▸ Nat.lt_add_right m hw), h.value_eq x w hw]

/-- Wires keep their bits under extension. -/
theorem Carries.mono (hw : b.Carries x w v) (h : b.Extends n b') : b'.Carries x w v where
  lt_next := h.next_eq ▸ Nat.lt_add_right n hw.lt_next
  value_eq := by rw [h.value_eq x w hw.lt_next, hw.value_eq]

end Ag2pcProgramBuilder

/-- An entry of an extended list is old, or the new one. -/
theorem getElem?_append_singleton {A : Type} {entries : List A} {entry other : A} {i : ℕ}
    (h : (entries ++ [entry])[i]? = some other) :
    i < entries.length ∧ entries[i]? = some other ∨ i = entries.length ∧ other = entry := by
  rcases Nat.lt_or_ge i entries.length with hlt | hge
  · rw [List.getElem?_append_left hlt] at h
    exact .inl ⟨hlt, h⟩
  · rw [List.getElem?_append_right hge] at h
    obtain ⟨hlast, hentry⟩ := List.getElem?_eq_some_iff.mp h
    rw [List.length_singleton] at hlast
    rw [List.getElem_singleton] at hentry
    exact .inr ⟨by omega, hentry.symm⟩

/-- Steps of a concatenation. -/
theorem gateSteps_append (i k : ℕ) (first second : List Ag2pcProgramGate) :
    gateSteps i k (first ++ second) =
      gateSteps i k first ++ gateSteps (i + first.length) (first.foldl nextAnd k) second := by
  induction first generalizing i k with
  | nil => rfl
  | cons gate rest ih =>
    rw [List.cons_append, gateSteps, ih, List.length_cons,
      Nat.add_comm rest.length, ← Nat.add_assoc]
    rfl

namespace Ag2pcProgramBuilder

variable {b b' b'' : Ag2pcProgramBuilder} {x : List Bool} {m n w : ℕ} {v : UInt8}

/-- A further gate adds one wire to the values. -/
theorem value_push (b : Ag2pcProgramBuilder) (x : List Bool) (gate : Ag2pcProgramGate) :
    value { b with gates := b.gates ++ [gate] } x =
      Function.update (b.value x) b.next
        (GateStep.plain ⟨0, 0, gate⟩ (b.value x gate.in0) (b.value x gate.right)) := by
  rw [value, Ag2pcProgram.plainWires, Ag2pcProgram.wires, gateSteps_append, List.map_append,
    StraightLine.exec_append]
  simp only [gateSteps, List.map_cons, List.map_nil, StraightLine.exec_cons, StraightLine.exec_nil]
  rw [StraightLine.Instr.exec, GateStep.instr_value, Nat.zero_add]
  rfl

/-- A gate which reads numbered wires can be pushed, unless the program is full. -/
theorem pushGate_spec (hb : b.Good) {gate : Ag2pcProgramGate}
    (hreads : ∀ w ∈ gate.reads, w < b.next) (hfit : b.next < gateWireLimit) :
    b.pushGate gate.typ gate.in0 gate.in1 =
        .ok (b.next, { b with gates := b.gates ++ [gate] }) ∧
      b.Extends 1 { b with gates := b.gates ++ [gate] } := by
  refine ⟨if_neg (Nat.not_le_of_lt hfit), ⟨fun i other hother w hw => ?_, ?_⟩, rfl, ?_,
    fun x w hw => ?_⟩
  · rcases getElem?_append_singleton hother with ⟨-, hold⟩ | ⟨rfl, rfl⟩
    · exact hb.reads i other hold w hw
    · exact hreads w hw
  · simp only [next, List.length_append, List.length_singleton] at hfit ⊢
    omega
  · simp only [next, List.length_append, List.length_singleton]
    omega
  · rw [value_push, Function.update_of_ne hw.ne]

/-- The bit a gate computes. -/
def gateByte (typ : Ag2pcGateType) (v0 v1 : UInt8) : UInt8 :=
  match typ with
  | .and => v0 &&& v1
  | .xor => v0 ^^^ v1
  | .inv => v0 ^^^ 1

/-- The wire of a pushed gate carries the bit the gate computes. -/
theorem carries_push {gate : Ag2pcProgramGate} {v0 v1 : UInt8} (h0 : b.Carries x gate.in0 v0)
    (h1 : b.Carries x gate.right v1) :
    Carries { b with gates := b.gates ++ [gate] } x b.next (gateByte gate.typ v0 v1) := by
  refine ⟨?_, ?_⟩
  · simp only [next, List.length_append, List.length_singleton]
    omega
  · rw [value_push, Function.update_self, ← h0.value_eq, ← h1.value_eq]
    cases htyp : gate.typ <;> simp only [GateStep.plain, gateByte, htyp] <;>
      cases b.value x gate.in0 <;> cases b.value x gate.right <;> rfl

/-- What a builder step guarantees: it succeeds with a further wire, which carries the bit computed
from the bits of the wires it reads. -/
theorem xorW_spec (hb : b.Good) {in0 in1 : ℕ} (hlt0 : in0 < b.next) (hlt1 : in1 < b.next)
    (hfit : b.next < gateWireLimit) :
    ∃ b', b.xorW in0 in1 = .ok (b.next, b') ∧ b.Extends 1 b' ∧
      ∀ x v0 v1, b.Carries x in0 v0 → b.Carries x in1 v1 → b'.Carries x b.next (v0 ^^^ v1) := by
  have hreads : ∀ w ∈ Ag2pcProgramGate.reads ⟨.xor, in0, in1⟩, w < b.next := by
    intro w hw
    unfold Ag2pcProgramGate.reads at hw
    split at hw <;> simp only [List.mem_cons, List.not_mem_nil, or_false] at hw
    · exact hw ▸ hlt0
    · exact hw.elim (fun h => h ▸ hlt0) fun h => h ▸ hlt1
  obtain ⟨hpush, hextends⟩ := pushGate_spec hb hreads hfit
  exact ⟨_, hpush, hextends, fun x v0 v1 h0 h1 =>
    show Carries ⟨_, b.gates ++ [⟨.xor, in0, in1⟩]⟩ x _ _ from carries_push h0 h1⟩

end Ag2pcProgramBuilder

end Shachain2pc
