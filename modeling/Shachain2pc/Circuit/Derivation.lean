import Shachain2pc.Circuit.Gadget
import Shachain2pc.Types.Chain

/-!
# The single-index derivation circuit

`build_derivation_circuit` XORs the two input shares, then for every set index bit inverts
one wire and applies a copy of the SHA-256 gadget to the value and a constant padding
block. The SHA-256 compression function and the gadget file are not part of the source
tree, so both are parameters related by `CompressionGadget`.
-/

namespace Shachain2pc

open Rust

/-- A 64-byte SHA-256 message block. -/
abbrev Block64 := Vector UInt8 64

/-- The padding SHA-256 appends to a 32-byte message: a one bit, zeros, and the message length
in bits as a big-endian 64-bit integer. -/
def sha256Padding : Vector UInt8 32 :=
  let zeros : Vector UInt8 23 := Vector.replicate 23 0
  (#v[(0x80 : UInt8)] ++ zeros) ++
    Vector.ofFn fun i : Fin 8 => UInt8.ofNat (256 >>> (8 * (7 - i.val)))

/-- The SHA-256 digest of a 32-byte message, given the compression function with the standard
initial value. -/
def sha256Digest (compress : Block64 → Value32) (p : Value32) : Value32 :=
  compress (p.bytes ++ sha256Padding)

/-- The pad array of `padding_bits`. -/
def paddingBytes : Vector UInt8 32 :=
  Vector.ofFn fun i : Fin 32 => if i.val = 0 then 0x80 else if i.val = 30 then 0x01 else 0

/-- `padding_bits`. -/
def paddingBits : List UInt8 := bitsMsb paddingBytes

/-- The constant wires which spell the padding block. -/
def paddingWires (c0 c1 : ℤ) : List ℤ := paddingBits.map fun bit => if bit ≠ 0 then c1 else c0

namespace Builder

/-- XOR pairs of wires onto consecutive fresh wires. -/
def xorPairs (b : Builder) : List (ℤ × ℤ) → Outcome CircuitError (List ℤ × Builder)
  | [] => .ok ([], b)
  | (in0, in1) :: rest => do
    let (out, b) ← b.xorW in0 in1
    let (outs, b) ← b.xorPairs rest
    .ok (out :: outs, b)

/-- The wires of the two shares, in the order the circuits pair them. -/
def sharePairs : List (ℤ × ℤ) :=
  (List.range valueBits).map fun i : ℕ => ((i : ℤ), (valueBits + i : ℤ))

/-- The prologue: the constant wires `c0` and `c1`, and the XOR of the two input shares. -/
def shareWires : Outcome CircuitError ((ℤ × ℤ) × List ℤ × Builder) := do
  let b := Builder.new (2 * valueBits)
  let (c0, b) ← b.xorW 0 0
  let (c1, b) ← b.invW c0
  let (p, b) ← b.xorPairs sharePairs
  .ok ((c0, c1), p, b)

/-- The loop body shared by the circuit builders: flip one bit of the value and hash it. -/
def hashWires (b : Builder) (sha : Circuit) (c0 c1 : ℤ) (p : List ℤ) (bit : ℕ) :
    Outcome CircuitError (List ℤ × Builder) := do
  let wire ← readSlot p (flipBitIndex bit)
  let (flipped, b) ← b.invW wire
  let p := p.set (flipBitIndex bit) flipped
  b.applyGadget sha (p ++ paddingWires c0 c1)

end Builder

/-- `build_derivation_circuit`. -/
def buildDerivationCircuit (sha : Circuit) (index : ℕ) : Outcome CircuitError Circuit := do
  if index > maxIndex then
    .error (.error (.index (.indexTooLarge index)))
  else do
    let width ← checkedI32 (sha.n1 + sha.n2)
    if width ≠ 512 ∨ sha.n3 ≠ valueBits then
      .error (.error (.shape "BuildDerivationCircuit: gadget is not 512->256"))
    else do
      let ((c0, c1), p, b) ← Builder.shareWires
      let (p, b) ← bitsDesc.foldlM
        (fun s bit => if index.testBit bit then s.2.hashWires sha c0 c1 s.1 bit else .ok s) (p, b)
      let (_, b) ← b.xorPairs (p.map fun wire => (wire, c0))
      .ok (b.finish valueBits valueBits valueBits)

/-- Gate `i` of the list reads only inputs and outputs of earlier gates. -/
def ReadsDefined (inputs : ℕ) (gates : List Gate) : Prop :=
  ∀ i (_ : i < gates.length), ∀ w ∈ gates[i].instr.args,
    w < inputs ∨ ∃ j, ∃ _ : j < i, asUsize gates[j].out = w

/-- What is assumed of the embedded gadget file: a single-assignment 512-to-256 circuit which
reads only defined wires, never writes an input, and computes SHA-256 compression. -/
structure CompressionGadget (compress : Block64 → Value32) (gadget : Circuit) : Prop where
  width : gadget.n1 + gadget.n2 = 512
  outputs : gadget.n3 = 256
  numWire_i32 : -(2 ^ 31) ≤ gadget.numWire ∧ gadget.numWire ≤ i32Max
  singleAssignment : (gadget.gates.map fun g => asUsize g.out).Nodup
  readsDefined : ReadsDefined 512 gadget.gates
  writes : ∀ g ∈ gadget.gates, 512 ≤ asUsize g.out
  computes : ∀ block, evalBristol gadget (bitsMsb block) = .ok (compress block).toBitsMsb

/-- The wires `build_derivation_circuit` numbers for an index. -/
def derivationWires (gadget : Circuit) (index : ℕ) : ℤ :=
  1026 + (setBitsDesc index).length * (gadget.numWire - 511)

end Shachain2pc
