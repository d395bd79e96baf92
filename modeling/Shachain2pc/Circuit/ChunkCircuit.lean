import Shachain2pc.Circuit.Derivation
import Shachain2pc.Types.Derivability

/-!
# The chunk and tile circuits

A chunk circuit makes the edges of one group of set bits. A tile circuit makes every edge
below a node in a window of bits: a suffix sets bits of the window, and its value hashes
the value of the suffix without its lowest bit. Both copy what they computed, so that their
outputs are their last wires. A value has 256 wires, as the gadget has 256 outputs.
-/

namespace Shachain2pc

open Rust

namespace Builder

/-- The wires of one value, from the first input. -/
def valueWires : List ℤ := (List.range valueBits).map fun i : ℕ => (i : ℤ)

/-- The wires a chunk starts from. -/
def startWires (b : Builder) (first : Bool) : Outcome CircuitError (List ℤ × Builder) :=
  if first then b.xorPairs sharePairs else .ok (valueWires, b)

/-- One edge of a chunk. -/
def chunkStep (sha : Circuit) (c0 c1 : ℤ) (s : List ℤ × Builder) (bit : ℕ) :
    Outcome CircuitError (List ℤ × Builder) :=
  s.2.hashWires sha c0 c1 s.1 bit

/-- The gates of a chunk. -/
def chunkGates (sha : Circuit) (chainBits : List ℕ) (first : Bool) (b : Builder) :
    Outcome CircuitError Builder := do
  let (c0, b) ← b.xorW 0 0
  let (c1, b) ← b.invW c0
  let s ← b.startWires first
  let (p, b) ← chainBits.foldlM (chunkStep sha c0 c1) s
  let (_, b) ← b.xorPairs ((p.take valueBits).map fun wire => (wire, c0))
  .ok b

/-- One edge of a tile: the node of a suffix, from its parent's. -/
def tileStep (sha : Circuit) (c0 c1 : ℤ) (bitOffset : ℕ) (s : List (List ℤ) × Builder)
    (suffix : ℕ) :
    Outcome CircuitError (List (List ℤ) × Builder) := do
  let p ← readSlot s.1 (suffix &&& (suffix - 1))
  let (p, b) ← s.2.hashWires sha c0 c1 p (bitOffset + trailingZeros suffix)
  let node ← writeSlot s.1 suffix p
  .ok (node, b)

end Builder

/-- The suffixes of a tile in the order of its loops, by their number of bits. -/
def tileSuffixes (tileHeight : ℕ) : List ℕ :=
  (List.range' 1 tileHeight).flatMap fun depth =>
    (List.range' 1 (2 ^ tileHeight - 1)).filter fun suffix => countOnes suffix = depth

namespace Builder

/-- The gates of a tile. -/
def tileGates (sha : Circuit) (bitOffset tileHeight : ℕ) (b : Builder) :
    Outcome CircuitError Builder := do
  let (c0, b) ← b.xorW 0 0
  let (c1, b) ← b.invW c0
  let node := (List.replicate (2 ^ tileHeight) []).set 0 valueWires
  let (node, b) ← (tileSuffixes tileHeight).foldlM (tileStep sha c0 c1 bitOffset) (node, b)
  let (_, b) ← b.xorPairs ((node.take (2 ^ tileHeight)).flatMap fun leaf =>
    (leaf.take valueBits).map fun wire => (wire, c0))
  .ok b

end Builder

/-- `build_chunk_circuit`. -/
def buildChunkCircuit (sha : Circuit) (chainBits : List ℕ) (first : Bool) :
    Outcome CircuitError Circuit := do
  let width ← checkedI32 (sha.n1 + sha.n2)
  if width ≠ 512 ∨ sha.n3 ≠ valueBits then
    .error (.error (.shape "BuildChunkCircuit: gadget is not 512->256"))
  else if chainBits.any (indexBits ≤ ·) then
    .error (.error (.shape "BuildChunkCircuit: chain bit exceeds 48 bits"))
  else do
    let b ← Builder.chunkGates sha chainBits first
      (Builder.new (if first then 2 * valueBits else valueBits))
    .ok (b.finish valueBits (if first then valueBits else 0) valueBits)

/-- `build_tile_circuit`. -/
def buildTileCircuit (sha : Circuit) (bitOffset tileHeight : ℕ) : Outcome CircuitError Circuit := do
  if tileHeight < 1 ∨ indexBits < tileHeight then
    .error (.error (.shape "BuildTileCircuit: invalid tile height"))
  else do
    let window ← checkedUsize (bitOffset + tileHeight)
    if indexBits < window then
      .error (.error (.shape "BuildTileCircuit: bit window out of range"))
    else do
      let width ← checkedI32 (sha.n1 + sha.n2)
      if width ≠ 512 ∨ sha.n3 ≠ valueBits then
        .error (.error (.shape "BuildTileCircuit: gadget is not 512->256"))
      else do
        let b ← Builder.tileGates sha bitOffset tileHeight (Builder.new valueBits)
        .ok (b.finish valueBits 0 (wrapI32 (valueBits * 2 ^ tileHeight : ℕ)))

end Shachain2pc
