import Shachain2pc.Circuit.ChunkCircuit
import Shachain2pc.Compat.ChunkProgram

/-!
# Tile programs

`tile_from_sha` builds the program of every edge below a node in a window of bits, node by
node in the order of the tile circuit.
-/

namespace Shachain2pc

open Rust

namespace Ag2pcProgramBuilder

/-- One edge of a tile: the node of a suffix, from its parent's. -/
def tileStep (sha : Circuit) (c0 c1 bitOffset : ℕ) (s : List (List ℕ) × Ag2pcProgramBuilder)
    (suffix : ℕ) : Outcome ProgramError (List (List ℕ) × Ag2pcProgramBuilder) := do
  let p ← readSlot s.1 (suffix &&& (suffix - 1))
  let (p, b) ← hashWires sha c0 c1 (p, s.2) (bitOffset + trailingZeros suffix)
  let node ← writeSlot s.1 suffix p
  .ok (node, b)

/-- The gates of a tile. -/
def tileGates (sha : Circuit) (bitOffset tileHeight : ℕ) (b : Ag2pcProgramBuilder) :
    Outcome ProgramError Ag2pcProgramBuilder := do
  let (c0, b) ← b.xorW 0 0
  let (c1, b) ← b.invW c0
  let node := (List.replicate (2 ^ tileHeight) []).set 0 (List.range valueBits)
  let (node, b) ← (tileSuffixes tileHeight).foldlM (tileStep sha c0 c1 bitOffset) (node, b)
  let (_, b) ← b.xorPairs ((node.take (2 ^ tileHeight)).flatMap fun leaf =>
    (leaf.take valueBits).map fun wire => (wire, c0))
  .ok b

end Ag2pcProgramBuilder

open Ag2pcProgramBuilder in
/-- `Ag2pcProgram::tile_from_sha`. -/
def tileFromSha (sha : Circuit) (bitOffset tileHeight : ℕ) : Outcome ProgramError Ag2pcProgram := do
  if tileHeight < 1 ∨ indexBits < tileHeight then
    badProgram "BuildTileProgram: invalid tile height"
  else do
    let window ← checkedUsize (bitOffset + tileHeight)
    if indexBits < window then badProgram "BuildTileProgram: bit window out of range"
    else do
      validateShaGadget "BuildTileProgram" sha
      let b ← tileGates sha bitOffset tileHeight ⟨valueBits, []⟩
      b.finish (valueBits * 2 ^ tileHeight)

end Shachain2pc
