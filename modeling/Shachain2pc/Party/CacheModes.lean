import Shachain2pc.Circuit.TileLevels
import Shachain2pc.Party.RangeSplit
import Shachain2pc.Party.StandaloneModes

/-!
# The cached derivation of a range

Below the shared trunk a party derives the indices of a range from nodes which it keeps. When the
range is a whole subtree, it runs levels of tiles, the nodes of each level being the roots of the
next. Else it goes from the last index down with a stack of the nodes on the path: a run of
sixteen indices is one tile, and any other index is the last node of the stack.

All values are opened at the end, from the last index down.
-/

namespace Shachain2pc

open Rust (Failure Outcome)

/-- The nodes on a path, from the trunk. -/
structure CacheStack where
  bits : List ℕ
  vals : List Ag2pcSecureWires

/-- The loop of `align_cache_stack` which finds where two paths part. -/
def commonPrefix : List ℕ → List ℕ → ℕ
  | bit :: bits, next :: target => if bit = next then commonPrefix bits target + 1 else 0
  | _, _ => 0

/-- What one round of the loop over a range derives. -/
inductive CacheStep where
  | tile (first : ℕ)
  | single (index : ℕ)
  deriving DecidableEq

/-- `tile_mask`. -/
def tileMask : ℕ := cacheTileLeaves - 1

/-- `tile_base` of an index. -/
def tileBase (index : ℕ) : ℕ := index &&& notU64 tileMask

/-- `full_tile`: a tile ends at an index, and is within the range. -/
def FullTile (canTile : Bool) (lo hi index : ℕ) : Prop :=
  canTile ∧ index &&& tileMask = tileMask ∧ lo ≤ tileBase index ∧ tileBase index + tileMask ≤ hi

instance (canTile : Bool) (lo hi index : ℕ) : Decidable (FullTile canTile lo hi index) :=
  inferInstanceAs (Decidable (_ ∧ _ ∧ _ ∧ _))

/-- The rounds of the loop, from an index above the first down. -/
def cacheSteps (canTile : Bool) (lo hi count : ℕ) : List CacheStep :=
  if hfull : FullTile canTile lo hi (lo + count) then
    .tile (tileBase (lo + count)) ::
      if tileBase (lo + count) = lo then
        [] else cacheSteps canTile lo hi (tileBase (lo + count) - 1 - lo)
  else
    .single (lo + count) :: match count with
      | 0 => []
      | below + 1 => cacheSteps canTile lo hi below
termination_by count
decreasing_by
  · have hle : tileBase (lo + count) ≤ lo + count := Nat.and_le_left
    have hge := hfull.2.2.1
    omega
  · omega

/-- The tiles and the single nodes which were derived, by their first index. -/
structure CacheOuts where
  tiles : List (ℕ × Ag2pcSecureWires)
  singles : List (ℕ × Ag2pcSecureWires)

/-- The values of a range, or the error when one is missing. -/
def collectResults (lo : ℕ) (results : List (Option Value32)) (missing : String) :
    List ℕ → Outcome StandaloneError (List (ℕ × Value32))
  | [] => .ok []
  | index :: rest => do
    let result ← if index < lo then .error .panic else Rust.readSlot results (index - lo)
    match result with
    | none => .error (.error (.unsupportedMode missing))
    | some value => do
      let later ← collectResults lo results missing rest
      .ok ((index, value) :: later)

namespace PartySession

variable {S : Type}

/-- An outcome which is looked at later; a panic comes at once. -/
def settle {A : Type} : Outcome StandaloneError A → PartyM S (Except StandaloneError A)
  | .ok a => return .ok a
  | .error (.error e) => return .error e
  | .error .panic => throw .panic

/-- An entry, or an error when there is none. -/
def entryOr {A : Type} (entry : Option A) (missing : String) : PartyM S A :=
  onStandalone (match entry with
    | none => .error (.unsupportedMode missing)
    | some a => .ok a)

/-- A leaf of a tile. -/
def sliceLeaf (tile : Ag2pcSecureWires) (slot : ℕ) : PartyM S Ag2pcSecureWires :=
  onSession (Ag2pcSession.onCompat (tile.slice (slot * valueBits) ((slot + 1) * valueBits)))

/-- Leaves of a tile. -/
def sliceLeaves (tile : Ag2pcSecureWires) : List ℕ → PartyM S (List Ag2pcSecureWires)
  | [] => return []
  | slot :: rest => do
    let leaf ← sliceLeaf tile slot
    let later ← sliceLeaves tile rest
    return leaf :: later

variable [TranscriptIo S] (base : PartyBase S)

/-! ## Levels of tiles -/

/-- The tiles of the bottom level, without labels. -/
def bottomTiles (program : Ag2pcProgram) : List Ag2pcSecureWires → PartyM S (List Ag2pcSecureWires)
  | [] => return []
  | root :: rest => do
    let tile ← runProgram base program root
    let later ← bottomTiles program rest
    return tile.stripLabelsForReveal :: later

/-- The leaves of the tiles of another level. -/
def splitTiles (program : Ag2pcProgram) (height : ℕ) :
    List Ag2pcSecureWires → PartyM S (List Ag2pcSecureWires)
  | [] => return []
  | root :: rest => do
    let tile ← runProgram base program root
    let leaves ← sliceLeaves tile (List.range (2 ^ height))
    let later ← splitTiles program height rest
    return leaves ++ later

/-- The loop over levels, which ends with the height and the tiles of the bottom level. -/
def runLevels :
    TileLevel → List TileLevel → List Ag2pcSecureWires → PartyM S (ℕ × List Ag2pcSecureWires)
  | level, [], roots => do
    let program ← buildProgram (tileFromSha base.sha level.bitOffset level.height)
    let tiles ← bottomTiles base program roots
    return (level.height, tiles)
  | level, next :: rest, roots => do
    let program ← buildProgram (tileFromSha base.sha level.bitOffset level.height)
    let roots ← splitTiles base program level.height roots
    runLevels next rest roots

/-- The leaf of an index in the tiles of the bottom level. -/
def tileLeaf (lowMask height : ℕ) (tiles : List Ag2pcSecureWires) (index : ℕ) :
    PartyM S Ag2pcSecureWires := do
  let suffix := index &&& lowMask
  let tile ← entryOr tiles[suffix >>> height]? "shachain2pc: missing recursive cached tile"
  sliceLeaf tile (suffix &&& (2 ^ height - 1))

/-! ## The stack -/

/-- `CacheStack::last`. -/
def lastVal (stack : CacheStack) : PartyM S Ag2pcSecureWires :=
  element stack.vals (stack.vals.length - 1)

/-- The program of one bit, which for the lowest is there. -/
def bitProgram (oneStep : Ag2pcProgram) (bit : ℕ) : PartyM S Ag2pcProgram :=
  if bit = 0 then return oneStep else buildProgram (chunkFromSha base.sha [bit] false)

/-- Bits are added to the stack. -/
def pushBits (oneStep : Ag2pcProgram) : List ℕ → CacheStack → PartyM S CacheStack
  | [], stack => return stack
  | bit :: rest, stack => do
    let program ← bitProgram base oneStep bit
    let last ← lastVal stack
    let next ← runProgram base program last
    pushBits oneStep rest ⟨stack.bits ++ [bit], stack.vals ++ [next]⟩

/-- `align_cache_stack`. -/
def alignCacheStack (oneStep : Ag2pcProgram) (stack : CacheStack) (target : List ℕ) :
    PartyM S CacheStack :=
  let keep := commonPrefix stack.bits target
  pushBits base oneStep (target.drop keep) ⟨stack.bits.take keep, stack.vals.take (keep + 1)⟩

/-- A program which is there, or a panic. -/
def expectProgram : Option Ag2pcProgram → PartyM S Ag2pcProgram
  | none => throw .panic
  | some program => return program

/-- The rounds of the loop over a range. -/
def runSteps (lowMask : ℕ) (tileProgram : Option Ag2pcProgram) (oneStep : Ag2pcProgram) :
    List CacheStep → CacheStack → CacheOuts → PartyM S CacheOuts
  | [], _, outs => return outs
  | .tile first :: rest, stack, outs => do
    let stack ← alignCacheStack base oneStep stack
      (setBitsDesc ((first &&& lowMask) &&& notU64 tileMask))
    let program ← expectProgram tileProgram
    let last ← lastVal stack
    let tile ← runProgram base program last
    runSteps lowMask tileProgram oneStep rest stack
      { outs with tiles := (first, tile.stripLabelsForReveal) :: outs.tiles }
  | .single index :: rest, stack, outs => do
    let stack ← alignCacheStack base oneStep stack (setBitsDesc (index &&& lowMask))
    let out ← lastVal stack
    runSteps lowMask tileProgram oneStep rest stack
      { outs with singles := (index, out.stripLabelsForReveal) :: outs.singles }

/-- The leaf of an index in what the loop derived. -/
def cachedLeaf (outs : CacheOuts) (index : ℕ) : PartyM S Ag2pcSecureWires :=
  match outs.tiles.lookup (tileBase index) with
  | some tile => sliceLeaf tile (index &&& tileMask)
  | none => entryOr (outs.singles.lookup index) "shachain2pc: missing cached output"

/-- The program for a whole tile, which is built when tiles are allowed. -/
def fullTileProgram (tileFanout : ℕ) : PartyM S (Option Ag2pcProgram) :=
  if 2 ≤ tileFanout then do
    let program ← buildProgram (tileFromSha base.sha 0 cacheTileHeight)
    return some program
  else return none

/-! ## The derivation -/

/-- Open the values of a range, from an index above the first down. -/
def revealDown (leafAt : ℕ → PartyM S Ag2pcSecureWires) (lo : ℕ) :
    ℕ → List (Option Value32) → PartyM S (List (Option Value32))
  | 0, results => do
    let leaf ← leafAt lo
    let value ← revealValue base leaf
    return results.set 0 (some value)
  | below + 1, results => do
    let leaf ← leafAt (lo + (below + 1))
    let value ← revealValue base leaf
    revealDown leafAt lo below (results.set (below + 1) (some value))

/-- What follows the derivation of a range: the openings, and the end of the session. -/
def revealRange (role : Role) (leafAt : ℕ → PartyM S Ag2pcSecureWires) (lo hi : ℕ)
    (indices : List ℕ) (missing : String) : PartyM S (List (ℕ × Value32)) := do
  let results ← revealDown base leafAt lo (hi - lo) (List.replicate (hi - lo + 1) none)
  flushMain role
  let outputs ← settle (collectResults lo results missing indices)
  finish base
  onStandalone outputs

/-- The levels of tiles of a range which is a whole subtree. -/
def recursiveLevels (lo hi tileHeight : ℕ) (masks : SplitMasks) :
    Except StandaloneError (List TileLevel) :=
  if 1 ≤ tileHeight ∧
    (masks.split.isSome ∧ lo &&& masks.lowMask = 0 ∧ hi &&& masks.lowMask = masks.lowMask) ∧
      tileHeight ≤ masks.depth then
    (planTileLevels masks.depth tileHeight).mapError .circuit
  else .ok []

/-- `run_derivation_cache`. -/
def runDerivationCache (role : Role) (indices : List ℕ) (share : Value32) (trunkChunkBlocks : ℤ)
    (tileFanout : ℕ) : PartyM S (List (ℕ × Value32)) := do
  let lo ← entryOr indices.head? "range must not be empty"
  let hi ← entryOr indices.getLast? "range must not be empty"
  let tileHeight ← onStandalone (tileHeightForFanout tileFanout)
  let masks := rangeSplitMasks lo [lo, hi]
  let groups ← onStandalone (trunkGroups lo masks.highMask trunkChunkBlocks
    ("shachain2pc: cache needs >=1 common high set bit (no shared trunk hash); " ++
      "use batch mode for this range"))
  let levels ← onStandalone (recursiveLevels lo hi tileHeight masks)
  let seedInputs ← openSession base role ⟨.cache trunkChunkBlocks tileFanout, indices⟩ share
  let trunk ← runTrunk base groups seedInputs
  match levels with
  | level :: rest => do
    let bottom ← runLevels base level rest [trunk]
    revealRange base role (tileLeaf masks.lowMask bottom.1 bottom.2) lo hi indices
      "shachain2pc: missing recursive cached result"
  | [] => do
    let tileProgram ← fullTileProgram base tileFanout
    let oneStep ← buildProgram (chunkFromSha base.sha [0] false)
    let canTile := decide (2 ≤ tileFanout ∧ cacheTileHeight ≤ masks.depth)
    let outs ← runSteps base masks.lowMask tileProgram oneStep
      (cacheSteps canTile lo hi (hi - lo)) ⟨[], [trunk]⟩
      ⟨[], []⟩
    revealRange base role (cachedLeaf outs) lo hi indices "shachain2pc: missing cached result"

end PartySession

end Shachain2pc
