import Shachain2pc.Types.Parse
import Shachain2pc.Circuit.Chunk
import Shachain2pc.Circuit.Digest
import Shachain2pc.Types.Derivability

/-!
# The standalone party's modes

The command line gives an index or a range, and environment variables choose the mode and
its parameters. A mode checks its range before anything is sent; the parties then exchange
one digest and stop unless they agree.
-/

namespace Shachain2pc

/-- The errors of the party crate raised before a standalone session. -/
inductive StandaloneError where
  | circuit (error : CircuitError)
  | circuitMismatch
  | seedRevealRefused
  | unsupportedMode (message : String)
  deriving DecidableEq, Repr

/-- The text of an error. -/
def StandaloneError.message : StandaloneError → String
  | .circuit (.shape message) => message
  | .circuit (.parse message) => message
  | .circuit (.index error) => error.message
  | .circuitMismatch => "shachain2pc: circuit mismatch -- the two parties are not running the " ++
      "same agreed circuit (same index?)"
  | .seedRevealRefused => "I=0 reveals the seed (root of all revocation secrets); re-run with " ++
      "--allow-seed-reveal to proceed"
  | .unsupportedMode message => message

inductive IndexSpec where
  | single (index : Index48)
  | range (lo hi : Index48)
  deriving DecidableEq

/-- `IndexSpec::contains_seed`. -/
def IndexSpec.containsSeed : IndexSpec → Bool
  | .single index => index.get = 0
  | .range lo hi => lo.get = 0 ∧ lo.get ≤ hi.get

/-- The indices of an inclusive range, in ascending order. -/
def rangeIndices (lo hi : ℕ) : List ℕ := List.range' lo (hi + 1 - lo)

/-- `ensure_index_allowed`. -/
def ensureIndexAllowed (spec : IndexSpec) (allowSeedReveal : Bool) : Except StandaloneError Unit :=
  if spec.containsSeed ∧ ¬allowSeedReveal then .error .seedRevealRefused else .ok ()

/-- The environment variables a run reads; unset and non-Unicode ones are `none`. -/
structure StandaloneEnv where
  cache : Option String
  tree : Option String
  chunkBlocks : Option String
  tileFanout : Option String

/-- `env_nonzero`. -/
def envNonzero (text : Option String) : Bool :=
  (text.bind parseI32).any (· ≠ 0)

/-- `env_positive`. -/
def envPositive (text : Option String) : Bool :=
  (text.bind parseI32).any (0 < ·)

inductive RequestedMode where
  | full
  | chunked
  | tree
  | cache
  deriving DecidableEq, Repr

/-- `requested_mode_from_env`. -/
def requestedModeFromEnv (env : StandaloneEnv) (isRange : Bool) : RequestedMode :=
  if isRange ∧ envNonzero env.cache then .cache
  else if isRange ∧ envNonzero env.tree then .tree
  else if envPositive env.chunkBlocks then .chunked
  else .full

/-- `chunk_blocks_from_env`. -/
def chunkBlocksFromEnv (env : StandaloneEnv) : Option ℕ :=
  (env.chunkBlocks.bind parseUsize).filter (0 < ·)

/-- `trunk_chunk_blocks_from_env`. -/
def trunkChunkBlocksFromEnv (env : StandaloneEnv) (default : ℤ) : ℤ :=
  (env.chunkBlocks.bind parseI32).getD default

/-- `CACHE_TILE_HEIGHT`. -/
def cacheTileHeight : ℕ := 4

/-- `CACHE_TILE_LEAVES`. -/
def cacheTileLeaves : ℕ := 2 ^ cacheTileHeight

/-- `validate_tile_fanout`. A `usize` is a power of two when it has one bit set. -/
def validateTileFanout (value : ℕ) : Except StandaloneError ℕ :=
  if value < 1 ∨ value ≠ 2 ^ trailingZeros value then
    .error (.unsupportedMode "shachain2pc: tile_fanout must be a power of two")
  else if cacheTileLeaves < value then
    .error (.unsupportedMode "shachain2pc: tile_fanout > 16 not supported")
  else .ok value

/-- `tile_fanout_from_env`. -/
def tileFanoutFromEnv (env : StandaloneEnv) : Except StandaloneError ℕ :=
  validateTileFanout ((env.tileFanout.bind parseUsize).getD cacheTileLeaves)

/-- `tile_height_for_fanout`. -/
def tileHeightForFanout (tileFanout : ℕ) : Except StandaloneError ℕ := do
  let _ ← validateTileFanout tileFanout
  return trailingZeros tileFanout

/-- `effective_chunk_size`. -/
def effectiveChunkSize (trunkChunkBlocks : ℤ) : ℕ :=
  if 0 < trunkChunkBlocks then trunkChunkBlocks.toNat else indexBits

/-- The masks of `range_split_masks`; `none` is the source's `-1`. -/
structure SplitMasks where
  split : Option ℕ
  lowMask : ℕ
  highMask : ℕ
  deriving DecidableEq, Repr

/-- `range_split_masks` for a nonempty list. -/
def rangeSplitMasks (first : ℕ) (indices : List ℕ) : SplitMasks :=
  let diff := indices.foldl (fun acc index => acc ||| (index ^^^ first)) 0
  let split := bitsDesc.find? diff.testBit
  let lowMask := match split with
    | none => 0
    | some bit => 2 ^ (bit + 1) - 1
  ⟨split, lowMask, maxIndex &&& notU64 lowMask⟩

inductive StandaloneMode where
  | batch
  | chunked (blocksPerChunk : ℕ)
  | tree (trunkChunkBlocks : ℤ)
  | cache (trunkChunkBlocks : ℤ) (tileFanout : ℕ)
  deriving DecidableEq, Repr

/-- What a party runs: a mode with its parameters, on a list of indices. -/
structure StandaloneRun where
  mode : StandaloneMode
  indices : List ℕ
  deriving DecidableEq, Repr

/-- The shared trunk of a range, refused when no bit is shared. -/
def trunkGroups (first highMask : ℕ) (trunkChunkBlocks : ℤ) (refusal : String) :
    Except StandaloneError (List (List ℕ)) := do
  let groups ← (splitChainBits (first &&& highMask) (effectiveChunkSize trunkChunkBlocks)).mapError
    .circuit
  if groups.flatten.length = 0 then .error (.unsupportedMode refusal) else .ok groups

/-- What `run_derivation_tree` checks before it connects. -/
def checkTree (indices : List ℕ) (trunkChunkBlocks : ℤ) : Except StandaloneError Unit :=
  match indices with
  | [] => .error (.unsupportedMode "range must not be empty")
  | first :: _ => do
    let masks := rangeSplitMasks first indices
    let _ ← trunkGroups first masks.highMask trunkChunkBlocks
      ("shachain2pc: shared-trunk needs >=1 common high set bit (no shared hash in this range); " ++
        "use batch mode")

/-- What `run_derivation_cache` checks before it connects. -/
def checkCache (indices : List ℕ) (trunkChunkBlocks : ℤ) (tileFanout : ℕ) :
    Except StandaloneError Unit :=
  match indices.head?, indices.getLast? with
  | some lo, some hi => do
    let _ ← tileHeightForFanout tileFanout
    let masks := rangeSplitMasks lo [lo, hi]
    let _ ← trunkGroups lo masks.highMask trunkChunkBlocks
      ("shachain2pc: cache needs >=1 common high set bit (no shared trunk hash); " ++
        "use batch mode for this range")
  | _, _ => .error (.unsupportedMode "range must not be empty")

/-- `run_party` on a range, up to the digest exchange. -/
def selectRangeRun (env : StandaloneEnv) (indices : List ℕ) :
    RequestedMode → Except StandaloneError StandaloneRun
  | .full =>
    if indices = [] then .error (.unsupportedMode "range must not be empty")
    else .ok ⟨.batch, indices⟩
  | .tree => do
    let trunkChunkBlocks := trunkChunkBlocksFromEnv env 0
    checkTree indices trunkChunkBlocks
    return ⟨.tree trunkChunkBlocks, indices⟩
  | .cache => do
    let trunkChunkBlocks := trunkChunkBlocksFromEnv env 16
    let tileFanout ← tileFanoutFromEnv env
    checkCache indices trunkChunkBlocks tileFanout
    return ⟨.cache trunkChunkBlocks tileFanout, indices⟩
  | .chunked =>
    .error (.unsupportedMode "Rust SHACHAIN2PC_CHUNK_BLOCKS mode is single-index only")

/-- `run_party` on a single index, up to the digest exchange. -/
def selectSingleRun (env : StandaloneEnv) (index : ℕ) :
    RequestedMode → Except StandaloneError StandaloneRun
  | .full => .ok ⟨.batch, [index]⟩
  | .chunked =>
    match chunkBlocksFromEnv env with
    | none => .error (.unsupportedMode
        "Rust SHACHAIN2PC_CHUNK_BLOCKS mode requires a positive chunk size")
    | some blocksPerChunk => do
      let _ ← (splitChainBits index blocksPerChunk).mapError StandaloneError.circuit
      return ⟨.chunked blocksPerChunk, [index]⟩
  | .tree => .error (.unsupportedMode "Rust SHACHAIN2PC_TREE mode requires a range")
  | .cache => .error (.unsupportedMode "Rust SHACHAIN2PC_CACHE mode requires a range")

/-- What the command line and the environment ask for. -/
structure StandaloneRequest where
  indexSpec : IndexSpec
  allowSeedReveal : Bool
  env : StandaloneEnv

/-- `run_party` up to the digest exchange: the accepted run, or the error. -/
def StandaloneRequest.run (request : StandaloneRequest) : Except StandaloneError StandaloneRun := do
  ensureIndexAllowed request.indexSpec request.allowSeedReveal
  match request.indexSpec with
  | .single index => selectSingleRun request.env index.get (requestedModeFromEnv request.env false)
  | .range lo hi =>
    selectRangeRun request.env (rangeIndices lo.get hi.get) (requestedModeFromEnv request.env true)

/-- The bytes hashed for a run before the gadget's digest. -/
def StandaloneRun.specBytes (run : StandaloneRun) : List UInt8 :=
  match run.mode with
  | .batch => batchBytes run.indices
  | .chunked blocksPerChunk => chunkSpecBytes (run.indices.headD 0) blocksPerChunk
  | .tree trunkChunkBlocks => treeBytes run.indices trunkChunkBlocks
  | .cache trunkChunkBlocks tileFanout =>
    cacheBytes (run.indices.headD 0) (run.indices.getLastD 0) trunkChunkBlocks tileFanout

/-- The bytes hashed for a run. -/
def StandaloneRun.digestInput (run : StandaloneRun) (sha256 : List UInt8 → Value32)
    (sha : Circuit) : List UInt8 :=
  run.specBytes ++ gadgetDigest sha256 sha

/-- The digest a party sends. -/
def StandaloneRun.digest (run : StandaloneRun) (sha256 : List UInt8 → Value32) (sha : Circuit) :
    Value32 :=
  sha256 (run.digestInput sha256 sha)

/-- `exchange_circuit_digest`: one side's outcome, given what it received. -/
def exchangeCircuitDigest (digest peer : Value32) : Except StandaloneError Unit :=
  if peer = digest then .ok () else .error .circuitMismatch

end Shachain2pc
