import Shachain2pc.Compat.CircuitProgram
import Shachain2pc.Party.CacheModes

/-!
# The full mode, and the choice of a mode

In the full mode a party runs one program for each index, made of the circuit of the index, on the
shares of the seed. `run_party` checks what was asked for, and runs the mode which the environment
names.
-/

namespace Shachain2pc

open Rust (Outcome)

inductive PartyOutput where
  | single (value : Value32)
  | range (values : List (ℕ × Value32))
  deriving DecidableEq

namespace PartySession

variable {S : Type}

/-- A circuit which is built. -/
def buildCircuit : Outcome CircuitError Circuit → PartyM S Circuit
  | .ok circuit => return circuit
  | .error (.error e) => onStandalone (.error (.circuit e))
  | .error .panic => throw .panic

variable [TranscriptIo S] (base : PartyBase S)

/-- `build_circuit_for_index`, and the program of its circuit. -/
def indexProgram (index : ℕ) : PartyM S Ag2pcProgram := do
  let circuit ← buildCircuit (buildDerivationCircuit base.sha index)
  buildProgram (fromCircuit circuit)

/-- The programs of a range, each on the shares of the seed. -/
def runItems (seedInputs : Ag2pcSecureWires) : List ℕ → PartyM S (List (ℕ × Ag2pcSecureWires))
  | [] => return []
  | index :: rest => do
    let program ← indexProgram base index
    let out ← runProgram base program seedInputs
    let later ← runItems seedInputs rest
    return (index, out.stripLabelsForReveal) :: later

/-- `run_derivation_batch`. -/
def runDerivationBatch (role : Role) (indices : List ℕ) (share : Value32) :
    PartyM S (List (ℕ × Value32)) := do
  let _ ← entryOr indices.head? "range must not be empty"
  let seedInputs ← openSession base role ⟨.batch, indices⟩ share
  let authenticated ← runItems base seedInputs indices
  let outputs ← revealAuthenticatedValues base role authenticated
  finish base
  return outputs

/-- The full mode of `run_party` on one index. -/
def runDerivationFull (role : Role) (index : Index48) (share : Value32) : PartyM S Value32 := do
  let program ← indexProgram base index.get
  let seedInputs ← openSession base role ⟨.batch, [index.get]⟩ share
  let authenticated ← runProgram base program seedInputs
  let output ← onSession (Ag2pcSession.revealPublic base.pool authenticated.stripLabelsForReveal)
  finish base
  flushMain role
  valueFromBits output

/-- `run_party` on a range. -/
def runRange (role : Role) (env : StandaloneEnv) (indices : List ℕ) (share : Value32) :
    RequestedMode → PartyM S (List (ℕ × Value32))
  | .full => runDerivationBatch base role indices share
  | .tree => runDerivationTree base role indices share (trunkChunkBlocksFromEnv env 0)
  | .cache => do
    let tileFanout ← onStandalone (tileFanoutFromEnv env)
    runDerivationCache base role indices share (trunkChunkBlocksFromEnv env 16) tileFanout
  | .chunked => onStandalone (.error
      (.unsupportedMode "Rust SHACHAIN2PC_CHUNK_BLOCKS mode is single-index only"))

/-- `run_party` on one index. -/
def runSingle (role : Role) (env : StandaloneEnv) (index : Index48) (share : Value32) :
    RequestedMode → PartyM S Value32
  | .full => runDerivationFull base role index share
  | .chunked => do
    let blocksPerChunk ← entryOr (chunkBlocksFromEnv env)
      "Rust SHACHAIN2PC_CHUNK_BLOCKS mode requires a positive chunk size"
    runDerivationChunked base role index share blocksPerChunk
  | .tree => onStandalone (.error (.unsupportedMode "Rust SHACHAIN2PC_TREE mode requires a range"))
  | .cache =>
    onStandalone (.error (.unsupportedMode "Rust SHACHAIN2PC_CACHE mode requires a range"))

/-- `run_party`. -/
def runParty (role : Role) (request : StandaloneRequest) (share : Value32) :
    PartyM S PartyOutput := do
  onStandalone (ensureIndexAllowed request.indexSpec request.allowSeedReveal)
  match request.indexSpec with
  | .single index => do
    let value ← runSingle base role request.env index share (requestedModeFromEnv request.env false)
    return .single value
  | .range lo hi => do
    let values ← runRange base role request.env (rangeIndices lo.get hi.get) share
      (requestedModeFromEnv request.env true)
    return .range values

end PartySession

end Shachain2pc
