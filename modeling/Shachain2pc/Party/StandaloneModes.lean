import Shachain2pc.Party.PartySession

/-!
# Derivations of a standalone party

A party derives one value by chunks, or the values of a range by a shared trunk. It cuts the bits
into chunks, agrees with the other party on a digest, authenticates the shares of the seed, runs
the chunks, and opens what they return. A range opens its values after all of them are computed.

The environment variable which makes a party run a wrong gate is not set.
-/

namespace Shachain2pc

namespace PartySession

variable {S : Type} [TranscriptIo S] (base : PartyBase S)

/-- The chunks after the first. -/
def runChunks : List (List ℕ) → Ag2pcSecureWires → PartyM S Ag2pcSecureWires
  | [], wires => return wires
  | bits :: rest, wires => do
    let wires ← runChunk base bits false wires
    runChunks rest wires

/-- Chunks from the seed: the first of them takes the two shares. -/
def runTrunk (groups : List (List ℕ)) (seedInputs : Ag2pcSecureWires) :
    PartyM S Ag2pcSecureWires := do
  let bits ← element groups 0
  let wires ← runChunk base bits true seedInputs
  runChunks base (groups.drop 1) wires

/-- What a party does before its first chunk. -/
def openSession (role : Role) (run : StandaloneRun) (share : Value32) :
    PartyM S Ag2pcSecureWires := do
  exchangeDigest role (run.digest base.pool.sha256 base.sha)
  setup base role
  authenticateSeedInputs base role share

/-- `run_derivation_chunked`. -/
def runDerivationChunked (role : Role) (index : Index48) (share : Value32) (blocksPerChunk : ℕ) :
    PartyM S Value32 := do
  let groups ← onStandalone
    ((splitChainBits index.get blocksPerChunk).mapError StandaloneError.circuit)
  let seedInputs ← openSession base role ⟨.chunked blocksPerChunk, [index.get]⟩ share
  let carried ← runTrunk base groups seedInputs
  let output ← onSession (Ag2pcSession.revealPublic base.pool carried.stripLabelsForReveal)
  finish base
  flushMain role
  valueFromBits output

/-- The branches of a range, each from the trunk. -/
def runBranches (lowMask : ℕ) (trunk : Ag2pcSecureWires) :
    List ℕ → PartyM S (List (ℕ × Ag2pcSecureWires))
  | [] => return []
  | index :: rest => do
    let out ← runChunk base (setBitsDesc (index &&& lowMask)) false trunk
    let later ← runBranches lowMask trunk rest
    return (index, out.stripLabelsForReveal) :: later

/-- The loop of `reveal_authenticated_values`. -/
def revealEach : List (ℕ × Ag2pcSecureWires) → PartyM S (List (ℕ × Value32))
  | [] => return []
  | entry :: rest => do
    let value ← revealValue base entry.2
    let later ← revealEach rest
    return (entry.1, value) :: later

/-- `reveal_authenticated_values`. -/
def revealAuthenticatedValues (role : Role) (authenticated : List (ℕ × Ag2pcSecureWires)) :
    PartyM S (List (ℕ × Value32)) := do
  let outputs ← revealEach base authenticated
  flushMain role
  return outputs

/-- `run_derivation_tree`. -/
def runDerivationTree (role : Role) (indices : List ℕ) (share : Value32) (trunkChunkBlocks : ℤ) :
    PartyM S (List (ℕ × Value32)) := do
  let first ← onStandalone (match indices.head? with
    | none => .error (.unsupportedMode "range must not be empty")
    | some first => .ok first)
  let masks := rangeSplitMasks first indices
  let groups ← onStandalone (trunkGroups first masks.highMask trunkChunkBlocks
    ("shachain2pc: shared-trunk needs >=1 common high set bit (no shared hash in this range); " ++
      "use batch mode"))
  let seedInputs ← openSession base role ⟨.tree trunkChunkBlocks, indices⟩ share
  let trunk ← runTrunk base groups seedInputs
  let authenticated ← runBranches base masks.lowMask trunk indices
  let outputs ← revealAuthenticatedValues base role authenticated
  finish base
  return outputs

end PartySession

end Shachain2pc
