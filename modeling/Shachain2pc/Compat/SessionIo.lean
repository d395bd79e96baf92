import Shachain2pc.Compat.ProcessInputs
import Shachain2pc.Compat.RunProgram
import Shachain2pc.Compat.TriplePoolIo
import Shachain2pc.Party.PublicReveal

/-!
# A session on its streams

A session owns a triple pool and a generator of labels. It authenticates inputs, runs programs
on wires which both parties hold, and opens wires. Both parties make the same calls.

The party and the Delta of a session are those of its pool. The pure passes over the gates are
those of a run; the batches which the slot pass draws, the tables and the masked bits go over
the streams.
-/

namespace Shachain2pc

open Rust (Failure)
open Triples (zoom)
open Ag2pcTriplePool (onAbit1 onAbit2 onStream)

/-- The errors of `CompatError` which a session returns. -/
inductive SessionFailure where
  | pool (error : PoolError)
  | session (error : SessionError)
  deriving DecidableEq, Repr

/-- `Ag2pcProtocol`, which is all of `Ag2pcSession`. -/
structure Ag2pcSession (S : Type) where
  pool : Ag2pcTriplePool S
  prg : Prg
  processInputCalls : ℕ

/-- Fallible and possibly panicking code of a session. -/
abbrev SessionM (S : Type) := EStateM (Failure SessionFailure) (Ag2pcSession S)

/-- An error of the pool. -/
def SessionFailure.ofPool : Failure PoolError → Failure SessionFailure
  | .error e => .error (.pool e)
  | .panic => .panic

/-- The parts of wires, one after the other; `Ag2pcSecureWires::concat`. -/
def Ag2pcSecureWires.concat (parts : List Ag2pcSecureWires) : Ag2pcSecureWires where
  lambda := parts.flatMap (·.lambda)
  wireBundle := parts.flatMap (·.wireBundle)
  label0 := parts.flatMap (·.label0)
  evalLabel := parts.flatMap (·.evalLabel)

/-- The state of the hash of half gates. -/
abbrev HalfGateHash := { m : Mitccrh8 // m.SingleKey }

/-- The hash of half gates from a seed. -/
def HalfGateHash.new (seed : Block) : HalfGateHash := ⟨.new seed, Mitccrh8.singleKey_new seed⟩

namespace Ag2pcSession

variable {S A : Type}

/-- Run code on the pool. -/
def onPool (prog : PoolM S A) : SessionM S A :=
  zoom SessionFailure.ofPool pool (fun pool session => { session with pool := pool }) prog

/-- A result of the wire layer. -/
def onCompat (result : Except CompatError A) : SessionM S A :=
  ofExcept (result.mapError fun e => .error (.session (.compat e)))

/-- `public_wires`. -/
def publicWires (pool : Ag2pcTriplePoolState) (bits : List UInt8) : Ag2pcSecureWires where
  lambda := bits.map (· &&& 1)
  wireBundle := List.replicate bits.length ⟨Block.zero, Block.zero⟩
  label0 := match pool.party with
    | .alice => bits.map fun bit => if bit &&& 1 = 0 then Block.zero else pool.delta
    | .bob => []
  evalLabel := match pool.party with
    | .alice => []
    | .bob => List.replicate bits.length Block.zero

/-- The labels which Alice draws. -/
def drawLabels (permute : Block → Block → Block) (total : ℕ) : SessionM S (List Block) :=
  modifyGet fun session =>
    ((session.prg.randomBlock permute total).1,
      { session with prg := (session.prg.randomBlock permute total).2 })

variable [TranscriptIo S]

/-! ## Inputs -/

/-- `ag2pc_send_input_open`. -/
def sendInputOpen (share : RevealNodeShare) (ownXPacked : List UInt8) : CotM S Unit := do
  onStream (TranscriptIo.sendData share.shareBits)
  onStream (TranscriptIo.sendData share.macDigest.bytes.toList)
  if ¬ownXPacked.isEmpty then onStream (TranscriptIo.sendData ownXPacked)
  onStream TranscriptIo.flush

/-- `ag2pc_recv_input_open`. -/
def recvInputOpen (total peerXLen : ℕ) : CotM S (List UInt8 × Value32 × List UInt8) := do
  let peerShare ← onStream (TranscriptIo.recvData total)
  let digest ← onStream (TranscriptIo.recvData 32)
  if peerXLen = 0 then return (peerShare, Value32.ofList digest, [])
  let peerX ← onStream (TranscriptIo.recvData peerXLen)
  return (peerShare, Value32.ofList digest, peerX)

/-- `exchange_input_open`. -/
def exchangeInputOpen (share : RevealNodeShare) (ownXPacked : List UInt8) (total peerXLen : ℕ) :
    PoolM S (List UInt8 × Value32 × List UInt8) :=
  Ag2pcTriplePool.exchange (sendInputOpen share ownXPacked) (recvInputOpen total peerXLen)

variable (base : PoolBase S)

/-- Alice sends the label of each masked bit, and Bob receives it. -/
def exchangeLabels (pool : Ag2pcTriplePoolState) (total : ℕ) (lambda : List UInt8)
    (wireBundle : List AShareBundle) (label0 : List Block) : SessionM S Ag2pcSecureWires :=
  match pool.party with
  | .alice => do
    let labels := List.zipWith
      (fun label0 lambda =>
        blockXor label0 (blockAnd (selectBlock lambda) pool.delta)) label0 lambda
    onPool (onAbit2 (Ag2pcTriplePool.sendBlocks labels))
    return ⟨lambda, wireBundle, label0, []⟩
  | .bob => do
    let evalLabel ← onPool (onAbit1 (Ag2pcTriplePool.recvBlocks total))
    return ⟨lambda, wireBundle, [], evalLabel⟩

/-- `process_inputs` with the party and the Delta of the pool, after the owners are counted. -/
def authenticateInputs (pool : Ag2pcTriplePoolState) (owners : List Role)
    (bitsPerOwner : List (List UInt8)) :
    SessionM S (List Ag2pcSecureWires) := do
  if owners.length ≠
    bitsPerOwner.length then throw (.error (.session (.compat .badAg2pcInputShape)))
  let (offsets, total) ← onCompat (inputOffsets (bitsPerOwner.map (·.length)) 0)
  if total = 0 then return List.replicate owners.length ⟨[], [], [], []⟩
  let wireBundle ← onPool (Ag2pcTriplePool.draw base total)
  let label0 ← match pool.party with
    | .alice => drawLabels base.permute total
    | .bob => pure []
  let owner := ownerOfWire owners bitsPerOwner
  let own := ownXBits pool.party owners bitsPerOwner offsets total
  let peerIndices := peerIdxList pool.party owner
  let (peerShare, peerDigest, peerX) ← onPool
    (exchangeInputOpen (revealLocalShare base.sha256 wireBundle)
    (ownXPacked pool.party owner own) total peerIndices.length)
  let lambda ← onCompat
    (finalizeInputOpen base.sha256 wireBundle own peerIndices peerShare peerDigest peerX pool.delta)
  let wires ← exchangeLabels pool total lambda wireBundle label0
  onCompat (ownerSlices wires (bitsPerOwner.map (·.length)) offsets)

/-- `process_inputs`. -/
def processInputs (owners : List Role) (bitsPerOwner : List (List UInt8)) :
    SessionM S (List Ag2pcSecureWires) := do
  modify fun session => { session with processInputCalls := session.processInputCalls + 1 }
  authenticateInputs base (← get).pool.state owners bitsPerOwner

/-! ## Programs -/

/-- One gate of the slot pass, which draws a batch when the last one is used up. -/
def slotMaskGate {M : Type} (gateIndex : ℕ) (gate : Ag2pcProgramGate) (cursor : SlotMaskCursor M) :
    PoolM S (SlotMaskCursor M) := do
  if gate.typ = .and ∧ cursor.lgBuf.length ≤ cursor.lgOff then
    let batch ← Ag2pcTriplePool.draw base drawBatch
    return cursor.gate (fun _ => batch) gateIndex gate
  return cursor.gate (fun _ => []) gateIndex gate

/-- The gates of the slot pass, from a position on. -/
def slotMaskGates {M : Type} :
    ℕ → List Ag2pcProgramGate → SlotMaskCursor M → PoolM S (SlotMaskCursor M)
  | _, [], cursor => return cursor
  | i, gate :: rest, cursor => do
    let cursor ← slotMaskGate base i gate cursor
    slotMaskGates (i + 1) rest cursor

/-- `ag2pc_slot_mask_pass`. -/
def slotMaskPass {M : Type} (program : Ag2pcProgram) (state : Ag2pcRunState M) :
    PoolM S (Ag2pcRunState M) := do
  let start := { state with
    phys := fun wire => if wire < state.numInputs then wire else 2 ^ 32 - 1
    repA := [], repB := [] }
  let cursor ← slotMaskGates base 0 program.gates ⟨start, [], [], 0, 0⟩
  return cursor.state

/-- `ag2pc_send_garble_chunk`. -/
def sendGarbleChunk (g : List Block) (b : List UInt8) : CotM S Unit := do
  onStream (TranscriptIo.sendData (macBytes g))
  onStream (TranscriptIo.sendData b)
  onStream TranscriptIo.flush

/-- `ag2pc_recv_garble_chunk`. -/
def recvGarbleChunk (n : ℕ) : CotM S (List Block × List UInt8) := do
  let g ← Ag2pcTriplePool.recvBlocks (2 * n)
  let b ← onStream (TranscriptIo.recvData n)
  return (g, b)

section passes

variable {M : Type} (H : TweakableHash M) (sha256 : List UInt8 → Value32)

/-- Send the chunk which is collected. -/
def sendChunk (cursor : GarblerCursor M) : CotM S (GarblerCursor M) := do
  sendGarbleChunk cursor.chunkG cursor.chunkB
  return cursor.sendChunk

/-- One gate of the garbler, which sends a chunk when it is full. -/
def garblerGate (gateIndex : ℕ) (gate : Ag2pcProgramGate) (cursor : GarblerCursor M) :
    CotM S (GarblerCursor M) :=
  match gate.typ with
  | .and => do
    let garbled :=
      garblerAndGate H cursor.state gate (cursor.state.numInputs + gateIndex) cursor.andIndex
    let cursor :=
      { cursor with
        state := garbled.1
        chunkG := cursor.chunkG ++ [garbled.2.1, garbled.2.2.1]
        chunkB := cursor.chunkB ++ [garbled.2.2.2]
        andIndex := cursor.andIndex + 1 }
    if cursor.chunkB.length = garbleChunkAnds then sendChunk cursor else return cursor
  | _ => return cursor.gate H gateIndex gate

/-- The gates of the garbler, from a position on. -/
def garblerGates : ℕ → List Ag2pcProgramGate → GarblerCursor M → CotM S (GarblerCursor M)
  | _, [], cursor => return cursor
  | i, gate :: rest, cursor => do
    let cursor ← garblerGate H i gate cursor
    garblerGates (i + 1) rest cursor

/-- Send the last chunk, unless all tables are sent. -/
def sendLastChunk (cursor : GarblerCursor M) : CotM S (GarblerCursor M) :=
  if cursor.chunkB.isEmpty then return cursor else sendChunk cursor

/-- The rest of the garbler's path: the masked bits of the AND outputs come back, and the digest of
the check values goes out. -/
def garblerAnswer (program : Ag2pcProgram) (state : Ag2pcRunState M) :
    CotM S (Ag2pcRunState M) := do
  if 0 < state.numAnds then
    let lambdaAnd ← Ag2pcTriplePool.recvBoolVector state.numAnds
    let checked := gammaCheckDigest sha256 program { state with lambdaAnd := lambdaAnd }
    onStream (TranscriptIo.sendData checked.2.bytes.toList)
    onStream TranscriptIo.flush
    return checked.1
  return state

/-- `ag2pc_garbler_path`. -/
def garblerPath (program : Ag2pcProgram) (state : Ag2pcRunState M) : CotM S (Ag2pcRunState M) := do
  let cursor ← garblerGates H 0 program.gates ⟨state, [], [], 0, []⟩
  let cursor ← sendLastChunk cursor
  garblerAnswer sha256 program cursor.state

/-- Receive the next chunk when the last one is used up. -/
def recvChunk (cursor : EvaluatorCursor M) : CotM S (EvaluatorCursor M) := do
  if cursor.chunkPos = cursor.chunkB.length then
    let (g, b) ← recvGarbleChunk (min (cursor.state.numAnds - cursor.andIndex) garbleChunkAnds)
    return { cursor with chunkG := g, chunkB := b, chunkPos := 0 }
  return cursor

/-- One gate of the evaluator. -/
def evaluatorGate (gateIndex : ℕ) (gate : Ag2pcProgramGate) (cursor : EvaluatorCursor M) :
    CotM S (EvaluatorCursor M) :=
  let state := cursor.state
  let out := state.numInputs + gateIndex
  match gate.typ with
  | .xor =>
    let state := state.setWslot out ((state.wslot gate.in0).xor (state.wslot gate.in1))
    let state := state.setEvl out (blockXor (state.evl gate.in0) (state.evl gate.in1))
    return { cursor with state := state.setMinp out (state.minp gate.in0 ^^^ state.minp gate.in1) }
  | .inv =>
    let state := state.setWslot out (state.wslot gate.in0)
    let state := state.setEvl out (state.evl gate.in0)
    return { cursor with state := state.setMinp out (state.minp gate.in0 ^^^ 1) }
  | .and => do
    let cursor ← recvChunk cursor
    let evaluated := evaluatorAndGate H cursor.state gate out cursor.andIndex
      (cursor.chunkG.getD (2 * cursor.chunkPos) Block.zero)
      (cursor.chunkG.getD (2 * cursor.chunkPos + 1) Block.zero)
      (cursor.chunkB.getD cursor.chunkPos 0)
    return { cursor with
      state := evaluated.1
      gamma := cursor.gamma ++ evaluated.2.toList
      andIndex := cursor.andIndex + 1
      chunkPos := cursor.chunkPos + 1 }

/-- The gates of the evaluator, from a position on. -/
def evaluatorGates : ℕ → List Ag2pcProgramGate → EvaluatorCursor M → CotM S (EvaluatorCursor M)
  | _, [], cursor => return cursor
  | i, gate :: rest, cursor => do
    let cursor ← evaluatorGate H i gate cursor
    evaluatorGates (i + 1) rest cursor

/-- The rest of the evaluator's path: the masked bits of the AND outputs go out, and the garbler's
digest comes back. -/
def evaluatorCompare (cursor : EvaluatorCursor M) : CotM S (Ag2pcRunState M) := do
  if 0 < cursor.state.numAnds then
    Ag2pcTriplePool.sendBoolVector cursor.state.lambdaAnd
    let peer ← onStream (TranscriptIo.recvData 32)
    if (sha256 cursor.gamma).bytes.toList ≠ peer then throw (.error .feqMismatch)
  return cursor.state

/-- `ag2pc_evaluator_path`. -/
def evaluatorPath (program : Ag2pcProgram) (state : Ag2pcRunState M) :
    CotM S (Ag2pcRunState M) := do
  let cursor ← evaluatorGates H 0 program.gates ⟨state, [], [], 0, 0, [], []⟩
  evaluatorCompare sha256 cursor

end passes

/-- The seed of the hash of half gates, from the digests of the streams. -/
def halfGateSeed : PoolM S Block := do
  let streams := (← get).streams
  let main ← Ag2pcTriplePool.getDigest streams.main
  let sibling ← Ag2pcTriplePool.getDigest streams.sibling
  ofExcept (Ag2pcTriplePool.digestSeed base "AG2PC half-gate" main sibling)

/-- `ag2pc_garbler_path` of Alice and `ag2pc_evaluator_path` of Bob, on the main stream. -/
def halfGatePath (party : Role) (program : Ag2pcProgram) (state : Ag2pcRunState HalfGateHash) :
    PoolM S (Ag2pcRunState HalfGateHash) :=
  match party with
  | .alice => onAbit2 (garblerPath (Mitccrh8.hashCir base.permute) base.sha256 program state)
  | .bob => onAbit1 (evaluatorPath (Mitccrh8.hashCir base.permute) base.sha256 program state)

/-- `run_program` with the party and the Delta of the pool, and with the nonce which Alice draws. -/
def runWires (pool : Ag2pcTriplePoolState) (program : Ag2pcProgram) (inputs : Ag2pcSecureWires)
    (nonce : Block) :
    SessionM S Ag2pcSecureWires := do
  onCompat (checkSecureWires pool.party inputs)
  if inputs.lambda.length ≠ program.numInputs then
    throw (.error (.session (.badAg2pcInputLength program.numInputs inputs.lambda.length)))
  let state :=
    Ag2pcRunState.livenessPass program
      (.new pool.party pool.delta inputs (HalfGateHash.new Block.zero))
  let state ← onPool (slotMaskPass base program state)
  let sigma ← onPool (Ag2pcTriplePool.computeInplace base state.repA state.repB nonce)
  let seed ← onPool (halfGateSeed base)
  let state := { state.withSigma sigma with mitc := HalfGateHash.new seed }
  let state ← onPool (halfGatePath base pool.party program state)
  onPool (Ag2pcTriplePool.maybeFlushCotCheck base)
  return gatherOutputs state program

/-- `run_program`. -/
def runProgram (program : Ag2pcProgram) (inputs : Ag2pcSecureWires) (nonce : Block) :
    SessionM S Ag2pcSecureWires := do
  runWires base (← get).pool.state program inputs nonce

/-! ## Openings -/

/-- Send the share bits and the digest of the MACs. -/
def sendShare (share : RevealNodeShare) : CotM S Unit := do
  onStream (TranscriptIo.sendData share.shareBits)
  onStream (TranscriptIo.sendData share.macDigest.bytes.toList)
  onStream TranscriptIo.flush

/-- Receive share bits and a digest of MACs. -/
def recvShare (n : ℕ) : CotM S (List UInt8 × Value32) := do
  let peerShare ← onStream (TranscriptIo.recvData n)
  let peerDigest ← onStream (TranscriptIo.recvData 32)
  return (peerShare, Value32.ofList peerDigest)

/-- Code on the main stream. -/
def onMain (party : Role) (prog : CotM S A) : SessionM S A :=
  match party with
  | .alice => onPool (onAbit2 prog)
  | .bob => onPool (onAbit1 prog)

/-- `decode_to_party`. -/
def decodeToParty (pool : Ag2pcTriplePoolState) (wires : Ag2pcSecureWires) (role : Role) :
    SessionM S (List UInt8) := do
  if pool.party ≠ role then
    onMain pool.party (sendShare (revealLocalShare base.sha256 wires.wireBundle))
    return []
  let (peerShare, peerDigest) ← onMain pool.party (recvShare wires.lambda.length)
  onCompat
    (revealRecipientBits base.sha256 wires.lambda wires.wireBundle peerShare peerDigest pool.delta)

/-- Bob sends the bits which he opened, and Alice receives them. -/
def broadcastBits (pool : Ag2pcTriplePoolState) (n : ℕ) (bits : List UInt8) :
    SessionM S (List UInt8) :=
  match pool.party with
  | .alice => do
    let received ← onPool (onAbit2 (onStream (TranscriptIo.recvData n)))
    return received.map (· &&& 1)
  | .bob => do
    onPool (onAbit1 (do
      onStream (TranscriptIo.sendData bits)
      onStream TranscriptIo.flush))
    return bits

/-- `decode` with the party and the Delta of the pool. -/
def decodeWires (pool : Ag2pcTriplePoolState) (wires : Ag2pcSecureWires)
    (recipient : Ag2pcRevealRecipient) :
    SessionM S (List UInt8) := do
  if wires.wireBundle.length ≠
    wires.lambda.length then throw (.error (.session (.compat .badAg2pcInputShape)))
  match recipient with
  | .publicly => do
    let bits ← decodeToParty base pool wires .bob
    broadcastBits pool wires.lambda.length bits
  | .party role => decodeToParty base pool wires role

/-- `decode`. -/
def decode (wires : Ag2pcSecureWires) (recipient : Ag2pcRevealRecipient) :
    SessionM S (List UInt8) := do
  decodeWires base (← get).pool.state wires recipient

/-- `reveal_public`. -/
def revealPublic (wires : Ag2pcSecureWires) : SessionM S (List UInt8) := decode base wires .publicly

/-! ## The life of a session -/

/-- `trim_idle_allocations`. -/
def trimIdleAllocations : SessionM S Unit := onPool Ag2pcTriplePool.trimIdleAllocations

/-- `end`. -/
def finish : SessionM S Unit := onPool (Ag2pcTriplePool.finish base)

/-- The session of `setup_with_delta`, at its streams and with the seed of its generator. -/
def new (party : Role) (ssp : ℕ) (delta : Block) (draws : Ag2pcTriplePool.PoolDraws)
    (prgSeed : Block) (streams : Ag2pcStreams S) : Except OtError (Ag2pcSession S) := do
  let pool ← Ag2pcTriplePool.new party ssp (normalizeAg2pcDelta party delta) draws streams
  return ⟨pool, .new prgSeed 0, 0⟩

/-- `setup_with_delta`, from the session's streams on. -/
def setup : SessionM S Unit := onPool (Ag2pcTriplePool.setup base)

end Ag2pcSession

end Shachain2pc
