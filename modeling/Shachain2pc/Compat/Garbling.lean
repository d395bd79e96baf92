import Shachain2pc.Compat.RunState
import Shachain2pc.Compat.ByteIo

/-!
# Garbling and evaluating a program

Alice garbles the gates in order and sends the rows of the AND gates in chunks, Bob
evaluates them as the chunks arrive. Bob then returns the masked bits of the AND outputs,
Alice computes the masked bits of all other wires in a second pass over the gates, and the
parties compare a digest of the check values of all AND gates. Alice makes the second pass
only for programs with AND gates.
-/

namespace Shachain2pc

/-- `AG2PC_GARBLE_CHUNK_ANDS`. -/
def garbleChunkAnds : ℕ := 2 ^ 16

variable {M : Type} (H : TweakableHash M)

/-- `ag2pc_garbler_and_gate`: the two rows and the permutation bit. -/
def garblerAndGate (state : Ag2pcRunState M) (gate : Ag2pcProgramGate) (out andIndex : ℕ) :
    Ag2pcRunState M × Block × Block × UInt8 :=
  let mlA0 := state.lbl gate.in0
  let mlA1 := blockXor mlA0 state.delta
  let mlB0 := state.lbl gate.in1
  let mlB1 := blockXor mlB0 state.delta
  let hashed := H.hash state.mitc [mlA0, mlA1, mlB0, mlB1]
  let state := { state with mitc := hashed.2 }
  let wbIn0 := state.wslot gate.in0
  let wbIn1 := state.wslot gate.in1
  let wbOut := state.wslot out
  let sigma := state.sigma.getD andIndex default
  let hA0 := hashed.1.getD 0 Block.zero
  let hA1 := hashed.1.getD 1 Block.zero
  let hB0 := hashed.1.getD 2 Block.zero
  let hB1 := hashed.1.getD 3 Block.zero
  let laDot := blockAnd (selectBlock (blockLsb wbIn0.mac)) state.delta
  let lbDot := blockAnd (selectBlock (blockLsb wbIn1.mac)) state.delta
  let labDot := blockAnd (selectBlock (blockLsb sigma.mac)) state.delta
  let lgDot := blockAnd (selectBlock (blockLsb wbOut.mac)) state.delta
  let g0 := blockXor (blockXor (blockXor hA0 hA1) wbIn1.key) lbDot
  let g1 := blockXor (blockXor (blockXor (blockXor hB0 hB1) mlA0) wbIn0.key) laDot
  let mlG0 := blockXor (blockXor (blockXor (blockXor (blockXor hA0 hB0) sigma.key) labDot)
    wbOut.key) lgDot
  (state.setLbl out mlG0, g0, g1, blockLsb1 mlG0)

/-- The garbler's local variables, with the bytes sent so far. -/
structure GarblerCursor (M : Type) where
  state : Ag2pcRunState M
  chunkG : List Block
  chunkB : List UInt8
  andIndex : ℕ
  sent : List UInt8

/-- `ag2pc_send_garble_chunk`. -/
def GarblerCursor.sendChunk (cursor : GarblerCursor M) : GarblerCursor M :=
  { cursor with
    sent := cursor.sent ++ (macBytes cursor.chunkG ++ cursor.chunkB), chunkG := [], chunkB := [] }

/-- One gate of the garbler. -/
def GarblerCursor.gate (gateIndex : ℕ) (gate : Ag2pcProgramGate) (cursor : GarblerCursor M) :
    GarblerCursor M :=
  let state := cursor.state
  let out := state.numInputs + gateIndex
  match gate.typ with
  | .xor =>
    let state := state.setWslot out ((state.wslot gate.in0).xor (state.wslot gate.in1))
    { cursor with
      state := state.setLbl out (blockXor (state.lbl gate.in0) (state.lbl gate.in1)) }
  | .inv =>
    let state := state.setWslot out (state.wslot gate.in0)
    { cursor with state := state.setLbl out (blockXor (state.lbl gate.in0) state.delta) }
  | .and =>
    let garbled := garblerAndGate H state gate out cursor.andIndex
    let cursor :=
      { cursor with
        state := garbled.1
        chunkG := cursor.chunkG ++ [garbled.2.1, garbled.2.2.1]
        chunkB := cursor.chunkB ++ [garbled.2.2.2]
        andIndex := cursor.andIndex + 1 }
    if cursor.chunkB.length = garbleChunkAnds then cursor.sendChunk else cursor

/-- The gates of the garbler, from a position on. -/
def GarblerCursor.gates : ℕ → List Ag2pcProgramGate → GarblerCursor M → GarblerCursor M
  | _, [], cursor => cursor
  | i, gate :: rest, cursor => GarblerCursor.gates (i + 1) rest (cursor.gate H i gate)

/-- `ag2pc_garbler_path`, up to the first receive: the state and the bytes sent. -/
def garblerSend (program : Ag2pcProgram) (state : Ag2pcRunState M) : Ag2pcRunState M × List UInt8 :=
  let cursor := GarblerCursor.gates H 0 program.gates ⟨state, [], [], 0, []⟩
  let cursor := if cursor.chunkB.isEmpty then cursor else cursor.sendChunk
  (cursor.state, cursor.sent)

/-- The local variables of the gamma check, with the bytes hashed so far. -/
structure GammaCursor (M : Type) where
  state : Ag2pcRunState M
  andIndex : ℕ
  gamma : List UInt8

/-- One gate of the gamma check. -/
def GammaCursor.gate (gateIndex : ℕ) (gate : Ag2pcProgramGate) (cursor : GammaCursor M) :
    GammaCursor M :=
  let state := cursor.state
  let out := state.numInputs + gateIndex
  match gate.typ with
  | .xor =>
    let state := state.setWslot out ((state.wslot gate.in0).xor (state.wslot gate.in1))
    { cursor with state := state.setMinp out (state.minp gate.in0 ^^^ state.minp gate.in1) }
  | .inv =>
    let state := state.setWslot out (state.wslot gate.in0)
    { cursor with state := state.setMinp out (state.minp gate.in0 ^^^ 1) }
  | .and =>
    let state := state.setMinp out (state.lambdaAnd.getD cursor.andIndex 0)
    let la := state.minp gate.in0
    let lb := state.minp gate.in1
    let m := blockXor (state.sigma.getD cursor.andIndex default).mac (state.wslot out).mac
    let m := blockXor m (blockAnd (selectBlock la) (state.wslot gate.in1).mac)
    let m := blockXor m (blockAnd (selectBlock lb) (state.wslot gate.in0).mac)
    { state := state, andIndex := cursor.andIndex + 1, gamma := cursor.gamma ++ m.toList }

/-- The gates of the gamma check, from a position on. -/
def GammaCursor.gates : ℕ → List Ag2pcProgramGate → GammaCursor M → GammaCursor M
  | _, [], cursor => cursor
  | i, gate :: rest, cursor => GammaCursor.gates (i + 1) rest (cursor.gate i gate)

/-- `ag2pc_gamma_check_digest`. -/
def gammaCheckDigest (sha256 : List UInt8 → Value32) (program : Ag2pcProgram)
    (state : Ag2pcRunState M) : Ag2pcRunState M × Value32 :=
  let cursor := GammaCursor.gates 0 program.gates ⟨state, 0, []⟩
  (cursor.state, sha256 cursor.gamma)

/-- The rest of `ag2pc_garbler_path`, with the bytes received: the state and the bytes sent. -/
def garblerCheck (sha256 : List UInt8 → Value32) (program : Ag2pcProgram)
    (state : Ag2pcRunState M) (received : List UInt8) : Option (Ag2pcRunState M × List UInt8) :=
  if 0 < state.numAnds then do
    let bits ← recvBoolVector state.numAnds received
    let checked := gammaCheckDigest sha256 program { state with lambdaAnd := bits.1 }
    return (checked.1, checked.2.bytes.toList)
  else some (state, [])

/-- `ag2pc_evaluator_and_gate`: the check value. -/
def evaluatorAndGate (state : Ag2pcRunState M) (gate : Ag2pcProgramGate) (out andIndex : ℕ)
    (g0 g1 : Block) (b : UInt8) : Ag2pcRunState M × Block :=
  let la := state.minp gate.in0
  let lb := state.minp gate.in1
  let wbIn0 := state.wslot gate.in0
  let wbIn1 := state.wslot gate.in1
  let wbOut := state.wslot out
  let sigma := state.sigma.getD andIndex default
  let mr := blockXor sigma.mac wbOut.mac
  let mr := blockXor mr (blockAnd (selectBlock la) wbIn1.mac)
  let mr := blockXor mr (blockAnd (selectBlock lb) wbIn0.mac)
  let hashed := H.hash state.mitc [state.evl gate.in0, state.evl gate.in1]
  let state := { state with mitc := hashed.2 }
  let t := blockXor (hashed.1.getD 0 Block.zero) (hashed.1.getD 1 Block.zero)
  let t := blockXor t (blockAnd (selectBlock la) g0)
  let t := blockXor t (blockAnd (selectBlock lb) (blockXor g1 (state.evl gate.in0)))
  let t := blockXor t mr
  let state := state.setEvl out t
  let lg := b ^^^ blockLsb1 t
  let state := state.setMinp out lg
  let state := { state with lambdaAnd := state.lambdaAnd.set andIndex lg }
  let vIn0 := blockLsb wbIn0.mac
  let vIn1 := blockLsb wbIn1.mac
  let vOut := blockLsb wbOut.mac
  let vSig := blockLsb sigma.mac
  let t1 := (la &&& lb) ^^^ lg ^^^ (la &&& vIn1) ^^^ (lb &&& vIn0) ^^^ vSig ^^^ vOut
  let m := blockAnd (selectBlock t1) state.delta
  let m := blockXor m (blockAnd (selectBlock la) wbIn1.key)
  let m := blockXor m (blockAnd (selectBlock lb) wbIn0.key)
  let m := blockXor (blockXor m sigma.key) wbOut.key
  (state, m)

/-- The evaluator's local variables, with the bytes hashed so far and the stream to read. -/
structure EvaluatorCursor (M : Type) where
  state : Ag2pcRunState M
  chunkG : List Block
  chunkB : List UInt8
  chunkPos : ℕ
  andIndex : ℕ
  gamma : List UInt8
  stream : List UInt8

/-- Receive the next chunk when the last one is used up. -/
def EvaluatorCursor.recvChunk (cursor : EvaluatorCursor M) : Option (EvaluatorCursor M) :=
  if cursor.chunkPos = cursor.chunkB.length then do
    let n := min (cursor.state.numAnds - cursor.andIndex) garbleChunkAnds
    let g ← recvBlock (2 * n) cursor.stream
    let b ← recvData n g.2
    return { cursor with chunkG := g.1, chunkB := b.1, chunkPos := 0, stream := b.2 }
  else some cursor

/-- One gate of the evaluator. -/
def EvaluatorCursor.gate (gateIndex : ℕ) (gate : Ag2pcProgramGate) (cursor : EvaluatorCursor M) :
    Option (EvaluatorCursor M) :=
  let state := cursor.state
  let out := state.numInputs + gateIndex
  match gate.typ with
  | .xor =>
    let state := state.setWslot out ((state.wslot gate.in0).xor (state.wslot gate.in1))
    let state := state.setEvl out (blockXor (state.evl gate.in0) (state.evl gate.in1))
    some { cursor with state := state.setMinp out (state.minp gate.in0 ^^^ state.minp gate.in1) }
  | .inv =>
    let state := state.setWslot out (state.wslot gate.in0)
    let state := state.setEvl out (state.evl gate.in0)
    some { cursor with state := state.setMinp out (state.minp gate.in0 ^^^ 1) }
  | .and => do
    let cursor ← cursor.recvChunk
    let evaluated := evaluatorAndGate H cursor.state gate out cursor.andIndex
      (cursor.chunkG.getD (2 * cursor.chunkPos) Block.zero)
      (cursor.chunkG.getD (2 * cursor.chunkPos + 1) Block.zero)
      (cursor.chunkB.getD cursor.chunkPos 0)
    return { cursor with
      state := evaluated.1
      gamma := cursor.gamma ++ evaluated.2.toList
      andIndex := cursor.andIndex + 1
      chunkPos := cursor.chunkPos + 1 }

/-- The gates of the evaluator, from a position on. -/
def EvaluatorCursor.gates :
    ℕ → List Ag2pcProgramGate → EvaluatorCursor M → Option (EvaluatorCursor M)
  | _, [], cursor => some cursor
  | i, gate :: rest, cursor => do
    let cursor ← cursor.gate H i gate
    EvaluatorCursor.gates (i + 1) rest cursor

/-- `ag2pc_evaluator_path`, up to the receive of the digest: what it has computed, and the bytes
sent. -/
def evaluatorSend (program : Ag2pcProgram) (state : Ag2pcRunState M) (received : List UInt8) :
    Option (EvaluatorCursor M × List UInt8) := do
  let cursor ← EvaluatorCursor.gates H 0 program.gates ⟨state, [], [], 0, 0, [], received⟩
  return (cursor, if 0 < state.numAnds then packBools cursor.state.lambdaAnd else [])

/-- The rest of `ag2pc_evaluator_path`, with the bytes received. -/
def evaluatorCheck (sha256 : List UInt8 → Value32) (cursor : EvaluatorCursor M)
    (received : List UInt8) : Option (Except CompatError (Ag2pcRunState M)) :=
  if 0 < cursor.state.numAnds then do
    let peer ← recvData 32 (cursor.stream ++ received)
    if (sha256 cursor.gamma).bytes.toList ≠ peer.1 then return .error .feqMismatch
    else return .ok cursor.state
  else some (.ok cursor.state)

/-- `ag2pc_gather_outputs`. -/
def gatherOutputs (state : Ag2pcRunState M) (program : Ag2pcProgram) : Ag2pcSecureWires where
  lambda := program.outputs.map state.minp
  wireBundle := program.outputs.map state.wslot
  label0 := match state.party with
    | .alice => program.outputs.map state.lbl
    | .bob => []
  evalLabel := match state.party with
    | .alice => []
    | .bob => program.outputs.map state.evl

end Shachain2pc
