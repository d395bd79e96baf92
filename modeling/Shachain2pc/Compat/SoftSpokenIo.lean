import Shachain2pc.Compat.ByteIo
import Shachain2pc.Compat.SoftSpoken
import Shachain2pc.Lib.Triples
import Shachain2pc.Wire.Transcript

/-!
# A correlated OT endpoint on a stream

An endpoint bootstraps its base OTs once, then runs sessions. Each session numbers its blocks
from zero, and a malicious one is closed by a scratch chunk and a check. Requests for COTs are
served from the leftover of the last chunk first.

The history is not part of the program: it lists the tweaks evaluated in each session, latest
session first, and the COTs in the order in which they were generated.
-/

namespace Shachain2pc

open Triples (zoom)

/-- `ByteIo` and `TranscriptIo`, what the extension uses of them. -/
class TranscriptIo (S : Type) where
  sendData : List UInt8 → EStateM WireError S Unit
  recvData : ℕ → EStateM WireError S (List UInt8)
  flush : EStateM WireError S Unit
  enableFs : Bool → EStateM WireError S Unit
  fsEnabled : S → Bool
  getDigest : S → Except WireError Block

/-- The errors of `CompatError` which the OT code returns. -/
inductive OtError where
  | openSsl (text : String)
  | wire (error : WireError)
  | badPointLength (len : ℕ)
  | badPointWireLength (len : UInt32)
  | badOtLength (data0 data1 : ℕ)
  | badCswLength (len : ℕ)
  | feqMismatch
  | hashToCurve
  | cswProofMismatch
  | cswReceiverMismatch
  | badOtRole (operation : String)
  deriving DecidableEq, Repr

/-- What the extension is built from: the block cipher by key and block, SHA-256, and the base
OTs. -/
structure OtBase (S : Type) where
  permute : Block → Block → Block
  sha256 : List UInt8 → Value32
  cswSend : List Block → List Block → EStateM (Rust.Failure OtError) S Unit
  cswRecv : List Bool → EStateM (Rust.Failure OtError) S (List Block)

/-- The tweaks and the COTs of an endpoint so far. -/
structure CotHistory where
  sessions : List (List SfvoleTweak)
  generated : List Block
  deriving DecidableEq, Repr

/-- A session is begun. -/
def CotHistory.begin (h : CotHistory) : CotHistory := { h with sessions := [] :: h.sessions }

/-- Tweaks are evaluated in the latest session. -/
def CotHistory.evaluate (h : CotHistory) (tweaks : List SfvoleTweak) : CotHistory :=
  { h with sessions := match h.sessions with
      | [] => [tweaks]
      | latest :: earlier => (latest ++ tweaks) :: earlier }

/-- COTs are generated. -/
def CotHistory.generate (h : CotHistory) (cots : List Block) : CotHistory :=
  { h with generated := h.generated ++ cots }

/-- An endpoint without its leftover, its stream, and its history. -/
structure OtState (S : Type) where
  state : SoftSpoken4State
  stream : S
  history : CotHistory

/-- Fallible and possibly panicking code on an endpoint. -/
abbrev OtM (S : Type) := EStateM (Rust.Failure OtError) (OtState S)

namespace OtState

variable {S : Type}

/-- Run code on the stream. -/
def onStream {A : Type} (prog : EStateM (Rust.Failure OtError) S A) : OtM S A :=
  zoom id OtState.stream (fun stream s => { s with stream := stream }) prog

/-- Run a stream operation. -/
def onWire {A : Type} (prog : EStateM WireError S A) : OtM S A :=
  onStream (zoom (fun e => .error (.wire e)) id (fun stream _ => stream) prog)

/-- Change the state of the extension. -/
def modifyState (f : SoftSpoken4State → SoftSpoken4State) : OtM S Unit :=
  modify fun s => { s with state := f s.state }

/-- Add to the history. -/
def record (f : CotHistory → CotHistory) : OtM S Unit :=
  modify fun s => { s with history := f s.history }

/-- A fallible operation which may change the state of the extension. -/
def tryState {A : Type} (error : OtError)
    (f : SoftSpoken4State → Except SoftSpokenStateError (A × SoftSpoken4State)) : OtM S A := do
  let result ← ofExcept ((f (← get).state).mapError fun _ => .error error)
  modifyState fun _ => result.2
  return result.1

variable [TranscriptIo S]

/-- `send_block`. -/
def sendBlock (blocks : List Block) : OtM S Unit := onWire (TranscriptIo.sendData (macBytes blocks))

/-- `recv_block`. -/
def recvBlock (count : ℕ) : OtM S (List Block) := do
  let bytes ← onWire (TranscriptIo.recvData (count * 16))
  return blocksOfBytes (bytes.length / 16) bytes

/-- `recv_block(1).await?[0]`. -/
def recvOneBlock : OtM S Block := do
  let blocks ← recvBlock 1
  ofExcept (Rust.readSlot blocks 0)

end OtState

namespace SoftSpoken4

open OtState SoftSpoken4State

variable {S : Type} [TranscriptIo S] (base : OtBase S)

/-! ## Setting up -/

/-- `pprf_check_send`. -/
def pprfCheckSend : OtM S Unit := do
  let (sent, state) := pprfCheckSendPrepare base.permute base.sha256 (← get).state
  modifyState fun _ => state
  sendBlock sent.1
  onWire (TranscriptIo.sendData sent.2.bytes.toList)
  onWire TranscriptIo.flush

/-- `pprf_check_recv`. -/
def pprfCheckRecv : OtM S Unit := do
  let tBuf ← OtState.recvBlock (softspokenN * 2)
  let theirDigest ← onWire (TranscriptIo.recvData 32)
  let (result, state) := (← get).state.pprfCheckRecvVerify base.permute base.sha256 tBuf theirDigest
  modifyState fun _ => state
  ofExcept (result.mapError fun _ => .error .feqMismatch)

/-- Enable the transcript of a stream which has none. -/
def enableTranscript (sendFirst : Bool) : OtM S Unit := do
  if ¬TranscriptIo.fsEnabled (← get).stream then onWire (TranscriptIo.enableFs sendFirst)

/-- `bootstrap_send`. -/
def bootstrapSend : OtM S Unit := do
  let (choices, state) := bootstrapSendChoices (← get).state
  modifyState fun _ => state
  let received ← onStream (base.cswRecv choices)
  tryState (.badCswLength received.length) fun s =>
    (s.bootstrapSendApplyReceived base.permute received).map fun s => ((), s)
  if (← get).state.malicious then
    pprfCheckRecv base
    enableTranscript true
  modifyState markSetupDone

/-- `bootstrap_recv`. -/
def bootstrapRecv : OtM S Unit := do
  let (keys, state) := bootstrapRecvKeys base.permute (← get).state
  modifyState fun _ => state
  onStream (base.cswSend keys.1 keys.2)
  if (← get).state.malicious then
    pprfCheckSend base
    enableTranscript false
  modifyState markSetupDone

/-- `send_begin`, after `reset_leftover`. -/
def sendBegin : OtM S Unit := do
  if ¬(← get).state.setupDone then bootstrapSend base
  modifyState beginSendSession
  record CotHistory.begin

/-- `recv_begin`, after `reset_leftover`. -/
def recvBegin : OtM S Unit := do
  if ¬(← get).state.setupDone then bootstrapRecv base
  modifyState beginRecvSession
  record CotHistory.begin

/-! ## Chunks -/

/-- The seed of a check's coefficients. -/
def transcriptSeed : OtM S (Option Block) := do
  let s ← get
  if s.state.malicious then
    some <$> ofExcept ((TranscriptIo.getDigest s.stream).mapError fun e => .error (.wire e))
  else return none

/-- `send_chunk_pipeline`. -/
def sendChunkPipeline (bs : ℕ) : OtM S (List Block) := do
  let s ← get
  let planes ← ofExcept (s.state.sendChunkPrepare base.permute bs)
  record (·.evaluate (sfvoleTweaks s.state.curSendSession s.state.curSendB0 bs))
  let dBufs ← OtState.recvBlock ((softspokenN - 1) * bs)
  let seed ← transcriptSeed
  let out ← tryState .feqMismatch fun s => s.sendChunkFinish base.permute planes dBufs seed bs
  record (·.generate out)
  return out

/-- `recv_chunk_pipeline`. -/
def recvChunkPipeline (bs : ℕ) : OtM S (List Block) := do
  let s ← get
  let chunk ← ofExcept (s.state.recvChunkPrepare base.permute bs)
  record (·.evaluate (sfvoleTweaks s.state.curRecvSession s.state.curRecvB0 bs))
  sendBlock chunk.dBufs
  let seed ← transcriptSeed
  modifyState fun s => s.recvChunkFinish base.permute seed chunk.out chunk.uCanonical bs
  record (·.generate chunk.out)
  return chunk.out

/-- `next_chunk`. -/
def nextChunk (bs : ℕ) : OtM S (List Block) := do
  if (← get).state.role = .alice then sendChunkPipeline base bs else recvChunkPipeline base bs

/-! ## Sessions -/

/-- `send_end`. -/
def sendEnd : OtM S Unit := do
  if (← get).state.malicious then
    let _ ← sendChunkPipeline base 1
    let x ← recvOneBlock
    let t ← recvOneBlock
    ofExcept (((← get).state.verifySendCheck x t).mapError fun _ => .error .feqMismatch)

/-- `recv_end`. -/
def recvEnd : OtM S Unit := do
  if (← get).state.malicious then
    let _ ← recvChunkPipeline base 1
    let s ← get
    sendBlock [s.state.checkX]
    sendBlock [s.state.checkT]
  onWire TranscriptIo.flush

/-- `begin`, after `reset_leftover`. -/
def beginSession : OtM S Unit := do
  if (← get).state.role = .alice then sendBegin base else recvBegin base

/-- `end`. -/
def endSession : OtM S Unit := do
  if (← get).state.role = .alice then sendEnd base else recvEnd base

end SoftSpoken4

/-! ## The leftover -/

/-- An endpoint, its stream and its history. -/
structure CotEndpoint (S : Type) where
  ot : OtState S
  leftover : Leftover

/-- Code which also uses the leftover. -/
abbrev CotM (S : Type) := EStateM (Rust.Failure OtError) (CotEndpoint S)

/-- A call of an endpoint. -/
inductive CotCall where
  | begin
  | nextN (length : ℕ)
  | run (length : ℕ)
  | finish
  | trimIdleAllocations
  deriving DecidableEq, Repr

namespace SoftSpoken4

variable {S : Type}

/-- Run code which does not use the leftover. -/
def onOt {A : Type} (prog : OtM S A) : CotM S A :=
  zoom id CotEndpoint.ot (fun ot e => { e with ot := ot }) prog

/-- `reset_leftover`. -/
def resetLeftover : CotM S Unit :=
  modify fun e => { e with leftover := { e.leftover with pos := 0, count := 0 } }

/-- `drain_leftover` into a vector of the given length: the blocks which it writes. -/
def drainLeftover (length : ℕ) : CotM S (List Block) := do
  let leftover := (← get).leftover
  if leftover.count = 0 ∨ length = 0 then return []
  let take := min length leftover.count
  let drained ← ofExcept (Rust.readSlice leftover.blocks leftover.pos take)
  modify fun e => { e with
    leftover := { leftover with pos := leftover.pos + take, count := leftover.count - take } }
  return drained

/-- `trim_idle_allocations`. -/
def trimIdleAllocations : CotM S Unit := modify fun e => { e with leftover := ⟨[], 0, 0⟩ }

variable [TranscriptIo S] (base : OtBase S)

/-- The loop of `next_n` over whole chunks, from the position `got` on. -/
def nextWholeChunks (length got : ℕ) : OtM S (List Block) :=
  if got + softspokenChunkOts ≤ length then do
    let chunk ← nextChunk base softspokenChunkBlocks
    let rest ← nextWholeChunks length (got + softspokenChunkOts)
    return chunk ++ rest
  else return []
termination_by length - got
decreasing_by
  simp only [softspokenChunkOts, softspokenChunkBlocks] at *
  omega

/-- `next_n`. -/
def nextN (length : ℕ) : CotM S (List Block) := do
  let drained ← drainLeftover length
  let whole ← onOt (nextWholeChunks base length drained.length)
  let got := drained.length + whole.length
  if got < length then
    let chunk ← onOt (nextChunk base softspokenChunkBlocks)
    let take := length - got
    modify fun e => { e with leftover := ⟨chunk, take, softspokenChunkOts - take⟩ }
    return drained ++ whole ++ chunk.take take
  return drained ++ whole

/-- `begin`. -/
def begin : CotM S Unit := do
  resetLeftover
  onOt (beginSession base)

/-- `run`. -/
def run (length : ℕ) : CotM S (List Block) := do
  let drained ← drainLeftover length
  if drained.length = length then return drained
  begin base
  let rest ← nextN base (length - drained.length)
  onOt (endSession base)
  return drained ++ rest

/-- Perform a call; what it returns are the COTs delivered. -/
def perform : CotCall → CotM S (List Block)
  | .begin => do
    begin base
    return []
  | .nextN length => nextN base length
  | .run length => run base length
  | .finish => do
    onOt (endSession base)
    return []
  | .trimIdleAllocations => do
    trimIdleAllocations
    return []

/-- Perform calls up to the first which fails; the COTs delivered are put together. -/
def performAll : List CotCall → CotM S (List Block)
  | [] => return []
  | call :: rest => do
    let first ← perform base call
    let later ← performAll rest
    return first ++ later

/-- `new`, with the Delta and the seed which are drawn. -/
def new (role : Role) (malicious : Bool) (delta choiceSeed : Block) (stream : S) :
    CotEndpoint S where
  ot := { state := .new role malicious delta choiceSeed, stream := stream, history := ⟨[], []⟩ }
  leftover := ⟨[], 0, 0⟩

end SoftSpoken4

end Shachain2pc
