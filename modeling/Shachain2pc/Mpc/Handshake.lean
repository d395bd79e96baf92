import Shachain2pc.Daemon.Jobs
import Shachain2pc.Lib.Runs
import Shachain2pc.Mpc.ChannelFlow

/-!
# The session handshake of a job stream

Both parties of a job stream check that they were given the same descriptor. Alice starts
and Bob answers; each sends its parameters, and acknowledges the peer's once they are its
own. Frames reach the other party in any order, any number of times, or not at all.
-/

namespace Shachain2pc

open Runs (run run_cons Along)

/-- `RunnerError`. -/
inductive RunnerError where
  | transportClosed
  | frame (message : String)
  | frameTooLarge (len max : ℕ)
  | core (error : CoreError)
  deriving DecidableEq, Repr

/-- `DEFAULT_MAX_FRAME_BYTES`. -/
def defaultMaxFrameBytes : ℕ := 16 * 1024 * 1024

/-- `ByteFrameTransport::send`: the bytes written after their length. -/
def sendFrame (codec : ProstCodec) (frame : MpcFrame) : Except RunnerError (List UInt8) := do
  let bytes ← (frame.encode codec).mapError fun error => RunnerError.frame error.message
  if defaultMaxFrameBytes < bytes.length then
    .error (.frameTooLarge bytes.length defaultMaxFrameBytes)
  else .ok bytes

/-- `ByteFrameTransport::recv` of the bytes after their length. -/
def recvFrame (codec : ProstCodec) (bytes : List UInt8) : Except RunnerError MpcFrame :=
  if defaultMaxFrameBytes < bytes.length then
    .error (.frameTooLarge bytes.length defaultMaxFrameBytes)
  else (MpcFrame.decode codec bytes).mapError fun error => .frame error.message

/-- `jobstream_session_binding`. -/
def jobstreamSessionBinding (descriptor : GrpcJobDescriptor) : List UInt8 :=
  asciiBytes "shachain2pc daemon JobStream precompute v1" ++ leBytes 8 descriptor.channelIndex ++
    leBytes 8 descriptor.targetIndex ++ leBytes 4 descriptor.sspTarget ++
    leBytes 8 descriptor.deltaLifetimeCheckedUnitsCap ++ leBytes 4 protocolVersion

/-- The session parameters of `run_jobstream_session_handshake`. -/
def jobstreamSessionParams (descriptor : GrpcJobDescriptor) : SessionParams :=
  ⟨descriptor.ssp, descriptor.digest.bytes.toList, jobstreamSessionBinding descriptor⟩

/-- Where a party is in `run_session_handshake`. -/
inductive HandshakePhase where
  | sendStart
  | awaitAck
  | awaitStart
  | finished
  | failed (error : RunnerError)
  deriving DecidableEq, Repr

/-- A party of the handshake, with a log of what it sent and the number of frames it received. -/
structure HandshakeParty where
  role : Role
  flow : ChannelFlow
  params : SessionParams
  phase : HandshakePhase
  sent : List (List UInt8)
  taken : ℕ
  deriving DecidableEq, Repr

namespace HandshakeParty

/-- A party at the start: Alice sends first. -/
def new (role : Role) (descriptor : GrpcJobDescriptor) : HandshakeParty where
  role := role
  flow := .new (utf8Bytes descriptor.jobId) role .main
  params := jobstreamSessionParams descriptor
  phase := match role with
    | .alice => .sendStart
    | .bob => .awaitStart
  sent := []
  taken := 0

/-- The handshake returns an error. -/
def fail (party : HandshakeParty) (error : RunnerError) : HandshakeParty :=
  { party with phase := .failed error }

/-- Send a frame and go on to the next phase. -/
def sendThen (codec : ProstCodec) (party : HandshakeParty) (next : HandshakePhase)
    (result : StepResult (ChannelFlow × MpcFrame)) : HandshakeParty :=
  match result with
  | .error error => party.fail (.core error.error)
  | .ok accepted => match sendFrame codec accepted.2 with
    | .error error => party.fail error
    | .ok bytes => { party with flow := accepted.1, phase := next, sent := party.sent ++ [bytes] }

/-- The phase after the peer's start is acknowledged. -/
def afterStart : Role → HandshakePhase
  | .alice => .finished
  | .bob => .sendStart

/-- The phase after the peer's ack is checked. -/
def afterAck : Role → HandshakePhase
  | .alice => .awaitStart
  | .bob => .finished

/-- Send the session start, when it is this party's turn. -/
def sendStart (codec : ProstCodec) (party : HandshakeParty) : Option HandshakeParty :=
  if party.phase = .sendStart then
    some (party.sendThen codec .awaitAck (sendSessionStart codec party.flow party.params))
  else none

/-- Receive a frame, when the party waits for one. -/
def receive (codec : ProstCodec) (sha256 : List UInt8 → Value32) (party : HandshakeParty)
    (bytes : List UInt8) : Option HandshakeParty :=
  let counted := { party with taken := party.taken + 1 }
  match party.phase with
  | .awaitStart => some <| match recvFrame codec bytes with
    | .error error => counted.fail error
    | .ok frame => counted.sendThen codec (afterStart party.role)
        (receiveSessionStartAndAck codec sha256 party.flow party.params frame)
  | .awaitAck => some <| match recvFrame codec bytes with
    | .error error => counted.fail error
    | .ok frame => match receiveSessionStartAck codec sha256 party.flow party.params frame with
      | .error error => counted.fail (.core error.error)
      | .ok flow => { counted with flow := flow, phase := afterAck party.role }
  | _ => none

end HandshakeParty

/-- Both parties. -/
structure Handshake where
  party : Role → HandshakeParty

/-- A party sends its start, receives a frame that some party sent, or loses its connection. -/
inductive HandshakeLabel where
  | send (role : Role)
  | deliver (role sender : Role) (k : ℕ)
  | disconnect (role : Role)
  deriving DecidableEq, Repr

namespace Handshake

/-- Two parties given their descriptors. -/
def new (alice bob : GrpcJobDescriptor) : Handshake where
  party := fun role => match role with
    | .alice => .new .alice alice
    | .bob => .new .bob bob

/-- Replace one party. -/
def update (s : Handshake) (role : Role) (party : HandshakeParty) : Handshake :=
  ⟨Function.update s.party role party⟩

/-- One step of the parties and the network. -/
def step (codec : ProstCodec) (sha256 : List UInt8 → Value32) (s : Handshake) :
    HandshakeLabel → Option Handshake
  | .send role => ((s.party role).sendStart codec).map (s.update role)
  | .deliver role sender k => (s.party sender).sent[k]?.bind fun bytes =>
    ((s.party role).receive codec sha256 bytes).map (s.update role)
  | .disconnect role =>
    if (s.party role).phase = .finished then none
    else some (s.update role ((s.party role).fail .transportClosed))

/-- Nothing is lost: a party receives the peer's frames in the order they were sent, each once, and
no connection is lost. -/
def InOrder (s : Handshake) : HandshakeLabel → Prop
  | .send _ => True
  | .deliver role sender k => sender = oppositeRole role ∧ k = (s.party role).taken
  | .disconnect _ => False

end Handshake

/-- The fields are in the ranges of their types. -/
structure GrpcJobDescriptor.Fits (descriptor : GrpcJobDescriptor) : Prop where
  channelIndex : descriptor.channelIndex < 2 ^ 64
  targetIndex : descriptor.targetIndex < 2 ^ 64
  ssp : descriptor.ssp < 2 ^ 32
  sspTarget : descriptor.sspTarget < 2 ^ 32
  cap : descriptor.deltaLifetimeCheckedUnitsCap < 2 ^ 64

end Shachain2pc
