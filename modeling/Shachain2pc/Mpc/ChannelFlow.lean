import Shachain2pc.Daemon.Inner
import Shachain2pc.Mpc.Frame

/-!
# The session handshake of one party

A flow numbers the frames it sends and receives on one channel and refuses frames of
another job, channel, sender or position. Each party sends its session parameters, receives
the peer's and compares them, and acknowledges them with a hash.
-/

namespace Shachain2pc

structure ChannelFlow where
  jobId : List UInt8
  localRole : Role
  channel : LogicalChannel
  nextSend : ℕ
  nextRecv : ℕ
  aborted : Bool
  deriving DecidableEq, Repr

inductive CoreError where
  | aborted
  | jobMismatch
  | wrongChannelForPhase (expected got : LogicalChannel)
  | roleMismatch (expected got : Role)
  | channelMismatch (expected got : LogicalChannel)
  | sequenceMismatch (expected got : ℕ)
  | unexpectedMessageKind (expected got : MessageKind)
  | sessionParameterMismatch (field : String)
  | sessionAckMismatch
  | frame (message : String)
  deriving DecidableEq, Repr

structure StepError where
  state : ChannelFlow
  error : CoreError
  deriving DecidableEq, Repr

/-- `StepResult`. -/
abbrev StepResult (A : Type) := Except StepError A

/-- `opposite_role`. -/
def oppositeRole : Role → Role
  | .alice => .bob
  | .bob => .alice

/-- `u64::saturating_add(1)`. -/
def saturatingSucc (n : ℕ) : ℕ := min (n + 1) (2 ^ 64 - 1)

namespace ChannelFlow

/-- `ChannelFlow::new`. -/
def new (jobId : List UInt8) (localRole : Role) (channel : LogicalChannel) : ChannelFlow :=
  ⟨jobId, localRole, channel, 0, 0, false⟩

/-- `ChannelFlow::abort`. -/
def abort (flow : ChannelFlow) : ChannelFlow := { flow with aborted := true }

/-- `aborting_error`. -/
def abortingError {A : Type} (flow : ChannelFlow) (error : CoreError) : StepResult A :=
  .error ⟨flow.abort, error⟩

/-- `ChannelFlow::accept_outbound`. -/
def acceptOutbound (flow : ChannelFlow) (frame : MpcFrame) : StepResult (ChannelFlow × MpcFrame) :=
  if flow.aborted then .error ⟨flow, .aborted⟩
  else if frame.jobId ≠ flow.jobId then flow.abortingError .jobMismatch
  else if frame.senderRole ≠ flow.localRole then
    flow.abortingError (.roleMismatch flow.localRole frame.senderRole)
  else if frame.channel ≠ flow.channel then
    flow.abortingError (.channelMismatch flow.channel frame.channel)
  else if frame.sequence ≠ flow.nextSend then
    flow.abortingError (.sequenceMismatch flow.nextSend frame.sequence)
  else .ok ({ flow with nextSend := saturatingSucc flow.nextSend }, frame)

/-- `ChannelFlow::outbound_frame`. -/
def outboundFrame (flow : ChannelFlow) (kind : MessageKind) (payload : List UInt8) :
    StepResult (ChannelFlow × MpcFrame) :=
  if flow.aborted then .error ⟨flow, .aborted⟩
  else do
    let frame ← (MpcFrame.new flow.jobId flow.localRole flow.channel flow.nextSend kind
      payload).mapError
      fun error => StepError.mk flow (.frame error.message)
    flow.acceptOutbound frame

/-- `ChannelFlow::accept_inbound`. -/
def acceptInbound (flow : ChannelFlow) (frame : MpcFrame) : StepResult (ChannelFlow × MpcFrame) :=
  if flow.aborted then .error ⟨flow, .aborted⟩
  else if frame.jobId ≠ flow.jobId then flow.abortingError .jobMismatch
  else if frame.senderRole = flow.localRole then
    flow.abortingError (.roleMismatch (oppositeRole flow.localRole) frame.senderRole)
  else if frame.channel ≠ flow.channel then
    flow.abortingError (.channelMismatch flow.channel frame.channel)
  else if frame.sequence ≠ flow.nextRecv then
    flow.abortingError (.sequenceMismatch flow.nextRecv frame.sequence)
  else .ok ({ flow with nextRecv := saturatingSucc flow.nextRecv }, frame)

/-- `require_main`. -/
def requireMain (flow : ChannelFlow) : StepResult ChannelFlow :=
  if flow.channel ≠ .main then flow.abortingError (.wrongChannelForPhase .main flow.channel)
  else .ok flow

/-- `require_kind`. -/
def requireKind (flow : ChannelFlow) (frame : MpcFrame) (expected : MessageKind) :
    StepResult ChannelFlow :=
  if frame.kind ≠ expected then flow.abortingError (.unexpectedMessageKind expected frame.kind)
  else .ok flow

end ChannelFlow

/-- `SessionParams`, which has the fields of a session start. -/
abbrev SessionParams := SessionStart

/-- `compare_session_params`. -/
def compareSessionParams (flow : ChannelFlow) (expected got : SessionParams) :
    StepResult ChannelFlow :=
  if expected.ssp ≠ got.ssp then flow.abortingError (.sessionParameterMismatch "ssp")
  else if expected.circuitDigest ≠ got.circuitDigest then
    flow.abortingError (.sessionParameterMismatch "circuit_digest")
  else if expected.jobBinding ≠ got.jobBinding then
    flow.abortingError (.sessionParameterMismatch "job_binding")
  else .ok flow

/-- `update_len_prefixed`: what it appends to the hashed bytes. -/
def lenPrefixed (bytes : List UInt8) : List UInt8 := leBytes 8 bytes.length ++ bytes

/-- `session_start_ack`. -/
def sessionStartAck (sha256 : List UInt8 → Value32) (jobId : List UInt8) (senderRole : Role)
    (params : SessionParams) : SessionStartAck where
  transcriptBinding := (sha256 (asciiBytes "shachain2pc-mpc-core/session-start-ack/v1" ++
    lenPrefixed jobId ++ [senderRole.partyId] ++ leBytes 4 params.ssp ++
    lenPrefixed params.circuitDigest ++ lenPrefixed params.jobBinding)).bytes.toList

/-- `send_session_start`. -/
def sendSessionStart (codec : ProstCodec) (flow : ChannelFlow) (params : SessionParams) :
    StepResult (ChannelFlow × MpcFrame) := do
  let flow ← flow.requireMain
  flow.outboundFrame .sessionStart (codec.encodeStart params)

/-- `receive_session_start_and_ack`. -/
def receiveSessionStartAndAck (codec : ProstCodec) (sha256 : List UInt8 → Value32)
    (flow : ChannelFlow) (expected : SessionParams) (frame : MpcFrame) :
    StepResult (ChannelFlow × MpcFrame) := do
  let flow ← flow.requireMain
  let accepted ← flow.acceptInbound frame
  let flow ← accepted.1.requireKind accepted.2 .sessionStart
  let start ← (SessionStart.decode codec accepted.2.payload).mapError fun error =>
    StepError.mk flow.abort (.frame error.message)
  let flow ← compareSessionParams flow expected start
  flow.outboundFrame .sessionStartAck
    (codec.encodeAck (sessionStartAck sha256 flow.jobId flow.localRole expected))

/-- `receive_session_start_ack`. -/
def receiveSessionStartAck (codec : ProstCodec) (sha256 : List UInt8 → Value32) (flow : ChannelFlow)
    (expected : SessionParams) (frame : MpcFrame) : StepResult ChannelFlow := do
  let flow ← flow.requireMain
  let accepted ← flow.acceptInbound frame
  let flow ← accepted.1.requireKind accepted.2 .sessionStartAck
  let ack ← (SessionStartAck.decode codec accepted.2.payload).mapError fun error =>
    StepError.mk flow.abort (.frame error.message)
  if ack ≠ sessionStartAck sha256 flow.jobId accepted.2.senderRole expected then
    flow.abortingError .sessionAckMismatch
  else .ok flow

end Shachain2pc
