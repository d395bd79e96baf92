import Shachain2pc.Daemon.Records
import Shachain2pc.Lib.Rust

/-!
# Frames of the message protocol

A frame names its job, sender, channel and position. Its bytes are a protobuf message whose
codec is a parameter; a frame is accepted only when its fields are valid and encoding it
again gives the same bytes.
-/

namespace Shachain2pc

inductive LogicalChannel where
  | main
  | sibling
  deriving DecidableEq, Repr

/-- `LogicalChannel::code`. -/
def LogicalChannel.code : LogicalChannel → ℕ
  | .main => 1
  | .sibling => 2

inductive MessageKind where
  | sessionStart
  | sessionStartAck
  | inputAuthRequest
  | inputAuthResponse
  | programRunRequest
  | programRunResponse
  | cotCheckRequest
  | cotCheckResponse
  | revealRequest
  | revealResponse
  | abort
  | unknownOptional (code : ℕ)
  deriving DecidableEq, Repr

/-- `MessageKind::code`. -/
def MessageKind.code : MessageKind → ℕ
  | .sessionStart => 1
  | .sessionStartAck => 2
  | .inputAuthRequest => 3
  | .inputAuthResponse => 4
  | .programRunRequest => 5
  | .programRunResponse => 6
  | .cotCheckRequest => 7
  | .cotCheckResponse => 8
  | .revealRequest => 9
  | .revealResponse => 10
  | .abort => 11
  | .unknownOptional code => code

/-- `MpcTypeError`. -/
inductive MpcTypeError where
  | decode (error : String)
  | unsupportedVersion (version : ℕ)
  | emptyJobId
  | jobIdTooLong (len : ℕ)
  | badRole (role : ℕ)
  | badChannel (channel : ℕ)
  | unsupportedFlags (flags : ℕ)
  | unknownMandatoryKind (kind : ℕ)
  | unknownOptionalWithoutFlag
  | nonCanonicalFrame
  deriving DecidableEq, Repr

/-- The text of an error. -/
def MpcTypeError.message : MpcTypeError → String
  | .decode error => s!"failed to decode MPC frame: {error}"
  | .unsupportedVersion version => s!"unsupported MPC protocol version {version}"
  | .emptyJobId => "MPC frame job_id must not be empty"
  | .jobIdTooLong len => s!"MPC frame job_id is too long: {len}"
  | .badRole role => s!"bad MPC sender role code {role}"
  | .badChannel channel => s!"bad MPC logical channel code {channel}"
  | .unsupportedFlags flags =>
    "unsupported MPC frame flags 0x" ++ String.ofList (Nat.toDigits 16 flags)
  | .unknownMandatoryKind kind => s!"unknown mandatory MPC message kind {kind}"
  | .unknownOptionalWithoutFlag => "unknown optional MPC message kind is missing its optional flag"
  | .nonCanonicalFrame => "MPC frame is not canonically encoded"

/-- `LogicalChannel::from_code`. -/
def LogicalChannel.fromCode : ℕ → Except MpcTypeError LogicalChannel
  | 1 => .ok .main
  | 2 => .ok .sibling
  | code => .error (.badChannel code)

/-- `MessageKind::from_code`; the first flag marks an optional kind. -/
def MessageKind.fromCode (code flags : ℕ) : Except MpcTypeError MessageKind :=
  match code with
  | 1 => .ok .sessionStart
  | 2 => .ok .sessionStartAck
  | 3 => .ok .inputAuthRequest
  | 4 => .ok .inputAuthResponse
  | 5 => .ok .programRunRequest
  | 6 => .ok .programRunResponse
  | 7 => .ok .cotCheckRequest
  | 8 => .ok .cotCheckResponse
  | 9 => .ok .revealRequest
  | 10 => .ok .revealResponse
  | 11 => .ok .abort
  | code =>
    if flags.testBit 0 then .ok (.unknownOptional code) else .error (.unknownMandatoryKind code)

/-- `role_from_code`. -/
def roleFromCode : ℕ → Except MpcTypeError Role
  | 1 => .ok .alice
  | 2 => .ok .bob
  | code => .error (.badRole code)

structure MpcFrame where
  jobId : List UInt8
  senderRole : Role
  channel : LogicalChannel
  sequence : ℕ
  kind : MessageKind
  payload : List UInt8
  flags : ℕ
  deriving DecidableEq, Repr

/-- The protobuf message of a frame. -/
structure ProtoFrame where
  protocolVersion : ℕ
  jobId : List UInt8
  senderRole : ℕ
  channel : ℕ
  sequence : ℕ
  messageKind : ℕ
  payload : List UInt8
  flags : ℕ
  deriving DecidableEq, Repr

structure SessionStart where
  ssp : ℕ
  circuitDigest : List UInt8
  jobBinding : List UInt8
  deriving DecidableEq, Repr

structure SessionStartAck where
  transcriptBinding : List UInt8
  deriving DecidableEq, Repr

/-- The protobuf codec of the three messages. -/
structure ProstCodec where
  encodeFrame : ProtoFrame → List UInt8
  decodeFrame : List UInt8 → Except String ProtoFrame
  encodeStart : SessionStart → List UInt8
  decodeStart : List UInt8 → Except String SessionStart
  encodeAck : SessionStartAck → List UInt8
  decodeAck : List UInt8 → Except String SessionStartAck

/-- The fields are in the ranges of their types. -/
structure ProtoFrame.Fits (m : ProtoFrame) : Prop where
  protocolVersion : m.protocolVersion < 2 ^ 32
  jobId : m.jobId.length < 2 ^ 63
  senderRole : m.senderRole < 2 ^ 32
  channel : m.channel < 2 ^ 32
  sequence : m.sequence < 2 ^ 64
  messageKind : m.messageKind < 2 ^ 32
  payload : m.payload.length < 2 ^ 63
  flags : m.flags < 2 ^ 32

/-- The fields are in the ranges of their types. -/
structure SessionStart.Fits (m : SessionStart) : Prop where
  ssp : m.ssp < 2 ^ 32
  circuitDigest : m.circuitDigest.length < 2 ^ 63
  jobBinding : m.jobBinding.length < 2 ^ 63

/-- What a protobuf codec does: decoding what it encoded gives the message back, and a field adds
at most a key of ten bytes and a number of ten bytes to its content. -/
structure ProstCodec.Canonical (codec : ProstCodec) : Prop where
  frame : ∀ m : ProtoFrame, m.Fits → codec.decodeFrame (codec.encodeFrame m) = .ok m
  start : ∀ m : SessionStart, m.Fits → codec.decodeStart (codec.encodeStart m) = .ok m
  ack : ∀ m : SessionStartAck, m.transcriptBinding.length < 2 ^ 63 →
    codec.decodeAck (codec.encodeAck m) = .ok m
  frameLength : ∀ m, (codec.encodeFrame m).length ≤ 160 + m.jobId.length + m.payload.length
  startLength :
      ∀ m, (codec.encodeStart m).length ≤ 60 + m.circuitDigest.length + m.jobBinding.length
  ackLength : ∀ m, (codec.encodeAck m).length ≤ 20 + m.transcriptBinding.length

/-- `MAX_JOB_ID_BYTES`. -/
def maxJobIdBytes : ℕ := 64

/-- `validate_job_id`. -/
def validateJobId (jobId : List UInt8) : Except MpcTypeError Unit :=
  if jobId = [] then .error .emptyJobId
  else if maxJobIdBytes < jobId.length then .error (.jobIdTooLong jobId.length)
  else .ok ()

/-- `validate_flags`; only the first flag is supported. -/
def validateFlags (flags : ℕ) : Except MpcTypeError Unit :=
  if 1 < flags then .error (.unsupportedFlags flags) else .ok ()

namespace MpcFrame

/-- `MpcFrame::validate`. -/
def validate (frame : MpcFrame) : Except MpcTypeError Unit := do
  validateJobId frame.jobId
  validateFlags frame.flags
  match frame.kind with
  | .unknownOptional _ =>
    if frame.flags.testBit 0 then .ok () else .error .unknownOptionalWithoutFlag
  | _ => .ok ()

/-- `MpcFrame::new`. -/
def new (jobId : List UInt8) (senderRole : Role) (channel : LogicalChannel) (sequence : ℕ)
    (kind : MessageKind) (payload : List UInt8) : Except MpcTypeError MpcFrame := do
  let flags := match kind with
    | .unknownOptional _ => 1
    | _ => 0
  let frame := ⟨jobId, senderRole, channel, sequence, kind, payload, flags⟩
  frame.validate
  return frame

/-- `MpcFrame::to_proto`. -/
def toProto (frame : MpcFrame) : ProtoFrame where
  protocolVersion := 1
  jobId := frame.jobId
  senderRole := frame.senderRole.partyId.toNat
  channel := frame.channel.code
  sequence := frame.sequence
  messageKind := frame.kind.code
  payload := frame.payload
  flags := frame.flags

/-- `MpcFrame::from_proto`. -/
def fromProto (proto : ProtoFrame) : Except MpcTypeError MpcFrame := do
  if proto.protocolVersion ≠ 1 then throw (.unsupportedVersion proto.protocolVersion)
  validateJobId proto.jobId
  validateFlags proto.flags
  let senderRole ← roleFromCode proto.senderRole
  let channel ← LogicalChannel.fromCode proto.channel
  let kind ← MessageKind.fromCode proto.messageKind proto.flags
  let frame := ⟨proto.jobId, senderRole, channel, proto.sequence, kind, proto.payload, proto.flags⟩
  frame.validate
  return frame

/-- `MpcFrame::encode_to_vec`. -/
def encode (codec : ProstCodec) (frame : MpcFrame) : Except MpcTypeError (List UInt8) := do
  frame.validate
  return codec.encodeFrame frame.toProto

/-- `MpcFrame::decode`. -/
def decode (codec : ProstCodec) (bytes : List UInt8) : Except MpcTypeError MpcFrame := do
  let proto ← (codec.decodeFrame bytes).mapError .decode
  let frame ← fromProto proto
  let canonical ← frame.encode codec
  if canonical ≠ bytes then throw .nonCanonicalFrame
  return frame

end MpcFrame

/-- `SessionStart::decode`. -/
def SessionStart.decode (codec : ProstCodec) (bytes : List UInt8) :
    Except MpcTypeError SessionStart := do
  let out ← (codec.decodeStart bytes).mapError .decode
  if codec.encodeStart out ≠ bytes then throw .nonCanonicalFrame
  return out

/-- `SessionStartAck::decode`. -/
def SessionStartAck.decode (codec : ProstCodec) (bytes : List UInt8) :
    Except MpcTypeError SessionStartAck := do
  let out ← (codec.decodeAck bytes).mapError .decode
  if codec.encodeAck out ≠ bytes then throw .nonCanonicalFrame
  return out

end Shachain2pc
