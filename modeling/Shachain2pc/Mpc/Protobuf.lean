import Shachain2pc.Lib.Protobuf
import Shachain2pc.Mpc.Frame

/-!
# The messages as protobuf
-/

namespace Shachain2pc

open Protobuf (Value encodeMessage decodeMessage getVarint getBytes)

/-- The fields of a frame. -/
def ProtoFrame.fields (m : ProtoFrame) : List (ℕ × Value) :=
  [(1, .varint m.protocolVersion), (2, .bytes m.jobId), (3, .varint m.senderRole),
    (4, .varint m.channel), (5, .varint m.sequence), (6, .varint m.messageKind),
    (7, .bytes m.payload), (8, .varint m.flags)]

/-- The frame of some fields. -/
def ProtoFrame.ofFields (fields : List (ℕ × Value)) : Option ProtoFrame := do
  return {
    protocolVersion := ← getVarint fields 1
    jobId := ← getBytes fields 2
    senderRole := ← getVarint fields 3
    channel := ← getVarint fields 4
    sequence := ← getVarint fields 5
    messageKind := ← getVarint fields 6
    payload := ← getBytes fields 7
    flags := ← getVarint fields 8 }

/-- The fields of a session start. -/
def SessionStart.fields (m : SessionStart) : List (ℕ × Value) :=
  [(1, .varint m.ssp), (2, .bytes m.circuitDigest), (3, .bytes m.jobBinding)]

/-- The session start of some fields. -/
def SessionStart.ofFields (fields : List (ℕ × Value)) : Option SessionStart := do
  return {
    ssp := ← getVarint fields 1
    circuitDigest := ← getBytes fields 2
    jobBinding := ← getBytes fields 3 }

/-- The fields of an ack. -/
def SessionStartAck.fields (m : SessionStartAck) : List (ℕ × Value) :=
  [(1, .bytes m.transcriptBinding)]

/-- The ack of some fields. -/
def SessionStartAck.ofFields (fields : List (ℕ × Value)) : Option SessionStartAck := do
  return { transcriptBinding := ← getBytes fields 1 }

/-- Decode a message whose fields are read by `ofFields`. -/
def decodeWith {M : Type} (ofFields : List (ℕ × Value) → Option M) (bytes : List UInt8) :
    Except String M :=
  match (decodeMessage bytes).bind ofFields with
  | none => .error "invalid protobuf message"
  | some m => .ok m

/-- The codec of the messages as protobuf. -/
def protobufCodec : ProstCodec where
  encodeFrame m := encodeMessage m.fields
  decodeFrame := decodeWith ProtoFrame.ofFields
  encodeStart m := encodeMessage m.fields
  decodeStart := decodeWith SessionStart.ofFields
  encodeAck m := encodeMessage m.fields
  decodeAck := decodeWith SessionStartAck.ofFields

/-- A message is read back when its fields fit and are read back. -/
theorem decodeWith_encodeMessage {M : Type} {ofFields : List (ℕ × Value) → Option M}
    {fields : List (ℕ × Value)} {m : M}
    (hfields : ∀ field ∈ fields, field.1 < 2 ^ 32 ∧ field.2.Fits)
    (hread : ofFields (Protobuf.present fields) = some m) :
    decodeWith ofFields (encodeMessage fields) = .ok m := by
  rw [decodeWith, Protobuf.decodeMessage_encodeMessage hfields, Option.bind_some, hread]

/-- The protobuf codec does what the model relies on. -/
theorem protobufCodec_canonical : protobufCodec.Canonical where
  frame m h := by
    refine decodeWith_encodeMessage ?_ ?_
    · have hjobId := h.jobId
      have hpayload := h.payload
      have := h.protocolVersion
      have := h.senderRole
      have := h.channel
      have := h.sequence
      have := h.messageKind
      have := h.flags
      simp only [ProtoFrame.fields, List.forall_mem_cons, Value.Fits, List.not_mem_nil,
        false_imp_iff, implies_true, and_true]
      omega
    · simp [ProtoFrame.ofFields, ProtoFrame.fields, Protobuf.getVarint_present,
        Protobuf.getBytes_present, Protobuf.getVarint_present_ne, Protobuf.getBytes_present_ne]
  start m h := by
    refine decodeWith_encodeMessage ?_ ?_
    · have := h.ssp
      have := h.circuitDigest
      have := h.jobBinding
      simp only [SessionStart.fields, List.forall_mem_cons, Value.Fits, List.not_mem_nil,
        false_imp_iff, implies_true, and_true]
      omega
    · simp [SessionStart.ofFields, SessionStart.fields, Protobuf.getVarint_present,
        Protobuf.getBytes_present, Protobuf.getBytes_present_ne]
  ack m h := by
    refine decodeWith_encodeMessage ?_ ?_
    · simp only [SessionStartAck.fields, List.forall_mem_cons, Value.Fits, List.not_mem_nil,
        false_imp_iff, implies_true, and_true]
      omega
    · simp [SessionStartAck.ofFields, SessionStartAck.fields, Protobuf.getBytes_present]
  frameLength m := by
    refine (Protobuf.encodeMessage_length_le _).trans ?_
    simp only [ProtoFrame.fields, Protobuf.messageSize, Value.contentLength]
    omega
  startLength m := by
    refine (Protobuf.encodeMessage_length_le _).trans ?_
    simp only [SessionStart.fields, Protobuf.messageSize, Value.contentLength]
    omega
  ackLength m := by
    refine (Protobuf.encodeMessage_length_le _).trans ?_
    simp only [SessionStartAck.fields, Protobuf.messageSize, Value.contentLength]
    omega

end Shachain2pc
