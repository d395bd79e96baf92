import Mathlib.Tactic.IntervalCases
import Shachain2pc.Mpc.Protobuf

/-!
# Round trips of frames

Only the code of a kind is written. The decoder takes a code of the protocol for the kind
of the protocol, whatever the flags say, so an optional kind is read back only when its code
is not one of these.
-/

namespace Shachain2pc

/-- The kind is optional, but has the code of a kind of the protocol. -/
def MessageKind.Shadowed : MessageKind → Prop
  | .unknownOptional code => 1 ≤ code ∧ code ≤ 11
  | _ => False

instance : DecidablePred MessageKind.Shadowed
  | .unknownOptional code => inferInstanceAs (Decidable (1 ≤ code ∧ code ≤ 11))
  | .sessionStart | .sessionStartAck | .inputAuthRequest | .inputAuthResponse | .programRunRequest
  | .programRunResponse | .cotCheckRequest | .cotCheckResponse | .revealRequest | .revealResponse
  | .abort => inferInstanceAs (Decidable False)

/-- An optional kind has its flag. -/
def MessageKind.Flagged (kind : MessageKind) (flags : ℕ) : Prop :=
  ∀ code, kind = .unknownOptional code → flags.testBit 0

/-- A kind with its flag is read back as some kind with its flag and the same code; it is the same
kind unless it is shadowed. -/
theorem MessageKind.fromCode_code {kind : MessageKind} {flags : ℕ} (h : kind.Flagged flags) :
    ∃ kind', MessageKind.fromCode kind.code flags = .ok kind' ∧ kind'.code = kind.code ∧
      kind'.Flagged flags ∧ (kind' = kind ↔ ¬kind.Shadowed) := by
  cases kind with
  | unknownOptional code =>
    have hflag := h code rfl
    by_cases hcode : 1 ≤ code ∧ code ≤ 11
    · obtain ⟨hlow, hhigh⟩ := hcode
      interval_cases code <;>
        exact ⟨_, rfl, rfl, fun _ hkind => MessageKind.noConfusion hkind, by decide⟩
    · refine ⟨.unknownOptional code, ?_, rfl, h, iff_of_true rfl hcode⟩
      change MessageKind.fromCode code flags = _
      unfold MessageKind.fromCode
      split
      case h_12 => rw [if_pos hflag]
      all_goals exact absurd (by decide) hcode
  | _ => exact ⟨_, rfl, rfl, h, iff_of_true rfl id⟩

/-- The job of a valid frame has a valid name, its flags are known, and its kind has its flag. -/
theorem MpcFrame.validate_eq_ok {frame : MpcFrame} : frame.validate = .ok () ↔
    validateJobId frame.jobId = .ok () ∧ validateFlags frame.flags = .ok () ∧
      frame.kind.Flagged frame.flags := by
  unfold MpcFrame.validate MessageKind.Flagged
  cases validateJobId frame.jobId with
  | error error => simp [bind, Except.bind]
  | ok =>
    cases validateFlags frame.flags with
    | error error => simp [bind, Except.bind]
    | ok => cases frame.kind <;> simp [bind, Except.bind]

/-- A valid frame is read from its protobuf message with the kind that its code stands for. -/
theorem MpcFrame.fromProto_toProto {frame : MpcFrame} (h : frame.validate = .ok ())
    {kind : MessageKind} (hkind : MessageKind.fromCode frame.kind.code frame.flags = .ok kind)
    (hflag : kind.Flagged frame.flags) :
    MpcFrame.fromProto frame.toProto = .ok { frame with kind := kind } := by
  obtain ⟨hjobId, hflags, -⟩ := MpcFrame.validate_eq_ok.mp h
  have hvalid : { frame with kind := kind }.validate = .ok () :=
    MpcFrame.validate_eq_ok.mpr ⟨hjobId, hflags, hflag⟩
  have hrole : roleFromCode frame.senderRole.partyId.toNat = .ok frame.senderRole := by
    cases frame.senderRole <;> rfl
  have hchannel : LogicalChannel.fromCode frame.channel.code = .ok frame.channel := by
    cases frame.channel <;> rfl
  simp only [MpcFrame.fromProto, MpcFrame.toProto, hjobId, hflags, hrole, hchannel, hkind, hvalid,
    bind, Except.bind, pure, Except.pure]
  rfl

/-- A valid frame is decoded with the kind that its code stands for. -/
theorem MpcFrame.decode_encode {codec : ProstCodec} (hcodec : codec.Canonical) {frame : MpcFrame}
    (hfits : frame.toProto.Fits) (h : frame.validate = .ok ()) :
    ∃ bytes kind, frame.encode codec = .ok bytes ∧
      MpcFrame.decode codec bytes = .ok { frame with kind := kind } ∧
      (kind = frame.kind ↔ ¬frame.kind.Shadowed) := by
  obtain ⟨hjobId, hflags, hflag⟩ := MpcFrame.validate_eq_ok.mp h
  obtain ⟨kind, hkind, hcode, hflag', hsame⟩ := MessageKind.fromCode_code hflag
  have hread := MpcFrame.fromProto_toProto h hkind hflag'
  have hvalid : { frame with kind := kind }.validate = .ok () :=
    MpcFrame.validate_eq_ok.mpr ⟨hjobId, hflags, hflag'⟩
  have hproto : { frame with kind := kind }.toProto = frame.toProto := by
    simp only [MpcFrame.toProto, hcode]
  refine ⟨codec.encodeFrame frame.toProto, kind, ?_, ?_, hsame⟩
  · rw [MpcFrame.encode, h]
    rfl
  · simp [MpcFrame.decode, hcodec.frame _ hfits, hread, MpcFrame.encode, hvalid, hproto,
      Except.mapError, bind, Except.bind, pure, Except.pure]

/-- A decoded frame encodes to the bytes it was read from. -/
theorem MpcFrame.encode_decode {codec : ProstCodec} {bytes : List UInt8} {frame : MpcFrame}
    (h : MpcFrame.decode codec bytes = .ok frame) : frame.encode codec = .ok bytes := by
  obtain ⟨proto, -, h⟩ := Rust.bind_eq_ok h
  obtain ⟨frame', -, h⟩ := Rust.bind_eq_ok h
  obtain ⟨canonical, hencode, h⟩ := Rust.bind_eq_ok h
  by_cases hsame : canonical = bytes
  · simp only [hsame, ne_eq, not_true_eq_false, if_false] at h
    rw [← Except.ok.inj h, hencode, hsame]
  · simp only [ne_eq, hsame, not_false_eq_true, if_true] at h
    cases h

/-- A valid frame is read back exactly when its kind is not shadowed; accepted bytes are written
back. -/
theorem frame_roundTrip {codec : ProstCodec} (hcodec : codec.Canonical) :
    (∀ frame : MpcFrame, frame.toProto.Fits → frame.validate = .ok () →
      ∃ bytes, frame.encode codec = .ok bytes ∧
        (MpcFrame.decode codec bytes = .ok frame ↔ ¬frame.kind.Shadowed)) ∧
    ∀ bytes frame, MpcFrame.decode codec bytes = .ok frame → frame.encode codec = .ok bytes := by
  refine ⟨fun frame hfits hvalid => ?_, fun bytes frame h => MpcFrame.encode_decode h⟩
  obtain ⟨bytes, kind, hencode, hdecode, hsame⟩ := MpcFrame.decode_encode hcodec hfits hvalid
  refine ⟨bytes, hencode, ?_⟩
  rw [hdecode, Except.ok.injEq, ← hsame]
  constructor
  · intro heq
    exact congrArg MpcFrame.kind heq
  · intro heq
    rw [heq]

/-- A frame with an optional kind which has the code of `InputAuthRequest`. -/
def shadowedFrame : MpcFrame := ⟨[7], .alice, .main, 0, .unknownOptional 3, [1, 2], 1⟩

/-- A frame with an optional kind of a code which the protocol does not use. -/
def optionalFrame : MpcFrame := { shadowedFrame with kind := .unknownOptional 99 }

/-- With the protobuf codec, an optional kind of an unused code is read back. -/
theorem frame_roundTrip_optional :
    ∃ bytes, optionalFrame.encode protobufCodec = .ok bytes ∧
      MpcFrame.decode protobufCodec bytes = .ok optionalFrame := by
  obtain ⟨bytes, hencode, hdecode⟩ := (frame_roundTrip protobufCodec_canonical).1 optionalFrame
    (by constructor <;> decide) (by decide)
  exact ⟨bytes, hencode, hdecode.mpr (by decide)⟩

/-- A valid frame with a shadowed kind is read back as another frame. -/
theorem frame_roundTrip_shadowed :
    ¬∀ frame : MpcFrame, frame.validate = .ok () → ∃ bytes, frame.encode protobufCodec = .ok bytes ∧
      MpcFrame.decode protobufCodec bytes = .ok frame := by
  intro h
  obtain ⟨bytes, hencode, hdecode⟩ := h shadowedFrame (by decide)
  have hread : MpcFrame.decode protobufCodec bytes =
      .ok { shadowedFrame with kind := .inputAuthRequest } := by
    rw [← Except.ok.inj hencode]
    decide +kernel
  rw [hread] at hdecode
  exact absurd hdecode (by decide)

end Shachain2pc
