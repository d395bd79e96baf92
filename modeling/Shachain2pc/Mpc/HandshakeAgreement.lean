import Shachain2pc.Mpc.Handshake
import Shachain2pc.Mpc.Protobuf
import Mathlib.Tactic.IntervalCases

/-!
# What the session handshake establishes

A frame a party accepts was sent by the other one, because it names another sender, and it
carries that party's parameters; so a party which accepts a start was given the peer's
descriptor. When nothing is lost the parties go through four stages each, in an order that
leaves little to choose.
-/

namespace Shachain2pc

open Runs (run run_cons Along guard_eq_some)
open Rust (bind_eq_ok mapError_eq_ok)

variable {codec : ProstCodec} {sha256 : List UInt8 → Value32}

/-! ## Frames on the wire -/

/-- A frame of the handshake. -/
structure HandshakeFrame (frame : MpcFrame) : Prop where
  kind : frame.kind = .sessionStart ∨ frame.kind = .sessionStartAck
  jobId : validateJobId frame.jobId = .ok ()
  flags : frame.flags = 0
  sequence : frame.sequence < 2 ^ 64
  payload : frame.payload.length < 2 ^ 63

/-- Such a frame is valid. -/
theorem HandshakeFrame.validate {frame : MpcFrame} (h : HandshakeFrame frame) :
    frame.validate = .ok () := by
  obtain ⟨jobId, senderRole, channel, sequence, kind, payload, flags⟩ := frame
  obtain ⟨hkind, hjobId, hflags, -, -⟩ := h
  simp only at hkind hjobId hflags
  subst hflags
  rcases hkind with rfl | rfl <;> simp [MpcFrame.validate, hjobId, validateFlags, bind, Except.bind]

/-- A valid job id has at most 64 bytes. -/
theorem length_le_of_validateJobId {jobId : List UInt8} (h : validateJobId jobId = .ok ()) :
    jobId.length ≤ maxJobIdBytes := by
  unfold validateJobId at h
  split at h
  · cases h
  · split at h
    · cases h
    · rename_i hle
      exact not_lt.mp hle

/-- The message of such a frame fits. -/
theorem HandshakeFrame.fits {frame : MpcFrame} (h : HandshakeFrame frame) : frame.toProto.Fits := by
  obtain ⟨jobId, senderRole, channel, sequence, kind, payload, flags⟩ := frame
  obtain ⟨hkind, hjobId, hflags, hsequence, hpayload⟩ := h
  simp only at hkind hjobId hflags hsequence hpayload
  subst hflags
  have hlength := length_le_of_validateJobId hjobId
  unfold maxJobIdBytes at hlength
  refine ⟨by simp [MpcFrame.toProto], ?_, ?_, ?_, hsequence, ?_,
    hpayload, by simp [MpcFrame.toProto]⟩
  · simp only [MpcFrame.toProto]
    omega
  · cases senderRole <;> simp [MpcFrame.toProto, Role.partyId]
  · cases channel <;> simp [MpcFrame.toProto, LogicalChannel.code]
  · rcases hkind with rfl | rfl <;> simp [MpcFrame.toProto, MessageKind.code]

/-- Reading the message of such a frame gives the frame. -/
theorem HandshakeFrame.fromProto {frame : MpcFrame} (h : HandshakeFrame frame) :
    MpcFrame.fromProto frame.toProto = .ok frame := by
  have hvalid := h.validate
  obtain ⟨jobId, senderRole, channel, sequence, kind, payload, flags⟩ := frame
  obtain ⟨hkind, hjobId, hflags, -, -⟩ := h
  simp only at hkind hjobId hflags
  subst hflags
  cases senderRole <;> cases channel <;> rcases hkind with rfl | rfl <;>
    simp [MpcFrame.fromProto, MpcFrame.toProto, hjobId, validateFlags, Role.partyId, roleFromCode,
      LogicalChannel.code, LogicalChannel.fromCode, MessageKind.code, MessageKind.fromCode, hvalid,
      bind, Except.bind, pure, Except.pure]

/-- Decoding the bytes of such a frame gives the frame. -/
theorem HandshakeFrame.decode {frame : MpcFrame} (hcodec : codec.Canonical)
    (h : HandshakeFrame frame) :
    MpcFrame.decode codec (codec.encodeFrame frame.toProto) = .ok frame := by
  simp [MpcFrame.decode, hcodec.frame _ h.fits, h.fromProto, MpcFrame.encode, h.validate,
    Except.mapError, bind, Except.bind, pure, Except.pure]

/-- Decoding an encoded session start gives its parameters. -/
theorem SessionStart.decode_encode (hcodec : codec.Canonical) {start : SessionStart}
    (h : start.Fits) :
    SessionStart.decode codec (codec.encodeStart start) = .ok start := by
  simp [SessionStart.decode, hcodec.start _ h, Except.mapError, bind, Except.bind,
    pure, Except.pure]

/-- Decoding an encoded ack gives the ack. -/
theorem SessionStartAck.decode_encode (hcodec : codec.Canonical) {ack : SessionStartAck}
    (h : ack.transcriptBinding.length < 2 ^ 63) :
    SessionStartAck.decode codec (codec.encodeAck ack) = .ok ack := by
  simp [SessionStartAck.decode, hcodec.ack _ h, Except.mapError, bind, Except.bind,
    pure, Except.pure]

/-! ## What a flow sends and accepts -/

/-- A condition that an error guards holds of a successful result. -/
theorem guard_eq_ok {E A : Type} {p : Prop} [Decidable p] {error : E} {next : Except E A}
    {value : A} (h : (if p then .error error else next) = .ok value) : ¬p ∧ next = .ok value := by
  split at h
  · cases h
  · exact ⟨‹¬p›, h⟩

/-- An accepted outbound frame is sent as it is. -/
theorem ChannelFlow.acceptOutbound_eq_ok {flow flow' : ChannelFlow} {frame frame' : MpcFrame}
    (h : flow.acceptOutbound frame = .ok (flow', frame')) :
    frame' = frame ∧ flow' = { flow with nextSend := saturatingSucc flow.nextSend } := by
  obtain ⟨-, h⟩ := guard_eq_ok h
  obtain ⟨-, h⟩ := guard_eq_ok h
  obtain ⟨-, h⟩ := guard_eq_ok h
  obtain ⟨-, h⟩ := guard_eq_ok h
  obtain ⟨-, h⟩ := guard_eq_ok h
  cases h
  exact ⟨rfl, rfl⟩

/-- An accepted inbound frame is of the flow's job and from the other party. -/
theorem ChannelFlow.acceptInbound_eq_ok {flow : ChannelFlow} {frame : MpcFrame}
    {accepted : ChannelFlow × MpcFrame} (h : flow.acceptInbound frame = .ok accepted) :
    frame.jobId = flow.jobId ∧ frame.senderRole ≠ flow.localRole ∧ accepted.2 = frame ∧
      accepted.1 = { flow with nextRecv := saturatingSucc flow.nextRecv } := by
  obtain ⟨-, h⟩ := guard_eq_ok h
  obtain ⟨hjobId, h⟩ := guard_eq_ok h
  obtain ⟨hrole, h⟩ := guard_eq_ok h
  obtain ⟨-, h⟩ := guard_eq_ok h
  obtain ⟨-, h⟩ := guard_eq_ok h
  cases h
  exact ⟨not_not.mp hjobId, hrole, rfl, rfl⟩

/-- An outbound frame carries the flow's context, and a valid job id. -/
theorem ChannelFlow.outboundFrame_eq_ok {flow : ChannelFlow} {kind : MessageKind}
    {payload : List UInt8} {sent : ChannelFlow × MpcFrame}
    (hkind : kind = .sessionStart ∨ kind = .sessionStartAck)
    (h : flow.outboundFrame kind payload = .ok sent) :
    validateJobId flow.jobId = .ok () ∧
      sent.2 = ⟨flow.jobId, flow.localRole, flow.channel, flow.nextSend, kind, payload, 0⟩ ∧
      sent.1 = { flow with nextSend := saturatingSucc flow.nextSend } := by
  obtain ⟨-, h⟩ := guard_eq_ok h
  obtain ⟨frame, hnew, haccept⟩ := bind_eq_ok h
  obtain ⟨_, hvalid, hframe⟩ := bind_eq_ok (mapError_eq_ok hnew)
  obtain ⟨_, hjobId, -⟩ := bind_eq_ok hvalid
  obtain ⟨hsame, hflow⟩ := ChannelFlow.acceptOutbound_eq_ok haccept
  refine ⟨hjobId, ?_, hflow⟩
  rw [hsame]
  rcases hkind with rfl | rfl <;> exact (Except.ok.inj hframe).symm

/-- The compared parameters are equal. -/
theorem compareSessionParams_eq_ok {flow flow' : ChannelFlow} {expected got : SessionParams}
    (h : compareSessionParams flow expected got = .ok flow') : got = expected ∧ flow' = flow := by
  obtain ⟨ssp, digest, binding⟩ := got
  obtain ⟨hssp, h⟩ := guard_eq_ok h
  obtain ⟨hdigest, h⟩ := guard_eq_ok h
  obtain ⟨hbinding, h⟩ := guard_eq_ok h
  simp only [ne_eq, not_not] at hssp hdigest hbinding
  rw [← hssp, ← hdigest, ← hbinding]
  exact ⟨rfl, (Except.ok.inj h).symm⟩

/-- The frames a party sends for its descriptor. -/
structure FrameOf (codec : ProstCodec) (sha256 : List UInt8 → Value32) (role : Role)
    (descriptor : GrpcJobDescriptor) (frame : MpcFrame) : Prop where
  valid : HandshakeFrame frame
  jobId : frame.jobId = utf8Bytes descriptor.jobId
  sender : frame.senderRole = role
  payload : (frame.kind = .sessionStart ∧
      frame.payload = codec.encodeStart (jobstreamSessionParams descriptor)) ∨
    (frame.kind = .sessionStartAck ∧ frame.payload =
      codec.encodeAck (sessionStartAck sha256 frame.jobId role (jobstreamSessionParams descriptor)))

/-- The flow of a party for its descriptor. -/
structure FlowOf (role : Role) (descriptor : GrpcJobDescriptor) (flow : ChannelFlow) : Prop where
  jobId : flow.jobId = utf8Bytes descriptor.jobId
  localRole : flow.localRole = role
  nextSend : flow.nextSend < 2 ^ 64

/-- The parameters of a descriptor fit. -/
theorem jobstreamSessionParams_fits {descriptor : GrpcJobDescriptor} (h : descriptor.Fits) :
    (jobstreamSessionParams descriptor).Fits := by
  refine ⟨h.ssp, by simp [jobstreamSessionParams], ?_⟩
  simp [jobstreamSessionParams, jobstreamSessionBinding, asciiBytes]

/-- The next position is in range. -/
theorem saturatingSucc_lt (n : ℕ) : saturatingSucc n < 2 ^ 64 := by
  unfold saturatingSucc
  omega

/-- What a flow sends for its descriptor is one of its frames. -/
theorem outboundFrame_frameOf {role : Role} {descriptor : GrpcJobDescriptor} {flow : ChannelFlow}
    {kind : MessageKind} {payload : List UInt8} {sent : ChannelFlow × MpcFrame}
    (hflow : FlowOf role descriptor flow) (hlength : payload.length < 2 ^ 63)
    (hpayload : (kind = .sessionStart ∧ payload =
      codec.encodeStart (jobstreamSessionParams descriptor)) ∨ (kind = .sessionStartAck ∧ payload =
        codec.encodeAck
          (sessionStartAck sha256 flow.jobId role (jobstreamSessionParams descriptor))))
    (h : flow.outboundFrame kind payload = .ok sent) :
    FlowOf role descriptor sent.1 ∧ FrameOf codec sha256 role descriptor sent.2 := by
  have hkind : kind = .sessionStart ∨ kind = .sessionStartAck :=
    hpayload.imp And.left And.left
  obtain ⟨hjobId, hframe, hnext⟩ := ChannelFlow.outboundFrame_eq_ok hkind h
  rw [hframe, hnext]
  exact ⟨⟨hflow.jobId, hflow.localRole, saturatingSucc_lt _⟩,
    ⟨hkind, hjobId, rfl, hflow.nextSend, hlength⟩, hflow.jobId, hflow.localRole, hpayload⟩

/-- What an accepted start says, and what is sent for it. -/
theorem receiveSessionStartAndAck_eq_ok {flow : ChannelFlow} {expected : SessionParams}
    {frame : MpcFrame} {sent : ChannelFlow × MpcFrame}
    (h : receiveSessionStartAndAck codec sha256 flow expected frame = .ok sent) :
    frame.jobId = flow.jobId ∧ frame.senderRole ≠ flow.localRole ∧ frame.kind = .sessionStart ∧
      SessionStart.decode codec frame.payload = .ok expected ∧
      ChannelFlow.outboundFrame
        { flow with nextRecv := saturatingSucc flow.nextRecv } .sessionStartAck
        (codec.encodeAck (sessionStartAck sha256 flow.jobId flow.localRole expected)) =
          .ok sent := by
  obtain ⟨main, hmain, h⟩ := bind_eq_ok h
  obtain ⟨-, hsame⟩ := guard_eq_ok hmain
  obtain rfl := Except.ok.inj hsame
  obtain ⟨accepted, haccept, h⟩ := bind_eq_ok h
  obtain ⟨hjobId, hrole, hframe, hflow⟩ := ChannelFlow.acceptInbound_eq_ok haccept
  obtain ⟨kinded, hrequire, h⟩ := bind_eq_ok h
  obtain ⟨hkind, hsame⟩ := guard_eq_ok hrequire
  obtain rfl := Except.ok.inj hsame
  obtain ⟨start, hstart, h⟩ := bind_eq_ok h
  obtain ⟨compared, hcompare, h⟩ := bind_eq_ok h
  obtain ⟨rfl, rfl⟩ := compareSessionParams_eq_ok hcompare
  rw [hframe] at hkind hstart
  rw [hflow] at h
  exact ⟨hjobId, hrole, not_not.mp hkind, mapError_eq_ok hstart, h⟩

/-- An accepted ack leaves the flow's context. -/
theorem receiveSessionStartAck_eq_ok {flow flow' : ChannelFlow} {expected : SessionParams}
    {frame : MpcFrame} (h : receiveSessionStartAck codec sha256 flow expected frame = .ok flow') :
    flow' = { flow with nextRecv := saturatingSucc flow.nextRecv } := by
  obtain ⟨main, hmain, h⟩ := bind_eq_ok h
  obtain ⟨-, hsame⟩ := guard_eq_ok hmain
  obtain rfl := Except.ok.inj hsame
  obtain ⟨accepted, haccept, h⟩ := bind_eq_ok h
  obtain ⟨-, -, -, hflow⟩ := ChannelFlow.acceptInbound_eq_ok haccept
  obtain ⟨kinded, hrequire, h⟩ := bind_eq_ok h
  obtain ⟨-, hsame⟩ := guard_eq_ok hrequire
  obtain rfl := Except.ok.inj hsame
  obtain ⟨ack, -, h⟩ := bind_eq_ok h
  obtain ⟨-, h⟩ := guard_eq_ok h
  rw [← Except.ok.inj h, hflow]

/-! ## What a descriptor binds -/

/-- The binding determines the fields it holds. -/
theorem jobstreamSessionBinding_inj {first second : GrpcJobDescriptor} (hfirst : first.Fits)
    (hsecond : second.Fits) (h : jobstreamSessionBinding first = jobstreamSessionBinding second) :
    first.channelIndex = second.channelIndex ∧ first.targetIndex = second.targetIndex ∧
      first.sspTarget = second.sspTarget ∧
      first.deltaLifetimeCheckedUnitsCap = second.deltaLifetimeCheckedUnitsCap := by
  obtain ⟨h, -⟩ := List.append_inj' h rfl
  obtain ⟨h, hcap⟩ := List.append_inj' h (by rw [leBytes_length, leBytes_length])
  obtain ⟨h, hsspTarget⟩ := List.append_inj' h (by rw [leBytes_length, leBytes_length])
  obtain ⟨h, htarget⟩ := List.append_inj' h (by rw [leBytes_length, leBytes_length])
  obtain ⟨-, hchannel⟩ := List.append_inj' h (by rw [leBytes_length, leBytes_length])
  exact ⟨leBytes_inj hfirst.channelIndex hsecond.channelIndex hchannel,
    leBytes_inj hfirst.targetIndex hsecond.targetIndex htarget,
    leBytes_inj hfirst.sspTarget hsecond.sspTarget hsspTarget,
    leBytes_inj hfirst.cap hsecond.cap hcap⟩

/-- The job id and the session parameters determine the descriptor. -/
theorem GrpcJobDescriptor.ext_params {first second : GrpcJobDescriptor} (hfirst : first.Fits)
    (hsecond : second.Fits) (hjobId : utf8Bytes first.jobId = utf8Bytes second.jobId)
    (hparams : jobstreamSessionParams first = jobstreamSessionParams second) : first = second := by
  obtain ⟨hssp, hdigest, hbinding⟩ := SessionStart.mk.inj hparams
  obtain ⟨hchannel, htarget, hsspTarget, hcap⟩ :=
    jobstreamSessionBinding_inj hfirst hsecond hbinding
  have hbytes : first.digest = second.digest := congrArg Value32.mk (Vector.toList_inj.mp hdigest)
  have htext := utf8Bytes_inj hjobId
  cases first
  cases second
  simp only at hssp hchannel htarget hsspTarget hcap hbytes htext
  rw [hssp, hchannel, htarget, hsspTarget, hcap, hbytes, htext]

/-- A party which accepts the start of a descriptor was given that descriptor. -/
theorem receiveSessionStartAndAck_descriptor (hcodec : codec.Canonical) {role sender : Role}
    {own peer : GrpcJobDescriptor} (hown : own.Fits) (hpeer : peer.Fits) {flow : ChannelFlow}
    (hflow : FlowOf role own flow) {frame : MpcFrame}
    (hframe : FrameOf codec sha256 sender peer frame) {sent : ChannelFlow × MpcFrame}
    (h : receiveSessionStartAndAck codec sha256 flow
      (jobstreamSessionParams own) frame = .ok sent) :
    sender ≠ role ∧ own = peer := by
  obtain ⟨hjobId, hrole, hkind, hstart, -⟩ := receiveSessionStartAndAck_eq_ok h
  rw [hframe.sender, hflow.localRole] at hrole
  rcases hframe.payload with ⟨-, hpayload⟩ | ⟨hack, -⟩
  · rw [hpayload, SessionStart.decode_encode hcodec (jobstreamSessionParams_fits hpeer)] at hstart
    refine ⟨hrole, GrpcJobDescriptor.ext_params hown hpeer ?_ (Except.ok.inj hstart).symm⟩
    rw [← hflow.jobId, ← hjobId, hframe.jobId]
  · rw [hkind] at hack
    cases hack

/-! ## Parties over a run -/

/-- A party that ran for its descriptor: it sent only frames of it. -/
structure PartyOf (codec : ProstCodec) (sha256 : List UInt8 → Value32) (role : Role)
    (descriptor : GrpcJobDescriptor) (party : HandshakeParty) : Prop where
  localRole : party.role = role
  params : party.params = jobstreamSessionParams descriptor
  flow : FlowOf role descriptor party.flow
  sent : ∀ bytes ∈ party.sent,
    ∃ frame, FrameOf codec sha256 role descriptor frame ∧ bytes = codec.encodeFrame frame.toProto

/-- The phases a party of a role reaches after it accepted the peer's start. -/
def Accepted : Role → HandshakePhase → Prop
  | .alice, phase => phase = .finished
  | .bob, phase => phase = .sendStart ∨ phase = .awaitAck ∨ phase = .finished

/-- Failing keeps the descriptor, and accepts nothing. -/
theorem PartyOf.fail {role : Role} {descriptor : GrpcJobDescriptor} {party : HandshakeParty}
    (h : PartyOf codec sha256 role descriptor party) (error : RunnerError) :
    PartyOf codec sha256 role descriptor (party.fail error) ∧ ¬Accepted role
      (party.fail error).phase := by
  refine ⟨⟨h.localRole, h.params, h.flow, h.sent⟩, ?_⟩
  cases role <;> simp [Accepted, HandshakeParty.fail]

/-- Sending a frame of the descriptor keeps the descriptor; a party which did not fail sent it. -/
theorem PartyOf.sendThen {role : Role} {descriptor : GrpcJobDescriptor} {party : HandshakeParty}
    (h : PartyOf codec sha256 role descriptor party) (next : HandshakePhase)
    {result : StepResult (ChannelFlow × MpcFrame)}
    (hresult : ∀ accepted, result = .ok accepted →
      FlowOf role descriptor accepted.1 ∧ FrameOf codec sha256 role descriptor accepted.2) :
    PartyOf codec sha256 role descriptor (party.sendThen codec next result) ∧
      (Accepted role (party.sendThen codec next result).phase →
        (∃ accepted, result = .ok accepted) ∧ Accepted role next) := by
  unfold HandshakeParty.sendThen
  split
  · exact ⟨(h.fail _).1, fun hphase => absurd hphase (h.fail _).2⟩
  · rename_i accepted
    obtain ⟨hflow, hframe⟩ := hresult accepted rfl
    split
    · exact ⟨(h.fail _).1, fun hphase => absurd hphase (h.fail _).2⟩
    · rename_i bytes hbytes
      refine ⟨⟨h.localRole, h.params, hflow, ?_⟩, fun hphase => ⟨⟨accepted, rfl⟩, hphase⟩⟩
      rintro sent hsent
      rcases List.mem_append.mp hsent with hold | hnew
      · exact h.sent sent hold
      · obtain rfl := List.mem_singleton.mp hnew
        obtain ⟨encoded, hencode, hsize⟩ := bind_eq_ok hbytes
        obtain ⟨-, hsize⟩ := guard_eq_ok hsize
        obtain rfl := Except.ok.inj hsize
        obtain ⟨-, -, hvalue⟩ := bind_eq_ok (mapError_eq_ok hencode)
        exact ⟨accepted.2, hframe, (Except.ok.inj hvalue).symm⟩

/-- An encoded start is short. -/
theorem encodeStart_length_le (hcodec : codec.Canonical) (descriptor : GrpcJobDescriptor) :
    (codec.encodeStart (jobstreamSessionParams descriptor)).length ≤ 200 := by
  refine (hcodec.startLength _).trans ?_
  simp [jobstreamSessionParams, jobstreamSessionBinding, asciiBytes]

/-- An encoded ack is short. -/
theorem encodeAck_length_le (hcodec : codec.Canonical) (sha256 : List UInt8 → Value32)
    (jobId : List UInt8) (role : Role) (params : SessionParams) :
    (codec.encodeAck (sessionStartAck sha256 jobId role params)).length ≤ 52 := by
  refine (hcodec.ackLength _).trans ?_
  simp [sessionStartAck]

/-- Sending the start keeps the descriptor, and accepts nothing new. -/
theorem PartyOf.sendStart (hcodec : codec.Canonical) {role : Role} {descriptor : GrpcJobDescriptor}
    {party party' : HandshakeParty} (h : PartyOf codec sha256 role descriptor party)
    (hstep : party.sendStart codec = some party') :
    PartyOf codec sha256 role descriptor party' ∧
      (Accepted role party'.phase → Accepted role party.phase) := by
  obtain ⟨hphase, rfl⟩ := guard_eq_some.mp hstep
  have hresult : ∀ accepted, sendSessionStart codec party.flow party.params = .ok accepted →
      FlowOf role descriptor accepted.1 ∧ FrameOf codec sha256 role descriptor accepted.2 := by
    intro accepted hsend
    obtain ⟨main, hmain, hsend⟩ := bind_eq_ok hsend
    obtain ⟨-, hsame⟩ := guard_eq_ok hmain
    obtain rfl := Except.ok.inj hsame
    rw [h.params] at hsend
    have hlength := encodeStart_length_le hcodec descriptor
    exact outboundFrame_frameOf h.flow (by omega) (.inl ⟨rfl, rfl⟩) hsend
  obtain ⟨hparty, haccepted⟩ := h.sendThen .awaitAck hresult
  refine ⟨hparty, fun hafter => ?_⟩
  have hnext := (haccepted hafter).2
  cases role with
  | alice => cases hnext
  | bob => exact .inl hphase

/-- Receiving a frame keeps the descriptor; to accept is to have been given the sender's. -/
theorem PartyOf.receive (hcodec : codec.Canonical) {role sender : Role}
    {own peer : GrpcJobDescriptor} (hown : own.Fits) (hpeer : peer.Fits)
    {party party' : HandshakeParty} (h : PartyOf codec sha256 role own party) {frame : MpcFrame}
    (hframe : FrameOf codec sha256 sender peer frame)
    (hstep : party.receive codec sha256 (codec.encodeFrame frame.toProto) = some party') :
    PartyOf codec sha256 role own party' ∧
      (Accepted role party'.phase → Accepted role party.phase ∨ (sender ≠ role ∧ own = peer)) := by
  have hcounted : PartyOf codec sha256 role own { party with taken := party.taken + 1 } :=
    ⟨h.localRole, h.params, h.flow, h.sent⟩
  unfold HandshakeParty.receive at hstep
  simp only at hstep
  split at hstep
  · obtain rfl := Option.some.inj hstep
    split
    · exact ⟨(hcounted.fail _).1, fun hphase => absurd hphase (hcounted.fail _).2⟩
    · rename_i read hread
      obtain ⟨-, hread⟩ := guard_eq_ok hread
      have hsame := mapError_eq_ok hread
      rw [hframe.valid.decode hcodec] at hsame
      obtain rfl := Except.ok.inj hsame
      have hresult : ∀ accepted,
          receiveSessionStartAndAck codec sha256 party.flow party.params frame = .ok accepted →
            FlowOf role own accepted.1 ∧ FrameOf codec sha256 role own accepted.2 := by
        intro accepted haccept
        rw [h.params] at haccept
        obtain ⟨-, -, -, -, hsend⟩ := receiveSessionStartAndAck_eq_ok haccept
        have hlength := encodeAck_length_le hcodec sha256 party.flow.jobId party.flow.localRole
          (jobstreamSessionParams own)
        have hflow :
            FlowOf role own { party.flow with nextRecv := saturatingSucc party.flow.nextRecv } :=
          ⟨h.flow.jobId, h.flow.localRole, h.flow.nextSend⟩
        refine outboundFrame_frameOf hflow ?_ (.inr ⟨rfl, ?_⟩) hsend
        · omega
        · rw [h.flow.localRole]
      obtain ⟨hparty, haccepted⟩ := hcounted.sendThen (HandshakeParty.afterStart party.role) hresult
      refine ⟨hparty, fun hafter => .inr ?_⟩
      obtain ⟨⟨sent, hsent⟩, -⟩ := haccepted hafter
      rw [h.params] at hsent
      exact receiveSessionStartAndAck_descriptor hcodec hown hpeer h.flow hframe hsent
  · rename_i hphase
    have hbefore : role = .bob → Accepted role party.phase := by
      rintro rfl
      exact .inr (.inl hphase)
    have hfail (error : RunnerError) := hcounted.fail error
    obtain rfl := Option.some.inj hstep
    split
    · exact ⟨(hfail _).1, fun hafter => absurd hafter (hfail _).2⟩
    · split
      · exact ⟨(hfail _).1, fun hafter => absurd hafter (hfail _).2⟩
      · rename_i flow hack
        rw [receiveSessionStartAck_eq_ok hack]
        refine ⟨⟨h.localRole, h.params, ⟨h.flow.jobId, h.flow.localRole, h.flow.nextSend⟩, h.sent⟩,
          ?_⟩
        intro hafter
        refine .inl (hbefore ?_)
        cases role with
        | bob => rfl
        | alice =>
          simp [Accepted, HandshakeParty.afterAck, h.localRole] at hafter
  · cases hstep

/-! ## Agreement -/

/-- Both parties ran for their descriptors, and one that accepted the peer's start has its
descriptor. -/
structure Handshake.Agreeing (codec : ProstCodec) (sha256 : List UInt8 → Value32)
    (descriptor : Role → GrpcJobDescriptor) (s : Handshake) : Prop where
  party : ∀ role, PartyOf codec sha256 role (descriptor role) (s.party role)
  agreed : ∀ role, Accepted role (s.party role).phase → descriptor .alice = descriptor .bob

/-- Replacing one party keeps agreement. -/
theorem Handshake.Agreeing.update {descriptor : Role → GrpcJobDescriptor} {s : Handshake}
    (h : s.Agreeing codec sha256 descriptor) {role : Role} {party : HandshakeParty}
    (hparty : PartyOf codec sha256 role (descriptor role) party)
    (hagreed : Accepted role party.phase → descriptor .alice = descriptor .bob) :
    (s.update role party).Agreeing codec sha256 descriptor := by
  constructor
  · intro other
    by_cases hother : other = role
    · subst hother
      simpa [Handshake.update] using hparty
    · simpa [Handshake.update, hother] using h.party other
  · intro other hphase
    by_cases hother : other = role
    · subst hother
      exact hagreed (by simpa [Handshake.update] using hphase)
    · exact h.agreed other (by simpa [Handshake.update, hother] using hphase)

/-- Two roles that differ are Alice and Bob. -/
theorem descriptor_alice_eq_bob {descriptor : Role → GrpcJobDescriptor} {role sender : Role}
    (hne : sender ≠ role) (h : descriptor role = descriptor sender) :
    descriptor .alice = descriptor .bob := by
  cases role <;> cases sender
  · exact absurd rfl hne
  · exact h
  · exact h.symm
  · exact absurd rfl hne

/-- A step keeps agreement. -/
theorem Handshake.Agreeing.step (hcodec : codec.Canonical) {descriptor : Role → GrpcJobDescriptor}
    (hfits : ∀ role, (descriptor role).Fits) (s : Handshake) (label : HandshakeLabel)
    (t : Handshake) (h : s.Agreeing codec sha256 descriptor)
    (hstep : Handshake.step codec sha256 s label = some t) :
    t.Agreeing codec sha256 descriptor := by
  cases label with
  | send role =>
    obtain ⟨party, hparty, rfl⟩ := Option.map_eq_some_iff.mp hstep
    obtain ⟨hkept, haccepted⟩ := (h.party role).sendStart hcodec hparty
    exact h.update hkept fun hphase => h.agreed role (haccepted hphase)
  | deliver role sender k =>
    obtain ⟨bytes, hbytes, hstep⟩ := Option.bind_eq_some_iff.mp hstep
    obtain ⟨party, hparty, rfl⟩ := Option.map_eq_some_iff.mp hstep
    obtain ⟨frame, hframe, rfl⟩ := (h.party sender).sent bytes (List.mem_of_getElem? hbytes)
    obtain ⟨hkept, haccepted⟩ :=
      (h.party role).receive hcodec (hfits role) (hfits sender) hframe hparty
    refine h.update hkept fun hphase => ?_
    rcases haccepted hphase with hbefore | ⟨hne, hsame⟩
    · exact h.agreed role hbefore
    · exact descriptor_alice_eq_bob hne hsame
  | disconnect role =>
    obtain ⟨-, hparty⟩ := Option.ite_none_left_eq_some.mp hstep
    obtain rfl := Option.some.inj hparty
    obtain ⟨hkept, hrefused⟩ := (h.party role).fail .transportClosed
    exact h.update hkept fun hphase => absurd hphase hrefused

/-- The parties start with their descriptors. -/
theorem Handshake.Agreeing.new (descriptor : Role → GrpcJobDescriptor) :
    (Handshake.new (descriptor .alice) (descriptor .bob)).Agreeing codec sha256 descriptor := by
  constructor
  · rintro (_ | _)
    · exact ⟨rfl, rfl, ⟨rfl, rfl, by simp [Handshake.new, HandshakeParty.new, ChannelFlow.new]⟩,
        by simp [Handshake.new, HandshakeParty.new]⟩
    · exact ⟨rfl, rfl, ⟨rfl, rfl, by simp [Handshake.new, HandshakeParty.new, ChannelFlow.new]⟩,
        by simp [Handshake.new, HandshakeParty.new]⟩
  · rintro (_ | _) hphase <;> simp [Accepted, Handshake.new, HandshakeParty.new] at hphase

/-- When one party finished, the descriptors are equal. -/
theorem Handshake.eq_of_finished (hcodec : codec.Canonical) {alice bob : GrpcJobDescriptor}
    (halice : alice.Fits) (hbob : bob.Fits) {labels : List HandshakeLabel} {t : Handshake}
    (hrun : run (Handshake.step codec sha256) (.new alice bob) labels = some t) {role : Role}
    (hfinished : (t.party role).phase = .finished) : alice = bob := by
  have hfits : ∀ role, (Role.rec alice bob role : GrpcJobDescriptor).Fits := by
    rintro (_ | _)
    · exact halice
    · exact hbob
  have hagreeing : t.Agreeing codec sha256 _ :=
    Runs.invariant_of_step (Handshake.Agreeing.step hcodec hfits) (Handshake.Agreeing.new _) hrun
  refine hagreeing.agreed role ?_
  rw [hfinished]
  cases role <;> simp [Accepted]

/-! ## Completion -/

/-- A frame of the main channel for a descriptor. -/
def handshakeFrame (descriptor : GrpcJobDescriptor) (role : Role) (sequence : ℕ)
    (kind : MessageKind) (payload : List UInt8) : MpcFrame :=
  ⟨utf8Bytes descriptor.jobId, role, .main, sequence, kind, payload, 0⟩

/-- The start a party sends. -/
def startFrame (codec : ProstCodec) (descriptor : GrpcJobDescriptor) (role : Role) (sequence : ℕ) :
    MpcFrame :=
  handshakeFrame descriptor role sequence .sessionStart
    (codec.encodeStart (jobstreamSessionParams descriptor))

/-- The ack a party sends. -/
def ackFrame (codec : ProstCodec) (sha256 : List UInt8 → Value32) (descriptor : GrpcJobDescriptor)
    (role : Role) (sequence : ℕ) : MpcFrame :=
  handshakeFrame descriptor role sequence .sessionStartAck (codec.encodeAck
    (sessionStartAck sha256 (utf8Bytes descriptor.jobId) role (jobstreamSessionParams descriptor)))

/-- The bytes of a frame. -/
def frameBytes (codec : ProstCodec) (frame : MpcFrame) : List UInt8 :=
  codec.encodeFrame frame.toProto

/-- A party which sent some frames and received some. -/
def partyAt (codec : ProstCodec) (descriptor : GrpcJobDescriptor) (role : Role)
    (sent : List MpcFrame) (received : ℕ) (phase : HandshakePhase) : HandshakeParty where
  role := role
  flow := ⟨utf8Bytes descriptor.jobId, role, .main, sent.length, received, false⟩
  params := jobstreamSessionParams descriptor
  phase := phase
  sent := sent.map (frameBytes codec)
  taken := received

/-- A frame of a descriptor whose job id is valid is valid. -/
theorem handshakeFrame_valid {descriptor : GrpcJobDescriptor}
    (hjobId : validateJobId (utf8Bytes descriptor.jobId) = .ok ()) (role : Role) {sequence : ℕ}
    (hsequence : sequence < 2 ^ 64) {kind : MessageKind}
    (hkind : kind = .sessionStart ∨ kind = .sessionStartAck) {payload : List UInt8}
    (hpayload : payload.length ≤ 200) :
    HandshakeFrame (handshakeFrame descriptor role sequence kind payload) where
  kind := hkind
  jobId := hjobId
  flags := rfl
  sequence := hsequence
  payload := by
    simp only [handshakeFrame]
    omega

/-- A valid frame with a short payload is below the limit. -/
theorem HandshakeFrame.frameBytes_length_le (hcodec : codec.Canonical) {frame : MpcFrame}
    (h : HandshakeFrame frame) (hpayload : frame.payload.length ≤ 200) :
    (frameBytes codec frame).length ≤ defaultMaxFrameBytes := by
  have hlength := hcodec.frameLength frame.toProto
  have hjobId := length_le_of_validateJobId h.jobId
  simp only [frameBytes, MpcFrame.toProto, maxJobIdBytes, defaultMaxFrameBytes] at *
  omega

/-- A valid frame with a short payload is sent. -/
theorem HandshakeFrame.sendFrame_eq (hcodec : codec.Canonical) {frame : MpcFrame}
    (h : HandshakeFrame frame) (hpayload : frame.payload.length ≤ 200) :
    sendFrame codec frame = .ok (frameBytes codec frame) := by
  have hencode : frame.encode codec = .ok (frameBytes codec frame) := by
    simp [MpcFrame.encode, h.validate, frameBytes, bind, Except.bind, pure, Except.pure]
  rw [sendFrame, hencode]
  exact if_neg (not_lt.mpr (h.frameBytes_length_le hcodec hpayload))

/-- A valid frame with a short payload is received as it was sent. -/
theorem HandshakeFrame.recvFrame_eq (hcodec : codec.Canonical) {frame : MpcFrame}
    (h : HandshakeFrame frame) (hpayload : frame.payload.length ≤ 200) :
    recvFrame codec (frameBytes codec frame) = .ok frame := by
  rw [recvFrame, if_neg (not_lt.mpr (h.frameBytes_length_le hcodec hpayload)), frameBytes,
    h.decode hcodec]
  rfl

section Stages

variable {descriptor : GrpcJobDescriptor} {role : Role} {sent : List MpcFrame} {received : ℕ}
  {phase : HandshakePhase}

/-- A flow sends the frame of its descriptor. -/
theorem outboundFrame_eq (hjobId : validateJobId (utf8Bytes descriptor.jobId) = .ok ())
    {sequence : ℕ} (hsequence : sequence < 2 ^ 63) {kind : MessageKind}
    (hkind : kind = .sessionStart ∨ kind = .sessionStartAck) {payload : List UInt8}
    (hpayload : payload.length ≤ 200) :
    ChannelFlow.outboundFrame
      ⟨utf8Bytes descriptor.jobId, role, .main, sequence, received, false⟩ kind
        payload =
      .ok (⟨utf8Bytes descriptor.jobId, role, .main, sequence + 1, received, false⟩,
        handshakeFrame descriptor role sequence kind payload) := by
  have hvalid := handshakeFrame_valid hjobId role (show sequence < 2 ^ 64 by omega) hkind hpayload
  have hnew : MpcFrame.new (utf8Bytes descriptor.jobId) role .main sequence kind payload =
      .ok (handshakeFrame descriptor role sequence kind payload) := by
    have hframe := hvalid.validate
    unfold handshakeFrame at hframe ⊢
    rcases hkind with rfl | rfl <;>
      simp [MpcFrame.new, hframe, bind, Except.bind, pure, Except.pure]
  have hsucc : saturatingSucc sequence = sequence + 1 := by
    unfold saturatingSucc
    omega
  simp [ChannelFlow.outboundFrame, ChannelFlow.acceptOutbound, hnew, Except.mapError,
    bind, Except.bind, handshakeFrame, hsucc]

/-- A party sends a frame of its descriptor. -/
theorem partyAt_sendThen (role : Role) (received : ℕ) (hcodec : codec.Canonical)
    (hjobId : validateJobId (utf8Bytes descriptor.jobId) = .ok ()) (hsent : sent.length < 2 ^ 63)
    {kind : MessageKind} (hkind : kind = .sessionStart ∨ kind = .sessionStartAck)
    {payload : List UInt8} (hpayload : payload.length ≤ 200) (party : HandshakeParty)
    (next : HandshakePhase)
    (hparty : partyAt codec descriptor role sent received next =
      { party with flow := ⟨utf8Bytes descriptor.jobId, role, .main, sent.length, received, false⟩,
                   phase := next }) :
    party.sendThen codec next (ChannelFlow.outboundFrame
        ⟨utf8Bytes descriptor.jobId, role, .main, sent.length, received, false⟩ kind payload) =
      partyAt codec descriptor role
        (sent ++ [handshakeFrame descriptor role sent.length kind payload])
        received next := by
  have hvalid :=
    handshakeFrame_valid hjobId role (show sent.length < 2 ^ 64 by omega) hkind hpayload
  obtain ⟨partyRole, flow, params, before, log, taken⟩ := party
  obtain ⟨rfl, -, rfl, -, rfl, rfl⟩ := HandshakeParty.mk.inj hparty
  simp [HandshakeParty.sendThen, outboundFrame_eq hjobId hsent hkind hpayload,
    hvalid.sendFrame_eq hcodec hpayload, partyAt]

/-- A party whose turn it is sends its start. -/
theorem partyAt_sendStart (hcodec : codec.Canonical)
    (hjobId : validateJobId (utf8Bytes descriptor.jobId) = .ok ()) (hsent : sent.length < 2 ^ 63) :
    (partyAt codec descriptor role sent received .sendStart).sendStart codec =
      some (partyAt codec descriptor role (sent ++ [startFrame codec descriptor role sent.length])
        received .awaitAck) := by
  have hlength := encodeStart_length_le hcodec descriptor
  exact congrArg
    some (partyAt_sendThen role received hcodec hjobId hsent (.inl rfl) hlength _ _ rfl)

/-- A party which waits for the peer's start acknowledges it. -/
theorem partyAt_receive_start (hcodec : codec.Canonical) (hfits : descriptor.Fits)
    (hjobId : validateJobId (utf8Bytes descriptor.jobId) = .ok ()) (hsent : sent.length < 2 ^ 63)
    (hreceived : received < 2 ^ 63) :
    (partyAt codec descriptor role sent received .awaitStart).receive codec sha256
        (frameBytes codec (startFrame codec descriptor (oppositeRole role) received)) =
      some (partyAt codec descriptor role
        (sent ++ [ackFrame codec sha256 descriptor role sent.length])
        (received + 1) (HandshakeParty.afterStart role)) := by
  have hlength := encodeStart_length_le hcodec descriptor
  have hack := encodeAck_length_le hcodec sha256 (utf8Bytes descriptor.jobId) role
    (jobstreamSessionParams descriptor)
  have hvalid := handshakeFrame_valid hjobId (oppositeRole role) (show received < 2 ^ 64 by omega)
    (.inl rfl) hlength
  have hstart := SessionStart.decode_encode hcodec (jobstreamSessionParams_fits hfits)
  have hrole : oppositeRole role ≠ role := by cases role <;> decide
  have hsucc : saturatingSucc received = received + 1 := by
    unfold saturatingSucc
    omega
  have haccept : receiveSessionStartAndAck codec sha256
      ⟨utf8Bytes descriptor.jobId, role, .main, sent.length, received, false⟩
      (jobstreamSessionParams descriptor)
        (startFrame codec descriptor (oppositeRole role) received) =
      ChannelFlow.outboundFrame
        ⟨utf8Bytes descriptor.jobId, role, .main, sent.length, received + 1, false⟩
        .sessionStartAck (codec.encodeAck (sessionStartAck sha256 (utf8Bytes descriptor.jobId) role
          (jobstreamSessionParams descriptor))) := by
    simp [receiveSessionStartAndAck, ChannelFlow.requireMain, ChannelFlow.acceptInbound, startFrame,
      handshakeFrame, hrole, ChannelFlow.requireKind, hstart, Except.mapError, compareSessionParams,
      hsucc, bind, Except.bind]
  have hsend := partyAt_sendThen role (received + 1) hcodec hjobId hsent (.inr rfl)
    (hack.trans (by omega))
    { partyAt codec descriptor role sent received .awaitStart with taken := received + 1 }
    (HandshakeParty.afterStart role) rfl
  rw [← haccept] at hsend
  rw [ackFrame, ← hsend]
  unfold HandshakeParty.receive
  simp only [partyAt, startFrame, hvalid.recvFrame_eq hcodec hlength]

/-- A party which waits for the peer's ack accepts it. -/
theorem partyAt_receive_ack (hcodec : codec.Canonical)
    (hjobId : validateJobId (utf8Bytes descriptor.jobId) = .ok ()) (hreceived : received < 2 ^ 63) :
    (partyAt codec descriptor role sent received .awaitAck).receive codec sha256
        (frameBytes codec (ackFrame codec sha256 descriptor (oppositeRole role) received)) =
      some (partyAt codec descriptor role sent (received + 1) (HandshakeParty.afterAck role)) := by
  have hlength := encodeAck_length_le hcodec sha256 (utf8Bytes descriptor.jobId) (oppositeRole role)
    (jobstreamSessionParams descriptor)
  have hvalid := handshakeFrame_valid hjobId (oppositeRole role) (show received < 2 ^ 64 by omega)
    (.inr rfl) (hlength.trans (by omega))
  have hack : ∀ jobId sender params, SessionStartAck.decode codec
      (codec.encodeAck (sessionStartAck sha256 jobId sender params)) =
        .ok (sessionStartAck sha256 jobId sender params) := fun _ _ _ =>
    SessionStartAck.decode_encode hcodec (by simp [sessionStartAck])
  have hrole : oppositeRole role ≠ role := by cases role <;> decide
  have hsucc : saturatingSucc received = received + 1 := by
    unfold saturatingSucc
    omega
  have haccept : receiveSessionStartAck codec sha256
      ⟨utf8Bytes descriptor.jobId, role, .main, sent.length, received, false⟩
      (jobstreamSessionParams descriptor)
      (ackFrame codec sha256 descriptor (oppositeRole role) received) =
      .ok ⟨utf8Bytes descriptor.jobId, role, .main, sent.length, received + 1, false⟩ := by
    simp [receiveSessionStartAck, ChannelFlow.requireMain, ChannelFlow.acceptInbound, ackFrame,
      handshakeFrame, hrole, ChannelFlow.requireKind, hack, Except.mapError, hsucc,
      bind, Except.bind]
  unfold HandshakeParty.receive
  simp only [partyAt, ackFrame, hvalid.recvFrame_eq hcodec (hlength.trans (by omega))] at haccept ⊢
  rw [haccept]

end Stages

/-- Alice's parties, by the number of steps she took. -/
def aliceStage (codec : ProstCodec) (sha256 : List UInt8 → Value32)
    (descriptor : GrpcJobDescriptor) :
    ℕ → HandshakeParty
  | 0 => partyAt codec descriptor .alice [] 0 .sendStart
  | 1 => partyAt codec descriptor .alice [startFrame codec descriptor .alice 0] 0 .awaitAck
  | 2 => partyAt codec descriptor .alice [startFrame codec descriptor .alice 0] 1 .awaitStart
  | _ => partyAt codec descriptor .alice [startFrame codec descriptor .alice 0,
      ackFrame codec sha256 descriptor .alice 1] 2 .finished

/-- Bob's parties, by the number of steps he took. -/
def bobStage (codec : ProstCodec) (sha256 : List UInt8 → Value32) (descriptor : GrpcJobDescriptor) :
    ℕ → HandshakeParty
  | 0 => partyAt codec descriptor .bob [] 0 .awaitStart
  | 1 => partyAt codec descriptor .bob [ackFrame codec sha256 descriptor .bob 0] 1 .sendStart
  | 2 => partyAt codec descriptor .bob [ackFrame codec sha256 descriptor .bob 0,
      startFrame codec descriptor .bob 1] 1 .awaitAck
  | _ => partyAt codec descriptor .bob [ackFrame codec sha256 descriptor .bob 0,
      startFrame codec descriptor .bob 1] 2 .finished

/-- Both parties at their stages. -/
def Handshake.atStage (codec : ProstCodec) (sha256 : List UInt8 → Value32)
    (descriptor : GrpcJobDescriptor) (i j : ℕ) : Handshake where
  party := fun role => match role with
    | .alice => aliceStage codec sha256 descriptor i
    | .bob => bobStage codec sha256 descriptor j

section Steps

variable {descriptor : GrpcJobDescriptor} {i j : ℕ}

/-- Alice's next stage. -/
@[simp] theorem Handshake.update_alice (i' : ℕ) :
    (Handshake.atStage codec sha256 descriptor i j).update .alice
    (aliceStage codec sha256 descriptor i') =
      Handshake.atStage codec sha256 descriptor i' j := by
  refine congrArg Handshake.mk (funext ?_)
  rintro (_ | _) <;> simp [Handshake.atStage]

/-- Bob's next stage. -/
@[simp] theorem Handshake.update_bob (j' : ℕ) :
    (Handshake.atStage codec sha256 descriptor i j).update .bob
    (bobStage codec sha256 descriptor j') =
      Handshake.atStage codec sha256 descriptor i j' := by
  refine congrArg Handshake.mk (funext ?_)
  rintro (_ | _) <;> simp [Handshake.atStage]

/-- Alice sends her start first. -/
theorem step_send_alice (hcodec : codec.Canonical)
    (hjobId : validateJobId (utf8Bytes descriptor.jobId) = .ok ()) (hi : i ≤ 3) :
    Handshake.step codec sha256 (.atStage codec sha256 descriptor i j) (.send .alice) =
      if i = 0 then some (.atStage codec sha256 descriptor 1 j) else none := by
  have hsend : (aliceStage codec sha256 descriptor i).sendStart codec =
      if i = 0 then some (aliceStage codec sha256 descriptor 1) else none := by
    interval_cases i
    · exact partyAt_sendStart hcodec hjobId (by simp)
    all_goals rfl
  rw [Handshake.step, show ((Handshake.atStage codec sha256 descriptor i j).party .alice) =
    aliceStage codec sha256 descriptor i from rfl, hsend]
  split <;> simp

/-- Bob sends his start once he acknowledged Alice's. -/
theorem step_send_bob (hcodec : codec.Canonical)
    (hjobId : validateJobId (utf8Bytes descriptor.jobId) = .ok ()) (hj : j ≤ 3) :
    Handshake.step codec sha256 (.atStage codec sha256 descriptor i j) (.send .bob) =
      if j = 1 then some (.atStage codec sha256 descriptor i 2) else none := by
  have hsend : (bobStage codec sha256 descriptor j).sendStart codec =
      if j = 1 then some (bobStage codec sha256 descriptor 2) else none := by
    interval_cases j
    · rfl
    · exact partyAt_sendStart hcodec hjobId (by simp)
    all_goals rfl
  rw [Handshake.step, show ((Handshake.atStage codec sha256 descriptor i j).party .bob) =
    bobStage codec sha256 descriptor j from rfl, hsend]
  split <;> simp

/-- What Alice has sent at a stage. -/
theorem aliceStage_sent (hi : i ≤ 3) :
    (aliceStage codec sha256 descriptor i).sent =
      if i = 0 then [] else if i ≤ 2 then [frameBytes codec (startFrame codec descriptor .alice 0)]
      else [frameBytes codec (startFrame codec descriptor .alice 0),
        frameBytes codec (ackFrame codec sha256 descriptor .alice 1)] := by
  interval_cases i <;> rfl

/-- What Bob has sent at a stage. -/
theorem bobStage_sent (hj : j ≤ 3) :
    (bobStage codec sha256 descriptor j).sent =
      if j = 0 then [] else if j = 1 then
        [frameBytes codec (ackFrame codec sha256 descriptor .bob 0)]
      else [frameBytes codec (ackFrame codec sha256 descriptor .bob 0),
        frameBytes codec (startFrame codec descriptor .bob 1)] := by
  interval_cases j <;> rfl

/-- Alice receives Bob's ack, then his start. -/
theorem step_deliver_alice (hcodec : codec.Canonical) (hfits : descriptor.Fits)
    (hjobId : validateJobId (utf8Bytes descriptor.jobId) = .ok ()) (hi : i ≤ 3) (hj : j ≤ 3) :
    Handshake.step codec sha256 (.atStage codec sha256 descriptor i j)
        (.deliver .alice .bob (aliceStage codec sha256 descriptor i).taken) =
      if (i = 1 ∧ 1 ≤ j) ∨ (i = 2 ∧ 2 ≤ j) then some (.atStage codec sha256 descriptor (i + 1) j)
      else none := by
  have hack : (aliceStage codec sha256 descriptor 1).receive codec sha256
      (frameBytes codec (ackFrame codec sha256 descriptor .bob 0)) =
        some (aliceStage codec sha256 descriptor 2) :=
    partyAt_receive_ack hcodec hjobId (by simp)
  have hstart : (aliceStage codec sha256 descriptor 2).receive codec sha256
      (frameBytes codec (startFrame codec descriptor .bob 1)) =
        some (aliceStage codec sha256 descriptor 3) :=
    partyAt_receive_start hcodec hfits hjobId (by simp) (by simp)
  have hfirst (bytes : List UInt8) :
      (aliceStage codec sha256 descriptor 0).receive codec sha256 bytes = none := rfl
  have hlast (bytes : List UInt8) :
      (aliceStage codec sha256 descriptor 3).receive codec sha256 bytes = none := rfl
  change ((bobStage codec sha256 descriptor
    j).sent[(aliceStage codec sha256 descriptor i).taken]?.bind
    fun bytes => ((aliceStage codec sha256 descriptor i).receive codec sha256 bytes).map
      ((Handshake.atStage codec sha256 descriptor i j).update .alice)) = _
  rw [bobStage_sent hj]
  interval_cases i
  · simp [hfirst]
  · rw [show (aliceStage codec sha256 descriptor 1).taken = 0 from rfl]
    interval_cases j <;> simp [hack]
  · rw [show (aliceStage codec sha256 descriptor 2).taken = 1 from rfl]
    interval_cases j <;> simp [hstart]
  · simp [hlast]

/-- Bob receives Alice's start, then her ack. -/
theorem step_deliver_bob (hcodec : codec.Canonical) (hfits : descriptor.Fits)
    (hjobId : validateJobId (utf8Bytes descriptor.jobId) = .ok ()) (hi : i ≤ 3) (hj : j ≤ 3) :
    Handshake.step codec sha256 (.atStage codec sha256 descriptor i j)
        (.deliver .bob .alice (bobStage codec sha256 descriptor j).taken) =
      if (j = 0 ∧ 1 ≤ i) ∨ (j = 2 ∧ i = 3) then some (.atStage codec sha256 descriptor i (j + 1))
      else none := by
  have hstart : (bobStage codec sha256 descriptor 0).receive codec sha256
      (frameBytes codec (startFrame codec descriptor .alice 0)) =
        some (bobStage codec sha256 descriptor 1) :=
    partyAt_receive_start hcodec hfits hjobId (by simp) (by simp)
  have hack : (bobStage codec sha256 descriptor 2).receive codec sha256
      (frameBytes codec (ackFrame codec sha256 descriptor .alice 1)) =
        some (bobStage codec sha256 descriptor 3) :=
    partyAt_receive_ack hcodec hjobId (by simp)
  have hsending (bytes : List UInt8) :
      (bobStage codec sha256 descriptor 1).receive codec sha256 bytes = none := rfl
  have hlast (bytes : List UInt8) :
      (bobStage codec sha256 descriptor 3).receive codec sha256 bytes = none := rfl
  change ((aliceStage codec sha256 descriptor
    i).sent[(bobStage codec sha256 descriptor j).taken]?.bind
    fun bytes => ((bobStage codec sha256 descriptor j).receive codec sha256 bytes).map
      ((Handshake.atStage codec sha256 descriptor i j).update .bob)) = _
  rw [aliceStage_sent hi]
  interval_cases j
  · rw [show (bobStage codec sha256 descriptor 0).taken = 0 from rfl]
    interval_cases i <;> simp [hstart]
  · simp [hsending]
  · rw [show (bobStage codec sha256 descriptor 2).taken = 1 from rfl]
    interval_cases i <;> simp [hack]
  · simp [hlast]

/-- When nothing is lost, a step takes one of the parties to its next stage. -/
theorem step_atStage (hcodec : codec.Canonical) (hfits : descriptor.Fits)
    (hjobId : validateJobId (utf8Bytes descriptor.jobId) = .ok ()) (hi : i ≤ 3) (hj : j ≤ 3)
    {label : HandshakeLabel} {t : Handshake}
    (horder : (Handshake.atStage codec sha256 descriptor i j).InOrder label)
    (hstep : Handshake.step codec sha256 (.atStage codec sha256 descriptor i j) label = some t) :
    ∃ i' j', i' ≤ 3 ∧ j' ≤ 3 ∧ i' + j' = i + j + 1 ∧ t =
      .atStage codec sha256 descriptor i' j' := by
  cases label with
  | send role =>
    cases role with
    | alice =>
      rw [step_send_alice hcodec hjobId hi, guard_eq_some] at hstep
      obtain ⟨rfl, rfl⟩ := hstep
      exact ⟨1, j, by omega, hj, by omega, rfl⟩
    | bob =>
      rw [step_send_bob hcodec hjobId hj, guard_eq_some] at hstep
      obtain ⟨rfl, rfl⟩ := hstep
      exact ⟨i, 2, hi, by omega, by omega, rfl⟩
  | deliver role sender k =>
    obtain ⟨rfl, rfl⟩ := horder
    cases role with
    | alice =>
      obtain ⟨henabled, rfl⟩ :=
        guard_eq_some.mp ((step_deliver_alice hcodec hfits hjobId hi hj).symm.trans hstep)
      exact ⟨i + 1, j, by omega, hj, by omega, rfl⟩
    | bob =>
      obtain ⟨henabled, rfl⟩ :=
        guard_eq_some.mp ((step_deliver_bob hcodec hfits hjobId hi hj).symm.trans hstep)
      exact ⟨i, j + 1, hi, by omega, by omega, rfl⟩
  | disconnect role => exact absurd horder id

/-- When nothing is lost, a run takes the parties as many stages further as it has steps. -/
theorem run_atStage (hcodec : codec.Canonical) (hfits : descriptor.Fits)
    (hjobId : validateJobId (utf8Bytes descriptor.jobId) = .ok ()) {labels : List HandshakeLabel}
    {t : Handshake} (hi : i ≤ 3) (hj : j ≤ 3)
    (horder : Along (Handshake.step codec sha256) Handshake.InOrder
      (.atStage codec sha256 descriptor i j) labels)
    (hrun : run (Handshake.step codec sha256) (.atStage codec sha256 descriptor i j)
      labels = some t) :
    ∃ i' j', i' ≤ 3 ∧ j' ≤ 3 ∧ i' + j' = i + j + labels.length ∧
      t = .atStage codec sha256 descriptor i' j' := by
  induction labels generalizing i j with
  | nil => exact ⟨i, j, hi, hj, rfl, (Option.some.inj hrun).symm⟩
  | cons label rest ih =>
    obtain ⟨mid, hmid, hrest⟩ := run_cons.mp hrun
    obtain ⟨i₁, j₁, hi₁, hj₁, hsum, rfl⟩ := step_atStage hcodec hfits hjobId hi hj horder.1 hmid
    obtain ⟨i', j', hi', hj', hsum', rfl⟩ := ih hi₁ hj₁ (horder.2 _ hmid) hrest
    refine ⟨i', j', hi', hj', ?_, rfl⟩
    rw [List.length_cons]
    omega

/-- Parties at their stages for whom nothing is left to do have finished. -/
theorem finished_atStage (hcodec : codec.Canonical) (hfits : descriptor.Fits)
    (hjobId : validateJobId (utf8Bytes descriptor.jobId) = .ok ()) (hi : i ≤ 3) (hj : j ≤ 3)
    (hquiet : ∀ label, (Handshake.atStage codec sha256 descriptor i j).InOrder label →
      Handshake.step codec sha256 (.atStage codec sha256 descriptor i j) label = none) :
    i = 3 ∧ j = 3 := by
  have hsendAlice := hquiet (.send .alice) trivial
  have hsendBob := hquiet (.send .bob) trivial
  have halice :=
    hquiet (.deliver .alice .bob (aliceStage codec sha256 descriptor i).taken) ⟨rfl, rfl⟩
  have hbob := hquiet (.deliver .bob .alice (bobStage codec sha256 descriptor j).taken) ⟨rfl, rfl⟩
  rw [step_send_alice hcodec hjobId hi, ite_eq_right_iff] at hsendAlice
  rw [step_send_bob hcodec hjobId hj, ite_eq_right_iff] at hsendBob
  rw [step_deliver_alice hcodec hfits hjobId hi hj, ite_eq_right_iff] at halice
  rw [step_deliver_bob hcodec hfits hjobId hi hj, ite_eq_right_iff] at hbob
  simp only [reduceCtorEq, imp_false] at hsendAlice hsendBob halice hbob
  omega

end Steps

/-- Both parties return only when they were given the same descriptor. When they were, with a job id
of 1 to 64 bytes, and nothing is lost, the run has at most six steps, and once none is left to take
both have returned. -/
theorem handshake_agreement (codec : ProstCodec) (sha256 : List UInt8 → Value32)
    (hcodec : codec.Canonical) {alice bob : GrpcJobDescriptor} (halice : alice.Fits)
    (hbob : bob.Fits) {labels : List HandshakeLabel} {t : Handshake}
    (hrun : run (Handshake.step codec sha256) (.new alice bob) labels = some t) :
    ((∀ role, (t.party role).phase = .finished) → alice = bob) ∧
      (alice = bob → 1 ≤ (utf8Bytes alice.jobId).length → (utf8Bytes alice.jobId).length ≤ 64 →
        Along (Handshake.step codec sha256) Handshake.InOrder (.new alice bob) labels →
        labels.length ≤ 6 ∧
          ((∀ label, t.InOrder label → Handshake.step codec sha256 t label = none) →
            ∀ role, (t.party role).phase = .finished)) := by
  refine ⟨fun hfinished => Handshake.eq_of_finished hcodec halice hbob hrun (hfinished .alice), ?_⟩
  rintro rfl hnonempty hlength horder
  have hjobId : validateJobId (utf8Bytes alice.jobId) = .ok () := by
    rw [validateJobId, if_neg (List.length_pos_iff.mp hnonempty), if_neg]
    exact not_lt.mpr hlength
  have hnew : Handshake.new alice alice = .atStage codec sha256 alice 0 0 := by
    refine congrArg Handshake.mk (funext ?_)
    rintro (_ | _) <;> rfl
  rw [hnew] at hrun horder
  obtain ⟨i, j, hi, hj, hsum, rfl⟩ :=
    run_atStage hcodec halice hjobId (Nat.zero_le 3) (Nat.zero_le 3) horder hrun
  refine ⟨by omega, fun hquiet => ?_⟩
  obtain ⟨rfl, rfl⟩ := finished_atStage hcodec halice hjobId hi hj hquiet
  rintro (_ | _) <;> rfl

/-- A descriptor of a job. -/
def handshakeDescriptor : GrpcJobDescriptor where
  jobId := "job-7"
  channelIndex := 7
  targetIndex := 281474976710655
  ssp := 40
  sspTarget := 40
  deltaLifetimeCheckedUnitsCap := 1000
  digest := Value32.ofList [1, 2, 3]

/-- The six steps of a handshake which loses nothing. -/
def handshakeLabels : List HandshakeLabel :=
  [.send .alice, .deliver .bob .alice 0, .send .bob, .deliver .alice .bob 0, .deliver .alice .bob 1,
    .deliver .bob .alice 1]

/-- Parties which returned do nothing more. -/
theorem Handshake.step_finished {s : Handshake} (h : ∀ role, (s.party role).phase = .finished)
    (label : HandshakeLabel) : Handshake.step codec sha256 s label = none := by
  cases label with
  | send role => simp [Handshake.step, HandshakeParty.sendStart, h role]
  | deliver role sender k => simp [Handshake.step, HandshakeParty.receive, h role]
  | disconnect role => simp [Handshake.step, h role]

/-- Whether nothing is lost is decided label by label. -/
instance Handshake.InOrder.decidable (s : Handshake) : ∀ label, Decidable (s.InOrder label)
  | .send _ => isTrue trivial
  | .deliver role sender k =>
    inferInstanceAs (Decidable (sender = oppositeRole role ∧ k = (s.party role).taken))
  | .disconnect _ => isFalse id

/-- Two daemons with one descriptor which exchange all their frames return. -/
theorem handshake_agreement_complete :
    ∃ t, run (Handshake.step protobufCodec Value32.ofList)
      (.new handshakeDescriptor handshakeDescriptor)
        handshakeLabels = some t ∧ ∀ role, (t.party role).phase = .finished := by
  have hfits : handshakeDescriptor.Fits := by constructor <;> decide
  have hrun : (run (Handshake.step protobufCodec Value32.ofList)
      (.new handshakeDescriptor handshakeDescriptor) handshakeLabels).any (fun t =>
        (t.party .alice).phase = .finished && (t.party .bob).phase = .finished) = true := by
    decide +kernel
  have horder : Along (Handshake.step protobufCodec Value32.ofList) Handshake.InOrder
      (.new handshakeDescriptor handshakeDescriptor) handshakeLabels := by
    decide +kernel
  obtain ⟨t, ht, hphases⟩ := (Option.any_eq_true _ _).mp hrun
  have hfinished : ∀ role, (t.party role).phase = .finished := by
    rintro (_ | _) <;> simp_all
  have hagreement :=
    handshake_agreement protobufCodec Value32.ofList protobufCodec_canonical hfits hfits ht
  have hquiet : ∀ label, t.InOrder label →
      Handshake.step protobufCodec Value32.ofList t label = none := fun label _ =>
    Handshake.step_finished hfinished label
  exact ⟨t, ht, (hagreement.2 (hagreement.1 hfinished) (by decide) (by decide) horder).2 hquiet⟩

end Shachain2pc
