import Shachain2pc.Mpc.ChannelFlow
import Shachain2pc.Lib.Rust

/-!
# Runs of a channel flow

A flow is threaded through its operations: each returns the flow to go on with, also when it
fails. What a run accepts is one stream in each direction, numbered from zero. The first
refusal ends both.
-/

namespace Shachain2pc

/-- An operation on a flow. -/
inductive FlowOp where
  | outboundFrame (kind : MessageKind) (payload : List UInt8)
  | acceptOutbound (frame : MpcFrame)
  | acceptInbound (frame : MpcFrame)
  | sendSessionStart (params : SessionParams)
  | receiveSessionStartAndAck (expected : SessionParams) (frame : MpcFrame)
  | receiveSessionStartAck (expected : SessionParams) (frame : MpcFrame)

/-- The flow to go on with. -/
def StepResult.flow {A : Type} : StepResult (ChannelFlow × A) → ChannelFlow
  | .ok result => result.1
  | .error error => error.state

/-- The frame which is returned, when there is one. -/
def StepResult.frames (result : StepResult (ChannelFlow × MpcFrame)) : List MpcFrame :=
  match result with
  | .ok accepted => [accepted.2]
  | .error _ => []

/-- The frame of a handshake message, before what it says is checked. -/
def ChannelFlow.receive (flow : ChannelFlow) (frame : MpcFrame) :
    StepResult (ChannelFlow × MpcFrame) :=
  flow.requireMain >>= fun flow => flow.acceptInbound frame

/-- What a session start says is checked. -/
def checkStart (codec : ProstCodec) (expected : SessionParams) (accepted : ChannelFlow × MpcFrame) :
    StepResult ChannelFlow := do
  let flow ← accepted.1.requireKind accepted.2 .sessionStart
  let start ← (SessionStart.decode codec accepted.2.payload).mapError fun error =>
    StepError.mk flow.abort (.frame error.message)
  compareSessionParams flow expected start

/-- What an ack says is checked. -/
def checkAck (codec : ProstCodec) (sha256 : List UInt8 → Value32) (expected : SessionParams)
    (accepted : ChannelFlow × MpcFrame) : StepResult ChannelFlow := do
  let flow ← accepted.1.requireKind accepted.2 .sessionStartAck
  let ack ← (SessionStartAck.decode codec accepted.2.payload).mapError fun error =>
    StepError.mk flow.abort (.frame error.message)
  if ack ≠ sessionStartAck sha256 flow.jobId accepted.2.senderRole expected then
    flow.abortingError .sessionAckMismatch
  else .ok flow

/-- `receive_session_start_and_ack`, up to the ack. -/
def checkSessionStart (codec : ProstCodec) (flow : ChannelFlow) (expected : SessionParams)
    (frame : MpcFrame) : StepResult ChannelFlow :=
  flow.receive frame >>= checkStart codec expected

namespace FlowOp

variable (codec : ProstCodec) (sha256 : List UInt8 → Value32)

/-- Perform an operation; some return a frame. -/
def perform (flow : ChannelFlow) : FlowOp → StepResult (ChannelFlow × Option MpcFrame)
  | .outboundFrame kind payload => (flow.outboundFrame kind payload).map fun sent =>
    (sent.1, some sent.2)
  | .acceptOutbound frame => (flow.acceptOutbound frame).map fun sent => (sent.1, some sent.2)
  | .acceptInbound frame => (flow.acceptInbound frame).map fun received =>
    (received.1, some received.2)
  | .sendSessionStart params =>
    (Shachain2pc.sendSessionStart codec flow params).map fun sent => (sent.1, some sent.2)
  | .receiveSessionStartAndAck expected frame =>
    (Shachain2pc.receiveSessionStartAndAck codec sha256 flow expected frame).map fun sent =>
      (sent.1, some sent.2)
  | .receiveSessionStartAck expected frame =>
    (Shachain2pc.receiveSessionStartAck codec sha256 flow expected frame).map fun flow =>
      (flow, none)

/-- The inbound frame which an operation accepts, also when it refuses what the frame says. -/
def inbound (flow : ChannelFlow) : FlowOp → List MpcFrame
  | .acceptInbound frame => StepResult.frames (flow.acceptInbound frame)
  | .receiveSessionStartAndAck _ frame | .receiveSessionStartAck _ frame =>
    StepResult.frames (flow.receive frame)
  | .outboundFrame _ _ | .acceptOutbound _ | .sendSessionStart _ => []

/-- The outbound frame which an operation accepts. -/
def outbound (flow : ChannelFlow) : FlowOp → List MpcFrame
  | .outboundFrame kind payload => StepResult.frames (flow.outboundFrame kind payload)
  | .acceptOutbound frame => StepResult.frames (flow.acceptOutbound frame)
  | .sendSessionStart params => StepResult.frames (Shachain2pc.sendSessionStart codec flow params)
  | .receiveSessionStartAndAck expected frame =>
    StepResult.frames (Shachain2pc.receiveSessionStartAndAck codec sha256 flow expected frame)
  | .acceptInbound _ | .receiveSessionStartAck _ _ => []

/-- An operation refuses its frame or message, or the phase of the flow. A frame of its own which it
cannot construct is not a refusal. -/
def Refuses (flow : ChannelFlow) : FlowOp → Prop
  | .outboundFrame _ _ => flow.aborted = true
  | .acceptOutbound frame => ∃ error, flow.acceptOutbound frame = .error error
  | .acceptInbound frame => ∃ error, flow.acceptInbound frame = .error error
  | .sendSessionStart _ => flow.channel ≠ .main ∨ flow.aborted = true
  | .receiveSessionStartAndAck expected frame =>
    ∃ error, checkSessionStart codec flow expected frame = .error error
  | .receiveSessionStartAck expected frame =>
    ∃ error, Shachain2pc.receiveSessionStartAck codec sha256 flow expected frame = .error error

end FlowOp

/-- A flow, with the frames accepted so far. -/
structure FlowLog where
  flow : ChannelFlow
  inbound : List MpcFrame
  outbound : List MpcFrame

variable (codec : ProstCodec) (sha256 : List UInt8 → Value32)

/-- Perform an operation. -/
def FlowLog.step (log : FlowLog) (op : FlowOp) : FlowLog where
  flow := StepResult.flow (op.perform codec sha256 log.flow)
  inbound := log.inbound ++ op.inbound log.flow
  outbound := log.outbound ++ op.outbound codec sha256 log.flow

/-- Perform operations on a new flow, each on the flow which the one before it returns. -/
def runFlow (jobId : List UInt8) (localRole : Role) (channel : LogicalChannel) (ops : List FlowOp) :
    FlowLog :=
  ops.foldl (FlowLog.step codec sha256) ⟨.new jobId localRole channel, [], []⟩

/-! ## Accepting one frame -/

namespace ChannelFlow

variable {flow : ChannelFlow} {frame : MpcFrame}

/-- The next frame of the peer. -/
structure ExpectsInbound (flow : ChannelFlow) (frame : MpcFrame) : Prop where
  running : flow.aborted = false
  jobId : frame.jobId = flow.jobId
  sender : frame.senderRole = oppositeRole flow.localRole
  channel : frame.channel = flow.channel
  sequence : frame.sequence = flow.nextRecv

/-- The next frame of this party. -/
structure ExpectsOutbound (flow : ChannelFlow) (frame : MpcFrame) : Prop where
  running : flow.aborted = false
  jobId : frame.jobId = flow.jobId
  sender : frame.senderRole = flow.localRole
  channel : frame.channel = flow.channel
  sequence : frame.sequence = flow.nextSend

/-- There are two roles. -/
theorem ne_iff_eq_oppositeRole {first second : Role} :
    first ≠ second ↔ first = oppositeRole second := by
  cases first <;> cases second <;> decide

/-- An aborted flow stays as it is. -/
theorem abort_of_aborted (h : flow.aborted = true) : flow.abort = flow := by
  obtain ⟨jobId, localRole, channel, nextSend, nextRecv, aborted⟩ := flow
  cases h
  rfl

/-- The next frame of the peer is accepted. -/
theorem acceptInbound_of_expects (h : flow.ExpectsInbound frame) :
    flow.acceptInbound frame =
      .ok ({ flow with nextRecv := saturatingSucc flow.nextRecv }, frame) := by
  rw [acceptInbound, if_neg (by simp [h.running]), if_neg (not_not.mpr h.jobId),
    if_neg (ne_iff_eq_oppositeRole.mpr h.sender), if_neg (not_not.mpr h.channel),
    if_neg (not_not.mpr h.sequence)]

/-- Any other inbound frame is refused, and the flow is aborted. -/
theorem acceptInbound_of_not_expects (h : ¬flow.ExpectsInbound frame) :
    ∃ error, flow.acceptInbound frame = .error ⟨flow.abort, error⟩ := by
  unfold acceptInbound
  split
  · next haborted =>
    rw [abort_of_aborted haborted]
    exact ⟨_, rfl⟩
  split
  · exact ⟨_, rfl⟩
  split
  · exact ⟨_, rfl⟩
  split
  · exact ⟨_, rfl⟩
  split
  · exact ⟨_, rfl⟩
  · next haborted hjobId hsender hchannel hsequence =>
    exact absurd
      ⟨Bool.eq_false_iff.mpr haborted, not_not.mp hjobId, ne_iff_eq_oppositeRole.mp hsender,
      not_not.mp hchannel, not_not.mp hsequence⟩ h

/-- The next frame of this party is accepted. -/
theorem acceptOutbound_of_expects (h : flow.ExpectsOutbound frame) :
    flow.acceptOutbound frame =
      .ok ({ flow with nextSend := saturatingSucc flow.nextSend }, frame) := by
  rw [acceptOutbound, if_neg (by simp [h.running]), if_neg (not_not.mpr h.jobId),
    if_neg (not_not.mpr h.sender), if_neg (not_not.mpr h.channel), if_neg (not_not.mpr h.sequence)]

/-- Any other outbound frame is refused, and the flow is aborted. -/
theorem acceptOutbound_of_not_expects (h : ¬flow.ExpectsOutbound frame) :
    ∃ error, flow.acceptOutbound frame = .error ⟨flow.abort, error⟩ := by
  unfold acceptOutbound
  split
  · next haborted =>
    rw [abort_of_aborted haborted]
    exact ⟨_, rfl⟩
  split
  · exact ⟨_, rfl⟩
  split
  · exact ⟨_, rfl⟩
  split
  · exact ⟨_, rfl⟩
  split
  · exact ⟨_, rfl⟩
  · next haborted hjobId hsender hchannel hsequence =>
    exact absurd ⟨Bool.eq_false_iff.mpr haborted, not_not.mp hjobId, not_not.mp hsender,
      not_not.mp hchannel, not_not.mp hsequence⟩ h

/-- The inbound frames which are accepted. -/
theorem acceptInbound_iff : (∃ accepted, flow.acceptInbound frame = .ok accepted) ↔
    flow.aborted = false ∧ frame.jobId = flow.jobId ∧ frame.senderRole =
      oppositeRole flow.localRole ∧
      frame.channel = flow.channel ∧ frame.sequence = flow.nextRecv := by
  constructor
  · rintro ⟨accepted, haccept⟩
    by_cases h : flow.ExpectsInbound frame
    · exact ⟨h.running, h.jobId, h.sender, h.channel, h.sequence⟩
    · obtain ⟨error, heq⟩ := acceptInbound_of_not_expects h
      rw [heq] at haccept
      cases haccept
  · rintro ⟨hrunning, hjobId, hsender, hchannel, hsequence⟩
    exact ⟨_, acceptInbound_of_expects ⟨hrunning, hjobId, hsender, hchannel, hsequence⟩⟩

/-- A refused inbound frame aborts the flow. -/
theorem acceptInbound_eq_error {error : StepError} (h : flow.acceptInbound frame = .error error) :
    error.state = flow.abort := by
  by_cases hexpects : flow.ExpectsInbound frame
  · rw [acceptInbound_of_expects hexpects] at h
    cases h
  · obtain ⟨reason, heq⟩ := acceptInbound_of_not_expects hexpects
    rw [heq] at h
    cases h
    rfl

/-- The outbound frames which are accepted. -/
theorem acceptOutbound_iff : (∃ accepted, flow.acceptOutbound frame = .ok accepted) ↔
    flow.aborted = false ∧ frame.jobId = flow.jobId ∧ frame.senderRole = flow.localRole ∧
      frame.channel = flow.channel ∧ frame.sequence = flow.nextSend := by
  constructor
  · rintro ⟨accepted, haccept⟩
    by_cases h : flow.ExpectsOutbound frame
    · exact ⟨h.running, h.jobId, h.sender, h.channel, h.sequence⟩
    · obtain ⟨error, heq⟩ := acceptOutbound_of_not_expects h
      rw [heq] at haccept
      cases haccept
  · rintro ⟨hrunning, hjobId, hsender, hchannel, hsequence⟩
    exact ⟨_, acceptOutbound_of_expects ⟨hrunning, hjobId, hsender, hchannel, hsequence⟩⟩

/-- A refused outbound frame aborts the flow. -/
theorem acceptOutbound_eq_error {error : StepError} (h : flow.acceptOutbound frame = .error error) :
    error.state = flow.abort := by
  by_cases hexpects : flow.ExpectsOutbound frame
  · rw [acceptOutbound_of_expects hexpects] at h
    cases h
  · obtain ⟨reason, heq⟩ := acceptOutbound_of_not_expects hexpects
    rw [heq] at h
    cases h
    rfl

/-- An outbound frame is the next one of this party, or the flow is left as it is. -/
theorem outboundFrame_cases (flow : ChannelFlow) (kind : MessageKind) (payload : List UInt8) :
    (∃ frame, flow.ExpectsOutbound frame ∧ flow.outboundFrame kind payload =
        .ok ({ flow with nextSend := saturatingSucc flow.nextSend }, frame)) ∨
      ∃ error, flow.outboundFrame kind payload = .error ⟨flow, error⟩ := by
  unfold outboundFrame
  split
  · exact .inr ⟨_, rfl⟩
  · next haborted =>
    cases hnew : MpcFrame.new flow.jobId flow.localRole flow.channel flow.nextSend kind payload with
    | error error => exact .inr ⟨_, rfl⟩
    | ok frame =>
      obtain ⟨_, -, hframe⟩ := Rust.bind_eq_ok hnew
      have hexpects : flow.ExpectsOutbound frame := by
        cases hframe
        exact ⟨Bool.eq_false_iff.mpr haborted, rfl, rfl, rfl, rfl⟩
      exact .inl ⟨frame, hexpects, acceptOutbound_of_expects hexpects⟩

/-- An aborted flow sends nothing. -/
theorem outboundFrame_of_aborted (h : flow.aborted = true) (kind : MessageKind)
    (payload : List UInt8) :
    flow.outboundFrame kind payload = .error ⟨flow, .aborted⟩ :=
  if_pos h

/-- A frame which cannot be constructed leaves the flow as it is. -/
theorem outboundFrame_of_new_error {kind : MessageKind} {payload : List UInt8}
    {error : MpcTypeError}
    (h : MpcFrame.new flow.jobId flow.localRole flow.channel flow.nextSend kind payload =
      .error error) :
    ∃ stepError, flow.outboundFrame kind payload = .error ⟨flow, stepError⟩ := by
  unfold outboundFrame
  rw [h]
  split
  · exact ⟨_, rfl⟩
  · exact ⟨_, rfl⟩

/-- A check of a flow passes, or aborts it. -/
def Checked (flow : ChannelFlow) (result : StepResult ChannelFlow) : Prop :=
  result = .ok flow ∨ ∃ error, result = .error ⟨flow.abort, error⟩

/-- A guard is a check. -/
theorem Checked.guard {p : Prop} [Decidable p] {error : CoreError} {next : StepResult ChannelFlow}
    (h : flow.Checked next) : flow.Checked (if p then flow.abortingError error else next) := by
  split
  · exact .inr ⟨error, rfl⟩
  · exact h

/-- One check after another. -/
theorem Checked.bind {first : StepResult ChannelFlow} {next : ChannelFlow → StepResult ChannelFlow}
    (hfirst : flow.Checked first) (hnext : flow.Checked (next flow)) :
    flow.Checked (first >>= next) := by
  rcases hfirst with rfl | ⟨error, rfl⟩
  · exact hnext
  · exact .inr ⟨error, rfl⟩

/-- A decoder is a check. -/
theorem Checked.decode {A E : Type} {result : Except E A} {error : E → CoreError}
    {next : A → StepResult ChannelFlow} (hnext : ∀ a, flow.Checked (next a)) :
    flow.Checked ((result.mapError fun e => StepError.mk flow.abort (error e)) >>= next) := by
  cases result with
  | error e => exact .inr ⟨error e, rfl⟩
  | ok a => exact hnext a

/-- The phase is checked. -/
theorem checked_requireMain (flow : ChannelFlow) : flow.Checked flow.requireMain :=
  Checked.guard (.inl rfl)

/-- The kind is checked. -/
theorem checked_requireKind (flow : ChannelFlow) (frame : MpcFrame) (kind : MessageKind) :
    flow.Checked (flow.requireKind frame kind) :=
  Checked.guard (.inl rfl)

/-- The parameters are checked. -/
theorem checked_compareSessionParams (flow : ChannelFlow) (expected got : SessionParams) :
    flow.Checked (compareSessionParams flow expected got) :=
  Checked.guard (Checked.guard (Checked.guard (.inl rfl)))

/-- A handshake message is in the next frame of the peer, or the flow is aborted. -/
theorem receive_cases (flow : ChannelFlow) (frame : MpcFrame) :
    (flow.ExpectsInbound frame ∧
        flow.receive frame = .ok ({ flow with nextRecv := saturatingSucc flow.nextRecv }, frame)) ∨
      ∃ error, flow.receive frame = .error ⟨flow.abort, error⟩ := by
  unfold receive
  rcases checked_requireMain flow with hmain | ⟨error, hmain⟩
  · rw [hmain]
    by_cases hexpects : flow.ExpectsInbound frame
    · exact .inl ⟨hexpects, acceptInbound_of_expects hexpects⟩
    · exact .inr (acceptInbound_of_not_expects hexpects)
  · rw [hmain]
    exact .inr ⟨error, rfl⟩

/-- A session start is checked. -/
theorem checked_checkStart (codec : ProstCodec) (expected : SessionParams)
    (accepted : ChannelFlow × MpcFrame) : accepted.1.Checked (checkStart codec expected accepted) :=
  (checked_requireKind ..).bind (Checked.decode fun start => checked_compareSessionParams _ _ start)

/-- An ack is checked. -/
theorem checked_checkAck (codec : ProstCodec) (sha256 : List UInt8 → Value32)
    (expected : SessionParams) (accepted : ChannelFlow × MpcFrame) :
    accepted.1.Checked (checkAck codec sha256 expected accepted) :=
  (checked_requireKind ..).bind (Checked.decode fun _ => Checked.guard (.inl rfl))

/-- An ack is received, then checked. -/
theorem receiveSessionStartAck_eq (codec : ProstCodec) (sha256 : List UInt8 → Value32)
    (flow : ChannelFlow) (expected : SessionParams) (frame : MpcFrame) :
    receiveSessionStartAck codec sha256 flow expected frame =
      flow.receive frame >>= checkAck codec sha256 expected := by
  rw [receive, bind_assoc]
  rfl

/-- An ack is sent after the session start is checked. -/
theorem receiveSessionStartAndAck_eq (codec : ProstCodec) (sha256 : List UInt8 → Value32)
    (flow : ChannelFlow) (expected : SessionParams) (frame : MpcFrame) :
    receiveSessionStartAndAck codec sha256 flow expected frame =
      checkSessionStart codec flow expected frame >>= fun flow =>
        flow.outboundFrame .sessionStartAck
          (codec.encodeAck (sessionStartAck sha256 flow.jobId flow.localRole expected)) := by
  simp only [receiveSessionStartAndAck, checkSessionStart, checkStart, receive, bind_assoc]

end ChannelFlow

/-! ## One operation -/

/-- What an operation does to a flow. -/
structure FlowStep (flow next : ChannelFlow) (inbound outbound : List MpcFrame) (refused : Prop) :
    Prop where
  jobId : next.jobId = flow.jobId
  localRole : next.localRole = flow.localRole
  channel : next.channel = flow.channel
  received : (inbound = [] ∧ next.nextRecv = flow.nextRecv) ∨
    ∃ frame, inbound = [frame] ∧ flow.ExpectsInbound frame ∧ next.nextRecv =
      saturatingSucc flow.nextRecv
  sent : (outbound = [] ∧ next.nextSend = flow.nextSend) ∨
    ∃ frame, outbound = [frame] ∧ flow.ExpectsOutbound frame ∧ next.nextSend =
      saturatingSucc flow.nextSend
  aborted : next.aborted = true ↔ flow.aborted = true ∨ refused

namespace FlowStep

variable {flow : ChannelFlow} {frame : MpcFrame}

/-- The flow is left as it is. -/
theorem same {refused : Prop} (h : refused → flow.aborted = true) :
    FlowStep flow flow [] [] refused :=
  ⟨rfl, rfl, rfl, .inl ⟨rfl, rfl⟩, .inl ⟨rfl, rfl⟩, (or_iff_left_of_imp h).symm⟩

/-- The flow is aborted. -/
theorem abort {refused : Prop} (h : refused) : FlowStep flow flow.abort [] [] refused :=
  ⟨rfl, rfl, rfl, .inl ⟨rfl, rfl⟩, .inl ⟨rfl, rfl⟩, iff_of_true rfl (.inr h)⟩

/-- An inbound frame is accepted. -/
theorem accept (hexpects : flow.ExpectsInbound frame) {refused : Prop} (h : ¬refused) :
    FlowStep flow { flow with nextRecv := saturatingSucc flow.nextRecv } [frame] [] refused :=
  ⟨rfl, rfl, rfl, .inr ⟨frame, rfl, hexpects, rfl⟩, .inl ⟨rfl, rfl⟩, (or_iff_left h).symm⟩

/-- An inbound frame is accepted, and then what it says is refused. -/
theorem acceptAbort (hexpects : flow.ExpectsInbound frame) {refused : Prop} (h : refused) :
    FlowStep flow { flow with nextRecv := saturatingSucc flow.nextRecv, aborted := true } [frame] []
      refused :=
  ⟨rfl, rfl, rfl, .inr ⟨frame, rfl, hexpects, rfl⟩, .inl ⟨rfl, rfl⟩, iff_of_true rfl (.inr h)⟩

/-- An outbound frame is accepted. -/
theorem send (hexpects : flow.ExpectsOutbound frame) {refused : Prop} (h : ¬refused) :
    FlowStep flow { flow with nextSend := saturatingSucc flow.nextSend } [] [frame] refused :=
  ⟨rfl, rfl, rfl, .inl ⟨rfl, rfl⟩, .inr ⟨frame, rfl, hexpects, rfl⟩, (or_iff_left h).symm⟩

/-- An inbound frame is accepted, and an outbound one. -/
theorem acceptSend {answer : MpcFrame} (hexpects : flow.ExpectsInbound frame)
    (hanswer : flow.ExpectsOutbound answer) {refused : Prop} (h : ¬refused) :
    FlowStep flow { flow with
      nextRecv := saturatingSucc flow.nextRecv
      nextSend := saturatingSucc flow.nextSend } [frame] [answer] refused :=
  ⟨rfl, rfl, rfl, .inr ⟨frame, rfl, hexpects, rfl⟩, .inr ⟨answer, rfl, hanswer, rfl⟩,
    (or_iff_left h).symm⟩

end FlowStep

namespace FlowOp

variable {codec sha256}

/-- An operation makes one step. -/
theorem flowStep (flow : ChannelFlow) (op : FlowOp) :
    FlowStep flow (StepResult.flow (op.perform codec sha256 flow)) (op.inbound flow)
      (op.outbound codec sha256 flow) (op.Refuses codec sha256 flow) := by
  cases op with
  | outboundFrame kind payload =>
    rcases flow.outboundFrame_cases kind payload with ⟨frame, hexpects, heq⟩ | ⟨error, heq⟩
    · simp only [perform, inbound, outbound, Refuses, heq]
      exact FlowStep.send hexpects (by simp [hexpects.running])
    · simp only [perform, inbound, outbound, Refuses, heq]
      exact FlowStep.same id
  | acceptOutbound frame =>
    by_cases hexpects : flow.ExpectsOutbound frame
    · simp only [perform, inbound, outbound, Refuses,
        ChannelFlow.acceptOutbound_of_expects hexpects]
      exact FlowStep.send hexpects (by simp)
    · obtain ⟨error, heq⟩ := ChannelFlow.acceptOutbound_of_not_expects hexpects
      simp only [perform, inbound, outbound, Refuses, heq]
      exact FlowStep.abort ⟨_, rfl⟩
  | acceptInbound frame =>
    by_cases hexpects : flow.ExpectsInbound frame
    · simp only [perform, inbound, outbound, Refuses, ChannelFlow.acceptInbound_of_expects hexpects]
      exact FlowStep.accept hexpects (by simp)
    · obtain ⟨error, heq⟩ := ChannelFlow.acceptInbound_of_not_expects hexpects
      simp only [perform, inbound, outbound, Refuses, heq]
      exact FlowStep.abort ⟨_, rfl⟩
  | sendSessionStart params =>
    by_cases hmain : flow.channel = .main
    · have hsend : Shachain2pc.sendSessionStart codec flow params =
          flow.outboundFrame .sessionStart (codec.encodeStart params) := by
        rw [Shachain2pc.sendSessionStart, ChannelFlow.requireMain, if_neg (not_not.mpr hmain)]
        rfl
      rcases flow.outboundFrame_cases .sessionStart (codec.encodeStart params) with
        ⟨frame, hexpects, heq⟩ | ⟨error, heq⟩
      · simp only [perform, inbound, outbound, Refuses, hsend, heq]
        exact FlowStep.send hexpects (by simp [hexpects.running, hmain])
      · simp only [perform, inbound, outbound, Refuses, hsend, heq]
        exact FlowStep.same (by simp [hmain])
    · have hsend : Shachain2pc.sendSessionStart codec flow params =
          .error ⟨flow.abort, .wrongChannelForPhase .main flow.channel⟩ := by
        rw [Shachain2pc.sendSessionStart, ChannelFlow.requireMain, if_pos hmain]
        rfl
      simp only [perform, inbound, outbound, Refuses, hsend]
      exact FlowStep.abort (.inl hmain)
  | receiveSessionStartAndAck expected frame =>
    rcases flow.receive_cases frame with ⟨hexpects, heq⟩ | ⟨error, heq⟩
    · rcases ChannelFlow.checked_checkStart codec expected
          ({ flow with nextRecv := saturatingSucc flow.nextRecv }, frame) with hcheck |
            ⟨error, hcheck⟩
      · have hstart : checkSessionStart codec flow expected frame =
            .ok { flow with nextRecv := saturatingSucc flow.nextRecv } := by
          rw [checkSessionStart, heq]
          exact hcheck
        have hack := ChannelFlow.receiveSessionStartAndAck_eq codec sha256 flow expected frame
        rw [hstart] at hack
        rcases ChannelFlow.outboundFrame_cases
            { flow with nextRecv := saturatingSucc flow.nextRecv } .sessionStartAck
            (codec.encodeAck (sessionStartAck sha256 flow.jobId flow.localRole expected))
          with ⟨answer, hanswer, hsend⟩ | ⟨error, hsend⟩
        · simp only [perform, inbound, outbound, Refuses, heq, hstart, hack.trans hsend]
          have houtbound : flow.ExpectsOutbound answer :=
            ⟨hexpects.running, hanswer.jobId, hanswer.sender, hanswer.channel, hanswer.sequence⟩
          exact FlowStep.acceptSend hexpects houtbound (by simp)
        · simp only [perform, inbound, outbound, Refuses, heq, hstart, hack.trans hsend]
          exact FlowStep.accept hexpects (by simp)
      · have hstart : checkSessionStart codec flow expected frame =
            .error ⟨{ flow with
              nextRecv := saturatingSucc flow.nextRecv, aborted := true }, error⟩ := by
          rw [checkSessionStart, heq]
          exact hcheck
        simp only [perform, inbound, outbound, Refuses, heq, hstart,
          ChannelFlow.receiveSessionStartAndAck_eq]
        exact FlowStep.acceptAbort hexpects ⟨_, rfl⟩
    · have hstart : checkSessionStart codec flow expected frame = .error ⟨flow.abort, error⟩ := by
        rw [checkSessionStart, heq]
        rfl
      simp only [perform, inbound, outbound, Refuses, heq, hstart,
        ChannelFlow.receiveSessionStartAndAck_eq]
      exact FlowStep.abort ⟨_, rfl⟩
  | receiveSessionStartAck expected frame =>
    have hack := ChannelFlow.receiveSessionStartAck_eq codec sha256 flow expected frame
    rcases flow.receive_cases frame with ⟨hexpects, heq⟩ | ⟨error, heq⟩
    · rw [heq] at hack
      rcases ChannelFlow.checked_checkAck codec sha256 expected
          ({ flow with nextRecv := saturatingSucc flow.nextRecv }, frame) with hcheck |
            ⟨error, hcheck⟩
      · simp only [perform, inbound, outbound, Refuses, heq, hack.trans hcheck]
        exact FlowStep.accept hexpects (by simp)
      · simp only [perform, inbound, outbound, Refuses, heq, hack.trans hcheck]
        exact FlowStep.acceptAbort hexpects ⟨_, rfl⟩
    · rw [heq] at hack
      have herror : Shachain2pc.receiveSessionStartAck codec sha256 flow expected frame =
          .error ⟨flow.abort, error⟩ := hack
      simp only [perform, inbound, outbound, Refuses, heq, herror]
      exact FlowStep.abort ⟨_, rfl⟩

/-- Nothing succeeds on an aborted flow. -/
theorem perform_of_aborted {flow : ChannelFlow} (h : flow.aborted = true) (op : FlowOp) :
    ∃ error, op.perform codec sha256 flow = .error error := by
  have hreceive (frame : MpcFrame) : ∃ error, flow.receive frame = .error ⟨flow.abort, error⟩ := by
    rcases flow.receive_cases frame with ⟨hexpects, -⟩ | herror
    · exact absurd h (by simp [hexpects.running])
    · exact herror
  cases op with
  | outboundFrame kind payload =>
    rw [perform, ChannelFlow.outboundFrame_of_aborted h]
    exact ⟨_, rfl⟩
  | acceptOutbound frame =>
    have hnot : ¬flow.ExpectsOutbound frame := fun hexpects => by simp [hexpects.running] at h
    obtain ⟨error, heq⟩ := ChannelFlow.acceptOutbound_of_not_expects hnot
    rw [perform, heq]
    exact ⟨_, rfl⟩
  | acceptInbound frame =>
    have hnot : ¬flow.ExpectsInbound frame := fun hexpects => by simp [hexpects.running] at h
    obtain ⟨error, heq⟩ := ChannelFlow.acceptInbound_of_not_expects hnot
    rw [perform, heq]
    exact ⟨_, rfl⟩
  | sendSessionStart params =>
    rw [perform, Shachain2pc.sendSessionStart]
    rcases flow.checked_requireMain with heq | ⟨error, heq⟩
    · rw [heq]
      change ∃ error, (flow.outboundFrame _ _).map _ = .error error
      rw [ChannelFlow.outboundFrame_of_aborted h]
      exact ⟨_, rfl⟩
    · rw [heq]
      exact ⟨_, rfl⟩
  | receiveSessionStartAndAck expected frame =>
    obtain ⟨error, heq⟩ := hreceive frame
    rw [perform, ChannelFlow.receiveSessionStartAndAck_eq, checkSessionStart, heq]
    exact ⟨_, rfl⟩
  | receiveSessionStartAck expected frame =>
    obtain ⟨error, heq⟩ := hreceive frame
    rw [perform, ChannelFlow.receiveSessionStartAck_eq, heq]
    exact ⟨_, rfl⟩

end FlowOp

/-! ## Runs -/

/-- The frames which a direction has accepted are numbered from zero, and the counter counts them as
far as it can. -/
structure InOrder (jobId : List UInt8) (sender : Role) (channel : LogicalChannel) (counter : ℕ)
    (frames : List MpcFrame) : Prop where
  counter : counter = min frames.length (2 ^ 64 - 1)
  numbered : ∀ k frame, frames[k]? = some frame → frame.jobId = jobId ∧ frame.senderRole = sender ∧
    frame.channel = channel ∧ frame.sequence = min k (2 ^ 64 - 1)

/-- Another frame is accepted. -/
theorem InOrder.snoc {jobId : List UInt8} {sender : Role} {channel : LogicalChannel} {counter : ℕ}
    {frames : List MpcFrame} {frame : MpcFrame} (h : InOrder jobId sender channel counter frames)
    (hjobId : frame.jobId = jobId) (hsender : frame.senderRole = sender)
    (hchannel : frame.channel = channel) (hsequence : frame.sequence = counter) :
    InOrder jobId sender channel (saturatingSucc counter) (frames ++ [frame]) := by
  constructor
  · rw [saturatingSucc, h.counter, List.length_append, List.length_singleton]
    omega
  · intro k frame' hk
    rcases Nat.lt_trichotomy k frames.length with hlt | rfl | hgt
    · rw [List.getElem?_append_left hlt] at hk
      exact h.numbered k frame' hk
    · rw [List.getElem?_concat_length, Option.some.injEq] at hk
      rw [← hk]
      exact ⟨hjobId, hsender, hchannel, hsequence.trans h.counter⟩
    · rw [List.getElem?_eq_none (by rw [List.length_append, List.length_singleton]; omega)] at hk
      cases hk

/-- What a run keeps. -/
structure FlowLog.Orderly (jobId : List UInt8) (localRole : Role) (channel : LogicalChannel)
    (log : FlowLog) : Prop where
  sameJob : log.flow.jobId = jobId
  sameRole : log.flow.localRole = localRole
  sameChannel : log.flow.channel = channel
  inbound : InOrder jobId (oppositeRole localRole) channel log.flow.nextRecv log.inbound
  outbound : InOrder jobId localRole channel log.flow.nextSend log.outbound

variable {codec sha256} {jobId : List UInt8} {localRole : Role} {channel : LogicalChannel}

/-- One operation keeps it. -/
theorem FlowLog.Orderly.step {log : FlowLog} (h : log.Orderly jobId localRole channel)
    (op : FlowOp) :
    (log.step codec sha256 op).Orderly jobId localRole channel := by
  have hstep : FlowStep log.flow (StepResult.flow (op.perform codec sha256 log.flow))
      (op.inbound log.flow) (op.outbound codec sha256 log.flow)
        (op.Refuses codec sha256 log.flow) :=
    op.flowStep log.flow
  refine ⟨hstep.jobId.trans h.sameJob, hstep.localRole.trans h.sameRole,
    hstep.channel.trans h.sameChannel,
    ?_, ?_⟩
  · simp only [FlowLog.step]
    rcases hstep.received with ⟨hnone, hsame⟩ | ⟨frame, hone, hexpects, hnext⟩
    · rw [hnone, hsame, List.append_nil]
      exact h.inbound
    · rw [hone, hnext]
      exact h.inbound.snoc (hexpects.jobId.trans h.sameJob)
        (hexpects.sender.trans (congrArg oppositeRole h.sameRole))
        (hexpects.channel.trans h.sameChannel) hexpects.sequence
  · simp only [FlowLog.step]
    rcases hstep.sent with ⟨hnone, hsame⟩ | ⟨frame, hone, hexpects, hnext⟩
    · rw [hnone, hsame, List.append_nil]
      exact h.outbound
    · rw [hone, hnext]
      exact h.outbound.snoc (hexpects.jobId.trans h.sameJob) (hexpects.sender.trans h.sameRole)
        (hexpects.channel.trans h.sameChannel) hexpects.sequence

/-- Every run keeps it. -/
theorem runFlow_orderly (ops : List FlowOp) :
    (runFlow codec sha256 jobId localRole channel ops).Orderly jobId localRole channel := by
  unfold runFlow
  have hnew : FlowLog.Orderly jobId localRole channel ⟨.new jobId localRole channel, [], []⟩ :=
    ⟨rfl, rfl, rfl, ⟨rfl, by simp⟩, ⟨rfl, by simp⟩⟩
  generalize (⟨.new jobId localRole channel, [], []⟩ : FlowLog) = log at hnew
  induction ops generalizing log with
  | nil => exact hnew
  | cons op rest ih => exact ih _ (hnew.step op)

/-- An aborted flow stays aborted. -/
theorem aborted_of_later {log : FlowLog} (h : log.flow.aborted = true) (ops : List FlowOp) :
    (ops.foldl (FlowLog.step codec sha256) log).flow.aborted = true := by
  induction ops generalizing log with
  | nil => exact h
  | cons op rest ih => exact ih (((op.flowStep log.flow).aborted).mpr (.inl h))

/-- A flow accepts one stream in each direction, in order. A refused frame changes no counter, a
frame which cannot be constructed changes nothing, and nothing succeeds after a refusal. -/
theorem channelFlow_oneStream (ops : List FlowOp) :
    let log := runFlow codec sha256 jobId localRole channel ops
    (log.inbound.length < 2 ^ 64 →
      (∀ (k : ℕ) (frame : MpcFrame), log.inbound[k]? = some frame → frame.jobId = jobId ∧
        frame.senderRole = oppositeRole localRole ∧ frame.channel = channel ∧ frame.sequence = k) ∧
      ∀ frame : MpcFrame, (∃ accepted, log.flow.acceptInbound frame = .ok accepted) ↔
        log.flow.aborted = false ∧ frame.jobId = jobId ∧ frame.senderRole = oppositeRole localRole ∧
          frame.channel = channel ∧ frame.sequence = log.inbound.length) ∧
    (log.outbound.length < 2 ^ 64 →
      (∀ (k : ℕ) (frame : MpcFrame), log.outbound[k]? = some frame → frame.jobId = jobId ∧
        frame.senderRole = localRole ∧ frame.channel = channel ∧ frame.sequence = k) ∧
      ∀ frame : MpcFrame, (∃ accepted, log.flow.acceptOutbound frame = .ok accepted) ↔
        log.flow.aborted = false ∧ frame.jobId = jobId ∧ frame.senderRole = localRole ∧
          frame.channel = channel ∧ frame.sequence = log.outbound.length) ∧
    (∀ frame error, (log.flow.acceptInbound frame = .error error ∨
        log.flow.acceptOutbound frame = .error error) →
      error.state.nextSend = log.flow.nextSend ∧ error.state.nextRecv = log.flow.nextRecv) ∧
    (∀ kind payload error, MpcFrame.new log.flow.jobId log.flow.localRole log.flow.channel
        log.flow.nextSend kind payload = .error error →
      ∃ stepError, log.flow.outboundFrame kind payload = .error ⟨log.flow, stepError⟩) ∧
    ∀ op : FlowOp, op.Refuses codec sha256 log.flow → ∀ (later : List FlowOp) (next : FlowOp),
      ∃ error, next.perform codec sha256
        (runFlow codec sha256 jobId localRole channel (ops ++ op :: later)).flow =
          .error error := by
  intro log
  have horderly : log.Orderly jobId localRole channel := runFlow_orderly ops
  refine ⟨fun hfew => ⟨?_, ?_⟩, fun hfew => ⟨?_, ?_⟩, ?_, ?_, ?_⟩
  · intro k frame hk
    obtain ⟨hjobId, hsender, hchannel, hsequence⟩ := horderly.inbound.numbered k frame hk
    have hlt := (List.getElem?_eq_some_iff.mp hk).1
    exact ⟨hjobId, hsender, hchannel, hsequence.trans (by omega)⟩
  · intro frame
    rw [ChannelFlow.acceptInbound_iff, horderly.sameJob, horderly.sameRole, horderly.sameChannel,
      horderly.inbound.counter, min_eq_left (by omega)]
  · intro k frame hk
    obtain ⟨hjobId, hsender, hchannel, hsequence⟩ := horderly.outbound.numbered k frame hk
    have hlt := (List.getElem?_eq_some_iff.mp hk).1
    exact ⟨hjobId, hsender, hchannel, hsequence.trans (by omega)⟩
  · intro frame
    rw [ChannelFlow.acceptOutbound_iff, horderly.sameJob, horderly.sameRole, horderly.sameChannel,
      horderly.outbound.counter, min_eq_left (by omega)]
  · rintro frame error (h | h)
    · rw [ChannelFlow.acceptInbound_eq_error h]
      exact ⟨rfl, rfl⟩
    · rw [ChannelFlow.acceptOutbound_eq_error h]
      exact ⟨rfl, rfl⟩
  · intro kind payload error h
    exact ChannelFlow.outboundFrame_of_new_error h
  · intro op hrefuses later next
    apply FlowOp.perform_of_aborted
    rw [runFlow, List.foldl_append, List.foldl_cons]
    exact aborted_of_later (((op.flowStep _).aborted).mpr (.inr hrefuses)) later

end Shachain2pc
