import Shachain2pc.Daemon.Jobs
import Shachain2pc.Lib.Rust
import Shachain2pc.Lib.Runs
import Shachain2pc.Wire.Transcript

/-!
# Job streams

A job stream carries bytes both ways over framed messages. What one end sends waits in a
queue; a forwarding task cuts it into frames; a receiving task at the other end takes the
frames which carry the stream's context and stops at the first which does not; the bytes
wait in a second queue and then in the buffer of the receiving end. The two directions are
independent; the source also never lets one end send and receive at once, which the model
does not rely on.
-/

namespace Shachain2pc

/-- `JOBSTREAM_PAYLOAD_CHUNK_BYTES`. -/
def jobstreamPayloadChunkBytes : ℕ := 512 * 1024

/-- The capacity of the queues between the tasks. -/
def jobQueueCapacity : ℕ := 64

structure JobFrame where
  jobId : String
  channel : ℕ
  channelIndex : ℕ
  targetIndex : ℕ
  ssp : ℕ
  digest : List UInt8
  start : Bool
  payload : List UInt8
  sspTarget : ℕ
  deltaLifetimeCheckedUnitsCap : ℕ
  deriving DecidableEq, Repr

/-- `job_frame`. -/
def jobFrame (descriptor : GrpcJobDescriptor) (channel : ℕ) (start : Bool) (payload : List UInt8) :
    JobFrame where
  jobId := descriptor.jobId
  channel := channel
  channelIndex := descriptor.channelIndex
  targetIndex := descriptor.targetIndex
  ssp := descriptor.ssp
  digest := descriptor.digest.bytes.toList
  start := start
  payload := payload
  sspTarget := descriptor.sspTarget
  deltaLifetimeCheckedUnitsCap := descriptor.deltaLifetimeCheckedUnitsCap

/-- `descriptor_from_job_frame`. -/
def descriptorFromJobFrame (frame : JobFrame) : Except String GrpcJobDescriptor :=
  if frame.jobId = "" then .error "JobStream job_id is empty"
  else if frame.digest.length ≠ 32 then .error "JobStream digest must be 32 bytes"
  else .ok
    { jobId := frame.jobId
      channelIndex := frame.channelIndex
      targetIndex := frame.targetIndex
      ssp := frame.ssp
      sspTarget := frame.sspTarget
      deltaLifetimeCheckedUnitsCap := frame.deltaLifetimeCheckedUnitsCap
      digest := .ofList frame.digest }

/-- `validate_job_channel`. -/
def validateJobChannel (channel : ℕ) : Except String ℕ :=
  if channel = 1 ∨ channel = 2 then .ok channel else .error "JobStream channel must be 1 or 2"

/-- `validate_job_payload_context`. -/
def validateJobPayloadContext (frame : JobFrame) (descriptor : GrpcJobDescriptor) : Bool :=
  frame.channelIndex = descriptor.channelIndex ∧ frame.targetIndex = descriptor.targetIndex ∧
    frame.ssp = descriptor.ssp ∧ frame.sspTarget = descriptor.sspTarget ∧
    frame.deltaLifetimeCheckedUnitsCap = descriptor.deltaLifetimeCheckedUnitsCap ∧
    frame.digest = descriptor.digest.bytes.toList

/-- What an end of a stream knows about it. -/
structure JobContext where
  descriptor : GrpcJobDescriptor
  channel : ℕ
  deriving DecidableEq, Repr

/-- The frames a receiving task takes. -/
def JobContext.takes (context : JobContext) (frame : JobFrame) : Bool :=
  !frame.start ∧ frame.jobId = context.descriptor.jobId ∧ frame.channel = context.channel ∧
    validateJobPayloadContext frame context.descriptor

/-- A frame of the end's own payload bytes. -/
def JobContext.frame (context : JobContext) (chunk : List UInt8) : JobFrame :=
  jobFrame context.descriptor context.channel false chunk

/-- `payload.chunks(JOBSTREAM_PAYLOAD_CHUNK_BYTES)`. -/
def payloadChunks (payload : List UInt8) : List (List UInt8) :=
  if payload = [] then []
  else payload.take jobstreamPayloadChunkBytes ::
    payloadChunks (payload.drop jobstreamPayloadChunkBytes)
termination_by payload.length
decreasing_by
  have := List.length_pos_iff.mpr ‹_›
  simp only [List.length_drop, jobstreamPayloadChunkBytes]
  omega

/-! ## One direction -/

/-- The bytes of one direction, from the end that sends them to the end that receives them, with
the transcript of both ends and logs of the bytes sent, the frames on the wire, and the bytes
returned. -/
structure JobPipe where
  fsSend : Option (List UInt8)
  sending : Option (List UInt8)
  outgoing : List (List UInt8)
  forwarding : Bool
  chunks : List (List UInt8)
  frames : List JobFrame
  network : List JobFrame
  accepting : Bool
  incoming : List (List UInt8)
  recvBuf : List UInt8
  receiving : Option ℕ
  fsRecv : Option (List UInt8)
  sent : List UInt8
  wire : List JobFrame
  received : List UInt8
  deriving DecidableEq

/-- A direction of a new stream. -/
def JobPipe.new : JobPipe where
  fsSend := none
  sending := none
  outgoing := []
  forwarding := true
  chunks := []
  frames := []
  network := []
  accepting := true
  incoming := []
  recvBuf := []
  receiving := none
  fsRecv := none
  sent := []
  wire := []
  received := []

/-- The steps of a direction: the calls of its two ends, the moves of its tasks and of the
network, and what can go wrong. -/
inductive PipeLabel where
  | sendData (data : List UInt8)
  | sendQueued
  | sendRefused
  | forwardNext
  | forwardChunk
  | forwardStopped
  | transmit
  | foreign (frame : JobFrame)
  | accept
  | streamEnded
  | recvData (len : ℕ)
  | recvChunk
  | recvDone
  | recvRefused
  deriving DecidableEq, Repr

/-- One step of a direction between two ends. A call blocks until its queue has room, the buffer
has enough bytes, or the task at the other side of the queue is gone. -/
def JobPipe.step (sender receiver : JobContext) (pipe : JobPipe) : PipeLabel → Option JobPipe
  | .sendData data =>
    if pipe.sending = none then
      some { pipe with
        fsSend := absorb pipe.fsSend data, sending := some data, sent := pipe.sent ++ data }
    else none
  | .sendQueued => pipe.sending.bind fun data =>
    if pipe.forwarding ∧ pipe.outgoing.length < jobQueueCapacity then
      some { pipe with sending := none, outgoing := pipe.outgoing ++ [data] }
    else none
  | .sendRefused =>
    if pipe.sending ≠ none ∧ ¬pipe.forwarding then some { pipe with sending := none } else none
  | .forwardNext => pipe.outgoing.head?.bind fun payload =>
    if pipe.forwarding ∧ pipe.chunks = [] then
      some { pipe with outgoing := pipe.outgoing.tail, chunks := payloadChunks payload }
    else none
  | .forwardChunk => pipe.chunks.head?.bind fun chunk =>
    if pipe.forwarding ∧ pipe.frames.length < jobQueueCapacity then
      some { pipe with chunks := pipe.chunks.tail, frames := pipe.frames ++ [sender.frame chunk] }
    else none
  | .forwardStopped => some { pipe with forwarding := false }
  | .transmit => pipe.frames.head?.bind fun frame =>
    some { pipe with
      frames := pipe.frames.tail, network := pipe.network ++ [frame], wire := pipe.wire ++ [frame] }
  | .foreign frame =>
    some { pipe with network := pipe.network ++ [frame], wire := pipe.wire ++ [frame] }
  | .accept => pipe.network.head?.bind fun frame =>
    if ¬pipe.accepting then none
    else if ¬receiver.takes frame then
      some { pipe with network := pipe.network.tail, accepting := false }
    else if pipe.incoming.length < jobQueueCapacity then
      some { pipe with
        network := pipe.network.tail, incoming := pipe.incoming ++ [frame.payload] }
    else none
  | .streamEnded => some { pipe with accepting := false }
  | .recvData len =>
    if pipe.receiving = none then some { pipe with receiving := some len } else none
  | .recvChunk => pipe.receiving.bind fun len => pipe.incoming.head?.bind fun chunk =>
    if pipe.recvBuf.length < len then
      some { pipe with incoming := pipe.incoming.tail, recvBuf := pipe.recvBuf ++ chunk }
    else none
  | .recvDone => pipe.receiving.bind fun len =>
    if len ≤ pipe.recvBuf.length then
      some { pipe with
        receiving := none, recvBuf := pipe.recvBuf.drop len,
        fsRecv := absorb pipe.fsRecv (pipe.recvBuf.take len),
        received := pipe.received ++ pipe.recvBuf.take len }
    else none
  | .recvRefused => pipe.receiving.bind fun len =>
    if pipe.recvBuf.length < len ∧ pipe.incoming = [] ∧ ¬pipe.accepting then
      some { pipe with receiving := none }
    else none

/-! ## The stream -/

inductive JobSide where
  | opener
  | acceptor
  deriving DecidableEq, Repr

/-- The other end. -/
def JobSide.other : JobSide → JobSide
  | .opener => .acceptor
  | .acceptor => .opener

/-- Both ends of a stream; `pipe side` carries the bytes that `side` sends. -/
structure JobStream where
  context : JobSide → JobContext
  fsSendFirst : JobSide → Bool
  pipe : JobSide → JobPipe

/-- What `open_peer_job_stream` accepts as the first frame. -/
def openPeerJobStream (start : JobFrame) : Except String JobContext := do
  let descriptor ← descriptorFromJobFrame start
  let channel ← validateJobChannel start.channel
  if !start.start then .error "first JobStream frame must be a start frame"
  else if start.payload ≠ [] then .error "JobStream start frame must not carry payload"
  else .ok ⟨descriptor, channel⟩

/-- `open_peer_job_channel` at the opener and `open_peer_job_stream` at the peer. -/
def openJobStream (descriptor : GrpcJobDescriptor) (channel : ℕ) : Except String JobStream := do
  let channel ← validateJobChannel channel
  let accepted ← openPeerJobStream (jobFrame descriptor channel true [])
  return {
    context := fun side => match side with
      | .opener => ⟨descriptor, channel⟩
      | .acceptor => accepted
    fsSendFirst := fun _ => false
    pipe := fun _ => .new }

inductive JobStreamLabel where
  | pipe (side : JobSide) (label : PipeLabel)
  | enableFs (side : JobSide) (sendFirst : Bool)
  deriving DecidableEq, Repr

/-- `enable_fs`, which is refused when the transcript is already enabled. -/
def JobStream.enableFs (s : JobStream) (side : JobSide) (sendFirst : Bool) :
    Except WireError JobStream :=
  if (s.pipe side).fsSend.isSome then .error .fsAlreadyEnabled
  else .ok { s with
    fsSendFirst := Function.update s.fsSendFirst side sendFirst
    pipe := fun direction =>
      if direction = side then { s.pipe direction with fsSend := some [] }
      else { s.pipe direction with fsRecv := some [] } }

/-- One step of a stream; a refused call changes nothing. -/
def JobStream.step (s : JobStream) : JobStreamLabel → Option JobStream
  | .pipe side label =>
    ((s.pipe side).step (s.context side) (s.context side.other) label).map fun pipe =>
      { s with pipe := Function.update s.pipe side pipe }
  | .enableFs side sendFirst => some ((s.enableFs side sendFirst).toOption.getD s)

/-- `get_digest` at one end. -/
def JobStream.getDigest (sha256 : List UInt8 → Value32) (s : JobStream) (side : JobSide) :
    Except WireError Block :=
  Shachain2pc.getDigest sha256 (s.fsSendFirst side) (s.pipe side).fsSend (s.pipe side.other).fsRecv

end Shachain2pc
