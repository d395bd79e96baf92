import Shachain2pc.Daemon.JobStream

/-!
# A job stream carries one faithful byte stream

Bytes keep their order through every queue of a direction, and each step moves them from one
queue to the next. What is returned comes from the frames before the first one that does not
carry the stream's context. While nothing foreign is on the wire these are the bytes sent,
and while the tasks run none are lost: a call which waits for bytes already sent can always
be finished by the tasks.
-/

namespace Shachain2pc

open Runs (run run_cons run_append Along guard_eq_some head_bind_eq_some)
open Rust (bind_eq_ok)

/-- The bytes of a list of frames. -/
def payloads (frames : List JobFrame) : List UInt8 := frames.flatMap JobFrame.payload

/-- The bytes which are sent and not yet returned, the next to be returned first. -/
def JobPipe.inFlight (pipe : JobPipe) : List UInt8 :=
  pipe.recvBuf ++ pipe.incoming.flatten ++ payloads pipe.network ++ payloads pipe.frames ++
    pipe.chunks.flatten ++ pipe.outgoing.flatten ++ pipe.sending.getD []

/-- The moves of the tasks, the network, and the calls which wait on them. -/
def PipeLabel.internal : PipeLabel → Bool
  | .sendQueued | .forwardNext | .forwardChunk | .transmit | .accept | .recvChunk | .recvDone =>
    true
  | _ => false

/-- The label puts a frame on the wire of the direction which its forwarding task did not send. -/
def JobStreamLabel.foreignOn (side : JobSide) : JobStreamLabel → Bool
  | .pipe side' (.foreign _) => side' = side
  | _ => false

/-- The label is something going wrong in the direction. -/
def JobStreamLabel.faultOn (side : JobSide) : JobStreamLabel → Bool
  | .pipe side' (.foreign _) | .pipe side' .forwardStopped | .pipe side' .streamEnded =>
    side' = side
  | _ => false

/-- A transcript is enabled before the end has sent or returned a byte. -/
def EnabledFirst (s : JobStream) (label : JobStreamLabel) : Prop :=
  ∀ side sendFirst, label = .enableFs side sendFirst →
    (s.pipe side).sent = [] ∧ (s.pipe side.other).received = []

/-! ## Chunks and frames -/

/-- The chunks of a payload are its bytes in order. -/
theorem payloadChunks_flatten (payload : List UInt8) :
    (payloadChunks payload).flatten = payload := by
  fun_induction payloadChunks payload with
  | case1 => rfl
  | case2 payload hne ih => rw [List.flatten_cons, ih, List.take_append_drop]

/-- No chunk is longer than a frame may be. -/
theorem payloadChunks_length {payload chunk : List UInt8} (h : chunk ∈ payloadChunks payload) :
    chunk.length ≤ jobstreamPayloadChunkBytes := by
  fun_induction payloadChunks payload with
  | case1 => cases h
  | case2 payload hne ih =>
    rcases List.mem_cons.mp h with rfl | hrest
    · exact List.length_take_le _ _
    · exact ih hrest

@[simp] theorem payloads_nil : payloads [] = [] := rfl

@[simp] theorem payloads_cons (frame : JobFrame) (frames : List JobFrame) :
    payloads (frame :: frames) = frame.payload ++ payloads frames := List.flatMap_cons

@[simp] theorem payloads_append (a b : List JobFrame) :
    payloads (a ++ b) = payloads a ++ payloads b :=
  List.flatMap_append

@[simp] theorem JobContext.frame_payload (context : JobContext) (chunk : List UInt8) :
    (context.frame chunk).payload = chunk := rfl

/-- An end takes the frames of its own context. -/
theorem JobContext.takes_frame (context : JobContext) (chunk : List UInt8) :
    context.takes (context.frame chunk) = true := by
  simp [takes, frame, jobFrame, validateJobPayloadContext]

/-- The peer learns the opener's context from the start frame. -/
theorem openJobStream_ok {descriptor : GrpcJobDescriptor} {channel : ℕ} {s : JobStream}
    (h : openJobStream descriptor channel = .ok s) :
    (∀ side, s.context side = ⟨descriptor, channel⟩) ∧ s.pipe = fun _ => .new := by
  obtain ⟨channel', hchannel, h⟩ := bind_eq_ok h
  obtain ⟨accepted, haccepted, h⟩ := bind_eq_ok h
  cases h
  have hvalid : channel' = channel := by
    unfold validateJobChannel at hchannel
    split at hchannel
    · exact (Except.ok.inj hchannel).symm
    · cases hchannel
  subst hvalid
  have hcontext : accepted = ⟨descriptor, channel'⟩ := by
    obtain ⟨descriptor', hdescriptor, haccepted⟩ := bind_eq_ok haccepted
    obtain ⟨channel'', hchannel'', haccepted⟩ := bind_eq_ok haccepted
    cases Except.ok.inj (hchannel.symm.trans hchannel'')
    unfold descriptorFromJobFrame at hdescriptor
    split at hdescriptor
    · cases hdescriptor
    · rw [if_neg (by simp [jobFrame])] at hdescriptor
      cases hdescriptor
      simp only [jobFrame, Bool.not_true, Bool.false_eq_true, if_false, ne_eq, not_true,
        Value32.ofList_toList] at haccepted
      exact (Except.ok.inj haccepted).symm
  subst hcontext
  refine ⟨?_, rfl⟩
  rintro (_ | _) <;> rfl

/-! ## What a step does -/

/-- The steps of a direction with what each needs and does. -/
inductive PipeStep (sender receiver : JobContext) (pipe : JobPipe) :
    PipeLabel → JobPipe → Prop where
  | sendData (data : List UInt8) (hidle : pipe.sending = none) :
      PipeStep sender receiver pipe (.sendData data) { pipe with
        fsSend := absorb pipe.fsSend data, sending := some data, sent := pipe.sent ++ data }
  | sendQueued {data : List UInt8} (hsending : pipe.sending = some data)
      (hforwarding : pipe.forwarding = true) (hroom : pipe.outgoing.length < jobQueueCapacity) :
      PipeStep sender receiver pipe .sendQueued { pipe with
        sending := none, outgoing := pipe.outgoing ++ [data] }
  | sendRefused (hforwarding : pipe.forwarding = false) :
      PipeStep sender receiver pipe .sendRefused { pipe with sending := none }
  | forwardNext {payload : List UInt8} {rest : List (List UInt8)}
      (houtgoing : pipe.outgoing = payload :: rest) (hforwarding : pipe.forwarding = true)
      (hchunks : pipe.chunks = []) :
      PipeStep sender receiver pipe .forwardNext { pipe with
        outgoing := rest, chunks := payloadChunks payload }
  | forwardChunk {chunk : List UInt8} {rest : List (List UInt8)}
      (hchunks : pipe.chunks = chunk :: rest)
      (hforwarding : pipe.forwarding = true) (hroom : pipe.frames.length < jobQueueCapacity) :
      PipeStep sender receiver pipe .forwardChunk { pipe with
        chunks := rest, frames := pipe.frames ++ [sender.frame chunk] }
  | forwardStopped : PipeStep sender receiver pipe .forwardStopped { pipe with forwarding := false }
  | transmit {frame : JobFrame} {rest : List JobFrame} (hframes : pipe.frames = frame :: rest) :
      PipeStep sender receiver pipe .transmit { pipe with
        frames := rest, network := pipe.network ++ [frame], wire := pipe.wire ++ [frame] }
  | foreign (frame : JobFrame) :
      PipeStep sender receiver pipe (.foreign frame) { pipe with
        network := pipe.network ++ [frame], wire := pipe.wire ++ [frame] }
  | refuse {frame : JobFrame} {rest : List JobFrame} (hnetwork : pipe.network = frame :: rest)
      (haccepting : pipe.accepting = true) (hframe : receiver.takes frame = false) :
      PipeStep sender receiver pipe .accept { pipe with network := rest, accepting := false }
  | take {frame : JobFrame} {rest : List JobFrame} (hnetwork : pipe.network = frame :: rest)
      (haccepting : pipe.accepting = true) (hframe : receiver.takes frame = true)
      (hroom : pipe.incoming.length < jobQueueCapacity) :
      PipeStep sender receiver pipe .accept { pipe with
        network := rest, incoming := pipe.incoming ++ [frame.payload] }
  | streamEnded : PipeStep sender receiver pipe .streamEnded { pipe with accepting := false }
  | recvData (len : ℕ) :
      PipeStep sender receiver pipe (.recvData len) { pipe with receiving := some len }
  | recvChunk {len : ℕ} {chunk : List UInt8} {rest : List (List UInt8)}
      (hreceiving : pipe.receiving = some len) (hincoming : pipe.incoming = chunk :: rest)
      (hshort : pipe.recvBuf.length < len) :
      PipeStep sender receiver pipe .recvChunk { pipe with
        incoming := rest, recvBuf := pipe.recvBuf ++ chunk }
  | recvDone {len : ℕ} (hreceiving : pipe.receiving = some len)
      (henough : len ≤ pipe.recvBuf.length) :
      PipeStep sender receiver pipe .recvDone { pipe with
        receiving := none, recvBuf := pipe.recvBuf.drop len,
        fsRecv := absorb pipe.fsRecv (pipe.recvBuf.take len),
        received := pipe.received ++ pipe.recvBuf.take len }
  | recvRefused : PipeStep sender receiver pipe .recvRefused { pipe with receiving := none }

variable {sender receiver : JobContext} {pipe pipe' : JobPipe} {label : PipeLabel}

/-- Every step is one of these. -/
theorem pipeStep_of_step (h : pipe.step sender receiver label = some pipe') :
    PipeStep sender receiver pipe label pipe' := by
  cases label with
  | sendData data =>
    obtain ⟨hidle, rfl⟩ := guard_eq_some.mp h
    exact .sendData data hidle
  | sendQueued =>
    obtain ⟨data, hsending, h⟩ := Option.bind_eq_some_iff.mp h
    obtain ⟨⟨hforwarding, hroom⟩, rfl⟩ := guard_eq_some.mp h
    exact .sendQueued hsending hforwarding hroom
  | sendRefused =>
    obtain ⟨⟨-, hforwarding⟩, rfl⟩ := guard_eq_some.mp h
    exact .sendRefused (Bool.eq_false_of_not_eq_true hforwarding)
  | forwardNext =>
    obtain ⟨payload, rest, houtgoing, h⟩ := head_bind_eq_some.mp h
    obtain ⟨⟨hforwarding, hchunks⟩, rfl⟩ := guard_eq_some.mp h
    simpa only [houtgoing, List.tail_cons] using PipeStep.forwardNext houtgoing hforwarding hchunks
  | forwardChunk =>
    obtain ⟨chunk, rest, hchunks, h⟩ := head_bind_eq_some.mp h
    obtain ⟨⟨hforwarding, hroom⟩, rfl⟩ := guard_eq_some.mp h
    simpa only [hchunks, List.tail_cons] using PipeStep.forwardChunk hchunks hforwarding hroom
  | forwardStopped =>
    obtain rfl := Option.some.inj h
    exact .forwardStopped
  | transmit =>
    obtain ⟨frame, rest, hframes, h⟩ := head_bind_eq_some.mp h
    obtain rfl := Option.some.inj h
    simpa only [hframes, List.tail_cons] using PipeStep.transmit hframes
  | foreign frame =>
    obtain rfl := Option.some.inj h
    exact .foreign frame
  | accept =>
    obtain ⟨frame, rest, hnetwork, h⟩ := head_bind_eq_some.mp h
    obtain ⟨haccepting, h⟩ := Option.ite_none_left_eq_some.mp h
    have haccepting : pipe.accepting = true := not_not.mp haccepting
    by_cases hframe : receiver.takes frame
    · rw [if_neg (not_not.mpr hframe)] at h
      obtain ⟨hroom, rfl⟩ := guard_eq_some.mp h
      simpa only [hnetwork, List.tail_cons] using PipeStep.take hnetwork haccepting hframe hroom
    · rw [if_pos hframe] at h
      obtain rfl := Option.some.inj h
      simpa only [hnetwork, List.tail_cons] using
        PipeStep.refuse hnetwork haccepting (Bool.eq_false_of_not_eq_true hframe)
  | streamEnded =>
    obtain rfl := Option.some.inj h
    exact .streamEnded
  | recvData len =>
    obtain ⟨-, rfl⟩ := guard_eq_some.mp h
    exact .recvData len
  | recvChunk =>
    obtain ⟨len, hreceiving, h⟩ := Option.bind_eq_some_iff.mp h
    obtain ⟨chunk, rest, hincoming, h⟩ := head_bind_eq_some.mp h
    obtain ⟨hshort, rfl⟩ := guard_eq_some.mp h
    simpa only [hincoming, List.tail_cons] using PipeStep.recvChunk hreceiving hincoming hshort
  | recvDone =>
    obtain ⟨len, hreceiving, h⟩ := Option.bind_eq_some_iff.mp h
    obtain ⟨henough, rfl⟩ := guard_eq_some.mp h
    exact .recvDone hreceiving henough
  | recvRefused =>
    obtain ⟨len, -, h⟩ := Option.bind_eq_some_iff.mp h
    obtain ⟨-, rfl⟩ := guard_eq_some.mp h
    exact .recvRefused

/-! ## What is delivered -/

/-- What the receiving end has taken is the payload of frames it takes, in the order in which they
were on the wire; while its task runs no frame is skipped. -/
def JobPipe.Delivers (receiver : JobContext) (pipe : JobPipe) : Prop :=
  ∃ handled, handled <+: pipe.wire ∧ (∀ frame ∈ handled, receiver.takes frame = true) ∧
    (pipe.accepting → pipe.wire = handled ++ pipe.network) ∧
    pipe.received ++ pipe.recvBuf ++ pipe.incoming.flatten = payloads handled

/-- Every step keeps what is delivered. -/
theorem JobPipe.Delivers.step (h : pipe.Delivers receiver)
    (hstep : PipeStep sender receiver pipe label pipe') : pipe'.Delivers receiver := by
  obtain ⟨handled, hprefix, htakes, hwire, hbytes⟩ := h
  cases hstep with
  | transmit hframes =>
    exact ⟨handled, hprefix.trans (List.prefix_append _ _), htakes,
      fun haccepting => by rw [hwire haccepting, List.append_assoc], hbytes⟩
  | foreign frame =>
    exact ⟨handled, hprefix.trans (List.prefix_append _ _), htakes,
      fun haccepting => by rw [hwire haccepting, List.append_assoc], hbytes⟩
  | take hnetwork haccepting hframe hroom =>
    rename_i frame rest
    have hall : pipe.wire = (handled ++ [frame]) ++ rest := by
      rw [hwire haccepting, hnetwork, List.append_assoc, List.singleton_append]
    refine ⟨handled ++ [frame], hall ▸ List.prefix_append _ _, ?_, fun _ => hall, ?_⟩
    · rintro frame' hmem
      rcases List.mem_append.mp hmem with hhandled | hnew
      · exact htakes frame' hhandled
      · rwa [List.mem_singleton.mp hnew]
    · simp only [List.flatten_append, List.flatten_cons, List.flatten_nil, List.append_nil,
        payloads_append, payloads_cons, payloads_nil, ← hbytes, List.append_assoc]
  | recvChunk hreceiving hincoming hshort =>
    refine ⟨handled, hprefix, htakes, hwire, ?_⟩
    rw [← hbytes, hincoming, List.flatten_cons]
    simp only [List.append_assoc]
  | recvDone hreceiving henough =>
    refine ⟨handled, hprefix, htakes, hwire, ?_⟩
    rw [← hbytes, List.append_assoc pipe.received, List.take_append_drop]
  | refuse | streamEnded => exact ⟨handled, hprefix, htakes, by simp, hbytes⟩
  | sendData | sendQueued | sendRefused | forwardNext | forwardChunk | forwardStopped | recvData
  | recvRefused => exact ⟨handled, hprefix, htakes, hwire, hbytes⟩

/-- Nothing is delivered at the start. -/
theorem JobPipe.delivers_new (receiver : JobContext) : JobPipe.new.Delivers receiver :=
  ⟨[], List.nil_prefix, by simp, by simp [JobPipe.new], rfl⟩

/-- Only frames before the first one which is not taken are delivered. -/
theorem JobPipe.Delivers.received_prefix (h : pipe.Delivers receiver) :
    pipe.received <+: payloads (pipe.wire.takeWhile receiver.takes) := by
  obtain ⟨handled, ⟨rest, hrest⟩, htakes, -, hbytes⟩ := h
  have hhandled : handled <+: pipe.wire.takeWhile receiver.takes := by
    rw [← hrest, List.takeWhile_append_of_pos htakes]
    exact List.prefix_append _ _
  obtain ⟨more, hmore⟩ := hhandled
  rw [← hmore, payloads_append, ← hbytes, List.append_assoc, List.append_assoc]
  exact List.prefix_append _ _

/-! ## What is carried -/

/-- The bytes the forwarding task has been given. -/
def JobPipe.forwarded (pipe : JobPipe) : List UInt8 :=
  payloads pipe.wire ++ payloads pipe.frames ++ pipe.chunks.flatten ++ pipe.outgoing.flatten

/-- All frames are the sender's own and of the allowed size; the bytes given to its task are the
first it sent, and all of them while the task runs. -/
structure JobPipe.Carries (sender : JobContext) (pipe : JobPipe) : Prop where
  own : ∀ frame ∈ pipe.wire ++ pipe.frames, ∃ chunk, frame = sender.frame chunk ∧
    chunk.length ≤ jobstreamPayloadChunkBytes
  bounded : ∀ chunk ∈ pipe.chunks, chunk.length ≤ jobstreamPayloadChunkBytes
  first : pipe.forwarded <+: pipe.sent
  all : pipe.forwarding → pipe.forwarded ++ pipe.sending.getD [] = pipe.sent

/-- Every step but a foreign frame keeps what is carried. -/
theorem JobPipe.Carries.step (h : pipe.Carries sender)
    (hstep : PipeStep sender receiver pipe label pipe') (hown : ∀ frame, label ≠ .foreign frame) :
    pipe'.Carries sender := by
  cases hstep with
  | sendData data hidle =>
    refine ⟨h.own, h.bounded, h.first.trans (List.prefix_append _ _), ?_⟩
    rintro hforwarding
    have hall := h.all hforwarding
    rw [hidle, Option.getD_none, List.append_nil] at hall
    simp only [forwarded] at hall ⊢
    rw [hall, Option.getD_some]
  | sendQueued hsending hforwarding hroom =>
    have hall := h.all hforwarding
    rw [hsending, Option.getD_some] at hall
    have hforwarded : ∀ data, (payloads pipe.wire ++ payloads pipe.frames ++ pipe.chunks.flatten ++
        (pipe.outgoing ++ [data]).flatten) = pipe.forwarded ++ data := by
      rintro data
      simp [forwarded]
    refine ⟨h.own, h.bounded, ?_, ?_⟩
    · exact ((hforwarded _).trans hall) ▸ List.prefix_rfl
    · rintro -
      rw [forwarded, hforwarded, hall, Option.getD_none, List.append_nil]
  | sendRefused hforwarding => exact ⟨h.own, h.bounded, h.first, by simp [hforwarding]⟩
  | forwardNext houtgoing hforwarding hchunks =>
    rename_i payload rest
    have hforwarded :
        payloads pipe.wire ++ payloads pipe.frames ++ (payloadChunks payload).flatten ++
        rest.flatten = pipe.forwarded := by
      simp [forwarded, houtgoing, hchunks, payloadChunks_flatten]
    refine ⟨h.own, fun chunk hchunk => payloadChunks_length hchunk, ?_, ?_⟩
    · rw [forwarded, hforwarded]
      exact h.first
    · rw [forwarded, hforwarded]
      exact h.all
  | forwardChunk hchunks hforwarding hroom =>
    rename_i chunk rest
    have hforwarded : payloads pipe.wire ++ payloads (pipe.frames ++ [sender.frame chunk]) ++
        rest.flatten ++ pipe.outgoing.flatten = pipe.forwarded := by
      simp [forwarded, hchunks]
    have hbounded : ∀ chunk' ∈ chunk :: rest, chunk'.length ≤ jobstreamPayloadChunkBytes :=
      hchunks ▸ h.bounded
    refine ⟨?_, fun chunk' hchunk' => hbounded chunk' (List.mem_cons_of_mem _ hchunk'), ?_, ?_⟩
    · rintro frame hmem
      rw [← List.append_assoc, List.mem_append] at hmem
      rcases hmem with hold | hnew
      · exact h.own frame hold
      · exact ⟨chunk, List.mem_singleton.mp hnew, hbounded chunk List.mem_cons_self⟩
    · rw [forwarded, hforwarded]
      exact h.first
    · rw [forwarded, hforwarded]
      exact h.all
  | transmit hframes =>
    rename_i frame rest
    have hforwarded : payloads (pipe.wire ++ [frame]) ++ payloads rest ++ pipe.chunks.flatten ++
        pipe.outgoing.flatten = pipe.forwarded := by
      simp [forwarded, hframes]
    refine ⟨?_, h.bounded, ?_, ?_⟩
    · rintro frame' hmem
      rw [List.append_assoc, List.singleton_append, ← hframes] at hmem
      exact h.own frame' hmem
    · rw [forwarded, hforwarded]
      exact h.first
    · rw [forwarded, hforwarded]
      exact h.all
  | foreign frame => exact absurd rfl (hown frame)
  | forwardStopped => exact ⟨h.own, h.bounded, h.first, by simp⟩
  | refuse | take | streamEnded | recvData | recvChunk | recvDone | recvRefused =>
    exact ⟨h.own, h.bounded, h.first, h.all⟩

/-- Nothing is carried at the start. -/
theorem JobPipe.carries_new (sender : JobContext) : JobPipe.new.Carries sender :=
  ⟨by simp [JobPipe.new], by simp [JobPipe.new], List.nil_prefix, by simp [JobPipe.new, forwarded]⟩

/-- What is delivered comes first among what is sent. -/
theorem JobPipe.Carries.received_prefix (h : pipe.Carries sender)
    (hdelivers : pipe.Delivers receiver) :
    pipe.received <+: pipe.sent := by
  obtain ⟨handled, ⟨rest, hrest⟩, -, -, hbytes⟩ := hdelivers
  refine List.IsPrefix.trans ?_ h.first
  rw [forwarded, ← hrest, payloads_append, ← hbytes]
  simp only [List.append_assoc]
  exact List.prefix_append _ _

/-! ## What is kept -/

/-- The tasks run, and everything sent is returned or on its way. -/
structure JobPipe.Keeps (context : JobContext) (pipe : JobPipe) : Prop where
  carries : pipe.Carries context
  delivers : pipe.Delivers context
  forwarding : pipe.forwarding = true
  accepting : pipe.accepting = true

/-- Nothing is lost while the tasks run. -/
theorem JobPipe.Keeps.received_append {context : JobContext} (h : pipe.Keeps context) :
    pipe.received ++ pipe.inFlight = pipe.sent := by
  obtain ⟨handled, -, -, hwire, hbytes⟩ := h.delivers
  rw [← h.carries.all h.forwarding, forwarded, hwire h.accepting, payloads_append, ← hbytes]
  simp only [inFlight, List.append_assoc]

/-- Steps without a fault keep everything. -/
theorem JobPipe.Keeps.step {context : JobContext} (h : pipe.Keeps context)
    (hstep : PipeStep context context pipe label pipe') (hown : ∀ frame, label ≠ .foreign frame)
    (hforwarding : label ≠ .forwardStopped) (haccepting : label ≠ .streamEnded) :
    pipe'.Keeps context := by
  refine ⟨h.carries.step hstep hown, h.delivers.step hstep, ?_, ?_⟩
  · cases hstep with
    | forwardStopped => exact absurd rfl hforwarding
    | _ => exact h.forwarding
  · cases hstep with
    | streamEnded => exact absurd rfl haccepting
    | refuse hnetwork hrunning hframe =>
      -- the head of the network is on the wire, so it is a frame of this context
      rename_i frame rest
      obtain ⟨handled, -, -, hwire, -⟩ := h.delivers
      obtain ⟨chunk, rfl, -⟩ := h.carries.own frame (by simp [hwire hrunning, hnetwork])
      rw [context.takes_frame] at hframe
      cases hframe
    | _ => exact h.accepting

/-! ## A waiting call can be finished -/

/-- The steps a queue of payloads still needs. -/
def queueWork : List (List UInt8) → ℕ
  | [] => 0
  | payload :: rest => 1 + 4 * (payloadChunks payload).length + queueWork rest

/-- The steps the bytes in flight still need to reach the receiving end's buffer. -/
def JobPipe.work (pipe : JobPipe) : ℕ :=
  (pipe.sending.elim 0 fun data => 2 + 4 * (payloadChunks data).length) + queueWork pipe.outgoing +
    4 * pipe.chunks.length + 3 * pipe.frames.length + 2 * pipe.network.length + pipe.incoming.length

/-- A call which waits for bytes in flight is not stuck: some move brings them nearer. -/
theorem JobPipe.Keeps.advance {context : JobContext} (h : pipe.Keeps context) {len : ℕ}
    (hreceiving : pipe.receiving = some len) (hshort : pipe.recvBuf.length < len)
    (henough : len ≤ pipe.inFlight.length) :
    ∃ label pipe', label.internal = true ∧ pipe.step context context label = some pipe' ∧
      pipe'.work < pipe.work ∧ pipe'.receiving = some len ∧ pipe'.sent = pipe.sent ∧
      pipe'.received = pipe.received := by
  have hforwarding := h.forwarding
  have haccepting := h.accepting
  -- the queue nearest to the receiving end which is not empty can move
  cases hincoming : pipe.incoming with
  | cons chunk rest =>
    have hstep : pipe.step context context .recvChunk =
        some { pipe with incoming := rest, recvBuf := pipe.recvBuf ++ chunk } := by
      simp [JobPipe.step, hreceiving, hincoming, hshort]
    exact ⟨_, _, rfl, hstep, by simp [work, hincoming], hreceiving, rfl, rfl⟩
  | nil =>
  cases hnetwork : pipe.network with
  | cons frame rest =>
    obtain ⟨handled, -, -, hwire, -⟩ := h.delivers
    obtain ⟨chunk, hframe, -⟩ := h.carries.own frame (by simp [hwire haccepting, hnetwork])
    have hstep : pipe.step context context .accept =
        some { pipe with network := rest, incoming := [frame.payload] } := by
      simp [JobPipe.step, hnetwork, haccepting, hframe, context.takes_frame, hincoming,
        jobQueueCapacity]
    refine ⟨_, _, rfl, hstep, ?_, hreceiving, rfl, rfl⟩
    simp only [work, hnetwork, hincoming, List.length_cons, List.length_nil]
    omega
  | nil =>
  cases hframes : pipe.frames with
  | cons frame rest =>
    have hstep : pipe.step context context .transmit =
        some { pipe with frames := rest, network := [frame], wire := pipe.wire ++ [frame] } := by
      simp [JobPipe.step, hframes, hnetwork]
    refine ⟨_, _, rfl, hstep, ?_, hreceiving, rfl, rfl⟩
    simp only [work, hframes, hnetwork, List.length_cons, List.length_nil]
    omega
  | nil =>
  cases hchunks : pipe.chunks with
  | cons chunk rest =>
    have hstep : pipe.step context context .forwardChunk =
        some { pipe with chunks := rest, frames := [context.frame chunk] } := by
      simp [JobPipe.step, hchunks, hforwarding, hframes, jobQueueCapacity]
    refine ⟨_, _, rfl, hstep, ?_, hreceiving, rfl, rfl⟩
    simp only [work, hchunks, hframes, List.length_cons, List.length_nil]
    omega
  | nil =>
  cases houtgoing : pipe.outgoing with
  | cons payload rest =>
    have hstep : pipe.step context context .forwardNext =
        some { pipe with outgoing := rest, chunks := payloadChunks payload } := by
      simp [JobPipe.step, houtgoing, hforwarding, hchunks]
    refine ⟨_, _, rfl, hstep, ?_, hreceiving, rfl, rfl⟩
    simp only [work, houtgoing, hchunks, queueWork, List.length_nil]
    omega
  | nil =>
  cases hsending : pipe.sending with
  | some data =>
    have hstep : pipe.step context context .sendQueued =
        some { pipe with sending := none, outgoing := [data] } := by
      simp [JobPipe.step, hsending, hforwarding, houtgoing, jobQueueCapacity]
    refine ⟨_, _, rfl, hstep, ?_, hreceiving, rfl, rfl⟩
    simp only [work, hsending, houtgoing, queueWork, Option.elim_some, Option.elim_none]
    omega
  | none =>
    simp [inFlight, hincoming, hnetwork, hframes, hchunks, houtgoing, hsending] at henough
    omega

/-- The tasks can finish a call which waits for bytes in flight, and it returns the next bytes. -/
theorem JobPipe.Keeps.finish {context : JobContext} {len : ℕ} (pipe : JobPipe)
    (h : pipe.Keeps context) (hreceiving : pipe.receiving = some len)
    (henough : len ≤ pipe.inFlight.length) :
    ∃ moves pipe', (∀ label ∈ moves, PipeLabel.internal label = true) ∧
      run (JobPipe.step context context) pipe moves = some pipe' ∧
      pipe'.received = pipe.sent.take (pipe.received.length + len) := by
  by_cases hbuffered : len ≤ pipe.recvBuf.length
  · have hstep : pipe.step context context .recvDone = some { pipe with
        receiving := none, recvBuf := pipe.recvBuf.drop len,
        fsRecv := absorb pipe.fsRecv (pipe.recvBuf.take len),
        received := pipe.received ++ pipe.recvBuf.take len } := by
      simp [JobPipe.step, hreceiving, hbuffered]
    refine ⟨[.recvDone], _, by simp [PipeLabel.internal], run_cons.mpr ⟨_, hstep, rfl⟩, ?_⟩
    rw [← h.received_append, List.take_length_add_append, inFlight]
    simp only [List.append_assoc]
    rw [List.take_append_of_le_length hbuffered]
  · obtain ⟨label, pipe', hinternal, hstep, hwork, hreceiving', hsent, hreceived⟩ :=
      h.advance hreceiving (not_le.mp hbuffered) henough
    have hkeeps : pipe'.Keeps context := by
      refine h.step (pipeStep_of_step hstep) ?_ ?_ ?_
      · rintro frame rfl
        cases hinternal
      · rintro rfl
        cases hinternal
      · rintro rfl
        cases hinternal
    have henough' : len ≤ pipe'.inFlight.length := by
      have hbefore := congrArg List.length h.received_append
      have hafter := congrArg List.length hkeeps.received_append
      rw [List.length_append, hsent, hreceived] at hafter
      rw [List.length_append] at hbefore
      omega
    obtain ⟨moves, last, hmoves, hrun, hlast⟩ := finish pipe' hkeeps hreceiving' henough'
    refine ⟨label :: moves, last, ?_, run_cons.mpr ⟨pipe', hstep, hrun⟩, ?_⟩
    · rintro label' hmem
      rcases List.mem_cons.mp hmem with rfl | hrest
      · exact hinternal
      · exact hmoves label' hrest
    · rw [hlast, hsent, hreceived]
termination_by pipe.work

/-! ## The transcripts -/

/-- A running hash has absorbed all bytes of its direction since the start. -/
structure JobPipe.Tracks (pipe : JobPipe) : Prop where
  send : ∀ absorbed, pipe.fsSend = some absorbed → absorbed = pipe.sent
  recv : ∀ absorbed, pipe.fsRecv = some absorbed → absorbed = pipe.received

/-- An absorbed byte string extends the one absorbed before. -/
theorem absorb_eq_some {hasher : Option (List UInt8)} {bytes absorbed : List UInt8}
    (h : absorb hasher bytes = some absorbed) :
    ∃ before, hasher = some before ∧ absorbed = before ++ bytes := by
  obtain ⟨before, hbefore, rfl⟩ := Option.map_eq_some_iff.mp h
  exact ⟨before, hbefore, rfl⟩

/-- Every step keeps the running hashes at what was sent and returned. -/
theorem JobPipe.Tracks.step (h : pipe.Tracks) (hstep : PipeStep sender receiver pipe label pipe') :
    pipe'.Tracks := by
  cases hstep with
  | sendData data hidle =>
    refine ⟨?_, h.recv⟩
    rintro absorbed habsorbed
    obtain ⟨before, hbefore, rfl⟩ := absorb_eq_some habsorbed
    rw [h.send before hbefore]
  | recvDone hreceiving henough =>
    refine ⟨h.send, ?_⟩
    rintro absorbed habsorbed
    obtain ⟨before, hbefore, rfl⟩ := absorb_eq_some habsorbed
    rw [h.recv before hbefore]
  | _ => exact ⟨h.send, h.recv⟩

/-- No step enables a transcript. -/
theorem PipeStep.isSome (hstep : PipeStep sender receiver pipe label pipe') :
    pipe'.fsSend.isSome = pipe.fsSend.isSome ∧ pipe'.fsRecv.isSome = pipe.fsRecv.isSome := by
  cases hstep <;> simp [absorb]

/-! ## Runs of a stream -/

@[simp] theorem JobSide.other_other (side : JobSide) : side.other.other = side := by
  cases side <;> rfl

/-- The other end is another end. -/
theorem JobSide.eq_other_of_ne {side direction : JobSide} (h : direction ≠ side) :
    direction = side.other := by
  cases side <;> cases direction <;> first | rfl | exact absurd rfl h

/-- A step of a stream is one of a direction, or concerns a transcript. -/
theorem jobStreamStep_cases {s t : JobStream} {label : JobStreamLabel} (h : s.step label = some t) :
    (∃ side move pipe', label = .pipe side move ∧
      PipeStep (s.context side) (s.context side.other) (s.pipe side) move pipe' ∧
      t = { s with pipe := Function.update s.pipe side pipe' }) ∨
    (∃ side sendFirst, label = .enableFs side sendFirst ∧ (t = s ∨
      s.enableFs side sendFirst = .ok t ∧ (s.pipe side).fsSend = none)) := by
  cases label with
  | pipe side move =>
    obtain ⟨pipe', hpipe, rfl⟩ := Option.map_eq_some_iff.mp h
    exact .inl ⟨side, move, pipe', rfl, pipeStep_of_step hpipe, rfl⟩
  | enableFs side sendFirst =>
    refine .inr ⟨side, sendFirst, rfl, ?_⟩
    obtain rfl := Option.some.inj h
    cases henabled : (s.pipe side).fsSend with
    | some absorbed =>
      left
      simp [JobStream.enableFs, henabled, Except.toOption]
    | none =>
      right
      simp [JobStream.enableFs, henabled, Except.toOption]

/-- What enabling a transcript leaves of a direction. -/
theorem enableFs_pipe {s t : JobStream} {side : JobSide} {sendFirst : Bool}
    (h : s.enableFs side sendFirst = .ok t) (direction : JobSide) :
    t.context = s.context ∧ ∃ fsSend fsRecv, t.pipe direction =
      { s.pipe direction with fsSend := fsSend, fsRecv := fsRecv } := by
  unfold JobStream.enableFs at h
  split at h
  · cases h
  · cases h
    refine ⟨rfl, ?_⟩
    by_cases hdirection : direction = side
    · exact ⟨some [], (s.pipe direction).fsRecv, by simp [hdirection]⟩
    · exact ⟨(s.pipe direction).fsSend, some [], by simp [hdirection]⟩

/-- What every allowed step of a direction keeps, and no transcript changes, every run keeps. -/
theorem pipe_invariant (allowed : PipeLabel → Prop) {context : JobContext} {P : JobPipe → Prop}
    {side : JobSide} {s t : JobStream} {labels : List JobStreamLabel}
    (hfs : ∀ pipe fsSend fsRecv, P pipe → P { pipe with fsSend := fsSend, fsRecv := fsRecv })
    (hstep : ∀ pipe move pipe', P pipe → allowed move → PipeStep context context pipe move pipe' →
      P pipe')
    (hcontext : ∀ direction, s.context direction = context) (hs : P (s.pipe side))
    (hrun : run JobStream.step s labels = some t)
    (hallowed : ∀ label ∈ labels, ∀ move, label = .pipe side move → allowed move) :
    (∀ direction, t.context direction = context) ∧ P (t.pipe side) := by
  have hone : ∀ (s : JobStream) label t,
      ((∀ direction, s.context direction = context) ∧ P (s.pipe side)) →
      (∀ move, label = .pipe side move → allowed move) → s.step label = some t →
      (∀ direction, t.context direction = context) ∧ P (t.pipe side) := by
    rintro s label t ⟨hcontext, hs⟩ hlabel h
    rcases jobStreamStep_cases h with ⟨side', move, pipe', rfl, hpipe, rfl⟩ | ⟨side', _, -, hend⟩
    · refine ⟨hcontext, ?_⟩
      rw [hcontext, hcontext] at hpipe
      by_cases hside : side = side'
      · subst hside
        simpa using hstep _ _ _ hs (hlabel move rfl) hpipe
      · simpa [Function.update_of_ne hside] using hs
    · rcases hend with rfl | ⟨hok, -⟩
      · exact ⟨hcontext, hs⟩
      · obtain ⟨hkept, fsSend, fsRecv, hpipe⟩ := enableFs_pipe hok side
        rw [hkept, hpipe]
        exact ⟨hcontext, hfs _ _ _ hs⟩
  exact Runs.invariant hone ⟨hcontext, hs⟩ hrun (Along.of_mem hallowed s)

/-- The transcripts of a stream follow its bytes, and are enabled at both halves of an end. -/
def JobStream.Tracks (s : JobStream) : Prop :=
  ∀ side, (s.pipe side).Tracks ∧ (s.pipe side).fsSend.isSome = (s.pipe side.other).fsRecv.isSome

/-- A step which enables no transcript late keeps the transcripts. -/
theorem JobStream.Tracks.step {s t : JobStream} {label : JobStreamLabel} (h : s.Tracks)
    (hfirst : EnabledFirst s label) (hstep : s.step label = some t) : t.Tracks := by
  rcases jobStreamStep_cases hstep with ⟨side, move, pipe', rfl, hpipe, rfl⟩ |
    ⟨side, sendFirst, rfl, hend⟩
  · obtain ⟨hsend, hrecv⟩ := hpipe.isSome
    rintro direction
    obtain ⟨htracks, henabled⟩ := h direction
    by_cases hdirection : direction = side
    · subst hdirection
      have hother : direction.other ≠ direction := by cases direction <;> simp [JobSide.other]
      refine ⟨by simpa using htracks.step hpipe, ?_⟩
      simpa [Function.update_of_ne hother, hsend] using henabled
    · obtain rfl := JobSide.eq_other_of_ne hdirection
      refine ⟨by simpa [Function.update_of_ne hdirection] using htracks, ?_⟩
      simpa [Function.update_of_ne hdirection, hrecv] using henabled
  · rcases hend with rfl | ⟨hok, hnone⟩
    · exact h
    obtain ⟨hsent, hreceived⟩ := hfirst side sendFirst rfl
    simp only [JobStream.enableFs, hnone, Option.isSome_none, Bool.false_eq_true, if_false] at hok
    cases hok
    rintro direction
    obtain ⟨htracks, henabled⟩ := h direction
    by_cases hdirection : direction = side
    · subst hdirection
      have hother : direction.other ≠ direction := by cases direction <;> simp [JobSide.other]
      simp only [if_true, if_neg hother, Option.isSome_some, and_true]
      exact ⟨fun absorbed habsorbed => by rw [hsent, Option.some.inj habsorbed], htracks.recv⟩
    · obtain rfl := JobSide.eq_other_of_ne hdirection
      simp only [if_neg hdirection, JobSide.other_other, if_true]
      refine ⟨⟨htracks.send,
        fun absorbed habsorbed => by rw [hreceived, Option.some.inj habsorbed]⟩, ?_⟩
      simpa using henabled

/-- The moves of one direction lift to the stream. -/
theorem run_pipe {side : JobSide} {s : JobStream} {moves : List PipeLabel} {pipe' : JobPipe}
    (h : run (JobPipe.step (s.context side) (s.context side.other))
      (s.pipe side) moves = some pipe') :
    run JobStream.step s (moves.map (.pipe side)) =
      some { s with pipe := Function.update s.pipe side pipe' } := by
  induction moves generalizing s with
  | nil =>
    obtain rfl := Option.some.inj h
    rw [Function.update_eq_self]
    rfl
  | cons move rest ih =>
    obtain ⟨mid, hmid, hrest⟩ := run_cons.mp h
    rw [List.map_cons]
    refine run_cons.mpr ⟨{ s with pipe := Function.update s.pipe side mid }, ?_, ?_⟩
    · simp [JobStream.step, hmid]
    · simpa using ih (s := { s with pipe := Function.update s.pipe side mid })
        (by simpa using hrest)

/-- What holds of a direction after a run. What is returned is from frames before the first one
whose start flag, job id, channel or context is not the receiving end's. Without foreign frames it
is the first of what was sent, in frames of the allowed size. Without faults the rest is on its way,
and the tasks can finish a call which waits for it. -/
structure FaithfulDirection (labels : List JobStreamLabel) (t : JobStream) (side : JobSide) :
    Prop where
  taken : (t.pipe side).received <+:
    payloads ((t.pipe side).wire.takeWhile (t.context side.other).takes)
  inOrder : (∀ label ∈ labels, label.foreignOn side = false) →
    (t.pipe side).received <+: (t.pipe side).sent ∧
      ∀ frame ∈ (t.pipe side).wire, frame.payload.length ≤ jobstreamPayloadChunkBytes
  complete : (∀ label ∈ labels, label.faultOn side = false) →
    (t.pipe side).received ++ (t.pipe side).inFlight = (t.pipe side).sent ∧
      ∀ len, (t.pipe side).receiving = some len → len ≤ (t.pipe side).inFlight.length →
        ∃ (moves : List PipeLabel) (t' : JobStream), (∀ move ∈ moves, move.internal = true) ∧
          run JobStream.step t (moves.map (.pipe side)) = some t' ∧
          (t'.pipe side).received = (t.pipe side).sent.take ((t.pipe side).received.length + len)

section Opened

variable {descriptor : GrpcJobDescriptor} {channel : ℕ} {s t : JobStream}
  {labels : List JobStreamLabel} (hopen : openJobStream descriptor channel = .ok s)
  (hrun : run JobStream.step s labels = some t)
include hopen hrun

/-- Whatever happens, both ends keep the opener's context and deliver its frames. -/
theorem run_delivers (side : JobSide) :
    (∀ direction, t.context direction = ⟨descriptor, channel⟩) ∧
      (t.pipe side).Delivers ⟨descriptor, channel⟩ := by
  obtain ⟨hcontext, hpipe⟩ := openJobStream_ok hopen
  refine pipe_invariant (fun _ => True) (P := JobPipe.Delivers ⟨descriptor, channel⟩)
    (fun _ _ _ h => h) (fun _ _ _ h _ hstep => h.step hstep) hcontext ?_ hrun (by simp)
  rw [hpipe]
  exact JobPipe.delivers_new _

/-- Without foreign frames a direction carries what is sent. -/
theorem run_carries (side : JobSide) (hown : ∀ label ∈ labels, label.foreignOn side = false) :
    (t.pipe side).Carries ⟨descriptor, channel⟩ := by
  obtain ⟨hcontext, hpipe⟩ := openJobStream_ok hopen
  refine (pipe_invariant (fun move => ∀ frame, move ≠ .foreign frame)
    (P := JobPipe.Carries ⟨descriptor, channel⟩) (fun _ _ _ h => ⟨h.own, h.bounded, h.first, h.all⟩)
    (fun _ _ _ h hmove hstep => h.step hstep hmove) hcontext ?_ hrun ?_).2
  · rw [hpipe]
    exact JobPipe.carries_new _
  · rintro label hmem move rfl frame rfl
    simpa [JobStreamLabel.foreignOn] using hown _ hmem

/-- Without faults a direction keeps what is sent. -/
theorem run_keeps (side : JobSide) (hown : ∀ label ∈ labels, label.faultOn side = false) :
    (t.pipe side).Keeps ⟨descriptor, channel⟩ := by
  obtain ⟨hcontext, hpipe⟩ := openJobStream_ok hopen
  refine (pipe_invariant
    (fun move => (∀ frame, move ≠ .foreign frame) ∧ move ≠ .forwardStopped ∧ move ≠ .streamEnded)
    (P := JobPipe.Keeps ⟨descriptor, channel⟩)
    (fun _ _ _ h => ⟨⟨h.carries.own, h.carries.bounded, h.carries.first, h.carries.all⟩, h.delivers,
      h.forwarding, h.accepting⟩)
    (fun _ _ _ h hmove hstep => h.step hstep hmove.1 hmove.2.1 hmove.2.2) hcontext ?_ hrun ?_).2
  · rw [hpipe]
    exact ⟨JobPipe.carries_new _, JobPipe.delivers_new _, rfl, rfl⟩
  · rintro label hmem move rfl
    have hlabel := hown _ hmem
    refine ⟨?_, ?_, ?_⟩
    · rintro frame rfl
      simp [JobStreamLabel.faultOn] at hlabel
    · rintro rfl
      simp [JobStreamLabel.faultOn] at hlabel
    · rintro rfl
      simp [JobStreamLabel.faultOn] at hlabel

/-- Each direction is faithful. -/
theorem run_faithfulDirection (side : JobSide) : FaithfulDirection labels t side := by
  obtain ⟨hcontext, hdelivers⟩ := run_delivers hopen hrun side
  refine ⟨?_, ?_, ?_⟩
  · rw [hcontext]
    exact hdelivers.received_prefix
  · rintro hown
    have hcarries := run_carries hopen hrun side hown
    refine ⟨hcarries.received_prefix hdelivers, ?_⟩
    rintro frame hframe
    obtain ⟨chunk, rfl, hlength⟩ := hcarries.own frame (List.mem_append_left _ hframe)
    exact hlength
  · rintro hown
    have hkeeps := run_keeps hopen hrun side hown
    refine ⟨hkeeps.received_append, ?_⟩
    rintro len hreceiving henough
    obtain ⟨moves, pipe', hmoves, hpipe, hreceived⟩ := hkeeps.finish _ hreceiving henough
    refine ⟨moves, _, hmoves, run_pipe (by rwa [hcontext, hcontext]), ?_⟩
    simpa using hreceived

/-- Transcripts enabled in time follow the bytes. -/
theorem run_tracks (hfirst : Along JobStream.step EnabledFirst s labels) : t.Tracks := by
  refine Runs.invariant (fun _ _ _ h hfirst hstep => h.step hfirst hstep) ?_ hrun hfirst
  obtain ⟨-, hpipe⟩ := openJobStream_ok hopen
  rintro side
  rw [hpipe]
  exact ⟨⟨by simp [JobPipe.new], by simp [JobPipe.new]⟩, rfl⟩

end Opened

/-- In every run each direction is faithful, and transcripts which are enabled in opposite orders
before any byte have one digest once all sent bytes are returned. -/
theorem jobStream_faithful (sha256 : List UInt8 → Value32) {descriptor : GrpcJobDescriptor}
    {channel : ℕ} {s t : JobStream} {labels : List JobStreamLabel}
    (hopen : openJobStream descriptor channel = .ok s)
    (hrun : run JobStream.step s labels = some t) :
    (∀ side, FaithfulDirection labels t side) ∧
    (Along JobStream.step EnabledFirst s labels → (∀ side, (t.pipe side).fsSend.isSome) →
      t.fsSendFirst .opener ≠ t.fsSendFirst .acceptor →
      (∀ side, (t.pipe side).received = (t.pipe side).sent) →
      ∃ digest, ∀ side, t.getDigest sha256 side = .ok digest) := by
  refine ⟨run_faithfulDirection hopen hrun, ?_⟩
  rintro hfirst henabled horder hall
  have htracks := run_tracks hopen hrun hfirst
  have hsend : ∀ side, (t.pipe side).fsSend = some (t.pipe side).sent := by
    rintro side
    obtain ⟨absorbed, habsorbed⟩ := Option.isSome_iff_exists.mp (henabled side)
    rw [habsorbed, (htracks side).1.send absorbed habsorbed]
  have hrecv : ∀ side, (t.pipe side).fsRecv = some (t.pipe side).sent := by
    rintro side
    have hsome := (htracks side.other).2
    rw [JobSide.other_other] at hsome
    obtain ⟨absorbed, habsorbed⟩ := Option.isSome_iff_exists.mp (hsome ▸ henabled side.other)
    rw [habsorbed, (htracks side).1.recv absorbed habsorbed, hall]
  have hopposite : t.fsSendFirst .acceptor = !t.fsSendFirst .opener := by
    cases hopener : t.fsSendFirst .opener <;> cases hacceptor : t.fsSendFirst .acceptor <;> simp_all
  have hagree : t.getDigest sha256 .opener = t.getDigest sha256 .acceptor := by
    simp only [JobStream.getDigest, hsend, hrecv, hopposite]
    exact getDigest_agree sha256 _ _ _
  obtain ⟨digest, hdigest⟩ := getDigest_ok sha256 (t.fsSendFirst .opener) (t.pipe .opener).sent
    (t.pipe .acceptor).sent
  have hopener : t.getDigest sha256 .opener = .ok digest := by
    rw [JobStream.getDigest, hsend, hrecv]
    exact hdigest
  refine ⟨digest, ?_⟩
  rintro (_ | _)
  · exact hopener
  · rw [← hagree, hopener]

/-- Transcripts at both ends, three bytes sent by the opener, two awaited by the acceptor. -/
def threeBytes : List JobStreamLabel :=
  [.enableFs .opener true, .enableFs .acceptor false, .pipe .opener (.sendData [1, 2, 3]),
    .pipe .opener .sendQueued, .pipe .opener (.recvData 2)]

/-- The three bytes are on their way and the tasks can return the two. -/
theorem jobStream_faithful_bytes :
    ∃ s t, openJobStream ⟨"job", 7, 9, 40, 40, 1, .ofList []⟩ 1 = .ok s ∧
      run JobStream.step s threeBytes = some t ∧ ∀ side, FaithfulDirection threeBytes t side := by
  have hruns : ((openJobStream ⟨"job", 7, 9, 40, 40, 1, .ofList []⟩ 1).toOption.bind fun s =>
      run JobStream.step s threeBytes).isSome = true := by decide +kernel
  obtain ⟨t, ht⟩ := Option.isSome_iff_exists.mp hruns
  obtain ⟨s, hs, hrun⟩ := Option.bind_eq_some_iff.mp ht
  have hopen : openJobStream ⟨"job", 7, 9, 40, 40, 1, .ofList []⟩ 1 = .ok s := by
    cases hresult : openJobStream ⟨"job", 7, 9, 40, 40, 1, .ofList []⟩ 1 with
    | error e =>
      rw [hresult] at hs
      cases hs
    | ok s' =>
      rw [hresult] at hs
      rw [Option.some.inj hs]
  exact ⟨s, t, hopen, hrun, (jobStream_faithful .ofList hopen hrun).1⟩

end Shachain2pc
