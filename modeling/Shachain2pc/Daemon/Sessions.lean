import Shachain2pc.Daemon.Jobs

/-!
# Opening precompute sessions

Alice opens a session for a channel under a job id which holds the channel and a counter of
her process. Bob keeps the first of a session's two streams under that id until the second
arrives; the streams of one descriptor make a session, which checks the descriptor against
the channel.
-/

namespace Shachain2pc

/-- `u64::BITS - leading_zeros`: the number of binary digits. -/
def bitLength (value : ℕ) : ℕ := Nat.log2 value + if value = 0 then 0 else 1

/-- `ssp_effective`; the sum is a `u32`. -/
def sspEffective (sspTarget cap : ℕ) : ℕ :=
  (sspTarget + if cap ≤ 1 then 0 else bitLength (cap - 1)) % 2 ^ 32

/-- `job_digest`. -/
def jobDigest (sha256 : List UInt8 → Value32) (channelIndex : ℕ) (kind : String)
    (parentMask childMask ssp : ℕ) : Value32 :=
  sha256 (asciiBytes "shachain2pc daemon one-H job v1" ++ leBytes 8 channelIndex ++
    asciiBytes kind ++
    leBytes 8 parentMask ++ leBytes 8 childMask ++ leBytes 4 ssp ++ leBytes 4 protocolVersion)

/-- The critical section of `precompute_session_handle`, with the descriptor made from it. -/
def precomputeSessionDescriptor (sha256 : List UInt8 → Value32) (inner : Inner) (channelIndex : ℕ)
    (peer : PeerFrontierConfig) : Except DaemonError (Inner × GrpcJobDescriptor) :=
  match inner.db.channels[channelIndex]? with
  | none => .error (.notFound "channel is not enabled")
  | some channel =>
    if ¬ channel.enabled then .error (.refused "channel is disabled")
    else if peer.sspTarget ≠ channel.sspTarget ∨
        peer.deltaLifetimeCheckedUnitsCap ≠ channel.deltaLifetimeCheckedUnitsCap then
      .error (.refused "peer channel security parameters do not match")
    else
      let nextJobId := saturatingAdd inner.nextJobId 1
      let ssp := sspEffective channel.sspTarget channel.deltaLifetimeCheckedUnitsCap
      .ok ({ inner with nextJobId := nextJobId },
        { jobId := s!"precompute-session-{channelIndex}-{nextJobId}"
          channelIndex := channelIndex
          targetIndex := 0
          ssp := ssp
          sspTarget := channel.sspTarget
          deltaLifetimeCheckedUnitsCap := channel.deltaLifetimeCheckedUnitsCap
          digest := jobDigest sha256 channelIndex "precompute-session" 0 0 ssp })

/-- `begin_incoming_precompute_session`, without the keys it derives. -/
def beginIncomingPrecomputeSession (sha256 : List UInt8 → Value32) (inner : Inner)
    (descriptor : GrpcJobDescriptor) : Except DaemonError Unit :=
  match inner.db.channels[descriptor.channelIndex]? with
  | none => .error (.notFound "channel is not enabled")
  | some channel =>
    if ¬ channel.enabled then .error (.refused "channel is disabled")
    else if descriptor.sspTarget ≠ channel.sspTarget ∨
        descriptor.deltaLifetimeCheckedUnitsCap ≠ channel.deltaLifetimeCheckedUnitsCap then
      .error (.refused "incoming JobStream security parameters do not match")
    else if descriptor.ssp ≠
      sspEffective channel.sspTarget channel.deltaLifetimeCheckedUnitsCap then
      .error (.refused "incoming JobStream uses the wrong security parameter")
    else if descriptor.digest ≠
        jobDigest sha256 descriptor.channelIndex "precompute-session" 0 0 descriptor.ssp then
      .error (.refused "incoming JobStream digest does not match local job")
    else if descriptor.targetIndex ≠ 0 then
      .error (.refused "incoming precompute session must use target index 0")
    else .ok ()

/-- A session whose streams have not all arrived. -/
structure PendingGrpcJob (Stream : Type) where
  descriptor : GrpcJobDescriptor
  main : Option Stream
  sibling : Option Stream
  deriving DecidableEq, Repr

/-- Both streams of a session. -/
structure ReadyJob (Stream : Type) where
  descriptor : GrpcJobDescriptor
  main : Stream
  sibling : Stream
  deriving DecidableEq, Repr

/-- `grpc_jobs`. -/
abbrev GrpcJobs (Stream : Type) := String → Option (PendingGrpcJob Stream)

/-- The streams of a job which has both. -/
def PendingGrpcJob.ready? {Stream : Type} (job : PendingGrpcJob Stream) :
    Option (ReadyJob Stream) :=
  match job.main, job.sibling with
  | some main, some sibling => some ⟨job.descriptor, main, sibling⟩
  | _, _ => none

/-- Store a job, or take it out when it has both streams. -/
def GrpcJobs.put {Stream : Type} (jobs : GrpcJobs Stream) (job : PendingGrpcJob Stream) :
    GrpcJobs Stream × Except DaemonError (Option (ReadyJob Stream)) :=
  (Function.update jobs job.descriptor.jobId (if job.ready?.isSome then none else some job),
    .ok job.ready?)

/-- `register_incoming_job_stream` up to the start of a session: the jobs it leaves, and the job
which has both streams. -/
def GrpcJobs.register {Stream : Type} (jobs : GrpcJobs Stream) (descriptor : GrpcJobDescriptor)
    (channel : ℕ) (stream : Stream) :
    GrpcJobs Stream × Except DaemonError (Option (ReadyJob Stream)) :=
  let entry := (jobs descriptor.jobId).getD ⟨descriptor, none, none⟩
  let jobs : GrpcJobs Stream := Function.update jobs descriptor.jobId (some entry)
  if entry.descriptor ≠ descriptor then
    (jobs, .error (.tonicStatus .invalidArgument "JobStream descriptor mismatch"))
  else match channel with
    | 1 =>
      if entry.main.isSome then
        (jobs, .error (.tonicStatus .alreadyExists "duplicate JobStream channel"))
      else jobs.put { entry with main := some stream }
    | 2 =>
      if entry.sibling.isSome then
        (jobs, .error (.tonicStatus .alreadyExists "duplicate JobStream channel"))
      else jobs.put { entry with sibling := some stream }
    | _ => (jobs, .error (.tonicStatus .invalidArgument "JobStream channel must be 1 or 2"))

end Shachain2pc
