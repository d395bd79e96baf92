import Shachain2pc.Daemon.Channels

/-!
# Precompute jobs

A precompute target is begun under the lock, which reserves its checked units and inserts a
job record, runs without the lock, and is finished under it: the node is stored and the
record removed, or only the failure is counted. The scheduler's side and the side that
answers a peer's session begin targets with different checks.

The worker count is read in a critical section of its own before the one that uses it.
-/

namespace Shachain2pc

open Std

/-- The descriptor that both streams of a session carry. -/
structure GrpcJobDescriptor where
  jobId : String
  channelIndex : ℕ
  targetIndex : ℕ
  ssp : ℕ
  sspTarget : ℕ
  deltaLifetimeCheckedUnitsCap : ℕ
  digest : Value32
  deriving DecidableEq, Repr

structure PeerFrontierConfig where
  channelEnabled : Bool
  precompute : ℕ
  workers : ℕ
  effectiveWorkers : ℕ
  sspTarget : ℕ
  deltaLifetimeCheckedUnitsCap : ℕ
  deriving DecidableEq, Repr

structure PrecomputeJob where
  jobId : String
  plannedCheckedUnits : ℕ
  deriving DecidableEq, Repr

inductive PrecomputeStart where
  | alreadyStored
  | run (job : PrecomputeJob)
  deriving DecidableEq, Repr

/-- The channel after a target is begun: its units count as attempted. -/
def ChannelRecord.attempt (channel : ChannelRecord) (plannedCheckedUnits : ℕ) : ChannelRecord :=
  { channel with
    attemptedCheckedUnits := saturatingAdd channel.attemptedCheckedUnits plannedCheckedUnits }

/-- The memory after a target is begun under a job id. -/
def Inner.beginJob (inner : Inner) (jobId : String) (channelIndex : ℕ) (channel : ChannelRecord)
    (index : Index48) (plannedCheckedUnits : ℕ) : Inner :=
  { inner with
    db := inner.db.setChannel channelIndex (channel.attempt plannedCheckedUnits)
    activeJobs := inner.activeJobs.insert jobId
      { channelIndex := channelIndex
        kind := "precompute"
        state := s!"grpc target={index.get}"
        plannedCheckedUnits := plannedCheckedUnits } }

/-- The units a channel would have used with a further target. -/
def Inner.used (inner : Inner) (channelIndex : ℕ) (channel : ChannelRecord)
    (plannedCheckedUnits : ℕ) : ℕ :=
  saturatingAdd (saturatingAdd channel.estimatedCheckedUnits (inner.reserved channelIndex))
    plannedCheckedUnits

/-- `begin_precompute_jobstream`, up to the release of the lock. -/
def beginPrecomputeJobstream (sha256 : List UInt8 → Value32) (inner : Inner) (channelIndex : ℕ)
    (index : Index48) (peer : PeerFrontierConfig) (plannedCheckedUnits effectiveWorkers : ℕ) :
    Except DaemonError (Inner × List Mutation × PrecomputeStart) :=
  match inner.db.channels[channelIndex]? with
  | none => .error (.notFound "channel is not enabled")
  | some channel =>
    let workerCount := min effectiveWorkers (min peer.effectiveWorkers (max peer.workers 1))
    let used := inner.used channelIndex channel plannedCheckedUnits
    if ¬ channel.enabled then .error (.refused "channel is disabled")
    else if channel.frontierNodes[index.get]?.any fun record =>
        record.BoundBy (channel.bindings sha256 inner.cfg.role channelIndex index.get) then
      .ok (inner, [], .alreadyStored)
    else if inner.hasActiveJob channelIndex then
      .error (.refused "channel already has an active precompute job")
    else if workerCount = 0 then
      .error (.refused "no shared precompute worker is available")
    else if workerCount ≤ inner.activeJobs.size then
      .error (.refused "all shared precompute workers are busy")
    else if channel.deltaLifetimeCheckedUnitsCap < used then
      .error (.refused (s!"precompute would exceed Delta lifetime checked-unit cap: estimated=" ++
        s!"{channel.estimatedCheckedUnits} reserved={inner.reserved channelIndex} " ++
        s!"requested={plannedCheckedUnits} cap={channel.deltaLifetimeCheckedUnitsCap}"))
    else
      let nextJobId := saturatingAdd inner.nextJobId 1
      let jobId := s!"precompute-{channelIndex}-{nextJobId}"
      .ok ({ inner.beginJob jobId channelIndex channel index plannedCheckedUnits with
          nextJobId := nextJobId },
        [upsertChannelMutation channelIndex (channel.attempt plannedCheckedUnits)],
        .run ⟨jobId, plannedCheckedUnits⟩)

/-- The key of the job record of an incoming target. -/
def incomingJobId (descriptor : GrpcJobDescriptor) (index : Index48) : String :=
  s!"{descriptor.jobId}-target-{index.get}"

/-- `begin_incoming_precompute_target`, up to the release of the lock. -/
def beginIncomingPrecomputeTarget (inner : Inner) (descriptor : GrpcJobDescriptor)
    (index : Index48) (plannedCheckedUnits effectiveWorkers : ℕ) :
    Except DaemonError (Inner × List Mutation × String) :=
  match inner.db.channels[descriptor.channelIndex]? with
  | none => .error (.notFound "channel is not enabled")
  | some channel =>
    let used := inner.used descriptor.channelIndex channel plannedCheckedUnits
    if ¬ channel.enabled then .error (.refused "channel is disabled")
    else if descriptor.sspTarget ≠ channel.sspTarget ∨
        descriptor.deltaLifetimeCheckedUnitsCap ≠ channel.deltaLifetimeCheckedUnitsCap then
      .error (.refused "incoming JobStream security parameters do not match")
    else if effectiveWorkers ≤ inner.activeJobs.size then
      .error (.refused "all local precompute workers are busy")
    else if inner.hasActiveJob descriptor.channelIndex then
      .error (.refused "channel already has an active precompute job")
    else if channel.deltaLifetimeCheckedUnitsCap < used then
      .error (.refused "incoming JobStream would exceed Delta lifetime checked-unit cap")
    else
      let jobId := incomingJobId descriptor index
      .ok (inner.beginJob jobId descriptor.channelIndex channel index plannedCheckedUnits,
        [upsertChannelMutation descriptor.channelIndex (channel.attempt plannedCheckedUnits)],
        jobId)

/-- `store_precomputed_target_wires_and_finish_job`, up to the release of the lock. -/
def storePrecomputedTargetWiresAndFinishJob (sha256 : List UInt8 → Value32) (inner : Inner)
    (channelIndex : ℕ) (jobId : String) (plannedCheckedUnits targetMask : ℕ)
    (wires : Ag2pcSecureWires) : Except DaemonError (Inner × List Mutation) := do
  let bindings ← bindingPair sha256 inner channelIndex targetMask
  match inner.db.channels[channelIndex]? with
  | none => .error (.notFound "channel is not enabled")
  | some channel =>
    if ¬ channel.enabled then .error (.refused "channel is disabled")
    else
      let record := WireRecord.ofWires bindings wires
      let channel' := { channel with
        frontierNodes := channel.frontierNodes.insert targetMask record
        estimatedCheckedUnits := saturatingAdd channel.estimatedCheckedUnits plannedCheckedUnits }
      .ok ({ inner with
          db := inner.db.setChannel channelIndex channel'
          activeJobs := inner.activeJobs.erase jobId },
        [upsertFrontierMutation channelIndex targetMask record,
          upsertChannelMutation channelIndex channel'])

/-- `finish_job`, up to the release of the lock. -/
def finishJob (inner : Inner) (jobId : String) (failed : Bool) : Inner × List Mutation :=
  match inner.activeJobs[jobId]? with
  | none => (inner, [])
  | some job =>
    let inner := { inner with activeJobs := inner.activeJobs.erase jobId }
    match inner.db.channels[job.channelIndex]? with
    | none => (inner, [])
    | some channel =>
      if failed then
        let channel' := { channel with
          failedPrecomputeJobs := saturatingAdd channel.failedPrecomputeJobs 1 }
        (inner.setChannel job.channelIndex channel',
          [upsertChannelMutation job.channelIndex channel'])
      else (inner, [])

variable {sha256 : List UInt8 → Value32} {inner inner' : Inner} {c : ℕ} {mutations : List Mutation}

/-- Beginning a target is mirrored by the upsert of its channel. -/
theorem beginJob_mirrors {channel : ChannelRecord} (hc : inner.db.channels[c]? = some channel)
    (jobId : String) (index : Index48) (plannedCheckedUnits : ℕ) :
    applyMutations inner.db.record [upsertChannelMutation c (channel.attempt plannedCheckedUnits)] =
      (inner.beginJob jobId c channel index plannedCheckedUnits).db.record := by
  apply applyMutations_scalars <;> simp [PlainDb.channelOrEmpty, hc, ChannelRecord.attempt]

/-- What `begin_precompute_jobstream` can do: find the node stored, or begin a job. -/
theorem beginPrecomputeJobstream_cases {index : Index48} {peer : PeerFrontierConfig}
    {plannedCheckedUnits effectiveWorkers : ℕ} {start : PrecomputeStart}
    (h : beginPrecomputeJobstream sha256 inner c index peer plannedCheckedUnits effectiveWorkers =
      .ok (inner', mutations, start)) :
    (inner' = inner ∧ mutations = [] ∧ start = .alreadyStored) ∨
    ∃ channel job, inner.db.channels[c]? = some channel ∧ inner.hasActiveJob c = false ∧
      start = .run job ∧ job.plannedCheckedUnits = plannedCheckedUnits ∧
      mutations = [upsertChannelMutation c (channel.attempt plannedCheckedUnits)] ∧
      inner' = { inner.beginJob job.jobId c channel index plannedCheckedUnits with
        nextJobId := saturatingAdd inner.nextJobId 1 } := by
  unfold beginPrecomputeJobstream at h
  split at h
  · cases h
  · next channel hc =>
    simp only at h
    repeat' split at h
    all_goals cases h
    · exact .inl ⟨rfl, rfl, rfl⟩
    · next hjob _ _ _ =>
      exact .inr ⟨channel, _, hc, by simpa using hjob, rfl, rfl, rfl, rfl⟩

/-- Beginning a target of the scheduler is mirrored by its mutations. -/
theorem beginPrecomputeJobstream_mirrors {index : Index48} {peer : PeerFrontierConfig}
    {plannedCheckedUnits effectiveWorkers : ℕ} {start : PrecomputeStart}
    (h : beginPrecomputeJobstream sha256 inner c index peer plannedCheckedUnits effectiveWorkers =
      .ok (inner', mutations, start)) :
    applyMutations inner.db.record mutations = inner'.db.record := by
  obtain ⟨rfl, rfl, -⟩ | ⟨channel, job, hc, -, -, -, rfl, rfl⟩ := beginPrecomputeJobstream_cases h
  · rfl
  · exact beginJob_mirrors hc job.jobId index plannedCheckedUnits

/-- What a successful `begin_incoming_precompute_target` does. -/
theorem beginIncomingPrecomputeTarget_ok {descriptor : GrpcJobDescriptor} {index : Index48}
    {plannedCheckedUnits effectiveWorkers : ℕ} {jobId : String}
    (h : beginIncomingPrecomputeTarget inner descriptor index plannedCheckedUnits
      effectiveWorkers = .ok (inner', mutations, jobId)) :
    ∃ channel, inner.db.channels[descriptor.channelIndex]? = some channel ∧
      channel.enabled = true ∧ inner.activeJobs.size < effectiveWorkers ∧
      inner.hasActiveJob descriptor.channelIndex = false ∧
      jobId = incomingJobId descriptor index ∧
      mutations = [upsertChannelMutation descriptor.channelIndex
        (channel.attempt plannedCheckedUnits)] ∧
      inner' = inner.beginJob jobId descriptor.channelIndex channel index plannedCheckedUnits := by
  unfold beginIncomingPrecomputeTarget at h
  split at h
  · cases h
  · next channel hc =>
    simp only at h
    repeat' split at h
    all_goals cases h
    next henabled _ hbusy hjob _ =>
      exact ⟨channel, hc, by simpa using henabled, by omega, by simpa using hjob, rfl, rfl, rfl⟩

/-- Beginning a target of a peer's session is mirrored by its mutations. -/
theorem beginIncomingPrecomputeTarget_mirrors {descriptor : GrpcJobDescriptor} {index : Index48}
    {plannedCheckedUnits effectiveWorkers : ℕ} {jobId : String}
    (h : beginIncomingPrecomputeTarget inner descriptor index plannedCheckedUnits
      effectiveWorkers = .ok (inner', mutations, jobId)) :
    applyMutations inner.db.record mutations = inner'.db.record := by
  obtain ⟨channel, hc, -, -, -, rfl, rfl, rfl⟩ := beginIncomingPrecomputeTarget_ok h
  exact beginJob_mirrors hc _ index plannedCheckedUnits

/-- Storing a precomputed node is mirrored by its mutations. -/
theorem storePrecomputedTargetWiresAndFinishJob_mirrors {jobId : String}
    {plannedCheckedUnits targetMask : ℕ} {wires : Ag2pcSecureWires}
    (h : storePrecomputedTargetWiresAndFinishJob sha256 inner c jobId plannedCheckedUnits
      targetMask wires = .ok (inner', mutations)) :
    applyMutations inner.db.record mutations = inner'.db.record := by
  unfold storePrecomputedTargetWiresAndFinishJob at h
  cases hc : inner.db.channels[c]? with
  | none => simp [bindingPair, hc, bind, Except.bind] at h
  | some channel =>
    simp only [bindingPair_of_channel hc, hc, bind, Except.bind] at h
    split at h
    · cases h
    · cases h
      rw [← List.singleton_append]
      refine applyMutations_entries_channel (by simp [Mutation.WritesEntry, upsertFrontierMutation,
        Mutation.key, LogicalKey.frontier]) (fun i => ?_) fun m => ?_
      · simp [upsertFrontierMutation, hc, channelTable, ChannelRecord.record, LogicalKey.secret,
          LogicalKey.frontier]
      · by_cases hm : m = targetMask
        · simp [upsertFrontierMutation, ChannelRecord.record, LogicalKey.frontier, hm]
        · simp [upsertFrontierMutation, hc, channelTable, ChannelRecord.record,
            LogicalKey.frontier, hm, ExtTreeMap.getElem?_insert, Ne.symm hm]

/-- Finishing a job is mirrored by its mutations. -/
theorem finishJob_mirrors (inner : Inner) (jobId : String) (failed : Bool) :
    applyMutations inner.db.record (finishJob inner jobId failed).2 =
      (finishJob inner jobId failed).1.db.record := by
  unfold finishJob
  split
  · rfl
  · simp only
    split
    · rfl
    · next channel hc =>
      split
      · apply applyMutations_scalars <;> simp [PlainDb.channelOrEmpty, hc]
      · rfl

end Shachain2pc
