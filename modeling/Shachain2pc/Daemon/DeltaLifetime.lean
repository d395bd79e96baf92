import Shachain2pc.Daemon.Persistence

/-!
# The lifetime cap of a channel's Delta

Every precompute job of a channel works under the channel's one Delta. A job is admitted when
the estimate stored with the channel, the units reserved by active jobs and the units planned
for it stay within the cap. The estimate grows when a job stores its node. A job which ends in
any other way leaves no trace in what later admissions read.

Beside the daemon and its writer, a run keeps every job that was ever started.
-/

namespace Shachain2pc

open Std
open Runs (run Along)

/-- What became of a started job. -/
inductive JobPhase where
  | running
  | stored
  | ended
  deriving DecidableEq, Repr

/-- A job that was started, with what its task keeps while it runs. -/
structure StartedJob where
  jobId : String
  channelIndex : ℕ
  target : ℕ
  plannedCheckedUnits : ℕ
  phase : JobPhase
  deriving DecidableEq, Repr

/-- A daemon with its writer and every job it started, oldest first. -/
structure DeltaLifetime where
  daemon : Persistence
  jobs : List StartedJob

/-- The critical sections which begin, store or finish a job. -/
def Operation.ofJob : Operation → Bool
  | .beginPrecomputeJobstream .. | .beginIncomingPrecomputeTarget ..
  | .storePrecomputedTargetWiresAndFinishJob .. | .finishJob .. => true
  | _ => false

/-- An operation without a job runs; a target is begun from either side; the task of a running job
stores its node, fails, or is dropped; a caller sends to the writer or the writer works; a commit
fails; or the daemon restarts and reads the records of its table. -/
inductive LifetimeLabel where
  | operate (operation : Operation)
  | begin (channelIndex : ℕ) (index : Index48) (peer : PeerFrontierConfig)
    (plannedCheckedUnits effectiveWorkers : ℕ)
  | beginIncoming (descriptor : GrpcJobDescriptor) (index : Index48)
    (plannedCheckedUnits effectiveWorkers : ℕ)
  | store (job : ℕ) (wires : Ag2pcSecureWires)
  | fail (job : ℕ)
  | drop (job : ℕ)
  | write (label : PersistenceLabel)
  | failCommit (count : ℕ)
  | restart (records : List StoredRecord)

namespace DeltaLifetime

/-- A daemon that has started no job. -/
def start (daemon : Persistence) : DeltaLifetime := ⟨daemon, []⟩

/-- Run a critical section of the daemon. -/
def perform (sha256 : List UInt8 → Value32) (s : DeltaLifetime) (operation : Operation) :
    Option DeltaLifetime :=
  (s.daemon.step sha256 (.perform operation)).map fun daemon => { s with daemon := daemon }

/-- Move a job on. -/
def setPhase (s : DeltaLifetime) (k : ℕ) (phase : JobPhase) : DeltaLifetime :=
  { s with jobs := s.jobs.modify k fun job => { job with phase := phase } }

/-- The running job at a position. -/
def running (s : DeltaLifetime) (k : ℕ) : Option StartedJob :=
  s.jobs[k]?.filter fun job => job.phase = .running

/-- The job that a step starts. -/
def started (sha256 : List UInt8 → Value32) (s : DeltaLifetime) : LifetimeLabel → List StartedJob
  | .begin c index peer units workers =>
    match beginPrecomputeJobstream sha256 s.daemon.inner c index peer units workers with
    | .ok (_, _, .run job) => [⟨job.jobId, c, index.get, job.plannedCheckedUnits, .running⟩]
    | _ => []
  | .beginIncoming descriptor index units workers =>
    match beginIncomingPrecomputeTarget s.daemon.inner descriptor index units workers with
    | .ok (_, _, jobId) => [⟨jobId, descriptor.channelIndex, index.get, units, .running⟩]
    | .error _ => []
  | _ => []

/-- One step. -/
def step (sha256 : List UInt8 → Value32) (s : DeltaLifetime) (label : LifetimeLabel) :
    Option DeltaLifetime :=
  match label with
  | .operate operation => if operation.ofJob then none else s.perform sha256 operation
  | .begin c index peer units workers =>
    (s.perform sha256 (.beginPrecomputeJobstream c index peer units workers)).map fun t =>
      { t with jobs := s.jobs ++ s.started sha256 label }
  | .beginIncoming descriptor index units workers =>
    (s.perform sha256 (.beginIncomingPrecomputeTarget descriptor index units workers)).map fun t =>
      { t with jobs := s.jobs ++ s.started sha256 label }
  | .store k wires => (s.running k).bind fun job =>
    -- A task whose node is refused finishes its job as failed.
    match storePrecomputedTargetWiresAndFinishJob sha256 s.daemon.inner job.channelIndex job.jobId
      job.plannedCheckedUnits job.target wires with
    | .error _ => none
    | .ok _ =>
      (s.perform sha256 (.storePrecomputedTargetWiresAndFinishJob job.channelIndex job.jobId
        job.plannedCheckedUnits job.target wires)).map (·.setPhase k .stored)
  | .fail k => (s.running k).bind fun job =>
    (s.perform sha256 (.finishJob job.jobId true)).map (·.setPhase k .ended)
  | .drop k => (s.running k).map fun _ => s.setPhase k .ended
  | .write (.perform _) => none
  | .write label => (s.daemon.step sha256 label).map fun daemon => { s with daemon := daemon }
  | .failCommit count => (s.daemon.writer.process count false).map fun result =>
    { s with daemon.writer := result.1 }
  | .restart records => match loadRedbState records with
    | .error _ => none
    | .ok db => some
      { daemon := { s.daemon with
          inner := { s.daemon.inner with db := db, activeJobs := ∅, nextJobId := 0 } }
        jobs := s.jobs.map fun job =>
          if job.phase = .running then { job with phase := .ended } else job }

/-- The runs in question: the caps are never changed, and a restart follows a drained queue. -/
def Permitted (s : DeltaLifetime) : LifetimeLabel → Prop
  | .operate (.enableChannel req) => ∀ channel ∈ s.daemon.inner.db.channels[req.channelIndex]?,
    req.deltaLifetimeCheckedUnitsCap = 0 ∨
      req.deltaLifetimeCheckedUnitsCap = channel.deltaLifetimeCheckedUnitsCap
  | .restart records => s.daemon.Drained ∧ Lists records s.daemon.writer.table
  | _ => True

/-- A job may be started without exceeding the cap: every earlier job of its channel with units
planned has stored its node, and the sum that is compared with the largest cap does not saturate. -/
def Counted (s : DeltaLifetime) (job : StartedJob) : Prop :=
  (∀ earlier ∈ s.jobs, earlier.channelIndex = job.channelIndex → 0 < earlier.plannedCheckedUnits →
    earlier.phase = .stored) ∧
  ∀ channel ∈ s.daemon.inner.db.channels[job.channelIndex]?,
    2 ^ 64 - 1 ≤ channel.deltaLifetimeCheckedUnitsCap →
      channel.estimatedCheckedUnits + s.daemon.inner.reserved job.channelIndex +
        job.plannedCheckedUnits ≤ 2 ^ 64 - 1

instance (s : DeltaLifetime) (job : StartedJob) : Decidable (s.Counted job) :=
  inferInstanceAs (Decidable (_ ∧ ∀ channel ∈ s.daemon.inner.db.channels[job.channelIndex]?, _ → _))

/-- The condition on one step: a job which starts is counted, batches are sent in order, and no
commit fails. -/
def CountsWork (sha256 : List UInt8 → Value32) (s : DeltaLifetime) (label : LifetimeLabel) : Prop :=
  (∀ job ∈ s.started sha256 label, s.Counted job) ∧
  match label with
  | .write label => s.daemon.SendsInOrder label
  | .failCommit _ => False
  | _ => True

/-- The sum of a quantity over jobs. -/
def total (quantity : StartedJob → ℕ) (jobs : List StartedJob) : ℕ :=
  jobs.foldr (fun job sum => quantity job + sum) 0

/-- The planned units of a job, when it is one of the channel. -/
def unitsOn (c : ℕ) (job : StartedJob) : ℕ :=
  if job.channelIndex = c then job.plannedCheckedUnits else 0

/-- The planned units of every job ever started under a channel's Delta. -/
def startedUnits (s : DeltaLifetime) (c : ℕ) : ℕ := total (unitsOn c) s.jobs

/-- The planned units of a job of the channel which stored its node. -/
def storedUnitsOn (c : ℕ) (job : StartedJob) : ℕ :=
  if job.phase = .stored then unitsOn c job else 0

/-- The planned units of the jobs of a channel which stored their nodes. -/
def storedUnits (s : DeltaLifetime) (c : ℕ) : ℕ := total (storedUnitsOn c) s.jobs

/-- The work under every channel's Delta stays within the channel's cap. -/
def WithinCap (s : DeltaLifetime) : Prop :=
  ∀ c channel, s.daemon.inner.db.channels[c]? = some channel →
    s.startedUnits c ≤ channel.deltaLifetimeCheckedUnitsCap

end DeltaLifetime

/-- Every channel is still there, with its estimate and its cap. -/
def Inner.KeepsBudgets (inner inner' : Inner) : Prop :=
  ∀ (c : ℕ) (channel : ChannelRecord), inner.db.channels[c]? = some channel →
    ∃ channel' : ChannelRecord, inner'.db.channels[c]? = some channel' ∧
      channel'.estimatedCheckedUnits = channel.estimatedCheckedUnits ∧
      channel'.deltaLifetimeCheckedUnitsCap = channel.deltaLifetimeCheckedUnitsCap

variable {sha256 : List UInt8 → Value32} {inner inner' : Inner} {c : ℕ} {mutations : List Mutation}

/-- Nothing changes the budgets when the channels are the same. -/
theorem Inner.KeepsBudgets.of_eq (h : inner'.db = inner.db) : inner.KeepsBudgets inner' := by
  intro c channel hc
  exact ⟨channel, h ▸ hc, rfl, rfl⟩

/-- Storing a channel with the estimate and the cap it had keeps the budgets. -/
theorem Inner.KeepsBudgets.setChannel {channel : ChannelRecord}
    (hdb : inner'.db = inner.db.setChannel c channel)
    (hsame : ∀ old ∈ inner.db.channels[c]?,
      channel.estimatedCheckedUnits = old.estimatedCheckedUnits ∧
        channel.deltaLifetimeCheckedUnitsCap = old.deltaLifetimeCheckedUnitsCap) :
    inner.KeepsBudgets inner' := by
  intro c' old hold
  rw [hdb, PlainDb.setChannel]
  by_cases hc : c = c'
  · subst hc
    exact ⟨channel, ExtTreeMap.getElem?_insert_self, hsame old hold⟩
  · exact ⟨old, by simpa [ExtTreeMap.getElem?_insert, hc] using hold, rfl, rfl⟩

/-- Enabling a channel without another cap keeps the budgets. -/
theorem enableChannel_keepsBudgets {req : EnableChannelRequest}
    (hcap : ∀ channel ∈ inner.db.channels[req.channelIndex]?,
      req.deltaLifetimeCheckedUnitsCap = 0 ∨
        req.deltaLifetimeCheckedUnitsCap = channel.deltaLifetimeCheckedUnitsCap) :
    inner.KeepsBudgets (enableChannel inner req).1 := by
  refine .setChannel rfl fun old hold => ?_
  have hentry (precompute : ℕ) : inner.enabledEntry req precompute = old := by
    rw [Inner.enabledEntry, Option.mem_def.mp hold, Option.getD_some]
  simp only [hentry, true_and]
  split
  · next hne => exact (hcap old hold).resolve_left hne
  · rfl

/-- Beginning a target keeps the budgets. -/
theorem beginJob_keepsBudgets {channel : ChannelRecord} (hc : inner.db.channels[c]? = some channel)
    {jobId : String} {index : Index48} {units : ℕ}
    (hdb : inner'.db = (inner.beginJob jobId c channel index units).db) :
    inner.KeepsBudgets inner' := by
  refine .setChannel hdb fun old hold => ?_
  cases hc.symm.trans hold
  exact ⟨rfl, rfl⟩

/-- Finishing a job keeps the budgets. -/
theorem finishJob_keepsBudgets (inner : Inner) (jobId : String) (failed : Bool) :
    inner.KeepsBudgets (finishJob inner jobId failed).1 := by
  unfold finishJob
  split
  · exact .of_eq rfl
  · simp only
    split
    · exact .of_eq rfl
    · next channel hc =>
      split
      · refine .setChannel rfl fun old hold => ?_
        cases hc.symm.trans hold
        exact ⟨rfl, rfl⟩
      · exact .of_eq rfl

/-- Only the task that stores a node changes a budget, as long as no cap is changed. -/
theorem Inner.perform_keepsBudgets {operation : Operation}
    (hstore : ∀ c jobId units mask wires,
      operation ≠ .storePrecomputedTargetWiresAndFinishJob c jobId units mask wires)
    (hcap : ∀ req, operation = .enableChannel req →
      ∀ channel ∈ inner.db.channels[req.channelIndex]?, req.deltaLifetimeCheckedUnitsCap = 0 ∨
        req.deltaLifetimeCheckedUnitsCap = channel.deltaLifetimeCheckedUnitsCap)
    (h : inner.perform sha256 operation = .ok (inner', mutations)) : inner.KeepsBudgets inner' := by
  cases operation with
  | enableChannel req =>
    cases h
    exact enableChannel_keepsBudgets (hcap req rfl)
  | disableChannel c =>
    obtain ⟨result, hok, heq⟩ := Rust.map_eq_ok h
    cases heq
    unfold disableChannel at hok
    repeat' split at hok
    all_goals cases hok
    next channel hc =>
      refine .setChannel rfl fun old hold => ?_
      cases hc.symm.trans hold
      exact ⟨rfl, rfl⟩
  | storeKnownSecret c index expectedNextIndex secret =>
    obtain ⟨result, hok, heq⟩ := Rust.map_eq_ok h
    cases heq
    unfold Shachain2pc.storeKnownSecret at hok
    split at hok
    · cases hok
    · next channel hc =>
      cases hok
      refine .setChannel rfl fun old hold => ?_
      cases hc.symm.trans hold
      exact ⟨rfl, rfl⟩
  | recordFailedPrecomputeAttempt c units =>
    simp only [Inner.perform, Shachain2pc.recordFailedPrecomputeAttempt] at h
    split at h
    · cases h
    · next channel hc =>
      cases h
      refine .setChannel rfl fun old hold => ?_
      cases hc.symm.trans hold
      exact ⟨rfl, rfl⟩
  | reconcileWithPeer c response =>
    simp only [Inner.perform, Shachain2pc.reconcileWithPeer] at h
    repeat' split at h
    all_goals cases h
    · next channel hc _ =>
      refine .setChannel rfl fun old hold => ?_
      cases hc.symm.trans hold
      exact ⟨rfl, rfl⟩
    · exact .of_eq rfl
    · exact .of_eq rfl
  | storeNode c mask wires =>
    simp only [Inner.perform, Shachain2pc.storeNode] at h
    obtain ⟨bindings, -, h⟩ := Rust.bind_eq_ok h
    split at h
    · cases h
    · next channel hc =>
      cases h
      refine .setChannel rfl fun old hold => ?_
      cases hc.symm.trans hold
      exact ⟨rfl, rfl⟩
  | beginPrecomputeJobstream c index peer units workers =>
    obtain ⟨result, hok, heq⟩ := Rust.map_eq_ok h
    cases heq
    obtain ⟨hsame, -, -⟩ | ⟨channel, job, hc, -, -, -, -, hinner⟩ :=
      beginPrecomputeJobstream_cases hok
    · exact .of_eq (congrArg Inner.db hsame)
    · have hdb : result.1.db = (inner.beginJob job.jobId c channel index units).db := by rw [hinner]
      exact beginJob_keepsBudgets hc hdb
  | beginIncomingPrecomputeTarget descriptor index units workers =>
    obtain ⟨result, hok, heq⟩ := Rust.map_eq_ok h
    cases heq
    obtain ⟨channel, hc, -, -, -, -, -, hinner⟩ := beginIncomingPrecomputeTarget_ok hok
    exact beginJob_keepsBudgets hc (congrArg Inner.db hinner)
  | storePrecomputedTargetWiresAndFinishJob c jobId units mask wires =>
    exact absurd rfl (hstore c jobId units mask wires)
  | finishJob jobId failed =>
    have hkeeps := finishJob_keepsBudgets inner jobId failed
    rwa [Except.ok.inj h] at hkeeps

/-- A job is admitted within the cap. -/
theorem beginPrecomputeJobstream_used_le {index : Index48} {peer : PeerFrontierConfig}
    {units workers : ℕ} {job : PrecomputeJob}
    (h : beginPrecomputeJobstream sha256 inner c index peer units workers =
      .ok (inner', mutations, .run job)) :
    ∀ channel ∈ inner.db.channels[c]?,
      inner.used c channel units ≤ channel.deltaLifetimeCheckedUnitsCap := by
  intro channel hc
  unfold beginPrecomputeJobstream at h
  rw [Option.mem_def.mp hc] at h
  simp only at h
  repeat' split at h
  all_goals first
    | cases h; done
    | exact Nat.not_lt.mp ‹_›

/-- An incoming target is admitted within the cap. -/
theorem beginIncomingPrecomputeTarget_used_le {descriptor : GrpcJobDescriptor} {index : Index48}
    {units workers : ℕ} {jobId : String}
    (h : beginIncomingPrecomputeTarget inner descriptor index units workers =
      .ok (inner', mutations, jobId)) :
    ∀ channel ∈ inner.db.channels[descriptor.channelIndex]?,
      inner.used descriptor.channelIndex channel units ≤ channel.deltaLifetimeCheckedUnitsCap := by
  intro channel hc
  unfold beginIncomingPrecomputeTarget at h
  rw [Option.mem_def.mp hc] at h
  simp only at h
  repeat' split at h
  all_goals first
    | cases h; done
    | exact Nat.not_lt.mp ‹_›

end Shachain2pc
