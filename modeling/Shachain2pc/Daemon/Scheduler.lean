import Shachain2pc.Daemon.Persistence
import Shachain2pc.Daemon.Sessions
import Mathlib.Data.Finset.Card
import Mathlib.Data.Finset.Dedup
import Mathlib.Data.Finset.Lattice.Lemmas

/-!
# The scheduler and its tasks

One loop selects channels and spawns a task for each. A channel is selected when it has no mark
and no active job, and is marked when it is selected. Its task asks the peer, drops the nodes the
peer does not hold, picks the first index of the precompute range without a node, and runs one
target. It clears the mark when it ends.

Dropping the session of a channel clears the mark as well. Tasks do so when a command of their
session fails, and `disable_channel` does so for the channel it disabled. Tasks, disabling calls,
and the critical sections of everything else run in any order.
-/

namespace Shachain2pc

open Std
open Runs (run Along)

/-- `FULL_FRONTIER_RECONCILE_INTERVAL`, in seconds. -/
def fullFrontierReconcileInterval : ℕ := 60

/-- The channel holds a node for the index under its current bindings. -/
def ChannelRecord.holdsNode (sha256 : List UInt8 → Value32) (channel : ChannelRecord) (role : Role)
    (channelIndex index : ℕ) : Bool :=
  channel.frontierNodes[index]?.any fun record =>
    record.BoundBy (channel.bindings sha256 role channelIndex index)

/-- The first index of a range without a node, which both selections look for. -/
def ChannelRecord.firstMissing (sha256 : List UInt8 → Value32) (channel : ChannelRecord)
    (role : Role) (channelIndex precompute : ℕ) : Option ℕ :=
  (List.range' 1 (min precompute maxIndex)).find? fun index =>
    !channel.holdsNode sha256 role channelIndex index

/-- `next_missing_frontier`. -/
def nextMissingFrontier (sha256 : List UInt8 → Value32) (inner : Inner)
    (channelIndex effectivePrecompute : ℕ) : Option ℕ :=
  match inner.db.channels[channelIndex]? with
  | none => none
  | some channel => channel.firstMissing sha256 inner.cfg.role channelIndex effectivePrecompute

/-- The local precompute range of a channel. -/
def Inner.localPrecompute (inner : Inner) (channel : ChannelRecord) : ℕ :=
  min channel.precomputeTarget inner.cfg.precompute

/-- `validate_peer_security_params`. -/
def validatePeerSecurityParams (inner : Inner) (channelIndex : ℕ) (peer : PeerFrontierConfig) :
    Except DaemonError Unit :=
  match inner.db.channels[channelIndex]? with
  | none => .error (.notFound "channel is not enabled")
  | some channel =>
    if peer.sspTarget ≠ channel.sspTarget ∨
        peer.deltaLifetimeCheckedUnitsCap ≠ channel.deltaLifetimeCheckedUnitsCap then
      .error (.refused "peer channel security parameters do not match")
    else .ok ()

/-- `effective_precompute_target` after the parameters are validated. -/
def effectivePrecomputeTarget (inner : Inner) (channelIndex : ℕ) (peer : PeerFrontierConfig) :
    Except DaemonError ℕ :=
  match inner.db.channels[channelIndex]? with
  | none => .error (.notFound "channel is not enabled")
  | some channel => .ok (min (inner.localPrecompute channel) peer.precompute)

/-- The channels with an active job. -/
def Inner.activeChannels (inner : Inner) : Finset ℕ :=
  (inner.activeJobs.toList.map fun job => job.2.channelIndex).toFinset

/-- The channel that the filter of `scheduler_candidates` keeps, with whether its range is full. -/
def schedulerCandidate (sha256 : List UInt8 → Value32) (inner : Inner) (scheduled : Finset ℕ)
    (fullReconcileAfter : ℕ → Option ℕ) (now : ℕ) (entry : ℕ × ChannelRecord) : Option (ℕ × Bool) :=
  let (channelIndex, channel) := entry
  if ¬channel.enabled ∨ channel.precomputeTarget = 0 then none
  else
    let localPrecompute := inner.localPrecompute channel
    if localPrecompute = 0 then none
    else
      let hasMissingFrontier :=
        (channel.firstMissing sha256 inner.cfg.role channelIndex localPrecompute).isSome
      if ¬hasMissingFrontier ∧ (fullReconcileAfter channelIndex).any (now < ·) then none
      else if channelIndex ∈ inner.activeChannels ∨ channelIndex ∈ scheduled then none
      else some (channelIndex, !hasMissingFrontier)

/-- `scheduler_candidates`, without the marks that it sets. -/
def schedulerCandidates (sha256 : List UInt8 → Value32) (inner : Inner) (scheduled : Finset ℕ)
    (fullReconcileAfter : ℕ → Option ℕ) (effectiveWorkers now : ℕ) : List (ℕ × Bool) :=
  if inner.cfg.workers = 0 ∨ inner.cfg.precompute = 0 then []
  else
    let inFlight := (inner.activeChannels ∪ scheduled).card
    if effectiveWorkers ≤ inFlight then []
    else (inner.db.channels.toList.filterMap
      (schedulerCandidate sha256 inner scheduled fullReconcileAfter now)).take
        (effectiveWorkers - inFlight)

/-- Where `run_scheduled_precompute` awaits. -/
inductive SchedulePc where
  | peerFrontier
  | reconcile (peer : PeerFrontierConfig)
  | validate (peer : PeerFrontierConfig)
  | effective (peer : PeerFrontierConfig)
  | recordMismatch
  | nextMissing (effectivePrecompute : ℕ)
  | pathFrontier (index : Index48)
  | pathValidate (index : Index48) (peer : PeerFrontierConfig)
  | pathRecordMismatch (index : Index48)
  | pathReconcile (index : Index48) (peer : PeerFrontierConfig)
  | session (index : Index48) (peer : PeerFrontierConfig)
  | setup (index : Index48) (peer : PeerFrontierConfig)
  | plan (index : Index48) (peer : PeerFrontierConfig)
  | begin (index : Index48) (peer : PeerFrontierConfig) (plannedCheckedUnits : ℕ)
  | precompute (index : Index48) (job : PrecomputeJob)
  | store (index : Index48) (job : PrecomputeJob) (wires : Ag2pcSecureWires)
  | dropMark (job : Option PrecomputeJob)
  | dropDeadline (job : Option PrecomputeJob)
  | finish (job : PrecomputeJob)
  | returned (wake : Bool)
  | done
  deriving DecidableEq

/-- What a task waits for from outside. -/
inductive ScheduleEvent where
  | proceed
  | frontier (answer : Option PeerFrontierConfig)
  | nodes (answer : Option GetFrontierResponse)
  | handle (found : Bool)
  | planned (checkedUnits : ℕ)
  | resources (effectiveWorkers : ℕ)
  | wires (wires : Ag2pcSecureWires)
  | fail
  | writeFailed
  deriving DecidableEq

/-- One await of `run_scheduled_precompute_inner` and the functions it calls, apart from those
which take other locks than the memory's. -/
def SchedulePc.advance (sha256 : List UInt8 → Value32) (inner : Inner) (c : ℕ) :
    SchedulePc → ScheduleEvent → Option (Inner × SchedulePc)
  | .peerFrontier, .frontier answer => match answer with
    | some peer =>
      if peer.channelEnabled then some (inner, .reconcile peer) else some (inner, .returned false)
    | none => some (inner, .returned false)
  | .reconcile peer, .nodes answer => some ((reconcileWithPeer inner c answer).1, .validate peer)
  | .validate peer, .proceed => match validatePeerSecurityParams inner c peer with
    | .ok () => some (inner, .effective peer)
    | .error (.refused _) => some (inner, .recordMismatch)
    | .error _ => some (inner, .returned false)
  | .recordMismatch, .proceed => match recordFailedPrecomputeAttempt inner c 1 with
    | .ok (inner, _) => some (inner, .returned false)
    | .error _ => some (inner, .returned false)
  | .effective peer, .proceed => match effectivePrecomputeTarget inner c peer with
    | .ok 0 => some (inner, .returned false)
    | .ok bound => some (inner, .nextMissing bound)
    | .error _ => some (inner, .returned false)
  | .nextMissing bound, .proceed => match nextMissingFrontier sha256 inner c bound with
    | some target =>
      if h : target ≤ maxIndex then some (inner, .pathFrontier ⟨target, h⟩)
      else some (inner, .returned false)
    | none => some (inner, .returned false)
  | .pathFrontier index, .frontier answer => match answer with
    | some peer =>
      if peer.channelEnabled then some (inner, .pathValidate index peer)
      else some (inner, .returned false)
    | none => some (inner, .returned false)
  | .pathValidate index peer, .proceed => match validatePeerSecurityParams inner c peer with
    | .ok () => some (inner, .pathReconcile index peer)
    | .error _ => some (inner, .pathRecordMismatch index)
  | .pathRecordMismatch index, .proceed =>
    match recordFailedPrecomputeAttempt inner c (setBitsDesc index.get).length with
    | .ok (inner, _) => some (inner, .returned false)
    | .error _ => some (inner, .returned false)
  | .pathReconcile index peer, .nodes answer =>
    some ((reconcileWithPeer inner c answer).1, .session index peer)
  | .session index peer, .handle true => some (inner, .plan index peer)
  | .session index peer, .handle false => match precomputeSessionDescriptor sha256 inner c peer with
    | .ok (inner, _) => some (inner, .setup index peer)
    | .error _ => some (inner, .returned false)
  | .setup index peer, .proceed => some (inner, .plan index peer)
  | .plan index peer, .planned checkedUnits => some (inner, .begin index peer checkedUnits)
  | .plan _ _, .fail => some (inner, .dropMark none)
  | .begin index peer checkedUnits, .resources effectiveWorkers =>
    match beginPrecomputeJobstream sha256 inner c index peer checkedUnits effectiveWorkers with
    | .ok (inner, _, .alreadyStored) => some (inner, .returned true)
    | .ok (inner, _, .run job) => some (inner, .precompute index job)
    | .error _ => some (inner, .returned false)
  | .precompute index job, .wires wires => some (inner, .store index job wires)
  | .precompute _ job, .fail => some (inner, .dropMark (some job))
  | .store index job wires, .proceed =>
    match storePrecomputedTargetWiresAndFinishJob sha256 inner c job.jobId job.plannedCheckedUnits
        index.get wires with
    | .ok (inner, _) => some (inner, .returned true)
    | .error _ => some (inner, .finish job)
  | .store index job wires, .writeFailed =>
    match storePrecomputedTargetWiresAndFinishJob sha256 inner c job.jobId job.plannedCheckedUnits
        index.get wires with
    | .ok (inner, _) => some (inner, .finish job)
    | .error _ => some (inner, .finish job)
  | .finish job, .proceed => some ((finishJob inner job.jobId true).1, .returned false)
  | .peerFrontier, .fail | .reconcile _, .fail | .pathFrontier _, .fail | .pathReconcile _ _, .fail
  | .setup _ _, .fail => some (inner, .returned false)
  -- The write after the section which led here failed.
  | .validate _, .writeFailed | .session _ _, .writeFailed | .precompute _ _, .writeFailed =>
    some (inner, .returned false)
  | _, _ => none

structure ScheduledTask where
  channelIndex : ℕ
  pc : SchedulePc
  deriving DecidableEq

/-- The task has not ended. -/
def ScheduledTask.alive (task : ScheduledTask) : Bool := task.pc ≠ .done

/-- Where the loop around `run_scheduler_once` is. -/
inductive Tick where
  | idle
  | counted (effectiveWorkers : ℕ)
  | selected (candidates : List ℕ)
  deriving DecidableEq, Repr

/-- Where a call of `disable_channel` is once it released the memory. -/
inductive DisablingPc where
  | writing
  | dropDeadline
  | done
  deriving DecidableEq, Repr

/-- The memory with the scheduler, its tasks, and the calls of `disable_channel`. -/
structure Scheduler where
  inner : Inner
  scheduledPrecomputeChannels : Finset ℕ
  fullReconcileAfter : ℕ → Option ℕ
  tick : Tick
  tasks : List ScheduledTask
  disabling : List (ℕ × DisablingPc)

/-- The loop counts the workers, selects, or spawns; a task takes a step; a call of
`disable_channel` drops the session; another critical section changes the memory. -/
inductive SchedulerLabel where
  | count
  | select (now : ℕ)
  | spawn
  | task (k : ℕ) (event : ScheduleEvent)
  | dropDisabled (k : ℕ)
  | operation (operation : Operation)
  | setConfig (req : SetConfigRequest)

namespace Scheduler

/-- A daemon which has just started. -/
def start (inner : Inner) : Scheduler where
  inner := inner
  scheduledPrecomputeChannels := ∅
  fullReconcileAfter := fun _ => none
  tick := .idle
  tasks := []
  disabling := []

/-- Move a task. -/
def setTask (s : Scheduler) (k : ℕ) (pc : SchedulePc) : Scheduler :=
  { s with tasks := s.tasks.modify k fun task => { task with pc := pc } }

/-- The mark of a channel is cleared. -/
def unmark (s : Scheduler) (c : ℕ) : Scheduler :=
  { s with scheduledPrecomputeChannels := s.scheduledPrecomputeChannels.erase c }

/-- The deadline of a channel is cleared. -/
def dropDeadline (s : Scheduler) (c : ℕ) : Scheduler :=
  { s with fullReconcileAfter := Function.update s.fullReconcileAfter c none }

/-- The marks and deadlines which `scheduler_candidates` sets. -/
def select (sha256 : List UInt8 → Value32) (s : Scheduler) (effectiveWorkers now : ℕ) : Scheduler :=
  let candidates := schedulerCandidates sha256 s.inner s.scheduledPrecomputeChannels
    s.fullReconcileAfter effectiveWorkers now
  { s with
    scheduledPrecomputeChannels :=
      s.scheduledPrecomputeChannels ∪ (candidates.map Prod.fst).toFinset
    fullReconcileAfter := fun c => if (c, true) ∈ candidates then
      some (now + fullFrontierReconcileInterval) else s.fullReconcileAfter c
    tick := .selected (candidates.map Prod.fst) }

/-- One step of a task. -/
def stepTask (sha256 : List UInt8 → Value32) (s : Scheduler) (k : ℕ) (task : ScheduledTask)
    (event : ScheduleEvent) : Option Scheduler :=
  match task.pc, event with
  | .dropMark job, .proceed => some ((s.unmark task.channelIndex).setTask k (.dropDeadline job))
  | .dropDeadline job, .proceed =>
    some ((s.dropDeadline task.channelIndex).setTask k (job.elim (.returned false) .finish))
  | .returned _, .proceed => some ((s.unmark task.channelIndex).setTask k .done)
  | pc, event => (pc.advance sha256 s.inner task.channelIndex event).map fun result =>
    { s.setTask k result.2 with inner := result.1 }

/-- One step; a refused operation changes nothing. -/
def step (sha256 : List UInt8 → Value32) (s : Scheduler) : SchedulerLabel → Option Scheduler
  | .count => match s.tick with
    | .idle =>
      if s.inner.cfg.role = .alice then some { s with tick := .counted s.inner.effectiveWorkers }
      else some s
    | _ => none
  | .select now => match s.tick with
    | .counted effectiveWorkers => some (s.select sha256 effectiveWorkers now)
    | _ => none
  | .spawn => match s.tick with
    | .selected candidates => some { s with
        tick := .idle
        tasks := s.tasks ++ candidates.map fun c => ⟨c, .peerFrontier⟩ }
    | _ => none
  | .task k event => s.tasks[k]?.bind fun task => s.stepTask sha256 k task event
  | .dropDisabled k => s.disabling[k]?.bind fun disable => match disable.2 with
    | .writing =>
      some { s.unmark disable.1 with disabling := s.disabling.set k (disable.1, .dropDeadline) }
    | .dropDeadline =>
      some { s.dropDeadline disable.1 with disabling := s.disabling.set k (disable.1, .done) }
    | .done => none
  | .operation operation => match s.inner.perform sha256 operation with
    | .error _ => some s
    | .ok (inner, _) => some { s with
        inner := inner
        disabling := match operation with
          | .disableChannel c => s.disabling ++ [(c, .writing)]
          | _ => s.disabling }
  | .setConfig req => some { s with inner := setConfig s.inner req }

/-- Alice's daemon with four workers and a precompute range of one index. -/
def oneIndexInner : Inner where
  cfg := ⟨.alice, some "peer", 4, 1⟩
  masterSecret := []
  db := .default
  activeJobs := ∅
  nextJobId := 0

end Scheduler

/-- A later memory keeps the configuration, and in every channel the precompute target, the known
secrets and the current nodes; channels may have gained nodes. -/
structure Inner.Extends (sha256 : List UInt8 → Value32) (inner inner' : Inner) : Prop where
  cfg : inner'.cfg = inner.cfg
  channel : ∀ (c : ℕ) channel', inner'.db.channels[c]? = some channel' →
    ∃ channel, inner.db.channels[c]? = some channel ∧
      channel'.precomputeTarget = channel.precomputeTarget ∧
      channel'.knownSecrets = channel.knownSecrets ∧
      ∀ index, channel.holdsNode sha256 inner.cfg.role c index = true →
        channel'.holdsNode sha256 inner.cfg.role c index = true

variable {sha256 : List UInt8 → Value32} {inner inner' : Inner} {c : ℕ} {mutations : List Mutation}

/-- A memory extends itself. -/
theorem Inner.Extends.refl (inner : Inner) : inner.Extends sha256 inner :=
  ⟨rfl, fun _ channel hc => ⟨channel, hc, rfl, rfl, fun _ h => h⟩⟩

/-- Storing a channel which kept its target, its secrets and its nodes extends the memory. -/
theorem Inner.Extends.setChannel {channel channel' : ChannelRecord}
    (hc : inner.db.channels[c]? = some channel) (hdb : inner'.db = inner.db.setChannel c channel')
    (hcfg : inner'.cfg = inner.cfg) (htarget : channel'.precomputeTarget = channel.precomputeTarget)
    (hsecrets : channel'.knownSecrets = channel.knownSecrets)
    (hnodes : ∀ index, channel.holdsNode sha256 inner.cfg.role c index = true →
      channel'.holdsNode sha256 inner.cfg.role c index = true) :
    inner.Extends sha256 inner' := by
  refine ⟨hcfg, fun other channel'' hother => ?_⟩
  rw [hdb, PlainDb.setChannel] at hother
  by_cases heq : c = other
  · subst heq
    rw [ExtTreeMap.getElem?_insert_self] at hother
    cases hother
    exact ⟨channel, hc, htarget, hsecrets, hnodes⟩
  · rw [ExtTreeMap.getElem?_insert, if_neg (by simpa using heq)] at hother
    exact ⟨channel'', hother, rfl, rfl, fun _ h => h⟩

/-- A channel which stores a node under its current bindings holds its other nodes as before. -/
theorem ChannelRecord.holdsNode_insert {channel channel' : ChannelRecord} {role : Role} {mask : ℕ}
    {wires : Ag2pcSecureWires} {index : ℕ} (h : channel.holdsNode sha256 role c index = true)
    (hnodes : channel'.frontierNodes =
      channel.frontierNodes.insert mask (.ofWires (channel.bindings sha256 role c mask) wires))
    (hssp : channel'.sspTarget = channel.sspTarget)
    (hcap : channel'.deltaLifetimeCheckedUnitsCap = channel.deltaLifetimeCheckedUnitsCap) :
    channel'.holdsNode sha256 role c index = true := by
  have hbindings :
      channel'.bindings sha256 role c index = channel.bindings sha256 role c index := by
    rw [ChannelRecord.bindings, hssp, hcap, ChannelRecord.bindings]
  rw [holdsNode, hnodes, hbindings]
  by_cases heq : mask = index
  · subst heq
    simp [WireRecord.BoundBy, WireRecord.ofWires]
  · rw [ExtTreeMap.getElem?_insert, if_neg (by simpa using heq)]
    exact h

/-- Counting a failed attempt extends the memory. -/
theorem recordFailedPrecomputeAttempt_extends {units : ℕ}
    (h : recordFailedPrecomputeAttempt inner c units = .ok (inner', mutations)) :
    inner.Extends sha256 inner' := by
  unfold recordFailedPrecomputeAttempt at h
  split at h
  · cases h
  · next channel hc =>
    cases h
    exact .setChannel hc rfl rfl rfl rfl fun _ hnode => hnode

/-- Storing a node extends the memory. -/
theorem storeNode_extends {mask : ℕ} {wires : Ag2pcSecureWires}
    (h : storeNode sha256 inner c mask wires = .ok (inner', mutations)) :
    inner.Extends sha256 inner' := by
  unfold storeNode at h
  cases hc : inner.db.channels[c]? with
  | none => simp [bindingPair, hc, bind, Except.bind] at h
  | some channel =>
    simp only [bindingPair_of_channel hc, hc, bind, Except.bind] at h
    cases h
    exact .setChannel hc rfl rfl rfl rfl fun _ hnode =>
      ChannelRecord.holdsNode_insert hnode rfl rfl rfl

/-- Beginning a target extends the memory. -/
theorem beginPrecomputeJobstream_extends {index : Index48} {peer : PeerFrontierConfig}
    {units workers : ℕ} {start : PrecomputeStart}
    (h : beginPrecomputeJobstream sha256 inner c index peer units workers =
      .ok (inner', mutations, start)) : inner.Extends sha256 inner' := by
  obtain ⟨rfl, -, -⟩ | ⟨channel, job, hc, -, -, -, -, rfl⟩ := beginPrecomputeJobstream_cases h
  · exact .refl _
  · exact .setChannel hc rfl rfl rfl rfl fun _ hnode => hnode

/-- Beginning an incoming target extends the memory. -/
theorem beginIncomingPrecomputeTarget_extends {descriptor : GrpcJobDescriptor} {index : Index48}
    {units workers : ℕ} {jobId : String}
    (h : beginIncomingPrecomputeTarget inner descriptor index units workers =
      .ok (inner', mutations, jobId)) : inner.Extends sha256 inner' := by
  obtain ⟨channel, hc, -, -, -, -, -, rfl⟩ := beginIncomingPrecomputeTarget_ok h
  exact .setChannel hc rfl rfl rfl rfl fun _ hnode => hnode

/-- Storing the node of a target and finishing its job extends the memory. -/
theorem storePrecomputedTargetWiresAndFinishJob_extends {jobId : String} {units mask : ℕ}
    {wires : Ag2pcSecureWires}
    (h : storePrecomputedTargetWiresAndFinishJob sha256 inner c jobId units mask wires =
      .ok (inner', mutations)) : inner.Extends sha256 inner' := by
  unfold storePrecomputedTargetWiresAndFinishJob at h
  cases hc : inner.db.channels[c]? with
  | none => simp [bindingPair, hc, bind, Except.bind] at h
  | some channel =>
    simp only [bindingPair_of_channel hc, hc, bind, Except.bind] at h
    split at h
    · cases h
    · cases h
      exact .setChannel hc rfl rfl rfl rfl fun _ hnode =>
        ChannelRecord.holdsNode_insert hnode rfl rfl rfl

/-- Finishing a job extends the memory. -/
theorem finishJob_extends (inner : Inner) (jobId : String) (failed : Bool) :
    inner.Extends sha256 (finishJob inner jobId failed).1 := by
  unfold finishJob
  cases hjob : inner.activeJobs[jobId]? with
  | none => exact .refl _
  | some job =>
    cases hc : inner.db.channels[job.channelIndex]? with
    | none =>
      simp only [hc]
      exact ⟨rfl, (Inner.Extends.refl inner).channel⟩
    | some channel =>
      simp only [hc]
      cases failed with
      | true => exact .setChannel hc rfl rfl rfl rfl fun _ hnode => hnode
      | false => exact ⟨rfl, (Inner.Extends.refl inner).channel⟩

/-- Naming a session extends the memory. -/
theorem precomputeSessionDescriptor_extends {peer : PeerFrontierConfig}
    {descriptor : GrpcJobDescriptor}
    (h : precomputeSessionDescriptor sha256 inner c peer = .ok (inner', descriptor)) :
    inner.Extends sha256 inner' := by
  unfold precomputeSessionDescriptor at h
  split at h
  · cases h
  · repeat' split at h
    all_goals cases h
    exact ⟨rfl, (Inner.Extends.refl inner).channel⟩

/-- The operations which store a secret, drop nodes, or enable a channel. -/
def Operation.Narrows : Operation → Prop
  | .enableChannel _ | .disableChannel _ | .storeKnownSecret .. | .reconcileWithPeer .. => True
  | _ => False

/-- Every other operation extends the memory. -/
theorem Inner.perform_extends {operation : Operation} (hother : ¬operation.Narrows)
    (h : inner.perform sha256 operation = .ok (inner', mutations)) :
    inner.Extends sha256 inner' := by
  cases operation with
  | enableChannel | disableChannel | storeKnownSecret | reconcileWithPeer =>
    exact absurd trivial hother
  | recordFailedPrecomputeAttempt c units => exact recordFailedPrecomputeAttempt_extends h
  | storeNode c mask wires => exact storeNode_extends h
  | beginPrecomputeJobstream c index peer units workers =>
    obtain ⟨⟨_, _, start⟩, hok, heq⟩ := Rust.map_eq_ok h
    cases heq
    exact beginPrecomputeJobstream_extends hok
  | beginIncomingPrecomputeTarget descriptor index units workers =>
    obtain ⟨⟨_, _, jobId⟩, hok, heq⟩ := Rust.map_eq_ok h
    cases heq
    exact beginIncomingPrecomputeTarget_extends hok
  | storePrecomputedTargetWiresAndFinishJob c jobId units mask wires =>
    exact storePrecomputedTargetWiresAndFinishJob_extends h
  | finishJob jobId failed =>
    have hextends : inner.Extends sha256 (finishJob inner jobId failed).1 :=
      finishJob_extends inner jobId failed
    rwa [Except.ok.inj h] at hextends

/-- Dropping nodes keeps the configuration. -/
theorem reconcileWithPeer_cfg (inner : Inner) (c : ℕ) (response : Option GetFrontierResponse) :
    (reconcileWithPeer inner c response).1.cfg = inner.cfg := by
  unfold reconcileWithPeer
  split
  · split <;> rfl
  · rfl

/-- Every operation keeps the configuration. -/
theorem Inner.perform_cfg {operation : Operation}
    (h : inner.perform sha256 operation = .ok (inner', mutations)) : inner'.cfg = inner.cfg := by
  by_cases hnarrows : operation.Narrows
  · cases operation with
    | enableChannel req =>
      cases h
      rfl
    | disableChannel c =>
      obtain ⟨⟨_, _, response⟩, hok, heq⟩ := Rust.map_eq_ok h
      cases heq
      unfold Shachain2pc.disableChannel at hok
      repeat' split at hok
      all_goals cases hok
      rfl
    | storeKnownSecret c index expectedNextIndex secret =>
      obtain ⟨result, -, heq⟩ := Rust.map_eq_ok h
      cases heq
      rfl
    | reconcileWithPeer c response =>
      have hcfg := reconcileWithPeer_cfg inner c response
      rwa [Except.ok.inj h] at hcfg
    | _ => exact absurd hnarrows (by simp [Operation.Narrows])
  · exact (perform_extends hnarrows h).cfg

/-- What an await of a task does to the memory. -/
structure SchedulePc.Advances (sha256 : List UInt8 → Value32) (inner : Inner) (c : ℕ)
    (pc : SchedulePc) (event : ScheduleEvent) (inner' : Inner) (pc' : SchedulePc) : Prop where
  ne_done : pc ≠ .done
  memory : inner.Extends sha256 inner' ∨
    ∃ answer, event = .nodes answer ∧ inner' = (reconcileWithPeer inner c answer).1
  nextMissing : ∀ bound, pc' = .nextMissing bound → inner' = inner ∧
    ∃ channel, inner.db.channels[c]? = some channel ∧ bound ≤ inner.localPrecompute channel

/-- An await which does not pick an index may extend the memory. -/
theorem SchedulePc.Advances.extend {pc pc' : SchedulePc} {event : ScheduleEvent} (hpc : pc ≠ .done)
    (hnext : ∀ bound, pc' ≠ .nextMissing bound) (hextends : inner.Extends sha256 inner') :
    pc.Advances sha256 inner c event inner' pc' :=
  ⟨hpc, .inl hextends, fun bound hbound => absurd hbound (hnext bound)⟩

/-- The effective target is within the local range. -/
theorem effectivePrecomputeTarget_le {peer : PeerFrontierConfig} {bound : ℕ}
    (h : effectivePrecomputeTarget inner c peer = .ok bound) :
    ∃ channel, inner.db.channels[c]? = some channel ∧ bound ≤ inner.localPrecompute channel := by
  unfold effectivePrecomputeTarget at h
  split at h
  · cases h
  · next channel hc =>
    cases h
    exact ⟨channel, hc, min_le_left _ _⟩

/-- What an await of a task does. -/
theorem SchedulePc.advance_spec {pc pc' : SchedulePc} {event : ScheduleEvent}
    (h : pc.advance sha256 inner c event = some (inner', pc')) :
    pc.Advances sha256 inner c event inner' pc' := by
  unfold advance at h
  repeat' split at h
  all_goals cases h
  -- Most awaits leave the memory alone, and two drop the nodes the peer does not hold.
  all_goals try (refine .extend ?_ ?_ (.refl _) <;> simp <;> done)
  all_goals try exact ⟨by simp, .inr ⟨_, rfl, rfl⟩, by simp⟩
  · next hrecord =>
      exact .extend (by simp) (by simp) (recordFailedPrecomputeAttempt_extends hrecord)
  · next htarget =>
    refine ⟨by simp, .inl (.refl _), fun bound hbound => ⟨rfl, ?_⟩⟩
    cases hbound
    exact effectivePrecomputeTarget_le htarget
  · next hrecord =>
      exact .extend (by simp) (by simp) (recordFailedPrecomputeAttempt_extends hrecord)
  · next hsession =>
      exact .extend (by simp) (by simp) (precomputeSessionDescriptor_extends hsession)
  · next hbegin => exact .extend (by simp) (by simp) (beginPrecomputeJobstream_extends hbegin)
  · next hbegin => exact .extend (by simp) (by simp) (beginPrecomputeJobstream_extends hbegin)
  · next hstore =>
    exact .extend (by simp) (by simp) (storePrecomputedTargetWiresAndFinishJob_extends hstore)
  · next hstore =>
    exact .extend (by simp) (by simp) (storePrecomputedTargetWiresAndFinishJob_extends hstore)
  · exact .extend (by simp) (by simp) (finishJob_extends _ _ _)

end Shachain2pc
