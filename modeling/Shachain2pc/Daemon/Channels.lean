import Shachain2pc.Daemon.Inner
import Shachain2pc.Daemon.KnownSecrets

/-!
# Operations on channels

The critical sections which enable and disable a channel, store nodes and secrets, count
failed attempts, and drop the nodes a peer does not hold. Each changes the memory under the
lock and returns the mutations its caller sends to the writer once the lock is released.
For each section the mutations bring a table which mirrors the memory up to date.
-/

namespace Shachain2pc

open Std

structure EnableChannelRequest where
  channelIndex : ℕ
  precompute : ℕ
  sspTarget : ℕ
  deltaLifetimeCheckedUnitsCap : ℕ
  deriving DecidableEq, Repr

structure ChannelResponse where
  channelIndex : ℕ
  enabled : Bool
  precompute : ℕ
  sspTarget : ℕ
  deltaLifetimeCheckedUnitsCap : ℕ
  frontierNodes : ℕ
  knownSecrets : ℕ
  estimatedCheckedUnits : ℕ
  attemptedCheckedUnits : ℕ
  failedPrecomputeJobs : ℕ
  deriving DecidableEq, Repr

structure FrontierNode where
  mask : ℕ
  publicBinding : Value32
  deriving DecidableEq, Repr

structure GetFrontierResponse where
  nodes : List FrontierNode
  channelEnabled : Bool
  precompute : ℕ
  sspTarget : ℕ
  deltaLifetimeCheckedUnitsCap : ℕ
  workers : ℕ
  effectiveWorkers : ℕ
  deriving DecidableEq, Repr

/-- What `set_config` may change. -/
structure SetConfigRequest where
  workers : Option ℕ
  precompute : Option ℕ
  deriving DecidableEq, Repr

/-- `channel_response`. -/
def channelResponse (index : ℕ) (channel : ChannelRecord) : ChannelResponse where
  channelIndex := index
  enabled := channel.enabled
  precompute := channel.precomputeTarget
  sspTarget := channel.sspTarget
  deltaLifetimeCheckedUnitsCap := channel.deltaLifetimeCheckedUnitsCap
  frontierNodes := channel.frontierNodes.size
  knownSecrets := channel.knownSecrets.size
  estimatedCheckedUnits := channel.estimatedCheckedUnits
  attemptedCheckedUnits := channel.attemptedCheckedUnits
  failedPrecomputeJobs := channel.failedPrecomputeJobs

/-- `effective_workers` of `resource_model`. -/
def Inner.effectiveWorkers (inner : Inner) : ℕ := max inner.cfg.workers 1

/-- `set_config`. -/
def setConfig (inner : Inner) (req : SetConfigRequest) : Inner :=
  { inner with cfg := { inner.cfg with
      workers := req.workers.elim inner.cfg.workers (max · 1)
      precompute := req.precompute.getD inner.cfg.precompute } }

/-- The channel that `enable_channel` finds or inserts. -/
def Inner.enabledEntry (inner : Inner) (req : EnableChannelRequest) (defaultPrecompute : ℕ) :
    ChannelRecord :=
  inner.db.channels[req.channelIndex]?.getD
    { enabled := true
      lastObservedNextRevealIndex := none
      precomputeTarget := defaultPrecompute
      sspTarget := if req.sspTarget = 0 then defaultSspTarget else req.sspTarget
      deltaLifetimeCheckedUnitsCap :=
        if req.deltaLifetimeCheckedUnitsCap = 0 then defaultDeltaCap
        else req.deltaLifetimeCheckedUnitsCap
      frontierNodes := ∅
      knownSecrets := ∅
      estimatedCheckedUnits := 0
      attemptedCheckedUnits := 0
      failedPrecomputeJobs := 0 }

/-- `enable_channel`, up to the release of the lock. -/
def enableChannel (inner : Inner) (req : EnableChannelRequest) :
    Inner × List Mutation × ChannelResponse :=
  let defaultPrecompute := if req.precompute = 0 then inner.cfg.precompute else req.precompute
  let entry := inner.enabledEntry req defaultPrecompute
  let channel := { entry with
    enabled := true
    precomputeTarget := defaultPrecompute
    sspTarget := if req.sspTarget ≠ 0 then req.sspTarget else entry.sspTarget
    deltaLifetimeCheckedUnitsCap :=
      if req.deltaLifetimeCheckedUnitsCap ≠ 0 then req.deltaLifetimeCheckedUnitsCap
      else entry.deltaLifetimeCheckedUnitsCap }
  (inner.setChannel req.channelIndex channel, [upsertChannelMutation req.channelIndex channel],
    channelResponse req.channelIndex channel)

/-- `disable_channel`, up to the release of the lock. -/
def disableChannel (inner : Inner) (channelIndex : ℕ) :
    Except DaemonError (Inner × List Mutation × ChannelResponse) :=
  if inner.hasActiveJob channelIndex then
    .error (.tonicStatus .failedPrecondition "channel has an active precompute job")
  else match inner.db.channels[channelIndex]? with
    | none => .error (.tonicStatus .notFound "channel is not enabled")
    | some channel =>
      let dropMasks := channel.frontierNodes.keys
      let channel' := { channel with enabled := false, frontierNodes := ∅ }
      .ok (inner.setChannel channelIndex channel', upsertChannelMutation channelIndex channel' ::
        dropMasks.map (deleteFrontierMutation channelIndex), channelResponse channelIndex channel')

/-- `store_known_secret` on the daemon's state, up to the release of the lock. -/
def Inner.storeKnownSecret (sha256 : List UInt8 → Value32) (inner : Inner) (channelIndex : ℕ)
    (index : Index48) (expectedNextIndex : ℕ) (secret : Value32) :
    Except DaemonError (Inner × List Mutation) :=
  (Shachain2pc.storeKnownSecret (fun v => sha256 v.bytes.toList) inner.db channelIndex index
    expectedNextIndex secret).map fun result => ({ inner with db := result.1 }, result.2)

/-- `record_failed_precompute_attempt`, up to the release of the lock. -/
def recordFailedPrecomputeAttempt (inner : Inner) (channelIndex plannedCheckedUnits : ℕ) :
    Except DaemonError (Inner × List Mutation) :=
  match inner.db.channels[channelIndex]? with
  | none => .error (.notFound "channel is not enabled")
  | some channel =>
    let channel' := { channel with
      attemptedCheckedUnits := saturatingAdd channel.attemptedCheckedUnits plannedCheckedUnits
      failedPrecomputeJobs := saturatingAdd channel.failedPrecomputeJobs 1 }
    .ok (inner.setChannel channelIndex channel', [upsertChannelMutation channelIndex channel'])

/-- `get_frontier`; the worker count was read before. -/
def getFrontier (inner : Inner) (channelIndex effectiveWorkers : ℕ) : GetFrontierResponse :=
  match inner.db.channels[channelIndex]? with
  | none =>
    { nodes := []
      channelEnabled := false
      precompute := 0
      sspTarget := 0
      deltaLifetimeCheckedUnitsCap := 0
      workers := inner.cfg.workers
      effectiveWorkers := effectiveWorkers }
  | some channel =>
    { nodes := channel.frontierNodes.toList.map fun entry => ⟨entry.1, entry.2.publicBinding⟩
      channelEnabled := channel.enabled
      precompute := channel.precomputeTarget
      sspTarget := channel.sspTarget
      deltaLifetimeCheckedUnitsCap := channel.deltaLifetimeCheckedUnitsCap
      workers := inner.cfg.workers
      effectiveWorkers := effectiveWorkers }

/-- The bindings of the peer's nodes by mask, a later entry replacing an earlier one. -/
def peerNodes (nodes : List FrontierNode) : DecimalMap Value32 :=
  nodes.foldl (fun peer node => peer.insert node.mask node.publicBinding) ∅

/-- The masks of the nodes that a peer does not hold under the same public binding. -/
def dropMasks (peer : DecimalMap Value32) (frontierNodes : DecimalMap WireRecord) : List ℕ :=
  (frontierNodes.toList.filter fun entry => peer[entry.1]? ≠ some entry.2.publicBinding).map (·.1)

/-- `reconcile_with_peer` after the peer's response, up to the release of the lock. -/
def reconcileWithPeer (inner : Inner) (channelIndex : ℕ) (response : Option GetFrontierResponse) :
    Inner × List Mutation :=
  match response, inner.db.channels[channelIndex]? with
  | some response, some channel =>
    if response.channelEnabled then
      let masks := dropMasks (peerNodes response.nodes) channel.frontierNodes
      (inner.setChannel channelIndex
          { channel with frontierNodes := masks.foldl ExtTreeMap.erase channel.frontierNodes },
        masks.map (deleteFrontierMutation channelIndex))
    else (inner, [])
  | _, _ => (inner, [])

/-- `store_node`, up to the release of the lock. -/
def storeNode (sha256 : List UInt8 → Value32) (inner : Inner) (channelIndex mask : ℕ)
    (wires : Ag2pcSecureWires) : Except DaemonError (Inner × List Mutation) := do
  let bindings ← bindingPair sha256 inner channelIndex mask
  match inner.db.channels[channelIndex]? with
  | none => .error (.notFound "channel is not enabled")
  | some channel =>
    let record := WireRecord.ofWires bindings wires
    .ok (inner.setChannel channelIndex
        { channel with frontierNodes := channel.frontierNodes.insert mask record },
      [upsertFrontierMutation channelIndex mask record])

variable {sha256 : List UInt8 → Value32} {inner inner' : Inner} {c : ℕ} {mutations : List Mutation}

/-- Enabling a channel is mirrored by its mutations. -/
theorem enableChannel_mirrors (inner : Inner) (req : EnableChannelRequest) :
    applyMutations inner.db.record (enableChannel inner req).2.1 =
      (enableChannel inner req).1.db.record := by
  apply applyMutations_scalars <;>
    cases hc : inner.db.channels[req.channelIndex]? <;>
    simp [Inner.enabledEntry, PlainDb.channelOrEmpty, hc, emptyChannelRecord]

/-- Disabling a channel is mirrored by its mutations. -/
theorem disableChannel_mirrors {response : ChannelResponse}
    (h : disableChannel inner c = .ok (inner', mutations, response)) :
    applyMutations inner.db.record mutations = inner'.db.record := by
  unfold disableChannel at h
  split at h
  · cases h
  · split at h
    · cases h
    · next channel hc =>
      cases h
      have hentries : ∀ m ∈ channel.frontierNodes.keys.map (deleteFrontierMutation c),
          m.WritesEntry c := by
        intro m hm
        obtain ⟨mask, -, rfl⟩ := List.mem_map.mp hm
        exact ⟨rfl, .inr rfl⟩
      rw [applyMutations_upsertChannel_comm _ _ hentries]
      refine applyMutations_entries_channel hentries (fun i => ?_) fun m => ?_
      · refine (applyMutations_map_delete _ _ (LogicalKey.frontier c) _).trans ?_
        simp [hc, channelTable, ChannelRecord.record, LogicalKey.secret, LogicalKey.frontier]
      · refine (applyMutations_map_delete _ _ (LogicalKey.frontier c) _).trans ?_
        simp [hc, channelTable, ChannelRecord.record, LogicalKey.frontier]

/-- Storing a secret is mirrored by its mutations. -/
theorem Inner.storeKnownSecret_mirrors {index : Index48} {expectedNextIndex : ℕ} {secret : Value32}
    (h : inner.storeKnownSecret sha256 c index expectedNextIndex secret = .ok (inner', mutations)) :
    applyMutations inner.db.record mutations = inner'.db.record := by
  unfold Inner.storeKnownSecret at h
  cases hstore : Shachain2pc.storeKnownSecret (fun v => sha256 v.bytes.toList) inner.db c index
      expectedNextIndex secret with
  | error e => simp [hstore, Except.map] at h
  | ok result =>
    simp only [hstore, Except.map] at h
    cases h
    exact Shachain2pc.storeKnownSecret_mirrors hstore

/-- Counting a failed attempt is mirrored by its mutations. -/
theorem recordFailedPrecomputeAttempt_mirrors {plannedCheckedUnits : ℕ}
    (h : recordFailedPrecomputeAttempt inner c plannedCheckedUnits = .ok (inner', mutations)) :
    applyMutations inner.db.record mutations = inner'.db.record := by
  unfold recordFailedPrecomputeAttempt at h
  split at h
  · cases h
  · next channel hc =>
    cases h
    apply applyMutations_scalars <;> simp [PlainDb.channelOrEmpty, hc]

/-- Dropping the nodes a peer does not hold is mirrored by its mutations. -/
theorem reconcileWithPeer_mirrors (inner : Inner) (c : ℕ) (response : Option GetFrontierResponse) :
    applyMutations inner.db.record (reconcileWithPeer inner c response).2 =
      (reconcileWithPeer inner c response).1.db.record := by
  unfold reconcileWithPeer
  split
  · next response channel hc =>
    split
    · refine applyMutations_entries hc rfl (fun m hm => ?_) (fun i => ?_) fun m => ?_
      · obtain ⟨mask, -, rfl⟩ := List.mem_map.mp hm
        exact ⟨rfl, .inr rfl⟩
      · refine (applyMutations_map_delete _ _ (LogicalKey.frontier c) _).trans ?_
        simp [channelTable, ChannelRecord.record, LogicalKey.secret, LogicalKey.frontier]
      · refine (applyMutations_map_delete _ _ (LogicalKey.frontier c) _).trans ?_
        by_cases hm : m ∈ dropMasks (peerNodes response.nodes) channel.frontierNodes <;>
          simp [channelTable, ChannelRecord.record, LogicalKey.frontier, getElem?_foldl_erase, hm]
    · rfl
  · rfl

/-- Storing a node is mirrored by its mutations. -/
theorem storeNode_mirrors {mask : ℕ} {wires : Ag2pcSecureWires}
    (h : storeNode sha256 inner c mask wires = .ok (inner', mutations)) :
    applyMutations inner.db.record mutations = inner'.db.record := by
  unfold storeNode at h
  cases hc : inner.db.channels[c]? with
  | none => simp [bindingPair, hc, bind, Except.bind] at h
  | some channel =>
    simp only [bindingPair_of_channel hc, hc, bind, Except.bind] at h
    cases h
    refine applyMutations_entries hc rfl (by simp [Mutation.WritesEntry, upsertFrontierMutation,
      Mutation.key, LogicalKey.frontier]) (fun i => ?_) fun m => ?_
    · simp [upsertFrontierMutation, channelTable, ChannelRecord.record, LogicalKey.secret,
        LogicalKey.frontier]
    · by_cases hm : m = mask
      · simp [upsertFrontierMutation, ChannelRecord.record, LogicalKey.frontier, hm]
      · simp [upsertFrontierMutation, channelTable, ChannelRecord.record, LogicalKey.frontier, hm,
          ExtTreeMap.getElem?_insert, Ne.symm hm]

end Shachain2pc
