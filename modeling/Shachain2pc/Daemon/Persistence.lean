import Shachain2pc.Daemon.Jobs
import Shachain2pc.Daemon.Writer
import Shachain2pc.Lib.Runs
import Shachain2pc.Lib.Rust

/-!
# The table follows the memory

An operation changes the memory under the lock and sends its mutations to the writer after
it has released it. Between the two, other operations may run their critical sections and
send their batches first. The state here holds the batches that are computed and not yet
sent, in the order of their critical sections; they may be sent in any order.

When the writer has committed everything, the table mirrors the memory if no batch was sent
before an older unsent batch which writes one of its records. Without this the order of the
queue, and not that of the critical sections, decides what is stored.
-/

namespace Shachain2pc

open Runs (run Along)

/-- The critical sections which change the channel records, with the values their callers read
elsewhere. -/
inductive Operation where
  | enableChannel (req : EnableChannelRequest)
  | disableChannel (channelIndex : ℕ)
  | storeKnownSecret (channelIndex : ℕ) (index : Index48) (expectedNextIndex : ℕ) (secret : Value32)
  | recordFailedPrecomputeAttempt (channelIndex plannedCheckedUnits : ℕ)
  | reconcileWithPeer (channelIndex : ℕ) (response : Option GetFrontierResponse)
  | storeNode (channelIndex mask : ℕ) (wires : Ag2pcSecureWires)
  | beginPrecomputeJobstream (channelIndex : ℕ) (index : Index48) (peer : PeerFrontierConfig)
    (plannedCheckedUnits effectiveWorkers : ℕ)
  | beginIncomingPrecomputeTarget (descriptor : GrpcJobDescriptor) (index : Index48)
    (plannedCheckedUnits effectiveWorkers : ℕ)
  | storePrecomputedTargetWiresAndFinishJob (channelIndex : ℕ) (jobId : String)
    (plannedCheckedUnits targetMask : ℕ) (wires : Ag2pcSecureWires)
  | finishJob (jobId : String) (failed : Bool)

/-- The durability an operation asks for. -/
def Operation.durability : Operation → DbDurability
  | .enableChannel _ | .disableChannel _ => .immediate
  | _ => .eventual

/-- The memory and the mutations an operation leaves when it releases the lock. -/
def Inner.perform (sha256 : List UInt8 → Value32) (inner : Inner) :
    Operation → Except DaemonError (Inner × List Mutation)
  | .enableChannel req =>
    let result := enableChannel inner req
    .ok (result.1, result.2.1)
  | .disableChannel c => (disableChannel inner c).map fun result => (result.1, result.2.1)
  | .storeKnownSecret c index expectedNextIndex secret =>
    inner.storeKnownSecret sha256 c index expectedNextIndex secret
  | .recordFailedPrecomputeAttempt c units => recordFailedPrecomputeAttempt inner c units
  | .reconcileWithPeer c response => .ok (reconcileWithPeer inner c response)
  | .storeNode c mask wires => storeNode sha256 inner c mask wires
  | .beginPrecomputeJobstream c index peer units workers =>
    (beginPrecomputeJobstream sha256 inner c index peer units workers).map fun result =>
      (result.1, result.2.1)
  | .beginIncomingPrecomputeTarget descriptor index units workers =>
    (beginIncomingPrecomputeTarget inner descriptor index units workers).map fun result =>
      (result.1, result.2.1)
  | .storePrecomputedTargetWiresAndFinishJob c jobId units mask wires =>
    storePrecomputedTargetWiresAndFinishJob sha256 inner c jobId units mask wires
  | .finishJob jobId failed => .ok (finishJob inner jobId failed)

/-- The daemon with its writer: the memory, the batches not yet sent, and the writer. -/
structure Persistence where
  inner : Inner
  unsent : List (List Mutation × DbDurability)
  writer : Writer

/-- An operation runs its critical section, a caller sends the batch at a position, a caller or
the shutdown sends a flush, the writer commits a group, or it checkpoints. -/
inductive PersistenceLabel where
  | perform (operation : Operation)
  | send (position : ℕ)
  | flush (ack : ℕ)
  | process (count : ℕ)
  | checkpoint

/-- One step; a refused operation changes nothing and sends nothing. -/
def Persistence.step (sha256 : List UInt8 → Value32) (s : Persistence) :
    PersistenceLabel → Option Persistence
  | .perform operation => match s.inner.perform sha256 operation with
    | .error _ => some s
    | .ok (inner, mutations) =>
      some { s with inner := inner, unsent := s.unsent ++ [(mutations, operation.durability)] }
  | .send position => s.unsent[position]?.bind fun batch =>
    (s.writer.send (.batch batch.1 batch.2)).map fun writer =>
      { s with unsent := s.unsent.eraseIdx position, writer := writer }
  | .flush ack => (s.writer.send (.flush ack)).map fun writer => { s with writer := writer }
  | .process count => (s.writer.process count true).map fun result =>
    { s with writer := result.1 }
  | .checkpoint =>
    if s.writer.dirty then some { s with writer := s.writer.runDbCheckpoint true } else none

/-- The writer is drained: every batch is sent and committed. -/
def Persistence.Drained (s : Persistence) : Prop := s.unsent = [] ∧ s.writer.queue = []

/-- A drained writer has stored the memory: loading the table, in whichever order it lists its
records, returns it. -/
def Persistence.FollowsMemory (s : Persistence) : Prop :=
  s.Drained → ∀ records, Lists records s.writer.table → loadRedbState records = .ok s.inner.db

/-- No batch is sent before an older unsent batch which names one of its records. -/
def Persistence.SendsInOrder (s : Persistence) : PersistenceLabel → Prop
  | .send position => ∀ older ∈ s.unsent.take position, ∀ batch ∈ s.unsent[position]?,
    ∀ m ∈ older.1, ∀ m' ∈ batch.1, m.key ≠ m'.key
  | _ => True

/-- The mutations the table lacks, in the order of the critical sections where it matters. -/
def Persistence.pendingMutations (s : Persistence) : List Mutation :=
  mutationsOf s.writer.queue ++ s.unsent.flatMap (·.1)

/-- The invariant of the runs: the pending mutations turn the table into the memory's records. -/
structure PersistenceInvariant (s : Persistence) : Prop where
  sent : ∀ op ∈ s.writer.queue, op.Sent
  mirrors : applyMutations s.writer.table s.pendingMutations = s.inner.db.record

variable {sha256 : List UInt8 → Value32} {s t : Persistence}

/-- Every critical section is mirrored by its mutations. -/
theorem Inner.perform_mirrors {inner inner' : Inner} {operation : Operation}
    {mutations : List Mutation} (h : inner.perform sha256 operation = .ok (inner', mutations)) :
    applyMutations inner.db.record mutations = inner'.db.record := by
  cases operation with
  | enableChannel req =>
    cases h
    exact enableChannel_mirrors inner req
  | disableChannel c =>
    obtain ⟨⟨_, _, response⟩, hok, heq⟩ := Rust.map_eq_ok h
    cases heq
    exact disableChannel_mirrors hok
  | storeKnownSecret c index expectedNextIndex secret => exact Inner.storeKnownSecret_mirrors h
  | recordFailedPrecomputeAttempt c units => exact recordFailedPrecomputeAttempt_mirrors h
  | reconcileWithPeer c response =>
    have hmirrors := reconcileWithPeer_mirrors inner c response
    rwa [Except.ok.inj h] at hmirrors
  | storeNode c mask wires => exact storeNode_mirrors h
  | beginPrecomputeJobstream c index peer units workers =>
    obtain ⟨⟨_, _, start⟩, hok, heq⟩ := Rust.map_eq_ok h
    cases heq
    exact beginPrecomputeJobstream_mirrors hok
  | beginIncomingPrecomputeTarget descriptor index units workers =>
    obtain ⟨⟨_, _, jobId⟩, hok, heq⟩ := Rust.map_eq_ok h
    cases heq
    exact beginIncomingPrecomputeTarget_mirrors hok
  | storePrecomputedTargetWiresAndFinishJob c jobId units mask wires =>
    exact storePrecomputedTargetWiresAndFinishJob_mirrors h
  | finishJob jobId failed =>
    have hmirrors := finishJob_mirrors inner jobId failed
    rwa [Except.ok.inj h] at hmirrors

/-- A memory which its table mirrors, with nothing unsent or queued, meets the invariant. -/
theorem PersistenceInvariant.start {s : Persistence} (hdrained : s.Drained)
    (hmirrors : Mirrors s.writer.table s.inner.db) : PersistenceInvariant s := by
  obtain ⟨hunsent, hqueue⟩ := hdrained
  refine ⟨by simp [hqueue], ?_⟩
  simp only [Persistence.pendingMutations, hunsent, hqueue]
  exact hmirrors

/-- A critical section keeps the invariant. -/
theorem PersistenceInvariant.perform (h : PersistenceInvariant s) {operation : Operation}
    (hstep : s.step sha256 (.perform operation) = some t) : PersistenceInvariant t := by
  simp only [Persistence.step] at hstep
  split at hstep
  · cases hstep
    exact h
  · next inner mutations hperform =>
    cases hstep
    refine ⟨h.sent, ?_⟩
    have hmirrors := Inner.perform_mirrors hperform
    rw [← h.mirrors, ← applyMutations_append] at hmirrors
    simpa [Persistence.pendingMutations] using hmirrors

/-- Sending a batch keeps the invariant when no older unsent batch names one of its records. -/
theorem PersistenceInvariant.send (h : PersistenceInvariant s) {position : ℕ}
    (horder : s.SendsInOrder (.send position))
    (hstep : s.step sha256 (.send position) = some t) : PersistenceInvariant t := by
  obtain ⟨batch, hbatch, hstep⟩ := Option.bind_eq_some_iff.mp hstep
  obtain ⟨writer, hsend, rfl⟩ := Option.map_eq_some_iff.mp hstep
  obtain ⟨more, rfl, hmutations, hmore⟩ := Writer.send_eq hsend
  refine ⟨fun op hop => (List.mem_append.mp hop).elim (h.sent op) (hmore op), ?_⟩
  obtain ⟨hlt, rfl⟩ := List.getElem?_eq_some_iff.mp hbatch
  have hcomm : ∀ m ∈ s.unsent[position].1, ∀ m' ∈ (s.unsent.take position).flatMap (·.1),
      m.key ≠ m'.key := by
    intro m hm m' hm' hkey
    obtain ⟨older, holder, hm'⟩ := List.mem_flatMap.mp hm'
    exact horder older holder _ hbatch m' hm' m hm hkey.symm
  have hsplit : s.unsent.flatMap (·.1) = (s.unsent.take position).flatMap (·.1) ++
      (s.unsent[position].1 ++ (s.unsent.drop (position + 1)).flatMap (·.1)) := by
    rw [← List.flatMap_cons, ← List.drop_eq_getElem_cons hlt, ← List.flatMap_append,
      List.take_append_drop]
  rw [← h.mirrors]
  simp only [Persistence.pendingMutations, hsplit, mutationsOf_append, hmutations,
    List.eraseIdx_eq_take_drop_succ, List.flatMap_append]
  simp only [mutationsOf, List.flatMap_cons, List.flatMap_nil, List.append_nil, List.append_assoc,
    applyMutations_append]
  rw [← applyMutations_append _ s.unsent[position].1, applyMutations_append_comm _ hcomm,
    applyMutations_append]

/-- Sending a flush keeps the invariant. -/
theorem PersistenceInvariant.flush (h : PersistenceInvariant s) {ack : ℕ}
    (hstep : s.step sha256 (.flush ack) = some t) : PersistenceInvariant t := by
  obtain ⟨writer, hsend, rfl⟩ := Option.map_eq_some_iff.mp hstep
  obtain ⟨more, rfl, hmutations, hmore⟩ := Writer.send_eq hsend
  refine ⟨fun op hop => (List.mem_append.mp hop).elim (h.sent op) (hmore op), ?_⟩
  rw [← h.mirrors]
  simp only [Persistence.pendingMutations, mutationsOf_append, hmutations, List.append_assoc]
  rfl

/-- Committing a group keeps the invariant. -/
theorem PersistenceInvariant.process (h : PersistenceInvariant s) {count : ℕ}
    (hstep : s.step sha256 (.process count) = some t) : PersistenceInvariant t := by
  obtain ⟨⟨writer, answers⟩, hprocess, rfl⟩ := Option.map_eq_some_iff.mp hstep
  obtain ⟨hqueue, htable, -, -⟩ := Writer.process_true h.sent hprocess
  refine ⟨fun op hop => h.sent op (List.mem_of_mem_drop (hqueue ▸ hop)), ?_⟩
  rw [← h.mirrors]
  simp only [Persistence.pendingMutations, hqueue, htable]
  rw [← applyMutations_append, ← List.append_assoc, ← mutationsOf_append, List.take_append_drop]

/-- A checkpoint keeps the invariant: the memory has the verifier record too. -/
theorem PersistenceInvariant.checkpoint (h : PersistenceInvariant s)
    (hstep : s.step sha256 .checkpoint = some t) : PersistenceInvariant t := by
  obtain ⟨-, hstep⟩ := Option.ite_none_right_eq_some.mp hstep
  cases hstep
  refine ⟨h.sent, ?_⟩
  change applyMutations (applyMutations s.writer.table [.upsert .metadata metaRecord])
    s.pendingMutations = s.inner.db.record
  funext key
  have hkey := congrFun h.mirrors key
  by_cases hwrites : ∃ m ∈ s.pendingMutations, m.key = key
  · rw [← hkey]
    obtain ⟨m, hm, rfl⟩ := hwrites
    exact Replay.replay_of_writes _ _ ⟨m.write, List.mem_map_of_mem hm, m.write_key⟩
  · have hne : ∀ m ∈ s.pendingMutations, m.key ≠ key := fun m hm heq => hwrites ⟨m, hm, heq⟩
    rw [applyMutations_of_forall_ne _ hne] at hkey ⊢
    by_cases hmeta : key = .metadata
    · simp [hmeta, PlainDb.record]
    · simpa [Function.update_of_ne hmeta] using hkey

/-- One step which sends in order keeps the invariant. -/
theorem PersistenceInvariant.step (h : PersistenceInvariant s) {label : PersistenceLabel}
    (horder : s.SendsInOrder label) (hstep : s.step sha256 label = some t) :
    PersistenceInvariant t := by
  cases label with
  | perform operation => exact h.perform hstep
  | send position => exact h.send horder hstep
  | flush ack => exact h.flush hstep
  | process count => exact h.process hstep
  | checkpoint => exact h.checkpoint hstep

/-- In every run from a mirrored state which sends in order, a drained writer has stored the
memory. -/
theorem persisted_followsMemory (labels : List PersistenceLabel) (hdrained : s.Drained)
    (hmirrors : Mirrors s.writer.table s.inner.db)
    (horder : Along (Persistence.step sha256) Persistence.SendsInOrder s labels)
    (hrun : run (Persistence.step sha256) s labels = some t) : t.FollowsMemory := by
  have hinv : PersistenceInvariant t :=
    Runs.invariant (fun _ _ _ h hcond hstep => PersistenceInvariant.step h hcond hstep)
      (PersistenceInvariant.start hdrained hmirrors) hrun horder
  rintro ⟨hunsent, hqueue⟩ records hrecords
  have htable := hinv.mirrors
  simp only [Persistence.pendingMutations, hunsent, hqueue] at htable
  exact loadRedbState_of_mirrors htable hrecords

/-- A daemon over an empty database. -/
def Persistence.fresh : Persistence where
  inner :=
    { cfg := ⟨.alice, none, 1, 1⟩
      masterSecret := []
      db := .default
      activeJobs := ∅
      nextJobId := 0 }
  unsent := []
  writer := ⟨PlainDb.default.record, PlainDb.default.record, false, []⟩

/-- A channel is enabled, an attempt on it fails, and it is disabled; the batches are sent in the
order of the critical sections. -/
theorem persisted_followsMemory_fresh : ∃ t,
    run (Persistence.step fun _ => ⟨Vector.replicate 32 0⟩) .fresh
      [.perform (.enableChannel ⟨1, 0, 0, 0⟩), .send 0, .process 1,
        .perform (.recordFailedPrecomputeAttempt 1 5), .perform (.disableChannel 1), .send 0,
        .send 0, .process 2] = some t ∧ t.Drained ∧ t.FollowsMemory := by
  have horder : Along (Persistence.step fun _ => ⟨Vector.replicate 32 0⟩) Persistence.SendsInOrder
      .fresh [.perform (.enableChannel ⟨1, 0, 0, 0⟩), .send 0, .process 1,
        .perform (.recordFailedPrecomputeAttempt 1 5), .perform (.disableChannel 1), .send 0,
        .send 0, .process 2] := by
    simp [Along, Persistence.SendsInOrder]
  exact ⟨_, rfl, ⟨rfl, rfl⟩, persisted_followsMemory (s := .fresh) _ ⟨rfl, rfl⟩ rfl horder rfl⟩

/-- A table with the verifier record and one channel is listed by these two records. -/
theorem lists_update_default (c : ℕ) (record : StoredRecord) :
    Lists [metaRecord, record]
      (Function.update PlainDb.default.record (.channel c) (some record)) := by
  have hne : LogicalKey.metadata ≠ .channel c := by simp [LogicalKey.metadata, LogicalKey.channel]
  intro r
  rw [List.mem_cons, List.mem_singleton]
  constructor
  · rintro (rfl | rfl)
    · exact ⟨.metadata, by rw [Function.update_of_ne hne]; rfl⟩
    · exact ⟨.channel c, Function.update_self ..⟩
  · rintro ⟨key, hkey⟩
    by_cases hc : key = .channel c
    · rw [hc, Function.update_self] at hkey
      exact .inr (Option.some.inj hkey).symm
    · rw [Function.update_of_ne hc] at hkey
      by_cases hmeta : key = .metadata
      · rw [hmeta] at hkey
        exact .inl (Option.some.inj hkey).symm
      · simp [PlainDb.record, PlainDb.default, hmeta] at hkey

/-- The same operations with the batch of the attempt sent after that of the disabling: the table
keeps the channel enabled. -/
theorem persisted_stale : ∃ labels t,
    run (Persistence.step fun _ => ⟨Vector.replicate 32 0⟩) .fresh labels = some t ∧
      ¬ t.FollowsMemory := by
  refine ⟨[.perform (.enableChannel ⟨1, 0, 0, 0⟩), .send 0, .process 1,
    .perform (.recordFailedPrecomputeAttempt 1 5), .perform (.disableChannel 1), .send 1, .send 0,
    .process 2], _, rfl, fun h => ?_⟩
  have hlists := lists_update_default 1 ⟨.channel, 1, 0, .channel
    { emptyChannelRecord.scalars with
      enabled := true
      precomputeTarget := 1
      attemptedCheckedUnits := 5
      failedPrecomputeJobs := 1 }⟩
  have hload := h ⟨rfl, rfl⟩ _ (Eq.mp (congrArg _ ?_) hlists)
  · have henabled := congrArg (fun result => result.toOption.bind fun db =>
      db.channels[1]?.map ChannelRecord.enabled) hload
    exact absurd henabled (by decide)
  · -- All three batches write the record of the channel; the last one is that of the attempt.
    change _ = Function.update (Function.update (Function.update PlainDb.default.record
      (.channel 1) _) (.channel 1) _) (.channel 1) _
    rw [Function.update_idem, Function.update_idem]
    rfl

end Shachain2pc
