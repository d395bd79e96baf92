import Shachain2pc.Daemon.Writer
import Shachain2pc.Lib.Runs

/-!
# What an acknowledged flush covers

Callers send operations, the writer commits groups of them or fails to, and checkpoints
while dirty. Beside the writer itself, a run keeps the operations it accepted, the records
named by failed groups and not written since, and an entry for each flush answered with
success.

A failed group is dropped, and only its own flushes are told. A later flush is therefore
answered with success although the mutations of the failed group are in no table.
-/

namespace Shachain2pc

open Runs (run Along)

/-- A flush answered with success: how many operations were accepted before it, how many were
processed when it was answered, and the table a crash would then have left. -/
structure FlushAnswer where
  position : ℕ
  processed : ℕ
  durable : Table

/-- The writer with the history of one run. -/
structure FlushRun where
  writer : Writer
  accepted : List WriteOp
  lost : List LogicalKey
  answered : List FlushAnswer

/-- A caller sends an operation, the writer takes a group from the queue, or it checkpoints. -/
inductive WriterLabel where
  | send (op : WriteOp)
  | process (count : ℕ) (success : Bool)
  | checkpoint (success : Bool)

/-- A writer over a table whose content is durable, with nothing sent yet. -/
def FlushRun.start (table : Table) : FlushRun := ⟨⟨table, table, false, []⟩, [], [], []⟩

/-- The positions of the flushes of a group, of which `base` operations were accepted before. -/
def flushPositions (base : ℕ) : List WriteOp → List ℕ
  | [] => []
  | .flush _ :: rest => base :: flushPositions (base + 1) rest
  | .batch _ _ :: rest => flushPositions (base + 1) rest

/-- The number of operations the writer has taken from the queue. -/
def FlushRun.processed (s : FlushRun) : ℕ := s.accepted.length - s.writer.queue.length

/-- The keys named by a list of operations. -/
def keysOf (ops : List WriteOp) : List LogicalKey := (mutationsOf ops).map Mutation.key

/-- The run after a group of `count` operations is committed, leaving the writer `w`. -/
def FlushRun.committed (s : FlushRun) (count : ℕ) (w : Writer) : FlushRun :=
  let group := s.writer.queue.take count
  { s with
    writer := w
    lost := s.lost.filter (· ∉ keysOf group)
    answered := s.answered ++ (flushPositions s.processed group).map fun position =>
      ⟨position, s.processed + count, w.durable⟩ }

/-- The run after a group of `count` operations fails to commit. -/
def FlushRun.failed (s : FlushRun) (count : ℕ) (w : Writer) : FlushRun :=
  { s with writer := w, lost := s.lost ++ keysOf (s.writer.queue.take count) }

/-- One step of the writer and its callers. -/
def FlushRun.step (s : FlushRun) : WriterLabel → Option FlushRun
  | .send op => (s.writer.send op).map fun w =>
    { s with writer := w, accepted := s.accepted ++ w.queue.drop s.writer.queue.length }
  | .process count success => (s.writer.process count success).map fun result =>
    if success then s.committed count result.1 else s.failed count result.1
  | .checkpoint success =>
    if s.writer.dirty then some { s with writer := s.writer.runDbCheckpoint success } else none

/-- The table that the first `count` accepted operations leave when all are committed. -/
def FlushRun.log (initial : Table) (s : FlushRun) (count : ℕ) : Table :=
  applyMutations initial (mutationsOf (s.accepted.take count))

/-- A table agrees with another at a record, which a checkpoint may have rewritten. -/
def SameRecord (table expected : Table) (key : LogicalKey) : Prop :=
  table key = expected key ∨ key = .metadata ∧ table key = some metaRecord

/-- Every record mutated before an acknowledged flush is durable, as the operations up to some
point after the flush left it; and a clean writer has committed nothing that is not durable. -/
structure FlushDurable (initial : Table) (s : FlushRun) : Prop where
  answered : ∀ answer ∈ s.answered,
    answer.position ≤ answer.processed ∧ answer.processed ≤ s.accepted.length ∧
      ∀ key ∈ keysOf (s.accepted.take answer.position),
        SameRecord answer.durable (s.log initial answer.processed) key
  clean : s.writer.dirty = false → s.writer.durable = s.writer.table

/-- A group with a flush is committed only when each record lost with an earlier failed group is
written again by the group. -/
def FlushCovers (s : FlushRun) : WriterLabel → Prop
  | .process count true => (∃ ack, .flush ack ∈ s.writer.queue.take count) →
    ∀ key ∈ s.lost, key ∈ keysOf (s.writer.queue.take count)
  | _ => True

/-- The invariant of the runs: the queue is the unprocessed end of the accepted operations, and
every record that is not lost is as the processed ones left it. -/
structure FlushInvariant (initial : Table) (s : FlushRun) : Prop where
  queue : s.accepted.drop s.processed = s.writer.queue
  sent : ∀ op ∈ s.writer.queue, op.Sent
  table : ∀ key ∉ s.lost, SameRecord s.writer.table (s.log initial s.processed) key
  durable : FlushDurable initial s

/-- The fresh run meets the invariant. -/
theorem FlushInvariant.start (initial : Table) : FlushInvariant initial (.start initial) where
  queue := rfl
  sent _ h := (List.not_mem_nil h).elim
  table _ _ := .inl rfl
  durable := ⟨fun _ h => (List.not_mem_nil h).elim, fun _ => rfl⟩

/-- A listed position is that of a flush of the group. -/
theorem mem_flushPositions {base position : ℕ} {ops : List WriteOp}
    (h : position ∈ flushPositions base ops) :
    position < base + ops.length ∧ ∃ ack, .flush ack ∈ ops := by
  induction ops generalizing base with
  | nil => cases h
  | cons op rest ih =>
    rw [List.length_cons]
    cases op with
    | batch mutations durability =>
      obtain ⟨hlt, ack, hack⟩ := ih h
      exact ⟨by omega, ack, List.mem_cons_of_mem _ hack⟩
    | flush ack =>
      rcases List.mem_cons.mp h with rfl | h
      · exact ⟨by omega, ack, List.mem_cons_self⟩
      · obtain ⟨hlt, ack', hack'⟩ := ih h
        exact ⟨by omega, ack', List.mem_cons_of_mem _ hack'⟩

/-- Records an operation list does not name keep their value. -/
theorem applyMutations_of_not_mem_keysOf (table : Table) {ops : List WriteOp} {key : LogicalKey}
    (h : key ∉ keysOf ops) : applyMutations table (mutationsOf ops) key = table key :=
  applyMutations_of_forall_ne table fun _ hm heq => h (heq ▸ List.mem_map_of_mem hm)

/-- Records an operation list names do not depend on the table before it. -/
theorem applyMutations_of_mem_keysOf (table table' : Table) {ops : List WriteOp} {key : LogicalKey}
    (h : key ∈ keysOf ops) : applyMutations table (mutationsOf ops) key =
      applyMutations table' (mutationsOf ops) key := by
  obtain ⟨m, hm, rfl⟩ := List.mem_map.mp h
  exact Replay.replay_of_writes _ _ ⟨_, List.mem_map_of_mem hm, m.write_key⟩

/-- The same operations keep two tables in agreement, and bring them to agreement at every record
they name. -/
theorem SameRecord.applyMutations {table expected : Table} {ops : List WriteOp} {key : LogicalKey}
    (h : key ∉ keysOf ops → SameRecord table expected key) :
    SameRecord (applyMutations table (mutationsOf ops))
      (applyMutations expected (mutationsOf ops)) key := by
  by_cases hkey : key ∈ keysOf ops
  · exact .inl (applyMutations_of_mem_keysOf _ _ hkey)
  · rw [SameRecord, applyMutations_of_not_mem_keysOf _ hkey,
      applyMutations_of_not_mem_keysOf _ hkey]
    exact h hkey

variable {initial : Table} {s t : FlushRun}

/-- More accepted operations do not change the log of the earlier ones. -/
theorem log_append {more : List WriteOp} {count : ℕ} (hcount : count ≤ s.accepted.length)
    (hmore : t.accepted = s.accepted ++ more) : t.log initial count = s.log initial count := by
  rw [FlushRun.log, FlushRun.log, hmore, List.take_append_of_le_length hcount]

/-- The accepted operations are the processed and the queued ones. -/
theorem FlushInvariant.processed_add (h : FlushInvariant initial s) :
    s.processed + s.writer.queue.length = s.accepted.length := by
  have hlen := congrArg List.length h.queue
  rw [List.length_drop] at hlen
  unfold FlushRun.processed at *
  omega

/-- Processing a group extends the log by the group's mutations. -/
theorem FlushInvariant.log_add (h : FlushInvariant initial s) (count : ℕ) :
    s.log initial (s.processed + count) = applyMutations (s.log initial s.processed)
      (mutationsOf (s.writer.queue.take count)) := by
  rw [FlushRun.log, List.take_add, h.queue, mutationsOf_append, applyMutations_append]
  rfl

/-- Taking a group from the queue advances the processed operations by it. -/
theorem FlushInvariant.processed_drop (h : FlushInvariant initial s) {count : ℕ}
    (hcount : count ≤ s.writer.queue.length) (haccepted : t.accepted = s.accepted)
    (hqueue : t.writer.queue = s.writer.queue.drop count) :
    t.processed = s.processed + count ∧ t.accepted.drop t.processed = t.writer.queue := by
  have hadd := h.processed_add
  have hprocessed : t.processed = s.processed + count := by
    rw [FlushRun.processed, haccepted, hqueue, List.length_drop]
    omega
  refine ⟨hprocessed, ?_⟩
  rw [hprocessed, haccepted, hqueue, ← h.queue, List.drop_drop]

/-- Sending an operation keeps the invariant. -/
theorem FlushInvariant.send (h : FlushInvariant initial s) {op : WriteOp}
    (hstep : s.step (.send op) = some t) : FlushInvariant initial t := by
  obtain ⟨w, hw, rfl⟩ := Option.map_eq_some_iff.mp hstep
  obtain ⟨more, rfl, -, hmore⟩ := Writer.send_eq hw
  have hadd := h.processed_add
  simp only [List.drop_left]
  have hprocessed : FlushRun.processed { s with
      writer := { s.writer with queue := s.writer.queue ++ more }
      accepted := s.accepted ++ more } = s.processed := by
    simp only [FlushRun.processed, List.length_append] at hadd ⊢
    omega
  refine ⟨?_, fun op hop => ?_, fun key hkey => ?_, fun answer hanswer => ?_, h.durable.clean⟩
  · rw [hprocessed, List.drop_append_of_le_length (by omega), h.queue]
  · exact (List.mem_append.mp hop).elim (h.sent op) (hmore op)
  · rw [hprocessed, log_append (by omega) rfl]
    exact h.table key hkey
  · obtain ⟨hposition, hanswered, hsame⟩ := h.durable.answered answer hanswer
    refine ⟨hposition, Nat.le_trans hanswered (by simp), ?_⟩
    rw [log_append hanswered rfl, List.take_append_of_le_length (Nat.le_trans hposition hanswered)]
    exact hsame

/-- A group that fails to commit keeps the invariant: its records are lost. -/
theorem FlushInvariant.process_false (h : FlushInvariant initial s) {count : ℕ}
    (hstep : s.step (.process count false) = some t) : FlushInvariant initial t := by
  obtain ⟨⟨w, answers⟩, hw, rfl⟩ := Option.map_eq_some_iff.mp hstep
  obtain ⟨hcount, -, -⟩ := Writer.process_take h.sent hw
  obtain rfl := Writer.process_false h.sent hw
  change FlushInvariant initial
    (s.failed count { s.writer with queue := s.writer.queue.drop count })
  obtain ⟨hprocessed, hdrop⟩ := h.processed_drop (t := s.failed count { s.writer with
    queue := s.writer.queue.drop count }) hcount rfl rfl
  refine ⟨hdrop, fun op hop => h.sent op (List.mem_of_mem_drop hop), fun key hkey => ?_,
    h.durable.answered, h.durable.clean⟩
  obtain ⟨hlost, hgroup⟩ := not_or.mp (mt List.mem_append.mpr hkey)
  have hlog := h.log_add count
  rw [hprocessed]
  change SameRecord s.writer.table (s.log initial (s.processed + count)) key
  rw [SameRecord, hlog, applyMutations_of_not_mem_keysOf _ hgroup]
  exact h.table key hlost

/-- A committed group keeps the invariant when it covers the lost records its flushes promise. -/
theorem FlushInvariant.process_true (h : FlushInvariant initial s) {count : ℕ}
    (hcovers : FlushCovers s (.process count true))
    (hstep : s.step (.process count true) = some t) : FlushInvariant initial t := by
  obtain ⟨⟨w, answers⟩, hw, rfl⟩ := Option.map_eq_some_iff.mp hstep
  obtain ⟨hcount, -, -⟩ := Writer.process_take h.sent hw
  obtain ⟨hqueue, htable, hclean, hdurable⟩ := Writer.process_true h.sent hw
  change FlushInvariant initial (s.committed count w)
  obtain ⟨hprocessed, hdrop⟩ := h.processed_drop (t := s.committed count w) hcount rfl hqueue
  have hadd := h.processed_add
  have hrecord : ∀ key, (key ∈ s.lost → key ∈ keysOf (s.writer.queue.take count)) →
      SameRecord w.table (s.log initial (s.processed + count)) key := by
    intro key hkey
    rw [htable, h.log_add count]
    exact SameRecord.applyMutations fun hgroup => h.table key (mt hkey hgroup)
  refine ⟨hdrop, fun op hop => h.sent op (List.mem_of_mem_drop (hqueue ▸ hop)), fun key hkey => ?_,
    ⟨fun answer hanswer => ?_, hclean⟩⟩
  · rw [hprocessed]
    refine hrecord key fun hlost => ?_
    by_contra hgroup
    exact hkey (List.mem_filter.mpr ⟨hlost, by simpa using hgroup⟩)
  · rcases List.mem_append.mp hanswer with hanswer | hanswer
    · exact h.durable.answered answer hanswer
    · obtain ⟨position, hposition, rfl⟩ := List.mem_map.mp hanswer
      obtain ⟨hlt, hflush⟩ := mem_flushPositions hposition
      rw [List.length_take] at hlt
      refine ⟨by simp only; omega, by simp only [FlushRun.committed]; omega, fun key _ => ?_⟩
      change SameRecord w.durable _ key
      rw [hdurable hflush]
      exact hrecord key (hcovers hflush key)

/-- A checkpoint keeps the invariant. -/
theorem FlushInvariant.checkpoint (h : FlushInvariant initial s) {success : Bool}
    (hstep : s.step (.checkpoint success) = some t) : FlushInvariant initial t := by
  rw [FlushRun.step, Option.ite_none_right_eq_some] at hstep
  obtain ⟨-, hstep⟩ := hstep
  cases hstep
  cases success with
  | false => exact ⟨h.queue, h.sent, h.table, h.durable.answered, h.durable.clean⟩
  | true =>
    refine ⟨h.queue, h.sent, fun key hkey => ?_, h.durable.answered, fun _ => rfl⟩
    change SameRecord (applyMutations s.writer.table [.upsert .metadata metaRecord])
      (s.log initial s.processed) key
    by_cases hmeta : key = .metadata
    · subst hmeta
      exact .inr ⟨rfl, by simp⟩
    · rw [SameRecord, applyMutations_of_forall_ne _ (by simpa [Mutation.key] using Ne.symm hmeta)]
      exact h.table key hkey

/-- One step keeps the invariant under the condition. -/
theorem FlushInvariant.step (h : FlushInvariant initial s) {label : WriterLabel}
    (hcovers : FlushCovers s label) (hstep : s.step label = some t) : FlushInvariant initial t := by
  cases label with
  | send op => exact h.send hstep
  | process count success =>
    cases success with
    | false => exact h.process_false hstep
    | true => exact h.process_true hcovers hstep
  | checkpoint success => exact h.checkpoint hstep

/-- In every run in which the groups with flushes cover what failed groups lost, an acknowledged
flush means durable, and a clean writer has nothing left to make durable. -/
theorem flush_durable (initial : Table) (labels : List WriterLabel)
    (hcovers : Along FlushRun.step FlushCovers (.start initial) labels)
    (hrun : run FlushRun.step (.start initial) labels = some t) : FlushDurable initial t :=
  (Runs.invariant (fun _ _ _ h hcond hstep => FlushInvariant.step h hcond hstep)
    (FlushInvariant.start initial) hrun hcovers).durable

/-- A batch is lost with its failed group and sent again before the next flush, which then covers
it. -/
theorem flush_durable_resent : ∃ t,
    run FlushRun.step (.start fun _ => none)
      [.send (.batch [upsertChannelMutation 1 emptyChannelRecord] .eventual), .process 1 false,
        .send (.batch [upsertChannelMutation 1 emptyChannelRecord] .eventual), .send (.flush 0),
        .process 2 true] = some t ∧
      t.answered.length = 1 ∧ FlushDurable (fun _ => none) t := by
  have hcovers : Along FlushRun.step FlushCovers (.start fun _ => none)
      [.send (.batch [upsertChannelMutation 1 emptyChannelRecord] .eventual), .process 1 false,
        .send (.batch [upsertChannelMutation 1 emptyChannelRecord] .eventual), .send (.flush 0),
        .process 2 true] := by
    simp [Along, FlushCovers, FlushRun.start, FlushRun.step, Writer.send, Writer.process,
      queueCapacity, upsertChannelMutation, FlushRun.failed, Writer.processDbWriterBatch, collect,
      collectWriteOp, keysOf, mutationsOf]
  exact ⟨_, rfl, rfl, flush_durable _ _ hcovers rfl⟩

/-- A batch is lost with its failed group, the next flush is alone in a group which commits, and is
answered with success. -/
theorem flush_durable_lost : ∃ labels t,
    run FlushRun.step (.start fun _ => none) labels = some t ∧ ¬ FlushDurable
      (fun _ => none) t := by
  refine ⟨[.send (.batch [upsertChannelMutation 1 emptyChannelRecord] .eventual), .process 1 false,
    .send (.flush 0), .process 1 true], _, rfl, fun h => ?_⟩
  obtain ⟨-, -, hsame⟩ := h.answered _ List.mem_cons_self
  rcases hsame (.channel 1) (by decide) with hlog | ⟨hkey, -⟩
  · exact absurd hlog (by decide)
  · exact absurd hkey (by decide)

end Shachain2pc
