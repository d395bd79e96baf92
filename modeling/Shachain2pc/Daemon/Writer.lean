import Shachain2pc.Daemon.Table

/-!
# The database writer

Callers send batches of mutations and flushes to one writer task through a bounded queue.
The writer merges a prefix of the queue into one transaction and answers the flushes
merged with it. Committed data survives a crash once a commit of immediate durability
has followed; the writer remembers in `dirty` whether one is still needed.

A commit either applies a whole transaction or leaves the table unchanged.
-/

namespace Shachain2pc

inductive DbDurability where
  | eventual
  | immediate
  deriving DecidableEq, Repr

/-- A queued operation; a flush is named by its acknowledgement channel. -/
inductive WriteOp where
  | batch (mutations : List Mutation) (durability : DbDurability)
  | flush (ack : ℕ)
  deriving DecidableEq, Repr

/-- The capacity of the writer's queue. -/
def queueCapacity : ℕ := 16384

/-- The database with its writer task: the committed table, the table a crash would leave, and
the queue. -/
structure Writer where
  table : Table
  durable : Table
  dirty : Bool
  queue : List WriteOp

/-- What `collect_write_op` accumulates over a group of operations. -/
structure Collected where
  mutations : List Mutation
  acks : List ℕ
  durability : DbDurability

/-- `collect_write_op`. -/
def collectWriteOp (group : Collected) : WriteOp → Collected
  | .batch mutations durability => { group with
      mutations := group.mutations ++ mutations
      durability := if durability = .immediate then .immediate else group.durability }
  | .flush ack => { group with acks := group.acks ++ [ack], durability := .immediate }

/-- The operations merged into one transaction. -/
def collect (ops : List WriteOp) : Collected := ops.foldl collectWriteOp ⟨[], [], .eventual⟩

/-- `apply_mutations` when the commit succeeds. -/
def Writer.commit (w : Writer) (mutations : List Mutation) (durability : DbDurability) : Writer :=
  let table := applyMutations w.table mutations
  { w with table := table, durable := if durability = .immediate then table else w.durable }

/-- `process_db_writer_batch` on the merged operations, with the answers sent to the flushes.
`success` is the outcome of `apply_mutations`. -/
def Writer.processDbWriterBatch (w : Writer) (group : Collected) (success : Bool) :
    Writer × List (ℕ × Bool) :=
  if group.mutations = [] ∧ group.acks = [] then
    ({ w with dirty := group.durability ≠ .immediate }, [])
  else if success then
    ({ w.commit group.mutations group.durability with dirty := group.durability ≠ .immediate },
      group.acks.map (·, true))
  else (w, group.acks.map (·, false))

/-- `checkpoint_database`, which the writer runs while it is dirty; a failure changes nothing. -/
def Writer.runDbCheckpoint (w : Writer) (success : Bool) : Writer :=
  if success then { w.commit [.upsert .metadata metaRecord] .immediate with dirty := false } else w

/-- `DbWriter::write_batch`, or the send of `DbWriter::flush`: empty batches are not sent, and a
full queue makes the caller wait. -/
def Writer.send (w : Writer) (op : WriteOp) : Option Writer :=
  match op with
  | .batch [] _ => some w
  | op => if w.queue.length < queueCapacity then some { w with queue := w.queue ++ [op] } else none

/-- The writer takes the first operations of the queue as one group. -/
def Writer.process (w : Writer) (count : ℕ) (success : Bool) : Option (Writer × List (ℕ × Bool)) :=
  if 0 < count ∧ count ≤ w.queue.length then
    some ({ w with queue := w.queue.drop count }.processDbWriterBatch
      (collect (w.queue.take count)) success)
  else none

/-- The mutations of a list of operations, oldest first. -/
def mutationsOf (ops : List WriteOp) : List Mutation :=
  ops.flatMap fun
    | .batch mutations _ => mutations
    | .flush _ => []

/-- The mutations of consecutive operation lists follow each other. -/
theorem mutationsOf_append (first second : List WriteOp) :
    mutationsOf (first ++ second) = mutationsOf first ++ mutationsOf second :=
  List.flatMap_append

/-- Collecting further operations appends to what was collected. -/
theorem foldl_collectWriteOp (ops : List WriteOp) (group : Collected) :
    (ops.foldl collectWriteOp group).mutations = group.mutations ++ mutationsOf ops ∧
      (∀ ack, ack ∈ (ops.foldl collectWriteOp group).acks ↔ ack ∈ group.acks ∨ .flush ack ∈ ops) ∧
      ((ops.foldl collectWriteOp group).durability = .eventual →
        group.durability = .eventual ∧ ∀ ack, .flush ack ∉ ops) := by
  induction ops generalizing group with
  | nil => simp [mutationsOf]
  | cons op rest ih =>
    obtain ⟨hmutations, hacks, hdurability⟩ := ih (collectWriteOp group op)
    cases op with
    | batch mutations durability =>
      refine ⟨?_, fun ack => ?_, fun h => ?_⟩
      · rw [List.foldl_cons, hmutations]
        simp [collectWriteOp, mutationsOf]
      · rw [List.foldl_cons, hacks]
        simp [collectWriteOp]
      · obtain ⟨hgroup, hrest⟩ := hdurability h
        cases durability with
        | eventual => exact ⟨by simpa [collectWriteOp] using hgroup, by simpa using hrest⟩
        | immediate => simp [collectWriteOp] at hgroup
    | flush ack =>
      refine ⟨?_, fun ack' => ?_, fun h => ?_⟩
      · rw [List.foldl_cons, hmutations]
        simp [collectWriteOp, mutationsOf]
      · rw [List.foldl_cons, hacks]
        simp [collectWriteOp, or_assoc]
      · cases (hdurability h).1

/-- A group merges the mutations of its operations in order. -/
theorem collect_mutations (ops : List WriteOp) : (collect ops).mutations = mutationsOf ops := by
  simpa [collect] using (foldl_collectWriteOp ops ⟨[], [], .eventual⟩).1

/-- A group answers exactly its flushes. -/
theorem mem_collect_acks {ops : List WriteOp} {ack : ℕ} :
    ack ∈ (collect ops).acks ↔ .flush ack ∈ ops := by
  simpa [collect] using (foldl_collectWriteOp ops ⟨[], [], .eventual⟩).2.1 ack

/-- A group with a flush is committed with immediate durability. -/
theorem collect_durability {ops : List WriteOp} {ack : ℕ} (h : .flush ack ∈ ops) :
    (collect ops).durability = .immediate := by
  have hend := (foldl_collectWriteOp ops ⟨[], [], .eventual⟩).2.2
  cases hd : (collect ops).durability with
  | immediate => rfl
  | eventual => exact absurd h ((hend hd).2 ack)

/-- What a caller can have queued: a flush or a batch which is not empty. -/
def WriteOp.Sent : WriteOp → Prop
  | .batch mutations _ => mutations ≠ []
  | .flush _ => True

/-- Sending appends at most one operation, with the same mutations, which is never an empty
batch. -/
theorem Writer.send_eq {w w' : Writer} {op : WriteOp} (h : w.send op = some w') :
    ∃ more, w' = { w with queue := w.queue ++ more } ∧ mutationsOf more = mutationsOf [op] ∧
      ∀ op ∈ more, op.Sent := by
  unfold Writer.send at h
  split at h
  · cases h
    exact ⟨[], by simp, rfl, fun op hop => (List.not_mem_nil hop).elim⟩
  · next op₀ hop =>
    split at h
    · cases h
      refine ⟨[op], rfl, rfl, fun op' hop' => ?_⟩
      obtain rfl := List.mem_singleton.mp hop'
      cases op' with
      | batch mutations durability =>
        rintro rfl
        exact hop durability rfl
      | flush ack => trivial
    · cases h

/-- A group of sent operations is never empty of both mutations and flushes. -/
theorem collect_ne_nil {ops : List WriteOp} (hne : ops ≠ []) (hsent : ∀ op ∈ ops, op.Sent) :
    ¬ ((collect ops).mutations = [] ∧ (collect ops).acks = []) := by
  rintro ⟨hmutations, hacks⟩
  rw [collect_mutations] at hmutations
  cases ops with
  | nil => exact hne rfl
  | cons op rest =>
    cases op with
    | batch mutations durability =>
      simp only [mutationsOf, List.flatMap_cons, List.append_eq_nil_iff] at hmutations
      exact hsent _ List.mem_cons_self hmutations.1
    | flush ack =>
      have hmem : ack ∈ (collect (.flush ack :: rest)).acks :=
        mem_collect_acks.mpr List.mem_cons_self
      rw [hacks] at hmem
      cases hmem

/-- A group taken from a queue of sent operations is a nonempty prefix of it. -/
theorem Writer.process_take {w w' : Writer} {count : ℕ} {success : Bool} {answers : List (ℕ × Bool)}
    (hsent : ∀ op ∈ w.queue, op.Sent) (h : w.process count success = some (w', answers)) :
    count ≤ w.queue.length ∧
      ¬ ((collect (w.queue.take count)).mutations = [] ∧ (collect (w.queue.take count)).acks = []) ∧
      { w with queue := w.queue.drop count }.processDbWriterBatch
        (collect (w.queue.take count)) success = (w', answers) := by
  unfold Writer.process at h
  split at h
  · next hcount =>
    refine ⟨hcount.2, collect_ne_nil ?_ fun op hop => hsent op (List.mem_of_mem_take hop),
      Option.some.inj h⟩
    intro hnil
    have hlen := congrArg List.length hnil
    rw [List.length_take, List.length_nil] at hlen
    omega
  · cases h

/-- A committed group applies its mutations; the result is durable when the group was immediate,
as every group with a flush is, and else the writer is dirty. -/
theorem Writer.process_true {w w' : Writer} {count : ℕ} {answers : List (ℕ × Bool)}
    (hsent : ∀ op ∈ w.queue, op.Sent) (h : w.process count true = some (w', answers)) :
    w'.queue = w.queue.drop count ∧
      w'.table = applyMutations w.table (mutationsOf (w.queue.take count)) ∧
      (w'.dirty = false → w'.durable = w'.table) ∧
      ((∃ ack, .flush ack ∈ w.queue.take count) → w'.durable = w'.table) := by
  obtain ⟨-, hne, h⟩ := Writer.process_take hsent h
  rw [processDbWriterBatch, if_neg hne, if_pos rfl, collect_mutations] at h
  cases h
  refine ⟨rfl, rfl, fun hclean => ?_, fun ⟨ack, hack⟩ => ?_⟩
  · exact if_pos (by simpa using hclean)
  · exact if_pos (collect_durability hack)

/-- A group whose commit fails is dropped. -/
theorem Writer.process_false {w w' : Writer} {count : ℕ} {answers : List (ℕ × Bool)}
    (hsent : ∀ op ∈ w.queue, op.Sent) (h : w.process count false = some (w', answers)) :
    w' = { w with queue := w.queue.drop count } := by
  obtain ⟨-, hne, h⟩ := Writer.process_take hsent h
  rw [processDbWriterBatch, if_neg hne, if_neg (by decide)] at h
  cases h
  rfl

end Shachain2pc
