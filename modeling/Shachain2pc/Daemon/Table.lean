import Shachain2pc.Daemon.Records
import Shachain2pc.Lib.Replay

/-!
# The mirrored table

The writer stores each record under a keyed hash of its logical key, and the loader folds
over the stored records in the order of those hashes. The table is modelled by its logical
keys; loading is stated for every order in which the records may be listed.

A memory is mirrored by a table when the table holds exactly the records of that memory.
Loading a mirrored table returns the memory.
-/

namespace Shachain2pc

open Std
open Replay (Write replay)

inductive StatusCode where
  | notFound
  | invalidArgument
  | failedPrecondition
  | alreadyExists
  | internal
  | unavailable
  deriving DecidableEq, Repr

/-- The errors the daemon returns, with their texts, and the panic of a task. -/
inductive DaemonError where
  | crypto (message : String)
  | parse (message : String)
  | notFound (message : String)
  | refused (message : String)
  | party (error : PartyError)
  | tonicStatus (code : StatusCode) (message : String)
  | panicked (message : String)
  deriving DecidableEq, Repr

/-- The table by logical key. -/
abbrev Table := LogicalKey → Option StoredRecord

/-- A mutation as a write of its key. -/
def Mutation.write : Mutation → Write LogicalKey StoredRecord
  | .upsert key record => ⟨key, some record⟩
  | .delete key => ⟨key, none⟩

/-- The loop of `apply_mutations` inside one transaction. -/
def applyMutations (table : Table) (mutations : List Mutation) : Table :=
  replay table (mutations.map Mutation.write)

/-- `REDB_META_VERIFIER`. -/
def redbMetaVerifier : String := "shachain2pc daemon redb verifier v1"

/-- The verifier record which `ensure_meta_record` and every checkpoint write. -/
def metaRecord : StoredRecord := ⟨.metadata, 0, 0, .metadata redbMetaVerifier⟩

/-- `validate_meta_record`. -/
def validateMetaRecord (record : StoredRecord) : Except DaemonError Unit :=
  match record.payload with
  | .metadata verifier =>
    if record.recordType = .metadata ∧ record.channelIndex = 0 ∧ record.subId = 0 ∧
        verifier = redbMetaVerifier then .ok ()
    else .error (.crypto "encrypted DB verifier record is invalid")
  | _ => .error (.crypto "encrypted DB verifier record is invalid")

/-- `entry(..).or_insert_with(empty_channel_record)`. -/
def PlainDb.channelOrEmpty (db : PlainDb) (channelIndex : ℕ) : ChannelRecord :=
  db.channels[channelIndex]?.getD emptyChannelRecord

/-- Store a channel record. -/
def PlainDb.setChannel (db : PlainDb) (channelIndex : ℕ) (channel : ChannelRecord) : PlainDb :=
  ⟨db.channels.insert channelIndex channel⟩

/-- `apply_stored_record`. -/
def applyStoredRecord (db : PlainDb) (record : StoredRecord) : Except DaemonError PlainDb :=
  let channel := db.channelOrEmpty record.channelIndex
  match record.payload with
  | .metadata _ => do
    validateMetaRecord record
    .ok db
  | .channel scalars =>
    if record.recordType ≠ .channel ∨ record.subId ≠ 0 then
      .error (.crypto "stored channel record has a bad logical key")
    else .ok (db.setChannel record.channelIndex (channel.applyScalars scalars))
  | .secret secret =>
    if record.recordType ≠ .secret then
      .error (.crypto "stored secret record has a bad logical key")
    else .ok (db.setChannel record.channelIndex
      { channel with knownSecrets := channel.knownSecrets.insert record.subId secret })
  | .frontier wire =>
    if record.recordType ≠ .frontier then
      .error (.crypto "stored frontier record has a bad logical key")
    else .ok (db.setChannel record.channelIndex
      { channel with frontierNodes := channel.frontierNodes.insert record.subId wire })

/-- `load_redb_state`, folding over the records in the order the table lists them. -/
def loadRedbState (records : List StoredRecord) : Except DaemonError PlainDb :=
  records.foldlM applyStoredRecord .default

/-- The record a channel should have in the table, by type and number. -/
def ChannelRecord.record (channel : ChannelRecord) (channelIndex : ℕ) :
    RecordType → ℕ → Option StoredRecord
  | .metadata, _ => none
  | .channel, subId =>
    if subId = 0 then some ⟨.channel, channelIndex, 0, .channel channel.scalars⟩ else none
  | .secret, index => channel.knownSecrets[index]?.map fun secret =>
    ⟨.secret, channelIndex, index, .secret secret⟩
  | .frontier, mask => channel.frontierNodes[mask]?.map fun wire =>
    ⟨.frontier, channelIndex, mask, .frontier wire⟩

/-- The record a memory should have in the table at a key. -/
def PlainDb.record (db : PlainDb) (key : LogicalKey) : Option StoredRecord :=
  if key = .metadata then some metaRecord
  else db.channels[key.channelIndex]?.bind (·.record key.channelIndex key.recordType key.subId)

/-- The table holds exactly the records of the memory. -/
def Mirrors (table : Table) (db : PlainDb) : Prop := table = db.record

/-- The list names every record of the table, and no other record. -/
def Lists (records : List StoredRecord) (table : Table) : Prop :=
  ∀ record, record ∈ records ↔ ∃ key, table key = some record

/-- The records of a memory, by the entry each one mirrors. -/
inductive Stored (db : PlainDb) : StoredRecord → Prop where
  | metadata : Stored db metaRecord
  | channel {c : ℕ} {channel : ChannelRecord} (hc : db.channels[c]? = some channel) :
    Stored db ⟨.channel, c, 0, .channel channel.scalars⟩
  | secret {c i : ℕ} {channel : ChannelRecord} {v : Value32} (hc : db.channels[c]? = some channel)
    (hi : channel.knownSecrets[i]? = some v) : Stored db ⟨.secret, c, i, .secret v⟩
  | frontier {c m : ℕ} {channel : ChannelRecord} {w : WireRecord}
    (hc : db.channels[c]? = some channel) (hm : channel.frontierNodes[m]? = some w) :
    Stored db ⟨.frontier, c, m, .frontier w⟩

/-- The table of a memory holds exactly the memory's records. -/
theorem exists_record_iff {db : PlainDb} {r : StoredRecord} :
    (∃ key, db.record key = some r) ↔ Stored db r := by
  constructor
  · rintro ⟨⟨type, c, sub⟩, h⟩
    unfold PlainDb.record at h
    split at h
    · cases h
      exact .metadata
    · obtain ⟨channel, hc, h⟩ := Option.bind_eq_some_iff.mp h
      cases type with
      | metadata => cases h
      | channel =>
        simp only [ChannelRecord.record, Option.ite_none_right_eq_some] at h
        obtain ⟨-, h⟩ := h
        cases h
        exact .channel hc
      | secret =>
        obtain ⟨v, hv, rfl⟩ := Option.map_eq_some_iff.mp h
        exact .secret hc hv
      | frontier =>
        obtain ⟨w, hw, rfl⟩ := Option.map_eq_some_iff.mp h
        exact .frontier hc hw
  · intro h
    cases h with
    | metadata => exact ⟨.metadata, rfl⟩
    | @channel c _ hc =>
      exact ⟨.channel c, by simp [PlainDb.record, ChannelRecord.record, LogicalKey.channel,
        LogicalKey.metadata, hc]⟩
    | @secret c i _ _ hc hi =>
      exact ⟨.secret c i, by simp [PlainDb.record, ChannelRecord.record, LogicalKey.secret,
        LogicalKey.metadata, hc, hi]⟩
    | @frontier c m _ _ hc hm =>
      exact ⟨.frontier c m, by simp [PlainDb.record, ChannelRecord.record, LogicalKey.frontier,
        LogicalKey.metadata, hc, hm]⟩

/-- What a partly loaded channel holds: exactly what the records read so far say. -/
structure LoadedChannel (records : List StoredRecord) (c : ℕ) (channel : ChannelRecord) : Prop where
  scalars : ∀ s, ⟨.channel, c, 0, .channel s⟩ ∈ records → channel.scalars = s
  secrets : ∀ i v, channel.knownSecrets[i]? = some v ↔ ⟨.secret, c, i, .secret v⟩ ∈ records
  frontier : ∀ m w, channel.frontierNodes[m]? = some w ↔ ⟨.frontier, c, m, .frontier w⟩ ∈ records

/-- What a partly loaded memory holds; a channel appears with its first record. -/
structure Loaded (records : List StoredRecord) (db : PlainDb) : Prop where
  channel : ∀ c, LoadedChannel records c (db.channelOrEmpty c)
  mem_iff : ∀ c, c ∈ db.channels ↔ ∃ r ∈ records, r.channelIndex = c ∧ r.recordType ≠ .metadata

/-- Before any record the memory is empty. -/
theorem loaded_nil : Loaded [] .default := by
  refine ⟨fun c => ⟨by simp, ?_, ?_⟩, ?_⟩ <;>
    simp [PlainDb.channelOrEmpty, PlainDb.default, emptyChannelRecord]

/-- Reading a stored channel updates only that channel. -/
theorem channelOrEmpty_setChannel (db : PlainDb) (c c' : ℕ) (channel : ChannelRecord) :
    (db.setChannel c channel).channelOrEmpty c' =
      if c = c' then channel else db.channelOrEmpty c' := by
  by_cases h : c = c'
  · simp [PlainDb.channelOrEmpty, PlainDb.setChannel, h]
  · simp [PlainDb.channelOrEmpty, PlainDb.setChannel, ExtTreeMap.getElem?_insert, h]

/-- A record of another channel does not change what a channel holds. -/
theorem LoadedChannel.append_other {records : List StoredRecord} {c : ℕ} {channel : ChannelRecord}
    (h : LoadedChannel records c channel) {r : StoredRecord}
    (hr : r.channelIndex ≠ c ∨ r.recordType = .metadata) :
    LoadedChannel (records ++ [r]) c channel := by
  have hmem {type : RecordType} {sub : ℕ} {payload : StoredPayload} (htype : type ≠ .metadata) :
      (⟨type, c, sub, payload⟩ : StoredRecord) ∈ records ++ [r] ↔
        ⟨type, c, sub, payload⟩ ∈ records := by
    rw [List.mem_append, List.mem_singleton, or_iff_left]
    rintro rfl
    rcases hr with hr | hr
    · exact hr rfl
    · exact htype hr
  exact ⟨fun s hs => h.scalars s ((hmem (by decide)).mp hs),
    fun i v => (h.secrets i v).trans (hmem (by decide)).symm,
    fun m w => (h.frontier m w).trans (hmem (by decide)).symm⟩

/-- Storing the channel of a record makes a partly loaded memory exact again, once the stored
channel holds what the records say. -/
theorem Loaded.setChannel {db : PlainDb} {records : List StoredRecord} (h : Loaded records db)
    {r : StoredRecord} (htype : r.recordType ≠ .metadata) {channel : ChannelRecord}
    (hchannel : LoadedChannel (records ++ [r]) r.channelIndex channel) :
    Loaded (records ++ [r]) (db.setChannel r.channelIndex channel) := by
  refine ⟨fun c => ?_, fun c => ?_⟩
  · rw [channelOrEmpty_setChannel]
    by_cases hc : r.channelIndex = c
    · rw [if_pos hc]
      exact hc ▸ hchannel
    · rw [if_neg hc]
      exact (h.channel c).append_other (.inl hc)
  · rw [PlainDb.setChannel, ExtTreeMap.mem_insert, h.mem_iff, LawfulEqCmp.compare_eq_iff_eq]
    constructor
    · rintro (rfl | ⟨r', hr', hc⟩)
      · exact ⟨r, by simp, rfl, htype⟩
      · exact ⟨r', by simp [hr'], hc⟩
    · rintro ⟨r', hr', hc, htype'⟩
      rcases List.mem_append.mp hr' with hold | hnew
      · exact .inr ⟨r', hold, hc, htype'⟩
      · obtain rfl := List.mem_singleton.mp hnew
        exact .inl hc

/-- Reading one more record of the memory keeps a partly loaded memory exact. -/
theorem Loaded.step {source db : PlainDb} {records : List StoredRecord} {r : StoredRecord}
    (h : Loaded records db) (hstored : ∀ r' ∈ records ++ [r], Stored source r') :
    ∃ db', applyStoredRecord db r = .ok db' ∧ Loaded (records ++ [r]) db' := by
  have hold (r' : StoredRecord) (hr' : r' ∈ records) := hstored r' (by simp [hr'])
  have hchannel := h.channel
  cases hstored r (by simp) with
  | metadata =>
    refine ⟨db, by simp [applyStoredRecord, metaRecord, validateMetaRecord, bind, Except.bind],
      fun c => (h.channel c).append_other (.inr rfl), fun c => ?_⟩
    rw [h.mem_iff]
    simp [metaRecord]
  | @channel c channel hc =>
    refine ⟨_, rfl, h.setChannel (by simp) ⟨fun s hs => ?_, fun i v => ?_,
      fun m w => ?_⟩⟩
    · rcases List.mem_append.mp hs with hs | hs
      · cases hold _ hs with
        | channel hc' =>
          rw [hc, Option.some.injEq] at hc'
          subst hc'
          rfl
      · cases List.mem_singleton.mp hs
        rfl
    · simpa [ChannelRecord.applyScalars] using (hchannel c).secrets i v
    · simpa [ChannelRecord.applyScalars] using (hchannel c).frontier m w
  | @secret c i channel v hc hi =>
    refine ⟨_, rfl, h.setChannel (by simp) ⟨fun s hs => ?_, fun j u => ?_,
      fun m w => ?_⟩⟩
    · exact (hchannel c).scalars s (by simpa using hs)
    · by_cases hij : i = j
      · subst hij
        constructor
        · intro hu
          simp only [ExtTreeMap.getElem?_insert_self, Option.some.injEq] at hu
          simp [hu]
        · intro hu
          cases hstored _ hu with
          | secret hc' hi' =>
            rw [hc, Option.some.injEq] at hc'
            subst hc'
            rw [hi] at hi'
            simpa using hi'
      · simpa [ExtTreeMap.getElem?_insert, hij, Ne.symm hij] using (hchannel c).secrets j u
    · simpa using (hchannel c).frontier m w
  | @frontier c m channel w hc hm =>
    refine ⟨_, rfl, h.setChannel (by simp) ⟨fun s hs => ?_, fun j u => ?_,
      fun m' w' => ?_⟩⟩
    · exact (hchannel c).scalars s (by simpa using hs)
    · simpa using (hchannel c).secrets j u
    · by_cases hmm : m = m'
      · subst hmm
        constructor
        · intro hu
          simp only [ExtTreeMap.getElem?_insert_self, Option.some.injEq] at hu
          simp [hu]
        · intro hu
          cases hstored _ hu with
          | frontier hc' hm' =>
            rw [hc, Option.some.injEq] at hc'
            subst hc'
            rw [hm] at hm'
            simpa using hm'
      · simpa [ExtTreeMap.getElem?_insert, hmm, Ne.symm hmm] using (hchannel c).frontier m' w'

/-- Loading the records of a memory, in any order, reads them all. -/
theorem Loaded.foldlM {source db : PlainDb} {records : List StoredRecord} (h : Loaded records db)
    (rest : List StoredRecord) (hstored : ∀ r ∈ records ++ rest, Stored source r) :
    ∃ db', rest.foldlM applyStoredRecord db = .ok db' ∧ Loaded (records ++ rest) db' := by
  induction rest generalizing records db with
  | nil => exact ⟨db, rfl, by simpa using h⟩
  | cons r rest ih =>
    obtain ⟨next, hnext, hloaded⟩ := h.step (r := r) fun r' hr' => hstored r' (by
      rcases List.mem_append.mp hr' with hr' | hr'
      · simp [hr']
      · simp [List.mem_singleton.mp hr'])
    rw [← List.singleton_append, ← List.append_assoc] at hstored ⊢
    obtain ⟨db', hdb', hloaded'⟩ := ih hloaded hstored
    refine ⟨db', ?_, hloaded'⟩
    rw [List.singleton_append, List.foldlM_cons, hnext]
    exact hdb'

/-- Channel records with the same scalars, secrets, and nodes are equal. -/
theorem ChannelRecord.ext_parts {a b : ChannelRecord} (hscalars : a.scalars = b.scalars)
    (hsecrets : ∀ i : ℕ, a.knownSecrets[i]? = b.knownSecrets[i]?)
    (hnodes : ∀ m : ℕ, a.frontierNodes[m]? = b.frontierNodes[m]?) : a = b := by
  have hsecrets := ExtTreeMap.ext_getElem? hsecrets
  have hnodes := ExtTreeMap.ext_getElem? hnodes
  cases a
  cases b
  simp only [ChannelRecord.scalars, ChannelScalars.mk.injEq] at hscalars
  simp_all

/-- Loading a mirrored table, in whatever order its records are listed, returns the memory. -/
theorem loadRedbState_of_mirrors {table : Table} {db : PlainDb} (h : Mirrors table db)
    {records : List StoredRecord} (hlists : Lists records table) :
    loadRedbState records = .ok db := by
  subst h
  have hstored (r : StoredRecord) : r ∈ records ↔ Stored db r :=
    (hlists r).trans exists_record_iff
  obtain ⟨db', hload, hloaded⟩ := loaded_nil.foldlM records fun r hr => (hstored r).mp hr
  rw [List.nil_append] at hloaded
  rw [loadRedbState, hload]
  have hchannels : db'.channels = db.channels := by
    apply ExtTreeMap.ext_getElem?
    intro c
    cases hc : db.channels[c]? with
    | none =>
      refine ExtTreeMap.getElem?_eq_none ?_
      rw [hloaded.mem_iff]
      rintro ⟨r, hr, rfl, htype⟩
      cases (hstored r).mp hr with
      | metadata => exact htype rfl
      | channel hc' | secret hc' | frontier hc' => simp [hc] at hc'
    | some channel =>
      have hmem : c ∈ db'.channels :=
        (hloaded.mem_iff c).mpr ⟨_, (hstored _).mpr (.channel hc), rfl, by simp⟩
      obtain ⟨channel', hc'⟩ :=
        Option.isSome_iff_exists.mp (ExtTreeMap.isSome_getElem?_iff_mem.mpr hmem)
      have hloaded' := hloaded.channel c
      rw [PlainDb.channelOrEmpty, hc', Option.getD_some] at hloaded'
      rw [hc']
      congr 1
      refine ChannelRecord.ext_parts (hloaded'.scalars _ ((hstored _).mpr (.channel hc)))
        (fun i => ?_) fun m => ?_
      · apply Option.ext
        intro v
        rw [hloaded'.secrets, hstored]
        constructor
        · intro h
          cases h with
          | secret hc'' hi =>
            rw [hc, Option.some.injEq] at hc''
            exact hc'' ▸ hi
        · exact .secret hc
      · apply Option.ext
        intro w
        rw [hloaded'.frontier, hstored]
        constructor
        · intro h
          cases h with
          | frontier hc'' hm =>
            rw [hc, Option.some.injEq] at hc''
            exact hc'' ▸ hm
        · exact .frontier hc
  cases db
  cases db'
  simp only at hchannels
  rw [hchannels]

/-- The records of a channel. -/
def ChannelRecord.records (channel : ChannelRecord) (c : ℕ) : List StoredRecord :=
  ⟨.channel, c, 0, .channel channel.scalars⟩ ::
    (channel.knownSecrets.toList.map fun entry => ⟨.secret, c, entry.1, .secret entry.2⟩) ++
      channel.frontierNodes.toList.map fun entry => ⟨.frontier, c, entry.1, .frontier entry.2⟩

/-- The records of a memory. -/
def PlainDb.records (db : PlainDb) : List StoredRecord :=
  metaRecord :: db.channels.toList.flatMap fun entry => entry.2.records entry.1

/-- The records of a channel are those stored for its entry. -/
theorem ChannelRecord.mem_records {db : PlainDb} {c : ℕ} {channel : ChannelRecord}
    (hc : db.channels[c]? = some channel) {r : StoredRecord} (hr : r ∈ channel.records c) :
    Stored db r := by
  rcases List.mem_append.mp hr with hr | hr
  · rcases List.mem_cons.mp hr with rfl | hr
    · exact .channel hc
    · obtain ⟨⟨i, v⟩, hi, rfl⟩ := List.mem_map.mp hr
      exact .secret hc (ExtTreeMap.mem_toList_iff_getElem?_eq_some.mp hi)
  · obtain ⟨⟨m, w⟩, hm, rfl⟩ := List.mem_map.mp hr
    exact .frontier hc (ExtTreeMap.mem_toList_iff_getElem?_eq_some.mp hm)

/-- The table of every memory can be listed. -/
theorem PlainDb.lists_records (db : PlainDb) : Lists db.records db.record := by
  intro r
  rw [exists_record_iff, PlainDb.records, List.mem_cons, List.mem_flatMap]
  have hentry {c : ℕ} {channel : ChannelRecord} (hc : db.channels[c]? = some channel)
      (hr : r ∈ channel.records c) : ∃ entry ∈ db.channels.toList, r ∈ entry.2.records entry.1 :=
    ⟨(c, channel), ExtTreeMap.mem_toList_iff_getElem?_eq_some.mpr hc, hr⟩
  constructor
  · rintro (rfl | ⟨⟨c, channel⟩, hc, hr⟩)
    · exact .metadata
    · exact ChannelRecord.mem_records (ExtTreeMap.mem_toList_iff_getElem?_eq_some.mp hc) hr
  · intro h
    cases h with
    | metadata => exact .inl rfl
    | channel hc => exact .inr (hentry hc List.mem_cons_self)
    | @secret c i channel v hc hi =>
      refine .inr (hentry hc (List.mem_append_left _ (List.mem_cons_of_mem _ ?_)))
      exact List.mem_map.mpr ⟨(i, v), ExtTreeMap.mem_toList_iff_getElem?_eq_some.mpr hi, rfl⟩
    | @frontier c m channel w hc hm =>
      refine .inr (hentry hc (List.mem_append_right _ ?_))
      exact List.mem_map.mpr ⟨(m, w), ExtTreeMap.mem_toList_iff_getElem?_eq_some.mpr hm, rfl⟩

/-- So a memory which is written is loaded again. -/
theorem loadRedbState_records (db : PlainDb) : loadRedbState db.records = .ok db :=
  loadRedbState_of_mirrors rfl db.lists_records

/-- No mutation changes nothing. -/
@[simp] theorem applyMutations_nil (table : Table) : applyMutations table [] = table := rfl

/-- Lists of mutations are applied in sequence. -/
theorem applyMutations_append (table : Table) (first second : List Mutation) :
    applyMutations table (first ++ second) = applyMutations
      (applyMutations table first) second := by
  rw [applyMutations, List.map_append, Replay.replay_append]
  rfl

/-- A mutation writes its key. -/
@[simp] theorem Mutation.write_key (m : Mutation) : m.write.key = m.key := by
  cases m <;> rfl

/-- Lists of mutations which name no common record may be exchanged. -/
theorem applyMutations_append_comm (table : Table) {first second : List Mutation}
    (h : ∀ m ∈ first, ∀ m' ∈ second, m.key ≠ m'.key) :
    applyMutations table (first ++ second) = applyMutations table (second ++ first) := by
  rw [applyMutations, List.map_append, Replay.replay_append_comm, ← List.map_append]
  · rfl
  · rintro key ⟨w, hw, rfl⟩ ⟨w', hw', hkey⟩
    obtain ⟨m, hm, rfl⟩ := List.mem_map.mp hw
    obtain ⟨m', hm', rfl⟩ := List.mem_map.mp hw'
    exact h m hm m' hm' (by simpa using hkey.symm)

/-- The oldest mutation is applied first. -/
@[simp] theorem applyMutations_upsert (table : Table) (key : LogicalKey) (record : StoredRecord)
    (rest : List Mutation) :
    applyMutations table (.upsert key record :: rest) =
      applyMutations (Function.update table key (some record)) rest := rfl

/-- A deletion empties its key before the later mutations. -/
@[simp] theorem applyMutations_delete (table : Table) (key : LogicalKey) (rest : List Mutation) :
    applyMutations table (.delete key :: rest) =
      applyMutations (Function.update table key none) rest := rfl

/-- A key that no mutation names keeps its record. -/
theorem applyMutations_of_forall_ne (table : Table) {mutations : List Mutation} {key : LogicalKey}
    (h : ∀ m ∈ mutations, m.key ≠ key) : applyMutations table mutations key = table key := by
  refine Replay.replay_of_not_writes _ ?_
  rintro ⟨w, hw, hkey⟩
  obtain ⟨m, hm, rfl⟩ := List.mem_map.mp hw
  exact h m hm (m.write_key ▸ hkey)

/-- A list of deletions empties exactly its keys. -/
theorem applyMutations_map_delete (table : Table) (keys : List ℕ) (address : ℕ → LogicalKey)
    (key : LogicalKey) :
    applyMutations table (keys.map fun k => .delete (address k)) key =
      if key ∈ keys.map address then none else table key := by
  induction keys generalizing table with
  | nil => simp
  | cons k rest ih =>
    rw [List.map_cons, applyMutations_delete, ih, Function.update_apply]
    by_cases hrest : key ∈ rest.map address
    · simp [hrest]
    · by_cases hkey : key = address k
      · simp [hkey]
      · simp [hrest, hkey]

/-- The table of one channel: what its part of a mirrored table holds. -/
def channelTable (channelIndex : ℕ) (channel : Option ChannelRecord) : Table := fun key =>
  channel.bind (·.record channelIndex key.recordType key.subId)

/-- A change of one channel is mirrored when its mutations turn the records of the old channel
into the records of the new one. -/
theorem applyMutations_setChannel {db : PlainDb} {c : ℕ} {channel : ChannelRecord}
    {mutations : List Mutation}
    (hkeys : ∀ m ∈ mutations, m.key.channelIndex = c ∧ m.key.recordType ≠ .metadata)
    (hchannel : ∀ type sub, type ≠ .metadata →
      applyMutations (channelTable c db.channels[c]?) mutations ⟨type, c, sub⟩ =
        channel.record c type sub) :
    applyMutations db.record mutations = (db.setChannel c channel).record := by
  have hwrites {key : LogicalKey} (h : Replay.Writes (mutations.map Mutation.write) key) :
      key.channelIndex = c ∧ key.recordType ≠ .metadata := by
    obtain ⟨w, hw, rfl⟩ := h
    obtain ⟨m, hm, rfl⟩ := List.mem_map.mp hw
    exact m.write_key ▸ hkeys m hm
  funext ⟨type, c', sub⟩
  by_cases hkey : c' = c ∧ type ≠ .metadata
  · obtain ⟨rfl, htype⟩ := hkey
    have hne : (⟨type, c', sub⟩ : LogicalKey) ≠ .metadata := fun h =>
      htype (congrArg LogicalKey.recordType h)
    rw [PlainDb.record, if_neg hne, PlainDb.setChannel, ExtTreeMap.getElem?_insert_self,
      Option.bind_some, ← hchannel type sub htype]
    exact Replay.replay_congr (by rw [PlainDb.record, if_neg hne, channelTable]) _
  · rw [applyMutations, Replay.replay_of_not_writes _ fun h => hkey (hwrites h)]
    by_cases hmeta : (⟨type, c', sub⟩ : LogicalKey) = .metadata
    · rw [PlainDb.record, if_pos hmeta, PlainDb.record, if_pos hmeta]
    · rw [PlainDb.record, if_neg hmeta, PlainDb.record, if_neg hmeta]
      by_cases hc : c' = c
      · -- A metadata key other than the verifier's has no record.
        have htype : type = .metadata := by
          by_contra htype
          exact hkey ⟨hc, htype⟩
        subst htype
        cases db.channels[c']? <;> cases (db.setChannel c channel).channels[c']? <;> rfl
      · simp [PlainDb.setChannel, ExtTreeMap.getElem?_insert, Ne.symm hc]

/-- The mutation writes a secret or a frontier node of the channel. -/
def Mutation.WritesEntry (c : ℕ) (m : Mutation) : Prop :=
  m.key.channelIndex = c ∧ (m.key.recordType = .secret ∨ m.key.recordType = .frontier)

/-- Mutations of a channel's entries leave its other records alone. -/
theorem applyMutations_entries_other (table : Table) {c : ℕ} {mutations : List Mutation}
    (hentries : ∀ m ∈ mutations, m.WritesEntry c) {key : LogicalKey}
    (hkey : key.recordType ≠ .secret ∧ key.recordType ≠ .frontier) :
    applyMutations table mutations key = table key := by
  refine applyMutations_of_forall_ne table fun m hm heq => ?_
  rw [← heq] at hkey
  rcases (hentries m hm).2 with h | h
  · exact hkey.1 h
  · exact hkey.2 h

/-- A change of a channel's entries followed by an upsert of its scalars is mirrored when the
entries are. -/
theorem applyMutations_entries_channel {db : PlainDb} {c : ℕ} {channel : ChannelRecord}
    {mutations : List Mutation} (hentries : ∀ m ∈ mutations, m.WritesEntry c)
    (hsecret : ∀ i, applyMutations (channelTable c db.channels[c]?) mutations (.secret c i) =
      channel.record c .secret i)
    (hfrontier : ∀ m, applyMutations (channelTable c db.channels[c]?) mutations (.frontier c m) =
      channel.record c .frontier m) :
    applyMutations db.record (mutations ++ [upsertChannelMutation c channel]) =
      (db.setChannel c channel).record := by
  apply applyMutations_setChannel
  · intro m hm
    rcases List.mem_append.mp hm with hm | hm
    · obtain ⟨hc, htype | htype⟩ := hentries m hm <;> exact ⟨hc, htype ▸ RecordType.noConfusion⟩
    · obtain rfl := List.mem_singleton.mp hm
      exact ⟨rfl, RecordType.noConfusion⟩
  · intro type sub htype
    rw [applyMutations_append, upsertChannelMutation, applyMutations_upsert, applyMutations_nil,
      Function.update_apply]
    cases type with
    | metadata => exact absurd rfl htype
    | channel =>
      rw [applyMutations_entries_other _ hentries ⟨RecordType.noConfusion, RecordType.noConfusion⟩]
      by_cases hsub : sub = 0
      · simp [LogicalKey.channel, ChannelRecord.record, hsub]
      · cases db.channels[c]? <;>
          simp [LogicalKey.channel, ChannelRecord.record, channelTable, hsub]
    | secret =>
      rw [if_neg (by simp [LogicalKey.channel])]
      exact hsecret sub
    | frontier =>
      rw [if_neg (by simp [LogicalKey.channel])]
      exact hfrontier sub

/-- A change of a channel's entries which keeps its scalars needs no upsert of the channel. -/
theorem applyMutations_entries {db : PlainDb} {c : ℕ} {old channel : ChannelRecord}
    {mutations : List Mutation} (hold : db.channels[c]? = some old)
    (hscalars : channel.scalars = old.scalars) (hentries : ∀ m ∈ mutations, m.WritesEntry c)
    (hsecret : ∀ i, applyMutations (channelTable c (some old)) mutations (.secret c i) =
      channel.record c .secret i)
    (hfrontier : ∀ m, applyMutations (channelTable c (some old)) mutations (.frontier c m) =
      channel.record c .frontier m) :
    applyMutations db.record mutations = (db.setChannel c channel).record := by
  apply applyMutations_setChannel
  · intro m hm
    obtain ⟨hc, htype | htype⟩ := hentries m hm <;> exact ⟨hc, htype ▸ RecordType.noConfusion⟩
  · intro type sub htype
    rw [hold]
    cases type with
    | metadata => exact absurd rfl htype
    | channel =>
      rw [applyMutations_entries_other _ hentries ⟨RecordType.noConfusion, RecordType.noConfusion⟩]
      simp [channelTable, ChannelRecord.record, hscalars]
    | secret => exact hsecret sub
    | frontier => exact hfrontier sub

/-- An upsert of a channel may be exchanged with changes of its entries. -/
theorem applyMutations_upsertChannel_comm (table : Table) {c : ℕ} (channel : ChannelRecord)
    {mutations : List Mutation} (hentries : ∀ m ∈ mutations, m.WritesEntry c) :
    applyMutations table (upsertChannelMutation c channel :: mutations) =
      applyMutations table (mutations ++ [upsertChannelMutation c channel]) := by
  rw [← List.singleton_append]
  refine applyMutations_append_comm table fun m hm m' hm' hkey => ?_
  obtain rfl := List.mem_singleton.mp hm
  rcases (hentries m' hm').2 with htype | htype <;> rw [← hkey] at htype <;> cases htype

/-- An upsert of the scalars of a channel whose entries are unchanged. -/
theorem applyMutations_scalars {db : PlainDb} {c : ℕ} {channel : ChannelRecord}
    (hsecret : channel.knownSecrets = (db.channelOrEmpty c).knownSecrets)
    (hfrontier : channel.frontierNodes = (db.channelOrEmpty c).frontierNodes) :
    applyMutations db.record [upsertChannelMutation c channel] =
      (db.setChannel c channel).record := by
  rw [← List.nil_append [_]]
  apply applyMutations_entries_channel (by simp) <;> intro i <;>
    cases hc : db.channels[c]? <;>
    simp [channelTable, ChannelRecord.record, hsecret, hfrontier, PlainDb.channelOrEmpty, hc,
      LogicalKey.secret, LogicalKey.frontier, emptyChannelRecord]

end Shachain2pc
