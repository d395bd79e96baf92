import Shachain2pc.Daemon.Table

/-!
# What loading restores

Loading applies the stored records one by one, each under its own logical key, to the memory
read so far. A channel appears with its first record, so what is restored does not depend on
the order. Every key ends at the record read last under it; a table holds one record per key,
so its records are restored in every order.
-/

namespace Shachain2pc

open Std
open Replay (Write replay)

/-- The scalars of a channel record. -/
def StoredRecord.scalars? (record : StoredRecord) : Option ChannelScalars :=
  match record.payload with
  | .channel scalars => some scalars
  | _ => none

/-- The secret of a secret record. -/
def StoredRecord.secret? (record : StoredRecord) : Option Value32 :=
  match record.payload with
  | .secret secret => some secret
  | _ => none

/-- The wires of a frontier record. -/
def StoredRecord.frontier? (record : StoredRecord) : Option WireRecord :=
  match record.payload with
  | .frontier wire => some wire
  | _ => none

/-- The logical key which a record carries. -/
def StoredRecord.key (record : StoredRecord) : LogicalKey :=
  ⟨record.recordType, record.channelIndex, record.subId⟩

/-- Records as the daemon makes them: the type and the key agree with the payload. -/
inductive StoredRecord.Formed : StoredRecord → Prop where
  | metadata : Formed metaRecord
  | channel (c : ℕ) (scalars : ChannelScalars) : Formed ⟨.channel, c, 0, .channel scalars⟩
  | secret (c i : ℕ) (secret : Value32) : Formed ⟨.secret, c, i, .secret secret⟩
  | frontier (c m : ℕ) (wire : WireRecord) : Formed ⟨.frontier, c, m, .frontier wire⟩

/-- The table has a record of the channel. -/
def Table.HasChannel (table : Table) (c : ℕ) : Prop :=
  ∃ key, key.channelIndex = c ∧ key.recordType ≠ .metadata ∧ (table key).isSome

/-- The memory holds what the records of a table say: the channels with a record, each with its
scalars, or those of an empty channel, and with its secrets and frontier nodes. -/
structure PlainDb.Restores (db : PlainDb) (table : Table) : Prop where
  mem_iff : ∀ c, c ∈ db.channels ↔ table.HasChannel c
  scalars : ∀ c, (db.channelOrEmpty c).scalars =
    ((table (.channel c)).bind (·.scalars?)).getD emptyChannelRecord.scalars
  secret : ∀ c i : ℕ,
    (db.channelOrEmpty c).knownSecrets[i]? = (table (.secret c i)).bind (·.secret?)
  frontier : ∀ c m : ℕ,
    (db.channelOrEmpty c).frontierNodes[m]? = (table (.frontier c m)).bind (·.frontier?)

/-- A table restores at most one memory. -/
theorem PlainDb.Restores.unique {db db' : PlainDb} {table : Table} (h : db.Restores table)
    (h' : db'.Restores table) : db = db' := by
  have hchannel (c : ℕ) : db.channelOrEmpty c = db'.channelOrEmpty c :=
    ChannelRecord.ext_parts ((h.scalars c).trans (h'.scalars c).symm)
      (fun i => (h.secret c i).trans (h'.secret c i).symm)
      fun m => (h.frontier c m).trans (h'.frontier c m).symm
  have hchannels : db.channels = db'.channels := by
    apply ExtTreeMap.ext_getElem?
    intro c
    have hmem : c ∈ db.channels ↔ c ∈ db'.channels := (h.mem_iff c).trans (h'.mem_iff c).symm
    have hvalue := hchannel c
    unfold PlainDb.channelOrEmpty at hvalue
    by_cases hc : c ∈ db.channels
    · rw [ExtTreeMap.getElem?_eq_some_getElem hc, ExtTreeMap.getElem?_eq_some_getElem (hmem.mp hc)]
        at hvalue ⊢
      exact congrArg some hvalue
    · rw [ExtTreeMap.getElem?_eq_none hc, ExtTreeMap.getElem?_eq_none fun hc' => hc (hmem.mpr hc')]
  cases db
  cases db'
  exact congrArg PlainDb.mk hchannels

/-- An empty table restores the empty memory. -/
theorem restores_default : PlainDb.default.Restores fun _ => none := by
  refine ⟨fun c => ?_, fun c => ?_, fun c i => ?_, fun c m => ?_⟩ <;>
    simp [PlainDb.default, PlainDb.channelOrEmpty, Table.HasChannel, emptyChannelRecord]

/-- A further record of a channel adds the channel. -/
theorem Table.hasChannel_update {table : Table} {key : LogicalKey} {record : StoredRecord}
    (htype : key.recordType ≠ .metadata) (c : ℕ) :
    Table.HasChannel (Function.update table key (some record)) c ↔
      key.channelIndex = c ∨ table.HasChannel c := by
  constructor
  · rintro ⟨other, hother, htype', hsome⟩
    by_cases heq : other = key
    · exact .inl (heq ▸ hother)
    · rw [Function.update_of_ne heq] at hsome
      exact .inr ⟨other, hother, htype', hsome⟩
  · rintro (hkey | ⟨other, hother, htype', hsome⟩)
    · exact ⟨key, hkey, htype, by simp⟩
    · refine ⟨other, hother, htype', ?_⟩
      by_cases heq : other = key
      · simp [heq]
      · rw [Function.update_of_ne heq]
        exact hsome

/-- Storing a channel restores a further record, once the channel holds what the record says. -/
theorem PlainDb.Restores.setChannel {db : PlainDb} {table : Table} (h : db.Restores table)
    {record : StoredRecord} (htype : record.recordType ≠ .metadata) {channel : ChannelRecord}
    (hscalars : channel.scalars =
      ((Function.update table record.key (some record) (.channel record.channelIndex)).bind
        (·.scalars?)).getD emptyChannelRecord.scalars)
    (hsecret : ∀ i : ℕ, channel.knownSecrets[i]? =
      (Function.update table record.key (some record) (.secret record.channelIndex i)).bind
      (·.secret?))
    (hfrontier : ∀ m : ℕ, channel.frontierNodes[m]? =
      (Function.update table record.key (some record) (.frontier record.channelIndex m)).bind
      (·.frontier?)) :
    (db.setChannel record.channelIndex channel).Restores
      (Function.update table record.key (some record)) := by
  have hother {key : LogicalKey} (hc : record.channelIndex ≠ key.channelIndex) :
      Function.update table record.key (some record) key = table key :=
    Function.update_of_ne (fun heq => hc (congrArg LogicalKey.channelIndex heq).symm) _ _
  refine ⟨fun c => ?_, fun c => ?_, fun c i => ?_, fun c m => ?_⟩
  · rw [Table.hasChannel_update htype, ← h.mem_iff, PlainDb.setChannel, ExtTreeMap.mem_insert,
      LawfulEqCmp.compare_eq_iff_eq]
    rfl
  · rw [channelOrEmpty_setChannel]
    by_cases hc : record.channelIndex = c
    · rw [if_pos hc, ← hc]
      exact hscalars
    · rw [if_neg hc, hother hc]
      exact h.scalars c
  · rw [channelOrEmpty_setChannel]
    by_cases hc : record.channelIndex = c
    · rw [if_pos hc, ← hc]
      exact hsecret i
    · rw [if_neg hc, hother hc]
      exact h.secret c i
  · rw [channelOrEmpty_setChannel]
    by_cases hc : record.channelIndex = c
    · rw [if_pos hc, ← hc]
      exact hfrontier m
    · rw [if_neg hc, hother hc]
      exact h.frontier c m

/-- Reading one more record restores it. -/
theorem PlainDb.Restores.step {db : PlainDb} {table : Table} (h : db.Restores table)
    {record : StoredRecord} (hformed : record.Formed) :
    ∃ db', applyStoredRecord db record = .ok db' ∧
      db'.Restores (Function.update table record.key (some record)) := by
  cases hformed with
  | metadata =>
    have hother {key : LogicalKey} (hkey : key.recordType ≠ .metadata) :
        Function.update table metaRecord.key (some metaRecord) key = table key :=
      Function.update_of_ne (fun heq => hkey (congrArg LogicalKey.recordType heq)) _ _
    refine ⟨db, by simp [applyStoredRecord, metaRecord, validateMetaRecord, bind, Except.bind],
      fun c => ?_, fun c => ?_, fun c i => ?_, fun c m => ?_⟩
    · rw [h.mem_iff]
      refine exists_congr fun key => and_congr_right fun _ => and_congr_right fun hkey => ?_
      rw [hother hkey]
    · rw [hother (by simp [LogicalKey.channel])]
      exact h.scalars c
    · rw [hother (by simp [LogicalKey.secret])]
      exact h.secret c i
    · rw [hother (by simp [LogicalKey.frontier])]
      exact h.frontier c m
  | channel c scalars =>
    refine ⟨_, rfl, h.setChannel (by simp) ?_ (fun i => ?_) fun m => ?_⟩
    · simp [StoredRecord.key, LogicalKey.channel, StoredRecord.scalars?, ChannelRecord.applyScalars,
        ChannelRecord.scalars]
    · simpa [StoredRecord.key, LogicalKey.secret, ChannelRecord.applyScalars] using h.secret c i
    · simpa [StoredRecord.key, LogicalKey.frontier, ChannelRecord.applyScalars] using h.frontier c m
  | secret c i secret =>
    refine ⟨_, rfl, h.setChannel (by simp) ?_ (fun j => ?_) fun m => ?_⟩
    · simpa [StoredRecord.key, LogicalKey.channel, ChannelRecord.scalars] using h.scalars c
    · by_cases hij : i = j
      · subst hij
        simp [StoredRecord.key, LogicalKey.secret, StoredRecord.secret?]
      · have hj := h.secret c j
        simpa [StoredRecord.key, LogicalKey.secret, ExtTreeMap.getElem?_insert, hij, Ne.symm hij]
          using hj
    · simpa [StoredRecord.key, LogicalKey.frontier] using h.frontier c m
  | frontier c m wire =>
    refine ⟨_, rfl, h.setChannel (by simp) ?_ (fun i => ?_) fun m' => ?_⟩
    · simpa [StoredRecord.key, LogicalKey.channel, ChannelRecord.scalars] using h.scalars c
    · simpa [StoredRecord.key, LogicalKey.secret] using h.secret c i
    · by_cases hmm : m = m'
      · subst hmm
        simp [StoredRecord.key, LogicalKey.frontier, StoredRecord.frontier?]
      · have hm' := h.frontier c m'
        simpa [StoredRecord.key, LogicalKey.frontier, ExtTreeMap.getElem?_insert, hmm, Ne.symm hmm]
          using hm'

/-- Reading a list of records replays them. -/
theorem PlainDb.Restores.foldlM {db : PlainDb} {table : Table} (h : db.Restores table)
    {records : List StoredRecord} (hformed : ∀ record ∈ records, record.Formed) :
    ∃ db', records.foldlM applyStoredRecord db = .ok db' ∧
      db'.Restores (replay table (records.map fun record => ⟨record.key, some record⟩)) := by
  induction records generalizing db table with
  | nil => exact ⟨db, rfl, h⟩
  | cons record rest ih =>
    obtain ⟨mid, hmid, hrestores⟩ := h.step (hformed record List.mem_cons_self)
    obtain ⟨db', hdb', hrestores'⟩ := ih hrestores fun r hr => hformed r (List.mem_cons_of_mem _ hr)
    refine ⟨db', ?_, hrestores'⟩
    rw [List.foldlM_cons, hmid]
    exact hdb'

/-- Every record of the table is formed and stored under its key. -/
def Table.Formed (table : Table) : Prop :=
  ∀ key record, table key = some record → record.Formed ∧ record.key = key

/-- Replaying the records of a table in any order gives the table. -/
theorem replay_of_lists {table : Table} (hformed : table.Formed) {records : List StoredRecord}
    (hlists : Lists records table) :
    replay (fun _ => none) (records.map fun record => ⟨record.key, some record⟩) = table := by
  have hrecord {record : StoredRecord} (hmem : record ∈ records) :
      table record.key = some record := by
    obtain ⟨key, hkey⟩ := (hlists record).mp hmem
    rw [(hformed key record hkey).2]
    exact hkey
  funext key
  cases hkey : table key with
  | none =>
    refine Replay.replay_of_not_writes _ fun ⟨w, hw, hwrites⟩ => ?_
    obtain ⟨record, hmem, rfl⟩ := List.mem_map.mp hw
    change record.key = key at hwrites
    rw [← hwrites, hrecord hmem] at hkey
    cases hkey
  | some record =>
    have hmem : record ∈ records := (hlists record).mpr ⟨key, hkey⟩
    refine Replay.replay_of_forall_eq _
      ⟨_, List.mem_map_of_mem hmem, (hformed key record hkey).2⟩ ?_
    intro w hw hwrites
    obtain ⟨other, hother, rfl⟩ := List.mem_map.mp hw
    change other.key = key at hwrites
    rw [← hrecord hother, hwrites, hkey]

/-- Loading a table, in whatever order its records are listed, restores it. -/
theorem loadRedbState_restores {table : Table} (hformed : table.Formed)
    {records : List StoredRecord} (hlists : Lists records table) :
    ∃ db, loadRedbState records = .ok db ∧ db.Restores table := by
  have hrecords : ∀ record ∈ records, record.Formed := by
    intro record hmem
    obtain ⟨key, hkey⟩ := (hlists record).mp hmem
    exact (hformed key record hkey).1
  obtain ⟨db, hload, hrestores⟩ := restores_default.foldlM hrecords
  rw [replay_of_lists hformed hlists] at hrestores
  exact ⟨db, hload, hrestores⟩

end Shachain2pc
