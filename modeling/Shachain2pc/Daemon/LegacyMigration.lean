import Shachain2pc.Daemon.LegacyDb
import Shachain2pc.Lib.Runs
import Mathlib.Logic.Function.Iterate

/-!
# Migrating a legacy database across crashes

Opening the store looks at the file at the configured path and at a temporary file beside it.
A legacy file is migrated into the temporary file, moved aside, and replaced by it. A crash may
come between any two steps on the files; a crash while the temporary file is written leaves it
with any content. The next opening decides from the files it finds which step was interrupted.

Encryption is left out: a legacy file stands for its decrypted contents and a redb file for its
table, both under the one master secret.
-/

namespace Shachain2pc

open Std
open Runs (run)

/-- The content of a file. A damaged file can be neither decrypted nor opened; it may still begin
with the magic of a legacy file. -/
inductive DbFile where
  | legacy (contents : LegacyDb)
  | redb (table : Table)
  | damaged (magic : Bool)

/-- `bytes.starts_with(DB_MAGIC)`. -/
def DbFile.startsWithMagic : DbFile → Bool
  | .legacy _ => true
  | .redb _ => false
  | .damaged magic => magic

/-- The files at the configured path, at `migration_temp_path` and at `migrated_legacy_path`. -/
structure DbFiles where
  path : Option DbFile
  temp : Option DbFile
  migrated : Option DbFile

/-- The next step of `DbStore::open`. -/
inductive OpenPc where
  | stopped
  | recoverIncompleteMigration
  | checkLegacy
  | removeTemp (contents : LegacyDb)
  | migrateLegacyDb (contents : LegacyDb)
  | removeMigrated
  | renamePath
  | renameTemp
  | openDatabase
  | ensureMetaRecord
  | opened
  | failed

/-- A process which opens the store, and the files. -/
structure MigrationState where
  pc : OpenPc
  files : DbFiles

/-- `migrate_legacy_db` on a file which does not exist. -/
def migrateLegacyDb (contents : LegacyDb) : Table :=
  applyMutations (applyMutations (fun _ => none) [.upsert .metadata metaRecord])
    (plainDbMutations contents)

/-- `ensure_meta_record`. -/
def ensureMetaRecord (table : Table) : Except DaemonError Table :=
  match table .metadata with
  | some record => (validateMetaRecord record).map fun _ => table
  | none => .ok (applyMutations table [.upsert .metadata metaRecord])

namespace MigrationState

/-- One step of `DbStore::open`; it stays where it ended. -/
def next (s : MigrationState) : MigrationState :=
  match s.pc with
  | .recoverIncompleteMigration => match s.files.path with
    | some _ => ⟨.checkLegacy, { s.files with temp := none }⟩
    | none => ⟨.checkLegacy, { s.files with path := s.files.temp, temp := none }⟩
  | .checkLegacy => match s.files.path with
    | none => ⟨.openDatabase, s.files⟩
    | some file =>
      if file.startsWithMagic then match file with
        | .legacy contents => ⟨.removeTemp contents, s.files⟩
        | _ => ⟨.failed, s.files⟩
      else ⟨.openDatabase, s.files⟩
  | .removeTemp contents => ⟨.migrateLegacyDb contents, { s.files with temp := none }⟩
  | .migrateLegacyDb contents => match s.files.temp with
    | none => ⟨.removeMigrated, { s.files with temp := some (.redb (migrateLegacyDb contents)) }⟩
    | some _ => ⟨.failed, s.files⟩
  | .removeMigrated => ⟨.renamePath, { s.files with migrated := none }⟩
  | .renamePath => ⟨.renameTemp, { s.files with path := none, migrated := s.files.path }⟩
  | .renameTemp =>
    ⟨.recoverIncompleteMigration, { s.files with path := s.files.temp, temp := none }⟩
  | .openDatabase => match s.files.path with
    | none => ⟨.ensureMetaRecord, { s.files with path := some (.redb fun _ => none) }⟩
    | some (.redb _) => ⟨.ensureMetaRecord, s.files⟩
    | some _ => ⟨.failed, s.files⟩
  | .ensureMetaRecord => match s.files.path with
    | some (.redb table) => match ensureMetaRecord table with
      | .ok table => ⟨.opened, { s.files with path := some (.redb table) }⟩
      | .error _ => ⟨.failed, s.files⟩
    | _ => ⟨.failed, s.files⟩
  | .stopped | .opened | .failed => s

/-- The process opens the store anew, takes a step, or dies. One that dies while it writes a new
file leaves anything there. -/
inductive Label where
  | reopen
  | next
  | crash (left : Option DbFile)

/-- One step of the process and of the environment. -/
def step (s : MigrationState) : Label → Option MigrationState
  | .reopen => match s.pc with
    | .stopped => some { s with pc := .recoverIncompleteMigration }
    | _ => none
  | .next => some s.next
  | .crash left => match s.pc with
    | .migrateLegacyDb _ => some ⟨.stopped, { s.files with temp := left }⟩
    | .openDatabase => match s.files.path with
      | none => some ⟨.stopped, { s.files with path := left }⟩
      | some _ => some ⟨.stopped, s.files⟩
    | _ => some ⟨.stopped, s.files⟩

/-- Nothing runs, a legacy file is at the configured path, and an earlier attempt may have left
anything beside it. -/
def start (contents : LegacyDb) (temp migrated : Option DbFile) : MigrationState :=
  ⟨.stopped, some (.legacy contents), temp, migrated⟩

/-- The store is open over a redb file which loads as the given memory. -/
def Loads (s : MigrationState) (db : PlainDb) : Prop :=
  s.pc = .opened ∧ ∃ table, s.files.path = some (.redb table) ∧
    ∀ records, Lists records table → loadRedbState records = .ok db

/-- The file that the migration makes of the contents. -/
def migratedFile (contents : LegacyDb) : DbFile := .redb contents.numbered.record

/-- The contents are still held: by the legacy file, by the finished temporary file, or by the
migrated file at the configured path. -/
inductive Held (contents : LegacyDb) (files : DbFiles) : Prop where
  | legacy (path : files.path = some (.legacy contents))
  | moved (path : files.path = none) (temp : files.temp = some (migratedFile contents))
  | migrated (path : files.path = some (migratedFile contents))

/-- What the files are at each step of an opening. -/
def PcHolds (contents : LegacyDb) (files : DbFiles) : OpenPc → Prop
  | .stopped | .recoverIncompleteMigration => Held contents files
  | .checkLegacy => files.path = some (.legacy contents) ∨ files.path = some (migratedFile contents)
  | .removeTemp found => found = contents ∧ files.path = some (.legacy contents)
  | .migrateLegacyDb found =>
    found = contents ∧ files.path = some (.legacy contents) ∧ files.temp = none
  | .removeMigrated | .renamePath =>
    files.path = some (.legacy contents) ∧ files.temp = some (migratedFile contents)
  | .renameTemp => files.path = none ∧ files.temp = some (migratedFile contents)
  | .openDatabase | .ensureMetaRecord | .opened => files.path = some (migratedFile contents)
  | .failed => False

variable {contents : LegacyDb} {s t : MigrationState}

/-- The migration writes the records of the contents by number. -/
theorem migrateLegacyDb_eq (contents : LegacyDb) :
    migrateLegacyDb contents = contents.numbered.record := by
  have hfresh : applyMutations (fun _ => none) [.upsert .metadata metaRecord] =
      PlainDb.default.record := by
    funext key
    rw [applyMutations_upsert, applyMutations_nil, Function.update_apply, PlainDb.record]
    split
    · rfl
    · simp [PlainDb.default]
  rw [migrateLegacyDb, hfresh]
  exact plainDbMutations_mirrors contents

/-- A table with the verifier record is left as it is. -/
theorem ensureMetaRecord_record (db : PlainDb) : ensureMetaRecord db.record = .ok db.record := by
  have hmeta : db.record .metadata = some metaRecord := if_pos rfl
  rw [ensureMetaRecord, hmeta]
  rfl

/-- At every step of an opening the contents are held. -/
theorem PcHolds.held {files : DbFiles} {pc : OpenPc} (h : PcHolds contents files pc) :
    Held contents files := by
  cases pc with
  | stopped | recoverIncompleteMigration => exact h
  | checkLegacy => exact h.elim .legacy .migrated
  | removeTemp found => exact .legacy h.2
  | migrateLegacyDb found => exact .legacy h.2.1
  | removeMigrated | renamePath => exact .legacy h.1
  | renameTemp => exact .moved h.1 h.2
  | openDatabase | ensureMetaRecord | opened => exact .migrated h
  | failed => exact h.elim

/-- A step of an opening keeps what the files are. -/
theorem PcHolds.next (h : PcHolds contents s.files s.pc) :
    PcHolds contents s.next.files s.next.pc := by
  obtain ⟨pc, path, temp, migrated⟩ := s
  cases pc with
  | stopped | opened | failed => exact h
  | recoverIncompleteMigration =>
    cases h with
    | legacy hpath =>
      obtain rfl : path = some (.legacy contents) := hpath
      exact .inl rfl
    | moved hpath htemp =>
      obtain rfl : path = none := hpath
      exact .inr htemp
    | migrated hpath =>
      obtain rfl : path = some (migratedFile contents) := hpath
      exact .inr rfl
  | checkLegacy =>
    rcases h with hpath | hpath
    · obtain rfl : path = some (.legacy contents) := hpath
      exact ⟨rfl, rfl⟩
    · obtain rfl : path = some (migratedFile contents) := hpath
      rfl
  | removeTemp found => exact ⟨h.1, h.2, rfl⟩
  | migrateLegacyDb found =>
    obtain ⟨rfl, hpath, htemp⟩ := h
    obtain rfl : temp = none := htemp
    exact ⟨hpath, congrArg (fun table => some (DbFile.redb table)) (migrateLegacyDb_eq found)⟩
  | removeMigrated => exact h
  | renamePath => exact ⟨rfl, h.2⟩
  | renameTemp => exact .migrated h.2
  | openDatabase =>
    obtain rfl : path = some (migratedFile contents) := h
    rfl
  | ensureMetaRecord =>
    obtain rfl : path = some (migratedFile contents) := h
    simp only [MigrationState.next, migratedFile, ensureMetaRecord_record]
    rfl

/-- Every step keeps what the files are. -/
theorem PcHolds.step (h : PcHolds contents s.files s.pc) {label : Label}
    (hstep : s.step label = some t) : PcHolds contents t.files t.pc := by
  cases label with
  | reopen =>
    simp only [MigrationState.step] at hstep
    split at hstep
    · cases hstep
      exact h.held
    · cases hstep
  | next =>
    cases hstep
    exact h.next
  | crash left =>
    simp only [MigrationState.step] at hstep
    split at hstep
    · next found hpc =>
      cases hstep
      rw [hpc] at h
      exact .legacy h.2.1
    · next hpc =>
      rw [hpc] at h
      have hpath : s.files.path = some (migratedFile contents) := h
      rw [hpath] at hstep
      cases hstep
      exact .migrated hpath
    · cases hstep
      exact h.held

/-- A migrated file is opened in four steps. -/
theorem next_migrated (contents : LegacyDb) (temp migrated : Option DbFile) :
    MigrationState.next^[4]
      ⟨.recoverIncompleteMigration, some (migratedFile contents), temp, migrated⟩ =
        ⟨.opened, some (migratedFile contents), none, migrated⟩ := by
  have hmeta :
      MigrationState.next ⟨.ensureMetaRecord, some (migratedFile contents), none, migrated⟩ =
      ⟨.opened, some (migratedFile contents), none, migrated⟩ := by
    simp only [MigrationState.next, migratedFile, ensureMetaRecord_record]
  exact hmeta

/-- A finished temporary file without a legacy file is moved into place and opened in four steps. -/
theorem next_moved (contents : LegacyDb) (migrated : Option DbFile) :
    MigrationState.next^[4]
      ⟨.recoverIncompleteMigration, none, some (migratedFile contents), migrated⟩ =
        ⟨.opened, some (migratedFile contents), none, migrated⟩ :=
  next_migrated contents none migrated

/-- A legacy file is migrated in seven steps, whatever is beside it. -/
theorem next_legacy (contents : LegacyDb) (temp migrated : Option DbFile) :
    MigrationState.next^[7] ⟨.recoverIncompleteMigration, some (.legacy contents), temp, migrated⟩ =
      ⟨.recoverIncompleteMigration, some (migratedFile contents), none,
        some (.legacy contents)⟩ := by
  have hfile : DbFile.redb (Shachain2pc.migrateLegacyDb contents) = migratedFile contents :=
    congrArg DbFile.redb (migrateLegacyDb_eq contents)
  exact congrArg (fun file => (⟨.recoverIncompleteMigration, some file, none,
    some (.legacy contents)⟩ : MigrationState)) hfile

/-- Opening the store over files which hold the contents ends with the contents loaded. -/
theorem Held.opens {files : DbFiles} (h : Held contents files) :
    Loads (MigrationState.next^[11] ⟨.recoverIncompleteMigration, files⟩) contents.numbered := by
  have hloads (temp migrated : Option DbFile) :
      Loads ⟨.opened, some (migratedFile contents), temp, migrated⟩ contents.numbered :=
    ⟨rfl, _, rfl, fun records => loadRedbState_of_mirrors rfl⟩
  obtain ⟨path, temp, migrated⟩ := files
  cases h with
  | legacy hpath =>
    obtain rfl : path = some (.legacy contents) := hpath
    rw [show 11 = 4 + 7 from rfl, Function.iterate_add_apply, next_legacy, next_migrated]
    exact hloads ..
  | moved hpath htemp =>
    obtain rfl : path = none := hpath
    obtain rfl : temp = some (migratedFile contents) := htemp
    rw [show 11 = 7 + 4 from rfl, Function.iterate_add_apply, next_moved]
    exact hloads ..
  | migrated hpath =>
    obtain rfl : path = some (migratedFile contents) := hpath
    rw [show 11 = 7 + 4 from rfl, Function.iterate_add_apply, next_migrated]
    exact hloads ..

/-- Legacy migration survives crashes. In every state that openings, steps and crashes reach from a
legacy file, whatever lay beside it, no opening has failed or is about to create an empty store, an
opened store is over the contents, and opening the store anew ends with the contents loaded by
number: these are the parseable contents exactly when their parseable keys are canonical
decimals. -/
theorem migration_survives (contents : LegacyDb) (temp migrated : Option DbFile)
    (labels : List Label) (hrun : run step (start contents temp migrated) labels = some t) :
    t.pc ≠ .failed ∧ (t.pc = .openDatabase → t.files.path ≠ none) ∧
      (t.pc = .opened → Loads t contents.numbered) ∧
      Loads (MigrationState.next^[11] ⟨.recoverIncompleteMigration, t.files⟩) contents.numbered ∧
      (SameContents contents.numbered contents ↔ contents.Canonical) := by
  have hstart : PcHolds contents (start contents temp migrated).files
      (start contents temp migrated).pc := .legacy rfl
  have hholds : PcHolds contents t.files t.pc :=
    Runs.invariant_of_step (fun _ _ _ h hstep => PcHolds.step h hstep) hstart hrun
  refine ⟨fun hpc => ?_, fun hpc => ?_, fun hpc => ?_, hholds.held.opens,
    sameContents_numbered contents⟩
  · rw [hpc] at hholds
    exact hholds
  · rw [hpc] at hholds
    have hpath : t.files.path = some (migratedFile contents) := hholds
    rw [hpath]
    exact Option.some_ne_none _
  · rw [hpc] at hholds
    exact ⟨hpc, _, hholds, fun records => loadRedbState_of_mirrors rfl⟩

/-- Contents of one channel under a given key. -/
def oneChannel (key : String) : LegacyDb :=
  ⟨(∅ : ExtTreeMap String LegacyChannel).insert key ⟨emptyChannelRecord.scalars, ∅, ∅⟩⟩

/-- A crash while the temporary file is written, and another once the legacy file was moved
aside. -/
def crashingLabels : List Label :=
  [.reopen, .next, .next, .next, .crash (some (.damaged false)), .reopen, .next,
    .next, .next, .next, .next, .next, .crash none]

/-- The file is not at its path after the crashes, and is found again. -/
theorem migration_survives_twice : ∃ t,
    run step (start (oneChannel "7") (some (.damaged true)) none) crashingLabels = some t ∧
      t.files.path.isNone ∧ Loads (MigrationState.next^[11] ⟨.recoverIncompleteMigration, t.files⟩)
        (oneChannel "7").numbered := by
  have hrun : run step (start (oneChannel "7") (some (.damaged true)) none) crashingLabels =
      some ⟨.stopped, none, some (.redb (Shachain2pc.migrateLegacyDb (oneChannel "7"))),
        some (.legacy (oneChannel "7"))⟩ := rfl
  exact ⟨_, hrun, rfl, (migration_survives _ _ _ crashingLabels hrun).2.2.2.1⟩

/-- A channel under the key `07` comes back under the key `7`. -/
theorem migration_renames_key : ∃ db,
    Loads (MigrationState.next^[11] ⟨.recoverIncompleteMigration,
      (start (oneChannel "07") none none).files⟩) db ∧ ¬ SameContents db (oneChannel "07") := by
  refine ⟨(oneChannel "07").numbered, (Held.legacy rfl).opens, fun h => ?_⟩
  have hcanonical := ((sameContents_numbered _).mp h).1 "07" ⟨emptyChannelRecord.scalars, ∅, ∅⟩
    ExtTreeMap.getElem?_insert_self 7 (by decide)
  exact absurd hcanonical (by decide)

end MigrationState

end Shachain2pc
