import Shachain2pc.Daemon.LegacyDb
import Shachain2pc.Daemon.SealedTable
import Mathlib.Data.List.Induction
import Mathlib.Logic.Equiv.List
import Mathlib.Tactic.ProxyType

/-!
# Records round trip

Two ways into the database. `plain_db_mutations` writes a whole memory into an empty table; if
its maps are keyed by canonical decimals, loading the records gives the memory back. And every
operation sends the mutations of what it changed; after any of them, in whatever batches, loading
gives what the last mutation of each logical key left.
-/

namespace Shachain2pc

open Std

/-- A map under the decimals of its keys. -/
def decimalMap {V W : Type} (f : V → W) (map : DecimalMap V) : ExtTreeMap String W :=
  .ofList (map.toList.map fun entry => (toString entry.1, f entry.2))

/-- A channel with its maps under decimal keys. -/
def ChannelRecord.decimal (channel : ChannelRecord) : LegacyChannel where
  scalars := channel.scalars
  frontierNodes := decimalMap id channel.frontierNodes
  knownSecrets := decimalMap id channel.knownSecrets

/-- A memory with its maps under decimal keys. -/
def PlainDb.decimal (db : PlainDb) : LegacyDb := ⟨decimalMap ChannelRecord.decimal db.channels⟩

/-- Every key of the map is the canonical decimal of a `u64`. -/
def DecimalKeys {V : Type} (map : ExtTreeMap String V) : Prop :=
  ∀ key ∈ map, ∃ n < 2 ^ 64, key = toString (n : ℕ)

/-- Every key of a memory is the canonical decimal of a `u64`. -/
structure LegacyDb.DecimalKeys (db : LegacyDb) : Prop where
  channels : Shachain2pc.DecimalKeys db.channels
  entries : ∀ (key : String) channel, db.channels[key]? = some channel →
    Shachain2pc.DecimalKeys channel.knownSecrets ∧ Shachain2pc.DecimalKeys channel.frontierNodes

/-- What the last mutation of a key left there. -/
def lastWrite (mutations : List Mutation) : Table := fun key =>
  (mutations.reverse.find? (·.key = key)).bind (·.write.value)

/-- The mutations which the daemon makes, on numbers of a `u64`. -/
inductive Mutation.Built : Mutation → Prop where
  | metadata : Built (.upsert .metadata metaRecord)
  | channel {c : ℕ} (hc : c < 2 ^ 64) (channel : ChannelRecord) :
      Built (upsertChannelMutation c channel)
  | secret {c i : ℕ} (hc : c < 2 ^ 64) (hi : i < 2 ^ 64) (secret : Value32) :
    Built (upsertSecretMutation c i secret)
  | frontier {c m : ℕ} (hc : c < 2 ^ 64) (hm : m < 2 ^ 64) (wire : WireRecord) :
    Built (upsertFrontierMutation c m wire)
  | deleteSecret {c i : ℕ} (hc : c < 2 ^ 64) (hi : i < 2 ^ 64) : Built (deleteSecretMutation c i)
  | deleteFrontier {c m : ℕ} (hc : c < 2 ^ 64) (hm : m < 2 ^ 64) :
      Built (deleteFrontierMutation c m)

variable {V W : Type} {mutations : List Mutation}

/-! ## The last write of each key -/

/-- Mutations of an empty table leave what the last one of each key left. -/
theorem applyMutations_eq_lastWrite (mutations : List Mutation) :
    applyMutations (fun _ => none) mutations = lastWrite mutations := by
  induction mutations using List.reverseRecOn with
  | nil => rfl
  | append_singleton rest m ih =>
    have hlast : applyMutations (fun _ => none) (rest ++ [m]) =
        Function.update (applyMutations (fun _ => none) rest) m.key m.write.value := by
      rw [applyMutations_append, applyMutations, List.map_singleton, Replay.replay_cons,
        Replay.replay_nil, Replay.Write.apply, m.write_key]
    rw [hlast, ih]
    funext key
    rw [lastWrite, List.reverse_append, List.reverse_singleton, List.singleton_append]
    by_cases hkey : m.key = key
    · subst hkey
      simp
    · rw [Function.update_of_ne (Ne.symm hkey), List.find?_cons_of_neg (by simpa using hkey)]
      rfl

/-- The daemon's mutations name keys in range. -/
theorem Mutation.Built.inRange {m : Mutation} (h : m.Built) : m.key.InRange := by
  cases h with
  | metadata => exact ⟨by decide, by decide⟩
  | channel hc => exact ⟨hc, Nat.two_pow_pos 64⟩
  | secret hc hi | deleteSecret hc hi => exact ⟨hc, hi⟩
  | frontier hc hm | deleteFrontier hc hm => exact ⟨hc, hm⟩

/-- The daemon's mutations write formed records under their keys. -/
theorem Mutation.Built.formed {m : Mutation} (h : m.Built) {record : StoredRecord}
    (hrecord : m.write.value = some record) : record.Formed ∧ record.key = m.key := by
  cases h with
  | metadata =>
    cases hrecord
    exact ⟨.metadata, rfl⟩
  | channel hc channel =>
    cases hrecord
    exact ⟨.channel _ _, rfl⟩
  | secret hc hi secret =>
    cases hrecord
    exact ⟨.secret _ _ _, rfl⟩
  | frontier hc hm wire =>
    cases hrecord
    exact ⟨.frontier _ _ _, rfl⟩
  | deleteSecret | deleteFrontier => cases hrecord

/-- The daemon's mutations leave formed records under their keys. -/
theorem lastWrite_formed (hbuilt : ∀ m ∈ mutations, m.Built) : (lastWrite mutations).Formed := by
  intro key record hrecord
  obtain ⟨m, hfind, hvalue⟩ := Option.bind_eq_some_iff.mp hrecord
  have hkey : m.key = key := by simpa using List.find?_some hfind
  have hmem : m ∈ mutations := List.mem_reverse.mp (List.mem_of_find?_eq_some hfind)
  exact hkey ▸ (hbuilt m hmem).formed hvalue

variable {crypto : StoreCrypto}

/-- Loading what the daemon's mutations left in an empty sealed table. -/
theorem loadRedbState_lastWrite (hlawful : crypto.Lawful)
    {mutations : List (Mutation × Vector UInt8 dbNonceLen)}
    (hbuilt : ∀ entry ∈ mutations, entry.1.Built) {entries : List (List UInt8 × List UInt8)}
    (hlists : ListsEntries entries (crypto.applyMutations (fun _ => none) mutations)) :
    ∃ db, crypto.loadRedbState entries = .ok db ∧
    db.Restores (lastWrite (mutations.map Prod.fst)) := by
  have hseals :=
    seals_empty.applyMutations hlawful fun entry hentry => (hbuilt entry hentry).inRange
  rw [applyMutations_eq_lastWrite] at hseals
  have hformed : (lastWrite (mutations.map Prod.fst)).Formed := lastWrite_formed fun m hm => by
    obtain ⟨entry, hentry, rfl⟩ := List.mem_map.mp hm
    exact hbuilt entry hentry
  obtain ⟨records, hrecords, hload⟩ := hseals.loadRedbState hlists
  rw [hload]
  exact loadRedbState_restores hformed hrecords

/-! ## A whole memory -/

/-- A canonical decimal is parsed as its number. -/
theorem parseU64_toString {n : ℕ} (hn : n < 2 ^ 64) : parseU64 (toString n) = some n := by
  have hlist : (toString n).toList = Nat.toDigits 10 n := Nat.toList_repr
  have hdigit : ∀ digit ∈ Nat.toDigits 10 n, digit.isDigit = true := fun digit hmem =>
    Nat.isDigit_of_mem_toDigits (by decide) (by decide) hmem
  have hvalue : Nat.ofDigitChars 10 (Nat.toDigits 10 n) 0 = n := Nat.ofDigitChars_ten_toDigits
  have hne : Nat.toDigits 10 n ≠ [] := Nat.toDigits_ne_nil
  rw [parseU64, hlist]
  generalize Nat.toDigits 10 n = digits at *
  have hnone : (digits.isEmpty || digits.any fun digit => !digit.isDigit) = false := by
    simpa [hne] using hdigit
  split
  · next rest => exact absurd (hdigit '+' List.mem_cons_self) (by decide)
  · simpa [hnone, hvalue] using hn

/-- A parsed number fits into a `u64`. -/
theorem parseU64_lt {key : String} {n : ℕ} (h : parseU64 key = some n) : n < 2 ^ 64 := by
  unfold parseU64 at h
  dsimp only at h
  split_ifs at h with hbad hlt
  exact Option.some.inj h ▸ hlt

/-- What a map holds under the decimal of a key. -/
theorem getElem?_decimalMap (f : V → W) (map : DecimalMap V) (n : ℕ) :
    (decimalMap f map)[toString n]? = map[n]?.map f := by
  have hdistinct : (map.toList.map fun entry => (toString entry.1, f entry.2)).Pairwise
      fun a b => ¬compare a.1 b.1 = .eq := by
    rw [List.pairwise_map]
    exact ExtTreeMap.distinct_keys_toList (t := map)
  cases hvalue : map[n]? with
  | some v =>
    exact ExtTreeMap.getElem?_ofList_of_mem ReflCmp.compare_self hdistinct
      (List.mem_map.mpr ⟨(n, v), mem_toList.mpr hvalue, rfl⟩)
  | none =>
    refine ExtTreeMap.getElem?_eq_none fun hmem => ?_
    rw [decimalMap, ExtTreeMap.mem_ofList, List.map_map, List.contains_iff_mem] at hmem
    obtain ⟨⟨m, v⟩, hentry, hkey⟩ := List.mem_map.mp hmem
    cases toString_injective hkey
    rw [mem_toList.mp hentry] at hvalue
    cases hvalue

/-- A map under decimal keys holds only decimal keys. -/
theorem exists_of_mem_decimalMap {f : V → W} {map : DecimalMap V} {key : String}
    (h : key ∈ decimalMap f map) : ∃ n : ℕ, key = toString n := by
  rw [decimalMap, ExtTreeMap.mem_ofList, List.map_map, List.contains_iff_mem] at h
  obtain ⟨entry, -, hkey⟩ := List.mem_map.mp h
  exact ⟨entry.1, hkey.symm⟩

/-- Decimal keys are canonical. -/
theorem DecimalKeys.canonicalKeys {old : ExtTreeMap String W} (h : DecimalKeys old) :
    CanonicalKeys old := by
  intro key w hold n hparse
  obtain ⟨m, hm, rfl⟩ := h key (ExtTreeMap.mem_iff_isSome_getElem?.mpr (hold ▸ rfl))
  rw [parseU64_toString hm] at hparse
  rw [Option.some.inj hparse]

/-- Entering a map with decimal keys and listing it under decimals gives the map back. -/
theorem decimalMap_enterParsed {enter : Option V → W → V} {f : V → W} {old : ExtTreeMap String W}
    (hdecimal : DecimalKeys old)
    (henter : ∀ (key : String) w, old[key]? = some w → f (enter none w) = w) :
    decimalMap f (enterParsed enter ∅ old.toList) = old := by
  have hentries : ∀ entry ∈ old.toList, ∀ n ∈ parseU64 entry.1, toString n = entry.1 := by
    intro entry hentry
    have hold := ExtTreeMap.mem_toList_iff_getElem?_eq_some.mp hentry
    exact hdecimal.canonicalKeys entry.1 entry.2 hold
  have hdistinct : old.toList.Pairwise fun a b => a.1 ≠ b.1 :=
    ExtTreeMap.distinct_keys_toList.imp fun hne heq => hne (LawfulEqCmp.compare_eq_iff_eq.mpr heq)
  apply ExtTreeMap.ext_getElem?
  intro key
  cases hold : old[key]? with
  | some w =>
    obtain ⟨n, hn, rfl⟩ := hdecimal key (ExtTreeMap.mem_iff_isSome_getElem?.mpr (hold ▸ rfl))
    have hmem := ExtTreeMap.mem_toList_iff_getElem?_eq_some.mpr hold
    rw [getElem?_decimalMap,
      getElem?_enterParsed_of_mem hentries hdistinct hmem (parseU64_toString hn),
      ExtTreeMap.getElem?_empty, Option.map_some, henter _ _ hold]
  | none =>
    refine ExtTreeMap.getElem?_eq_none fun hmem => ?_
    obtain ⟨n, rfl⟩ := exists_of_mem_decimalMap hmem
    have hne : ∀ entry ∈ old.toList, parseU64 entry.1 ≠ some n := by
      intro entry hentry hparse
      have hfound := ExtTreeMap.mem_toList_iff_getElem?_eq_some.mp hentry
      rw [← hentries entry hentry n hparse, hold] at hfound
      cases hfound
    rw [ExtTreeMap.mem_iff_isSome_getElem?, getElem?_decimalMap,
      getElem?_enterParsed_of_forall_ne hne, ExtTreeMap.getElem?_empty] at hmem
    cases hmem

/-- The scalars of a channel overwritten by a legacy one. -/
theorem LegacyChannel.overwrite_scalars (channel : LegacyChannel) (old : ChannelRecord) :
    (channel.overwrite old).scalars = channel.scalars := rfl

/-- Contents with decimal keys are their contents by number. -/
theorem LegacyDb.DecimalKeys.numbered_decimal {db : LegacyDb} (h : db.DecimalKeys) :
    db.numbered.decimal = db := by
  refine congrArg LegacyDb.mk (decimalMap_enterParsed h.channels fun key channel hchannel => ?_)
  obtain ⟨hsecrets, hfrontier⟩ := h.entries key channel hchannel
  have hsecrets : decimalMap id (enterParsed (fun _ v => v) ∅ channel.knownSecrets.toList) =
      channel.knownSecrets :=
    decimalMap_enterParsed hsecrets fun _ _ _ => rfl
  have hfrontier : decimalMap id (enterParsed (fun _ w => w) ∅ channel.frontierNodes.toList) =
      channel.frontierNodes :=
    decimalMap_enterParsed hfrontier fun _ _ _ => rfl
  cases channel
  simp only [ChannelRecord.decimal, enterChannel, LegacyChannel.overwrite_scalars,
    LegacyChannel.mk.injEq, true_and]
  exact ⟨hfrontier, hsecrets⟩

/-- Only the records of channels matter to what a table restores. -/
theorem PlainDb.Restores.congr {db : PlainDb} {table table' : Table} (h : db.Restores table)
    (heq : ∀ key : LogicalKey, key.recordType ≠ .metadata → table' key = table key) :
    db.Restores table' := by
  refine ⟨fun c => ?_, fun c => ?_, fun c i => ?_, fun c m => ?_⟩
  · rw [h.mem_iff]
    refine exists_congr fun key => and_congr_right fun _ => and_congr_right fun hkey => ?_
    rw [heq key hkey]
  · rw [heq _ (by simp [LogicalKey.channel])]
    exact h.scalars c
  · rw [heq _ (by simp [LogicalKey.secret])]
    exact h.secret c i
  · rw [heq _ (by simp [LogicalKey.frontier])]
    exact h.frontier c m

/-- The record of a memory at a key of a channel. -/
theorem PlainDb.record_of_ne (db : PlainDb) {key : LogicalKey}
    (htype : key.recordType ≠ .metadata) :
    db.record key = db.channels[key.channelIndex]?.bind
      (·.record key.channelIndex key.recordType key.subId) := by
  rw [PlainDb.record, if_neg]
  rintro rfl
  exact htype rfl

/-- The records of a memory restore it. -/
theorem PlainDb.restores_record (db : PlainDb) : db.Restores db.record := by
  refine ⟨fun c => ?_, fun c => ?_, fun c i => ?_, fun c m => ?_⟩
  · rw [ExtTreeMap.mem_iff_isSome_getElem?]
    constructor
    · intro hsome
      obtain ⟨channel, hc⟩ := Option.isSome_iff_exists.mp hsome
      refine ⟨.channel c, rfl, by simp [LogicalKey.channel], ?_⟩
      rw [db.record_of_ne (by simp [LogicalKey.channel])]
      simp [LogicalKey.channel, hc, ChannelRecord.record]
    · rintro ⟨key, rfl, htype, hsome⟩
      rw [db.record_of_ne htype] at hsome
      exact Option.isSome_of_isSome_bind hsome
  · rw [db.record_of_ne (by simp [LogicalKey.channel]), PlainDb.channelOrEmpty]
    cases hc : db.channels[c]? <;>
      simp [LogicalKey.channel, hc, ChannelRecord.record, StoredRecord.scalars?]
  · rw [db.record_of_ne (by simp [LogicalKey.secret]), PlainDb.channelOrEmpty]
    cases hc : db.channels[c]? with
    | none => simp [LogicalKey.secret, hc, emptyChannelRecord]
    | some channel =>
      cases hi : channel.knownSecrets[i]? <;>
        simp [LogicalKey.secret, hc, hi, ChannelRecord.record, StoredRecord.secret?]
  · rw [db.record_of_ne (by simp [LogicalKey.frontier]), PlainDb.channelOrEmpty]
    cases hc : db.channels[c]? with
    | none => simp [LogicalKey.frontier, hc, emptyChannelRecord]
    | some channel =>
      cases hm : channel.frontierNodes[m]? <;>
        simp [LogicalKey.frontier, hc, hm, ChannelRecord.record, StoredRecord.frontier?]

/-- The mutations of the contents, made in an empty table, restore the contents by number. -/
theorem LegacyDb.numbered_restores (db : LegacyDb) :
    db.numbered.Restores (applyMutations (fun _ => none) (plainDbMutations db)) := by
  have hmirrors :
      applyMutations PlainDb.default.record (plainDbMutations db) = db.numbered.record :=
    plainDbMutations_mirrors db
  refine db.numbered.restores_record.congr fun key htype => ?_
  rw [← hmirrors]
  refine Replay.replay_congr ?_ _
  rw [PlainDb.record_of_ne _ htype, PlainDb.default, ExtTreeMap.getElem?_empty]
  rfl

/-- The upserts of entries are made on parsed numbers. -/
theorem exists_of_mem_entryMutations {upsert : ℕ → V → Mutation} {entries : List (String × V)}
    {m : Mutation} (hm : m ∈ entryMutations upsert entries) :
    ∃ n < 2 ^ 64, ∃ v, m = upsert n v := by
  obtain ⟨entry, -, hentry⟩ := List.mem_filterMap.mp hm
  obtain ⟨n, hparse, rfl⟩ := Option.map_eq_some_iff.mp hentry
  exact ⟨n, parseU64_lt hparse, entry.2, rfl⟩

/-- A whole memory is written by mutations on numbers of a `u64`. -/
theorem plainDbMutations_built (db : LegacyDb) : ∀ m ∈ plainDbMutations db, m.Built := by
  intro m hm
  obtain ⟨⟨key, channel⟩, -, hm⟩ := List.mem_flatMap.mp hm
  cases hparse : parseU64 key with
  | none => simp [hparse] at hm
  | some c =>
    have hc := parseU64_lt hparse
    simp only [hparse, LegacyChannel.mutations, List.mem_cons, List.mem_append] at hm
    rcases hm with rfl | hm | hm
    · exact .channel hc (channel.overwrite emptyChannelRecord)
    · obtain ⟨i, hi, secret, rfl⟩ := exists_of_mem_entryMutations hm
      exact .secret hc hi secret
    · obtain ⟨mask, hmask, wire, rfl⟩ := exists_of_mem_entryMutations hm
      exact .frontier hc hmask wire

/-- What is restored is unaffected by the order, the batches and the nonces: a whole memory whose
keys are canonical decimals comes back from a table which held nothing; in general loading reads
the records which the last mutation of each key left, and of the daemon's mutations it gives the
memory which these records describe. -/
theorem records_roundTrip (hlawful : crypto.Lawful) :
    (∀ (db : LegacyDb) (mutations : List (Mutation × Vector UInt8 dbNonceLen)) entries,
      db.DecimalKeys →
      mutations.map Prod.fst = plainDbMutations db →
      ListsEntries entries (crypto.applyMutations (fun _ => none) mutations) →
      ∃ loaded, crypto.loadRedbState entries = .ok loaded ∧ loaded.decimal = db) ∧
    (∀ (batches : List (List (Mutation × Vector UInt8 dbNonceLen))) entries,
      (∀ entry ∈ batches.flatten, entry.1.key.InRange) →
      ListsEntries entries (batches.foldl crypto.applyMutations fun _ => none) →
      (∃ records, Lists records (lastWrite (batches.flatten.map Prod.fst)) ∧
        crypto.loadRedbState entries = loadRedbState records) ∧
      ((∀ entry ∈ batches.flatten, entry.1.Built) →
        ∃ loaded, crypto.loadRedbState entries = .ok loaded ∧
          loaded.Restores (lastWrite (batches.flatten.map Prod.fst)))) := by
  refine ⟨fun db mutations entries hdecimal hmutations hlists => ?_,
    fun batches entries hinRange hlists => ?_⟩
  · have hbuilt : ∀ entry ∈ mutations, entry.1.Built := fun entry hentry =>
      plainDbMutations_built db entry.1 (hmutations ▸ List.mem_map_of_mem hentry)
    obtain ⟨loaded, hload, hrestores⟩ := loadRedbState_lastWrite hlawful hbuilt hlists
    rw [hmutations, ← applyMutations_eq_lastWrite] at hrestores
    exact ⟨loaded, hload, hrestores.unique db.numbered_restores ▸ hdecimal.numbered_decimal⟩
  · have hflatten : batches.foldl crypto.applyMutations (fun _ => none) =
        crypto.applyMutations (fun _ => none) batches.flatten := List.foldl_flatten.symm
    rw [hflatten] at hlists
    refine ⟨?_, fun hbuilt => loadRedbState_lastWrite hlawful hbuilt hlists⟩
    have hseals := seals_empty.applyMutations hlawful hinRange
    rw [applyMutations_eq_lastWrite] at hseals
    exact hseals.loadRedbState hlists

section PaddedStore

local instance encodableByte : Encodable UInt8 :=
  .ofLeftInverse UInt8.toNat UInt8.ofNat fun byte => by simp

local instance encodableChar : Encodable Char :=
  .ofLeftInverse Char.toNat Char.ofNat fun char => by simp

local instance encodableString : Encodable String :=
  .ofLeftInverse String.toList String.ofList fun text => by simp

local instance encodableBytes {n : ℕ} : Encodable (Vector UInt8 n) :=
  .ofLeftInjection Vector.toList
    (fun bytes => if h : bytes.length = n then some ⟨bytes.toArray, by simpa using h⟩ else none)
    fun bytes => by simp [Vector.toList]

local instance encodableValue : Encodable Value32 := .ofEquiv _ (proxy_equiv% Value32).symm

local instance encodableWires : Encodable SerializableWires :=
  .ofEquiv _ (proxy_equiv% SerializableWires).symm

local instance encodableWireRecord : Encodable WireRecord :=
  .ofEquiv _ (proxy_equiv% WireRecord).symm

local instance encodableScalars : Encodable ChannelScalars :=
  .ofLeftInverse (fun scalars => (scalars.enabled, scalars.lastObservedNextRevealIndex,
      scalars.precomputeTarget, scalars.sspTarget, scalars.deltaLifetimeCheckedUnitsCap,
      scalars.estimatedCheckedUnits, scalars.attemptedCheckedUnits, scalars.failedPrecomputeJobs))
    (fun (enabled, observed, target, ssp, cap, estimated, attempted, failed) =>
      ⟨enabled, observed, target, ssp, cap, estimated, attempted, failed⟩)
    fun _ => rfl

local instance encodableType : Encodable RecordType := .ofEquiv _ (proxy_equiv% RecordType).symm

local instance encodablePayload : Encodable StoredPayload :=
  .ofEquiv _ (proxy_equiv% StoredPayload).symm

local instance encodableRecord : Encodable StoredRecord :=
  .ofEquiv _ (proxy_equiv% StoredRecord).symm

/-- A store which pads keys, encrypts nothing and writes a record as its code in unary. -/
def paddedCrypto : StoreCrypto where
  hmac := Value32.ofList
  encryptAead _ _ plaintext := (plaintext, Vector.replicate dbTagLen 0)
  decryptAead _ _ ciphertext _ := .ok ciphertext
  toVec record := List.replicate (Encodable.encode record) 0
  fromSlice text := match Encodable.decode text.length with
    | some record => .ok record
    | none => .error (.parse "not a record")

/-- The padding store is lawful. -/
theorem paddedCrypto_lawful : paddedCrypto.Lawful where
  collisionFree a b ha hb h := by
    apply List.ext_getElem?
    intro k
    have hbytes : ∀ (bytes : List UInt8) (i : ℕ) (hi : i < 32),
        (Value32.ofList bytes).bytes[i] = bytes.getD i 0 :=
          fun bytes i hi => by simp [Value32.ofList]
    by_cases hk : k < 17
    · have hlt : k < 32 := by omega
      have heq : a.getD k 0 = b.getD k 0 := by
        rw [← hbytes a k hlt, ← hbytes b k hlt]
        exact congrArg (fun value : Value32 => value.bytes[k]) h
      have hka : k < a.length := by omega
      have hkb : k < b.length := by omega
      simpa [hka, hkb] using heq
    · rw [List.getElem?_eq_none (by omega), List.getElem?_eq_none (by omega)]
  decrypt_encrypt _ _ _ _ := rfl
  fromSlice_toVec record := by simp [paddedCrypto]

end PaddedStore

/-- Contents with one channel, which holds one secret. -/
def oneSecretDb : LegacyDb :=
  ⟨(∅ : ExtTreeMap String LegacyChannel).insert "7"
    ⟨emptyChannelRecord.scalars, ∅,
      (∅ : ExtTreeMap String Value32).insert "3" (Value32.ofList [1])⟩⟩

/-- The mutations which write it, with nonces. -/
def oneSecretMutations : List (Mutation × Vector UInt8 dbNonceLen) :=
  [(.upsert (.channel 7) ⟨.channel, 7, 0, .channel emptyChannelRecord.scalars⟩,
    Vector.replicate _ 0), (upsertSecretMutation 7 3 (Value32.ofList [1]), Vector.replicate _ 1)]

/-- The entries they leave in an empty table, the secret listed first. -/
def oneSecretEntries : List (List UInt8 × List UInt8) :=
  (oneSecretMutations.filterMap fun entry => entry.1.write.value.map fun record =>
    (paddedCrypto.storedKey entry.1.key,
      paddedCrypto.encryptStoredRecord entry.2 (paddedCrypto.storedKey entry.1.key) record)).reverse

/-- Both keys of the contents are canonical decimals. -/
theorem oneSecretDb_decimalKeys : oneSecretDb.DecimalKeys := by
  refine ⟨?_, ?_⟩
  · intro key hkey
    rw [oneSecretDb, ExtTreeMap.mem_insert] at hkey
    simp at hkey
    exact ⟨7, by decide, hkey.symm⟩
  · intro key channel hchannel
    rw [oneSecretDb, ExtTreeMap.getElem?_insert] at hchannel
    simp at hchannel
    obtain ⟨rfl, rfl⟩ := hchannel
    refine ⟨?_, ?_⟩
    · intro key hkey
      rw [ExtTreeMap.mem_insert] at hkey
      simp at hkey
      exact ⟨3, by decide, hkey.symm⟩
    · intro key hkey
      simp at hkey

/-- The entries list what the mutations leave. -/
theorem listsEntries_oneSecret : ListsEntries oneSecretEntries
    (paddedCrypto.applyMutations (fun _ => none) oneSecretMutations) := by
  have hne : paddedCrypto.storedKey (.secret 7 3) ≠ paddedCrypto.storedKey (.channel 7) := by
    intro heq
    have hkey := paddedCrypto_lawful.storedKey_inj ⟨by decide, by decide⟩ ⟨by decide, by decide⟩ heq
    exact absurd hkey (by decide)
  intro key value
  rw [StoreCrypto.applyMutations, oneSecretMutations, List.foldl_cons, List.foldl_cons,
    List.foldl_nil, StoreCrypto.applyMutation_eq, StoreCrypto.applyMutation_eq]
  change (key, value) ∈ [(paddedCrypto.storedKey (.secret 7 3), _),
    (paddedCrypto.storedKey (.channel 7), _)] ↔ Function.update (Function.update _
      (paddedCrypto.storedKey (.channel 7)) _) (paddedCrypto.storedKey (.secret 7 3)) _ key = _
  simp only [List.mem_cons, Prod.mk.injEq, List.not_mem_nil, or_false]
  by_cases hsecret : key = paddedCrypto.storedKey (.secret 7 3)
  · subst hsecret
    rw [Function.update_self]
    simp [hne, Mutation.write, upsertSecretMutation, eq_comm]
  · rw [Function.update_of_ne hsecret]
    by_cases hchannel : key = paddedCrypto.storedKey (.channel 7)
    · subst hchannel
      simp [hsecret, Mutation.write, eq_comm]
    · simp [hsecret, hchannel]

/-- The secret is loaded before the channel it belongs to, and the contents come back. -/
theorem records_roundTrip_oneSecret : ∃ loaded,
    paddedCrypto.loadRedbState oneSecretEntries = .ok loaded ∧ loaded.decimal = oneSecretDb :=
  (records_roundTrip paddedCrypto_lawful).1 oneSecretDb oneSecretMutations oneSecretEntries
    oneSecretDb_decimalKeys (by decide +kernel) listsEntries_oneSecret

end Shachain2pc
