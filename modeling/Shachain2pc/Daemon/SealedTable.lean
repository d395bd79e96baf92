import Shachain2pc.Daemon.Restore
import Shachain2pc.Types.Bytes
import Shachain2pc.Lib.Rust

/-!
# The sealed table

The database stores each record encrypted, under a keyed hash of its logical key. The hash, the
cipher and the JSON text of a record come from other crates and are parameters, with the keys
derived from the master secret fixed; a nonce is drawn for every write. Where the hash is free
of collisions on the canonical bytes of keys and what is encrypted and written as JSON can be
read back, a sealed table stands for a table of records.

The order of the stored keys is the order of the hashes, so loading is stated for every order.
-/

namespace Shachain2pc

open Function (update)

/-- The byte of a record type. -/
def RecordType.code : RecordType → UInt8
  | .metadata => 0
  | .channel => 1
  | .secret => 2
  | .frontier => 3

/-- `LogicalKey::canonical_bytes`; `to_be_bytes` has the highest byte first. -/
def LogicalKey.canonicalBytes (key : LogicalKey) : List UInt8 :=
  key.recordType.code :: ((leBytes 8 key.channelIndex).reverse ++ (leBytes 8 key.subId).reverse)

/-- `DB_NONCE_LEN`. -/
def dbNonceLen : ℕ := 12

/-- `DB_TAG_LEN`. -/
def dbTagLen : ℕ := 16

/-- The hash, the cipher and the JSON text of records. -/
structure StoreCrypto where
  hmac : List UInt8 → Value32
  encryptAead (nonce aad plaintext : List UInt8) : List UInt8 × Vector UInt8 dbTagLen
  decryptAead (nonce aad ciphertext tag : List UInt8) : Except String (List UInt8)
  toVec : StoredRecord → List UInt8
  fromSlice : List UInt8 → Except DaemonError StoredRecord

/-- The hash has no collisions on the bytes of keys, and decryption and parsing are inverse to
encryption and writing. -/
structure StoreCrypto.Lawful (crypto : StoreCrypto) : Prop where
  collisionFree : ∀ a b, a.length = 17 → b.length = 17 → crypto.hmac a = crypto.hmac b → a = b
  decrypt_encrypt : ∀ nonce aad plaintext, nonce.length = dbNonceLen →
    crypto.decryptAead nonce aad (crypto.encryptAead nonce aad plaintext).1
      (crypto.encryptAead nonce aad plaintext).2.toList = .ok plaintext
  fromSlice_toVec : ∀ record, crypto.fromSlice (crypto.toVec record) = .ok record

/-- What a table stores under each stored key. -/
abbrev SealedTable := List UInt8 → Option (List UInt8)

namespace StoreCrypto

/-- `stored_key`. -/
def storedKey (crypto : StoreCrypto) (key : LogicalKey) : List UInt8 :=
  (crypto.hmac key.canonicalBytes).bytes.toList

/-- `encrypt_stored_record`, with the nonce it draws. -/
def encryptStoredRecord (crypto : StoreCrypto) (nonce : Vector UInt8 dbNonceLen)
    (storedKey : List UInt8) (record : StoredRecord) : List UInt8 :=
  let (ciphertext, tag) := crypto.encryptAead nonce.toList storedKey (crypto.toVec record)
  nonce.toList ++ tag.toList ++ ciphertext

/-- `decrypt_stored_record`. -/
def decryptStoredRecord (crypto : StoreCrypto) (storedKey value : List UInt8) :
    Except DaemonError StoredRecord :=
  if storedKey.length ≠ 32 then .error (.crypto "encrypted DB stored key has a bad length")
  else if value.length < dbNonceLen + dbTagLen then
    .error (.crypto "encrypted DB value is truncated")
  else do
    let nonce := value.take dbNonceLen
    let tag := (value.drop dbNonceLen).take dbTagLen
    let ciphertext := value.drop (dbNonceLen + dbTagLen)
    let plaintext ← (crypto.decryptAead nonce storedKey ciphertext tag).mapError DaemonError.crypto
    crypto.fromSlice plaintext

/-- One mutation of `apply_mutations`, with the nonce drawn for it. -/
def applyMutation (crypto : StoreCrypto) (table : SealedTable)
    (entry : Mutation × Vector UInt8 dbNonceLen) : SealedTable :=
  match entry.1 with
  | .upsert key record =>
    update table (crypto.storedKey key)
      (some (crypto.encryptStoredRecord entry.2 (crypto.storedKey key) record))
  | .delete key => update table (crypto.storedKey key) none

/-- `apply_mutations`. -/
def applyMutations (crypto : StoreCrypto) (table : SealedTable)
    (mutations : List (Mutation × Vector UInt8 dbNonceLen)) : SealedTable :=
  mutations.foldl crypto.applyMutation table

/-- `load_redb_state`, over the stored keys and values in the order they are listed. -/
def loadRedbState (crypto : StoreCrypto) (entries : List (List UInt8 × List UInt8)) :
    Except DaemonError PlainDb :=
  entries.foldlM (fun db entry => do
    let record ← crypto.decryptStoredRecord entry.1 entry.2
    applyStoredRecord db record) .default

end StoreCrypto

/-- The list names exactly the stored entries. -/
def ListsEntries (entries : List (List UInt8 × List UInt8)) (table : SealedTable) : Prop :=
  ∀ key value, (key, value) ∈ entries ↔ table key = some value

/-- The numbers of a key fit into a `u64`. -/
def LogicalKey.InRange (key : LogicalKey) : Prop := key.channelIndex < 2 ^ 64 ∧ key.subId < 2 ^ 64

variable {crypto : StoreCrypto} {sealed : SealedTable} {table : Table}

/-- Keys have seventeen bytes. -/
@[simp] theorem LogicalKey.canonicalBytes_length (key : LogicalKey) :
    key.canonicalBytes.length = 17 := by
  simp [canonicalBytes]

/-- Keys are determined by their bytes. -/
theorem LogicalKey.canonicalBytes_inj {key key' : LogicalKey} (hkey : key.InRange)
    (hkey' : key'.InRange) (h : key.canonicalBytes = key'.canonicalBytes) : key = key' := by
  obtain ⟨type, c, sub⟩ := key
  obtain ⟨type', c', sub'⟩ := key'
  obtain ⟨hc, hsub⟩ := hkey
  obtain ⟨hc', hsub'⟩ := hkey'
  simp only [canonicalBytes, List.cons.injEq] at h
  obtain ⟨htype, h⟩ := h
  obtain ⟨hchannel, hid⟩ := List.append_inj h (by simp)
  have htype : type = type' := by
    cases type <;> cases type' <;> first | rfl | exact absurd htype (by decide)
  have hchannel : c = c' := leBytes_inj hc hc' (List.reverse_injective hchannel)
  have hid : sub = sub' := leBytes_inj hsub hsub' (List.reverse_injective hid)
  rw [htype, hchannel, hid]

/-- Stored keys of keys in range do not collide. -/
theorem StoreCrypto.Lawful.storedKey_inj (h : crypto.Lawful) {key key' : LogicalKey}
    (hkey : key.InRange) (hkey' : key'.InRange)
    (heq : crypto.storedKey key = crypto.storedKey key') :
    key = key' := by
  refine LogicalKey.canonicalBytes_inj hkey hkey' (h.collisionFree _ _ (by simp) (by simp) ?_)
  have hofList := congrArg Value32.ofList heq
  simpa only [StoreCrypto.storedKey, Value32.ofList_toList] using hofList

/-- What is encrypted for a stored key is decrypted under it. -/
theorem StoreCrypto.Lawful.decrypt_encryptStoredRecord (h : crypto.Lawful) (key : LogicalKey)
    (nonce : Vector UInt8 dbNonceLen) (record : StoredRecord) :
    crypto.decryptStoredRecord (crypto.storedKey key)
      (crypto.encryptStoredRecord nonce (crypto.storedKey key) record) = .ok record := by
  have hkey : (crypto.storedKey key).length = 32 := by simp [storedKey]
  have hdecrypt :=
    h.decrypt_encrypt nonce.toList (crypto.storedKey key) (crypto.toVec record) (by simp)
  rw [encryptStoredRecord]
  generalize crypto.encryptAead nonce.toList (crypto.storedKey key)
    (crypto.toVec record) = result at *
  have hnonce : (nonce.toList ++ result.2.toList ++ result.1).take dbNonceLen = nonce.toList := by
    simp [List.append_assoc]
  have htag : ((nonce.toList ++ result.2.toList ++ result.1).drop dbNonceLen).take dbTagLen =
      result.2.toList := by
    simp [List.append_assoc]
  have hciphertext : (nonce.toList ++ result.2.toList ++ result.1).drop (dbNonceLen + dbTagLen) =
      result.1 := List.drop_left' (by simp)
  rw [decryptStoredRecord, if_neg (not_not.mpr hkey), if_neg (by simp)]
  simp only [hnonce, htag, hciphertext, hdecrypt]
  exact h.fromSlice_toVec record

/-- The sealed table stands for a table of records: an entry for each record, which decrypts to
it. -/
structure Seals (crypto : StoreCrypto) (sealed : SealedTable) (table : Table) : Prop where
  entry : ∀ key : LogicalKey, key.InRange → Option.Rel
    (fun value record => crypto.decryptStoredRecord (crypto.storedKey key) value = .ok record)
    (sealed (crypto.storedKey key)) (table key)
  stored : ∀ bytes value, sealed bytes = some value →
    ∃ key : LogicalKey, key.InRange ∧ bytes = crypto.storedKey key
  inRange : ∀ key record, table key = some record → key.InRange

/-- Empty tables. -/
theorem seals_empty : Seals crypto (fun _ => none) fun _ => none :=
  ⟨fun _ _ => .none, fun _ _ h => absurd h (by simp), fun _ _ h => absurd h (by simp)⟩

/-- A mutation writes the stored key of its key. -/
theorem StoreCrypto.applyMutation_eq (crypto : StoreCrypto) (sealed : SealedTable) (m : Mutation)
    (nonce : Vector UInt8 dbNonceLen) : crypto.applyMutation sealed (m, nonce) =
      update sealed (crypto.storedKey m.key)
        (m.write.value.map (crypto.encryptStoredRecord nonce (crypto.storedKey m.key))) := by
  cases m <;> rfl

/-- One mutation keeps the sealed table in step. -/
theorem Seals.applyMutation (h : Seals crypto sealed table) (hlawful : crypto.Lawful)
    {m : Mutation} (hkey : m.key.InRange) (nonce : Vector UInt8 dbNonceLen) :
    Seals crypto (crypto.applyMutation sealed (m, nonce)) (m.write.apply table) := by
  rw [crypto.applyMutation_eq, Replay.Write.apply, m.write_key]
  refine ⟨fun key hin => ?_, fun bytes value hvalue => ?_, fun key record hrecord => ?_⟩
  · by_cases hne : key = m.key
    · subst hne
      rw [Function.update_self, Function.update_self]
      cases m.write.value with
      | none => exact .none
      | some record => exact .some (hlawful.decrypt_encryptStoredRecord m.key nonce record)
    · have hstored : crypto.storedKey key ≠ crypto.storedKey m.key := fun heq =>
        hne (hlawful.storedKey_inj hin hkey heq)
      rw [Function.update_of_ne hstored, Function.update_of_ne hne]
      exact h.entry key hin
  · by_cases hne : bytes = crypto.storedKey m.key
    · exact ⟨m.key, hkey, hne⟩
    · rw [Function.update_of_ne hne] at hvalue
      exact h.stored bytes value hvalue
  · by_cases hne : key = m.key
    · exact hne ▸ hkey
    · rw [Function.update_of_ne hne] at hrecord
      exact h.inRange key record hrecord

/-- A list of mutations keeps the sealed table in step. -/
theorem Seals.applyMutations (h : Seals crypto sealed table) (hlawful : crypto.Lawful)
    {mutations : List (Mutation × Vector UInt8 dbNonceLen)}
    (hkeys : ∀ entry ∈ mutations, entry.1.key.InRange) :
    Seals crypto (crypto.applyMutations sealed mutations)
      (Shachain2pc.applyMutations table (mutations.map Prod.fst)) := by
  induction mutations generalizing sealed table with
  | nil => exact h
  | cons entry rest ih =>
    exact ih (h.applyMutation hlawful (hkeys entry List.mem_cons_self) entry.2)
      fun other hother => hkeys other (List.mem_cons_of_mem _ hother)

/-- Loading the entries of a sealed table, in any order, loads the records of its table. -/
theorem Seals.loadRedbState (h : Seals crypto sealed table)
    {entries : List (List UInt8 × List UInt8)} (hlists : ListsEntries entries sealed) :
    ∃ records, Lists records table ∧
      crypto.loadRedbState entries = Shachain2pc.loadRedbState records := by
  have hentry {key value : List UInt8} (hmem : (key, value) ∈ entries) : ∃ logical record,
      key = crypto.storedKey logical ∧ table logical = some record ∧
        crypto.decryptStoredRecord key value = .ok record := by
    have hvalue := (hlists key value).mp hmem
    obtain ⟨logical, hin, rfl⟩ := h.stored key value hvalue
    have hrel := h.entry logical hin
    rw [hvalue] at hrel
    cases hrecord : table logical with
    | none =>
      rw [hrecord] at hrel
      cases hrel
    | some record =>
      rw [hrecord] at hrel
      cases hrel with
      | some hdecrypt => exact ⟨logical, record, rfl, hrecord, hdecrypt⟩
  let decrypted (entry : List UInt8 × List UInt8) : StoredRecord :=
    (crypto.decryptStoredRecord entry.1 entry.2).toOption.getD metaRecord
  have hdecrypted {entry : List UInt8 × List UInt8} (hmem : entry ∈ entries) :
      crypto.decryptStoredRecord entry.1 entry.2 = .ok (decrypted entry) := by
    obtain ⟨logical, record, -, -, hdecrypt⟩ := hentry hmem
    simp only [decrypted, hdecrypt, Except.toOption, Option.getD_some]
  refine ⟨entries.map decrypted, fun record => ?_, ?_⟩
  · rw [List.mem_map]
    constructor
    · rintro ⟨entry, hmem, rfl⟩
      obtain ⟨logical, record, -, hrecord, hdecrypt⟩ := hentry hmem
      have heq := (hdecrypted hmem).symm.trans hdecrypt
      exact ⟨logical, (Except.ok.inj heq) ▸ hrecord⟩
    · rintro ⟨logical, hrecord⟩
      have hrel := h.entry logical (h.inRange logical record hrecord)
      rw [hrecord] at hrel
      cases hvalue : sealed (crypto.storedKey logical) with
      | none =>
        rw [hvalue] at hrel
        cases hrel
      | some value =>
        rw [hvalue] at hrel
        have hmem := (hlists (crypto.storedKey logical) value).mpr hvalue
        cases hrel with
        | some hdecrypt =>
          exact ⟨_, hmem, Except.ok.inj ((hdecrypted hmem).symm.trans hdecrypt)⟩
  · rw [StoreCrypto.loadRedbState, Shachain2pc.loadRedbState, List.foldlM_map]
    refine Rust.foldlM_congr fun db entry hmem => ?_
    rw [hdecrypted hmem]
    rfl

end Shachain2pc
