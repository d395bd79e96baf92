import Shachain2pc.Daemon.Table

/-!
# The contents of a legacy database

A legacy file holds the whole memory as one encrypted JSON text, whose maps are keyed by
strings. The migration parses every key as a `u64`, skips those which do not parse, and writes
the rest as records under numbers. Several keys may parse to one number; the last of them in
the order of the strings decides.

Only contents whose parseable keys are canonical decimals come back unchanged.
-/

namespace Shachain2pc

open Std

/-- A channel of a legacy file. -/
structure LegacyChannel where
  scalars : ChannelScalars
  frontierNodes : ExtTreeMap String WireRecord
  knownSecrets : ExtTreeMap String Value32

/-- The decrypted contents of a legacy file. -/
structure LegacyDb where
  channels : ExtTreeMap String LegacyChannel

/-- The upserts of the entries of one map whose keys parse. -/
def entryMutations {V : Type} (upsert : ℕ → V → Mutation) (entries : List (String × V)) :
    List Mutation :=
  entries.filterMap fun entry => (parseU64 entry.1).map fun n => upsert n entry.2

/-- The part of `plain_db_mutations` for one channel. -/
def LegacyChannel.mutations (channelIndex : ℕ) (channel : LegacyChannel) : List Mutation :=
  .upsert (.channel channelIndex) ⟨.channel, channelIndex, 0, .channel channel.scalars⟩ ::
    (entryMutations (upsertSecretMutation channelIndex) channel.knownSecrets.toList ++
      entryMutations (upsertFrontierMutation channelIndex) channel.frontierNodes.toList)

/-- `plain_db_mutations`. -/
def plainDbMutations (db : LegacyDb) : List Mutation :=
  db.channels.toList.flatMap fun entry => match parseU64 entry.1 with
    | none => []
    | some channelIndex => entry.2.mutations channelIndex

/-- Enter the values whose keys parse under their numbers, one by one; each may use the value it
replaces. -/
def enterParsed {V W : Type} (enter : Option V → W → V) (map : DecimalMap V)
    (entries : List (String × W)) : DecimalMap V :=
  entries.foldl (fun map entry => match parseU64 entry.1 with
    | none => map
    | some n => map.insert n (enter map[n]? entry.2)) map

/-- A channel record overwritten by a legacy one. -/
def LegacyChannel.overwrite (channel : LegacyChannel) (old : ChannelRecord) : ChannelRecord :=
  { old.applyScalars channel.scalars with
    knownSecrets := enterParsed (fun _ v => v) old.knownSecrets channel.knownSecrets.toList
    frontierNodes := enterParsed (fun _ w => w) old.frontierNodes channel.frontierNodes.toList }

/-- The channel entered for a legacy one. -/
def enterChannel (old : Option ChannelRecord) (channel : LegacyChannel) : ChannelRecord :=
  channel.overwrite (old.getD emptyChannelRecord)

/-- The contents by number: what every parseable key stands for, later keys overwriting earlier
ones for the same number. -/
def LegacyDb.numbered (db : LegacyDb) : PlainDb := ⟨enterParsed enterChannel ∅ db.channels.toList⟩

/-- The number whose canonical decimal a key is. -/
def canonicalKey (key : String) : Option ℕ := (parseU64 key).filter fun n => toString n = key

/-- Read by its decimal keys, a map holds exactly the entries with parseable keys. -/
def SameEntries {V W : Type} (same : V → W → Prop) (map : DecimalMap V)
    (old : ExtTreeMap String W) :
    Prop :=
  ∀ key, Option.Rel same ((canonicalKey key).bind (map[·]?))
    ((parseU64 key).bind fun _ => old[key]?)

/-- A channel has the scalars and the parseable entries of a legacy one. -/
structure SameChannel (channel : ChannelRecord) (old : LegacyChannel) : Prop where
  scalars : channel.scalars = old.scalars
  secrets : SameEntries Eq channel.knownSecrets old.knownSecrets
  frontier : SameEntries Eq channel.frontierNodes old.frontierNodes

/-- A memory equals legacy contents, restricted to the keys which parse. -/
def SameContents (db : PlainDb) (old : LegacyDb) : Prop :=
  SameEntries SameChannel db.channels old.channels

/-- Every key of the map which parses is a canonical decimal. -/
def CanonicalKeys {V : Type} (map : ExtTreeMap String V) : Prop :=
  ∀ key value, map[key]? = some value → ∀ n ∈ parseU64 key, toString n = key

/-- Every parseable key of the contents is a canonical decimal. -/
def LegacyDb.Canonical (db : LegacyDb) : Prop :=
  CanonicalKeys db.channels ∧ ∀ key channel, db.channels[key]? = some channel →
    (parseU64 key).isSome → CanonicalKeys channel.knownSecrets ∧ CanonicalKeys channel.frontierNodes

variable {V W : Type} {enter : Option V → W → V}

/-- A key which does not parse is skipped. -/
theorem enterParsed_cons_none {map : DecimalMap V} {entry : String × W} {rest : List (String × W)}
    (hparse : parseU64 entry.1 = none) :
    enterParsed enter map (entry :: rest) = enterParsed enter map rest := by
  simp [enterParsed, hparse]

/-- A key which parses enters its value. -/
theorem enterParsed_cons_some {map : DecimalMap V} (entry : String × W) {rest : List (String × W)}
    {n : ℕ} (hparse : parseU64 entry.1 = some n) : enterParsed enter map (entry :: rest) =
      enterParsed enter (map.insert n (enter map[n]? entry.2)) rest := by
  simp [enterParsed, hparse]

/-- A number no key parses to keeps its value. -/
theorem getElem?_enterParsed_of_forall_ne {entries : List (String × W)} {n : ℕ}
    (h : ∀ entry ∈ entries, parseU64 entry.1 ≠ some n) (map : DecimalMap V) :
    (enterParsed enter map entries)[n]? = map[n]? := by
  induction entries generalizing map with
  | nil => rfl
  | cons entry rest ih =>
    have hrest := ih fun later hlater => h later (List.mem_cons_of_mem _ hlater)
    cases hparse : parseU64 entry.1 with
    | none => rw [enterParsed_cons_none hparse, hrest]
    | some m =>
      have hne : m ≠ n := by
        rintro rfl
        exact h entry List.mem_cons_self hparse
      rw [enterParsed_cons_some entry hparse, hrest, ExtTreeMap.getElem?_insert]
      simp [hne]

/-- Among canonical keys, the value of a key is entered once. -/
theorem getElem?_enterParsed_of_mem {entries : List (String × W)}
    (hcanonical : ∀ entry ∈ entries, ∀ n ∈ parseU64 entry.1, toString n = entry.1)
    (hdistinct : entries.Pairwise fun a b => a.1 ≠ b.1) {key : String} {w : W} {n : ℕ}
    (hmem : (key, w) ∈ entries) (hparse : parseU64 key = some n) (map : DecimalMap V) :
    (enterParsed enter map entries)[n]? = some (enter map[n]? w) := by
  induction entries generalizing map with
  | nil => cases hmem
  | cons entry rest ih =>
    obtain ⟨hfirst, hpairs⟩ := List.pairwise_cons.mp hdistinct
    have hkey := hcanonical (key, w) hmem n hparse
    have hlater : ∀ later ∈ rest, ∀ m ∈ parseU64 later.1, toString m = later.1 :=
      fun later h => hcanonical later (List.mem_cons_of_mem _ h)
    rcases List.mem_cons.mp hmem with rfl | hmem
    · have hrest : ∀ later ∈ rest, parseU64 later.1 ≠ some n := by
        intro later h heq
        exact hfirst later h (hkey.symm.trans (hlater later h n heq))
      rw [enterParsed_cons_some (key, w) hparse, getElem?_enterParsed_of_forall_ne hrest,
        ExtTreeMap.getElem?_insert_self]
    · cases hentry : parseU64 entry.1 with
      | none =>
        rw [enterParsed_cons_none hentry]
        exact ih hlater hpairs hmem map
      | some m =>
        have hne : m ≠ n := by
          rintro rfl
          have hsame := hcanonical entry List.mem_cons_self m hentry
          exact hfirst (key, w) hmem (hsame.symm.trans hkey)
        rw [enterParsed_cons_some entry hentry, ih hlater hpairs hmem, ExtTreeMap.getElem?_insert]
        simp [hne]

/-- A parseable key is canonical when it is the decimal of its number. -/
theorem canonicalKey_eq {key : String} {n : ℕ} (hparse : parseU64 key = some n) :
    canonicalKey key = if toString n = key then some n else none := by
  rw [canonicalKey, hparse, Option.filter_some]
  split <;> simp_all

/-- Entering a map with canonical keys gives a map with the same entries. -/
theorem sameEntries_enterParsed {same : V → W → Prop} {old : ExtTreeMap String W}
    (hcanonical : CanonicalKeys old)
    (hsame : ∀ key w, old[key]? = some w → (parseU64 key).isSome → same (enter none w) w) :
    SameEntries same (enterParsed enter ∅ old.toList) old := by
  have hentries : ∀ entry ∈ old.toList, ∀ n ∈ parseU64 entry.1, toString n = entry.1 :=
    fun entry hentry =>
      hcanonical entry.1 entry.2 (ExtTreeMap.mem_toList_iff_getElem?_eq_some.mp hentry)
  have hdistinct : old.toList.Pairwise fun a b => a.1 ≠ b.1 :=
    ExtTreeMap.distinct_keys_toList.imp fun hne heq => hne (LawfulEqCmp.compare_eq_iff_eq.mpr heq)
  intro key
  cases hparse : parseU64 key with
  | none =>
    rw [canonicalKey, hparse]
    exact .none
  | some n =>
    rw [Option.bind_some]
    cases hold : old[key]? with
    | none =>
      have hne : ∀ n', toString n' = key → ∀ entry ∈ old.toList, parseU64 entry.1 ≠ some n' := by
        intro n' hkey entry hentry heq
        have hfound := ExtTreeMap.mem_toList_iff_getElem?_eq_some.mp hentry
        rw [← hentries entry hentry n' heq, hkey, hold] at hfound
        cases hfound
      have hleft : (canonicalKey key).bind ((enterParsed enter ∅ old.toList)[·]?) = none := by
        rw [canonicalKey_eq hparse]
        by_cases hkey : toString n = key
        · rw [if_pos hkey, Option.bind_some, getElem?_enterParsed_of_forall_ne (hne n hkey)]
          exact ExtTreeMap.getElem?_empty
        · rw [if_neg hkey]
          rfl
      rw [hleft]
      exact .none
    | some w =>
      have hkey := hcanonical key w hold n hparse
      have hmem : (key, w) ∈ old.toList := ExtTreeMap.mem_toList_iff_getElem?_eq_some.mpr hold
      have hleft : (canonicalKey key).bind ((enterParsed enter ∅ old.toList)[·]?) =
          some (enter none w) := by
        rw [canonicalKey_eq hparse, if_pos hkey, Option.bind_some,
          getElem?_enterParsed_of_mem hentries hdistinct hmem hparse, ExtTreeMap.getElem?_empty]
      rw [hleft]
      exact .some (hsame key w hold (hparse ▸ rfl))

/-- A map with the same entries has canonical keys. -/
theorem SameEntries.canonicalKeys {same : V → W → Prop} {map : DecimalMap V}
    {old : ExtTreeMap String W} (h : SameEntries same map old) : CanonicalKeys old := by
  intro key w hold n hparse
  have hkey := h key
  rw [Option.mem_def.mp hparse, Option.bind_some, hold] at hkey
  by_contra hne
  rw [canonicalKey_eq hparse, if_neg hne] at hkey
  cases hkey

/-- The entries of related maps are related. -/
theorem SameEntries.rel {same : V → W → Prop} {map : DecimalMap V} {old : ExtTreeMap String W}
    (h : SameEntries same map old) {key : String} {w : W} (hold : old[key]? = some w)
    (hparse : (parseU64 key).isSome) : ∃ v, same v w := by
  obtain ⟨n, hn⟩ := Option.isSome_iff_exists.mp hparse
  have hkey := h key
  rw [hn, Option.bind_some, hold] at hkey
  cases hvalue : (canonicalKey key).bind (map[·]?) with
  | none =>
    rw [hvalue] at hkey
    cases hkey
  | some v =>
    rw [hvalue] at hkey
    cases hkey with
    | some hsame => exact ⟨v, hsame⟩

/-- The contents by number are the parseable contents exactly when every parseable key is a
canonical decimal. -/
theorem sameContents_numbered (db : LegacyDb) : SameContents db.numbered db ↔ db.Canonical := by
  constructor
  · intro h
    refine ⟨h.canonicalKeys, fun key channel hold hparse => ?_⟩
    obtain ⟨record, hsame⟩ := h.rel hold hparse
    exact ⟨hsame.secrets.canonicalKeys, hsame.frontier.canonicalKeys⟩
  · intro h
    refine sameEntries_enterParsed h.1 fun key channel hold hparse => ?_
    obtain ⟨hsecrets, hfrontier⟩ := h.2 key channel hold hparse
    refine ⟨rfl, ?_, ?_⟩
    · exact sameEntries_enterParsed hsecrets fun _ _ _ _ => rfl
    · exact sameEntries_enterParsed hfrontier fun _ _ _ _ => rfl

/-- The upserts of a map's entries write what entering the entries leaves. -/
theorem applyMutations_entryMutations {upsert : ℕ → V → Mutation} {address : ℕ → LogicalKey}
    {record : ℕ → V → StoredRecord} (hupsert : ∀ n v, upsert n v = .upsert (address n) (record n v))
    (hinj : Function.Injective address) (entries : List (String × V)) {table : Table}
    {map : DecimalMap V} (htable : ∀ n : ℕ, table (address n) = map[n]?.map (record n)) (n : ℕ) :
    applyMutations table (entryMutations upsert entries) (address n) =
      (enterParsed (fun _ v => v) map entries)[n]?.map (record n) := by
  induction entries generalizing table map with
  | nil => exact htable n
  | cons entry rest ih =>
    cases hparse : parseU64 entry.1 with
    | none =>
      have hskip : entryMutations upsert (entry :: rest) = entryMutations upsert rest := by
        simp [entryMutations, hparse]
      rw [hskip, enterParsed_cons_none hparse]
      exact ih htable
    | some m =>
      have hone : entryMutations upsert (entry :: rest) =
          .upsert (address m) (record m entry.2) :: entryMutations upsert rest := by
        simp [entryMutations, hparse, hupsert]
      rw [hone, enterParsed_cons_some entry hparse, applyMutations_upsert]
      refine ih fun k => ?_
      by_cases hk : m = k
      · subst hk
        simp
      · have hne : address k ≠ address m := fun heq => hk (hinj heq).symm
        rw [Function.update_of_ne hne, htable, ExtTreeMap.getElem?_insert]
        simp [hk]

/-- The upserts of entries name only the addresses of their kind. -/
theorem mem_entryMutations {upsert : ℕ → V → Mutation} {address : ℕ → LogicalKey}
    {record : ℕ → V → StoredRecord} (hupsert : ∀ n v, upsert n v = .upsert (address n) (record n v))
    {entries : List (String × V)} {m : Mutation} (hm : m ∈ entryMutations upsert entries) :
    ∃ n, m.key = address n := by
  obtain ⟨entry, -, hentry⟩ := List.mem_filterMap.mp hm
  obtain ⟨n, -, rfl⟩ := Option.map_eq_some_iff.mp hentry
  exact ⟨n, by rw [hupsert]; rfl⟩

/-- The mutations of one legacy channel turn the records of a memory into those of the memory with
the channel overwritten. -/
theorem LegacyChannel.mutations_mirrors (db : PlainDb) (c : ℕ) (channel : LegacyChannel) :
    applyMutations db.record (channel.mutations c) =
      (db.setChannel c (channel.overwrite (db.channelOrEmpty c))).record := by
  have hsecretEntry : ∀ m ∈ entryMutations (upsertSecretMutation c) channel.knownSecrets.toList,
      m.key.channelIndex = c ∧ m.key.recordType = .secret := by
    intro m hm
    obtain ⟨n, hn⟩ := mem_entryMutations (fun _ _ => rfl) hm
    exact hn ▸ ⟨rfl, rfl⟩
  have hfrontierEntry : ∀ m ∈ entryMutations (upsertFrontierMutation c)
      channel.frontierNodes.toList, m.key.channelIndex = c ∧ m.key.recordType = .frontier := by
    intro m hm
    obtain ⟨n, hn⟩ := mem_entryMutations (fun _ _ => rfl) hm
    exact hn ▸ ⟨rfl, rfl⟩
  have hentries : ∀ m ∈ entryMutations (upsertSecretMutation c) channel.knownSecrets.toList ++
      entryMutations (upsertFrontierMutation c) channel.frontierNodes.toList, m.WritesEntry c := by
    intro m hm
    rcases List.mem_append.mp hm with hm | hm
    · exact ⟨(hsecretEntry m hm).1, .inl (hsecretEntry m hm).2⟩
    · exact ⟨(hfrontierEntry m hm).1, .inr (hfrontierEntry m hm).2⟩
  refine (applyMutations_upsertChannel_comm db.record (channel.overwrite (db.channelOrEmpty c))
    hentries).trans ?_
  refine applyMutations_entries_channel hentries (fun i => ?_) fun m => ?_
  · have hother : ∀ m ∈ entryMutations (upsertFrontierMutation c) channel.frontierNodes.toList,
        m.key ≠ .secret c i := by
      intro m hm heq
      have htype := (hfrontierEntry m hm).2
      rw [heq] at htype
      cases htype
    rw [applyMutations_append, applyMutations_of_forall_ne _ hother]
    refine applyMutations_entryMutations (fun _ _ => rfl) (fun n k h => congrArg LogicalKey.subId h)
      _ (fun n => ?_) i
    cases hc : db.channels[c]? <;>
      simp [channelTable, ChannelRecord.record, PlainDb.channelOrEmpty, hc, emptyChannelRecord,
        LogicalKey.secret]
  · have hother : ∀ m' ∈ entryMutations (upsertSecretMutation c) channel.knownSecrets.toList,
        m'.key ≠ .frontier c m := by
      intro m' hm heq
      have htype := (hsecretEntry m' hm).2
      rw [heq] at htype
      cases htype
    rw [applyMutations_append]
    refine applyMutations_entryMutations (fun _ _ => rfl) (fun n k h => congrArg LogicalKey.subId h)
      _ (fun n => ?_) m
    have hsecret : ∀ m' ∈ entryMutations (upsertSecretMutation c) channel.knownSecrets.toList,
        m'.key ≠ .frontier c n := by
      intro m' hm heq
      have htype := (hsecretEntry m' hm).2
      rw [heq] at htype
      cases htype
    rw [applyMutations_of_forall_ne _ hsecret]
    cases hc : db.channels[c]? <;>
      simp [channelTable, ChannelRecord.record, PlainDb.channelOrEmpty, hc, emptyChannelRecord,
        LogicalKey.frontier]

/-- The mutations of the contents turn the records of a memory into those of the memory with the
contents entered. -/
theorem flatMap_mutations_mirrors (entries : List (String × LegacyChannel)) (db : PlainDb) :
    applyMutations db.record (entries.flatMap fun entry => match parseU64 entry.1 with
      | none => []
      | some channelIndex => entry.2.mutations channelIndex) =
        (⟨enterParsed enterChannel db.channels entries⟩ : PlainDb).record := by
  induction entries generalizing db with
  | nil => rfl
  | cons entry rest ih =>
    rw [List.flatMap_cons, applyMutations_append]
    cases hparse : parseU64 entry.1 with
    | none =>
      rw [enterParsed_cons_none hparse]
      exact ih db
    | some c =>
      rw [enterParsed_cons_some entry hparse]
      simp only
      rw [entry.2.mutations_mirrors]
      exact ih _

/-- Migrating the contents into a fresh database stores exactly the contents by number. -/
theorem plainDbMutations_mirrors (db : LegacyDb) :
    Mirrors (applyMutations PlainDb.default.record (plainDbMutations db)) db.numbered :=
  flatMap_mutations_mirrors db.channels.toList .default

end Shachain2pc
