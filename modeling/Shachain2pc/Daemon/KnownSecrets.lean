import Shachain2pc.Daemon.Table
import Shachain2pc.Types.Derivability

/-!
# Storing and deriving known secrets

`store_known_secret` scans the stored secrets: it stops as soon as one of them yields the
new secret, and otherwise drops every stored secret the new one yields. `derive_known`
returns the first derivation a stored secret yields.
-/

namespace Shachain2pc

open Std

/-- The scan of `store_known_secret`, with its early `break`: whether a stored secret yields the
new one, and the keys to drop. -/
def scanKnown (sha256 : Value32 → Value32) (index : ℕ) (secret : Value32) (dropKeys : List ℕ) :
    List (ℕ × Value32) → Bool × List ℕ
  | [] => (false, dropKeys)
  | (storedIndex, storedSecret) :: rest =>
    if deriveFromKnown sha256 storedIndex storedSecret index = some secret then (true, dropKeys)
    else if deriveFromKnown sha256 index secret storedIndex = some storedSecret then
      scanKnown sha256 index secret (dropKeys ++ [storedIndex]) rest
    else scanKnown sha256 index secret dropKeys rest

/-- The secrets left by `store_known_secret`, and the mutations which record the change. -/
def insertKnown (sha256 : Value32 → Value32) (channelIndex index : ℕ) (secret : Value32)
    (known : DecimalMap Value32) : DecimalMap Value32 × List Mutation :=
  let (redundant, dropKeys) := scanKnown sha256 index secret [] known.toList
  if redundant then (known, [])
  else ((dropKeys.foldl ExtTreeMap.erase known).insert index secret,
    upsertSecretMutation channelIndex index secret ::
      dropKeys.map (deleteSecretMutation channelIndex))

/-- `store_known_secret`, up to the release of the lock. -/
def storeKnownSecret (sha256 : Value32 → Value32) (db : PlainDb) (channelIndex : ℕ)
    (index : Index48) (expectedNextIndex : ℕ) (secret : Value32) :
    Except DaemonError (PlainDb × List Mutation) :=
  match db.channels[channelIndex]? with
  | none => .error (.notFound "channel is not enabled")
  | some channel =>
    let (knownSecrets, secretMutations) :=
      insertKnown sha256 channelIndex index.get secret channel.knownSecrets
    let channel' := { channel with
      knownSecrets := knownSecrets
      frontierNodes := channel.frontierNodes.erase index.get
      lastObservedNextRevealIndex := some (expectedNextIndex - 1) }
    .ok (db.setChannel channelIndex channel', secretMutations ++
      [deleteFrontierMutation channelIndex index.get, upsertChannelMutation channelIndex channel'])

/-- `derive_known`. -/
def deriveKnown (sha256 : Value32 → Value32) (db : PlainDb) (channelIndex : ℕ)
    (requested : Index48) : Option Value32 :=
  match db.channels[channelIndex]? with
  | none => none
  | some channel => channel.knownSecrets.toList.findSome? fun entry =>
    deriveFromKnown sha256 entry.1 entry.2 requested.get

variable {sha256 : Value32 → Value32}

/-- The scan reports a stored secret which yields the new one, wherever it is listed. -/
theorem scanKnown_fst (index : ℕ) (secret : Value32) (dropKeys : List ℕ)
    (entries : List (ℕ × Value32)) :
    (scanKnown sha256 index secret dropKeys entries).1 = true ↔
      ∃ entry ∈ entries, deriveFromKnown sha256 entry.1 entry.2 index = some secret := by
  induction entries generalizing dropKeys with
  | nil => simp [scanKnown]
  | cons entry rest ih =>
    obtain ⟨storedIndex, storedSecret⟩ := entry
    rw [scanKnown, List.exists_mem_cons_iff]
    split
    · next hyields => simp [hyields]
    · next hyields =>
      rw [or_iff_right hyields]
      split
      · exact ih _
      · exact ih _

/-- A scan which runs to its end collects every stored secret the new one yields. -/
theorem mem_scanKnown_snd {index : ℕ} {secret : Value32} {dropKeys : List ℕ}
    {entries : List (ℕ × Value32)}
    (hend : (scanKnown sha256 index secret dropKeys entries).1 = false) (key : ℕ) :
    key ∈ (scanKnown sha256 index secret dropKeys entries).2 ↔ key ∈ dropKeys ∨
      ∃ v, (key, v) ∈ entries ∧ deriveFromKnown sha256 index secret key = some v := by
  induction entries generalizing dropKeys with
  | nil => simp [scanKnown]
  | cons entry rest ih =>
    obtain ⟨storedIndex, storedSecret⟩ := entry
    rw [scanKnown] at hend ⊢
    split at hend
    · simp at hend
    · next hyields =>
      rw [if_neg hyields]
      split at hend
      · next hdrop =>
        rw [if_pos hdrop, ih hend, List.mem_append, List.mem_singleton]
        constructor
        · rintro ((hkey | rfl) | ⟨v, hv, hkey⟩)
          · exact .inl hkey
          · exact .inr ⟨storedSecret, List.mem_cons_self, hdrop⟩
          · exact .inr ⟨v, List.mem_cons_of_mem _ hv, hkey⟩
        · rintro (hkey | ⟨v, hv, hkey⟩)
          · exact .inl (.inl hkey)
          · rcases List.mem_cons.mp hv with heq | hv
            · cases heq
              exact .inl (.inr rfl)
            · exact .inr ⟨v, hv, hkey⟩
      · next hdrop =>
        rw [if_neg hdrop, ih hend]
        refine or_congr_right ⟨fun ⟨v, hv, hkey⟩ => ⟨v, List.mem_cons_of_mem _ hv, hkey⟩, ?_⟩
        rintro ⟨v, hv, hkey⟩
        rcases List.mem_cons.mp hv with heq | hv
        · cases heq
          exact absurd hkey hdrop
        · exact ⟨v, hv, hkey⟩

/-- Some stored secret yields the new one. -/
def Redundant (sha256 : Value32 → Value32) (known : DecimalMap Value32) (index : ℕ)
    (secret : Value32) : Prop :=
  ∃ i v, known[i]? = some v ∧ deriveFromKnown sha256 i v index = some secret

/-- A redundant secret changes nothing. -/
theorem insertKnown_redundant {known : DecimalMap Value32} {index : ℕ} {secret : Value32}
    (h : Redundant sha256 known index secret) (channelIndex : ℕ) :
    insertKnown sha256 channelIndex index secret known = (known, []) := by
  obtain ⟨i, v, hi, hyields⟩ := h
  have hfst := (scanKnown_fst index secret [] known.toList).mpr ⟨(i, v), mem_toList.mpr hi, hyields⟩
  rw [insertKnown]
  simp [hfst]

/-- A secret no stored one yields is inserted, and replaces what it yields. -/
theorem insertKnown_getElem? {known : DecimalMap Value32} {index : ℕ} {secret : Value32}
    (h : ¬ Redundant sha256 known index secret) (channelIndex key : ℕ) :
    (insertKnown sha256 channelIndex index secret known).1[key]? =
      if key = index then some secret
      else known[key]?.filter fun v => deriveFromKnown sha256 index secret key ≠ some v := by
  have hend : (scanKnown sha256 index secret [] known.toList).1 = false := by
    rw [← Bool.not_eq_true, scanKnown_fst]
    rintro ⟨⟨i, v⟩, hmem, hyields⟩
    exact h ⟨i, v, mem_toList.mp hmem, hyields⟩
  have hdrop := mem_scanKnown_snd hend key
  simp only [List.not_mem_nil, false_or, mem_toList] at hdrop
  rw [insertKnown]
  simp only [hend, Bool.false_eq_true, if_false]
  by_cases hkey : key = index
  · simp [hkey]
  · rw [if_neg hkey, ExtTreeMap.getElem?_insert, if_neg (by simpa using Ne.symm hkey),
      getElem?_foldl_erase]
    cases hv : known[key]? with
    | none => simp
    | some v =>
      by_cases hyields : deriveFromKnown sha256 index secret key = some v
      · rw [if_pos (hdrop.mpr ⟨v, hv, hyields⟩)]
        simp [Option.filter, hyields]
      · rw [if_neg]
        · simp [Option.filter, hyields]
        · rintro hmem
          obtain ⟨v', hv', hyields'⟩ := hdrop.mp hmem
          rw [hv, Option.some.injEq] at hv'
          exact hyields (hv' ▸ hyields')

/-- A scan which runs to its end never drops the new index itself. -/
theorem not_mem_scanKnown_self {known : DecimalMap Value32} {index : ℕ} (hindex : index ≤ maxIndex)
    {secret : Value32} (hend : (scanKnown sha256 index secret [] known.toList).1 = false) :
    index ∉ (scanKnown sha256 index secret [] known.toList).2 := by
  intro hmem
  obtain h | ⟨v, hv, hyields⟩ := (mem_scanKnown_snd hend index).mp hmem
  · cases h
  · rw [deriveFromKnown_self sha256 hindex, Option.some.injEq] at hyields
    subst hyields
    have hfst := (scanKnown_fst index secret [] known.toList).mpr
      ⟨(index, secret), hv, deriveFromKnown_self sha256 hindex secret⟩
    rw [hend] at hfst
    cases hfst

/-- The secret mutations record exactly the change of the stored secrets. -/
theorem applyMutations_insertKnown (table : Table) (channelIndex : ℕ) {index : ℕ}
    (hindex : index ≤ maxIndex) (secret : Value32) (known : DecimalMap Value32)
    (htable : ∀ i, table (.secret channelIndex i) = known[i]?.map fun v =>
      ⟨.secret, channelIndex, i, .secret v⟩) (key : ℕ) :
    applyMutations table (insertKnown sha256 channelIndex index secret known).2
        (.secret channelIndex key) =
      (insertKnown sha256 channelIndex index secret known).1[key]?.map fun v =>
        ⟨.secret, channelIndex, key, .secret v⟩ := by
  rw [insertKnown]
  cases hend : (scanKnown sha256 index secret [] known.toList).1 with
  | true => simp [hend, htable]
  | false =>
    have hself := not_mem_scanKnown_self hindex hend
    simp only [hend, Bool.false_eq_true, if_false]
    rw [upsertSecretMutation, applyMutations_upsert]
    have hdelete := applyMutations_map_delete
      (Function.update table (.secret channelIndex index)
        (some ⟨.secret, channelIndex, index, .secret secret⟩))
      (scanKnown sha256 index secret [] known.toList).2 (LogicalKey.secret channelIndex)
      (.secret channelIndex key)
    have hmem : LogicalKey.secret channelIndex key ∈
        (scanKnown sha256 index secret [] known.toList).2.map (LogicalKey.secret channelIndex) ↔
        key ∈ (scanKnown sha256 index secret [] known.toList).2 := by
      simp [LogicalKey.secret]
    rw [ExtTreeMap.getElem?_insert, getElem?_foldl_erase]
    refine hdelete.trans ?_
    simp only [hmem, Function.update_apply, htable]
    by_cases hkey : index = key
    · subst hkey
      simp [hself]
    · have hkey' : LogicalKey.secret channelIndex key ≠ .secret channelIndex index := by
        simp [LogicalKey.secret, Ne.symm hkey]
      simp only [hkey', if_false]
      split <;> simp [hkey]

/-- The secret mutations write only secrets of the channel. -/
theorem mem_insertKnown_snd {channelIndex index : ℕ} {secret : Value32}
    {known : DecimalMap Value32} {m : Mutation}
    (hm : m ∈ (insertKnown sha256 channelIndex index secret known).2) :
    ∃ i, m.key = .secret channelIndex i := by
  rw [insertKnown] at hm
  cases hend : (scanKnown sha256 index secret [] known.toList).1 with
  | true => simp [hend] at hm
  | false =>
    simp only [hend, Bool.false_eq_true, if_false, List.mem_cons, List.mem_map] at hm
    rcases hm with rfl | ⟨i, -, rfl⟩
    · exact ⟨index, rfl⟩
    · exact ⟨i, rfl⟩

/-- Storing a secret emits mutations which bring a mirrored table up to date. -/
theorem storeKnownSecret_mirrors {db db' : PlainDb} {channelIndex expectedNextIndex : ℕ}
    {index : Index48} {secret : Value32} {mutations : List Mutation}
    (h : storeKnownSecret sha256 db channelIndex index expectedNextIndex secret =
      .ok (db', mutations)) : applyMutations db.record mutations = db'.record := by
  unfold storeKnownSecret at h
  cases hc : db.channels[channelIndex]? with
  | none => simp [hc] at h
  | some channel =>
    simp only [hc] at h
    cases h
    rw [← List.singleton_append, ← List.append_assoc]
    apply applyMutations_entries_channel
    · intro m hm
      rcases List.mem_append.mp hm with hm | hm
      · obtain ⟨i, hi⟩ := mem_insertKnown_snd hm
        rw [Mutation.WritesEntry, hi]
        exact ⟨rfl, .inl rfl⟩
      · obtain rfl := List.mem_singleton.mp hm
        exact ⟨rfl, .inr rfl⟩
    · intro i
      have hdelete : LogicalKey.secret channelIndex i ≠ .frontier channelIndex index.get := by
        simp [LogicalKey.secret, LogicalKey.frontier]
      rw [applyMutations_append, deleteFrontierMutation, applyMutations_delete, applyMutations_nil,
        Function.update_of_ne hdelete]
      exact applyMutations_insertKnown _ _ index.le_max _ _
        (by simp [hc, channelTable, ChannelRecord.record, LogicalKey.secret]) i
    · intro m
      rw [applyMutations_append, deleteFrontierMutation, applyMutations_delete, applyMutations_nil,
        Function.update_apply, applyMutations_of_forall_ne]
      · by_cases hm : m = index.get
        · simp [hm, ChannelRecord.record]
        · simp [LogicalKey.frontier, hm, Ne.symm hm, hc, channelTable, ChannelRecord.record,
            ExtTreeMap.getElem?_erase]
      · intro m' hm' heq
        obtain ⟨i, hi⟩ := mem_insertKnown_snd hm'
        rw [hi] at heq
        cases heq

/-! ## What the stored secrets yield -/

/-- `derive_from_known` succeeds exactly where its mask tests hold. -/
theorem deriveFromKnown_isSome {i j : ℕ} {secret : Value32} :
    (deriveFromKnown sha256 i secret j).isSome = true ↔ deriveTests i j := by
  unfold deriveFromKnown deriveTests
  dsimp only
  split_ifs with hsub hlow
  · simp [hsub]
  · simpa using fun _ => hlow
  · simpa [not_not.mp hsub] using hlow

/-- Storing a secret adds what it yields, and nothing known gets lost. -/
theorem insertKnown_yields {known : DecimalMap Value32} {channelIndex index j : ℕ}
    (hj : j ≤ maxIndex) {secret : Value32} :
    (∃ i ∈ (insertKnown sha256 channelIndex index secret known).1, deriveTests i j) ↔
      (∃ i ∈ known, deriveTests i j) ∨ deriveTests index j := by
  by_cases h : Redundant sha256 known index secret
  · rw [insertKnown_redundant h]
    obtain ⟨i, v, hi, hyields⟩ := h
    refine ⟨.inl, fun hor => hor.elim id fun htests => ⟨i, ?_, ?_⟩⟩
    · exact ExtTreeMap.mem_iff_isSome_getElem?.mpr (hi ▸ rfl)
    · exact (deriveFromKnown_isSome.mp (Option.isSome_iff_exists.mpr ⟨_, hyields⟩)).trans hj htests
  · have hmem (i : ℕ) : i ∈ (insertKnown sha256 channelIndex index secret known).1 ↔
        i = index ∨ ∃ v, known[i]? = some v ∧ deriveFromKnown sha256 index secret i ≠ some v := by
      rw [ExtTreeMap.mem_iff_isSome_getElem?, insertKnown_getElem? h]
      by_cases heq : i = index
      · simp [heq]
      · rw [if_neg heq, or_iff_right heq, Option.isSome_iff_exists]
        simp [Option.filter_eq_some_iff]
    constructor
    · rintro ⟨i, hi, htests⟩
      rcases (hmem i).mp hi with rfl | ⟨v, hv, -⟩
      · exact .inr htests
      · exact .inl ⟨i, ExtTreeMap.mem_iff_isSome_getElem?.mpr (hv ▸ rfl), htests⟩
    · rintro (⟨i, hi, htests⟩ | htests)
      · obtain ⟨v, hv⟩ := Option.isSome_iff_exists.mp (ExtTreeMap.mem_iff_isSome_getElem?.mp hi)
        by_cases hdrop : deriveFromKnown sha256 index secret i = some v
        -- What a dropped secret yields, the new one yields.
        · exact ⟨index, (hmem index).mpr (.inl rfl),
            (deriveFromKnown_isSome.mp (Option.isSome_iff_exists.mpr ⟨v, hdrop⟩)).trans hj htests⟩
        · exact ⟨i, (hmem i).mpr (.inr ⟨v, hv, hdrop⟩), htests⟩
      · exact ⟨index, (hmem index).mpr (.inl rfl), htests⟩

end Shachain2pc
