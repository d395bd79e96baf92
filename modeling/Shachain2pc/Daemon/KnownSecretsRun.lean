import Shachain2pc.Daemon.KnownSecrets
import Shachain2pc.Lib.MinimalSet
import Mathlib.Data.List.Nodup
import Mathlib.Data.List.Perm.Subperm

/-!
# What a run of stored secrets leaves

With correct secrets, storing one inserts its index among the minimal ones: the stored
indices stay pairwise underivable, and they derive exactly what the inserted ones derive.
Inserting in descending order, as the channel reveals, keeps at most one index for each
number of trailing zeros.
-/

namespace Shachain2pc

open Std MinimalSet

variable {sha256 : Value32 → Value32} {seed : Value32}

/-- Every stored secret is the secret of its index. -/
def CorrectSecrets (sha256 : Value32 → Value32) (seed : Value32) (known : DecimalMap Value32) :
    Prop :=
  ∀ i v, known[i]? = some v → i ≤ maxIndex ∧ v = generateFromSeed sha256 seed i

/-- The stored indices. -/
def knownIndices (known : DecimalMap Value32) : Set ℕ := {i | i ∈ known}

/-- Membership of an index, by its stored secret. -/
theorem mem_knownIndices {known : DecimalMap Value32} {i : ℕ} :
    i ∈ knownIndices known ↔ ∃ v, known[i]? = some v := by
  rw [← Option.isSome_iff_exists, ExtTreeMap.isSome_getElem?_iff_mem]
  rfl

/-- Among correct secrets, one is redundant when a stored index derives its index. -/
theorem redundant_iff {known : DecimalMap Value32} (hknown : CorrectSecrets sha256 seed known)
    {index : ℕ} (hindex : index ≤ maxIndex) :
    Redundant sha256 known index (generateFromSeed sha256 seed index) ↔
      index ∈ upward Derives (knownIndices known) := by
  constructor
  · rintro ⟨i, v, hi, hyields⟩
    obtain ⟨hle, rfl⟩ := hknown i v hi
    refine ⟨i, mem_knownIndices.mpr ⟨_, hi⟩, ?_⟩
    rw [deriveFromKnown_correct sha256 seed hle hindex] at hyields
    by_contra h
    simp [h] at hyields
  · rintro ⟨i, hi, hderives⟩
    obtain ⟨v, hv⟩ := mem_knownIndices.mp hi
    obtain ⟨hle, rfl⟩ := hknown i v hv
    exact ⟨i, _, hv, by rw [deriveFromKnown_correct sha256 seed hle hindex, if_pos hderives]⟩

/-- Inserting a correct secret keeps every stored secret correct. -/
theorem CorrectSecrets.insertKnown {known : DecimalMap Value32}
    (hknown : CorrectSecrets sha256 seed known) {index : ℕ} (hindex : index ≤ maxIndex)
    (channelIndex : ℕ) :
    CorrectSecrets sha256 seed (insertKnown sha256 channelIndex index
      (generateFromSeed sha256 seed index) known).1 := by
  by_cases h : Redundant sha256 known index (generateFromSeed sha256 seed index)
  · rwa [insertKnown_redundant h]
  · intro i v hi
    rw [insertKnown_getElem? h] at hi
    split at hi
    · next heq =>
      cases hi
      rw [heq]
      exact ⟨hindex, rfl⟩
    · exact hknown i v (Option.filter_eq_some_iff.mp hi).1

/-- Inserting a correct secret inserts its index among the minimal ones. -/
theorem knownIndices_insertKnown {known : DecimalMap Value32}
    (hknown : CorrectSecrets sha256 seed known) {index : ℕ} (hindex : index ≤ maxIndex)
    (channelIndex : ℕ) :
    knownIndices
      (insertKnown sha256 channelIndex index (generateFromSeed sha256 seed index) known).1 =
      insertMinimal Derives (knownIndices known) index := by
  unfold insertMinimal
  rw [← redundant_iff hknown hindex]
  split
  · next h => rw [insertKnown_redundant h]
  · next h =>
    ext i
    rw [mem_knownIndices, insertKnown_getElem? h, Set.mem_insert_iff]
    by_cases heq : i = index
    · simp [heq]
    · rw [if_neg heq, or_iff_right heq]
      simp only [Option.filter_eq_some_iff]
      constructor
      · rintro ⟨v, hv, hyields⟩
        obtain ⟨hle, rfl⟩ := hknown i v hv
        refine ⟨mem_knownIndices.mpr ⟨_, hv⟩, fun hderives => ?_⟩
        rw [deriveFromKnown_correct sha256 seed hindex hle, if_pos hderives] at hyields
        simp at hyields
      · rintro ⟨hi, hderives⟩
        obtain ⟨v, hv⟩ := mem_knownIndices.mp hi
        obtain ⟨hle, rfl⟩ := hknown i v hv
        refine ⟨_, hv, ?_⟩
        rw [deriveFromKnown_correct sha256 seed hindex hle, if_neg hderives]
        simp

/-- With correct secrets, a stored one yields the correct secret of every index it derives. -/
theorem deriveFromKnown_entry {known : DecimalMap Value32}
    (hknown : CorrectSecrets sha256 seed known) {i : ℕ} {v : Value32} (hi : (i, v) ∈ known.toList)
    (j : Index48) :
    deriveFromKnown sha256 i v j.get =
      if Derives i j.get then some (generateFromSeed sha256 seed j.get) else none := by
  obtain ⟨hle, rfl⟩ := hknown i v (mem_toList.mp hi)
  exact deriveFromKnown_correct sha256 seed hle j.le_max

/-- With correct secrets, `derive_known` returns the secret of every derivable index. -/
theorem deriveKnown_of_mem {db : PlainDb} {channelIndex : ℕ} {channel : ChannelRecord}
    (hc : db.channels[channelIndex]? = some channel)
    (hknown : CorrectSecrets sha256 seed channel.knownSecrets) {j : Index48}
    (hj : j.get ∈ upward Derives (knownIndices channel.knownSecrets)) :
    deriveKnown sha256 db channelIndex j = some (generateFromSeed sha256 seed j.get) := by
  obtain ⟨i, hi, hderives⟩ := hj
  obtain ⟨v, hv⟩ := mem_knownIndices.mp hi
  have hmem := mem_toList.mpr hv
  rw [deriveKnown, hc]
  simp only
  cases hfind : channel.knownSecrets.toList.findSome? fun entry =>
      deriveFromKnown sha256 entry.1 entry.2 j.get with
  | none =>
    have hnone := List.findSome?_eq_none_iff.mp hfind _ hmem
    simp [deriveFromKnown_entry hknown hmem, hderives] at hnone
  | some out =>
    obtain ⟨⟨i', v'⟩, hmem', hout⟩ := List.exists_of_findSome?_eq_some hfind
    simp only [deriveFromKnown_entry hknown hmem', Option.ite_none_right_eq_some] at hout
    rw [← hout.2]

/-- With correct secrets, `derive_known` returns nothing for an underivable index. -/
theorem deriveKnown_of_not_mem {db : PlainDb} {channelIndex : ℕ} {channel : ChannelRecord}
    (hc : db.channels[channelIndex]? = some channel)
    (hknown : CorrectSecrets sha256 seed channel.knownSecrets) {j : Index48}
    (hj : j.get ∉ upward Derives (knownIndices channel.knownSecrets)) :
    deriveKnown sha256 db channelIndex j = none := by
  rw [deriveKnown, hc]
  simp only
  rw [List.findSome?_eq_none_iff]
  rintro ⟨i, v⟩ hmem
  simp only
  rw [deriveFromKnown_entry hknown hmem, if_neg]
  exact fun hderives => hj ⟨i, mem_knownIndices.mpr ⟨v, mem_toList.mp hmem⟩, hderives⟩

/-- Store the correct secrets of a list of indices one after another, collecting the mutations. -/
def storeKnownSecrets (sha256 : Value32 → Value32) (seed : Value32) (channelIndex : ℕ) :
    PlainDb → List (Index48 × ℕ) → Except DaemonError (PlainDb × List Mutation)
  | db, [] => .ok (db, [])
  | db, (index, expectedNextIndex) :: rest => do
    let (db, mutations) ← storeKnownSecret sha256 db channelIndex index expectedNextIndex
      (generateFromSeed sha256 seed index.get)
    let (db, later) ← storeKnownSecrets sha256 seed channelIndex db rest
    .ok (db, mutations ++ later)

/-- One call stores the secrets of `insertKnown` on an enabled channel, and mirrors the change. -/
theorem storeKnownSecret_ok {db : PlainDb} {channelIndex : ℕ} {channel : ChannelRecord}
    (hc : db.channels[channelIndex]? = some channel) (index : Index48) (expectedNextIndex : ℕ)
    (secret : Value32) :
    ∃ db' mutations channel',
      storeKnownSecret sha256 db channelIndex index expectedNextIndex secret =
        .ok (db', mutations) ∧
        db'.channels[channelIndex]? = some channel' ∧
        channel'.knownSecrets =
          (insertKnown sha256 channelIndex index.get secret channel.knownSecrets).1 ∧
        applyMutations db.record mutations = db'.record := by
  cases hstore : storeKnownSecret sha256 db channelIndex index expectedNextIndex secret with
  | error e => simp [storeKnownSecret, hc] at hstore
  | ok result =>
    obtain ⟨db', mutations⟩ := result
    have hmirrors := storeKnownSecret_mirrors hstore
    rw [storeKnownSecret, hc] at hstore
    cases hstore
    exact ⟨_, _, _, rfl, ExtTreeMap.getElem?_insert_self, rfl, hmirrors⟩

/-- A run of stores succeeds, keeps the secrets correct and the table mirrored, and inserts its
indices one by one among the minimal ones. -/
theorem storeKnownSecrets_run {db : PlainDb} {channelIndex : ℕ} {channel : ChannelRecord}
    (hc : db.channels[channelIndex]? = some channel)
    (hknown : CorrectSecrets sha256 seed channel.knownSecrets) (calls : List (Index48 × ℕ)) :
    ∃ db' mutations channel',
      storeKnownSecrets sha256 seed channelIndex db calls = .ok (db', mutations) ∧
        db'.channels[channelIndex]? = some channel' ∧
        CorrectSecrets sha256 seed channel'.knownSecrets ∧
        knownIndices channel'.knownSecrets =
          (calls.map fun call => call.1.get).foldl (insertMinimal Derives)
            (knownIndices channel.knownSecrets) ∧
        applyMutations db.record mutations = db'.record := by
  induction calls generalizing db channel with
  | nil => exact ⟨db, [], channel, rfl, hc, hknown, rfl, rfl⟩
  | cons call rest ih =>
    obtain ⟨index, expectedNextIndex⟩ := call
    obtain ⟨mid, first, channelMid, hstore, hmid, hsecrets, hmirrors⟩ :=
      storeKnownSecret_ok hc index expectedNextIndex
        (generateFromSeed sha256 seed index.get)
    have hcorrect := hknown.insertKnown index.le_max channelIndex
    have hindices := knownIndices_insertKnown hknown index.le_max channelIndex
    rw [← hsecrets] at hcorrect hindices
    obtain ⟨db', later, channel', hrun, hc', hcorrect', hindices', hmirrors'⟩ := ih hmid hcorrect
    refine ⟨db', first ++ later, channel', ?_, hc', hcorrect', ?_, ?_⟩
    · rw [storeKnownSecrets, hstore]
      simp only [bind, Except.bind, hrun]
    · rw [hindices', hindices]
      rfl
    · rw [applyMutations_append, hmirrors, hmirrors']

/-- In an antichain of indices which derives exactly what all indices from some bound on derive,
no two indices have the same number of trailing zeros. -/
theorem trailingZeros_injOn {S : Set ℕ} (hS : IsAntichain Derives S) (hle : ∀ i ∈ S, i ≤ maxIndex)
    {bound : ℕ} (hup : upward Derives S = upward Derives {i | bound ≤ i ∧ i ≤ maxIndex}) {i j : ℕ}
    (hi : i ∈ S) (hj : j ∈ S) (htz : trailingZeros i = trailingZeros j) : i = j := by
  wlog hij : i ≤ j generalizing i j
  · exact (this hj hi htz.symm (Nat.le_of_not_le hij)).symm
  by_contra hne
  have hlt {k : ℕ} (hk : k ∈ S) : k < 2 ^ 64 := by
    have := hle k hk
    unfold maxIndex at this
    omega
  -- The larger index is nonzero, so both are: zero has 64 trailing zeros and no bit.
  have hj0 : j ≠ 0 := by omega
  have hjbit := (trailingZeros_spec hj0 (hlt hj)).1
  have hi0 : i ≠ 0 := by
    rintro rfl
    have htz0 : trailingZeros 0 = 64 := by decide
    rw [← htz, htz0] at hjbit
    rw [testBit_eq_false_of_le (hle j hj) (by decide)] at hjbit
    cases hjbit
  have himod := mod_two_pow_trailingZeros hi0 (hlt hi)
  have hjmod := mod_two_pow_trailingZeros hj0 (hlt hj)
  rw [htz] at himod
  -- Clearing the lowest bit of the larger index stays above the smaller one.
  have hclear : i < j - j % 2 ^ (trailingZeros j + 1) := by
    have hidiv := Nat.div_add_mod i (2 ^ (trailingZeros j + 1))
    have hjdiv := Nat.div_add_mod j (2 ^ (trailingZeros j + 1))
    have hquot : i / 2 ^ (trailingZeros j + 1) < j / 2 ^ (trailingZeros j + 1) := by
      refine Nat.lt_of_le_of_ne (Nat.div_le_div_right hij) fun heq => hne ?_
      rw [himod, heq] at hidiv
      rw [hjmod] at hjdiv
      exact hidiv.symm.trans hjdiv
    have hmul := Nat.mul_le_mul_left (2 ^ (trailingZeros j + 1)) (Nat.succ_le_of_lt hquot)
    have hpow : 2 ^ trailingZeros j < 2 ^ (trailingZeros j + 1) :=
      Nat.pow_lt_pow_right (by decide) (Nat.lt_succ_self _)
    rw [Nat.mul_succ] at hmul
    omega
  have hder := derives_clear_lowest (hle j hj) hj0
  have hsmall : j - j % 2 ^ (trailingZeros j + 1) < j := by
    have : 0 < 2 ^ trailingZeros j := Nat.pow_pos (by decide)
    omega
  -- The smaller index is above the bound, so the cleared one is derived by a stored index.
  have hibound : bound ≤ i := by
    have himem : i ∈ upward Derives S := ⟨i, hi, Derives.refl i⟩
    rw [hup] at himem
    obtain ⟨k, ⟨hk, hkmax⟩, hki⟩ := himem
    exact hk.trans (hki.le hkmax (hle i hi))
  have hmem : j - j % 2 ^ (trailingZeros j + 1) ∈ upward Derives S := by
    rw [hup]
    exact ⟨_, ⟨hibound.trans hclear.le, hsmall.le.trans (hle j hj)⟩, Derives.refl _⟩
  obtain ⟨k, hk, hkj⟩ := hmem
  have hkeq : k = j := hS.eq hk hj (hkj.trans hder)
  have hkle := hkj.le (hle k hk) (hsmall.le.trans (hle j hj))
  omega

/-- An index of 48 bits has fewer than 48 trailing zeros, unless it is zero. -/
theorem trailingZeros_mem {i : ℕ} (hi : i ≤ maxIndex) :
    trailingZeros i ∈ 64 :: List.range indexBits := by
  by_cases h0 : i = 0
  · subst h0
    decide
  · have hlt : i < 2 ^ 64 := by unfold maxIndex at hi; omega
    refine List.mem_cons_of_mem _ (List.mem_range.mpr ?_)
    by_contra hge
    have hset := (trailingZeros_spec h0 hlt).1
    rw [testBit_eq_false_of_le hi (Nat.le_of_not_lt hge)] at hset
    cases hset

/-- A map of indices with pairwise distinct trailing zeros has at most 49 entries. -/
theorem size_le_of_trailingZeros_injOn {known : DecimalMap Value32}
    (hle : ∀ i ∈ knownIndices known, i ≤ maxIndex)
    (hinj : ∀ i ∈ knownIndices known, ∀ j ∈ knownIndices known,
      trailingZeros i = trailingZeros j → i = j) : known.size ≤ 49 := by
  have hnodup : (known.keys.map trailingZeros).Nodup :=
    List.Nodup.map_on (fun i hi j hj => hinj i (ExtTreeMap.mem_of_mem_keys hi) j
      (ExtTreeMap.mem_of_mem_keys hj)) ExtTreeMap.nodup_keys
  have hsub : known.keys.map trailingZeros ⊆ 64 :: List.range indexBits := by
    intro t ht
    obtain ⟨i, hi, rfl⟩ := List.mem_map.mp ht
    exact trailingZeros_mem (hle i (ExtTreeMap.mem_of_mem_keys hi))
  have hlen := (List.subperm_of_subset hnodup hsub).length_le
  simpa [indexBits] using hlen

/-- Descending insertions from the top insert every index from some bound on. -/
theorem mem_descending {n : ℕ} (hn : 0 < n) {i : ℕ} :
    i ∈ (List.range n).map (maxIndex - ·) ↔ maxIndex - (n - 1) ≤ i ∧ i ≤ maxIndex := by
  rw [List.mem_map]
  constructor
  · rintro ⟨k, hk, rfl⟩
    have := List.mem_range.mp hk
    omega
  · rintro ⟨hlow, hhigh⟩
    exact ⟨maxIndex - i, List.mem_range.mpr (by omega), by omega⟩

/-- Stored indices derive only what inserted ones derive, so they are indices themselves. -/
theorem CorrectSecrets.le_of_mem {known : DecimalMap Value32}
    (hknown : CorrectSecrets sha256 seed known) : ∀ i ∈ knownIndices known, i ≤ maxIndex := by
  intro i hi
  obtain ⟨v, hv⟩ := mem_knownIndices.mp hi
  exact (hknown i v hv).1

/-- Any run of correct secrets on a channel without secrets keeps an antichain of indices, from
which exactly the secrets of the indices derivable from an inserted one are known; the emitted
mutations bring a mirrored table to a table which loads as the memory. Revealing in descending
order keeps pairwise distinct trailing zeros, hence at most 49 entries. -/
theorem storeKnownSecrets_invariant (sha256 : Value32 → Value32) (seed : Value32) {db : PlainDb}
    {channelIndex : ℕ} {channel : ChannelRecord} (hc : db.channels[channelIndex]? = some channel)
    (hempty : channel.knownSecrets = ∅) (calls : List (Index48 × ℕ)) :
    ∃ db' mutations channel',
      storeKnownSecrets sha256 seed channelIndex db calls = .ok (db', mutations) ∧
        db'.channels[channelIndex]? = some channel' ∧
        IsAntichain Derives (knownIndices channel'.knownSecrets) ∧
        (∀ j : Index48, deriveKnown sha256 db' channelIndex j =
          if ∃ call ∈ calls, Derives call.1.get j.get then
            some (generateFromSeed sha256 seed j.get)
          else none) ∧
        (∀ table records, Mirrors table db → Lists records (applyMutations table mutations) →
          loadRedbState records = .ok db') ∧
        (calls.map (fun call => call.1.get) = (List.range calls.length).map (maxIndex - ·) →
          (∀ i ∈ knownIndices channel'.knownSecrets, ∀ j ∈ knownIndices channel'.knownSecrets,
            trailingZeros i = trailingZeros j → i = j) ∧ channel'.knownSecrets.size ≤ 49) := by
  have hknown : CorrectSecrets sha256 seed channel.knownSecrets := by
    intro i v hi
    simp [hempty] at hi
  have hnone : knownIndices channel.knownSecrets = ∅ := by
    ext i
    simp [mem_knownIndices, hempty]
  obtain ⟨db', mutations, channel', hrun, hc', hcorrect, hindices, hmirrors⟩ :=
    storeKnownSecrets_run hc hknown calls
  have hantichain : IsAntichain Derives (knownIndices channel'.knownSecrets) := by
    rw [hindices, hnone]
    exact foldl_insertMinimal_isAntichain (Set.pairwise_empty _) _
  have hup : upward Derives (knownIndices channel'.knownSecrets) =
      upward Derives {i | i ∈ calls.map fun call => call.1.get} := by
    have htrans (i j k : ℕ) (hij : Derives i j) (hjk : Derives j k) : Derives i k := hij.trans hjk
    rw [hindices, hnone, upward_foldl_insertMinimal htrans, Set.empty_union]
  refine ⟨db', mutations, channel', hrun, hc', hantichain, fun j => ?_,
    fun table records htable hlists => ?_,
    fun hdesc => ?_⟩
  · have hderivable : j.get ∈ upward Derives (knownIndices channel'.knownSecrets) ↔
        ∃ call ∈ calls, Derives call.1.get j.get := by
      rw [hup]
      constructor
      · rintro ⟨i, hi, hderives⟩
        obtain ⟨call, hcall, rfl⟩ := List.mem_map.mp hi
        exact ⟨call, hcall, hderives⟩
      · rintro ⟨call, hcall, hderives⟩
        exact ⟨_, List.mem_map_of_mem hcall, hderives⟩
    split
    · next h => exact deriveKnown_of_mem hc' hcorrect (hderivable.mpr h)
    · next h => exact deriveKnown_of_not_mem hc' hcorrect (mt hderivable.mp h)
  · subst htable
    exact loadRedbState_of_mirrors hmirrors hlists
  · rcases Nat.eq_zero_or_pos calls.length with hzero | hpos
    · have hsecrets : knownIndices channel'.knownSecrets = ∅ := by
        rw [hindices, List.length_eq_zero_iff.mp hzero]
        exact hnone
      have hinj :
          ∀ i ∈ knownIndices channel'.knownSecrets, ∀ j ∈ knownIndices channel'.knownSecrets,
          trailingZeros i = trailingZeros j → i = j := by
        rw [hsecrets]
        intro i hi
        cases hi
      exact ⟨hinj, size_le_of_trailingZeros_injOn hcorrect.le_of_mem hinj⟩
    · rw [hdesc] at hup
      have hinterval : {i | i ∈ (List.range calls.length).map (maxIndex - ·)} =
          {i | maxIndex - (calls.length - 1) ≤ i ∧ i ≤ maxIndex} :=
        Set.ext fun i => mem_descending hpos
      rw [hinterval] at hup
      have hinj :
          ∀ i ∈ knownIndices channel'.knownSecrets, ∀ j ∈ knownIndices channel'.knownSecrets,
          trailingZeros i = trailingZeros j → i = j :=
        fun i hi j hj => trailingZeros_injOn hantichain hcorrect.le_of_mem hup hi hj
      exact ⟨hinj, size_le_of_trailingZeros_injOn hcorrect.le_of_mem hinj⟩

/-- The first two reveals of a channel. -/
def firstReveals : List (Index48 × ℕ) :=
  [(⟨maxIndex, le_rfl⟩, maxIndex), (⟨maxIndex - 1, Nat.sub_le _ _⟩, maxIndex - 1)]

/-- The first two reveals of a fresh channel. -/
theorem storeKnownSecrets_invariant_fresh :
    ∃ db' mutations channel',
      storeKnownSecrets id ⟨.replicate 32 0⟩ 3 (PlainDb.default.setChannel 3 emptyChannelRecord)
          firstReveals = .ok (db', mutations) ∧
        db'.channels[3]? = some channel' ∧
        IsAntichain Derives (knownIndices channel'.knownSecrets) ∧
        (∀ j : Index48, deriveKnown id db' 3 j =
          if ∃ call ∈ firstReveals, Derives call.1.get j.get then
            some (generateFromSeed id ⟨.replicate 32 0⟩ j.get)
          else none) ∧
        (∀ table records, Mirrors table (PlainDb.default.setChannel 3 emptyChannelRecord) →
          Lists records (applyMutations table mutations) → loadRedbState records = .ok db') ∧
        (firstReveals.map (fun call => call.1.get) = (List.range 2).map (maxIndex - ·) →
          (∀ i ∈ knownIndices channel'.knownSecrets, ∀ j ∈ knownIndices channel'.knownSecrets,
            trailingZeros i = trailingZeros j → i = j) ∧ channel'.knownSecrets.size ≤ 49) :=
  storeKnownSecrets_invariant id ⟨.replicate 32 0⟩
    (show (PlainDb.default.setChannel 3 emptyChannelRecord).channels[3]? = _ from
      ExtTreeMap.getElem?_insert_self) rfl firstReveals

end Shachain2pc
