import Shachain2pc.Types.Chain

/-!
# Which secrets derive which

Along the descending bits of an index the derivation makes one edge per set bit, so the
secret of one index derives the secret of another exactly when the set bits of the first
are a prefix of the set bits of the second. `derive_from_known` decides this with masks and
shifts, and then hashes along the missing bits.
-/

namespace Shachain2pc

/-- The complement of a `u64`. -/
def notU64 (value : ℕ) : ℕ := value ^^^ (2 ^ 64 - 1)

/-- `u64::trailing_zeros`. -/
def trailingZeros (value : ℕ) : ℕ := ((List.range 64).find? value.testBit).getD 64

/-- `u64::count_ones`. -/
def countOnes (value : ℕ) : ℕ := ((List.range 64).filter (value.testBit ·)).length

/-- `derive_from_known`. -/
def deriveFromKnown (sha256 : Value32 → Value32) (fromIndex : ℕ) (secret : Value32)
    (toIndex : ℕ) : Option Value32 :=
  if fromIndex &&& notU64 toIndex ≠ 0 then none
  else
    let missing := toIndex &&& notU64 fromIndex
    if fromIndex ≠ 0 ∧ missing >>> trailingZeros fromIndex ≠ 0 then none
    else some (hashBits sha256 secret (setBitsDesc missing))

/-- The set bits of the first index are a prefix of those of the second. -/
def Derives (fromIndex toIndex : ℕ) : Prop := setBitsDesc fromIndex <+: setBitsDesc toIndex

instance (fromIndex toIndex : ℕ) : Decidable (Derives fromIndex toIndex) :=
  inferInstanceAs (Decidable (_ <+: _))

/-- Every index derives itself. -/
theorem Derives.refl (index : ℕ) : Derives index index := List.prefix_rfl

/-- Derivations compose. -/
theorem Derives.trans {i j k : ℕ} (hij : Derives i j) (hjk : Derives j k) : Derives i k :=
  List.IsPrefix.trans hij hjk

/-- Bits of the complement inside the index range. -/
theorem testBit_notU64 {value bit : ℕ} (hbit : bit < 64) :
    (notU64 value).testBit bit = !value.testBit bit := by
  rw [notU64, Nat.testBit_xor, Nat.testBit_two_pow_sub_one]
  simp [hbit]

/-- Indices have no bits above the index width. -/
theorem testBit_eq_false_of_le {index bit : ℕ} (hindex : index ≤ maxIndex)
    (hbit : indexBits ≤ bit) : index.testBit bit = false := by
  apply Nat.testBit_lt_two_pow
  calc index < 2 ^ indexBits := by unfold maxIndex at hindex; unfold indexBits at *; omega
    _ ≤ 2 ^ bit := Nat.pow_le_pow_right (by decide) hbit

/-- An index is determined by its set bits. -/
theorem setBitsDesc_injective {i j : ℕ} (hi : i ≤ maxIndex) (hj : j ≤ maxIndex)
    (h : setBitsDesc i = setBitsDesc j) : i = j := by
  apply Nat.eq_of_testBit_eq
  intro bit
  by_cases hbit : bit < indexBits
  · have hmem : bit ∈ setBitsDesc i ↔ bit ∈ setBitsDesc j := by rw [h]
    simp only [mem_setBitsDesc, hbit, true_and] at hmem
    exact Bool.eq_iff_iff.mpr hmem
  · rw [testBit_eq_false_of_le hi (Nat.le_of_not_lt hbit),
      testBit_eq_false_of_le hj (Nat.le_of_not_lt hbit)]

/-- Two indices that derive each other are equal. -/
theorem Derives.antisymm {i j : ℕ} (hi : i ≤ maxIndex) (hj : j ≤ maxIndex)
    (hij : Derives i j) (hji : Derives j i) : i = j :=
  setBitsDesc_injective hi hj (hij.eq_of_length_le hji.length_le)

/-- Set bits are listed from the highest down. -/
theorem setBitsDesc_pairwise (index : ℕ) : (setBitsDesc index).Pairwise (· > ·) := by
  have hdesc : bitsDesc.Pairwise (· > ·) := by decide
  exact hdesc.filter _

/-- Splitting a descending list by a test that holds above another one. -/
theorem filter_append_of_above {bits : List ℕ} (hbits : bits.Pairwise (· > ·)) {p q : ℕ → Bool}
    (habove : ∀ a ∈ bits, ∀ b ∈ bits, p a = true → q b = true → b < a) :
    bits.filter (fun bit => p bit || q bit) = bits.filter p ++ bits.filter q := by
  induction bits with
  | nil => rfl
  | cons bit rest ih =>
    rw [List.pairwise_cons] at hbits
    have ih := ih hbits.2 fun a ha b hb =>
      habove a (List.mem_cons_of_mem _ ha) b (List.mem_cons_of_mem _ hb)
    cases hp : p bit with
    | true =>
      have hq : q bit = false := by
        by_contra hq
        exact absurd (habove bit List.mem_cons_self bit List.mem_cons_self hp (by simpa using hq))
          (lt_irrefl _)
      simp [hp, hq, ih]
    | false =>
      cases hq : q bit with
      | false => simp [hp, hq, ih]
      | true =>
        -- The rest lies below `bit`, so no entry of it can lie above `bit`.
        have hnone : rest.filter p = [] := by
          rw [List.filter_eq_nil_iff]
          intro a ha hpa
          have hlt := habove a (List.mem_cons_of_mem _ ha) bit List.mem_cons_self hpa hq
          exact absurd (hbits.1 a ha) (Nat.lt_asymm hlt)
        rw [hnone, List.nil_append] at ih
        simp [hp, hq, hnone, ih]

/-- The trailing zeros of a nonzero `u64` end at its lowest set bit. -/
theorem trailingZeros_spec {value : ℕ} (hvalue : value ≠ 0) (hlt : value < 2 ^ 64) :
    value.testBit (trailingZeros value) = true ∧
      ∀ bit < trailingZeros value, value.testBit bit = false := by
  obtain ⟨bit, hbit⟩ := Nat.exists_testBit_of_ne_zero hvalue
  have hbit64 : bit < 64 := by
    by_contra hge
    have hsmall := Nat.testBit_lt_two_pow (i := bit)
      (hlt.trans_le (Nat.pow_le_pow_right (by decide) (Nat.le_of_not_lt hge)))
    exact absurd hbit (by simp [hsmall])
  unfold trailingZeros
  cases hfind : (List.range 64).find? value.testBit with
  | none =>
    rw [List.find?_eq_none] at hfind
    exact absurd hbit (hfind bit (List.mem_range.mpr hbit64))
  | some first =>
    rw [List.find?_range_eq_some] at hfind
    refine ⟨hfind.1, fun below hbelow => ?_⟩
    simpa using hfind.2.2 below hbelow

/-- The bits of the first index which the second lacks. -/
theorem and_notU64_eq_zero {i j : ℕ} (hi : i ≤ maxIndex) :
    i &&& notU64 j = 0 ↔ ∀ bit, i.testBit bit = true → j.testBit bit = true := by
  constructor
  · intro h bit hbit
    have hlt : bit < indexBits := by
      by_contra hge
      simp [testBit_eq_false_of_le hi (Nat.le_of_not_lt hge)] at hbit
    have hand := congrArg (Nat.testBit · bit) h
    simpa [Nat.testBit_and, testBit_notU64 (hlt.trans (by decide)), hbit] using hand
  · intro h
    apply Nat.eq_of_testBit_eq
    intro bit
    rw [Nat.testBit_and, Nat.zero_testBit]
    by_cases hbit : i.testBit bit = true
    · have hlt : bit < indexBits := by
        by_contra hge
        simp [testBit_eq_false_of_le hi (Nat.le_of_not_lt hge)] at hbit
      simp [testBit_notU64 (hlt.trans (by decide)), h bit hbit]
    · simp [hbit]

/-- A missing bit is a set bit of the target which the known index lacks. -/
theorem testBit_missing {i j bit : ℕ} (hj : j ≤ maxIndex) :
    (j &&& notU64 i).testBit bit = true ↔ j.testBit bit = true ∧ i.testBit bit = false := by
  by_cases hlt : bit < indexBits
  · simp [Nat.testBit_and, testBit_notU64 (hlt.trans (by decide))]
  · simp [Nat.testBit_and, testBit_eq_false_of_le hj (Nat.le_of_not_lt hlt)]

/-- Shifting out every set bit leaves zero. -/
theorem shiftRight_eq_zero_iff {value low : ℕ} :
    value >>> low = 0 ↔ ∀ bit, value.testBit bit = true → bit < low := by
  constructor
  · intro h bit hbit
    by_contra hge
    have hshift := congrArg (Nat.testBit · (bit - low)) h
    rw [Nat.testBit_shiftRight, Nat.add_sub_cancel' (Nat.le_of_not_lt hge)] at hshift
    simp [hbit] at hshift
  · intro h
    apply Nat.eq_of_testBit_eq
    intro bit
    rw [Nat.testBit_shiftRight, Nat.zero_testBit, Bool.eq_false_iff]
    intro hbit
    exact absurd (h _ hbit) (by omega)

/-- The two mask tests of `derive_from_known`. -/
def deriveTests (fromIndex toIndex : ℕ) : Prop :=
  fromIndex &&& notU64 toIndex = 0 ∧
    (fromIndex ≠ 0 → (toIndex &&& notU64 fromIndex) >>> trailingZeros fromIndex = 0)

/-- The mask tests hold when every bit of the known index is set in the target and every
missing bit lies below every bit of the known index. -/
theorem deriveTests_iff {i j : ℕ} (hi : i ≤ maxIndex) (hj : j ≤ maxIndex) :
    deriveTests i j ↔ (∀ bit, i.testBit bit = true → j.testBit bit = true) ∧
      ∀ high low, i.testBit high = true → j.testBit low = true → i.testBit low = false →
        low < high := by
  have hlt : i < 2 ^ 64 := by unfold maxIndex at hi; omega
  unfold deriveTests
  rw [and_notU64_eq_zero hi, shiftRight_eq_zero_iff]
  refine and_congr_right fun _ =>
    ⟨fun h high low hhigh hlow hmissing => ?_, fun h hne low hlow => ?_⟩
  · have hne : i ≠ 0 := by rintro rfl; simp at hhigh
    have hfirst := (trailingZeros_spec hne hlt).2
    have hbelow := h hne low ((testBit_missing hj).mpr ⟨hlow, hmissing⟩)
    have hge : trailingZeros i ≤ high := by
      by_contra hlt'
      simp [hfirst high (Nat.lt_of_not_le hlt')] at hhigh
    omega
  · obtain ⟨hset, hmissing⟩ := (testBit_missing hj).mp hlow
    exact h _ low (trailingZeros_spec hne hlt).1 hset hmissing

/-- Where the mask tests hold, the missing bits are the rest of the target's derivation. -/
theorem setBitsDesc_append_missing {i j : ℕ} (hi : i ≤ maxIndex) (hj : j ≤ maxIndex)
    (h : deriveTests i j) :
    setBitsDesc j = setBitsDesc i ++ setBitsDesc (j &&& notU64 i) := by
  obtain ⟨hsub, habove⟩ := (deriveTests_iff hi hj).mp h
  have hdesc : bitsDesc.Pairwise (· > ·) := by decide
  rw [setBitsDesc, setBitsDesc, setBitsDesc, ← filter_append_of_above hdesc]
  · apply List.filter_congr
    intro bit _
    rw [Bool.eq_iff_iff, Bool.or_eq_true, testBit_missing hj]
    constructor
    · intro hbit
      cases hi' : i.testBit bit with
      | true => exact .inl rfl
      | false => exact .inr ⟨hbit, rfl⟩
    · rintro (hbit | hbit)
      · exact hsub bit hbit
      · exact hbit.1
  · intro high _ low _ hhigh hlow
    obtain ⟨hset, hmissing⟩ := (testBit_missing hj).mp hlow
    exact habove high low hhigh hset hmissing

/-- The mask tests decide derivability. -/
theorem derives_iff {i j : ℕ} (hi : i ≤ maxIndex) (hj : j ≤ maxIndex) :
    Derives i j ↔ deriveTests i j := by
  refine ⟨fun h => ?_, fun h => ⟨_, (setBitsDesc_append_missing hi hj h).symm⟩⟩
  have hmem {index bit : ℕ} (hindex : index ≤ maxIndex) (hbit : index.testBit bit = true) :
      bit ∈ setBitsDesc index := by
    refine mem_setBitsDesc.mpr ⟨?_, hbit⟩
    by_contra hge
    simp [testBit_eq_false_of_le hindex (Nat.le_of_not_lt hge)] at hbit
  refine (deriveTests_iff hi hj).mpr ⟨fun bit hbit => ?_, fun high low hhigh hlow hmissing => ?_⟩
  · exact (mem_setBitsDesc.mp (h.subset (hmem hi hbit))).2
  · -- A missing bit is listed after the whole prefix, so below it.
    obtain ⟨rest, hrest⟩ := h
    have hpair := setBitsDesc_pairwise j
    have hlow' := hmem hj hlow
    rw [← hrest] at hpair hlow'
    rcases List.mem_append.mp hlow' with hin | hin
    · simp [(mem_setBitsDesc.mp hin).2] at hmissing
    · exact (List.pairwise_append.mp hpair).2.2 high (hmem hi hhigh) low hin

/-- `derive_from_known` succeeds exactly along derivations, and then hashes along the
missing bits. -/
theorem deriveFromKnown_eq (sha256 : Value32 → Value32) {i j : ℕ} (hi : i ≤ maxIndex)
    (hj : j ≤ maxIndex) (secret : Value32) :
    deriveFromKnown sha256 i secret j =
      if Derives i j then
        some (hashBits sha256 secret (setBitsDesc (j &&& notU64 i))) else none := by
  unfold deriveFromKnown
  by_cases h : Derives i j
  · obtain ⟨hsub, hlow⟩ := (derives_iff hi hj).mp h
    rw [if_pos h, if_neg (by simpa using hsub),
      if_neg (by rintro ⟨hne, hlow'⟩; exact hlow' (hlow hne))]
  · rw [if_neg h]
    rw [derives_iff hi hj, deriveTests, not_and_or] at h
    split
    · rfl
    · next hsub =>
      have hlow : ¬ (i ≠ 0 → (j &&& notU64 i) >>> trailingZeros i = 0) :=
        h.resolve_left (fun hne => hsub hne)
      rw [if_pos (by simpa using hlow)]

/-- From a correct secret, `derive_from_known` returns the correct secret of every index it
derives. -/
theorem deriveFromKnown_correct (sha256 : Value32 → Value32) (seed : Value32) {i j : ℕ}
    (hi : i ≤ maxIndex) (hj : j ≤ maxIndex) :
    deriveFromKnown sha256 i (generateFromSeed sha256 seed i) j =
      if Derives i j then some (generateFromSeed sha256 seed j) else none := by
  rw [deriveFromKnown_eq sha256 hi hj]
  by_cases h : Derives i j
  · rw [if_pos h, if_pos h, generateFromSeed_eq, generateFromSeed_eq,
      setBitsDesc_append_missing hi hj ((derives_iff hi hj).mp h), hashBits_append]
  · rw [if_neg h, if_neg h]

/-- A secret yields itself. -/
theorem deriveFromKnown_self (sha256 : Value32 → Value32) {index : ℕ} (hindex : index ≤ maxIndex)
    (secret : Value32) : deriveFromKnown sha256 index secret index = some secret := by
  have hself := Derives.refl index
  have hmissing := setBitsDesc_append_missing hindex hindex ((derives_iff hindex hindex).mp hself)
  rw [deriveFromKnown_eq sha256 hindex hindex, if_pos hself,
    List.self_eq_append_right.mp hmissing]
  rfl

/-- A known index is at most every index it derives. -/
theorem Derives.le {i j : ℕ} (hi : i ≤ maxIndex) (hj : j ≤ maxIndex) (h : Derives i j) : i ≤ j := by
  have hsub := ((deriveTests_iff hi hj).mp ((derives_iff hi hj).mp h)).1
  have hand : i &&& j = i := by
    apply Nat.eq_of_testBit_eq
    intro bit
    rw [Nat.testBit_and]
    cases hbit : i.testBit bit with
    | true => simp [hsub bit hbit]
    | false => simp
  exact hand ▸ Nat.and_le_right

/-- The bits up to the lowest set one are that bit alone. -/
theorem mod_two_pow_trailingZeros {value : ℕ} (hvalue : value ≠ 0) (hlt : value < 2 ^ 64) :
    value % 2 ^ (trailingZeros value + 1) = 2 ^ trailingZeros value := by
  obtain ⟨hset, hbelow⟩ := trailingZeros_spec hvalue hlt
  apply Nat.eq_of_testBit_eq
  intro bit
  rw [Nat.testBit_mod_two_pow, Nat.testBit_two_pow]
  rcases Nat.lt_trichotomy bit (trailingZeros value) with h | h | h
  · simp [hbelow bit h, h.ne']
  · simp [h, hset]
  · simp [h.ne, Nat.not_lt.mpr (Nat.succ_le_of_lt h)]

/-- An index derives from what is left when its lowest set bit is cleared. -/
theorem derives_clear_lowest {j : ℕ} (hj : j ≤ maxIndex) (hne : j ≠ 0) :
    Derives (j - j % 2 ^ (trailingZeros j + 1)) j := by
  have hlt : j < 2 ^ 64 := by unfold maxIndex at hj; omega
  obtain ⟨hset, hbelow⟩ := trailingZeros_spec hne hlt
  have hle : j - j % 2 ^ (trailingZeros j + 1) ≤ maxIndex := (Nat.sub_le _ _).trans hj
  have hbit (bit : ℕ) : (j - j % 2 ^ (trailingZeros j + 1)).testBit bit =
      (decide (trailingZeros j < bit) && j.testBit bit) := by
    have hmul : j - j % 2 ^ (trailingZeros j + 1) =
        2 ^ (trailingZeros j + 1) * (j / 2 ^ (trailingZeros j + 1)) := by
      have := Nat.div_add_mod j (2 ^ (trailingZeros j + 1))
      omega
    rw [hmul, Nat.testBit_two_pow_mul, Nat.testBit_div_two_pow]
    by_cases h : trailingZeros j < bit
    · have hge : trailingZeros j + 1 ≤ bit := h
      simp [hge, h]
    · simp [Nat.not_le.mpr (Nat.lt_succ_of_le (Nat.le_of_not_lt h)), h]
  refine (derives_iff hle hj).mpr
    ((deriveTests_iff hle hj).mpr ⟨fun bit h => ?_, fun high low h h' h'' => ?_⟩)
  · simp only [hbit, Bool.and_eq_true] at h
    exact h.2
  · simp only [hbit, Bool.and_eq_true, decide_eq_true_eq, Bool.and_eq_false_iff,
      decide_eq_false_iff_not] at h h''
    rcases h'' with h'' | h''
    · omega
    · simp [h'] at h''

/-- What the mask tests say of the bits of a `u64`. -/
theorem deriveTests.testBit {i j : ℕ} (h : deriveTests i j) {bit : ℕ} (hbit : bit < 64) :
    (i.testBit bit = true → j.testBit bit = true) ∧
      (i ≠ 0 → trailingZeros i ≤ bit → j.testBit bit = true → i.testBit bit = true) := by
  obtain ⟨hsub, hlow⟩ := h
  constructor
  · intro hi
    have hand := congrArg (Nat.testBit · bit) hsub
    simpa [Nat.testBit_and, testBit_notU64 hbit, hi] using hand
  · intro hne hle hj
    have hshift := congrArg (Nat.testBit · (bit - trailingZeros i)) (hlow hne)
    rw [Nat.testBit_shiftRight, Nat.add_sub_cancel' hle] at hshift
    simpa [Nat.testBit_and, testBit_notU64 hbit, hj] using hshift

/-- The trailing zeros of any value end at a set bit, unless there is none in its `u64`. -/
theorem testBit_trailingZeros {value : ℕ} (h : trailingZeros value < 64) :
    value.testBit (trailingZeros value) = true := by
  unfold trailingZeros at h ⊢
  cases hfind : (List.range 64).find? value.testBit with
  | none => simp [hfind] at h
  | some first => exact (List.find?_range_eq_some.mp hfind).1

/-- The trailing zeros of any value end at its lowest set bit, if it has one in its `u64`. -/
theorem trailingZeros_le {value bit : ℕ} (hbit : bit < 64) (hset : value.testBit bit = true) :
    trailingZeros value ≤ bit := by
  unfold trailingZeros
  cases hfind : (List.range 64).find? value.testBit with
  | none =>
    rw [List.find?_eq_none] at hfind
    exact absurd hset (hfind bit (List.mem_range.mpr hbit))
  | some first =>
    refine Nat.le_of_not_lt fun hlt => ?_
    exact absurd hset (by simpa using (List.find?_range_eq_some.mp hfind).2.2 bit hlt)

/-- The mask tests compose, also through values which are no index. -/
theorem deriveTests.trans {i k j : ℕ} (hj : j ≤ maxIndex) (hik : deriveTests i k)
    (hkj : deriveTests k j) : deriveTests i j := by
  have hindex {bit : ℕ} (hset : j.testBit bit = true) : bit < 64 := by
    by_contra hge
    have hge : indexBits ≤ bit := le_trans (by decide) (Nat.le_of_not_lt hge)
    simp [testBit_eq_false_of_le hj hge] at hset
  constructor
  · apply Nat.eq_of_testBit_eq
    intro bit
    rw [Nat.testBit_and, Nat.zero_testBit]
    by_cases hbit : bit < 64
    · rw [testBit_notU64 hbit]
      cases hi : i.testBit bit with
      | false => rfl
      | true => simp [(hkj.testBit hbit).1 ((hik.testBit hbit).1 hi)]
    · have hzero : j.testBit bit = false := Bool.eq_false_iff.mpr fun hset => hbit (hindex hset)
      rw [notU64, Nat.testBit_xor, Nat.testBit_two_pow_sub_one, hzero]
      simp [hbit]
  · intro hne
    rw [shiftRight_eq_zero_iff]
    intro bit hmissing
    obtain ⟨hset, hlacks⟩ := (testBit_missing hj).mp hmissing
    have hbit := hindex hset
    by_contra hle
    have hle := Nat.le_of_not_lt hle
    have hlow : trailingZeros i < 64 := lt_of_le_of_lt hle hbit
    -- The lowest bit of the first value is one of the middle value.
    have hk := (hik.testBit hlow).1 (testBit_trailingZeros hlow)
    have hk0 : k ≠ 0 := by
      rintro rfl
      simp at hk
    have hmid := (hkj.testBit hbit).2 hk0 ((trailingZeros_le hlow hk).trans hle) hset
    rw [(hik.testBit hbit).2 hne hle hmid] at hlacks
    cases hlacks

end Shachain2pc
