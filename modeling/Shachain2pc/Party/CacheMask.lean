import Shachain2pc.Types.Derivability
import Mathlib.Order.Bounds.Basic
import Mathlib.Data.List.Nodup

/-!
# The masks a cached node derives

A node with mask `from` derives the targets whose set bits extend those of `from` below
the lowest one. These targets are an interval, which starts at `from` and ends where the
trailing zeros of `from` are filled with ones. The mask tests of the party crate, and those
of `derive_from_known` in the daemon, decide this interval.
-/

namespace Shachain2pc

/-- `can_derive_mask`. -/
def canDeriveMask (fromIndex toIndex : ℕ) : Bool :=
  if fromIndex &&& notU64 toIndex ≠ 0 then false
  else
    let missing := toIndex &&& notU64 fromIndex
    if fromIndex ≠ 0 ∧ missing >>> trailingZeros fromIndex ≠ 0 then false else true

/-- `max_derivable_mask`. -/
def maxDerivableMask (fromIndex : ℕ) : ℕ :=
  if fromIndex = 0 then maxIndex
  else
    let lowestApplied := trailingZeros fromIndex
    let lowerBits := if lowestApplied = 0 then 0 else 1 <<< lowestApplied - 1
    (fromIndex ||| lowerBits) &&& maxIndex

/-- `retain_cache_mask_for_future`. -/
def retainCacheMaskForFuture (mask currentTarget : ℕ) : Bool :=
  mask == currentTarget || decide (currentTarget < maxDerivableMask mask)

variable {i j : ℕ}

/-- Indices fit into a `u64`. -/
theorem lt_of_le_maxIndex (hi : i ≤ maxIndex) : i < 2 ^ 64 := by
  unfold maxIndex at hi
  omega

/-- The mask tests of the two crates agree. -/
theorem canDeriveMask_iff (hi : i ≤ maxIndex) (hj : j ≤ maxIndex) :
    canDeriveMask i j = true ↔ Derives i j := by
  rw [derives_iff hi hj, deriveTests, canDeriveMask]
  by_cases hsub : i &&& notU64 j = 0
  · rw [if_neg (not_not.mpr hsub), and_iff_right hsub]
    dsimp only
    split
    · next hlow => exact ⟨fun h => absurd h (by decide), fun h => absurd (h hlow.1) hlow.2⟩
    · next hlow => exact ⟨fun _ hne => not_not.mp fun h => hlow ⟨hne, h⟩, fun _ => rfl⟩
  · rw [if_pos hsub]
    exact ⟨fun h => absurd h (by decide), fun h => absurd h.1 hsub⟩

/-- The trailing zeros of an index stay below the index width. -/
theorem trailingZeros_lt (hi : i ≤ maxIndex) (hne : i ≠ 0) : trailingZeros i < indexBits := by
  by_contra hge
  have hset := (trailingZeros_spec hne (lt_of_le_maxIndex hi)).1
  rw [testBit_eq_false_of_le hi (Nat.le_of_not_lt hge)] at hset
  exact absurd hset (by decide)

/-- An index is a multiple of the power of two of its trailing zeros. -/
theorem two_pow_trailingZeros_mul_div (hi : i ≤ maxIndex) (hne : i ≠ 0) :
    2 ^ trailingZeros i * (i / 2 ^ trailingZeros i) = i := by
  have hmod := mod_two_pow_trailingZeros hne (lt_of_le_maxIndex hi)
  have hzero : i % 2 ^ trailingZeros i = 0 := by
    rw [← Nat.mod_mod_of_dvd i (Nat.pow_dvd_pow 2 (Nat.le_succ (trailingZeros i))), hmod,
      Nat.mod_self]
  exact Nat.mul_div_cancel' (Nat.dvd_of_mod_eq_zero hzero)

/-- A nonzero index derives the targets which agree with it from its lowest set bit on. -/
theorem derives_iff_div (hi : i ≤ maxIndex) (hj : j ≤ maxIndex) (hne : i ≠ 0) :
    Derives i j ↔ j / 2 ^ trailingZeros i = i / 2 ^ trailingZeros i := by
  obtain ⟨hset, hbelow⟩ := trailingZeros_spec hne (lt_of_le_maxIndex hi)
  rw [derives_iff hi hj, deriveTests_iff hi hj]
  constructor
  · intro ⟨hsub, hmissing⟩
    apply Nat.eq_of_testBit_eq
    intro bit
    rw [Nat.testBit_div_two_pow, Nat.testBit_div_two_pow, Bool.eq_iff_iff]
    refine ⟨fun hbit => ?_, hsub _⟩
    by_contra hnot
    have hlt := hmissing _ _ hset hbit (Bool.eq_false_of_not_eq_true hnot)
    omega
  · intro heq
    have hagree (bit : ℕ) (hbit : trailingZeros i ≤ bit) : j.testBit bit = i.testBit bit := by
      have htest := congrArg (Nat.testBit · (bit - trailingZeros i)) heq
      simpa only [Nat.testBit_div_two_pow, Nat.sub_add_cancel hbit] using htest
    have habove (bit : ℕ) (hbit : i.testBit bit = true) : trailingZeros i ≤ bit := by
      by_contra hlt
      rw [hbelow bit (Nat.lt_of_not_le hlt)] at hbit
      exact absurd hbit (by decide)
    refine ⟨fun bit hbit => (hagree bit (habove bit hbit)).trans hbit,
      fun high low hhigh hlow hnot => ?_⟩
    by_contra hge
    have hle : trailingZeros i ≤ low := (habove high hhigh).trans (Nat.le_of_not_lt hge)
    rw [hagree low hle, hnot] at hlow
    exact absurd hlow (by decide)

/-- Filling the trailing zeros of a nonzero index with ones. -/
theorem or_trailingZeros (hi : i ≤ maxIndex) (hne : i ≠ 0) :
    i ||| (2 ^ trailingZeros i - 1) = i + (2 ^ trailingZeros i - 1) := by
  have hpos : 0 < 2 ^ trailingZeros i := Nat.two_pow_pos _
  have hor := Nat.two_pow_add_eq_or_of_lt (Nat.sub_one_lt hpos.ne') (i / 2 ^ trailingZeros i)
  rw [two_pow_trailingZeros_mul_div hi hne] at hor
  exact hor.symm

/-- A nonzero index derives an interval. -/
theorem derives_iff_interval (hi : i ≤ maxIndex) (hj : j ≤ maxIndex) (hne : i ≠ 0) :
    Derives i j ↔ i ≤ j ∧ j ≤ i ||| (2 ^ trailingZeros i - 1) := by
  have hpos : 0 < 2 ^ trailingZeros i := Nat.two_pow_pos _
  have hmul := two_pow_trailingZeros_mul_div hi hne
  rw [derives_iff_div hi hj hne, or_trailingZeros hi hne, Nat.div_eq_iff hpos, Nat.mul_comm, hmul]
  omega

/-- The maximal mask is that with the trailing zeros filled with ones. -/
theorem maxDerivableMask_eq (hi : i ≤ maxIndex) (hne : i ≠ 0) :
    maxDerivableMask i = i ||| (2 ^ trailingZeros i - 1) := by
  have hlower : (if trailingZeros i = 0 then 0 else 1 <<< trailingZeros i - 1) =
      2 ^ trailingZeros i - 1 := by
    split
    · next hzero => rw [hzero, pow_zero, Nat.sub_self]
    · rw [Nat.one_shiftLeft]
  have hlt : i ||| (2 ^ trailingZeros i - 1) < 2 ^ 48 := by
    apply Nat.or_lt_two_pow
    · unfold maxIndex at hi
      omega
    · calc 2 ^ trailingZeros i - 1 < 2 ^ trailingZeros i := Nat.sub_one_lt (Nat.two_pow_pos _).ne'
        _ ≤ 2 ^ 48 := Nat.pow_le_pow_right (by decide) (trailingZeros_lt hi hne).le
  rw [maxDerivableMask, if_neg hne]
  simp only [hlower, maxIndex]
  rw [Nat.and_two_pow_sub_one_eq_mod, Nat.mod_eq_of_lt hlt]

/-- The seed derives every index. -/
theorem derives_zero : Derives 0 j := by
  have hnil : setBitsDesc 0 = [] := by
    rw [setBitsDesc, List.filter_eq_nil_iff]
    intro bit _
    simp
  rw [Derives, hnil]
  exact List.nil_prefix

/-- The maximal mask is an index. -/
theorem maxDerivableMask_le (i : ℕ) : maxDerivableMask i ≤ maxIndex := by
  unfold maxDerivableMask
  split
  · exact le_rfl
  · exact Nat.and_le_right

/-- An index derives its maximal mask. -/
theorem derives_maxDerivableMask (hi : i ≤ maxIndex) : Derives i (maxDerivableMask i) := by
  by_cases hne : i = 0
  · rw [hne]
    exact derives_zero
  · rw [derives_iff_interval hi (maxDerivableMask_le i) hne, maxDerivableMask_eq hi hne]
    exact ⟨Nat.left_le_or, le_rfl⟩

/-- Every derived target is at most the maximal mask. -/
theorem Derives.le_maxDerivableMask (hi : i ≤ maxIndex) (hj : j ≤ maxIndex) (h : Derives i j) :
    j ≤ maxDerivableMask i := by
  by_cases hne : i = 0
  · rw [hne, maxDerivableMask, if_pos rfl]
    exact hj
  · rw [maxDerivableMask_eq hi hne]
    exact ((derives_iff_interval hi hj hne).mp h).2

/-- The lowest set bit determines the trailing zeros. -/
theorem trailingZeros_eq {value bit : ℕ} (hbit : bit < 64) (hset : value.testBit bit = true)
    (hbelow : ∀ low < bit, value.testBit low = false) : trailingZeros value = bit := by
  have hfind : (List.range 64).find? value.testBit = some bit := by
    rw [List.find?_range_eq_some]
    exact ⟨hset, List.mem_range.mpr hbit, fun low hlow => by rw [hbelow low hlow]; rfl⟩
  rw [trailingZeros, hfind]
  rfl

/-- Setting a bit below all set bits appends it. -/
theorem setBitsDesc_or_bit {mask bit : ℕ} (hbit : bit < indexBits)
    (hbelow : ∀ high ∈ setBitsDesc mask, bit < high) :
    setBitsDesc (mask ||| 1 <<< bit) = setBitsDesc mask ++ [bit] := by
  have hdesc : bitsDesc.Pairwise (· > ·) := by decide
  have hone : bitsDesc.filter (· == bit) = [bit] := by
    rw [List.filter_beq,
      List.count_eq_one_of_mem (hdesc.imp fun h => h.ne') (by simpa [bitsDesc] using hbit)]
    rfl
  rw [setBitsDesc, setBitsDesc, ← hone, ← filter_append_of_above hdesc]
  · apply List.filter_congr
    intro other _
    rw [Nat.testBit_or, Nat.one_shiftLeft, Nat.testBit_two_pow]
    rw [Bool.eq_iff_iff, Bool.or_eq_true, Bool.or_eq_true, decide_eq_true_eq, beq_iff_eq,
      eq_comm (a := bit)]
  · intro high hhigh low _ hset hlow
    rw [beq_iff_eq.mp hlow]
    exact hbelow high (List.mem_filter.mpr ⟨hhigh, hset⟩)

/-- A mask with a new lowest bit is an index, and the bit counts its trailing zeros. -/
theorem or_bit_spec {mask bit : ℕ} (hmask : mask ≤ maxIndex) (hbit : bit < indexBits)
    (hbelow : ∀ high ∈ setBitsDesc mask, bit < high) :
    mask ||| 1 <<< bit ≤ maxIndex ∧ mask ||| 1 <<< bit ≠ 0 ∧ trailingZeros
      (mask ||| 1 <<< bit) = bit := by
  have htest (other : ℕ) :
      (mask ||| 1 <<< bit).testBit other = (mask.testBit other || decide (bit = other)) := by
    rw [Nat.testBit_or, Nat.one_shiftLeft, Nat.testBit_two_pow]
  have hset : (mask ||| 1 <<< bit).testBit bit = true := by simp [htest]
  have hlt : mask ||| 1 <<< bit < 2 ^ 48 := by
    apply Nat.or_lt_two_pow
    · unfold maxIndex at hmask
      omega
    · rw [Nat.one_shiftLeft]
      exact Nat.pow_lt_pow_right (by decide) hbit
  refine ⟨by unfold maxIndex; omega, fun hzero => ?_,
    trailingZeros_eq (hbit.trans (by decide)) hset ?_⟩
  · rw [hzero] at hset
    simp at hset
  · intro low hlow
    rw [htest, Bool.or_eq_false_iff]
    refine ⟨?_, decide_eq_false hlow.ne'⟩
    by_contra hset'
    have hmem := hbelow low (mem_setBitsDesc.mpr ⟨hlow.trans hbit, by simpa using hset'⟩)
    omega

/-- Masks which derive one target are equal when they have equally many trailing zeros. -/
theorem Derives.eq_of_trailingZeros {m m' : ℕ} (hm : m ≤ maxIndex) (hm' : m' ≤ maxIndex)
    (hj : j ≤ maxIndex) (hne : m ≠ 0) (hne' : m' ≠ 0) (h : Derives m j) (h' : Derives m' j)
    (htz : trailingZeros m = trailingZeros m') : m = m' := by
  have hdiv := (derives_iff_div hm hj hne).mp h
  have hdiv' := (derives_iff_div hm' hj hne').mp h'
  rw [← two_pow_trailingZeros_mul_div hm hne, ← two_pow_trailingZeros_mul_div hm' hne', ← hdiv,
    ← hdiv', htz]

/-- Derivation from a known secret is sound and complete, and the party's mask tests decide the same
pairs. -/
theorem deriveFromKnown_complete (sha256 : Value32 → Value32) (seed : Value32) (i j : Index48) :
    deriveFromKnown sha256 i.get (generateFromSeed sha256 seed i.get) j.get =
        (if i.get = 0 ∨ i.get ≤ j.get ∧ j.get ≤ i.get ||| (2 ^ trailingZeros i.get - 1) then
          some (generateFromSeed sha256 seed j.get) else none) ∧
      (canDeriveMask i.get j.get = true ↔
        i.get = 0 ∨ i.get ≤ j.get ∧ j.get ≤ i.get ||| (2 ^ trailingZeros i.get - 1)) ∧
      IsGreatest { k | k ≤ maxIndex ∧ canDeriveMask i.get k = true } (maxDerivableMask i.get) := by
  have hinterval : Derives i.get j.get ↔
      i.get = 0 ∨ i.get ≤ j.get ∧ j.get ≤ i.get ||| (2 ^ trailingZeros i.get - 1) := by
    by_cases hne : i.get = 0
    · rw [hne]
      exact ⟨fun _ => .inl rfl, fun _ => derives_zero⟩
    · rw [derives_iff_interval i.le_max j.le_max hne, or_iff_right hne]
  refine ⟨?_, (canDeriveMask_iff i.le_max j.le_max).trans hinterval, ?_, ?_⟩
  · rw [deriveFromKnown_correct sha256 seed i.le_max j.le_max]
    exact if_congr hinterval rfl rfl
  · exact ⟨maxDerivableMask_le _,
      (canDeriveMask_iff i.le_max (maxDerivableMask_le _)).mpr (derives_maxDerivableMask i.le_max)⟩
  · intro k ⟨hk, hderive⟩
    exact ((canDeriveMask_iff i.le_max hk).mp hderive).le_maxDerivableMask i.le_max hk

end Shachain2pc
