import Shachain2pc.Party.CacheMask
import Shachain2pc.Party.Standalone

/-!
# The shared trunk of a range

The bits of a range are split below the highest bit in which its indices differ. Above it all
indices agree, so their paths share a trunk; below it each index has a branch of its own. The
trunk is cut into chunks, which together are its bits in order.
-/

namespace Shachain2pc

/-! ## Chunks -/

/-- A bit is added after those of all groups. -/
theorem pushChainBit_flatten {groups : List (List ℕ)} (hne : groups ≠ []) (blocksPerChunk bit : ℕ) :
    (pushChainBit blocksPerChunk groups bit).flatten = groups.flatten ++ [bit] := by
  have hlast : groups.dropLast ++ [groups.getLastD []] = groups := by
    rw [List.getLastD_eq_getLast?, List.getLast?_eq_some_getLast hne]
    exact List.dropLast_append_getLast hne
  unfold pushChainBit
  simp only
  split
  · rw [List.flatten_append]
    rfl
  · conv_rhs => rw [← hlast]
    simp

/-- Groups are not empty, but for a single one. -/
def Grouped (groups : List (List ℕ)) : Prop :=
  groups = [[]] ∨ groups ≠ [] ∧ ∀ group ∈ groups, group ≠ []

/-- A further bit leaves no group empty. -/
theorem Grouped.push {groups : List (List ℕ)} (h : Grouped groups) (blocksPerChunk bit : ℕ) :
    Grouped (pushChainBit blocksPerChunk groups bit) := by
  right
  unfold pushChainBit
  simp only
  rcases h with rfl | ⟨hne, hgroups⟩
  · simp
  · split
    · refine ⟨by simp, fun group hmem => ?_⟩
      rcases List.mem_append.mp hmem with hmem | hmem
      · exact hgroups group hmem
      · rw [List.mem_singleton.mp hmem]
        exact List.cons_ne_nil _ _
    · refine ⟨by simp, fun group hmem => ?_⟩
      rcases List.mem_append.mp hmem with hmem | hmem
      · exact hgroups group ((List.dropLast_sublist groups).subset hmem)
      · rw [List.mem_singleton.mp hmem]
        simp

/-- Bits which are added in order. -/
theorem pushChainBits_spec (blocksPerChunk : ℕ) (keep : ℕ → Bool) (bits : List ℕ)
    {groups : List (List ℕ)} (hne : groups ≠ []) (hgroups : Grouped groups) :
    let pushed := bits.foldl (fun groups bit =>
      if keep bit then pushChainBit blocksPerChunk groups bit else groups) groups
    pushed.flatten = groups.flatten ++ bits.filter keep ∧ Grouped pushed ∧ pushed ≠ [] := by
  induction bits generalizing groups with
  | nil => exact ⟨(List.append_nil _).symm, hgroups, hne⟩
  | cons bit rest ih =>
    rw [List.foldl_cons, List.filter_cons]
    cases hkeep : keep bit with
    | false => exact ih hne hgroups
    | true =>
      have hnext : pushChainBit blocksPerChunk groups bit ≠ [] := by
        unfold pushChainBit
        simp only
        split <;> simp
      obtain ⟨hflatten, hgrouped, hpushed⟩ := ih hnext (hgroups.push blocksPerChunk bit)
      refine ⟨?_, hgrouped, hpushed⟩
      simp only [if_true] at hflatten ⊢
      rw [hflatten, pushChainBit_flatten hne, List.append_assoc]
      rfl

/-- The chunks of an index are its bits in order. -/
theorem splitChainBits_spec {index blocksPerChunk : ℕ} (hpos : 1 ≤ blocksPerChunk)
    (hindex : index ≤ maxIndex) :
    ∃ groups, splitChainBits index blocksPerChunk = .ok groups ∧ groups.flatten =
      setBitsDesc index ∧
      Grouped groups ∧ groups ≠ [] := by
  refine ⟨_, ?_,
    pushChainBits_spec blocksPerChunk index.testBit bitsDesc (List.cons_ne_nil [] []) (.inl rfl)⟩
  rw [splitChainBits, if_neg (by omega), if_neg (not_lt.mpr hindex)]

/-- Chunks are given only for indices. -/
theorem splitChainBits_eq_ok {index blocksPerChunk : ℕ} {groups : List (List ℕ)}
    (h : splitChainBits index blocksPerChunk = .ok groups) :
    groups.flatten = setBitsDesc index ∧ Grouped groups ∧ groups ≠ [] := by
  by_cases hpos : blocksPerChunk < 1
  · rw [splitChainBits, if_pos hpos] at h
    cases h
  by_cases hindex : maxIndex < index
  · rw [splitChainBits, if_neg hpos, if_pos hindex] at h
    cases h
  · obtain ⟨groups', hgroups, hspec⟩ := splitChainBits_spec (not_lt.mp hpos) (not_lt.mp hindex)
    rw [h] at hgroups
    cases hgroups
    exact hspec

/-! ## Masks -/

/-- The bits of an index from a position on, and those below it. -/
theorem setBitsDesc_split (index depth : ℕ) :
    setBitsDesc index = setBitsDesc (index &&& (maxIndex &&& notU64 (2 ^ depth - 1))) ++
      setBitsDesc (index &&& (2 ^ depth - 1)) := by
  have hdesc : bitsDesc.Pairwise (· > ·) := by decide
  have hbits {bit : ℕ} (hbit : bit ∈ bitsDesc) : bit < indexBits := by
    rw [bitsDesc, List.mem_reverse, List.mem_range] at hbit
    exact hbit
  have hhigh {bit : ℕ} (hbit : bit < indexBits) :
      (index &&& (maxIndex &&& notU64 (2 ^ depth - 1))).testBit bit =
        (index.testBit bit && !decide (bit < depth)) := by
    have hmax : maxIndex.testBit bit = true := by
      rw [maxIndex, Nat.testBit_two_pow_sub_one]
      exact decide_eq_true hbit
    rw [Nat.testBit_and, Nat.testBit_and, hmax, testBit_notU64 (by unfold indexBits at hbit; omega),
      Nat.testBit_two_pow_sub_one, Bool.true_and]
  have hlow (bit : ℕ) : (index &&& (2 ^ depth - 1)).testBit bit =
    (index.testBit bit && decide (bit < depth)) := by
    rw [Nat.testBit_and, Nat.testBit_two_pow_sub_one]
  rw [setBitsDesc, setBitsDesc, setBitsDesc, ← filter_append_of_above hdesc]
  · refine List.filter_congr fun bit hbit => ?_
    rw [hhigh (hbits hbit), hlow, ← Bool.and_or_distrib_left, Bool.or_comm, Bool.or_not_self,
      Bool.and_true]
  · intro high hmem low hmem' hset hset'
    rw [hhigh (hbits hmem), Bool.and_eq_true, Bool.not_eq_true', decide_eq_false_iff_not] at hset
    rw [hlow, Bool.and_eq_true, decide_eq_true_eq] at hset'
    omega

/-- The number of bits below the split of a range. -/
def SplitMasks.depth (masks : SplitMasks) : ℕ :=
  match masks.split with
  | none => 0
  | some bit => bit + 1

/-- The bits in which indices differ from the first. -/
theorem testBit_diff (first : ℕ) (indices : List ℕ) (acc bit : ℕ) :
    (indices.foldl (fun acc index => acc ||| (index ^^^ first)) acc).testBit bit =
      (acc.testBit bit || indices.any fun index => index.testBit bit != first.testBit bit) := by
  induction indices generalizing acc with
  | nil => simp
  | cons index rest ih =>
    rw [List.foldl_cons, ih, Nat.testBit_or, Nat.testBit_xor, List.any_cons, Bool.or_assoc]

/-- The masks of a range: its indices agree from the depth on. -/
theorem rangeSplitMasks_spec (first : ℕ) (indices : List ℕ) :
    let masks := rangeSplitMasks first indices
    masks.lowMask = 2 ^ masks.depth - 1 ∧ masks.highMask =
      maxIndex &&& notU64 (2 ^ masks.depth - 1) ∧
      masks.depth ≤ indexBits ∧
      ∀ index ∈ indices, ∀ bit < indexBits, masks.depth ≤ bit → index.testBit bit =
        first.testBit bit := by
  obtain ⟨diff, hdiff⟩ :
      ∃ diff, diff = indices.foldl (fun acc index => acc ||| (index ^^^ first)) 0 := ⟨_, rfl⟩
  have hsame {bit : ℕ} (hclear : diff.testBit bit = false) {index : ℕ} (hmem : index ∈ indices) :
      index.testBit bit = first.testBit bit := by
    rw [hdiff, testBit_diff, Nat.zero_testBit, Bool.false_or, List.any_eq_false] at hclear
    simpa using hclear index hmem
  have hmask :
      (rangeSplitMasks first indices).lowMask = 2 ^ (rangeSplitMasks first indices).depth - 1 := by
    unfold rangeSplitMasks SplitMasks.depth
    simp only
    cases bitsDesc.find? _ with
    | none => rfl
    | some split => rfl
  refine ⟨hmask, ?_, ?_, fun index hmem bit hbit hdepth => hsame ?_ hmem⟩
  · rw [← hmask]
    rfl
  · cases hsplit : (rangeSplitMasks first indices).split with
    | none =>
      rw [SplitMasks.depth, hsplit]
      exact Nat.zero_le _
    | some split =>
      have hfound := List.mem_of_find?_eq_some (show bitsDesc.find? _ = some split from hsplit)
      rw [SplitMasks.depth, hsplit]
      rw [bitsDesc, List.mem_reverse, List.mem_range] at hfound
      exact hfound
  · have hsplit : (rangeSplitMasks first indices).split = bitsDesc.find? diff.testBit := by
      rw [hdiff]
      rfl
    have hmem' : bit ∈ bitsDesc := by
      rw [bitsDesc, List.mem_reverse, List.mem_range]
      exact hbit
    rw [SplitMasks.depth, hsplit] at hdepth
    cases hfind : bitsDesc.find? diff.testBit with
    | none => simpa using List.find?_eq_none.mp hfind bit hmem'
    | some split =>
      rw [hfind] at hdepth
      obtain ⟨-, before, after, hlist, hbefore⟩ := List.find?_eq_some_iff_append.mp hfind
      have hdesc : bitsDesc.Pairwise (· > ·) := by decide
      rw [hlist] at hdesc hmem'
      rcases List.mem_append.mp hmem' with hin | hin
      · simpa using hbefore bit hin
      · have hle : bit ≤ split := by
          rcases List.mem_cons.mp hin with rfl | hlater
          · exact le_rfl
          · exact ((List.pairwise_cons.mp (List.pairwise_append.mp hdesc).2.1).1 bit hlater).le
        simp only at hdepth
        omega

/-- Indices which agree from a position on have the same high part. -/
theorem and_highMask_eq {index first depth : ℕ}
    (hsame : ∀ bit < indexBits, depth ≤ bit → index.testBit bit = first.testBit bit) :
    index &&& (maxIndex &&& notU64 (2 ^ depth - 1)) =
      first &&& (maxIndex &&& notU64 (2 ^ depth - 1)) := by
  refine Nat.eq_of_testBit_eq fun bit => ?_
  simp only [Nat.testBit_and]
  by_cases hbit : bit < indexBits
  · rw [testBit_notU64 (by unfold indexBits at hbit; omega), Nat.testBit_two_pow_sub_one]
    by_cases hdepth : depth ≤ bit
    · rw [hsame bit hbit hdepth]
    · simp [not_le.mp hdepth]
  · have hmax : maxIndex.testBit bit = false := testBit_eq_false_of_le le_rfl (not_lt.mp hbit)
    simp [hmax]

/-- The trunk of a range and the branch of an index which shares it are the path of the index. -/
theorem hashBits_masks (sha256 : Value32 → Value32) (value : Value32) {first index : ℕ}
    {indices : List ℕ}
    (hsame : ∀ bit < indexBits, (rangeSplitMasks first indices).depth ≤ bit → index.testBit bit =
      first.testBit bit) :
    hashBits sha256
      (hashBits sha256 value (setBitsDesc (first &&& (rangeSplitMasks first indices).highMask)))
      (setBitsDesc (index &&& (rangeSplitMasks first indices).lowMask)) =
      generateFromSeed sha256 value index := by
  obtain ⟨hlow, hhigh, -, -⟩ := rangeSplitMasks_spec first indices
  have hpath := setBitsDesc_split index (rangeSplitMasks first indices).depth
  rw [and_highMask_eq hsame] at hpath
  rw [hlow, hhigh, ← hashBits_append, ← hpath, generateFromSeed_eq]

/-- An index of the range shares its trunk. -/
theorem hashBits_trunk (sha256 : Value32 → Value32) (value : Value32) {first index : ℕ}
    {indices : List ℕ} (hmem : index ∈ indices) :
    hashBits sha256
      (hashBits sha256 value (setBitsDesc (first &&& (rangeSplitMasks first indices).highMask)))
      (setBitsDesc (index &&& (rangeSplitMasks first indices).lowMask)) =
        generateFromSeed sha256 value index :=
  hashBits_masks sha256 value ((rangeSplitMasks_spec first indices).2.2.2 index hmem)

/-- Indices between two which agree from a position on agree with them. -/
theorem testBit_between {lo hi index depth : ℕ} (hhi : hi ≤ maxIndex) (hlo : lo ≤ index)
    (hle : index ≤ hi) (hsame : ∀ bit < indexBits, depth ≤ bit → hi.testBit bit = lo.testBit bit)
    {bit : ℕ} (hdepth : depth ≤ bit) : index.testBit bit = lo.testBit bit := by
  have hdiv : hi / 2 ^ depth = lo / 2 ^ depth := by
    refine Nat.eq_of_testBit_eq fun k => ?_
    rw [Nat.testBit_div_two_pow, Nat.testBit_div_two_pow]
    by_cases hk : k + depth < indexBits
    · exact hsame _ hk (Nat.le_add_left _ _)
    · rw [testBit_eq_false_of_le hhi (not_lt.mp hk),
        testBit_eq_false_of_le ((hlo.trans hle).trans hhi) (not_lt.mp hk)]
  have hmiddle : index / 2 ^ depth = lo / 2 ^ depth :=
    Nat.le_antisymm ((Nat.div_le_div_right hle).trans hdiv.le) (Nat.div_le_div_right hlo)
  have htest := congrArg (Nat.testBit · (bit - depth)) hmiddle
  simp only [Nat.testBit_div_two_pow, Nat.sub_add_cancel hdepth] at htest
  exact htest

/-- An index between the first and the last shares their trunk. -/
theorem hashBits_between (sha256 : Value32 → Value32) (value : Value32) {lo hi index : ℕ}
    (hhi : hi ≤ maxIndex) (hlo : lo ≤ index) (hle : index ≤ hi) :
    hashBits sha256
      (hashBits sha256 value (setBitsDesc (lo &&& (rangeSplitMasks lo [lo, hi]).highMask)))
      (setBitsDesc (index &&& (rangeSplitMasks lo [lo, hi]).lowMask)) =
        generateFromSeed sha256 value index := by
  have hends := (rangeSplitMasks_spec lo [lo, hi]).2.2.2 hi (by simp)
  exact hashBits_masks sha256 value fun bit _ hdepth => testBit_between hhi hlo hle hends hdepth

end Shachain2pc
