import Shachain2pc.Party.PrecomputeSession

/-!
# Two precompute sessions side by side

The wires of the two parties stay related: a relation indexed by masks holds of the wires
the parties carry and cache, because each program preserves it. The masks themselves are
equal at both parties, as the plans depend on nothing else. The results take the relation
as a parameter, so they also describe one party next to itself.
-/

namespace Shachain2pc

open Rust Calls MaxByKey

/-- How two parties are served: which replies two requests may have. -/
abbrev Serve := Ag2pcProgram × Ag2pcSecureWires → Ag2pcProgram × Ag2pcSecureWires →
  Ag2pcSecureWires → Ag2pcSecureWires → Prop

/-- The program makes one edge. -/
def OneHash (sha : Circuit) (program : Ag2pcProgram) : Prop :=
  ∃ bit < indexBits, ∃ first, chunkFromSha sha [bit] first = .ok program

/-- The service keeps a relation between the wires of the nodes with a mask. -/
structure NodeRelation (serve : Serve) (sha : Circuit) (seedA seedB : Ag2pcSecureWires)
    (R : ℕ → Ag2pcSecureWires → Ag2pcSecureWires → Prop) : Prop where
  builds : ∀ bits first, (∀ bit ∈ bits, bit < indexBits) → bits.length ≤ indexBits →
    ∃ program, chunkFromSha sha bits first = .ok program
  root : ∀ program x y, chunkFromSha sha [] true = .ok program →
    serve (program, seedA) (program, seedB) x y → R 0 x y
  first : ∀ bit program x y, bit < indexBits → chunkFromSha sha [bit] true = .ok program →
    serve (program, seedA) (program, seedB) x y → R (1 <<< bit) x y
  next : ∀ mask bit program x y x' y', mask ≤ maxIndex → bit < indexBits →
    (∀ high ∈ setBitsDesc mask, bit < high) → R mask x y →
    chunkFromSha sha [bit] false = .ok program →
    serve (program, x) (program, y) x' y' → R (mask ||| 1 <<< bit) x' y'

/-- Two cached nodes with one mask. -/
structure RelatedNodes (R : ℕ → Ag2pcSecureWires → Ag2pcSecureWires → Prop) (a b : CachedNode) :
    Prop where
  mask_eq : a.1 = b.1
  ne_zero : a.1 ≠ 0
  le_max : a.1 ≤ maxIndex
  wires : R a.1 a.2 b.2

/-- Two caches with the same keys, whose nodes are related and filed under their trailing zeros. -/
def RelatedCaches (R : ℕ → Ag2pcSecureWires → Ag2pcSecureWires → Prop) (a b : PrecomputeCache) :
    Prop :=
  ∀ key, Option.Rel (fun x y => RelatedNodes R x y ∧ key = trailingZeros x.1) (a key) (b key)

/-- Two paths at the same node. -/
structure RelatedPaths (R : ℕ → Ag2pcSecureWires → Ag2pcSecureWires → Prop) (a b : PrecomputePath) :
    Prop where
  mask_eq : a.mask = b.mask
  le_max : a.mask ≤ maxIndex
  carried : Option.Rel (R a.mask) a.carried b.carried
  start : a.carried.isNone = true ↔ a.mask = 0
  caches : RelatedCaches R a.cache b.cache

/-- Two sessions over one circuit, with the seeds the service starts from. -/
structure RelatedSessions (sha : Circuit) (seedA seedB : Ag2pcSecureWires)
    (R : ℕ → Ag2pcSecureWires → Ag2pcSecureWires → Prop) (a b : PrecomputeSession) : Prop where
  shaA : a.sha = sha
  shaB : b.sha = sha
  seedA : a.seedInputs = seedA
  seedB : b.seedInputs = seedB
  caches : RelatedCaches R a.cache b.cache

/-- The masks of a cache. -/
def PrecomputeCache.masks (cache : PrecomputeCache) : ℕ → Option ℕ :=
  fun key => (cache key).map Prod.fst

/-- How a computed mask changes the masks of a cache. -/
def insertMask (target : ℕ) (masks : ℕ → Option ℕ) (mask : ℕ) : ℕ → Option ℕ :=
  if retainCacheMaskForFuture mask target then
    Function.update masks (trailingZeros mask) (some mask)
  else masks

/-- The masks computed along a list of bits. -/
def pathMasks : ℕ → List ℕ → List ℕ
  | _, [] => []
  | mask, bit :: rest => (mask ||| 1 <<< bit) :: pathMasks (mask ||| 1 <<< bit) rest

variable {serve : Serve} {sha : Circuit} {seedA seedB : Ag2pcSecureWires}
  {R : ℕ → Ag2pcSecureWires → Ag2pcSecureWires → Prop} {a b : PrecomputeSession}
  {pathA pathB : PrecomputePath} {target : ℕ}

/-- Related options are both empty or both not. -/
theorem isNone_eq_of_rel {A B : Type} {r : A → B → Prop} {x : Option A} {y : Option B}
    (h : Option.Rel r x y) : y.isNone = x.isNone := by
  cases h <;> rfl

/-- A program which can be built is run by both parties. -/
theorem runChunk_ensures {bits : List ℕ} {first : Bool} {x y : Ag2pcSecureWires}
    {program : Ag2pcProgram} (hprogram : chunkFromSha sha bits first = .ok program) :
    Ensures serve (PrecomputeSession.runChunk sha bits first x)
      (PrecomputeSession.runChunk sha bits first y)
      fun runs x' y' => runs = [((program, x), (program, y))] ∧ serve (program, x)
        (program, y) x' y' := by
  rw [PrecomputeSession.runChunk, PrecomputeSession.runChunk, hprogram]
  exact .call fun x' y' hserve => .done ⟨rfl, hserve⟩

/-- A node put into both caches leaves them related. -/
theorem RelatedCaches.update {cacheA cacheB : PrecomputeCache} (h : RelatedCaches R cacheA cacheB)
    {x y : CachedNode} (hxy : RelatedNodes R x y) :
    RelatedCaches R (Function.update cacheA (trailingZeros x.1) (some x))
      (Function.update cacheB (trailingZeros x.1) (some y)) := by
  intro key
  by_cases hkey : key = trailingZeros x.1
  · rw [hkey, Function.update_self, Function.update_self]
    exact .some ⟨hxy, rfl⟩
  · rw [Function.update_of_ne hkey, Function.update_of_ne hkey]
    exact h key

/-- The masks of a cache with one more node. -/
theorem masks_update (cache : PrecomputeCache) (key : ℕ) (node : CachedNode) :
    PrecomputeCache.masks (Function.update cache key (some node)) =
      Function.update cache.masks key (some node.1) := by
  funext other
  rw [PrecomputeCache.masks]
  by_cases hother : other = key
  · rw [hother, Function.update_self, Function.update_self]
    rfl
  · rw [Function.update_of_ne hother, Function.update_of_ne hother]
    rfl

/-- Both parties prune the same nodes. -/
theorem RelatedCaches.prune {cacheA cacheB : PrecomputeCache} (h : RelatedCaches R cacheA cacheB)
    (target : ℕ) :
    RelatedCaches R (pruneCacheForTarget cacheA target) (pruneCacheForTarget cacheB target) := by
  intro key
  rw [pruneCacheForTarget, pruneCacheForTarget]
  have hkey := h key
  generalize cacheA key = x at hkey ⊢
  generalize cacheB key = y at hkey ⊢
  cases hkey with
  | none => exact .none
  | @some x y hxy =>
    rw [Option.filter_some, Option.filter_some, ← hxy.1.mask_eq]
    split
    · exact .some hxy
    · exact .none

/-- One edge: both parties run its program, and file the node under the same key. -/
theorem extendPath_ensures (hR : NodeRelation serve sha seedA seedB R)
    (hsessions : RelatedSessions sha seedA seedB R a b) (hpaths : RelatedPaths R pathA pathB)
    {bit : ℕ} (hbit : bit < indexBits) (hbelow : ∀ high ∈ setBitsDesc pathA.mask, bit < high) :
    Ensures serve (a.extendPath target pathA bit) (b.extendPath target pathB bit)
      fun runs resultA resultB => RelatedPaths R resultA resultB ∧
        (∃ run, runs = [run] ∧ OneHash sha run.1.1 ∧ run.2.1 = run.1.1) ∧
        resultA.mask = pathA.mask ||| 1 <<< bit ∧
        resultA.cache.masks = insertMask target pathA.cache.masks (pathA.mask ||| 1 <<< bit) := by
  obtain ⟨hle, hne, htz⟩ := or_bit_spec hpaths.le_max hbit hbelow
  obtain ⟨program, hprogram⟩ := hR.builds [bit] pathA.carried.isNone (by simpa using hbit)
    (show 1 ≤ indexBits by decide)
  have hnone := isNone_eq_of_rel hpaths.carried
  -- The program keeps the relation, from the seed or from the node reached so far.
  have hnode (x y : Ag2pcSecureWires) (hserve : serve (program, pathA.carried.getD seedA)
      (program, pathB.carried.getD seedB) x y) : R (pathA.mask ||| 1 <<< bit) x y := by
    have hstart := hpaths.start
    cases hA : pathA.carried with
    | none =>
      cases hB : pathB.carried with
      | none =>
        rw [hA] at hprogram hserve hstart
        rw [hB] at hserve
        rw [hstart.mp rfl, Nat.zero_or]
        exact hR.first bit program x y hbit hprogram hserve
      | some wiresB => rw [hA, hB] at hnone; cases hnone
    | some wiresA =>
      cases hB : pathB.carried with
      | none => rw [hA, hB] at hnone; cases hnone
      | some wiresB =>
        have hcarried := hpaths.carried
        rw [hA] at hprogram hserve hcarried
        rw [hB] at hserve hcarried
        cases hcarried with
        | some hwires =>
          exact hR.next _ bit program _ _ x y hpaths.le_max hbit hbelow hwires hprogram hserve
  rw [PrecomputeSession.extendPath, PrecomputeSession.extendPath, hsessions.shaA, hsessions.shaB,
    hsessions.seedA, hsessions.seedB, hnone, ← hpaths.mask_eq]
  refine (runChunk_ensures hprogram).bind fun runs x y hrun => .pure ?_
  obtain ⟨hruns, hserve⟩ := hrun
  have hwires := hnode x y hserve
  refine ⟨⟨rfl, hle, .some hwires, ⟨fun h => absurd h (by simp), fun h => absurd h hne⟩, ?_⟩,
    ⟨_, by rw [hruns, List.append_nil], ⟨bit, hbit, _, hprogram⟩, rfl⟩, rfl, ?_⟩
  · dsimp only
    split
    · exact hpaths.caches.update (x := (_, x)) (y := (_, y)) ⟨rfl, hne, hle, hwires⟩
    · exact hpaths.caches
  · rw [insertMask]
    split
    · exact masks_update _ _ _
    · rfl

/-- The edges of a path: one program for each bit, and the target's node at the end. -/
theorem extendAlong_ensures (hR : NodeRelation serve sha seedA seedB R)
    (hsessions : RelatedSessions sha seedA seedB R a b) (hpaths : RelatedPaths R pathA pathB)
    (htarget : target ≤ maxIndex) {bits : List ℕ}
    (hbits : setBitsDesc target = setBitsDesc pathA.mask ++ bits) :
    Ensures serve (a.extendAlong target pathA bits) (b.extendAlong target pathB bits)
      fun runs resultA resultB => RelatedPaths R resultA resultB ∧ runs.length = bits.length ∧
        (∀ run ∈ runs, OneHash sha run.1.1 ∧ run.2.1 = run.1.1) ∧ resultA.mask = target ∧
        resultA.cache.masks =
          (pathMasks pathA.mask bits).foldl (insertMask target) pathA.cache.masks := by
  induction bits generalizing pathA pathB with
  | nil =>
    rw [List.append_nil] at hbits
    have hmask := setBitsDesc_injective hpaths.le_max htarget hbits.symm
    exact .pure ⟨hpaths, rfl, fun _ h => absurd h List.not_mem_nil, hmask, rfl⟩
  | cons bit rest ih =>
    have hpair := setBitsDesc_pairwise target
    have hmem : bit ∈ setBitsDesc target := by
      rw [hbits]
      exact List.mem_append_right _ List.mem_cons_self
    have hbit : bit < indexBits := (mem_setBitsDesc.mp hmem).1
    rw [hbits] at hpair
    have hbelow (high : ℕ) (hhigh : high ∈ setBitsDesc pathA.mask) : bit < high :=
      (List.pairwise_append.mp hpair).2.2 high hhigh bit List.mem_cons_self
    refine (extendPath_ensures hR hsessions hpaths hbit hbelow).bind fun runs midA midB hmid => ?_
    obtain ⟨hmid, ⟨run, hruns, hone⟩, hmask, hcache⟩ := hmid
    have hbits' : setBitsDesc target = setBitsDesc midA.mask ++ rest := by
      rw [hmask, setBitsDesc_or_bit hbit hbelow, hbits, List.append_assoc]
      rfl
    refine (ih hmid hbits').mono fun runs' resultA resultB hresult => ?_
    obtain ⟨hresult, hlen, honeRest, hend, hcache'⟩ := hresult
    refine ⟨hresult, ?_, ?_, hend, ?_⟩
    · rw [hruns, List.singleton_append, List.length_cons, List.length_cons, hlen]
    · rw [hruns, List.singleton_append]
      exact List.forall_mem_cons.mpr ⟨hone, honeRest⟩
    · rw [hcache', hcache, hmask]
      rfl

/-- Related caches list related nodes. -/
theorem RelatedCaches.values {cacheA cacheB : PrecomputeCache} (h : RelatedCaches R cacheA cacheB) :
    List.Forall₂ (RelatedNodes R) cacheA.values cacheB.values := by
  rw [PrecomputeCache.values, PrecomputeCache.values]
  induction List.range 65 with
  | nil => exact .nil
  | cons key rest ih =>
    have hkey := h key
    rw [List.filterMap_cons, List.filterMap_cons]
    generalize cacheA key = x at hkey ⊢
    generalize cacheB key = y at hkey ⊢
    cases hkey with
    | none => exact ih
    | some hxy => exact .cons hxy.1 ih

/-- The nodes which derive a target, at both parties. -/
theorem relatedNodes_filter {nodesA nodesB : List CachedNode}
    (h : List.Forall₂ (RelatedNodes R) nodesA nodesB) (htarget : target ≤ maxIndex) :
    List.Forall₂ (fun x y => RelatedNodes R x y ∧ Derives x.1 target)
      (nodesA.filter fun node => canDeriveMask node.1 target)
      (nodesB.filter fun node => canDeriveMask node.1 target) := by
  induction h with
  | nil => exact .nil
  | @cons x y restA restB hxy _ ih =>
    rw [List.filter_cons, List.filter_cons, ← hxy.mask_eq]
    split
    · next hderive => exact .cons ⟨hxy, (canDeriveMask_iff hxy.le_max htarget).mp hderive⟩ ih
    · exact ih

/-- Both parties choose the same parent, which derives the target. -/
theorem bestParent_rel (hsessions : RelatedSessions sha seedA seedB R a b)
    (htarget : target ≤ maxIndex) :
    Option.Rel (fun x y => RelatedNodes R x y ∧ Derives x.1 target) (a.bestParent target)
      (b.bestParent target) :=
  maxByKey_rel (fun _ _ h => congrArg countOnes h.1.mask_eq)
    (relatedNodes_filter hsessions.caches.values htarget)

/-- Both parties start a target's path at the same node, which derives the target. -/
theorem startPath_rel (hsessions : RelatedSessions sha seedA seedB R a b)
    (htarget : target ≤ maxIndex) :
    RelatedPaths R (a.startPath target) (b.startPath target) ∧
      Derives (a.startPath target).mask target := by
  have hparent := bestParent_rel hsessions htarget
  rw [PrecomputeSession.startPath, PrecomputeSession.startPath]
  generalize a.bestParent target = x at hparent ⊢
  generalize b.bestParent target = y at hparent ⊢
  cases hparent with
  | none =>
    refine ⟨⟨rfl, Nat.zero_le _, .none, ⟨fun _ => rfl, fun _ => rfl⟩, hsessions.caches⟩,
      derives_zero⟩
  | @some x y hxy =>
    exact ⟨⟨hxy.1.mask_eq, hxy.1.le_max, .some hxy.1.wires,
      ⟨fun h => absurd h (by simp), fun h => absurd h hxy.1.ne_zero⟩, hsessions.caches⟩, hxy.2⟩

/-- The missing bits are those of the path. -/
theorem missingBits_eq (s : PrecomputeSession) (htarget : target ≤ maxIndex) :
    s.missingBits target = setBitsDesc (target &&& notU64 (s.startPath target).mask) := by
  rw [PrecomputeSession.missingBits, PrecomputeSession.startPath]
  cases s.bestParent target with
  | none =>
    have hzero := setBitsDesc_append_missing (Nat.zero_le _) htarget
      ((derives_iff (Nat.zero_le _) htarget).mp derives_zero)
    have hnil : setBitsDesc 0 = [] := List.prefix_nil.mp (derives_zero (j := 0))
    rw [hnil, List.nil_append] at hzero
    exact hzero
  | some node => rfl

/-- Related sessions plan the same units. -/
theorem plannedCheckedUnits_eq (hsessions : RelatedSessions sha seedA seedB R a b)
    (index : Index48) :
    a.plannedCheckedUnits index = b.plannedCheckedUnits index := by
  rw [PrecomputeSession.plannedCheckedUnits, PrecomputeSession.plannedCheckedUnits,
    missingBits_eq a index.le_max, missingBits_eq b index.le_max,
    (startPath_rel hsessions index.le_max).1.mask_eq]

/-- The masks of a cache after a target. -/
def masksAfter (masks : ℕ → Option ℕ) (start target : ℕ) : ℕ → Option ℕ :=
  if target = 0 ∨ start = target then masks
  else fun key =>
    ((pathMasks start (setBitsDesc (target &&& notU64 start))).foldl (insertMask target)
    masks key).filter fun mask => retainCacheMaskForFuture mask target

/-- The masks which pruning leaves. -/
theorem masks_prune (cache : PrecomputeCache) (target : ℕ) :
    (pruneCacheForTarget cache target).masks =
      fun key => (cache.masks key).filter fun mask => retainCacheMaskForFuture mask target := by
  funext key
  rw [PrecomputeCache.masks, PrecomputeCache.masks, pruneCacheForTarget]
  cases cache key with
  | none => rfl
  | some node =>
    rw [Option.filter_some, Option.map_some, Option.filter_some]
    split <;> rfl

/-- A call on both sides: the sessions stay related, the returned wires are those of the target's
node, and a nonzero target makes the planned edges. -/
theorem precomputeTarget_ensures (hR : NodeRelation serve sha seedA seedB R)
    (hsessions : RelatedSessions sha seedA seedB R a b) (index : Index48) :
    Ensures serve (a.precomputeTarget index) (b.precomputeTarget index)
      fun runs resultA resultB => RelatedSessions sha seedA seedB R resultA.2 resultB.2 ∧
        (∃ x y, R index.get x y ∧ resultA.1 = x.stripLabelsForReveal ∧
          resultB.1 = y.stripLabelsForReveal) ∧
        (index.get ≠ 0 → runs.length = a.plannedCheckedUnits index ∧
          ∀ run ∈ runs, OneHash sha run.1.1 ∧ run.2.1 = run.1.1) ∧
        resultA.2.cache.masks =
          masksAfter a.cache.masks (a.startPath index.get).mask index.get := by
  obtain ⟨hpaths, hderives⟩ := startPath_rel hsessions index.le_max
  rw [PrecomputeSession.precomputeTarget, PrecomputeSession.precomputeTarget]
  dsimp only
  by_cases hzero : index.get = 0
  · -- The root node.
    obtain ⟨program, hprogram⟩ := hR.builds [] true (fun _ h => absurd h List.not_mem_nil)
      (show 0 ≤ indexBits by decide)
    rw [if_pos hzero, if_pos hzero, hsessions.shaA, hsessions.shaB, hsessions.seedA,
      hsessions.seedB]
    refine (runChunk_ensures hprogram).bind fun runs x y hrun => .pure ?_
    refine ⟨hsessions, ⟨x, y, ?_, rfl, rfl⟩, fun hne => absurd hzero hne, ?_⟩
    · rw [hzero]
      exact hR.root program x y hprogram hrun.2
    · rw [masksAfter, if_pos (.inl hzero)]
  rw [if_neg hzero, if_neg hzero, ← hpaths.mask_eq]
  by_cases hsame : (a.startPath index.get).mask = index.get
  · -- The target is cached.
    rw [if_pos hsame, if_pos hsame]
    refine .pure ⟨hsessions, ?_, fun _ => ⟨?_, fun _ h => absurd h List.not_mem_nil⟩, ?_⟩
    · have hcarried := hpaths.carried
      have hstart := hpaths.start
      rw [hsame] at hcarried hstart
      generalize (a.startPath index.get).carried = x at hcarried hstart ⊢
      generalize (b.startPath index.get).carried = y at hcarried hstart ⊢
      cases hcarried with
      | none => exact absurd (hstart.mp rfl) hzero
      | some hwires => exact ⟨_, _, hwires, rfl, rfl⟩
    · have hmissing := setBitsDesc_append_missing index.le_max index.le_max
        ((derives_iff index.le_max index.le_max).mp (Derives.refl index.get))
      rw [PrecomputeSession.plannedCheckedUnits, missingBits_eq a index.le_max, hsame,
        List.self_eq_append_right.mp hmissing]
      rfl
    · rw [masksAfter, if_pos (.inr hsame)]
  · -- The path from the parent.
    have hbits := setBitsDesc_append_missing hpaths.le_max index.le_max
      ((derives_iff hpaths.le_max index.le_max).mp hderives)
    rw [if_neg hsame, if_neg hsame]
    refine (extendAlong_ensures hR hsessions hpaths index.le_max hbits).bind
      fun runs pathA pathB hend => .pure ?_
    obtain ⟨hend, hlen, hone, hmask, hcache⟩ := hend
    have hcarried := hend.carried
    have hstart := hend.start
    rw [hmask] at hcarried hstart
    rw [List.append_nil]
    refine ⟨⟨hsessions.shaA, hsessions.shaB, hsessions.seedA, hsessions.seedB, hend.caches.prune _⟩,
      ?_, fun _ => ⟨?_, hone⟩, ?_⟩
    · dsimp only
      generalize pathA.carried = x at hcarried hstart ⊢
      generalize pathB.carried = y at hcarried hstart ⊢
      cases hcarried with
      | none => exact absurd (hstart.mp rfl) hzero
      | some hwires => exact ⟨_, _, hwires, rfl, rfl⟩
    · rw [hlen, PrecomputeSession.plannedCheckedUnits, missingBits_eq a index.le_max]
    · rw [masksAfter, if_neg (not_or.mpr ⟨hzero, hsame⟩)]
      dsimp only
      rw [masks_prune, hcache]
      have hstartCache : (a.startPath index.get).cache = a.cache := by
        rw [PrecomputeSession.startPath]
        split <;> rfl
      rw [hstartCache]

end Shachain2pc
