import Shachain2pc.Party.PrecomputePath

/-!
# The pruned cache loses nothing

The session keeps a mask after a target only when the mask is the target or derives a later
index, and it keeps one mask for each number of trailing zeros. The masks computed for
non-decreasing targets never go beyond the last target, so a mask that derives the next
one derives every index in between. Two masks that derive one target and have equally many
trailing zeros are equal: neither pruning nor overwriting loses a parent.
-/

namespace Shachain2pc

open Rust Calls MaxByKey

/-- The best parent among all masks computed so far. -/
def unboundedParent (all : List ℕ) (target : ℕ) : Option ℕ :=
  maxByKey countOnes (all.filter fun mask => canDeriveMask mask target)

/-- What an unbounded cache plans for a target. -/
def unboundedUnits (all : List ℕ) (index : Index48) : ℕ :=
  match unboundedParent all index.get with
  | none => (setBitsDesc index.get).length
  | some mask => (setBitsDesc (index.get &&& notU64 mask)).length

/-- An unbounded cache keeps every mask of a target's path. -/
def unboundedStep (all : List ℕ) (index : Index48) : List ℕ :=
  let start := (unboundedParent all index.get).getD 0
  all ++ pathMasks start (setBitsDesc (index.get &&& notU64 start))

/-- The masks an unbounded cache has computed for a list of targets. -/
def unboundedMasks (targets : List Index48) : List ℕ := targets.foldl unboundedStep []

/-- The session after a list of targets, with the programs run for each. -/
inductive PrecomputeSession.Run (s : PrecomputeSession) :
    List (Index48 × List Ag2pcProgram) → PrecomputeSession → Prop where
  | start : Run s [] s
  | target {history : List (Index48 × List Ag2pcProgram)} {mid last : PrecomputeSession}
      {index : Index48} {calls : List ((Ag2pcProgram × Ag2pcSecureWires) × Ag2pcSecureWires)}
      {wires : Ag2pcSecureWires} : Run s history mid →
        Returns (mid.precomputeTarget index) calls (wires, last) →
        Run s (history ++ [(index, calls.map fun call => call.1.1)]) last

/-- Nonzero targets in non-decreasing order. -/
def Ascending (targets : List Index48) : Prop :=
  (∀ index ∈ targets, index.get ≠ 0) ∧ targets.Pairwise fun i j => i.get ≤ j.get

/-- The bits of an index are counted. -/
theorem countOnes_eq {index : ℕ} (hindex : index ≤ maxIndex) :
    countOnes index = (setBitsDesc index).length := by
  have hsplit : List.range 64 = List.range 48 ++ (List.range 16).map (48 + ·) := by decide
  have hnil : ((List.range 16).map (48 + ·)).filter (index.testBit ·) = [] := by
    rw [List.filter_eq_nil_iff]
    intro bit hbit
    obtain ⟨k, -, rfl⟩ := List.mem_map.mp hbit
    rw [testBit_eq_false_of_le hindex (Nat.le_add_right 48 k)]
    decide
  rw [countOnes, hsplit, List.filter_append, hnil, List.append_nil, setBitsDesc, bitsDesc,
    List.filter_reverse, List.length_reverse]
  rfl

variable {i j : ℕ}

/-- A mask has at most the bits of a target it derives. -/
theorem Derives.countOnes_le (hi : i ≤ maxIndex) (hj : j ≤ maxIndex) (h : Derives i j) :
    countOnes i ≤ countOnes j := by
  rw [countOnes_eq hi, countOnes_eq hj]
  exact h.length_le

/-- Masks which derive one target are equal when they have equally many bits. -/
theorem Derives.eq_of_countOnes {m m' : ℕ} (hm : m ≤ maxIndex) (hm' : m' ≤ maxIndex)
    (h : Derives m j) (h' : Derives m' j) (hcount : countOnes m = countOnes m') : m = m' := by
  rw [countOnes_eq hm, countOnes_eq hm'] at hcount
  apply setBitsDesc_injective hm hm'
  exact (List.prefix_of_prefix_length_le h h' hcount.le).eq_of_length hcount

/-- Every mask of a path derives the path's target, which is the last of them. -/
theorem pathMasks_spec {start target : ℕ} (hstart : start ≤ maxIndex) (htarget : target ≤ maxIndex)
    {bits : List ℕ} (hbits : setBitsDesc target = setBitsDesc start ++ bits) :
    (∀ m ∈ pathMasks start bits, m ≠ 0 ∧ m ≤ maxIndex ∧ Derives m target) ∧
      (bits ≠ [] → target ∈ pathMasks start bits) := by
  induction bits generalizing start with
  | nil => exact ⟨fun _ h => absurd h List.not_mem_nil, fun h => absurd rfl h⟩
  | cons bit rest ih =>
    have hpair := setBitsDesc_pairwise target
    have hmem : bit ∈ setBitsDesc target := by
      rw [hbits]
      exact List.mem_append_right _ List.mem_cons_self
    have hbit : bit < indexBits := (mem_setBitsDesc.mp hmem).1
    rw [hbits] at hpair
    have hbelow (high : ℕ) (hhigh : high ∈ setBitsDesc start) : bit < high :=
      (List.pairwise_append.mp hpair).2.2 high hhigh bit List.mem_cons_self
    obtain ⟨hle, hne, -⟩ := or_bit_spec hstart hbit hbelow
    have hbits' : setBitsDesc target = setBitsDesc (start ||| 1 <<< bit) ++ rest := by
      rw [setBitsDesc_or_bit hbit hbelow, hbits, List.append_assoc]
      rfl
    obtain ⟨hall, hlast⟩ := ih hle hbits'
    refine ⟨List.forall_mem_cons.mpr ⟨⟨hne, hle, ⟨rest, hbits'.symm⟩⟩, hall⟩, fun _ => ?_⟩
    cases rest with
    | nil =>
      rw [List.append_nil] at hbits'
      rw [setBitsDesc_injective htarget hle hbits']
      exact List.mem_cons_self
    | cons next more => exact List.mem_cons_of_mem _ (hlast (List.cons_ne_nil _ _))

/-- Inserting masks adds nothing else. -/
theorem foldl_insertMask_sub {target key m : ℕ} {masks : ℕ → Option ℕ} {added : List ℕ}
    (h : added.foldl (insertMask target) masks key = some m) :
    (m ∈ added ∧ key = trailingZeros m) ∨ masks key = some m := by
  induction added generalizing masks with
  | nil => exact .inr h
  | cons first rest ih =>
    rcases ih h with hnew | hold
    · exact .inl ⟨List.mem_cons_of_mem _ hnew.1, hnew.2⟩
    · rw [insertMask] at hold
      split at hold
      · by_cases hkey : key = trailingZeros first
        · rw [hkey, Function.update_self] at hold
          cases hold
          exact .inl ⟨List.mem_cons_self, hkey⟩
        · rw [Function.update_of_ne hkey] at hold
          exact .inr hold
      · exact .inr hold

/-- A mask is filed after an insertion when it was filed before or is inserted, and no other
inserted mask takes its key. -/
theorem foldl_insertMask_mem {target m : ℕ} {masks : ℕ → Option ℕ} {added : List ℕ}
    (hretain : retainCacheMaskForFuture m target = true)
    (hm : m ∈ added ∨ masks (trailingZeros m) = some m)
    (hkeys : ∀ other ∈ added, trailingZeros other = trailingZeros m → other = m) :
    added.foldl (insertMask target) masks (trailingZeros m) = some m := by
  induction added generalizing masks with
  | nil => exact hm.resolve_left List.not_mem_nil
  | cons first rest ih =>
    refine ih ?_ fun other hother => hkeys other (List.mem_cons_of_mem _ hother)
    by_cases hfirst : first = m
    · right
      rw [hfirst, insertMask, if_pos hretain, Function.update_self]
    · rcases hm with hmem | hfiled
      · exact .inl ((List.mem_cons.mp hmem).resolve_left (Ne.symm hfirst))
      · right
        rw [insertMask]
        split
        · rw [Function.update_of_ne fun h => hfirst (hkeys first List.mem_cons_self h.symm)]
          exact hfiled
        · exact hfiled

/-- What the cache keeps of all masks computed up to a target: those which derive a later index, and
the target itself. -/
structure Keeps (target : ℕ) (all : List ℕ) (masks : ℕ → Option ℕ) : Prop where
  bounded : ∀ m ∈ all, m ≠ 0 ∧ m ≤ target
  filed : ∀ key m, masks key = some m → m ∈ all ∧ key = trailingZeros m
  retained : ∀ m ∈ all, retainCacheMaskForFuture m target = true → masks (trailingZeros m) = some m
  last : all = [] ∨ target ∈ all

/-- A mask is retained when it is the target or derives a later index. -/
theorem retain_iff {mask target : ℕ} : retainCacheMaskForFuture mask target = true ↔
    mask = target ∨ target < maxDerivableMask mask := by
  rw [retainCacheMaskForFuture, Bool.or_eq_true, beq_iff_eq, decide_eq_true_eq]

variable {t target : ℕ} {all : List ℕ} {masks : ℕ → Option ℕ}

/-- For every parent of a later target the cache holds one which is as good. -/
theorem Keeps.covers (h : Keeps t all masks) (hle : t ≤ target) (htarget : target ≤ maxIndex)
    {p : ℕ} (hp : p ∈ all) (hderives : Derives p target) :
    ∃ m, masks (trailingZeros m) = some m ∧ Derives m target ∧ countOnes p ≤ countOnes m := by
  have hpmax : p ≤ maxIndex := ((h.bounded p hp).2.trans hle).trans htarget
  have hmax := hderives.le_maxDerivableMask hpmax htarget
  by_cases hlt : t < maxDerivableMask p
  · exact ⟨p, h.retained p hp (retain_iff.mpr (.inr hlt)), hderives, le_rfl⟩
  · -- The last target is the largest index the mask derives, so it is this target again.
    have heq : t = target := by omega
    have hmem := h.last.resolve_left (List.ne_nil_of_mem hp)
    refine ⟨t, h.retained t hmem (retain_iff.mpr (.inl rfl)), heq ▸ Derives.refl t, ?_⟩
    rw [heq]
    exact hderives.countOnes_le hpmax htarget

/-- A filed mask is listed with its wires. -/
theorem mem_values {cache : PrecomputeCache} {m : ℕ} (hm : m ≤ maxIndex) (hne : m ≠ 0)
    (h : cache.masks (trailingZeros m) = some m) : ∃ node ∈ cache.values, node.1 = m := by
  obtain ⟨node, hnode, hmask⟩ := Option.map_eq_some_iff.mp h
  refine ⟨node, List.mem_filterMap.mpr ⟨trailingZeros m, List.mem_range.mpr ?_, hnode⟩, hmask⟩
  exact (trailingZeros_lt hm hne).trans (by decide)

/-- A listed node's mask is filed. -/
theorem filed_of_mem_values {cache : PrecomputeCache} {node : CachedNode}
    (h : node ∈ cache.values) :
    ∃ key, cache.masks key = some node.1 := by
  obtain ⟨key, -, hkey⟩ := List.mem_filterMap.mp h
  exact ⟨key, by rw [PrecomputeCache.masks, hkey]; rfl⟩

/-- The session chooses the parent which the unbounded cache would choose. -/
theorem Keeps.bestParent_eq {s : PrecomputeSession} (h : Keeps t all s.cache.masks)
    (hle : t ≤ target) (htarget : target ≤ maxIndex) :
    (s.bestParent target).map Prod.fst = unboundedParent all target := by
  have hmax {m : ℕ} (hm : m ∈ all) : m ≤ maxIndex := ((h.bounded m hm).2.trans hle).trans htarget
  have hlisted {node : CachedNode} (hnode : node ∈ s.cache.values) : node.1 ∈ all := by
    obtain ⟨key, hkey⟩ := filed_of_mem_values hnode
    exact (h.filed key _ hkey).1
  -- Whatever parent the unbounded cache has, the session has one which is as good.
  have hcover {p : ℕ} (hp : p ∈ all) (hderive : canDeriveMask p target = true) :
      ∃ node ∈ s.cache.values.filter fun node => canDeriveMask node.1 target,
        countOnes p ≤ countOnes node.1 := by
    obtain ⟨m, hfiled, hderives, hcount⟩ :=
      h.covers hle htarget hp ((canDeriveMask_iff (hmax hp) htarget).mp hderive)
    have hm := (h.filed _ m hfiled).1
    obtain ⟨node, hnode, hmask⟩ := mem_values (hmax hm) (h.bounded m hm).1 hfiled
    refine ⟨node, List.mem_filter.mpr ⟨hnode, ?_⟩, hmask ▸ hcount⟩
    rw [hmask]
    exact (canDeriveMask_iff (hmax hm) htarget).mpr hderives
  have hsession :
      ∀ best, s.bestParent target = best → best.map Prod.fst = unboundedParent all target := by
    intro best hbest
    cases hunbounded : unboundedParent all target with
    | none =>
      have hnil := maxByKey_eq_none.mp hunbounded
      cases best with
      | none => rfl
      | some node =>
        obtain ⟨hmem, -⟩ := maxByKey_spec hbest
        obtain ⟨hnode, hderive⟩ := List.mem_filter.mp hmem
        exact absurd hderive (List.filter_eq_nil_iff.mp hnil _ (hlisted hnode))
    | some p =>
      obtain ⟨hp, hpmax⟩ := maxByKey_spec hunbounded
      obtain ⟨hp, hpderive⟩ := List.mem_filter.mp hp
      obtain ⟨other, hother, hcount⟩ := hcover hp hpderive
      cases best with
      | none =>
        rw [maxByKey_eq_none.mp hbest] at hother
        exact absurd hother List.not_mem_nil
      | some node =>
        obtain ⟨hmem, hbestMax⟩ := maxByKey_spec hbest
        obtain ⟨hnode, hderive⟩ := List.mem_filter.mp hmem
        have hall := hlisted hnode
        have hle' := hpmax node.1 (List.mem_filter.mpr ⟨hall, hderive⟩)
        have hge := hcount.trans (hbestMax other hother)
        exact congrArg some (((canDeriveMask_iff (hmax hall) htarget).mp hderive).eq_of_countOnes
          (hmax hall) (hmax hp) ((canDeriveMask_iff (hmax hp) htarget).mp hpderive)
            (hle'.antisymm hge))
  exact hsession _ rfl

/-- A session starts a target's path at its best parent, or at the seed. -/
theorem startPath_mask (s : PrecomputeSession) (target : ℕ) :
    (s.startPath target).mask = ((s.bestParent target).map Prod.fst).getD 0 := by
  rw [PrecomputeSession.startPath]
  cases s.bestParent target <;> rfl

/-- A parent among the masks derives the target. -/
theorem unboundedParent_spec (htarget : target ≤ maxIndex)
    (hall : ∀ m ∈ all, m ≠ 0 ∧ m ≤ maxIndex) :
    (unboundedParent all target).getD 0 ≤ maxIndex ∧
      Derives ((unboundedParent all target).getD 0) target ∧
      ((unboundedParent all target).getD 0 = 0 ∨ (unboundedParent all target).getD 0 ∈ all) := by
  cases hparent : unboundedParent all target with
  | none => exact ⟨Nat.zero_le _, derives_zero, .inl rfl⟩
  | some p =>
    obtain ⟨hmem, -⟩ := maxByKey_spec hparent
    obtain ⟨hp, hderive⟩ := List.mem_filter.mp hmem
    have hle := (hall p hp).2
    exact ⟨hle, (canDeriveMask_iff hle htarget).mp hderive, .inr hp⟩

/-- An empty cache keeps all of no masks. -/
theorem keeps_none : Keeps 0 [] fun _ => none where
  bounded _ h := absurd h List.not_mem_nil
  filed _ _ h := by cases h
  retained _ h := absurd h List.not_mem_nil
  last := .inl rfl

/-- A target in order preserves what the cache keeps, and its mask is computed. -/
theorem Keeps.step (h : Keeps t all masks) (hle : t ≤ target) (htarget : target ≤ maxIndex)
    (hne : target ≠ 0) {start : ℕ} (hstart : start = (unboundedParent all target).getD 0) :
    Keeps target (all ++ pathMasks start (setBitsDesc (target &&& notU64 start)))
        (masksAfter masks start target) ∧
      target ∈ all ++ pathMasks start (setBitsDesc (target &&& notU64 start)) := by
  have hall (m : ℕ) (hm : m ∈ all) : m ≠ 0 ∧ m ≤ maxIndex :=
    ⟨(h.bounded m hm).1, ((h.bounded m hm).2.trans hle).trans htarget⟩
  obtain ⟨hstartMax, hstartDerives, hstartMem⟩ := unboundedParent_spec htarget hall
  rw [← hstart] at hstartMax hstartDerives hstartMem
  have hbits := setBitsDesc_append_missing hstartMax htarget
    ((derives_iff hstartMax htarget).mp hstartDerives)
  obtain ⟨hpath, hend⟩ := pathMasks_spec hstartMax htarget hbits
  generalize hadded : pathMasks start (setBitsDesc (target &&& notU64 start)) = added at *
  have hbounded (m : ℕ) (hm : m ∈ all ++ added) : m ≠ 0 ∧ m ≤ target := by
    rcases List.mem_append.mp hm with hold | hnew
    · exact ⟨(h.bounded m hold).1, (h.bounded m hold).2.trans hle⟩
    · exact ⟨(hpath m hnew).1, (hpath m hnew).2.2.le (hpath m hnew).2.1 htarget⟩
  by_cases hsame : start = target
  · -- The target is its own parent, so it is the last target.
    have hmem := hstartMem.resolve_left (hsame ▸ hne)
    rw [hsame] at hmem
    have heq : t = target := hle.antisymm (h.bounded target hmem).2
    have hself := setBitsDesc_append_missing htarget htarget
      ((derives_iff htarget htarget).mp (Derives.refl target))
    have hnil : added = [] := by
      rw [← hadded, hsame, List.self_eq_append_right.mp hself]
      rfl
    rw [masksAfter, if_pos (.inr hsame), hnil, List.append_nil]
    exact ⟨heq ▸ h, hmem⟩
  · have hnew : target ∈ added := by
      refine hend fun hnil => hsame ?_
      rw [hnil, List.append_nil] at hbits
      exact setBitsDesc_injective hstartMax htarget hbits.symm
    rw [masksAfter, if_neg (not_or.mpr ⟨hne, hsame⟩), hadded]
    have hlast := List.mem_append_right all hnew
    refine ⟨⟨hbounded, fun key m hkey => ?_, fun m hm hretain => ?_, .inr hlast⟩, hlast⟩
    · obtain ⟨hkey, -⟩ := Option.filter_eq_some_iff.mp hkey
      rcases foldl_insertMask_sub hkey with hin | hold
      · exact ⟨List.mem_append_right _ hin.1, hin.2⟩
      · exact ⟨List.mem_append_left _ (h.filed key m hold).1, (h.filed key m hold).2⟩
    · have hderives : Derives m target := by
        rcases List.mem_append.mp hm with hold | hin
        · rcases retain_iff.mp hretain with heq | hlt
          · exact heq ▸ Derives.refl m
          · -- An old mask is at most the last target, so it derives every index up to its maximum.
            obtain ⟨hmne, hmle⟩ := hall m hold
            rw [maxDerivableMask_eq hmle hmne] at hlt
            exact (derives_iff_interval hmle htarget hmne).mpr ⟨(hbounded m hm).2, hlt.le⟩
        · exact (hpath m hin).2.2
      rw [Option.filter_eq_some_iff]
      refine ⟨foldl_insertMask_mem hretain ?_ fun other hother htz => ?_, hretain⟩
      · rcases List.mem_append.mp hm with hold | hin
        · rcases retain_iff.mp hretain with heq | hlt
          · exact .inl (heq ▸ hnew)
          · exact .inr (h.retained m hold (retain_iff.mpr (.inr (hle.trans_lt hlt))))
        · exact .inl hin
      · obtain ⟨hone, hole, hoderives⟩ := hpath other hother
        exact hoderives.eq_of_trailingZeros hole ((hbounded m hm).2.trans htarget) htarget hone
          (hbounded m hm).1 hderives htz

/-- The session plans what the unbounded cache would plan. -/
theorem Keeps.plannedCheckedUnits_eq {s : PrecomputeSession} {index : Index48}
    (h : Keeps t all s.cache.masks) (hle : t ≤ index.get) :
    s.plannedCheckedUnits index = unboundedUnits all index := by
  have hparent := h.bestParent_eq hle index.le_max
  rw [PrecomputeSession.plannedCheckedUnits, PrecomputeSession.missingBits,
    unboundedUnits, ← hparent]
  cases s.bestParent index.get <;> rfl

section runs

variable {compress : Block64 → Value32} {sha : Circuit} {seedInputs : Ag2pcSecureWires}
  {history : List (Index48 × List Ag2pcProgram)} {s : PrecomputeSession}

/-- Every chunk of the gadget is built. -/
theorem DirectGadget.builds (hgadget : DirectGadget compress sha) (bits : List ℕ) (first : Bool)
    (hbits : ∀ bit ∈ bits, bit < indexBits) (hcount : bits.length ≤ indexBits) :
    ∃ program, chunkFromSha sha bits first = .ok program := by
  have hinput : ∃ x v, ChunkInput first x v := by
    cases first with
    | false => exact ⟨_, _, .value ⟨.replicate 32 0⟩⟩
    | true => exact ⟨_, _, .shares ⟨.replicate 32 0⟩ ⟨.replicate 32 0⟩⟩
  obtain ⟨x, v, hin⟩ := hinput
  obtain ⟨program, hprogram, -⟩ := chunkFromSha_spec hgadget hbits hcount hin
  exact ⟨program, hprogram⟩

/-- One party next to itself. -/
theorem DirectGadget.nodeRelation (hgadget : DirectGadget compress sha) (seed : Ag2pcSecureWires) :
    NodeRelation (fun _ _ x y => x = y) sha seed seed fun _ _ _ => True where
  builds := hgadget.builds
  root := fun _ _ _ _ _ => trivial
  first := fun _ _ _ _ _ _ _ => trivial
  next := fun _ _ _ _ _ _ _ _ _ _ _ _ _ => trivial

/-- A new session is related to itself. -/
theorem setup_related (sha : Circuit) (seedA seedB : Ag2pcSecureWires)
    (R : ℕ → Ag2pcSecureWires → Ag2pcSecureWires → Prop) :
    RelatedSessions sha seedA seedB R (.setup sha seedA) (.setup sha seedB) :=
  ⟨rfl, rfl, rfl, rfl, fun _ => .none⟩

/-- Every session reached is related to itself. -/
theorem PrecomputeSession.Run.related (hgadget : DirectGadget compress sha)
    (hrun : (PrecomputeSession.setup sha seedInputs).Run history s) :
    RelatedSessions sha seedInputs seedInputs (fun _ _ _ => True) s s := by
  induction hrun with
  | start => exact setup_related sha seedInputs seedInputs _
  | target _ hcall ih =>
    exact ((precomputeTarget_ensures (hgadget.nodeRelation seedInputs) ih _).of_returns hcall).1

/-- Targets in order stay in order without the last. -/
theorem Ascending.init {targets : List Index48} {index : Index48}
    (h : Ascending (targets ++ [index])) :
    Ascending targets :=
  ⟨fun other hother => h.1 other (List.mem_append_left _ hother), (List.pairwise_append.mp h.2).1⟩

/-- The last of some targets in order is the largest. -/
theorem Ascending.le_last {targets : List Index48} {index : Index48}
    (h : Ascending (targets ++ [index])) : ∀ other ∈ targets, other.get ≤ index.get :=
  fun other hother => (List.pairwise_append.mp h.2).2.2 other hother index List.mem_cons_self

/-- The targets from one on are in order. -/
theorem ascending_of_range {targets : List Index48} {n : ℕ}
    (h : targets.map Index48.get = List.range' 1 n) : Ascending targets := by
  constructor
  · intro index hindex hzero
    have hmem : index.get ∈ List.range' 1 n := h ▸ List.mem_map_of_mem hindex
    rw [List.mem_range'_1] at hmem
    omega
  · have hpair : (List.range' 1 n).Pairwise (· ≤ ·) := List.pairwise_le_range' (s := 1) (n := n)
    rw [← h, List.pairwise_map] at hpair
    exact hpair

/-- The session keeps what it needs of the masks computed for targets in order. -/
theorem PrecomputeSession.Run.keeps (hgadget : DirectGadget compress sha)
    (hrun : (PrecomputeSession.setup sha seedInputs).Run history s)
    (hasc : Ascending (history.map Prod.fst)) :
    ∃ t, Keeps t (unboundedMasks (history.map Prod.fst)) s.cache.masks ∧
      (∀ bound, (∀ index ∈ history.map Prod.fst, index.get ≤ bound) → t ≤ bound) ∧
      ∀ index ∈ history.map Prod.fst, index.get ∈ unboundedMasks (history.map Prod.fst) := by
  induction hrun with
  | start => exact ⟨0, keeps_none, fun _ _ => Nat.zero_le _, fun _ h => absurd h List.not_mem_nil⟩
  | @target history mid last index calls wires hrun hcall ih =>
    rw [List.map_append, List.map_singleton] at hasc ⊢
    obtain ⟨t, hkeeps, horder, hmem⟩ := ih hasc.init
    have hle := horder index.get hasc.le_last
    have hne : index.get ≠ 0 := hasc.1 index (List.mem_append_right _ List.mem_cons_self)
    have hmasks := ((precomputeTarget_ensures (hgadget.nodeRelation seedInputs)
      (hrun.related hgadget) index).of_returns hcall).2.2.2
    have hstart : (mid.startPath index.get).mask =
        (unboundedParent (unboundedMasks (history.map Prod.fst)) index.get).getD 0 := by
      rw [startPath_mask, hkeeps.bestParent_eq hle index.le_max]
    have hall : unboundedMasks (history.map Prod.fst ++ [index]) =
        unboundedMasks (history.map Prod.fst) ++ pathMasks (mid.startPath index.get).mask
          (setBitsDesc (index.get &&& notU64 (mid.startPath index.get).mask)) := by
      rw [unboundedMasks, List.foldl_append, hstart]
      rfl
    obtain ⟨hstep, hlast⟩ := hkeeps.step hle index.le_max hne hstart
    rw [hall]
    refine ⟨index.get, hmasks ▸ hstep, fun bound hbound => ?_, fun other hother => ?_⟩
    · exact hbound index (List.mem_append_right _ List.mem_cons_self)
    · rcases List.mem_append.mp hother with hold | hnew
      · exact List.mem_append_left _ (hmem other hold)
      · rw [List.mem_singleton.mp hnew]
        exact hlast

/-- Planned units are the bits which the parent lacks. -/
theorem unboundedUnits_add {index : Index48} {all : List ℕ}
    (hall : ∀ m ∈ all, m ≠ 0 ∧ m ≤ maxIndex) :
    countOnes index.get =
      countOnes ((unboundedParent all index.get).getD 0) + unboundedUnits all index := by
  obtain ⟨hle, hderives, -⟩ := unboundedParent_spec index.le_max hall
  have hbits :=
    setBitsDesc_append_missing hle index.le_max ((derives_iff hle index.le_max).mp hderives)
  rw [countOnes_eq hle, countOnes_eq index.le_max, hbits, List.length_append, unboundedUnits]
  cases hparent : unboundedParent all index.get with
  | some p => rfl
  | none =>
    rw [hparent] at hbits
    rw [hbits, List.length_append]
    have hnil : setBitsDesc 0 = [] := List.prefix_nil.mp (derives_zero (j := 0))
    rw [Option.getD_none, hnil, List.length_nil]
    exact (Nat.zero_add _).symm

/-- Clearing the lowest set bit removes one bit. -/
theorem countOnes_clear_lowest {index : ℕ} (hle : index ≤ maxIndex) (hne : index ≠ 0) :
    countOnes index = countOnes (index - index % 2 ^ (trailingZeros index + 1)) + 1 := by
  have hmod := mod_two_pow_trailingZeros hne (lt_of_le_maxIndex hle)
  have hdiv := Nat.div_add_mod index (2 ^ (trailingZeros index + 1))
  have hclear : index - index % 2 ^ (trailingZeros index + 1) =
      2 ^ (trailingZeros index + 1) * (index / 2 ^ (trailingZeros index + 1)) := by omega
  have hor :
      (index - index % 2 ^ (trailingZeros index + 1)) ||| 1 <<< trailingZeros index = index := by
    have hlt : 2 ^ trailingZeros index < 2 ^ (trailingZeros index + 1) :=
      Nat.pow_lt_pow_right (by decide) (Nat.lt_succ_self _)
    rw [hclear, Nat.one_shiftLeft, ← Nat.two_pow_add_eq_or_of_lt hlt]
    omega
  have hbelow (high : ℕ)
    (hhigh : high ∈ setBitsDesc (index - index % 2 ^ (trailingZeros index + 1))) :
      trailingZeros index < high := by
    have hset := (mem_setBitsDesc.mp hhigh).2
    rw [hclear, Nat.testBit_two_pow_mul, Bool.and_eq_true, decide_eq_true_eq] at hset
    exact hset.1
  have hbits := setBitsDesc_or_bit (trailingZeros_lt hle hne) hbelow
  rw [hor] at hbits
  rw [countOnes_eq hle, countOnes_eq ((Nat.sub_le _ _).trans hle), hbits, List.length_append]
  rfl

/-- A target above all masks plans one unit when the index without its lowest bit was computed. -/
theorem unboundedUnits_eq_one {index : Index48} {all : List ℕ}
    (hall : ∀ m ∈ all, m ≠ 0 ∧ m ≤ maxIndex) (hne : index.get ≠ 0) (hnew : index.get ∉ all)
    (hclear : index.get - index.get % 2 ^ (trailingZeros index.get + 1) ≠ 0 →
      index.get - index.get % 2 ^ (trailingZeros index.get + 1) ∈ all) :
    unboundedUnits all index = 1 := by
  obtain ⟨hle, hderives, hmem⟩ := unboundedParent_spec index.le_max hall
  have hadd : countOnes index.get = _ := unboundedUnits_add hall
  have hcount := countOnes_clear_lowest index.le_max hne
  have hpderives := derives_clear_lowest index.le_max hne
  generalize hp : index.get - index.get % 2 ^ (trailingZeros index.get + 1) = p at *
  have hpmax : p ≤ maxIndex := hp ▸ (Nat.sub_le _ _).trans index.le_max
  -- The parent has at least the bits of the cleared index.
  have hge : countOnes p ≤ countOnes ((unboundedParent all index.get).getD 0) := by
    by_cases hzero : p = 0
    · rw [hzero]
      exact Nat.zero_le _
    · have hlisted : p ∈ all.filter fun mask => canDeriveMask mask index.get :=
        List.mem_filter.mpr ⟨hclear hzero, (canDeriveMask_iff hpmax index.le_max).mpr hpderives⟩
      cases hparent : unboundedParent all index.get with
      | none =>
        rw [maxByKey_eq_none.mp hparent] at hlisted
        exact absurd hlisted List.not_mem_nil
      | some best => exact (maxByKey_spec hparent).2 p hlisted
  -- It lacks a bit of the target, which was not computed.
  have hpos : unboundedUnits all index ≠ 0 := by
    intro hzero
    rw [hzero, Nat.add_zero] at hadd
    have hsame := hderives.eq_of_countOnes hle index.le_max (Derives.refl index.get) hadd.symm
    rw [hsame] at hmem
    exact hmem.elim hne hnew
  omega

/-- The targets from one on run one program each. -/
theorem PrecomputeSession.Run.one_each (hgadget : DirectGadget compress sha)
    (hrun : (PrecomputeSession.setup sha seedInputs).Run history s) {n : ℕ}
    (htargets : (history.map Prod.fst).map Index48.get = List.range' 1 n) :
    (history.flatMap Prod.snd).length = n ∧
      ∀ program ∈ history.flatMap Prod.snd, OneHash sha program := by
  induction hrun generalizing n with
  | start =>
    have hlen := congrArg List.length htargets
    rw [List.length_range'] at hlen
    exact ⟨hlen, fun _ h => absurd h List.not_mem_nil⟩
  | @target history mid last index calls wires hrun hcall ih =>
    cases n with
    | zero => simp at htargets
    | succ n =>
      have hasc := ascending_of_range htargets
      rw [List.map_append, List.map_singleton] at hasc
      rw [List.range'_1_concat, List.map_append, List.map_append] at htargets
      obtain ⟨hinit, hlast⟩ := List.append_inj' htargets rfl
      have hindex : index.get = 1 + n := List.singleton_inj.mp hlast
      obtain ⟨t, hkeeps, horder, hmem⟩ := hrun.keeps hgadget hasc.init
      have hrange {k : ℕ} : k ∈ (history.map Prod.fst).map Index48.get ↔ 1 ≤ k ∧ k < 1 + n := by
        rw [hinit, List.mem_range'_1]
      have ht : t ≤ n := by
        refine horder n fun other hother => ?_
        have := hrange.mp (List.mem_map_of_mem hother)
        omega
      -- The index without its lowest bit is one of the earlier targets.
      have hone : unboundedUnits (unboundedMasks (history.map Prod.fst)) index = 1 := by
        refine unboundedUnits_eq_one (fun m hm => ?_) (by omega) (fun hm => ?_) fun hclear => ?_
        · have := (hkeeps.bounded m hm).2
          have := index.le_max
          exact ⟨(hkeeps.bounded m hm).1, by omega⟩
        · have := (hkeeps.bounded _ hm).2
          omega
        · have hmod := mod_two_pow_trailingZeros (by omega) (lt_of_le_maxIndex index.le_max)
          have hpos := Nat.two_pow_pos (trailingZeros index.get)
          obtain ⟨other, hother, hget⟩ := List.mem_map.mp (hrange.mpr
            ⟨Nat.one_le_iff_ne_zero.mpr hclear, by omega⟩)
          exact hget ▸ hmem other hother
      obtain ⟨-, -, hcount, -⟩ := (precomputeTarget_ensures (hgadget.nodeRelation seedInputs)
        (hrun.related hgadget) index).of_returns hcall
      obtain ⟨hlen, hhash⟩ := hcount (by omega)
      rw [hkeeps.plannedCheckedUnits_eq (horder index.get hasc.le_last), hone,
        List.length_map] at hlen
      obtain ⟨hlenInit, hhashInit⟩ := ih hinit
      rw [List.flatMap_append, List.flatMap_singleton]
      refine ⟨by rw [List.length_append, hlenInit, List.length_map, hlen],
        fun program hprogram => ?_⟩
      rcases List.mem_append.mp hprogram with hold | hnew
      · exact hhashInit program hold
      · obtain ⟨call, hmemCall, rfl⟩ := List.mem_map.mp hnew
        exact (hhash _ (List.mem_map_of_mem hmemCall)).1

/-- Whatever the service replies, every list of targets has a run. -/
theorem exists_run (hgadget : DirectGadget compress sha) (seedInputs : Ag2pcSecureWires)
    (targets : List Index48) :
    ∃ history s, (PrecomputeSession.setup sha seedInputs).Run history s ∧
      history.map Prod.fst = targets := by
  induction targets using List.reverseRecOn with
  | nil => exact ⟨[], _, .start, rfl⟩
  | append_singleton rest index ih =>
    obtain ⟨history, s, hrun, hhistory⟩ := ih
    obtain ⟨calls, ⟨wires, last⟩, hcall, -⟩ := (precomputeTarget_ensures
      (hgadget.nodeRelation seedInputs) (hrun.related hgadget) index).exists_returns
      fun _ => Ag2pcSecureWires.default
    refine ⟨_, last, hrun.target hcall, ?_⟩
    rw [List.map_append, hhistory]
    rfl

/-- The pruned cache plans every target in order as a cache which keeps every mask would, and the
targets from one on run one program of one hash each. -/
theorem plannedCheckedUnits_unbounded (hgadget : DirectGadget compress sha)
    (seedInputs : Ag2pcSecureWires) :
    (∀ history s index, (PrecomputeSession.setup sha seedInputs).Run history s →
        Ascending (history.map Prod.fst ++ [index]) →
        s.plannedCheckedUnits index = unboundedUnits
          (unboundedMasks (history.map Prod.fst)) index) ∧
      (∀ n history s, (PrecomputeSession.setup sha seedInputs).Run history s →
        (history.map Prod.fst).map Index48.get = List.range' 1 n →
        (history.flatMap Prod.snd).length = n ∧
          ∀ program ∈ history.flatMap Prod.snd, OneHash sha program) ∧
      ∀ targets, ∃ history s, (PrecomputeSession.setup sha seedInputs).Run history s ∧
        history.map Prod.fst = targets := by
  refine ⟨fun history s index hrun hasc => ?_, fun n history s hrun => hrun.one_each hgadget,
    exists_run hgadget seedInputs⟩
  obtain ⟨t, hkeeps, horder, -⟩ := hrun.keeps hgadget hasc.init
  exact hkeeps.plannedCheckedUnits_eq (horder index.get hasc.le_last)

/-- On a constant gadget the targets 1, 2 and 3 run three programs. -/
theorem plannedCheckedUnits_unbounded_constant :
    ∃ history s,
      (PrecomputeSession.setup (constantGadget 770 firstEdgeDigest) .default).Run history s ∧
      history.map Prod.fst = [⟨1, by decide⟩, ⟨2, by decide⟩, ⟨3, by decide⟩] ∧
      (history.flatMap Prod.snd).length = 3 := by
  obtain ⟨-, hone, hexists⟩ :=
    plannedCheckedUnits_unbounded (constantGadget_direct firstEdgeDigest) .default
  obtain ⟨history, s, hrun, htargets⟩ := hexists [⟨1, by decide⟩, ⟨2, by decide⟩, ⟨3, by decide⟩]
  exact ⟨history, s, hrun, htargets, (hone 3 history s hrun (by rw [htargets]; rfl)).1⟩

end runs

end Shachain2pc
