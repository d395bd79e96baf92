import Shachain2pc.Party.PartyJoint
import Shachain2pc.Party.RangeSplit
import Shachain2pc.Party.StandaloneModes

/-!
# Two standalone parties

Two parties with shares of a seed, on streams between them, derive the same values: those which
the seed gives at the indices. Each chunk moves the value along its bits. The trunk of a range
ends at the bits which its indices share, and each branch goes from there to its index.
-/

namespace Shachain2pc

open JointRuns AuthenticatedBits
open Ag2pcSession (WiresPaired)
open Ag2pcTriplePool

namespace PartySession

variable {sha256 : List UInt8 → Value32} {base : PartyBase (StreamEnd sha256)} {nonces : ℕ → Block}
  {deltaA deltaB : Block} {compress : Block64 → Value32} {value a b : Value32}
  {inputs inputs' : Ag2pcSecureWires}

/-! ## Chunks -/

/-- A chunk with bits has AND gates. -/
theorem chunkOutputs_eq {chainBits : List ℕ} (hne : chainBits ≠ []) :
    chunkOutputs compress value chainBits =
      ⟨plainBits (hashBits (sha256Digest compress) value chainBits), true⟩ := by
  rw [chunkOutputs, decide_eq_true hne]

/-- The bits of a part of a path. -/
def PathBits (bits : List ℕ) : Prop := (∀ bit ∈ bits, bit < indexBits) ∧ bits.length ≤ indexBits

/-- The bits of an index are a path. -/
theorem setBitsDesc_path (index : ℕ) : PathBits (setBitsDesc index) :=
  ⟨fun _ hbit => (mem_setBitsDesc.mp hbit).1, List.length_filter_le _ bitsDesc⟩

/-- Chunks of an index are parts of its path. -/
theorem groups_path {groups : List (List ℕ)} {index : ℕ}
    (hflatten : groups.flatten = setBitsDesc index) :
    ∀ group ∈ groups, PathBits group := by
  intro group hmem
  have hsublist := List.sublist_flatten_of_mem hmem
  rw [hflatten] at hsublist
  obtain ⟨hbits, hcount⟩ := setBitsDesc_path index
  exact ⟨fun bit hbit => hbits bit (hsublist.subset hbit), hsublist.length_le.trans hcount⟩

/-- Both parties run chunks which have bits. -/
theorem joint_runChunks (h : Chunked compress base deltaA) {groups : List (List ℕ)}
    (hgroups : ∀ group ∈ groups, group ≠ [] ∧ PathBits group)
    (hinputs : NodePaired deltaA deltaB value inputs inputs') :
    Joint (PartiesPaired deltaA deltaB) (runChunks base groups inputs)
      (runChunks (base.peer nonces) groups inputs')
      fun x alice y bob =>
        NodePaired deltaA deltaB (hashBits (sha256Digest compress) value groups.flatten) x y ∧
          PartiesPaired deltaA deltaB alice bob := by
  induction groups generalizing value inputs inputs' with
  | nil => exact .pure fun _ _ hpaired => ⟨hinputs, hpaired⟩
  | cons bits rest ih =>
    obtain ⟨⟨hne, hpath⟩, hrest⟩ := List.forall_mem_cons.mp hgroups
    refine (joint_runChunk h hpath.1 hpath.2 (.value value) hinputs).bind fun x y =>
      Joint.assume fun hwires => ?_
    rw [chunkOutputs_eq hne] at hwires
    rw [List.flatten_cons, hashBits_append]
    exact ih hrest hwires

/-- Both parties run the chunks of an index from the seed. -/
theorem joint_runTrunk (h : Chunked compress base deltaA) {groups : List (List ℕ)} {index : ℕ}
    (hflatten : groups.flatten = setBitsDesc index) (hgrouped : Grouped groups)
    (hinputs : WiresPaired deltaA deltaB ⟨plainBits b ++ plainBits a, true⟩ inputs inputs') :
    Joint (PartiesPaired deltaA deltaB) (runTrunk base groups inputs)
      (runTrunk (base.peer nonces) groups inputs')
      fun x alice y bob => WiresPaired deltaA deltaB
        (chunkOutputs compress (b.xor a) (setBitsDesc index)) x y ∧
        PartiesPaired deltaA deltaB alice bob := by
  have hpaths := groups_path hflatten
  rw [← hflatten]
  rcases hgrouped with rfl | ⟨hne, hgroups⟩
  · -- Index zero has a single chunk, without bits.
    refine (joint_runChunk h (hpaths [] List.mem_cons_self).1
      (hpaths [] List.mem_cons_self).2 (.shares b a)
      hinputs).bind fun x y => Joint.assume fun hwires => ?_
    exact .pure fun _ _ hpaired => ⟨hwires, hpaired⟩
  · obtain ⟨bits, rest, rfl⟩ := List.exists_cons_of_ne_nil hne
    obtain ⟨hpath, hrestPaths⟩ := List.forall_mem_cons.mp hpaths
    obtain ⟨hbits, hrest⟩ := List.forall_mem_cons.mp hgroups
    have hflat : (bits :: rest).flatten ≠ [] := by
      rw [List.flatten_cons]
      exact List.append_ne_nil_of_left_ne_nil hbits _
    refine (joint_runChunk h hpath.1 hpath.2 (.shares b a) hinputs).bind fun x y =>
      Joint.assume fun hwires => ?_
    rw [chunkOutputs_eq hbits] at hwires
    rw [chunkOutputs_eq hflat, List.flatten_cons, hashBits_append]
    exact joint_runChunks h (fun group hmem => ⟨hrest group hmem, hrestPaths group hmem⟩) hwires

/-- Both parties authenticate the shares of the seed in new sessions. -/
theorem joint_openSession (h : Chunked compress base deltaA) (run : StandaloneRun) (a b : Value32) :
    Joint (PartiesFresh deltaA deltaB) (openSession base .alice run a)
      (openSession (base.peer nonces) .bob run b)
      fun x alice y bob => WiresPaired deltaA deltaB ⟨plainBits b ++ plainBits a, true⟩ x y ∧
        PartiesPaired deltaA deltaB alice bob := by
  refine (joint_exchangeDigest (run.digest base.pool.sha256 base.sha)).bind fun _ _ => ?_
  exact (joint_setup h.abit1 h.abit2).bind fun _ _ => joint_authenticateSeedInputs a b

/-- A result which is there. -/
theorem onStandalone_ok {S A : Type} (result : A) :
    (onStandalone (.ok result) : PartyM S A) = pure result := rfl

/-- Both parties derive a value by chunks. -/
theorem joint_runDerivationChunked (h : Chunked compress base deltaA) (index : Index48)
    (a b : Value32) {blocksPerChunk : ℕ} (hpos : 1 ≤ blocksPerChunk) :
    Joint (PartiesFresh deltaA deltaB) (runDerivationChunked base .alice index a blocksPerChunk)
      (runDerivationChunked (base.peer nonces) .bob index b blocksPerChunk)
      fun x _ y _ => x = generateFromSeed (sha256Digest compress) (b.xor a) index.get ∧
        y = generateFromSeed (sha256Digest compress) (b.xor a) index.get := by
  obtain ⟨groups, hsplit, hflatten, hgrouped, -⟩ := splitChainBits_spec hpos index.le_max
  have hgroups :
      (onStandalone ((splitChainBits index.get blocksPerChunk).mapError StandaloneError.circuit) :
      PartyM (StreamEnd sha256) (List (List ℕ))) = pure groups := by
    rw [hsplit]
    rfl
  rw [runDerivationChunked, runDerivationChunked, hgroups, pure_bind, pure_bind]
  refine (joint_openSession h _ a b).bind fun seed seed' => Joint.assume fun hseed => ?_
  refine (joint_runTrunk h hflatten hgrouped hseed).bind fun x y => Joint.assume fun hwires => ?_
  refine (joint_revealBits hwires).bind fun bits bits' => Joint.assume ?_
  rintro ⟨rfl, rfl⟩
  refine joint_finish.bind fun _ _ => joint_flushMain.bind fun _ _ => ?_
  rw [valueFromBits_toBitsMsb, generateFromSeed_eq]
  exact .pure fun _ _ _ => ⟨rfl, rfl⟩

/-! ## Ranges -/

/-- The wires of the indices of a range, without labels, with a value for each index. -/
inductive BranchesPaired (deltaA deltaB : Block) (node : ℕ → Value32) :
    List ℕ → List (ℕ × Ag2pcSecureWires) → List (ℕ × Ag2pcSecureWires) → Prop where
  | nil : BranchesPaired deltaA deltaB node [] [] []
  | cons {index : ℕ} {x y : Ag2pcSecureWires} {agreed : Bool} {indices : List ℕ}
      {ours theirs : List (ℕ × Ag2pcSecureWires)}
      (wires : WiresPaired deltaA deltaB ⟨plainBits (node index), agreed⟩ x y)
      (later : BranchesPaired deltaA deltaB node indices ours theirs) :
      BranchesPaired deltaA deltaB node (index :: indices) ((index, x.stripLabelsForReveal) :: ours)
        ((index, y.stripLabelsForReveal) :: theirs)

/-- Both parties run the branches. -/
theorem joint_runBranches (h : Chunked compress base deltaA) (lowMask : ℕ) (indices : List ℕ)
    (hinputs : NodePaired deltaA deltaB value inputs inputs') :
    Joint (PartiesPaired deltaA deltaB) (runBranches base lowMask inputs indices)
      (runBranches (base.peer nonces) lowMask inputs' indices)
      fun x alice y bob => BranchesPaired deltaA deltaB
          (fun index =>
            hashBits (sha256Digest compress) value (setBitsDesc (index &&& lowMask))) indices x y ∧
        PartiesPaired deltaA deltaB alice bob := by
  induction indices with
  | nil => exact .pure fun _ _ hpaired => ⟨.nil, hpaired⟩
  | cons index rest ih =>
    obtain ⟨hbits, hcount⟩ := setBitsDesc_path (index &&& lowMask)
    refine (joint_runChunk h hbits hcount (.value value) hinputs).bind fun x y =>
      Joint.assume fun hwires => ?_
    refine ih.bind fun later later' => Joint.assume fun hlater => ?_
    exact .pure fun _ _ hpaired => ⟨.cons hwires hlater, hpaired⟩

/-- Both parties open the values of the branches. -/
theorem joint_revealEach {node : ℕ → Value32} {indices : List ℕ}
    {ours theirs : List (ℕ × Ag2pcSecureWires)}
    (hbranches : BranchesPaired deltaA deltaB node indices ours theirs) :
    Joint (PartiesPaired deltaA deltaB) (revealEach base ours)
      (revealEach (base.peer nonces) theirs)
      fun x alice y bob => (x = indices.map (fun index => (index, node index)) ∧
          y = indices.map fun index => (index, node index)) ∧
            PartiesPaired deltaA deltaB alice bob := by
  induction hbranches with
  | nil => exact .pure fun _ _ hpaired => ⟨⟨rfl, rfl⟩, hpaired⟩
  | cons hwires _ ih =>
    refine (joint_revealValue hwires).bind fun x y => Joint.assume ?_
    rintro ⟨rfl, rfl⟩
    refine ih.bind fun later later' => Joint.assume ?_
    rintro ⟨rfl, rfl⟩
    exact .pure fun _ _ hpaired => ⟨⟨rfl, rfl⟩, hpaired⟩

/-- Both parties open all values, and flush. -/
theorem joint_revealAuthenticatedValues {node : ℕ → Value32} {indices : List ℕ}
    {ours theirs : List (ℕ × Ag2pcSecureWires)}
    (hbranches : BranchesPaired deltaA deltaB node indices ours theirs) :
    Joint (PartiesPaired deltaA deltaB) (revealAuthenticatedValues base .alice ours)
      (revealAuthenticatedValues (base.peer nonces) .bob theirs)
      fun x alice y bob => (x = indices.map (fun index => (index, node index)) ∧
          y = indices.map fun index => (index, node index)) ∧
            PartiesPaired deltaA deltaB alice bob := by
  refine (joint_revealEach hbranches).bind fun x y => Joint.assume fun houtputs => ?_
  exact joint_flushMain.bind fun _ _ => .pure fun _ _ hpaired => ⟨houtputs, hpaired⟩

/-- The trunk of a range, which was accepted. -/
theorem trunkGroups_eq_ok {first highMask : ℕ} {trunkChunkBlocks : ℤ} {refusal : String}
    {groups : List (List ℕ)}
    (h : trunkGroups first highMask trunkChunkBlocks refusal = .ok groups) :
    groups.flatten = setBitsDesc (first &&& highMask) ∧ Grouped groups ∧ groups.flatten ≠ [] := by
  unfold trunkGroups at h
  cases hsplit : splitChainBits (first &&& highMask) (effectiveChunkSize trunkChunkBlocks) with
  | error e =>
    rw [hsplit] at h
    cases h
  | ok split =>
    rw [hsplit] at h
    simp only [Except.mapError, bind, Except.bind] at h
    split at h
    · cases h
    · next hcount =>
      cases h
      obtain ⟨hflatten, hgrouped, -⟩ := splitChainBits_eq_ok hsplit
      exact ⟨hflatten, hgrouped, List.ne_nil_of_length_pos (Nat.pos_of_ne_zero hcount)⟩

/-- What a range which is accepted has. -/
theorem checkTree_eq_ok {indices : List ℕ} {trunkChunkBlocks : ℤ}
    (h : checkTree indices trunkChunkBlocks = .ok ()) :
    ∃ first groups, indices.head? = some first ∧
      trunkGroups first (rangeSplitMasks first indices).highMask trunkChunkBlocks
        ("shachain2pc: shared-trunk needs >=1 common high set bit (no shared hash in this range); " ++
          "use batch mode") = .ok groups := by
  cases indices with
  | nil => cases h
  | cons first rest =>
    simp only [checkTree] at h
    cases hgroups :
        trunkGroups first (rangeSplitMasks first (first :: rest)).highMask trunkChunkBlocks
      ("shachain2pc: shared-trunk needs >=1 common high set bit (no shared hash in this range); " ++
        "use batch mode") with
    | error e =>
      rw [hgroups] at h
      cases h
    | ok groups => exact ⟨first, groups, rfl, hgroups⟩

/-- Both parties derive the values of a range by its trunk. -/
theorem joint_runDerivationTree (h : Chunked compress base deltaA) {indices : List ℕ}
    (a b : Value32) {trunkChunkBlocks : ℤ}
    (haccepted : checkTree indices trunkChunkBlocks = .ok ()) :
    Joint (PartiesFresh deltaA deltaB) (runDerivationTree base .alice indices a trunkChunkBlocks)
      (runDerivationTree (base.peer nonces) .bob indices b trunkChunkBlocks)
      fun x _ y _ =>
        x = indices.map
          (fun index => (index, generateFromSeed (sha256Digest compress) (b.xor a) index)) ∧
        y = indices.map fun index =>
          (index, generateFromSeed (sha256Digest compress) (b.xor a) index) := by
  obtain ⟨first, groups, hfirst, hgroups⟩ := checkTree_eq_ok haccepted
  obtain ⟨hflatten, hgrouped, hne⟩ := trunkGroups_eq_ok hgroups
  rw [runDerivationTree, runDerivationTree]
  simp only [hfirst, onStandalone_ok, pure_bind, hgroups]
  refine (joint_openSession h _ a b).bind fun seed seed' => Joint.assume fun hseed => ?_
  refine (joint_runTrunk h hflatten hgrouped hseed).bind fun x y => Joint.assume fun hwires => ?_
  rw [chunkOutputs_eq (hflatten ▸ hne)] at hwires
  refine (joint_runBranches h _ _ hwires).bind fun ours theirs => Joint.assume fun hbranches => ?_
  refine (joint_revealAuthenticatedValues hbranches).bind fun outputs outputs' => Joint.assume ?_
  rintro ⟨rfl, rfl⟩
  refine joint_finish.bind fun _ _ => .pure fun _ _ _ => ?_
  have hnodes : indices.map (fun index => (index, hashBits (sha256Digest compress)
        (hashBits (sha256Digest compress) (b.xor a)
          (setBitsDesc (first &&& (rangeSplitMasks first indices).highMask)))
        (setBitsDesc (index &&& (rangeSplitMasks first indices).lowMask)))) =
      indices.map fun index => (index, generateFromSeed (sha256Digest compress) (b.xor a) index) :=
    List.map_congr_left fun index hmem => by rw [hashBits_trunk _ _ hmem]
  exact ⟨hnodes, hnodes⟩

end PartySession

/-! ## The derivations -/

/-- What a party draws for its session. -/
structure PartySeed where
  delta : Block
  draws : PoolDraws
  prg : Block

section Derivations

variable {sha256 : List UInt8 → Value32} {A B : Type}

/-- Two parties at the ends of two streams complete their code. In every round each receives on
both streams what the other sends, and nothing is left. -/
def PartiesComplete (ssp : ℕ) (ours theirs : PartySeed) (prog : PartyM (StreamEnd sha256) A)
    (prog' : PartyM (StreamEnd sha256) B) (value : A → B → Prop) : Prop :=
  ∃ (left right : Rounds (List (Event UInt8)))
    (sessionA sessionB : Ag2pcSession (StreamEnd sha256)) (x : A)
    (y : B)
    (alice bob : PartySession (StreamEnd sha256)), Traffic.Meets left right ∧
    Ag2pcSession.new .alice ssp ours.delta ours.draws ours.prg ⟨.fed left.second, .fed left.first⟩ =
      .ok sessionA ∧
    prog ⟨sessionA, 0⟩ = .ok x alice ∧ Drained alice.session.pool left ∧
    Ag2pcSession.new .bob ssp theirs.delta theirs.draws theirs.prg
      ⟨.fed right.first, .fed right.second⟩ =
      .ok sessionB ∧
    prog' ⟨sessionB, 0⟩ = .ok y bob ∧ Drained bob.session.pool right ∧ value x y

/-- Parties whose joint run completes from new sessions. -/
theorem partiesComplete_of_joint {ssp : ℕ} {ours theirs : PartySeed}
    {prog : PartyM (StreamEnd sha256) A} {prog' : PartyM (StreamEnd sha256) B}
    {value : A → B → Prop}
    (h : Joint (PartySession.PartiesFresh (normalizeAg2pcDelta .alice ours.delta)
      (normalizeAg2pcDelta .bob theirs.delta)) prog prog' fun x _ y _ => value x y) :
    PartiesComplete ssp ours theirs prog prog' value := by
  obtain ⟨left, right, x, alice, y, bob, hmeets, hours, htheirs, hvalue⟩ :=
    h ⟨Ag2pcSession.begun .alice ssp ours.delta ours.draws ours.prg ⟨.new, .new⟩, 0⟩
      ⟨Ag2pcSession.begun .bob ssp theirs.delta theirs.draws theirs.prg ⟨.new, .new⟩, 0⟩
      (started_paired ssp ours.delta theirs.delta ours.draws theirs.draws)
  have hours' := hours Traffic.none Traffic.none
  have htheirs' := htheirs Traffic.none Traffic.none
  rw [Traffic.append_none, Traffic.none_append] at hours' htheirs'
  exact ⟨left, right, _, _, x, y, _, _, hmeets, Ag2pcSession.new_begun .., hours',
    ⟨rfl, rfl, rfl, rfl⟩,
    Ag2pcSession.new_begun .., htheirs', ⟨rfl, rfl, rfl, rfl⟩, hvalue⟩

variable {G : Type} [AddCommGroup G] {curve : P256 G} {r r' : ℕ} {seed seed' : Block}
  {alphas alphas' : ℕ → ℕ} {t t' : G} {compress : Block64 → Value32} {sha : Circuit}

/-- What a party is given when its base OTs are those of a curve. -/
def cswParty (curve : P256 G) (permute : Block → Block → Block) (sha256 : List UInt8 → Value32)
    (bucketSize : ℕ → ℕ → ℕ) (r r' : ℕ) (seed seed' : Block) (alphas alphas' : ℕ → ℕ)
    (nonces : ℕ → Block) (sha : Circuit) : PartyBase (StreamEnd sha256) :=
  ⟨⟨permute, sha256, .csw curve permute sha256 r seed alphas,
    .csw curve permute sha256 r' seed' alphas',
    bucketSize⟩,
    nonces, sha⟩

/-- What two such parties need. -/
theorem cswParty_chunked (hserves : CswServes curve r seed alphas t)
    (hserves' : CswServes curve r' seed' alphas' t') (hgadget : DirectGadget compress sha)
    (hands : 0 < gadgetAnds sha) (permute : Block → Block → Block) (sha256 : List UInt8 → Value32)
    (bucketSize : ℕ → ℕ → ℕ) (nonces : ℕ → Block) (delta : Block) :
    PartySession.Chunked compress
      (cswParty curve permute sha256 bucketSize r r' seed seed' alphas alphas'
      nonces sha)
      (normalizeAg2pcDelta .alice delta) where
  abit1 := hserves.delivers permute
  abit2 := hserves'.delivers permute
  delta0 := (Ag2pcTriplePool.normalizeAg2pcDelta_bits .alice delta).1
  delta1 := (Ag2pcTriplePool.normalizeAg2pcDelta_bits .alice delta).2
  gadget := hgadget
  ands := hands

/-- Two parties derive a value by chunks of any size. Both return what the seed which they share
gives at the index. -/
theorem derivationChunked_agrees (hserves : CswServes curve r seed alphas t)
    (hserves' : CswServes curve r' seed' alphas' t') (hgadget : DirectGadget compress sha)
    (hands : 0 < gadgetAnds sha) (permute : Block → Block → Block) (sha256 : List UInt8 → Value32)
    (bucketSize : ℕ → ℕ → ℕ) (nonces nonces' : ℕ → Block) (ssp : ℕ) (ours theirs : PartySeed)
    (index : Index48) (a b : Value32) {blocksPerChunk : ℕ} (hpos : 1 ≤ blocksPerChunk) :
    let base := cswParty curve permute sha256 bucketSize r r' seed seed' alphas alphas' nonces sha
    PartiesComplete ssp ours theirs
      (PartySession.runDerivationChunked base .alice index a blocksPerChunk)
      (PartySession.runDerivationChunked (base.peer nonces') .bob index b blocksPerChunk)
      fun x y => x = generateFromSeed (sha256Digest compress) (b.xor a) index.get ∧
        y = generateFromSeed (sha256Digest compress) (b.xor a) index.get :=
  partiesComplete_of_joint (PartySession.joint_runDerivationChunked
    (cswParty_chunked hserves hserves' hgadget hands permute sha256 bucketSize nonces ours.delta)
      index a b hpos)

/-- Index 3 of a zero seed, in two chunks. -/
theorem derivationChunked_agrees_five :
    let base := cswParty fiveCurve (fun _ block => block) Value32.ofList
      (fun _ _ => 3) 1 1 Block.zero Block.zero
      (fun _ => 2) (fun _ => 2) (fun _ => Block.zero) edgeGadget
    let drawn : PartySeed := ⟨Block.zero, ⟨Block.zero, Block.zero, Block.zero⟩, Block.zero⟩
    PartiesComplete 40 drawn drawn
      (PartySession.runDerivationChunked base .alice ⟨3, by decide⟩ firstEdgeDigest 1)
      (PartySession.runDerivationChunked (base.peer fun _ => Block.zero) .bob
        ⟨3, by decide⟩ firstEdgeDigest 1)
      fun x y => x = thirdEdgeDigest ∧ y = thirdEdgeDigest := by
  rw [← edge_value]
  exact derivationChunked_agrees fiveCurve_serves fiveCurve_serves
    (selectGadget_direct (by decide) secondEdgeDigest thirdEdgeDigest) (selectGadget_ands ..)
    _ _ _ _ _ _ _ _ _ _ _ (by decide)

/-- Two parties derive the values of a range by its shared trunk, when the range has one. Both
return, for each index in order, what the seed which they share gives there. -/
theorem derivationTree_agrees (hserves : CswServes curve r seed alphas t)
    (hserves' : CswServes curve r' seed' alphas' t') (hgadget : DirectGadget compress sha)
    (hands : 0 < gadgetAnds sha) (permute : Block → Block → Block) (sha256 : List UInt8 → Value32)
    (bucketSize : ℕ → ℕ → ℕ) (nonces nonces' : ℕ → Block) (ssp : ℕ) (ours theirs : PartySeed)
    (a b : Value32) {indices : List ℕ} {trunkChunkBlocks : ℤ}
    (haccepted : checkTree indices trunkChunkBlocks = .ok ()) :
    let base := cswParty curve permute sha256 bucketSize r r' seed seed' alphas alphas' nonces sha
    PartiesComplete ssp ours theirs
      (PartySession.runDerivationTree base .alice indices a trunkChunkBlocks)
      (PartySession.runDerivationTree (base.peer nonces') .bob indices b trunkChunkBlocks)
      fun x y =>
        x = indices.map
          (fun index => (index, generateFromSeed (sha256Digest compress) (b.xor a) index)) ∧
        y = indices.map fun index =>
            (index, generateFromSeed (sha256Digest compress) (b.xor a) index) :=
  partiesComplete_of_joint (PartySession.joint_runDerivationTree
    (cswParty_chunked hserves hserves' hgadget hands permute sha256 bucketSize nonces ours.delta)
      a b haccepted)

/-- The two indices whose shared bit is the second, of a zero seed. -/
theorem derivationTree_agrees_five :
    let base := cswParty fiveCurve (fun _ block => block) Value32.ofList
      (fun _ _ => 3) 1 1 Block.zero Block.zero
      (fun _ => 2) (fun _ => 2) (fun _ => Block.zero) edgeGadget
    let drawn : PartySeed := ⟨Block.zero, ⟨Block.zero, Block.zero, Block.zero⟩, Block.zero⟩
    PartiesComplete 40 drawn drawn
      (PartySession.runDerivationTree base .alice [2, 3] firstEdgeDigest 1)
      (PartySession.runDerivationTree (base.peer fun _ => Block.zero) .bob [2, 3] firstEdgeDigest 1)
      fun x y => x = [(2, secondEdgeDigest), (3, thirdEdgeDigest)] ∧
        y = [(2, secondEdgeDigest), (3, thirdEdgeDigest)] := by
  rw [← edge_values]
  exact derivationTree_agrees fiveCurve_serves fiveCurve_serves
    (selectGadget_direct (by decide) secondEdgeDigest thirdEdgeDigest) (selectGadget_ands ..)
    _ _ _ _ _ _ _ _ _ _ (by decide +kernel)

end Derivations

end Shachain2pc
