import Shachain2pc.Compat.IndexProgram
import Shachain2pc.Party.CacheJoint
import Shachain2pc.Party.DigestSeparation
import Shachain2pc.Party.RunParty

/-!
# Two parties which run what was asked for

Whichever mode two parties run on a request, both return the values of the seed which they share.
-/

namespace Shachain2pc

open JointRuns AuthenticatedBits
open Ag2pcSession (WiresPaired)
open Ag2pcTriplePool

/-- The values which a seed gives at what was asked for. -/
def IndexSpec.values (sha256 : Value32 → Value32) (seed : Value32) : IndexSpec → PartyOutput
  | .single index => .single (generateFromSeed sha256 seed index.get)
  | .range lo hi => .range ((rangeIndices lo.get hi.get).map fun index =>
      (index, generateFromSeed sha256 seed index))

namespace PartySession

variable {sha256 : List UInt8 → Value32} {base : PartyBase (StreamEnd sha256)} {nonces : ℕ → Block}
  {deltaA deltaB : Block} {compress : Block64 → Value32} {a b : Value32}

/-! ## The full mode -/

/-- The program of an index is built, and is the direct program of its bits. -/
theorem indexProgram_eq {S : Type} [TranscriptIo S] (base : PartyBase S)
    (hgadget : DirectGadget compress base.sha)
    (hwires : derivationWires base.sha maxIndex < gateWireLimit) {index : ℕ}
    (hindex : index ≤ maxIndex) :
    ∃ program, indexProgram base index = pure program ∧
      chunkFromSha base.sha (setBitsDesc index) true = .ok program := by
  obtain ⟨circuit, program, hcircuit, hprogram, hchunk⟩ := fromCircuit_index hgadget hwires hindex
  refine ⟨program, ?_, hchunk⟩
  rw [indexProgram, hcircuit]
  exact buildProgram_ok hprogram

/-- Both parties build the program of an index, which they run on the shares. -/
theorem joint_indexProgram (h : Chunked compress base deltaA)
    (hwires : derivationWires base.sha maxIndex < gateWireLimit) {index : ℕ}
    (hindex : index ≤ maxIndex) (nonces : ℕ → Block) (deltaB : Block) (a b : Value32) :
    ∃ program, indexProgram base index = pure program ∧ indexProgram (base.peer nonces) index =
      pure program ∧
      ∀ inputs inputs',
        WiresPaired deltaA deltaB ⟨plainBits b ++ plainBits a, true⟩ inputs inputs' →
        Joint (PartiesPaired deltaA deltaB) (runProgram base program inputs)
          (runProgram (base.peer nonces) program inputs')
          fun x alice y bob =>
            WiresPaired deltaA deltaB ⟨plainBits (generateFromSeed (sha256Digest compress)
              (b.xor a) index), setBitsDesc index ≠ []⟩ x y ∧
                PartiesPaired deltaA deltaB alice bob := by
  obtain ⟨program, hbuilt, hchunk⟩ := indexProgram_eq base h.gadget hwires hindex
  refine ⟨program, hbuilt, hbuilt, fun inputs inputs' hinputs => ?_⟩
  have hours (party : PartyBase (StreamEnd sha256)) (hsha : party.sha = base.sha)
    (wires : Ag2pcSecureWires) :
      runChunk party (setBitsDesc index) true wires = runProgram party program wires := by
    rw [runChunk, hsha, buildProgram_ok hchunk, pure_bind]
  obtain ⟨hbits, hcount⟩ := setBitsDesc_path index
  rw [← hours base rfl, ← hours (base.peer nonces) rfl, generateFromSeed_eq]
  exact joint_runChunk h hbits hcount (.shares b a) hinputs

/-- Both parties run the programs of a range. -/
theorem joint_runItems (h : Chunked compress base deltaA)
    (hwires : derivationWires base.sha maxIndex < gateWireLimit) {indices : List ℕ}
    (hindices : ∀ index ∈ indices, index ≤ maxIndex) {inputs inputs' : Ag2pcSecureWires}
    (hinputs : WiresPaired deltaA deltaB ⟨plainBits b ++ plainBits a, true⟩ inputs inputs') :
    Joint (PartiesPaired deltaA deltaB) (runItems base inputs indices)
      (runItems (base.peer nonces) inputs' indices)
      fun x alice y bob =>
        BranchesPaired deltaA deltaB
          (generateFromSeed (sha256Digest compress) (b.xor a)) indices x y ∧
          PartiesPaired deltaA deltaB alice bob := by
  induction indices with
  | nil => exact .pure fun _ _ hpaired => ⟨.nil, hpaired⟩
  | cons index rest ih =>
    obtain ⟨hindex, hrest⟩ := List.forall_mem_cons.mp hindices
    obtain ⟨program, hours, htheirs, hrun⟩ := joint_indexProgram h hwires hindex nonces deltaB a b
    rw [runItems, runItems, hours, htheirs, pure_bind, pure_bind]
    refine (hrun _ _ hinputs).bind fun x y => Joint.assume fun hwires => ?_
    refine (ih hrest).bind fun later later' => Joint.assume fun hlater => ?_
    exact .pure fun _ _ hpaired => ⟨.cons hwires hlater, hpaired⟩

/-- Both parties derive the values of a range by a program for each index. -/
theorem joint_runDerivationBatch (h : Chunked compress base deltaA)
    (hwires : derivationWires base.sha maxIndex < gateWireLimit) {indices : List ℕ}
    (hne : indices ≠ []) (hindices : ∀ index ∈ indices, index ≤ maxIndex) (a b : Value32) :
    Joint (PartiesFresh deltaA deltaB) (runDerivationBatch base .alice indices a)
      (runDerivationBatch (base.peer nonces) .bob indices b)
      fun x _ y _ =>
        x = indices.map
          (fun index => (index, generateFromSeed (sha256Digest compress) (b.xor a) index)) ∧
        y = indices.map fun index =>
          (index, generateFromSeed (sha256Digest compress) (b.xor a) index) := by
  obtain ⟨first, rest, hcons⟩ := List.exists_cons_of_ne_nil hne
  have hfirst : indices.head? = some first := by rw [hcons, List.head?_cons]
  rw [runDerivationBatch, runDerivationBatch]
  simp only [hfirst, entryOr, onStandalone_ok, pure_bind]
  refine (joint_openSession h _ a b).bind fun seed seed' => Joint.assume fun hseed => ?_
  refine (joint_runItems h hwires hindices hseed).bind fun ours theirs =>
    Joint.assume fun hbranches => ?_
  refine (joint_revealAuthenticatedValues hbranches).bind fun outputs outputs' => Joint.assume ?_
  rintro ⟨rfl, rfl⟩
  exact joint_finish.bind fun _ _ => .pure fun _ _ _ => ⟨rfl, rfl⟩

/-- Both parties derive a value by the program of its index. -/
theorem joint_runDerivationFull (h : Chunked compress base deltaA)
    (hwires : derivationWires base.sha maxIndex < gateWireLimit) (index : Index48) (a b : Value32) :
    Joint (PartiesFresh deltaA deltaB) (runDerivationFull base .alice index a)
      (runDerivationFull (base.peer nonces) .bob index b)
      fun x _ y _ => x = generateFromSeed (sha256Digest compress) (b.xor a) index.get ∧
        y = generateFromSeed (sha256Digest compress) (b.xor a) index.get := by
  obtain ⟨program, hours, htheirs, hrun⟩ :=
    joint_indexProgram h hwires index.le_max nonces deltaB a b
  rw [runDerivationFull, runDerivationFull, hours, htheirs, pure_bind, pure_bind]
  refine (joint_openSession h _ a b).bind fun seed seed' => Joint.assume fun hseed => ?_
  refine (hrun _ _ hseed).bind fun x y => Joint.assume fun hpaired => ?_
  refine (joint_revealBits hpaired).bind fun bits bits' => Joint.assume ?_
  rintro ⟨rfl, rfl⟩
  refine joint_finish.bind fun _ _ => joint_flushMain.bind fun _ _ => ?_
  rw [valueFromBits_toBitsMsb]
  exact .pure fun _ _ _ => ⟨rfl, rfl⟩

/-! ## Every mode -/

/-- An entry which is there. -/
theorem entryOr_some {S A : Type} {entry : Option A} {value : A} (missing : String)
    (h : entry = some value) :
    (entryOr entry missing : PartyM S A) = pure value := by
  rw [h]
  rfl

/-- A range which is accepted is not empty. -/
theorem le_of_checkCache {lo hi tileFanout : ℕ} {trunkChunkBlocks : ℤ}
    (h : checkCache (rangeIndices lo hi) trunkChunkBlocks tileFanout = .ok ()) : lo ≤ hi := by
  by_contra hlt
  rw [rangeIndices_nil (not_le.mp hlt)] at h
  cases h

/-- Both parties run the mode of a range. -/
theorem joint_runRange (h : Chunked compress base deltaA)
    (hwires : derivationWires base.sha maxIndex < gateWireLimit) {env : StandaloneEnv} {lo hi : ℕ}
    (hhi : hi ≤ maxIndex) {mode : RequestedMode} {run : StandaloneRun}
    (haccepted : selectRangeRun env (rangeIndices lo hi) mode = .ok run)
    (a b : Value32) :
    Joint (PartiesFresh deltaA deltaB) (runRange base .alice env (rangeIndices lo hi) a mode)
      (runRange (base.peer nonces) .bob env (rangeIndices lo hi) b mode)
      fun x _ y _ =>
        x = (rangeIndices lo hi).map
          (fun index => (index, generateFromSeed (sha256Digest compress) (b.xor a) index)) ∧
        y = (rangeIndices lo hi).map
          fun index => (index, generateFromSeed (sha256Digest compress) (b.xor a) index) := by
  cases mode with
  | full =>
    have hne : rangeIndices lo hi ≠ [] := by
      intro hnil
      rw [selectRangeRun, if_pos hnil] at haccepted
      cases haccepted
    refine joint_runDerivationBatch h hwires hne (fun index hmem => ?_) a b
    rw [rangeIndices, List.mem_range'_1] at hmem
    omega
  | chunked => cases haccepted
  | tree =>
    obtain ⟨_, hcheck, -⟩ := Rust.bind_eq_ok haccepted
    exact joint_runDerivationTree h a b hcheck
  | cache =>
    obtain ⟨tileFanout, hfanout, hnext⟩ := Rust.bind_eq_ok haccepted
    obtain ⟨_, hcheck, -⟩ := Rust.bind_eq_ok hnext
    rw [runRange, runRange, hfanout, onStandalone_ok, pure_bind, pure_bind]
    exact joint_runDerivationCache h (le_of_checkCache hcheck) hhi a b hcheck

/-- Both parties run the mode of one index. -/
theorem joint_runSingle (h : Chunked compress base deltaA)
    (hwires : derivationWires base.sha maxIndex < gateWireLimit) {env : StandaloneEnv}
    {index : Index48} {mode : RequestedMode} {run : StandaloneRun}
    (haccepted : selectSingleRun env index.get mode = .ok run) (a b : Value32) :
    Joint (PartiesFresh deltaA deltaB) (runSingle base .alice env index a mode)
      (runSingle (base.peer nonces) .bob env index b mode)
      fun x _ y _ => x = generateFromSeed (sha256Digest compress) (b.xor a) index.get ∧
        y = generateFromSeed (sha256Digest compress) (b.xor a) index.get := by
  cases mode with
  | full => exact joint_runDerivationFull h hwires index a b
  | chunked =>
    cases hblocks : chunkBlocksFromEnv env with
    | none =>
      rw [selectSingleRun, hblocks] at haccepted
      cases haccepted
    | some blocksPerChunk =>
      have hpos : 1 ≤ blocksPerChunk := by
        have hfiltered := hblocks
        rw [chunkBlocksFromEnv, Option.filter_eq_some_iff] at hfiltered
        exact of_decide_eq_true hfiltered.2
      rw [runSingle, runSingle, entryOr_some _ hblocks, pure_bind, pure_bind]
      exact joint_runDerivationChunked h index a b hpos
  | tree => cases haccepted
  | cache => cases haccepted

/-- A result which both have is returned in another form. -/
theorem joint_output {A B : Type}
    {pre : PartySession (StreamEnd sha256) → PartySession (StreamEnd sha256) → Prop}
    {prog prog' : PartyM (StreamEnd sha256) A} {result : A} (f : A → B)
    (h : Joint pre prog prog' fun x _ y _ => x = result ∧ y = result) :
    Joint pre (prog >>= fun x => pure (f x)) (prog' >>= fun x => pure (f x)) fun x _ y _ =>
      x = f result ∧ y = f result :=
  h.bind fun _ _ => .pure fun _ _ hpost => ⟨congrArg f hpost.1, congrArg f hpost.2⟩

/-- Both parties run a request which is accepted. -/
theorem joint_runParty (h : Chunked compress base deltaA)
    (hwires : derivationWires base.sha maxIndex < gateWireLimit) {request : StandaloneRequest}
    {run : StandaloneRun}
    (haccepted : request.run = .ok run) (a b : Value32) :
    Joint (PartiesFresh deltaA deltaB) (runParty base .alice request a)
      (runParty (base.peer nonces) .bob request b)
      fun x _ y _ => x = request.indexSpec.values (sha256Digest compress) (b.xor a) ∧
        y = request.indexSpec.values (sha256Digest compress) (b.xor a) := by
  obtain ⟨_, hallowed, hselect⟩ := Rust.bind_eq_ok haccepted
  rw [runParty, runParty, hallowed, onStandalone_ok, pure_bind, pure_bind]
  cases hspec : request.indexSpec with
  | single index =>
    rw [hspec] at hselect
    exact joint_output PartyOutput.single (joint_runSingle h hwires hselect a b)
  | range lo hi =>
    rw [hspec] at hselect
    exact joint_output PartyOutput.range (joint_runRange h hwires hi.le_max hselect a b)

end PartySession

section Parties

variable {G : Type} [AddCommGroup G] {curve : P256 G} {r r' : ℕ} {seed seed' : Block}
  {alphas alphas' : ℕ → ℕ} {t t' : G} {compress : Block64 → Value32} {sha : Circuit}

/-- Two parties run a request which is accepted, in whichever mode it asks for. Both return what
the seed which they share gives at its indices. -/
theorem runParty_agrees (hserves : CswServes curve r seed alphas t)
    (hserves' : CswServes curve r' seed' alphas' t') (hgadget : DirectGadget compress sha)
    (hands : 0 < gadgetAnds sha) (hwires : derivationWires sha maxIndex < gateWireLimit)
    (permute : Block → Block → Block) (sha256 : List UInt8 → Value32) (bucketSize : ℕ → ℕ → ℕ)
    (nonces nonces' : ℕ → Block) (ssp : ℕ) (ours theirs : PartySeed) (a b : Value32)
    {request : StandaloneRequest} {run : StandaloneRun} (haccepted : request.run = .ok run) :
    let base := cswParty curve permute sha256 bucketSize r r' seed seed' alphas alphas' nonces sha
    PartiesComplete ssp ours theirs (PartySession.runParty base .alice request a)
      (PartySession.runParty (base.peer nonces') .bob request b)
      fun x y => x = request.indexSpec.values (sha256Digest compress) (b.xor a) ∧
        y = request.indexSpec.values (sha256Digest compress) (b.xor a) :=
  partiesComplete_of_joint (PartySession.joint_runParty
    (cswParty_chunked hserves hserves' hgadget hands permute sha256 bucketSize nonces ours.delta)
    hwires haccepted a b)

/-- The two indices of a zero seed, as a batch, by their trunk, by caches and, for the second, in
chunks. -/
theorem runParty_agrees_five :
    let base :=
      cswParty fiveCurve (fun _ block => block) Value32.ofList (fun _ _ => 3) 1 1 Block.zero
      Block.zero (fun _ => 2) (fun _ => 2) (fun _ => Block.zero) edgeGadget
    let drawn : PartySeed := ⟨Block.zero, ⟨Block.zero, Block.zero, Block.zero⟩, Block.zero⟩
    let agrees (request : StandaloneRequest) (values : PartyOutput) : Prop :=
      PartiesComplete 40 drawn drawn (PartySession.runParty base .alice request firstEdgeDigest)
        (PartySession.runParty (base.peer fun _ => Block.zero) .bob request firstEdgeDigest)
        fun x y => x = values ∧ y = values
    let both : IndexSpec := .range ⟨2, by decide⟩ ⟨3, by decide⟩
    let values := PartyOutput.range [(2, secondEdgeDigest), (3, thirdEdgeDigest)]
    agrees ⟨both, false, ⟨none, none, none, none⟩⟩ values ∧
      agrees ⟨both, false, ⟨none, some "1", none, none⟩⟩ values ∧
      agrees ⟨both, false, ⟨some "1", none, none, some "2"⟩⟩ values ∧
      agrees ⟨.single ⟨3, by decide⟩, false, ⟨none, none, some "1", none⟩⟩
        (.single thirdEdgeDigest) := by
  rw [← edge_values, ← edge_value]
  intro base drawn agrees both values
  have hagrees {request : StandaloneRequest} {run : StandaloneRun}
    (haccepted : request.run = .ok run) :
      agrees request (request.indexSpec.values (sha256Digest edgeCompress)
        (firstEdgeDigest.xor firstEdgeDigest)) :=
    runParty_agrees fiveCurve_serves fiveCurve_serves
      (selectGadget_direct (by decide) secondEdgeDigest thirdEdgeDigest) (selectGadget_ands ..)
      (by decide +kernel) _ _ _ _ _ _ _ _ _ _ haccepted
  exact ⟨hagrees (show StandaloneRequest.run _ = .ok ⟨.batch, [2, 3]⟩ by decide +kernel),
    hagrees (show StandaloneRequest.run _ = .ok ⟨.tree 0, [2, 3]⟩ by decide +kernel),
    hagrees (show StandaloneRequest.run _ = .ok ⟨.cache 16 2, [2, 3]⟩ by decide +kernel),
    hagrees (show StandaloneRequest.run _ = .ok ⟨.chunked 1, [3]⟩ by decide +kernel)⟩

end Parties

end Shachain2pc
