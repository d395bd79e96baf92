import Shachain2pc.Compat.TripleRounds

/-!
# Batches of triples of two pools

Two pools compute a batch together. Every layer of leaky products is corrected in public and
leaves both parties with equal check values, so the equality check at the end passes. The
layers are combined under rotations on which the mirrored transcripts agree, and the opened
differences turn the random products into those of the inputs.
-/

namespace Shachain2pc

open JointRuns AuthenticatedBits
open Ag2pcShareSlices Ag2pcTriplePoolState

namespace Ag2pcTriplePool

variable {sha256 : List UInt8 → Value32} {base : PoolBase (StreamEnd sha256)}
  {deltaA deltaB : Block} {l : ℕ} {ours theirs : Ag2pcShareSlices}

/-! ## Leaky products -/

/-- Two parties have products. -/
structure LayerPaired (deltaA deltaB : Block) (l : ℕ) (ours theirs : Ag2pcShareSlices) : Prop where
  columns : ours.Columns l
  columns' : theirs.Columns l
  products : Products l deltaA deltaB ours theirs

/-- Two parties have the same hashes. -/
structure HashesPaired (x y : Ag2pcComputeHashes) : Prop where
  same : x = y
  mitc : x.gmitc = x.emitc

/-- An entry of a list which is given by its positions. -/
theorem getD_map_range {A : Type} (f : ℕ → A) {k : ℕ} (hk : k < l) (d : A) :
    ((List.range l).map f).getD k d = f k := by
  rw [List.getD_eq_getElem _ _ (by simpa using hk), List.getElem_map, List.getElem_range]

/-- Bits given by their positions. -/
theorem bits_map_range {f : ℕ → UInt8} (hf : ∀ k, f k &&& 1 = f k) :
    Bits l ((List.range l).map f) :=
  ⟨by simp, fun b hb => by
    obtain ⟨k, -, rfl⟩ := List.mem_map.mp hb
    exact hf k⟩

/-- The hash of the batch of an index. -/
def layerTweak (base : PoolBase (StreamEnd sha256)) (hashes : Ag2pcComputeHashes) (k : ℕ) :
    Block → Block :=
  (Mitccrh8.hash base.permute).tweak ((Mitccrh8.hash base.permute).after hashes.gmitc (k / 8))

/-- The hashes after a layer with the given check values. -/
def layerHashes (base : PoolBase (StreamEnd sha256)) (hashes : Ag2pcComputeHashes) (l : ℕ)
    (checks : List Block) :
    Ag2pcComputeHashes :=
  let mitc := (Mitccrh8.hash base.permute).after hashes.gmitc ((l + 7) / 8)
  ⟨mitc, mitc, hashes.feq ++ macBytes checks⟩

/-- What a party does in a layer, when it receives rows and bits. -/
theorem runs_leakyAndHalfgate {pool pool₁ pool₂ : Ag2pcTriplePool (StreamEnd sha256)}
    {shares : Ag2pcShareSlices} {hashes : Ag2pcComputeHashes}
    {rounds rounds' : Rounds (List (Event UInt8))} {peerRow check : ℕ → Block}
    {sMe sPeer : List UInt8} {d : ℕ → UInt8} (hcolumns : shares.Columns l)
    (hmitc : hashes.gmitc = hashes.emitc)
    (hcheck : ∀ k < l,
      check k = pool.state.leakyCheck (layerTweak base hashes k) shares l (peerRow k) k)
    (hsMe : sMe = (List.range l).map fun k => blockLsb1 (check k)) (hsPeer : sPeer.length = l)
    (hblocks : Runs (exchangeBlocks ((List.range l).map fun k => pool.state.leakyRow
      (layerTweak base hashes k) shares l k) l) pool rounds ((List.range l).map peerRow) pool₁)
    (hbits : Runs (exchangeBoolVector sMe l) pool₁ rounds' sPeer pool₂)
    (hd : d = fun k => sMe.getD k 0 ^^^ sPeer.getD k 0) :
    Runs (leakyAndHalfgate base shares l hashes) pool (rounds ++ rounds')
      (pool.state.correctedSlices l d shares l,
        layerHashes base hashes l ((List.range l).map fun k =>
        blockXor (check k) (blockAnd pool.state.delta (selectBlock (d k))))) pool₂ := by
  have hchecks :
      (List.range l).map (fun k => pool.state.leakyCheck (layerTweak base hashes k) shares l
      (((List.range l).map peerRow).getD k Block.zero) k) = (List.range l).map check :=
    List.map_congr_left fun k hk => by
      rw [hcheck k (List.mem_range.mp hk), getD_map_range peerRow (List.mem_range.mp hk)]
  have hbitsMe :
      (List.range l).map
        (fun k => blockLsb1 (pool.state.leakyCheck (layerTweak base hashes k) shares l
      (((List.range l).map peerRow).getD k Block.zero) k)) = sMe := by
    have hmapped := congrArg (List.map blockLsb1) hchecks
    rw [List.map_map, List.map_map] at hmapped
    exact hmapped.trans hsMe.symm
  have hprepare : pool.state.leakyAndPrepareS (Mitccrh8.hash base.permute) shares l hashes.emitc
      ((List.range l).map peerRow) =
        .ok ((Mitccrh8.hash base.permute).after hashes.gmitc ((l + 7) / 8), sMe,
          (List.range l).map check) := by
    rw [leakyAndPrepareS_eq hcolumns (by simp), ← hmitc]
    exact congrArg Except.ok (Prod.ext rfl (Prod.ext hbitsMe hchecks))
  have hlength : sMe.length = l := by simp [hsMe]
  subst hd
  refine .get ?_ fun _ _ => rfl
  refine runs_onShares (leakyAndPrepareG_eq hcolumns hashes.gmitc)
    (hblocks.bind (runs_onShares hprepare ?_))
  exact hbits.bindQuiet
    (runs_onShares (leakyAndFinish_eq hcolumns hlength hsPeer check hashes.feq) (.pure _ _))

/-- A layer of leaky products is corrected, and both parties absorb the same check values. -/
theorem joint_leakyAndHalfgate {hashes : Ag2pcComputeHashes} (hmitc : hashes.gmitc = hashes.emitc)
    (hours : ours.Columns l) (htheirs : theirs.Columns l)
    (hrelated : Related l deltaA deltaB ours theirs) :
    Joint (PoolPaired CotReady deltaA deltaB) (leakyAndHalfgate base ours l hashes)
      (leakyAndHalfgate base.peer theirs l hashes)
      fun x alice y bob => (LayerPaired deltaA deltaB l x.1 y.1 ∧ HashesPaired x.2 y.2) ∧
        PoolPaired CotReady deltaA deltaB alice bob := by
  intro alice bob h
  have hrelated' : Related l alice.state.delta bob.state.delta ours theirs := by
    rwa [h.offsetA, h.offsetB]
  obtain ⟨rowA, hrowA⟩ :
      ∃ row, row = fun k => alice.state.leakyRow (layerTweak base hashes k) ours l k := ⟨_, rfl⟩
  obtain ⟨rowB, hrowB⟩ :
      ∃ row, row = fun k => bob.state.leakyRow (layerTweak base hashes k) theirs l k := ⟨_, rfl⟩
  obtain ⟨checkA, hcheckA⟩ : ∃ check, check = fun k =>
    alice.state.leakyCheck (layerTweak base hashes k) ours l (rowB k) k := ⟨_, rfl⟩
  obtain ⟨checkB, hcheckB⟩ : ∃ check, check = fun k =>
    bob.state.leakyCheck (layerTweak base hashes k) theirs l (rowA k) k := ⟨_, rfl⟩
  obtain ⟨bitsA, hbitsA⟩ :
      ∃ bits, bits = (List.range l).map fun k => blockLsb1 (checkA k) := ⟨_, rfl⟩
  obtain ⟨bitsB, hbitsB⟩ :
      ∃ bits, bits = (List.range l).map fun k => blockLsb1 (checkB k) := ⟨_, rfl⟩
  obtain ⟨d, hd⟩ : ∃ d : ℕ → UInt8, d = fun k => bitsA.getD k 0 ^^^ bitsB.getD k 0 := ⟨_, rfl⟩
  have hswap : d = fun k => bitsB.getD k 0 ^^^ bitsA.getD k 0 := by
    rw [hd]
    exact funext fun k => UInt8.xor_comm ..
  have hisA : Bits l bitsA := hbitsA ▸ bits_map_range fun _ => blockLsb1_and_one _
  have hisB : Bits l bitsB := hbitsB ▸ bits_map_range fun _ => blockLsb1_and_one _
  have hdAt : ∀ k < l, d k = blockLsb1 (checkA k) ^^^ blockLsb1 (checkB k) := fun k hk => by
    rw [hd, hbitsA, hbitsB]
    exact congrArg₂ (· ^^^ ·) (getD_map_range _ hk 0) (getD_map_range _ hk 0)
  have hproducts := h.honest.products_corrected hours htheirs hrelated' (layerTweak base hashes)
      (d := d) fun k hk => by
    rw [hdAt k hk, hcheckA, hcheckB, hrowA, hrowB]
  have hagree :
      (List.range l).map
        (fun k => blockXor (checkA k) (blockAnd alice.state.delta (selectBlock (d k)))) =
      (List.range l).map fun k =>
          blockXor (checkB k) (blockAnd bob.state.delta (selectBlock (d k))) :=
    List.map_congr_left fun k hk => by
      have hlt := List.mem_range.mp hk
      have hcheck := h.honest.checks_agree hrelated' (layerTweak base hashes k) hlt (d := d k) (by
        rw [hdAt k hlt, hcheckA, hcheckB, hrowA, hrowB])
      rw [hcheckA, hcheckB, hrowA, hrowB]
      exact hcheck
  obtain ⟨left, right, x, alice₁, y, bob₁, hmeets, hrowsA, hrowsB, ⟨rfl, rfl⟩, h₁⟩ :=
    @joint_exchangeBlocks sha256 deltaA deltaB ((List.range l).map rowA)
      ((List.range l).map rowB) l (by simp)
      (by simp) alice bob h
  obtain ⟨left', right', x', alice₂, y', bob₂, hmeets', hopenA, hopenB, ⟨rfl, rfl⟩, h₂⟩ :=
    joint_exchangeBoolVector hisA hisB _ _ h₁
  have hrunA :=
    @runs_leakyAndHalfgate _ base l _ _ _ _ _ _ _ _ _ _ _ d hours hmitc
      (fun k _ => congrFun hcheckA k)
    hbitsA hisB.1 (hrowA ▸ hrowsA) hopenA hd
  have hrunB := @runs_leakyAndHalfgate _ base.peer l _ _ _ _ _ _ _ _ _ _ _ d htheirs hmitc
    (fun k _ => congrFun hcheckB k) hbitsB hisA.1 (hrowB ▸ hrowsB) hopenB hswap
  refine ⟨left ++ left', right ++ right', _, alice₂, _, bob₂, Traffic.meets_append hmeets hmeets',
    hrunA, hrunB, ?_, h₂⟩
  rw [h.offsetA, h.offsetB] at hproducts
  exact ⟨⟨columns_correctedSlices hours d l, columns_correctedSlices htheirs d l, hproducts⟩,
    ⟨congrArg (layerHashes base hashes l) hagree, rfl⟩⟩

/-! ## Buckets -/

/-- The bits which a party opens in a bucket. -/
theorem bits_opened (acc layer : Ag2pcShareSlices) (l r : ℕ) :
    Bits l ((List.range l).map (openedBit acc layer l r)) :=
  bits_map_range fun _ => bit_xor (blockLsb_and_one _) (blockLsb_and_one _)

/-- What a party does in a bucket, when it receives bits. -/
theorem runs_bucketOneLayer {pool pool' : Ag2pcTriplePool (StreamEnd sha256)}
    {acc layer : Ag2pcShareSlices} {r : ℕ} {rounds : Rounds (List (Event UInt8))}
    {dMe dPeer : List UInt8} {d : ℕ → UInt8} (hacc : acc.Columns l) (hlayer : layer.Columns l)
    (hdMe : dMe = (List.range l).map (openedBit acc layer l r)) (hdPeer : dPeer.length = l)
    (hbits : Runs (exchangeBoolVector dMe l) pool rounds dPeer pool')
    (hd : d = fun k => dMe.getD k 0 ^^^ dPeer.getD k 0) :
    Runs (bucketOneLayer acc layer l r) pool rounds (bucketSlices acc layer l r d) pool' := by
  subst hd
  refine runs_onShares (bucketPrepareLayer_eq hacc hlayer r) (hdMe ▸ hbits.bindQuiet ?_)
  exact runs_onSharesLast
    (bucketFinishLayer_eq (columns_addLayer hacc r) hlayer r (by simp [hdMe]) hdPeer)

/-- A layer is added to a bucket. -/
theorem joint_bucketOneLayer {layer layer' : Ag2pcShareSlices}
    (hacc : LayerPaired deltaA deltaB l ours theirs)
    (hlayer : LayerPaired deltaA deltaB l layer layer') {r : ℕ} (hr : r < l) :
    Joint (PoolPaired CotReady deltaA deltaB) (bucketOneLayer ours layer l r)
      (bucketOneLayer theirs layer' l r)
      fun x (alice : Ag2pcTriplePool (StreamEnd sha256)) y bob =>
        LayerPaired deltaA deltaB l x y ∧ PoolPaired CotReady deltaA deltaB alice bob := by
  intro alice bob h
  obtain ⟨bitsA, hbitsA⟩ : ∃ bits, bits = (List.range l).map (openedBit ours layer l r) := ⟨_, rfl⟩
  obtain ⟨bitsB, hbitsB⟩ :
      ∃ bits, bits = (List.range l).map (openedBit theirs layer' l r) := ⟨_, rfl⟩
  obtain ⟨d, hd⟩ : ∃ d : ℕ → UInt8, d = fun k => bitsA.getD k 0 ^^^ bitsB.getD k 0 := ⟨_, rfl⟩
  have hswap : d = fun k => bitsB.getD k 0 ^^^ bitsA.getD k 0 := by
    rw [hd]
    exact funext fun k => UInt8.xor_comm ..
  have hisA : Bits l bitsA := hbitsA ▸ bits_opened ..
  have hisB : Bits l bitsB := hbitsB ▸ bits_opened ..
  have hdAt : ∀ k < l, d k = openedBit ours layer l r k ^^^ openedBit theirs layer' l r k :=
      fun k hk => by
    rw [hd, hbitsA, hbitsB]
    exact congrArg₂ (· ^^^ ·) (getD_map_range _ hk 0) (getD_map_range _ hk 0)
  have hproducts := products_bucket hacc.columns hacc.columns' hacc.products hlayer.products hr hdAt
  obtain ⟨left, right, x, alice₁, y, bob₁, hmeets, hopenA, hopenB, ⟨rfl, rfl⟩, h₁⟩ :=
    joint_exchangeBoolVector hisA hisB _ _ h
  exact ⟨left, right, _, alice₁, _, bob₁, hmeets,
    runs_bucketOneLayer hacc.columns hlayer.columns hbitsA hisB.1 hopenA hd,
    runs_bucketOneLayer hacc.columns' hlayer.columns' hbitsB hisA.1 hopenB hswap,
    ⟨columns_bucketSlices hacc.columns r d, columns_bucketSlices hacc.columns' r d, hproducts⟩, h₁⟩

/-- The oracle of a short domain takes two digests. -/
theorem digestSeed_ok (base : PoolBase (StreamEnd sha256)) (domain : String)
    (hdomain : (utf8Bytes domain).length < 2 ^ 32) (main sibling : Block) :
    ∃ seed, digestSeed base domain main sibling = .ok seed := by
  have hblock (block : Block) : block.toList.length < 2 ^ 32 := by simp
  refine ⟨(EmpRo.ofFrames domain [(1, utf8Bytes domain), (3, Block.zero.toList), (3, main.toList),
    (3, sibling.toList)]).squeezeBlock base.sha256, ?_⟩
  rw [digestSeed, EmpRo.new_eq hdomain]
  simp only [Rust.ok_bind, EmpRo.absorbBlock, EmpRo.frame_ofFrames _ _ (hblock _)]
  rfl

/-- Paired pools have one digest of each stream. -/
theorem PoolPaired.digests {alice bob : Ag2pcTriplePool (StreamEnd sha256)}
    (h : PoolPaired CotReady deltaA deltaB alice bob) :
    ∃ main sibling, TranscriptIo.getDigest alice.streams.main = .ok main ∧
      TranscriptIo.getDigest alice.streams.sibling = .ok sibling ∧
      TranscriptIo.getDigest bob.streams.main = .ok main ∧
      TranscriptIo.getDigest bob.streams.sibling = .ok sibling := by
  obtain ⟨main, hmain, hmain'⟩ := h.second.1.ot.mirrored.digest
    (h.second.1.ot.enabled h.second.2 h.second.1.ot.active)
  obtain ⟨sibling, hsibling, hsibling'⟩ := h.first.1.ot.mirrored.digest
    (h.first.1.ot.enabled h.first.2 h.first.1.ot.active)
  simp only [streams, h.honest.alice, h.honest.bob]
  exact ⟨main, sibling, hmain', hsibling, hmain, hsibling'⟩

/-- The digests of a pool's streams do not depend on what is to come. -/
theorem getDigest_streams (todo done : Rounds (List (Event UInt8)))
    (pool : Ag2pcTriplePool (StreamEnd sha256)) :
    TranscriptIo.getDigest (Port.load todo done pool).streams.main =
      TranscriptIo.getDigest pool.streams.main ∧
      TranscriptIo.getDigest (Port.load todo done pool).streams.sibling =
        TranscriptIo.getDigest pool.streams.sibling := by
  obtain ⟨⟨party, ssp, delta, minted⟩, abit1, abit2⟩ := pool
  cases party <;> exact ⟨rfl, rfl⟩

/-- Both parties rotate a layer alike. -/
theorem joint_rotation {A B : Type} {post : A → Ag2pcTriplePool (StreamEnd sha256) → B →
    Ag2pcTriplePool (StreamEnd sha256) → Prop} {next : Block → PoolM (StreamEnd sha256) A}
    {next' : Block → PoolM (StreamEnd sha256) B}
    (h : ∀ seed, Joint (PoolPaired CotReady deltaA deltaB) (next seed) (next' seed) post) :
    Joint (PoolPaired CotReady deltaA deltaB) (do
      let streams := (← get).streams
      let main ← getDigest streams.main
      let sibling ← getDigest streams.sibling
      let seed ← ofExcept (bucketSeed base main sibling)
      next seed) (do
      let streams := (← get).streams
      let main ← getDigest streams.main
      let sibling ← getDigest streams.sibling
      let seed ← ofExcept (bucketSeed base.peer main sibling)
      next' seed) post := by
  intro alice bob hpaired
  obtain ⟨main, sibling, hmain, hsibling, hmain', hsibling'⟩ := hpaired.digests
  obtain ⟨seed, hseed⟩ := digestSeed_ok base "AG2PC RO" (by decide +kernel) main sibling
  obtain ⟨left, right, a, alice', b, bob', hmeets, hleft, hright, hpost⟩ := h seed _ _ hpaired
  refine ⟨left, right, a, alice', b, bob', hmeets, ?_, ?_, hpost⟩
  · exact .get
      (.ofExcept (by rw [hmain]; rfl) (.ofExcept (by rw [hsibling]; rfl) (.ofExcept hseed hleft)))
      fun todo done => by simp only [getDigest, getDigest_streams todo done alice]
  · exact .get
      (.ofExcept (by rw [hmain']; rfl)
        (.ofExcept (by rw [hsibling']; rfl) (.ofExcept hseed hright)))
      fun todo done => by simp only [getDigest, getDigest_streams todo done bob]

/-- Drawn columns are authenticated. -/
theorem Drawn.columns {x y : List Block × List Block} (h : Drawn deltaA deltaB (3 * l) x y) :
    Ag2pcShareSlices.Columns l ⟨x.1, x.2⟩ ∧ Ag2pcShareSlices.Columns l ⟨y.1, y.2⟩ ∧
      Related l deltaA deltaB ⟨x.1, x.2⟩ ⟨y.1, y.2⟩ :=
  ⟨⟨h.second.2.length_eq.symm.trans h.second.1, h.first.1⟩,
    ⟨h.first.2.length_eq.symm.trans h.first.1, h.second.1⟩, fun _ hj => h.authenticated hj⟩

/-- Layer after layer is computed, corrected and added, under rotations which both parties know. -/
theorem joint_layeredBucketIntoAcc (hpositive : 0 < l) (layers : ℕ) {hashes : Ag2pcComputeHashes}
    (hmitc : hashes.gmitc = hashes.emitc) (hacc : LayerPaired deltaA deltaB l ours theirs) :
    Joint (PoolPaired CotReady deltaA deltaB) (layeredBucketIntoAcc base l layers ours hashes)
      (layeredBucketIntoAcc base.peer l layers theirs hashes)
      fun x alice y bob => (LayerPaired deltaA deltaB l x.1 y.1 ∧ HashesPaired x.2 y.2) ∧
        PoolPaired CotReady deltaA deltaB alice bob := by
  induction layers generalizing ours theirs hashes with
  | zero => exact .pure fun _ _ h => ⟨⟨hacc, rfl, hmitc⟩, h⟩
  | succ layers ih =>
    refine (joint_genCotShares (3 * l)).bind fun x y => Joint.assume fun hdrawn => ?_
    obtain ⟨hcolumns, hcolumns', hrelated⟩ := hdrawn.columns
    refine (joint_leakyAndHalfgate hmitc hcolumns hcolumns' hrelated).bind fun z w =>
      Joint.assume fun hlayer => ?_
    obtain ⟨hlayer, hsame, hmitc'⟩ := hlayer
    refine joint_rotation fun seed => ?_
    refine (joint_bucketOneLayer hacc hlayer (Nat.mod_lt _ hpositive)).bind fun acc acc' =>
      Joint.assume fun hnext => ?_
    rw [← hsame]
    exact ih hmitc' hnext

/-! ## The equality check -/

/-- Equal digests pass the check on the main stream. -/
theorem joint_feqCheck {digest : List UInt8} (hlength : digest.length = 32) (nonce nonce' : Block) :
    Joint (PoolPaired CotReady deltaA deltaB) (feqCheck base digest nonce)
      (feqCheck base.peer digest nonce')
      fun _ alice _ bob => PoolPaired CotReady deltaA deltaB alice bob := by
  intro alice bob h
  obtain ⟨left, right, a, alice', b, bob', hmeets, hours, htheirs, hpost⟩ :=
    joint_main (exchanges_feqCheckAlice base hlength nonce)
      (exchanges_feqCheckBob base hlength nonce)
      (Crossing.opposite _) alice bob h
  refine ⟨left, right, a, alice', b, bob', hmeets, .get ?_ fun _ _ => rfl,
    .get ?_ fun _ _ => rfl, hpost.2⟩
  · rw [h.honest.alice]
    exact hours
  · rw [h.honest.bob]
    exact htheirs

/-! ## The products of inputs -/

/-- The share at a position. -/
def nth (shares : List AShareBundle) (k : ℕ) : AShareBundle :=
  shares.getD k ⟨Block.zero, Block.zero⟩

/-- Shares which two parties hold of the same bits. -/
def SharesPaired (deltaA deltaB : Block) : List AShareBundle → List AShareBundle → Prop :=
  List.Forall₂ (AuthenticatedPair deltaA deltaB)

/-- The bits which two parties share. -/
def sharedBits (ours theirs : List AShareBundle) : List UInt8 :=
  List.zipWith (fun x y => blockLsb x.mac ^^^ blockLsb y.mac) ours theirs

/-- A batch with its random products inserted. -/
def filled (bucketSize : ℕ → ℕ → ℕ) (pool : Ag2pcTriplePoolState) (repA repB : List AShareBundle)
    (r : List Block × List Block) : Ag2pcComputeBuffer where
  l := repA.length
  bucket := bucketSize pool.ssp repA.length
  repALsb := repA.map fun share => blockLsb share.mac
  repBLsb := repB.map fun share => blockLsb share.mac
  accMac := repA.map (·.mac) ++ repB.map (·.mac) ++ r.1
  accKey := repA.map (·.key) ++ repB.map (·.key) ++ r.2

section Inputs

variable {bucketSize : ℕ → ℕ → ℕ} {pool : Ag2pcTriplePoolState} {repA repB : List AShareBundle}
  {r : List Block × List Block}

/-- The first two columns are kept when the third is inserted. -/
theorem insertRandomCots_eq (hlength : repA.length = repB.length) :
    ∃ compute, Ag2pcComputeBuffer.new bucketSize pool repA repB = .ok compute ∧
    compute.l = repA.length ∧
      ∀ r : List Block × List Block, r.1.length = repA.length → r.2.length = repA.length →
        compute.insertRandomCots r.1 r.2 = .ok (filled bucketSize pool repA repB r) := by
  refine ⟨_, if_neg (not_not.mpr hlength), rfl, fun r hmac hkey => ?_⟩
  have htake (f : AShareBundle → Block) :
      (repA.map f ++ repB.map f ++ List.replicate repA.length Block.zero).take
      (2 * repA.length) = repA.map f ++ repB.map f :=
    List.take_left'
      (by rw [List.length_append, List.length_map, List.length_map, ← hlength, Nat.two_mul])
  rw [Ag2pcComputeBuffer.insertRandomCots, if_neg (not_not.mpr hmac),
    if_neg (not_not.mpr hkey), htake, htake]
  rfl

/-- The batch has three columns. -/
theorem columns_filled (hlength : repA.length = repB.length) (hmac : r.1.length = repA.length)
    (hkey : r.2.length = repA.length) :
    (filled bucketSize pool repA repB r).acc.Columns repA.length where
  mac := by
    simp only [filled, Ag2pcComputeBuffer.acc, List.length_append, List.length_map]
    omega
  key := by
    simp only [filled, Ag2pcComputeBuffer.acc, List.length_append, List.length_map]
    omega

/-- A position of three lists. -/
theorem getD_three (f : AShareBundle → Block) (hf : f ⟨Block.zero, Block.zero⟩ = Block.zero)
    (hlength : repA.length = repB.length) (last : List Block) {k : ℕ} (hk : k < repA.length) :
    (repA.map f ++ repB.map f ++ last).getD k Block.zero = f (nth repA k) ∧
      (repA.map f ++ repB.map f ++ last).getD (repA.length + k) Block.zero = f (nth repB k) ∧
      (repA.map f ++ repB.map f ++ last).getD (2 * repA.length + k) Block.zero =
        last.getD k Block.zero := by
  have hget (shares : List AShareBundle) : (shares.map f).getD k Block.zero = f (nth shares k) := by
    rw [← hf, List.getD_map, nth]
  refine ⟨?_, ?_, ?_⟩
  · rw [List.getD_append _ _ _ _ (by simp; omega),
      List.getD_append _ _ _ _ (by simpa using hk), hget]
  · rw [List.getD_append _ _ _ _ (by simp; omega), List.getD_append_right _ _ _ _ (by simp),
      List.length_map, Nat.add_sub_cancel_left, hget]
  · rw [List.getD_append_right _ _ _ _ (by simp; omega), List.length_append, List.length_map,
      List.length_map, ← hlength, ← Nat.two_mul, Nat.add_sub_cancel_left]

/-- The shares of a batch. -/
theorem share_filled (bucketSize : ℕ → ℕ → ℕ) (pool : Ag2pcTriplePoolState)
    (r : List Block × List Block) (hlength : repA.length = repB.length) {k : ℕ}
    (hk : k < repA.length) :
    (filled bucketSize pool repA repB r).acc.share k = (nth repA k).share ∧
      (filled bucketSize pool repA repB r).acc.share (repA.length + k) = (nth repB k).share ∧
      (filled bucketSize pool repA repB r).acc.share (2 * repA.length + k) =
        Ag2pcShareSlices.share ⟨r.1, r.2⟩ k := by
  obtain ⟨hmac, hmac', hmac''⟩ := getD_three AShareBundle.mac rfl hlength r.1 hk
  obtain ⟨hkey, hkey', hkey''⟩ := getD_three AShareBundle.key rfl hlength r.2 hk
  simp only [share, bundle, Ag2pcComputeBuffer.acc, filled, AShareBundle.share]
  rw [hmac, hmac', hmac'', hkey, hkey', hkey'']
  exact ⟨rfl, rfl, rfl⟩

end Inputs

/-- Shared bits are authenticated at every position. -/
theorem SharesPaired.authenticated {xs ys : List AShareBundle}
    (h : SharesPaired deltaA deltaB xs ys) {k : ℕ} (hk : k < xs.length) :
    Authenticated lsb (blockVec deltaA) (blockVec deltaB) (nth xs k).share (nth ys k).share := by
  have hk' : k < ys.length := h.length_eq ▸ hk
  rw [nth, nth, List.getD_eq_getElem _ _ hk, List.getD_eq_getElem _ _ hk']
  exact authenticatedPair_iff.mp ((List.forall₂_iff_get.mp h).2 k hk hk')

/-- The shared bits, by their positions. -/
theorem sharedBits_eq {xs ys : List AShareBundle} (hxs : xs.length = l) (hys : ys.length = l) :
    sharedBits xs ys = (List.range l).map fun k => blockLsb (nth xs k).mac ^^^ blockLsb
      (nth ys k).mac := by
  refine List.ext_getElem (by simp [sharedBits, hxs, hys]) fun k hk _ => ?_
  rw [sharedBits, List.length_zipWith] at hk
  simp only [sharedBits, List.getElem_zipWith, List.getElem_map, List.getElem_range, nth]
  rw [List.getD_eq_getElem _ _ (by omega), List.getD_eq_getElem _ _ (by omega)]

/-- The columns of two batches are authenticated. -/
theorem related_filled {bucketSize bucketSize' : ℕ → ℕ → ℕ} {p q : Ag2pcTriplePoolState}
    {repA repB repA' repB' : List AShareBundle} {r r' : List Block × List Block}
    (hlength : repA.length = repB.length) (hA : SharesPaired deltaA deltaB repA repA')
    (hB : SharesPaired deltaA deltaB repB repB') (hdrawn : Drawn deltaA deltaB repA.length r r') :
    Related repA.length deltaA deltaB (filled bucketSize p repA repB r).acc
      (filled bucketSize' q repA' repB' r').acc := by
  have hlength' : repA'.length = repB'.length :=
    hA.length_eq.symm.trans (hlength.trans hB.length_eq)
  intro j hj
  obtain ⟨k, hk, hcases⟩ :
      ∃ k < repA.length, j = k ∨ j = repA.length + k ∨ j = 2 * repA.length + k :=
    ⟨j % repA.length, Nat.mod_lt _ (by omega), by
      have hdiv := Nat.div_add_mod j repA.length
      have hsmall : j / repA.length < 3 := Nat.div_lt_of_lt_mul (by omega)
      interval_cases hquotient : j / repA.length <;> omega⟩
  obtain ⟨hfirst, hsecond, hthird⟩ := share_filled bucketSize p r hlength hk
  obtain ⟨hfirst', hsecond', hthird'⟩ := share_filled bucketSize' q r' hlength' (hA.length_eq ▸ hk)
  rw [← hA.length_eq] at hsecond' hthird'
  rcases hcases with rfl | rfl | rfl
  · rw [hfirst, hfirst']
    exact hA.authenticated hk
  · rw [hsecond, hsecond']
    exact hB.authenticated (hlength ▸ hk)
  · rw [hthird, hthird']
    exact hdrawn.authenticated hk

/-! ## The outputs -/

/-- The outputs of a batch, from the opened bits. -/
def finished (compute : Ag2pcComputeBuffer) (pool : Ag2pcTriplePoolState) (s t : ℕ → UInt8) :
    List AShareBundle :=
  (List.range compute.l).map fun i => compute.finishAt pool (s i) (t i) i

/-- `finish` takes the bits of both parties. -/
theorem finish_eq {compute : Ag2pcComputeBuffer} {pool : Ag2pcTriplePoolState}
    {xbMe ybMe xbPeer ybPeer : List UInt8} (hxbMe : Bits compute.l xbMe)
    (hybMe : Bits compute.l ybMe) (hxbPeer : Bits compute.l xbPeer)
    (hybPeer : Bits compute.l ybPeer) : compute.finish pool xbMe ybMe xbPeer ybPeer =
      .ok (finished compute pool (fun i => xbMe.getD i 0 ^^^ xbPeer.getD i 0)
        fun i => ybMe.getD i 0 ^^^ ybPeer.getD i 0) := by
  simp only [Ag2pcComputeBuffer.finish, List.forIn_cons, List.forIn_nil, hxbMe.1, hybMe.1,
    hxbPeer.1, hybPeer.1, ne_eq, not_true_eq_false, if_false]
  rfl

/-- The share of an output. -/
theorem share_finishAt (compute : Ag2pcComputeBuffer) (pool : Ag2pcTriplePoolState) (s t : UInt8)
    (i : ℕ) :
    (compute.finishAt pool s t i).share = pool.correct (bitAt s 0 * bitAt t 0)
      (((compute.acc.share (2 * compute.l + i)).add
        ((compute.acc.share (compute.l + i)).scale (bitAt s 0))).add
        ((compute.acc.share i).scale (bitAt t 0))) := by
  simp only [Ag2pcComputeBuffer.finishAt, correct]
  cases pool.party
  · simp [AShareBundle.share, Share.addOwn, Share.add, Share.scale, share, bundle,
      Ag2pcComputeBuffer.acc]
  · simp [AShareBundle.share, Share.addPeer, Share.add, Share.scale, share, bundle,
      Ag2pcComputeBuffer.acc]

/-- A bit which two parties share, over the bits of blocks. -/
theorem bitAt_shared (x y : AShareBundle) :
    bitAt (blockLsb x.mac ^^^ blockLsb y.mac) 0 = sharedBit lsb x.share y.share := by
  rw [bitAt_xor, bitAt_blockLsb, bitAt_blockLsb]
  rfl

/-- The outputs are authenticated, and their bits are the products of the bits of the inputs. -/
theorem outputs_paired {p q : Ag2pcTriplePoolState} (honest : Honest p q)
    {compute compute' : Ag2pcComputeBuffer} (hl : compute.l = l) (hl' : compute'.l = l)
    (hlayer : LayerPaired p.delta q.delta l compute.acc compute'.acc)
    {repA repB repA' repB' : List AShareBundle} {s t : ℕ → UInt8}
    (hs : ∀ i < l, bitAt (s i) 0 = sharedBit lsb (compute.acc.share i) (compute'.acc.share i) +
      sharedBit lsb (nth repA i).share (nth repA' i).share)
    (ht : ∀ i < l, bitAt (t i) 0 = sharedBit lsb (compute.acc.share (l + i))
      (compute'.acc.share (l + i)) + sharedBit lsb (nth repB i).share (nth repB' i).share)
    (hlengths : repA.length = l ∧ repA'.length = l ∧ repB.length = l ∧ repB'.length = l) :
    SharesPaired p.delta q.delta (finished compute p s t) (finished compute' q s t) ∧
      sharedBits (finished compute p s t) (finished compute' q s t) =
        List.zipWith (· &&& ·) (sharedBits repA repA') (sharedBits repB repB') := by
  subst hl
  have hshift (i : ℕ) (hi : i < compute.l) :=
    (hlayer.products i hi).shift lsb_bit0Mask honest.lsb_bob (bitAt (s i) 0) (bitAt (t i) 0)
  have hours (i : ℕ) : (compute.finishAt p (s i) (t i) i).share = _ :=
    share_finishAt compute p (s i) (t i) i
  have htheirs (i : ℕ) : (compute'.finishAt q (s i) (t i) i).share = _ :=
    share_finishAt compute' q (s i) (t i) i
  simp only [honest.correct_alice] at hours
  simp only [hl', honest.correct_bob] at htheirs
  constructor
  · rw [finished, finished, hl', SharesPaired, List.forall₂_map_left_iff,
      List.forall₂_map_right_iff, List.forall₂_same]
    intro i hi
    rw [authenticatedPair_iff, hours, htheirs]
    exact (hshift i (List.mem_range.mp hi)).1
  · rw [sharedBits_eq hlengths.1 hlengths.2.1, sharedBits_eq hlengths.2.2.1 hlengths.2.2.2,
      finished, finished, hl',
      sharedBits, List.zipWith_map, List.zipWith_map, List.zipWith_self, List.zipWith_self]
    refine List.map_congr_left fun i hi => ?_
    have hlt := List.mem_range.mp hi
    refine (bit_eq_iff (bit_xor (blockLsb_and_one _) (blockLsb_and_one _)) ?_).mpr ?_
    · rw [UInt8.and_assoc, bit_xor (blockLsb_and_one _) (blockLsb_and_one _)]
    · rw [bitAt_and, bitAt_shared, bitAt_shared, bitAt_shared, hours, htheirs, (hshift i hlt).2,
        hs i hlt, ht i hlt]
      grind

/-- The bit which a party opens for an input. -/
def openedInput (acc : Ag2pcShareSlices) (rep : List AShareBundle) (offset i : ℕ) : UInt8 :=
  blockLsb (nth rep i).mac ^^^ blockLsb (acc.mac.getD (offset + i) Block.zero)

/-- Both parties' opened bits give the difference of an input and a factor. -/
theorem bitAt_openedInput (acc acc' : Ag2pcShareSlices) (rep rep' : List AShareBundle)
    (offset i : ℕ) :
    bitAt (openedInput acc rep offset i ^^^ openedInput acc' rep' offset i) 0 =
      sharedBit lsb (acc.share (offset + i)) (acc'.share (offset + i)) +
        sharedBit lsb (nth rep i).share (nth rep' i).share := by
  simp only [openedInput, bitAt_xor, bitAt_blockLsb]
  rw [add_add_add_comm, add_comm]
  rfl

/-- The bits which a party opens. -/
theorem openingBits_eq {compute : Ag2pcComputeBuffer} {repA repB : List AShareBundle}
    (hA : compute.repALsb = repA.map fun share => blockLsb share.mac)
    (hB : compute.repBLsb = repB.map fun share => blockLsb share.mac) :
    compute.openingBits = ((List.range compute.l).map (openedInput compute.acc repA 0),
      (List.range compute.l).map (openedInput compute.acc repB compute.l)) := by
  have hget (shares : List AShareBundle) (k : ℕ) :
      (shares.map fun share => blockLsb share.mac).getD k 0 = blockLsb (nth shares k).mac := by
    have hzero : (0 : UInt8) = blockLsb (⟨Block.zero, Block.zero⟩ : AShareBundle).mac := by decide
    rw [hzero, List.getD_map (f := fun share : AShareBundle => blockLsb share.mac), nth]
  simp only [Ag2pcComputeBuffer.openingBits, hA, hB, hget]
  refine Prod.ext (List.map_congr_left fun i _ => ?_) rfl
  rw [openedInput, Nat.zero_add]
  rfl

/-- The bits which a party opens are bits. -/
theorem bits_openedInput (acc : Ag2pcShareSlices) (rep : List AShareBundle) (l offset : ℕ) :
    Bits l ((List.range l).map (openedInput acc rep offset)) :=
  bits_map_range fun _ => bit_xor (blockLsb_and_one _) (blockLsb_and_one _)

/-! ## Batches -/

section Batches

variable {A B C D : Type}
  {rel rel' : Block → CotEndpoint (StreamEnd sha256) → CotEndpoint (StreamEnd sha256) → Prop}
  {post : A → Ag2pcTriplePool (StreamEnd sha256) → B → Ag2pcTriplePool (StreamEnd sha256) → Prop}

/-- The states of paired pools. -/
structure StatesPaired (deltaA deltaB : Block) (p q : Ag2pcTriplePoolState) : Prop where
  honest : Honest p q
  offsetA : p.delta = deltaA
  offsetB : q.delta = deltaB
  ssp : p.ssp = q.ssp

/-- Both read the states of their pools. -/
theorem joint_state {next : Ag2pcTriplePoolState → PoolM (StreamEnd sha256) A}
    {next' : Ag2pcTriplePoolState → PoolM (StreamEnd sha256) B}
    (h : ∀ p q, StatesPaired deltaA deltaB p q →
      Joint (PoolPaired rel deltaA deltaB) (next p) (next' q) post) :
    Joint (PoolPaired rel deltaA deltaB) (do
      next (← get).state) (do
      next' (← get).state) post := by
  intro alice bob hpaired
  obtain ⟨left, right, a, alice', b, bob', hmeets, hleft, hright, hpost⟩ :=
    h _ _ ⟨hpaired.honest, hpaired.offsetA, hpaired.offsetB, hpaired.ssp⟩ _ _ hpaired
  exact ⟨left, right, a, alice', b, bob', hmeets, .get hleft fun _ _ => rfl,
    .get hright fun _ _ => rfl, hpost⟩

/-- Operations on shares which succeed. -/
theorem joint_onShares {result : Except Ag2pcTriplePoolError C}
    {result' : Except Ag2pcTriplePoolError D} {c : C} {d : D}
    {next : C → PoolM (StreamEnd sha256) A} {next' : D → PoolM (StreamEnd sha256) B}
    (hresult : result = .ok c) (hresult' : result' = .ok d)
    (h : Joint (PoolPaired rel deltaA deltaB) (next c) (next' d) post) :
    Joint (PoolPaired rel deltaA deltaB) (onShares result >>= next)
      (onShares result' >>= next') post := by
  intro alice bob hpaired
  obtain ⟨left, right, a, alice', b, bob', hmeets, hleft, hright, hpost⟩ := h _ _ hpaired
  exact ⟨left, right, a, alice', b, bob', hmeets, runs_onShares hresult hleft,
    runs_onShares hresult' hright, hpost⟩

/-- Both parties start from the same hashes. -/
theorem newHashes_eq (party party' : Role) : newHashes party = newHashes party' := by
  cases party <;> cases party' <;> rfl

/-- Both parties finish a batch with the bits which they opened. -/
theorem joint_finishBatch {p q : Ag2pcTriplePoolState} (hstates : StatesPaired deltaA deltaB p q)
    {compute compute' : Ag2pcComputeBuffer} (hl : compute.l = l) (hl' : compute'.l = l)
    (hlayer : LayerPaired deltaA deltaB l compute.acc compute'.acc)
    {repA repB repA' repB' : List AShareBundle}
    (hlengths : repA.length = l ∧ repA'.length = l ∧ repB.length = l ∧ repB'.length = l) :
    let xb := (List.range l).map (openedInput compute.acc repA 0)
    let xb' := (List.range l).map (openedInput compute'.acc repA' 0)
    let yb := (List.range l).map (openedInput compute.acc repB l)
    let yb' := (List.range l).map (openedInput compute'.acc repB' l)
    Joint (PoolPaired rel deltaA deltaB) (onShares (compute.finish p xb yb xb' yb'))
      (onShares
        (compute'.finish q xb' yb' xb yb)) fun x
          (alice : Ag2pcTriplePool (StreamEnd sha256)) y bob =>
        (SharesPaired deltaA deltaB x y ∧
          sharedBits x y = List.zipWith (· &&& ·) (sharedBits repA repA') (sharedBits repB repB')) ∧
        PoolPaired rel deltaA deltaB alice bob := by
  intro xb xb' yb yb' alice bob h
  obtain ⟨s, hs⟩ : ∃ s : ℕ → UInt8, s = fun i => xb.getD i 0 ^^^ xb'.getD i 0 := ⟨_, rfl⟩
  obtain ⟨t, ht⟩ : ∃ t : ℕ → UInt8, t = fun i => yb.getD i 0 ^^^ yb'.getD i 0 := ⟨_, rfl⟩
  have hs' : s = fun i => xb'.getD i 0 ^^^ xb.getD i 0 :=
    hs.trans (funext fun _ => UInt8.xor_comm ..)
  have ht' : t = fun i => yb'.getD i 0 ^^^ yb.getD i 0 :=
    ht.trans (funext fun _ => UInt8.xor_comm ..)
  have hours :=
    @finish_eq compute p xb yb xb' yb' (hl ▸ bits_openedInput ..) (hl ▸ bits_openedInput ..)
    (hl ▸ bits_openedInput ..) (hl ▸ bits_openedInput ..)
  have htheirs :=
    @finish_eq compute' q xb' yb' xb yb (hl' ▸ bits_openedInput ..) (hl' ▸ bits_openedInput ..)
    (hl' ▸ bits_openedInput ..) (hl' ▸ bits_openedInput ..)
  rw [← hs, ← ht] at hours
  rw [← hs', ← ht'] at htheirs
  have hopened (acc acc' : Ag2pcShareSlices) (rep rep' : List AShareBundle) (offset i : ℕ)
    (hi : i < l) :
      bitAt (((List.range l).map (openedInput acc rep offset)).getD i 0 ^^^
        ((List.range l).map (openedInput acc' rep' offset)).getD i 0) 0 =
        sharedBit lsb (acc.share (offset + i)) (acc'.share (offset + i)) +
          sharedBit lsb (nth rep i).share (nth rep' i).share := by
    rw [getD_map_range _ hi, getD_map_range _ hi, bitAt_openedInput]
  have hsAt : ∀ i < l, bitAt (s i) 0 = sharedBit lsb (compute.acc.share i) (compute'.acc.share i) +
      sharedBit lsb (nth repA i).share (nth repA' i).share := fun i hi => by
    have hbit := hopened compute.acc compute'.acc repA repA' 0 i hi
    rwa [Nat.zero_add, ← congrFun hs i] at hbit
  have htAt : ∀ i < l, bitAt (t i) 0 =
    sharedBit lsb (compute.acc.share (l + i)) (compute'.acc.share (l + i)) +
      sharedBit lsb (nth repB i).share (nth repB' i).share := fun i hi => by
    have hbit := hopened compute.acc compute'.acc repB repB' l i hi
    rwa [← congrFun ht i] at hbit
  rw [← hstates.offsetA, ← hstates.offsetB] at hlayer
  have hpaired := outputs_paired hstates.honest hl hl' hlayer hsAt htAt hlengths
  rw [hstates.offsetA, hstates.offsetB] at hpaired
  exact ⟨Traffic.none, Traffic.none, _, alice, _, bob, Traffic.meets_none, runs_onSharesLast hours,
    runs_onSharesLast htheirs, hpaired, h⟩

/-- A buffer keeps the bits of its inputs. -/
structure Keeps (compute : Ag2pcComputeBuffer) (repA repB : List AShareBundle) : Prop where
  repA : compute.repALsb = repA.map fun share => blockLsb share.mac
  repB : compute.repBLsb = repB.map fun share => blockLsb share.mac

/-- Both parties open the differences of the inputs and the factors, and finish. -/
theorem joint_openInputs {p q : Ag2pcTriplePoolState} (hstates : StatesPaired deltaA deltaB p q)
    {compute compute' : Ag2pcComputeBuffer} (hl : compute.l = l) (hl' : compute'.l = l)
    (hlayer : LayerPaired deltaA deltaB l compute.acc compute'.acc)
    {repA repB repA' repB' : List AShareBundle}
    (hlengths : repA.length = l ∧ repA'.length = l ∧ repB.length = l ∧ repB'.length = l)
    (hkeeps : Keeps compute repA repB) (hkeeps' : Keeps compute' repA' repB') :
    Joint (PoolPaired CotReady deltaA deltaB) (do
      let (xbMe, ybMe) := compute.openingBits
      let (xbPeer, ybPeer) ← exchangeTwoBoolVectors xbMe ybMe compute.l
      onShares (compute.finish p xbMe ybMe xbPeer ybPeer)) (do
      let (xbMe, ybMe) := compute'.openingBits
      let (xbPeer, ybPeer) ← exchangeTwoBoolVectors xbMe ybMe compute'.l
      onShares (compute'.finish q xbMe ybMe xbPeer ybPeer)) fun x
          (alice : Ag2pcTriplePool (StreamEnd sha256)) y bob =>
        (SharesPaired deltaA deltaB x y ∧
          sharedBits x y = List.zipWith (· &&& ·) (sharedBits repA repA') (sharedBits repB repB')) ∧
        PoolPaired CotReady deltaA deltaB alice bob := by
  rw [openingBits_eq hkeeps.repA hkeeps.repB, openingBits_eq hkeeps'.repA hkeeps'.repB, hl, hl']
  refine (joint_exchangeTwoBoolVectors (bits_openedInput ..) (bits_openedInput ..)
    (bits_openedInput ..)
    (bits_openedInput ..)).bind fun (xb, yb) (xb', yb') => Joint.assume ?_
  rintro ⟨hpeer, hpeer'⟩
  cases hpeer
  cases hpeer'
  exact joint_finishBatch hstates hl hl' hlayer hlengths

/-- A batch of products of authenticated bits. -/
theorem joint_computeBatch {repA repB repA' repB' : List AShareBundle}
    (hlength : repA.length = repB.length) (hA : SharesPaired deltaA deltaB repA repA')
    (hB : SharesPaired deltaA deltaB repB repB') (nonce nonce' : Block) {p q : Ag2pcTriplePoolState}
    (hstates : StatesPaired deltaA deltaB p q) :
    Joint (PoolPaired CotReady deltaA deltaB) (computeBatch base p repA repB nonce)
      (computeBatch base.peer q repA' repB' nonce') fun x alice y bob =>
        (SharesPaired deltaA deltaB x y ∧
          sharedBits x y = List.zipWith (· &&& ·) (sharedBits repA repA') (sharedBits repB repB')) ∧
        PoolPaired CotReady deltaA deltaB alice bob := by
  have hA' := hA.length_eq
  have hB' := hB.length_eq
  have hlength' : repA'.length = repB'.length := by omega
  have hlengths :
      repA.length = repA.length ∧ repA'.length = repA.length ∧ repB.length = repA.length ∧
      repB'.length = repA.length := by omega
  obtain ⟨compute, hnew, hl, hinsert⟩ := @insertRandomCots_eq base.bucketSize p repA repB hlength
  obtain ⟨compute', hnew', hl', hinsert'⟩ :=
    @insertRandomCots_eq base.bucketSize q repA' repB' hlength'
  refine joint_onShares hnew hnew' ?_
  rw [hl, hl', ← hA']
  by_cases hempty : repA.length = 0
  · rw [if_pos hempty, if_pos hempty]
    obtain rfl := List.length_eq_zero_iff.mp hempty
    exact .pure fun _ _ h => ⟨⟨.nil, rfl⟩, h⟩
  rw [if_neg hempty, if_neg hempty]
  refine (joint_genCotShares repA.length).bind fun r r' => Joint.assume fun hdrawn => ?_
  have hfirst := hdrawn.first.2.length_eq
  have hsecond := hdrawn.second.2.length_eq
  have hfirst' := hdrawn.first.1
  have hsecond' := hdrawn.second.1
  refine joint_onShares (hinsert r (by omega) (by omega)) (hinsert' r' (by omega) (by omega)) ?_
  have hcolumns := @columns_filled base.bucketSize p _ _ r hlength (by omega) (by omega)
  have hcolumns' := @columns_filled base.bucketSize q _ _ r' hlength' (by omega) (by omega)
  have hrelated :=
    @related_filled _ _ base.bucketSize base.bucketSize p q _ _ _ _ _ _ hlength hA hB hdrawn
  have hl₀ : (filled base.bucketSize p repA repB r).l = repA.length := rfl
  have hl₁ : (filled base.bucketSize q repA' repB' r').l = repA.length := hA'.symm
  rw [← hA'] at hcolumns'
  rw [hl₀, hl₁, newHashes_eq q.party p.party]
  refine (joint_leakyAndHalfgate rfl hcolumns hcolumns' hrelated).bind fun (acc, hashes)
      (acc', hashes') =>
    Joint.assume ?_
  rintro ⟨hlayer, rfl, hmitc⟩
  have hbucket : (filled base.bucketSize q repA' repB' r').bucket =
      (filled base.bucketSize p repA repB r).bucket := by
    simp only [filled, hstates.ssp, hA']
  rw [hbucket]
  refine (joint_layeredBucketIntoAcc (by omega) _ hmitc hlayer).bind fun (z, hashes) (w, hashes') =>
    Joint.assume ?_
  rintro ⟨hacc, rfl, -⟩
  refine (joint_feqCheck (Vector.length_toList) nonce nonce').bind fun _ _ => ?_
  refine joint_openInputs hstates ?_ ?_ hacc hlengths ?_ ?_
  · rfl
  · rfl
  · exact ⟨rfl, rfl⟩
  · exact ⟨rfl, rfl⟩

/-- The products of authenticated bits are authenticated. -/
theorem joint_computeInplace {repA repB repA' repB' : List AShareBundle}
    (hlength : repA.length = repB.length) (hA : SharesPaired deltaA deltaB repA repA')
    (hB : SharesPaired deltaA deltaB repB repB') (nonce nonce' : Block) :
    Joint (PoolPaired CotReady deltaA deltaB) (computeInplace base repA repB nonce)
      (computeInplace base.peer repA' repB' nonce') fun x alice y bob =>
        (SharesPaired deltaA deltaB x y ∧
          sharedBits x y = List.zipWith (· &&& ·) (sharedBits repA repA') (sharedBits repB repB')) ∧
        PoolPaired CotReady deltaA deltaB alice bob :=
  have hbatch (p q : Ag2pcTriplePoolState) (hstates : StatesPaired deltaA deltaB p q) :=
    @joint_computeBatch sha256 base _ _ _ _ _ _ hlength hA hB nonce nonce' p q hstates
  joint_state hbatch

end Batches

end Ag2pcTriplePool

end Shachain2pc
