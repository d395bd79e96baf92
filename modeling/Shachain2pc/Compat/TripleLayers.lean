import Shachain2pc.Compat.TriplePool

/-!
# The layers of the triple pool

What each stage of a layer leaves in the columns, and that two parties with authenticated
columns come out of each stage with authenticated products. The stages of one party are
described by its own shares; the two parties meet in the bits and blocks they exchange.
-/

namespace Shachain2pc

open AuthenticatedBits InPlaceLoop

namespace Ag2pcShareSlices

/-- The slices hold three columns. -/
structure Columns (l : ℕ) (shares : Ag2pcShareSlices) : Prop where
  mac : shares.mac.length = 3 * l
  key : shares.key.length = 3 * l

/-- The share at an index, over the bits of blocks. -/
def share (shares : Ag2pcShareSlices) (j : ℕ) : Share (Fin 128 → ZMod 2) := (shares.bundle j).share

/-- The columns of two parties are authenticated. -/
def Related (l : ℕ) (deltaA deltaB : Block) (alice bob : Ag2pcShareSlices) : Prop :=
  ∀ j < 3 * l, Authenticated lsb (blockVec deltaA) (blockVec deltaB) (alice.share j) (bob.share j)

/-- The columns of two parties are products. -/
def Products (l : ℕ) (deltaA deltaB : Block) (alice bob : Ag2pcShareSlices) : Prop :=
  ∀ k < l, Product lsb (blockVec deltaA) (blockVec deltaB) (alice.share k) (bob.share k)
    (alice.share (l + k)) (bob.share (l + k)) (alice.share (2 * l + k)) (bob.share (2 * l + k))

variable {l : ℕ} {shares : Ag2pcShareSlices}

/-- The check of three columns passes. -/
theorem Columns.require (h : shares.Columns l) (macName keyName : String) :
    shares.requireColumns macName keyName l = .ok () := by
  rw [requireColumns, requireLen, if_neg (not_not.mpr h.mac)]
  change requireLen keyName shares.key.length (3 * l) = _
  rw [requireLen, if_neg (not_not.mpr h.key)]

end Ag2pcShareSlices

open Ag2pcShareSlices

/-- A length which is as expected. -/
theorem requireLen_ok {name : String} {actual expected : ℕ} (h : actual = expected) :
    requireLen name actual expected = .ok () := if_neg (not_not.mpr h)

/-- A block masked by a selected one. -/
@[simp] theorem blockVec_and_selectBlock_right (bit : UInt8) (b : Block) :
    blockVec (blockAnd b (selectBlock bit)) = bitAt bit 0 • blockVec b := by
  rw [← blockVec_and_selectBlock]
  refine congrArg blockVec (Vector.ext fun i hi => ?_)
  simp [blockAnd, UInt8.and_comm]

/-- The mask of the lowest bit has the lowest bit. -/
theorem lsb_bit0Mask : lsb (blockVec bit0Mask) = 1 := by
  rw [← bitAt_blockLsb]
  decide

namespace Ag2pcTriplePoolState

variable {M : Type} {H : TweakableHash M} {l : ℕ}

/-! ## Batches -/

/-- Pads at even and odd positions. -/
theorem getD_flatMap_pairs (f : ℕ → Block × Block) {n j : ℕ} (hj : j < n) (g : Block → Block) :
    ((((List.range n).flatMap fun j => [(f j).1, (f j).2]).map g).getD
      (2 * j) Block.zero = g (f j).1) ∧
      ((((List.range n).flatMap fun j => [(f j).1, (f j).2]).map g).getD (2 * j + 1) Block.zero =
        g (f j).2) := by
  induction n with
  | zero => omega
  | succ n ih =>
    have hlength : ((List.range n).flatMap fun j => [(f j).1, (f j).2]).length = 2 * n := by
      rw [List.length_flatMap]
      simp [Nat.mul_comm]
    rw [List.range_succ, List.flatMap_append, List.map_append]
    by_cases h : j < n
    · rw [List.getD_append _ _ _ _ (by rw [List.length_map, hlength]; omega),
        List.getD_append _ _ _ _ (by rw [List.length_map, hlength]; omega)]
      exact ih h
    · obtain rfl : j = n := by omega
      rw [List.getD_append_right _ _ _ _ (by rw [List.length_map, hlength]),
        List.getD_append_right _ _ _ _ (by rw [List.length_map, hlength]; omega), List.length_map,
        hlength, Nat.sub_self, Nat.add_sub_cancel_left]
      exact ⟨rfl, rfl⟩

/-- A batch hashes its pads with the current function. -/
theorem leakyBatch_eq (pads : ℕ → Block × Block) (out : ℕ → Block → Block → Block)
    (state : M × List Block) (k0 : ℕ) :
    leakyBatch H l pads out state k0 =
      (H.next state.1, state.2 ++ (List.range (min (l - k0) 8)).map fun j =>
        out (k0 + j) (H.tweak state.1 (pads (k0 + j)).1) (H.tweak state.1 (pads (k0 + j)).2)) := by
  have hpad : ((List.range 8).flatMap fun j =>
      if j < min (l - k0) 8 then
        [(pads (k0 + j)).1, (pads (k0 + j)).2] else [Block.zero, Block.zero]) =
      (List.range 8).flatMap fun j =>
        [(if j < min (l - k0) 8 then pads (k0 + j) else (Block.zero, Block.zero)).1,
          (if j < min (l - k0) 8 then pads (k0 + j) else (Block.zero, Block.zero)).2] := by
    refine List.flatMap_congr fun j _ => ?_
    split <;> rfl
  simp only [leakyBatch]
  rw [hpad, H.hash_eq]
  refine congrArg (Prod.mk _) (congrArg (state.2 ++ ·) (List.map_congr_left fun j hj => ?_))
  have hbatch := List.mem_range.mp hj
  have hj8 : j < 8 := lt_of_lt_of_le hbatch (min_le_right _ _)
  obtain ⟨heven, hodd⟩ := getD_flatMap_pairs
    (fun j => if j < min (l - k0) 8 then pads (k0 + j) else (Block.zero, Block.zero)) hj8
      (H.tweak state.1)
  rw [heven, hodd, if_pos hbatch]

/-- The batches hash each pair of pads with the function of its batch. -/
theorem leakyBatches_eq (pads : ℕ → Block × Block) (out : ℕ → Block → Block → Block) (mitc : M) :
    leakyBatches H l pads out mitc =
      (H.after mitc ((l + 7) / 8), (List.range l).map fun k =>
        out k (H.tweak (H.after mitc (k / 8)) (pads k).1)
          (H.tweak (H.after mitc (k / 8)) (pads k).2)) := by
  have hprefix (n : ℕ) : (List.range n).foldl (fun state b => leakyBatch H l pads out state (8 * b))
      (mitc, []) = (H.after mitc n, (List.range (min (8 * n) l)).map fun k =>
        out k (H.tweak (H.after mitc (k / 8)) (pads k).1)
            (H.tweak (H.after mitc (k / 8)) (pads k).2)) := by
    induction n with
    | zero => simp [TweakableHash.after]
    | succ n ih =>
      have hsplit : min (8 * (n + 1)) l = min (8 * n) l + min (l - 8 * n) 8 := by omega
      rw [List.range_succ, List.foldl_append, ih, List.foldl_cons, List.foldl_nil,
        leakyBatch_eq, hsplit, List.range_add, List.map_append, List.map_map]
      refine Prod.ext ?_ (congrArg (_ ++ ·) (List.map_congr_left fun j hj => ?_))
      · exact (Function.iterate_succ_apply' H.next n mitc).symm
      · have hbatch := List.mem_range.mp hj
        have hmin : min (8 * n) l = 8 * n := by omega
        have hdiv : (8 * n + j) / 8 = n := by omega
        rw [Function.comp_apply, hmin, hdiv]
  rw [leakyBatches, hprefix]
  have hmin : min (8 * ((l + 7) / 8)) l = l := by omega
  rw [hmin]

variable {pool : Ag2pcTriplePoolState} {shares acc layer : Ag2pcShareSlices}

/-! ## The leaky products -/

/-- The block which a party sends for a product. -/
def leakyRow (pool : Ag2pcTriplePoolState) (tweak : Block → Block) (shares : Ag2pcShareSlices)
    (l k : ℕ) :
    Block :=
  blockXor (blockXor (tweak (shares.key.getD k Block.zero))
    (tweak (blockXor (shares.key.getD k Block.zero) pool.delta))) (pool.leakyTerm shares (l + k))

/-- A party's check value, from the block it receives. -/
def leakyCheck (pool : Ag2pcTriplePoolState) (tweak : Block → Block) (shares : Ag2pcShareSlices)
    (l : ℕ) (w : Block) (k : ℕ) : Block :=
  let bit := selectBlock (blockLsb (shares.mac.getD k Block.zero))
  let e := blockXor (tweak (shares.mac.getD k Block.zero)) (blockAnd w bit)
  blockXor (blockXor (blockXor (blockXor (blockXor (tweak (shares.key.getD k Block.zero)) e)
    (shares.key.getD (2 * l + k) Block.zero)) (shares.mac.getD (2 * l + k) Block.zero))
    (blockAnd (pool.leakyTerm shares (l + k)) bit))
    (blockAnd pool.delta (selectBlock (blockLsb (shares.mac.getD (2 * l + k) Block.zero))))

/-- What a party knows of its peer's products, over the bits of blocks. -/
theorem blockVec_leakyTerm (pool : Ag2pcTriplePoolState) (shares : Ag2pcShareSlices) (j : ℕ) :
    blockVec (pool.leakyTerm shares j) = crossTerm lsb (blockVec pool.delta) (shares.share j) := by
  simp [leakyTerm, crossTerm, share, bundle]

/-- The block which a party sends, over the bits of blocks. -/
theorem blockVec_leakyRow (pool : Ag2pcTriplePoolState) (tweak : Block → Block)
    (shares : Ag2pcShareSlices) (l k : ℕ) : blockVec (pool.leakyRow tweak shares l k) =
      productRow lsb (blockVec pool.delta) (hashVec tweak) (shares.share k)
        (shares.share (l + k)) := by
  rw [leakyRow, blockVec_xor, blockVec_xor, blockVec_leakyTerm, productRow]
  rw [← hashVec_blockVec tweak, ← hashVec_blockVec tweak, blockVec_xor]
  rfl

/-- The check value, over the bits of blocks. -/
theorem blockVec_leakyCheck (pool : Ag2pcTriplePoolState) (tweak : Block → Block)
    (shares : Ag2pcShareSlices) (l : ℕ) (w : Block) (k : ℕ) :
    blockVec (pool.leakyCheck tweak shares l w k) =
      productCheck lsb (blockVec pool.delta) (hashVec tweak) (blockVec w) (shares.share k)
        (shares.share (l + k)) (shares.share (2 * l + k)) := by
  simp only [leakyCheck, blockVec_xor, blockVec_and_selectBlock_right, blockVec_leakyTerm,
    bitAt_blockLsb]
  rw [← hashVec_blockVec tweak, ← hashVec_blockVec tweak]
  rfl

/-- `leaky_and_prepare_g` gives the blocks of a column. -/
theorem leakyAndPrepareG_eq (hcolumns : shares.Columns l) (gmitc : M) :
    pool.leakyAndPrepareG H shares l gmitc = .ok (H.after gmitc ((l + 7) / 8),
      (List.range l).map fun k => pool.leakyRow (H.tweak (H.after gmitc (k / 8))) shares l k) := by
  rw [leakyAndPrepareG, hcolumns.require, leakyBatches_eq]
  rfl

/-- `leaky_and_prepare_s` gives the check values of a column, and their second lowest bits. -/
theorem leakyAndPrepareS_eq (hcolumns : shares.Columns l) {wBlocks : List Block}
    (hlength : wBlocks.length = l) (emitc : M) :
    pool.leakyAndPrepareS H shares l emitc wBlocks = .ok (H.after emitc ((l + 7) / 8),
      (List.range l).map fun k =>
        blockLsb1 (pool.leakyCheck (H.tweak (H.after emitc (k / 8))) shares l
        (wBlocks.getD k Block.zero) k),
      (List.range l).map fun k => pool.leakyCheck (H.tweak (H.after emitc (k / 8))) shares l
        (wBlocks.getD k Block.zero) k) := by
  rw [leakyAndPrepareS, hcolumns.require, requireLen_ok hlength, leakyBatches_eq]
  exact congrArg Except.ok (congrArg (Prod.mk _) (Prod.ext List.map_map rfl))

/-- What a party does to its share of a bit to which a public bit is added. -/
def correct (pool : Ag2pcTriplePoolState) (s : ZMod 2) (a : Share (Fin 128 → ZMod 2)) :
    Share (Fin 128 → ZMod 2) :=
  match pool.party with
  | .alice => a.addOwn (blockVec bit0Mask) s
  | .bob => a.addPeer (blockVec pool.delta) (blockVec bit0Mask) s

/-- The columns after the first corrections. -/
def correctedSlices (pool : Ag2pcTriplePoolState) (l : ℕ) (d : ℕ → UInt8)
    (shares : Ag2pcShareSlices) (n : ℕ) :
    Ag2pcShareSlices :=
  match pool.party with
  | .alice => { shares with
      mac := modifyRange (fun k b => blockXor b (blockAnd bit0Mask (selectBlock (d k))))
        (2 * l) n shares.mac }
  | .bob => { shares with
      key := modifyRange
        (fun k b => blockXor b (blockAnd (blockXor pool.delta bit0Mask) (selectBlock (d k))))
        (2 * l) n shares.key }

/-- The corrections of the first indices. -/
theorem foldl_leakyAndFinishStep (pool : Ag2pcTriplePoolState) (l : ℕ) (sMe sPeer : List UInt8)
    (shares : Ag2pcShareSlices) (sout : List Block) (n : ℕ) :
    (List.range n).foldl (pool.leakyAndFinishStep l sMe sPeer) (shares, sout) =
      (pool.correctedSlices l (fun k => sMe.getD k 0 ^^^ sPeer.getD k 0) shares n,
        modifyRange
          (fun k b =>
            blockXor b (blockAnd pool.delta (selectBlock (sMe.getD k 0 ^^^ sPeer.getD k 0))))
          0 n sout) := by
  induction n with
  | zero =>
    refine Prod.ext ?_ rfl
    unfold correctedSlices
    split <;> rfl
  | succ n ih =>
    rw [List.range_succ, List.foldl_append, ih, List.foldl_cons, List.foldl_nil,
      modifyRange_succ, Nat.zero_add]
    refine Prod.ext ?_ rfl
    unfold correctedSlices leakyAndFinishStep
    cases pool.party
    · simp only [modifyRange_succ]
    · simp only [modifyRange_succ]

/-- The shares after the corrections. -/
theorem share_correctedSlices (hcolumns : shares.Columns l) (d : ℕ → UInt8) (j : ℕ) :
    (pool.correctedSlices l d shares l).share j =
      if 2 * l ≤ j ∧ j < 2 * l + l then pool.correct (bitAt (d (j - 2 * l)) 0) (shares.share j)
      else shares.share j := by
  have hmac := hcolumns.mac
  have hkey := hcolumns.key
  unfold correctedSlices correct
  cases pool.party
  · simp only [share, bundle]
    rw [modifyRange_getD (by omega)]
    split
    · simp [AShareBundle.share, Share.addOwn]
    · rfl
  · simp only [share, bundle]
    rw [modifyRange_getD (by omega)]
    split
    · simp [AShareBundle.share, Share.addPeer]
    · rfl

/-- The factors stay. -/
theorem share_correctedSlices_factor (hcolumns : shares.Columns l) (d : ℕ → UInt8) {j : ℕ}
    (hj : j < 2 * l) :
    (pool.correctedSlices l d shares l).share j = shares.share j := by
  rw [share_correctedSlices hcolumns, if_neg (by omega)]

/-- The products are corrected. -/
theorem share_correctedSlices_product (hcolumns : shares.Columns l) (d : ℕ → UInt8) {k : ℕ}
    (hk : k < l) :
    (pool.correctedSlices l d shares l).share (2 * l + k) =
      pool.correct (bitAt (d k) 0) (shares.share (2 * l + k)) := by
  rw [share_correctedSlices hcolumns, if_pos (by omega), Nat.add_sub_cancel_left]

/-- The corrections keep the columns. -/
theorem columns_correctedSlices (hcolumns : shares.Columns l) (d : ℕ → UInt8) (n : ℕ) :
    (pool.correctedSlices l d shares n).Columns l := by
  unfold correctedSlices
  cases pool.party
  · exact ⟨by rw [modifyRange_length, hcolumns.mac], hcolumns.key⟩
  · exact ⟨hcolumns.mac, by rw [modifyRange_length, hcolumns.key]⟩

/-- A list whose entries are given. -/
theorem modifyRange_map_range (f : ℕ → Block → Block) (g : ℕ → Block) (l : ℕ) :
    modifyRange f 0 l ((List.range l).map g) = (List.range l).map fun k => f k (g k) := by
  refine eq_of_getD_eq (by simp) fun j hj => ?_
  rw [List.length_map, List.length_range] at hj
  rw [modifyRange_getD (by simp), if_pos (by omega), Nat.sub_zero,
    List.getD_eq_getElem _ _ (by simpa using hj), List.getD_eq_getElem _ _ (by simpa using hj)]
  simp

/-- `leaky_and_finish` corrects the products and the check values. -/
theorem leakyAndFinish_eq (hcolumns : shares.Columns l) {sMe sPeer : List UInt8}
    (hme : sMe.length = l) (hpeer : sPeer.length = l) (check : ℕ → Block) (feq : List UInt8) :
    pool.leakyAndFinish shares l sMe sPeer ((List.range l).map check) feq =
      .ok (pool.correctedSlices l (fun k => sMe.getD k 0 ^^^ sPeer.getD k 0) shares l,
        feq ++ macBytes ((List.range l).map fun k => blockXor (check k)
          (blockAnd pool.delta (selectBlock (sMe.getD k 0 ^^^ sPeer.getD k 0))))) := by
  rw [leakyAndFinish, hcolumns.require, requireLen_ok hme, requireLen_ok hpeer,
    requireLen_ok (by simp), foldl_leakyAndFinishStep, modifyRange_map_range]
  rfl

/-! ## Buckets -/

/-- A rotation stays within the column. -/
theorem bucketSource_lt {r i : ℕ} (hr : r < l) (hi : i < l) : bucketSource l r i < l := by
  unfold bucketSource
  split <;> omega

/-- The entries of a layer which the steps of a bucket add. -/
def addLayer (layer : List Block) (l r n : ℕ) (acc : List Block) : List Block :=
  modifyTwo (fun i b => blockXor b (layer.getD (bucketSource l r i) Block.zero))
    (fun i b => blockXor b (layer.getD (2 * l + bucketSource l r i) Block.zero)) (2 * l) n acc

/-- Adding a layer keeps the length. -/
theorem addLayer_length (layer : List Block) (l r n : ℕ) (acc : List Block) :
    (addLayer layer l r n acc).length = acc.length := modifyTwo_length ..

/-- The bits of the second column which a party opens. -/
def openedBit (acc layer : Ag2pcShareSlices) (l r i : ℕ) : UInt8 :=
  blockLsb (acc.mac.getD (l + i) Block.zero) ^^^
    blockLsb (layer.mac.getD (l + bucketSource l r i) Block.zero)

/-- The first steps of a bucket. -/
theorem foldl_bucketPrepareStep (hcolumns : acc.Columns l) (layer : Ag2pcShareSlices) (r : ℕ)
    {n : ℕ} (hn : n ≤ l) :
    (List.range n).foldl (bucketPrepareStep layer l r) (acc, List.replicate l 0) =
      (⟨addLayer layer.mac l r n acc.mac, addLayer layer.key l r n acc.key⟩,
        (List.range n).map (openedBit acc layer l r) ++ List.replicate (l - n) 0) := by
  induction n with
  | zero => rfl
  | succ n ih =>
    have hmac := hcolumns.mac
    have hrest : List.replicate (l - n) (0 : UInt8) = 0 :: List.replicate (l - (n + 1)) 0 := by
      rw [← List.replicate_succ]
      congr 1
      omega
    have hkept : (addLayer layer.mac l r (n + 1) acc.mac).getD (l + n) Block.zero =
        acc.mac.getD (l + n) Block.zero := by
      rw [addLayer, modifyTwo_getD (by omega) (by omega), if_neg (by omega), if_neg (by omega)]
    rw [List.range_succ, List.foldl_append, ih (by omega), List.foldl_cons, List.foldl_nil]
    simp only [bucketPrepareStep]
    rw [addLayer, addLayer, ← modifyTwo_succ, ← modifyTwo_succ, ← addLayer, ← addLayer, hkept]
    refine Prod.ext rfl ?_
    rw [hrest, List.set_append_right _ _ (by simp), List.map_append, List.append_assoc]
    simp [openedBit]

/-- `bucket_prepare_layer` adds a rotated layer, and gives the bits to open. -/
theorem bucketPrepareLayer_eq (hacc : acc.Columns l) (hlayer : layer.Columns l) (r : ℕ) :
    bucketPrepareLayer acc layer l r =
      .ok (⟨addLayer layer.mac l r l acc.mac, addLayer layer.key l r l acc.key⟩,
        (List.range l).map (openedBit acc layer l r)) := by
  rw [bucketPrepareLayer, requireLayers, hacc.require, hlayer.require,
    foldl_bucketPrepareStep hacc _ _ le_rfl, Nat.sub_self]
  exact congrArg (fun d => Except.ok (_, d)) (List.append_nil _)

/-- The columns after a rotated layer was added. -/
theorem columns_addLayer (hacc : acc.Columns l) (r : ℕ) :
    Ag2pcShareSlices.Columns l
      ⟨addLayer layer.mac l r l acc.mac, addLayer layer.key l r l acc.key⟩ :=
  ⟨(addLayer_length ..).trans hacc.mac, (addLayer_length ..).trans hacc.key⟩

/-- The shares after a rotated layer was added. -/
theorem share_addLayer (hacc : acc.Columns l) (r j : ℕ) :
    Ag2pcShareSlices.share ⟨addLayer layer.mac l r l acc.mac, addLayer layer.key l r l acc.key⟩ j =
      if j < l then (acc.share j).add (layer.share (bucketSource l r j))
      else if 2 * l ≤ j ∧ j < 2 * l + l then
        (acc.share j).add (layer.share (2 * l + bucketSource l r (j - 2 * l)))
      else acc.share j := by
  have hmac := hacc.mac
  have hkey := hacc.key
  simp only [share, bundle, addLayer]
  rw [modifyTwo_getD (by omega) (by omega), modifyTwo_getD (by omega) (by omega)]
  split
  · simp [AShareBundle.share, Share.add]
  · split
    · simp [AShareBundle.share, Share.add]
    · rfl

/-- The entries of a layer which the opened bits add to the products. -/
def addOpened (layer : List Block) (l r : ℕ) (d : ℕ → UInt8) (n : ℕ) (acc : List Block) :
    List Block :=
  modifyRange (fun i b =>
    blockXor b (blockAnd (layer.getD (bucketSource l r i) Block.zero) (selectBlock (d i))))
    (2 * l) n acc

/-- The corrections keep the length. -/
theorem addOpened_length (layer : List Block) (l r : ℕ) (d : ℕ → UInt8) (n : ℕ) (acc : List Block) :
    (addOpened layer l r d n acc).length = acc.length := modifyRange_length ..

/-- The first corrections of a bucket. -/
theorem foldl_bucketFinishStep (acc layer : Ag2pcShareSlices) (l r : ℕ) (dMe dPeer : List UInt8)
    (n : ℕ) :
    (List.range n).foldl (bucketFinishStep layer l r dMe dPeer) acc =
      ⟨addOpened layer.mac l r (fun i => dMe.getD i 0 ^^^ dPeer.getD i 0) n acc.mac,
        addOpened layer.key l r (fun i => dMe.getD i 0 ^^^ dPeer.getD i 0) n acc.key⟩ := by
  induction n with
  | zero => rfl
  | succ n ih =>
    rw [List.range_succ, List.foldl_append, ih, List.foldl_cons, List.foldl_nil,
      addOpened, addOpened, addOpened, addOpened, modifyRange_succ, modifyRange_succ]
    rfl

/-- `bucket_finish_layer` adds what the opened bits select. -/
theorem bucketFinishLayer_eq (hacc : acc.Columns l) (hlayer : layer.Columns l) (r : ℕ)
    {dMe dPeer : List UInt8} (hme : dMe.length = l) (hpeer : dPeer.length = l) :
    bucketFinishLayer acc layer l r dMe dPeer =
      .ok ⟨addOpened layer.mac l r (fun i => dMe.getD i 0 ^^^ dPeer.getD i 0) l acc.mac,
        addOpened layer.key l r (fun i => dMe.getD i 0 ^^^ dPeer.getD i 0) l acc.key⟩ := by
  rw [bucketFinishLayer, requireLayers, hacc.require, hlayer.require, requireLen_ok hme,
    requireLen_ok hpeer, foldl_bucketFinishStep]
  rfl

/-- The columns of a bucket, from the opened bits. -/
def bucketSlices (acc layer : Ag2pcShareSlices) (l r : ℕ) (d : ℕ → UInt8) : Ag2pcShareSlices :=
  ⟨addOpened layer.mac l r d l (addLayer layer.mac l r l acc.mac),
    addOpened layer.key l r d l (addLayer layer.key l r l acc.key)⟩

/-- A bucket has three columns. -/
theorem columns_bucketSlices (hacc : acc.Columns l) (r : ℕ) (d : ℕ → UInt8) :
    (bucketSlices acc layer l r d).Columns l :=
  ⟨(addOpened_length ..).trans ((addLayer_length ..).trans hacc.mac),
    (addOpened_length ..).trans ((addLayer_length ..).trans hacc.key)⟩

/-- The shares of a bucket, in terms of what the layer added. -/
theorem share_bucketSlices (hacc : acc.Columns l) (r : ℕ) (d : ℕ → UInt8) (j : ℕ) :
    (bucketSlices acc layer l r d).share j =
      if 2 * l ≤ j ∧ j < 2 * l + l then
        (Ag2pcShareSlices.share
          ⟨addLayer layer.mac l r l acc.mac, addLayer layer.key l r l acc.key⟩ j).add
          ((layer.share (bucketSource l r (j - 2 * l))).scale (bitAt (d (j - 2 * l)) 0))
      else Ag2pcShareSlices.share
        ⟨addLayer layer.mac l r l acc.mac, addLayer layer.key l r l acc.key⟩ j := by
  have hmac : (addLayer layer.mac l r l acc.mac).length = 3 * l :=
    (addLayer_length ..).trans hacc.mac
  have hkey : (addLayer layer.key l r l acc.key).length = 3 * l :=
    (addLayer_length ..).trans hacc.key
  simp only [share, bundle, bucketSlices, addOpened]
  rw [modifyRange_getD (by omega), modifyRange_getD (by omega)]
  split
  · simp [AShareBundle.share, Share.add, Share.scale]
  · rfl

/-- The first factors are added. -/
theorem share_bucketSlices_left (hacc : acc.Columns l) (r : ℕ) (d : ℕ → UInt8) {k : ℕ}
    (hk : k < l) :
    (bucketSlices acc layer l r d).share k = (acc.share k).add
    (layer.share (bucketSource l r k)) := by
  rw [share_bucketSlices hacc, if_neg (by omega), share_addLayer hacc, if_pos hk]

/-- The second factors stay. -/
theorem share_bucketSlices_right (hacc : acc.Columns l) (r : ℕ) (d : ℕ → UInt8) {k : ℕ}
    (hk : k < l) :
    (bucketSlices acc layer l r d).share (l + k) = acc.share (l + k) := by
  rw [share_bucketSlices hacc, if_neg (by omega), share_addLayer hacc, if_neg (by omega),
    if_neg (by omega)]

/-- The products are added, and corrected by the opened bits. -/
theorem share_bucketSlices_product (hacc : acc.Columns l) (r : ℕ) (d : ℕ → UInt8) {k : ℕ}
    (hk : k < l) :
    (bucketSlices acc layer l r d).share (2 * l + k) =
      ((acc.share (2 * l + k)).add (layer.share (2 * l + bucketSource l r k))).add
        ((layer.share (bucketSource l r k)).scale (bitAt (d k) 0)) := by
  rw [share_bucketSlices hacc, if_pos (by omega), share_addLayer hacc, if_neg (by omega),
    if_pos (by omega), Nat.add_sub_cancel_left]

/-! ## Two parties -/

/-- The pools of two parties, whose Deltas differ in the second lowest bit. -/
structure Honest (poolA poolB : Ag2pcTriplePoolState) : Prop where
  alice : poolA.party = .alice
  bob : poolB.party = .bob
  lsb_bob : lsb (blockVec poolB.delta) = 1
  lsb1_alice : lsb1 (blockVec poolA.delta) = 1
  lsb1_bob : lsb1 (blockVec poolB.delta) = 0

variable {poolA poolB : Ag2pcTriplePoolState} {alice bob aliceLayer bobLayer : Ag2pcShareSlices}

/-- Alice adds a public bit to her own bit. -/
theorem Honest.correct_alice (h : Honest poolA poolB) (s : ZMod 2) (a : Share (Fin 128 → ZMod 2)) :
    poolA.correct s a = a.addOwn (blockVec bit0Mask) s := by
  rw [correct, h.alice]

/-- Bob moves his key when Alice adds a public bit. -/
theorem Honest.correct_bob (h : Honest poolA poolB) (s : ZMod 2) (b : Share (Fin 128 → ZMod 2)) :
    poolB.correct s b = b.addPeer (blockVec poolB.delta) (blockVec bit0Mask) s := by
  rw [correct, h.bob]

/-- The bit by which a product is corrected. -/
theorem Honest.lsb1_checks (h : Honest poolA poolB)
    (hrelated : Related l poolA.delta poolB.delta alice bob) (tweak : Block → Block) {k : ℕ}
    (hk : k < l) :
    bitAt (blockLsb1 (poolA.leakyCheck tweak alice l (poolB.leakyRow tweak bob l k) k) ^^^
        blockLsb1 (poolB.leakyCheck tweak bob l (poolA.leakyRow tweak alice l k) k)) 0 =
      sharedBit lsb (alice.share k) (bob.share k) * sharedBit lsb (alice.share (l + k))
        (bob.share (l + k)) +
        sharedBit lsb (alice.share (2 * l + k)) (bob.share (2 * l + k)) := by
  rw [bitAt_xor, bitAt_blockLsb1, bitAt_blockLsb1, blockVec_leakyCheck, blockVec_leakyCheck,
    blockVec_leakyRow, blockVec_leakyRow]
  exact productCheck_bit _ h.lsb1_alice h.lsb1_bob (hrelated k (by omega))
    (hrelated (l + k) (by omega))
    (hrelated (2 * l + k) (by omega))

/-- The corrected check values agree. -/
theorem Honest.checks_agree (h : Honest poolA poolB)
    (hrelated : Related l poolA.delta poolB.delta alice bob) (tweak : Block → Block) {k : ℕ}
    (hk : k < l) {d : UInt8}
    (hd : d = blockLsb1 (poolA.leakyCheck tweak alice l (poolB.leakyRow tweak bob l k) k) ^^^
      blockLsb1 (poolB.leakyCheck tweak bob l (poolA.leakyRow tweak alice l k) k)) :
    blockXor (poolA.leakyCheck tweak alice l (poolB.leakyRow tweak bob l k) k)
        (blockAnd poolA.delta (selectBlock d)) =
      blockXor (poolB.leakyCheck tweak bob l (poolA.leakyRow tweak alice l k) k)
        (blockAnd poolB.delta (selectBlock d)) := by
  apply blockVec_injective
  rw [blockVec_xor, blockVec_xor, blockVec_and_selectBlock_right,
    blockVec_and_selectBlock_right, hd,
    h.lsb1_checks hrelated tweak hk, blockVec_leakyCheck, blockVec_leakyCheck, blockVec_leakyRow,
    blockVec_leakyRow]
  exact productCheck_corrected
    (productCheck_add _ (hrelated k (by omega)) (hrelated (l + k) (by omega))
    (hrelated (2 * l + k) (by omega)))

/-- The corrected columns are products. -/
theorem Honest.products_corrected (h : Honest poolA poolB) (hA : alice.Columns l)
    (hB : bob.Columns l) (hrelated : Related l poolA.delta poolB.delta alice bob)
    (tweak : ℕ → Block → Block) {d : ℕ → UInt8}
    (hd : ∀ k < l, d k =
      blockLsb1 (poolA.leakyCheck (tweak k) alice l (poolB.leakyRow (tweak k) bob l k) k) ^^^
        blockLsb1 (poolB.leakyCheck (tweak k) bob l (poolA.leakyRow (tweak k) alice l k) k)) :
    Products l poolA.delta poolB.delta (poolA.correctedSlices l d alice l)
      (poolB.correctedSlices l d bob l) := by
  intro k hk
  rw [share_correctedSlices_factor hA _ (by omega), share_correctedSlices_factor hA _ (by omega),
    share_correctedSlices_factor hB _ (by omega), share_correctedSlices_factor hB _ (by omega),
    share_correctedSlices_product hA _ hk, share_correctedSlices_product hB _ hk, hd k hk,
    h.lsb1_checks hrelated _ hk, h.correct_alice, h.correct_bob]
  exact .of_correction (hrelated k (by omega)) (hrelated (l + k) (by omega))
    (hrelated (2 * l + k) (by omega)) lsb_bit0Mask h.lsb_bob

/-- A bucket of products is a product. -/
theorem products_bucket {deltaA deltaB : Block} (hA : alice.Columns l) (hB : bob.Columns l)
    (hacc : Products l deltaA deltaB alice bob)
    (hlayer : Products l deltaA deltaB aliceLayer bobLayer) {r : ℕ} (hr : r < l) {d : ℕ → UInt8}
    (hd : ∀ i < l, d i = openedBit alice aliceLayer l r i ^^^ openedBit bob bobLayer l r i) :
    Products l deltaA deltaB (bucketSlices alice aliceLayer l r d)
      (bucketSlices bob bobLayer l r d) := by
  intro k hk
  have hopened : bitAt (d k) 0 = sharedBit lsb (alice.share (l + k)) (bob.share (l + k)) +
      sharedBit lsb (aliceLayer.share (l + bucketSource l r k))
        (bobLayer.share (l + bucketSource l r k)) := by
    rw [hd k hk, openedBit, openedBit]
    simp only [bitAt_xor, bitAt_blockLsb]
    exact add_add_add_comm _ _ _ _
  rw [share_bucketSlices_left hA _ _ hk, share_bucketSlices_right hA _ _ hk,
    share_bucketSlices_product hA _ _ hk, share_bucketSlices_left hB _ _ hk,
    share_bucketSlices_right hB _ _ hk, share_bucketSlices_product hB _ _ hk, hopened]
  exact (hacc k hk).combine (hlayer _ (bucketSource_lt hr hk))

end Ag2pcTriplePoolState

end Shachain2pc
