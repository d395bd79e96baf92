import Shachain2pc.Compat.CggmTree
import Shachain2pc.Compat.PprfCheck

/-!
# The correlation of a chunk

The trees of the sender of a chunk and those of its receiver agree off one leaf each. The
planes of the sender, with the receiver's corrections, are those of the receiver plus the
receiver's choice bits where a bit of Delta is set. Transposed, each COT of the receiver is
that of the sender, offset by Delta where its lowest bit, the choice bit, is set.

The check combines the COTs with random coefficients. The combination is linear, so the sum of
the receiver's COTs is that of the sender's, offset by the sum of the choice bits times Delta.
-/

namespace Shachain2pc

open SoftSpoken4State

/-- Two COTs whose lowest bits are the choice bit and zero, and which differ by Delta where the
choice bit is set. -/
structure Correlated (delta q t : Block) : Prop where
  mac : blockVec t = blockVec q + lsb (blockVec t) • blockVec delta
  key : lsb (blockVec q) = 0

/-! ## Lists of blocks -/

/-- The length of consecutive lists of one length. -/
theorem length_flatMap_range {A : Type} {f : ℕ → List A} {n m : ℕ}
    (hlength : ∀ i < n, (f i).length = m) :
    ((List.range n).flatMap f).length = n * m := by
  rw [List.length_flatMap, List.map_congr_left fun i hi => hlength i (List.mem_range.mp hi),
    List.map_const', List.length_range, List.sum_replicate, smul_eq_mul]

/-- An entry of consecutive lists of one length. -/
theorem getD_flatMap_range {A : Type} {f : ℕ → List A} {n m i k : ℕ} {d : A}
    (hlength : ∀ i < n, (f i).length = m) (hi : i < n) (hk : k < m) :
    ((List.range n).flatMap f).getD (i * m + k) d = (f i).getD k d := by
  induction n with
  | zero => exact absurd hi (Nat.not_lt_zero i)
  | succ n ih =>
    have hbefore := length_flatMap_range fun i hi => hlength i (Nat.lt_succ_of_lt hi)
    rw [List.range_succ, List.flatMap_append, List.flatMap_singleton]
    rcases Nat.lt_succ_iff_lt_or_eq.mp hi with hlt | rfl
    · have hin : i * m + k < n * m := by
        have hle : (i + 1) * m ≤ n * m := Nat.mul_le_mul_right _ hlt
        rw [Nat.succ_mul] at hle
        omega
      rw [List.getD_append _ _ _ _ (hbefore ▸ hin), ih (fun i hi => hlength i (by omega)) hlt]
    · rw [List.getD_append_right _ _ _ _ (by omega), hbefore, Nat.add_sub_cancel_left]

/-- One byte of blocks. -/
theorem macBytes_getD {blocks : List Block} {i k : ℕ} (hi : i < blocks.length) (hk : k < 16) :
    (macBytes blocks).getD (16 * i + k) 0 = (blocks.getD i Block.zero).toList.getD k 0 := by
  have hread :=
    congrArg (fun read => (read.getD i Block.zero).toList.getD k 0) (blocksOfBytes_macBytes blocks)
  simp only [blocksOfBytes] at hread
  rw [List.getD_eq_getElem ((List.range blocks.length).map _) _ (by simpa using hi),
    List.getElem_map, List.getElem_range] at hread
  rw [← hread, List.getD_eq_getElem (Vector.toList _) _ (by simpa using hk), Vector.getElem_toList,
    Vector.getElem_ofFn]

/-! ## Transposing -/

/-- A bit of a block, in the two-element field. -/
theorem blockVec_eq_blockBit (b : Block) (i : Fin 128) :
    blockVec b i = if blockBit b i then 1 else 0 := by
  have hbyte : i.val / 8 < 16 := Nat.div_lt_of_lt_mul i.isLt
  rw [blockVec, bitAt, blockBit, List.getD_eq_getElem _ _ (by simpa using hbyte),
    Vector.getElem_toList]

/-- The bits of the planes of a chunk, one plane for each bit of a COT. -/
def planeBit (planes : List Block) (bs r c : ℕ) : ZMod 2 :=
  if blockBit (planes.getD (r * bs + c / 128) Block.zero) (c % 128) then 1 else 0

/-- A bit of the planes, as a coordinate of a block. -/
theorem planeBit_eq {planes : List Block} {bs r c : ℕ} :
    planeBit planes bs r c = blockVec (planes.getD (r * bs + c / 128) Block.zero)
      (Fin.ofNat 128 (c % 128)) := by
  have hindex : (Fin.ofNat 128 (c % 128)).val = c % 128 := Nat.mod_mod ..
  rw [blockVec_eq_blockBit, hindex, planeBit]

/-- A bit of a COT is that of its plane. -/
theorem blockVec_transposeSoftspokenPlanes {planes : List Block} {bs c : ℕ}
    (hplanes : planes.length = 128 * bs) (r : Fin 128) (hc : c < bs * 128) :
    blockVec ((transposeSoftspokenPlanes planes bs).getD c Block.zero) r =
      planeBit planes bs r c := by
  have hrows : (macBytes planes).length = 128 * (bs * 16) := by
    rw [macBytes_length, hplanes]
    omega
  have hsize : bs * 16 * 8 = bs * 128 := by omega
  have hbit := @transpose128RowsSimd_bit (macBytes planes) (bs * 16) hrows r c r.isLt (by omega)
  have hplace : r * (bs * 16) + c / 8 = 16 * (r * bs + c / 128) + c % 128 / 8 := by
    have hpos : c / 8 = 16 * (c / 128) + c % 128 / 8 := by omega
    rw [hpos]
    ring
  have hfit : r * bs + c / 128 < planes.length := by
    have hrow : (r + 1) * bs ≤ 128 * bs := Nat.mul_le_mul_right _ r.isLt
    rw [Nat.succ_mul] at hrow
    have hblock : c / 128 < bs := Nat.div_lt_of_lt_mul (by omega)
    omega
  rw [hplace, macBytes_getD hfit (by omega), hsize] at hbit
  have hlow : c % 128 % 8 = c % 8 := Nat.mod_mod_of_dvd _ (by decide)
  rw [blockVec_eq_blockBit, planeBit]
  unfold transposeSoftspokenPlanes transpose128Rows
  rw [hbit, blockBit, hlow]

/-! ## The planes -/

variable (permute : Block → Block → Block)

/-- The leaves of one tree. -/
def treeLeaves (leaves : List Block) (i : ℕ) : List Block :=
  (leaves.drop (i * softspokenQ)).take softspokenQ

/-- A tree of a table has sixteen leaves. -/
theorem treeLeaves_length {leaves : List Block}
    (hleaves : leaves.length = softspokenN * softspokenQ) {i : ℕ} (hi : i < softspokenN) :
    (treeLeaves leaves i).length = softspokenQ := by
  have hfit : (i + 1) * softspokenQ ≤ softspokenN * softspokenQ := Nat.mul_le_mul_right _ hi
  rw [Nat.succ_mul] at hfit
  rw [treeLeaves, List.length_take, List.length_drop]
  omega

/-- A leaf of a tree. -/
theorem treeLeaves_getD (leaves : List Block) {i y : ℕ} (hy : y < softspokenQ) :
    (treeLeaves leaves i).getD y Block.zero = treeLeaf leaves i y := by
  rw [treeLeaves, treeLeaf, List.getD_eq_getElem?_getD, List.getD_eq_getElem?_getD,
    List.getElem?_take_of_lt hy, List.getElem?_drop]

/-- The leaves of a tree are read. -/
theorem readSlice_treeLeaves {E : Type} {leaves : List Block}
    (hleaves : leaves.length = softspokenN * softspokenQ) {i : ℕ} (hi : i < softspokenN) :
    (Rust.readSlice leaves (i * softspokenQ) softspokenQ : Rust.Outcome E _) =
      .ok (treeLeaves leaves i) := by
  have hfit : (i + 1) * softspokenQ ≤ softspokenN * softspokenQ := Nat.mul_le_mul_right _ hi
  rw [Nat.succ_mul] at hfit
  rw [Rust.readSlice, if_pos (by omega), treeLeaves]

/-- The sums of one level for one block. -/
theorem sfvoleRow_getD {r : SfvoleTweak → List Block} {k b bs j : ℕ}
    (sessionId counterBase : UInt64) (hb : b < k) (hj : j < bs) :
    (butterflyRows k
      ((sfvoleTweaks sessionId counterBase bs).map fun tweak => butterfly k (r tweak))).getD
        (b * bs + j) Block.zero =
      (butterfly k (r (sessionId, counterBase + UInt64.ofNat j))).1.getD b Block.zero := by
  have hlength : (sfvoleTweaks sessionId counterBase bs).length = bs := by simp [sfvoleTweaks]
  have hget := butterflyRows_getD ((sfvoleTweaks sessionId counterBase bs).map fun tweak =>
    butterfly k (r tweak)) hb (by rwa [List.length_map, hlength])
  simp only [List.length_map, hlength, List.getElem_map] at hget
  rw [hget]
  simp [sfvoleTweaks]

/-- The receiver's sum of a leaf's tree is the sender's, offset where the bit of the unknown leaf is
set. -/
theorem sfvoleRow_offset {alpha bs b j : ℕ} (halpha : alpha < softspokenQ)
    {leaves known : List Block} (hleaves : leaves.length = softspokenQ)
    (hagree : ∀ x < softspokenQ, x ≠ alpha → known.getD x Block.zero = leaves.getD x Block.zero)
    (counterBase sessionId : UInt64) (hb : b < softspokenK) (hj : j < bs) :
    let sender := sfvoleSenderButterfly permute softspokenK leaves counterBase bs sessionId
    blockVec
      ((sfvoleReceiverButterfly permute softspokenK alpha known counterBase bs sessionId).getD
        (b * bs + j) Block.zero) =
      blockVec (sender.2.getD (b * bs + j) Block.zero) +
        if alpha.testBit b then blockVec (sender.1.getD j Block.zero) else 0 := by
  intro sender
  have htotal : sender.1.getD j Block.zero =
      (butterfly softspokenK
        (sfvoleHashes permute leaves (sessionId, counterBase + UInt64.ofNat j))).2 := by
    simp only [sender, sfvoleSenderButterfly]
    rw [List.getD_eq_getElem _ _ (by simpa [sfvoleTweaks] using hj)]
    simp [sfvoleTweaks]
  have hreceiver := butterfly_receiver permute halpha hb hleaves hagree
    (sessionId, counterBase + UInt64.ofNat j)
  rw [htotal]
  simp only [sender, sfvoleSenderButterfly, sfvoleReceiverButterfly, sfvoleRow_getD _ _ hb hj]
  rw [hreceiver, blockVec_xor]
  split
  · rfl
  · rw [blockVec_zero]

/-- What a receiver's tree gives: the sums of all leaves, and those by the bits of the positions. -/
def recvTree (s : SoftSpoken4State) (bs i : ℕ) : List Block × List Block :=
  sfvoleSenderButterfly permute softspokenK (treeLeaves s.leavesSend i) s.curRecvB0 bs
    s.curRecvSession

/-- What a sender's tree gives. -/
def sendTree (s : SoftSpoken4State) (bs i : ℕ) : List Block :=
  sfvoleReceiverButterfly permute softspokenK (s.alphas.getD i 0)
    (treeLeaves s.leavesRecv i) s.curSendB0 bs
    s.curSendSession

variable {permute}

/-- A tree of a receiver gives one sum for each block, and one for each block and bit. -/
theorem recvTree_length (s : SoftSpoken4State) (bs i : ℕ) :
    (recvTree permute s bs i).1.length = bs ∧ (recvTree permute s bs i).2.length =
      softspokenK * bs := by
  simp [recvTree, sfvoleSenderButterfly, butterflyRows_length, sfvoleTweaks]

/-- A tree of a sender gives one sum for each block and bit. -/
theorem sendTree_length (s : SoftSpoken4State) (bs i : ℕ) :
    (sendTree permute s bs i).length = softspokenK * bs := by
  simp [sendTree, sfvoleReceiverButterfly, butterflyRows_length, sfvoleTweaks]

variable {E : Type} {s r : SoftSpoken4State} {bs : ℕ}

/-- The planes of a sender. -/
theorem sendChunkPrepare_eq (hleaves : s.leavesRecv.length = softspokenN * softspokenQ) (bs : ℕ) :
    (s.sendChunkPrepare permute bs : Rust.Outcome E _) =
      .ok ((List.range softspokenN).flatMap (sendTree permute s bs)) := by
  have htrees : (List.range softspokenN).mapM (fun i => do
      let leaves ← (Rust.readSlice s.leavesRecv (i * softspokenQ) softspokenQ : Rust.Outcome E _)
      return sfvoleReceiverButterfly permute softspokenK (s.alphas.getD i 0) leaves s.curSendB0 bs
        s.curSendSession) = .ok ((List.range softspokenN).map (sendTree permute s bs)) := by
    refine Rust.mapM_eq_map fun i hi => ?_
    rw [readSlice_treeLeaves hleaves (List.mem_range.mp hi)]
    rfl
  rw [sendChunkPrepare, htrees]
  rfl

/-- What a receiver prepares. -/
def recvChunk (permute : Block → Block → Block) (s : SoftSpoken4State) (bs : ℕ) : RecvChunk where
  dBufs := (List.range softspokenN).tail.flatMap fun i =>
    List.zipWith blockXor (recvTree permute s bs 0).1 (recvTree permute s bs i).1
  out := transposeSoftspokenPlanes ((recvTree permute s bs 0).1 ++
    ((List.range softspokenN).flatMap fun i => (recvTree permute s bs i).2).drop bs) bs
  uCanonical := (recvTree permute s bs 0).1

/-- The receiver prepares a chunk. -/
theorem recvChunkPrepare_eq (hleaves : s.leavesSend.length = softspokenN * softspokenQ) (bs : ℕ) :
    (s.recvChunkPrepare permute bs : Rust.Outcome E _) = .ok (recvChunk permute s bs) := by
  have htrees : (List.range softspokenN).mapM (fun i => do
      let leaves ← (Rust.readSlice s.leavesSend (i * softspokenQ) softspokenQ : Rust.Outcome E _)
      return sfvoleSenderButterfly permute softspokenK leaves s.curRecvB0 bs s.curRecvSession) =
        .ok ((List.range softspokenN).map (recvTree permute s bs)) := by
    refine Rust.mapM_eq_map fun i hi => ?_
    rw [readSlice_treeLeaves hleaves (List.mem_range.mp hi)]
    rfl
  have hhead : ((List.range softspokenN).map (recvTree permute s bs)).headD ([], []) =
      recvTree permute s bs 0 := rfl
  rw [recvChunkPrepare, htrees, Rust.ok_bind]
  simp only [hhead, ← List.map_tail, List.flatMap_map]
  rfl

/-- The trees of the endpoints agree off the positions which Delta gives. -/
structure TreesAgree (s r : SoftSpoken4State) : Prop where
  delta : lsb (blockVec s.delta) = 1
  alphas : ∀ i < softspokenN, s.alphas.getD i 0 < softspokenQ
  choices : ∀ i < softspokenN, ∀ b < softspokenK,
    blockVec s.delta (Fin.ofNat 128 (i * softspokenK + b)) =
      if (s.alphas.getD i 0).testBit b then 1 else 0
  known : s.leavesRecv.length = softspokenN * softspokenQ
  leaves : r.leavesSend.length = softspokenN * softspokenQ
  agree : AgreeOff s.alphas s.leavesRecv r.leavesSend

/-- The trees of the endpoints agree, and both are at one counter of one session. -/
structure InStep (s r : SoftSpoken4State) : Prop extends TreesAgree s r where
  counter : s.curSendB0 = r.curRecvB0
  session : s.curSendSession = r.curRecvSession

/-- There is a correction for each block of each tree after the first. -/
theorem recvChunk_dBufs (permute : Block → Block → Block) (s : SoftSpoken4State) (bs : ℕ) :
    (recvChunk permute s bs).dBufs.length = (softspokenN - 1) * bs ∧
      ∀ i, 1 ≤ i → i < softspokenN → ∀ j < bs,
        (recvChunk permute s bs).dBufs.getD ((i - 1) * bs + j) Block.zero =
          blockXor ((recvTree permute s bs 0).1.getD j Block.zero)
            ((recvTree permute s bs i).1.getD j Block.zero) := by
  have htail : (List.range softspokenN).tail = (List.range (softspokenN - 1)).map (· + 1) := by
    decide
  have hlength (i : ℕ) :
      (List.zipWith blockXor (recvTree permute s bs 0).1 (recvTree permute s bs i).1).length =
      bs := by
    rw [List.length_zipWith, (recvTree_length ..).1, (recvTree_length ..).1, Nat.min_self]
  have hdBufs : (recvChunk permute s bs).dBufs = (List.range (softspokenN - 1)).flatMap fun i =>
      List.zipWith blockXor (recvTree permute s bs 0).1 (recvTree permute s bs (i + 1)).1 := by
    rw [recvChunk, htail, List.flatMap_map]
  rw [hdBufs]
  refine ⟨length_flatMap_range fun i _ => hlength (i + 1), fun i hone hi j hj => ?_⟩
  rw [getD_flatMap_range (fun i _ => hlength (i + 1)) (by omega) hj, Nat.sub_add_cancel hone,
    List.getD_eq_getElem _ _ (by rwa [hlength]), List.getElem_zipWith,
    List.getD_eq_getElem _ _ (by rwa [(recvTree_length ..).1]),
    List.getD_eq_getElem _ _ (by rwa [(recvTree_length ..).1])]

/-- The place of a block of a row. -/
theorem rowPlace (row bs j : ℕ) : row * bs + j =
    row / softspokenK * (softspokenK * bs) + (row % softspokenK * bs + j) := by
  have hrow := Nat.div_add_mod row softspokenK
  calc row * bs + j = (softspokenK * (row / softspokenK) + row % softspokenK) * bs +
    j := by rw [hrow]
    _ = _ := by ring

/-- A block of a row is in its tree. -/
theorem rowPlace_lt {row bs j : ℕ} (hj : j < bs) :
    row % softspokenK * bs + j < softspokenK * bs := by
  have hlow : row % softspokenK < softspokenK := Nat.mod_lt _ (by decide)
  have hle : (row % softspokenK + 1) * bs ≤ softspokenK * bs := Nat.mul_le_mul_right _ hlow
  rw [Nat.succ_mul] at hle
  omega

/-- A row belongs to a tree. -/
theorem rowTree_lt {row : ℕ} (hrow : row < 128) : row / softspokenK < softspokenN := by
  change row / 4 < 32
  omega

/-- The planes of a receiver. -/
def recvPlanes (permute : Block → Block → Block) (s : SoftSpoken4State) (bs : ℕ) : List Block :=
  (recvTree permute s bs 0).1 ++
    ((List.range softspokenN).flatMap fun i => (recvTree permute s bs i).2).drop bs

/-- The planes of a sender, with the corrections. -/
def sendPlanes (permute : Block → Block → Block) (s r : SoftSpoken4State) (bs : ℕ) : List Block :=
  s.correctedPlanes ((List.range softspokenN).flatMap (sendTree permute s bs))
    (recvChunk permute r bs).dBufs bs

/-- There are 128 planes. -/
theorem recvPlanes_length (permute : Block → Block → Block) (s : SoftSpoken4State) (bs : ℕ) :
    (recvPlanes permute s bs).length = 128 * bs := by
  have htrees : ((List.range softspokenN).flatMap fun i => (recvTree permute s bs i).2).length =
      softspokenN * (softspokenK * bs) := length_flatMap_range fun i _ => (recvTree_length ..).2
  rw [recvPlanes, List.length_append, List.length_drop, htrees, (recvTree_length ..).1]
  change bs + (32 * (4 * bs) - bs) = 128 * bs
  omega

/-- There are 128 planes. -/
theorem sendPlanes_length (permute : Block → Block → Block) (s r : SoftSpoken4State) (bs : ℕ) :
    (sendPlanes permute s r bs).length = 128 * bs := by
  have htrees : ((List.range softspokenN).flatMap (sendTree permute s bs)).length =
      softspokenN * (softspokenK * bs) := length_flatMap_range fun i _ => sendTree_length s bs i
  rw [sendPlanes, correctedPlanes, List.length_mapIdx, htrees]
  change 32 * (4 * bs) = 128 * bs
  omega

/-- The first plane of a receiver has the choice bits, the others the sums of the trees. -/
theorem recvPlanes_getD (s : SoftSpoken4State) {row j : ℕ} (hrow : row < 128) (hj : j < bs) :
    (recvPlanes permute s bs).getD (row * bs + j) Block.zero =
      if row = 0 then (recvTree permute s bs 0).1.getD j Block.zero
      else (recvTree permute s bs (row / softspokenK)).2.getD
        (row % softspokenK * bs + j) Block.zero := by
  have hfirst := (@recvTree_length permute s bs 0).1
  rw [recvPlanes]
  by_cases hzero : row = 0
  · rw [if_pos hzero, hzero, Nat.zero_mul, Nat.zero_add, List.getD_append _ _ _ _ (by omega)]
  · have hpast : bs ≤ row * bs + j :=
      (Nat.le_mul_of_pos_left bs (by omega)).trans (Nat.le_add_right ..)
    rw [if_neg hzero, List.getD_append_right _ _ _ _ (by omega), hfirst, List.getD_eq_getElem?_getD,
      List.getElem?_drop, Nat.add_sub_cancel' hpast, ← List.getD_eq_getElem?_getD, rowPlace,
      getD_flatMap_range (fun i _ => (recvTree_length ..).2) (rowTree_lt hrow) (rowPlace_lt hj)]

/-- The planes of a sender, with the corrections where a bit of the position is set. -/
theorem sendPlanes_getD (s r : SoftSpoken4State) {row j : ℕ} (hrow : row < 128) (hj : j < bs) :
    (sendPlanes permute s r bs).getD (row * bs + j) Block.zero =
      if row = 0 then Block.zero
      else if 1 ≤ row / softspokenK ∧ (s.alphas.getD (row / softspokenK) 0).testBit
        (row % softspokenK) then
        blockXor
          ((sendTree permute s bs (row / softspokenK)).getD (row % softspokenK * bs + j) Block.zero)
          ((recvChunk permute r bs).dBufs.getD ((row / softspokenK - 1) * bs + j) Block.zero)
      else (sendTree permute s bs (row / softspokenK)).getD
        (row % softspokenK * bs + j) Block.zero := by
  have hfit : row * bs + j < (sendPlanes permute s r bs).length := by
    have hle : (row + 1) * bs ≤ 128 * bs := Nat.mul_le_mul_right _ hrow
    rw [sendPlanes_length]
    rw [Nat.succ_mul] at hle
    omega
  have hplane :
      ((List.range softspokenN).flatMap (sendTree permute s bs)).getD (row * bs + j) Block.zero =
      (sendTree permute s bs (row / softspokenK)).getD (row % softspokenK * bs + j) Block.zero := by
    rw [rowPlace,
      getD_flatMap_range (fun i _ => sendTree_length s bs i) (rowTree_lt hrow) (rowPlace_lt hj)]
  have hdiv : (row * bs + j) / bs = row := by
    rw [Nat.mul_comm, Nat.mul_add_div (by omega), Nat.div_eq_of_lt hj, Nat.add_zero]
  have hmod : (row * bs + j) % bs = j := by
    rw [Nat.mul_comm, Nat.mul_add_mod, Nat.mod_eq_of_lt hj]
  rw [List.getD_eq_getElem _ _ hfit]
  unfold sendPlanes correctedPlanes at *
  rw [List.getElem_mapIdx, hdiv, hmod, ← List.getD_eq_getElem _ Block.zero, hplane]

/-! ## The correlation -/

/-- The sums of a tree of the sender, in terms of those of the receiver's tree. -/
theorem InStep.tree_offset (permute : Block → Block → Block) (h : InStep s r) {i b j : ℕ}
    (hi : i < softspokenN) (hb : b < softspokenK) (hj : j < bs) :
    blockVec ((sendTree permute s bs i).getD (b * bs + j) Block.zero) =
      blockVec ((recvTree permute r bs i).2.getD (b * bs + j) Block.zero) +
        if (s.alphas.getD i 0).testBit b then blockVec
          ((recvTree permute r bs i).1.getD j Block.zero) else 0 := by
  have hagree : ∀ x < softspokenQ, x ≠ s.alphas.getD i 0 →
      (treeLeaves s.leavesRecv i).getD x Block.zero =
        (treeLeaves r.leavesSend i).getD x Block.zero := by
    intro x hx hne
    rw [treeLeaves_getD _ hx, treeLeaves_getD _ hx]
    exact h.agree i hi x hx hne
  rw [sendTree, h.counter, h.session]
  exact sfvoleRow_offset permute (h.alphas i hi) (treeLeaves_length h.leaves hi) hagree r.curRecvB0
    r.curRecvSession hb hj

/-- A plane of the receiver is that of the sender, plus the choice bits where a bit of Delta is
set. -/
theorem InStep.plane_offset (permute : Block → Block → Block) (h : InStep s r) {row j : ℕ}
    (hrow : row < 128) (hj : j < bs) :
    blockVec ((recvPlanes permute r bs).getD (row * bs + j) Block.zero) =
      blockVec ((sendPlanes permute s r bs).getD (row * bs + j) Block.zero) +
        blockVec s.delta (Fin.ofNat 128 row) • blockVec
          ((recvTree permute r bs 0).1.getD j Block.zero) := by
  have htree := rowTree_lt hrow
  have hbit : row % softspokenK < softspokenK := Nat.mod_lt _ (by decide)
  have hplace : row / softspokenK * softspokenK + row % softspokenK = row := Nat.div_add_mod' ..
  have hchoice := h.choices _ htree _ hbit
  rw [hplace] at hchoice
  rw [recvPlanes_getD r hrow hj, sendPlanes_getD s r hrow hj]
  by_cases hzero : row = 0
  · have hone : blockVec s.delta (Fin.ofNat 128 row) = 1 := by
      rw [hzero]
      exact h.delta
    rw [if_pos hzero, if_pos hzero, hone, blockVec_zero, zero_add, one_smul]
  · rw [if_neg hzero, if_neg hzero, hchoice]
    have hoffset := h.tree_offset permute htree hbit hj
    by_cases hset : (s.alphas.getD (row / softspokenK) 0).testBit (row % softspokenK)
    · rw [if_pos hset] at hoffset ⊢
      rw [one_smul]
      by_cases hfirst : row / softspokenK = 0
      · rw [if_neg (by omega), hoffset, hfirst, add_assoc, blockVec_add_self, add_zero]
      · rw [if_pos ⟨Nat.pos_of_ne_zero hfirst, hset⟩, blockVec_xor, hoffset,
          (recvChunk_dBufs permute r bs).2 _ (Nat.pos_of_ne_zero hfirst) htree j hj, blockVec_xor]
        funext bit
        simp only [Pi.add_apply]
        grind
    · rw [if_neg hset] at hoffset ⊢
      rw [if_neg fun hboth => hset hboth.2, hoffset, add_zero, zero_smul, add_zero]

/-- The COTs of a sender. -/
def sendOut (permute : Block → Block → Block) (s r : SoftSpoken4State) (bs : ℕ) : List Block :=
  transposeSoftspokenPlanes (sendPlanes permute s r bs) bs

/-- The lowest bit of a COT of a receiver is its choice bit. -/
theorem recvChunk_choice (permute : Block → Block → Block) (r : SoftSpoken4State) {c : ℕ}
    (hc : c < bs * 128) :
    blockVec ((recvChunk permute r bs).out.getD c Block.zero) 0 =
      blockVec ((recvChunk permute r bs).uCanonical.getD (c / 128) Block.zero)
        (Fin.ofNat 128 (c % 128)) := by
  have hblock : c / 128 < bs := Nat.div_lt_of_lt_mul (by omega)
  refine (blockVec_transposeSoftspokenPlanes (recvPlanes_length permute r bs) 0 hc).trans ?_
  rw [planeBit_eq, Fin.val_zero, recvPlanes_getD r (by decide) hblock, if_pos rfl]
  rfl

/-- The COTs of a chunk are correlated. -/
theorem InStep.correlated (h : InStep s r) {c : ℕ} (hc : c < bs * 128) :
    Correlated s.delta ((sendOut permute s r bs).getD c Block.zero)
      ((recvChunk permute r bs).out.getD c Block.zero) := by
  have hblock : c / 128 < bs := Nat.div_lt_of_lt_mul (by omega)
  have hsend (row : Fin 128) :=
    blockVec_transposeSoftspokenPlanes (sendPlanes_length permute s r bs) row hc
  have hrecv (row : Fin 128) :=
    blockVec_transposeSoftspokenPlanes (recvPlanes_length permute r bs) row hc
  have hfirst : lsb (blockVec ((recvChunk permute r bs).out.getD c Block.zero)) =
      blockVec ((recvTree permute r bs 0).1.getD (c / 128) Block.zero) (Fin.ofNat 128 (c % 128)) :=
    recvChunk_choice permute r hc
  constructor
  · funext row
    rw [Pi.add_apply, Pi.smul_apply, hfirst, smul_eq_mul, mul_comm]
    refine (hrecv row).trans ?_
    have hplane := congrFun (h.plane_offset permute row.isLt hblock) (Fin.ofNat 128 (c % 128))
    have hrow : Fin.ofNat 128 row.val = row := Fin.ext (Nat.mod_eq_of_lt row.isLt)
    rw [Pi.add_apply, Pi.smul_apply, smul_eq_mul, hrow] at hplane
    rw [planeBit_eq, sendOut, hsend row, planeBit_eq]
    exact hplane
  · refine (hsend 0).trans ?_
    rw [planeBit_eq, Fin.val_zero, sendPlanes_getD s r (by decide) hblock, if_pos rfl,
      blockVec_zero]
    rfl

end Shachain2pc
