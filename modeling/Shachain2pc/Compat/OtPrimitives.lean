import Shachain2pc.Compat.GaloisField

/-!
# The primitives of the OT extension

The extension stretches base OTs with GGM trees of depth four: a sender knows every leaf of
a tree, a receiver every leaf but one. Each leaf is hashed under a tweak, the pair of a
session and a block counter, and a butterfly of XORs sums the hashes up. The rows that
result are transposed bit by bit, and checked by a random combination over GF(2^128).

The block cipher is a parameter, by key and block.
-/

namespace Shachain2pc

variable (permute : Block → Block → Block)

/-! ## Randomness -/

/-- `Prg`, by the key of its cipher. -/
structure Prg where
  key : Block
  counter : UInt64
  deriving DecidableEq, Repr

/-- `Prg::new`. -/
def Prg.new (seed : Block) (id : UInt64) : Prg := ⟨blockXor seed (Block.make 0 id), 0⟩

/-- `random_block`. -/
def Prg.randomBlock (prg : Prg) (nblocks : ℕ) : List Block × Prg :=
  ((List.range nblocks).map fun i => permute prg.key (Block.make 0 (prg.counter + UInt64.ofNat i)),
    { prg with counter := prg.counter + UInt64.ofNat nblocks })

/-! ## The field -/

/-- `gf_mul`, on its portable path. -/
def gfMul (a b : Block) : Block := gfMulSoft a b

/-- `gf_inner_product`, of lists of one length. -/
def gfInnerProduct (a b : List Block) : Block :=
  (a.zip b).foldl (fun acc pair => blockXor acc (gfMul pair.1 pair.2)) Block.zero

/-- `gf_pack_128`, on its portable path. -/
def gfPack128 (data : List Block) : Block := gfPack128Soft data

/-! ## Rows of bits -/

/-- `transpose_128_rows`. -/
def transpose128Rows (rows : List UInt8) (rowBytes outputLen : ℕ) : List Block :=
  transpose128RowsSimd rows rowBytes outputLen

/-- `transpose_softspoken_planes`. -/
def transposeSoftspokenPlanes (planes : List Block) (bs : ℕ) : List Block :=
  transpose128Rows (macBytes planes) (bs * 16) (bs * 128)

/-- A transposition gives 128 blocks for each block of a row. -/
@[simp] theorem transposeSoftspokenPlanes_length (planes : List Block) (bs : ℕ) :
    (transposeSoftspokenPlanes planes bs).length = bs * 128 := by
  simp [transposeSoftspokenPlanes, transpose128Rows]

/-! ## GGM trees -/

/-- `ccrh_hash`. -/
def ccrhHash (block : Block) : Block := blockXor (permute Block.zero block.sigma) block.sigma

/-- `cggm_bit_reverse`. -/
def cggmBitReverse (x : UInt32) (depth : ℕ) : UInt32 :=
  ((List.range depth).foldl (fun (out, x) _ => ((out <<< 1) ||| (x &&& 1), x >>> 1)) (0, x)).1

/-- `CGGM_LSB_CLEAR_MASK`. -/
def cggmLsbClearMask : Block := Vector.ofFn fun i : Fin 16 => if i.val = 0 then 0xfe else 0xff

/-- One parent of `cggm_expand_level`: it becomes its left child, the right one follows the parents;
the sum is that of one side. -/
def cggmExpandStep (parents : ℕ) (wantRight clearLsb : Bool) (state : List Block × Block) (j : ℕ) :
    List Block × Block :=
  let parent := state.1.getD j Block.zero
  let left := ccrhHash permute parent
  let right := blockXor parent left
  let left' := if clearLsb then blockAnd left cggmLsbClearMask else left
  let right' := if clearLsb then blockAnd right cggmLsbClearMask else right
  ((state.1.set (parents + j) right').set j left',
    blockXor state.2 (if wantRight then right' else left'))

/-- `cggm_expand_level`. -/
def cggmExpandLevel (leaves : List Block) (parents : ℕ) (wantRight clearLsb : Bool) :
    List Block × Block :=
  (List.range parents).foldl (cggmExpandStep permute parents wantRight clearLsb)
    (leaves, Block.zero)

/-- The level `k + 2` of a sender; only the last level may clear the low bits. -/
def cggmSenderStep (depth : ℕ) (clearLeafLsb : Bool) (state : List Block × List Block) (k : ℕ) :
    List Block × List Block :=
  let expanded :=
    cggmExpandLevel permute state.1 (2 ^ (k + 1)) false (clearLeafLsb && k + 2 = depth)
  (expanded.1, state.2 ++ [expanded.2])

/-- `cggm_build_sender`: the leaves, and the sum of the left children of each level. -/
def cggmBuildSender (depth : ℕ) (delta root : Block) (clearLeafLsb : Bool) :
    List Block × List Block :=
  let leaves := ((List.replicate (2 ^ depth) Block.zero).set 0 root).set 1 (blockXor delta root)
  (List.range (depth - 1)).foldl (cggmSenderStep permute depth clearLeafLsb) (leaves, [root])

/-- The bit of a level, the highest one first. -/
def cggmAlphaBit (depth alpha level : ℕ) : ℕ := (alpha >>> (depth - level)) &&& 1

/-- The level `k + 2` of a receiver, whose state ends with the position it does not know. -/
def cggmReceiverStep (depth alpha : ℕ) (recvKeys : List Block) (clearLeafLsb : Bool)
    (state : List Block × ℕ) (k : ℕ) : List Block × ℕ :=
  let (leaves, pos) := state
  let level := k + 2
  let half := 2 ^ (level - 1)
  let alphaI := cggmAlphaBit depth alpha level
  let alphaBarI := 1 - alphaI
  let clear := clearLeafLsb && level = depth
  let (leaves, sumPre) := cggmExpandLevel permute leaves half (alphaBarI ≠ 0) clear
  let junk := leaves.getD pos Block.zero
  let leaves := (leaves.set pos Block.zero).set (pos + half) Block.zero
  let sibling := blockXor (blockXor sumPre junk) (recvKeys.getD (level - 1) Block.zero)
  let sibling := if clear then blockAnd sibling cggmLsbClearMask else sibling
  (leaves.set (pos + alphaBarI * half) sibling, pos + alphaI * half)

/-- `cggm_eval_receiver`: every leaf but the one at `alpha`, which is left zero. -/
def cggmEvalReceiver (depth alpha : ℕ) (recvKeys : List Block) (clearLeafLsb : Bool) : List Block :=
  let alpha1 := cggmAlphaBit depth alpha 1
  let leaves :=
    (List.replicate (2 ^ depth) Block.zero).set (1 - alpha1) (recvKeys.getD 0 Block.zero)
  ((List.range (depth - 1)).foldl (cggmReceiverStep permute depth alpha recvKeys clearLeafLsb)
    (leaves, alpha1)).1

/-- `aes_dm`. -/
def aesDm (key : Block) (counter : UInt64) (tweak : Block) : Block :=
  let pt := blockXor (Block.make 0 counter) tweak
  blockXor (permute key pt) pt

/-- `aes_dm_3`. -/
def aesDm3 (key tweak : Block) : Block × Block × Block :=
  (aesDm permute key 0 tweak, aesDm permute key 1 tweak, aesDm permute key 2 tweak)

/-! ## Subfield VOLE -/

/-- The tweak of a hash: a session and a counter. -/
abbrev SfvoleTweak := UInt64 × UInt64

/-- The tweaks of the blocks `0..bs`. -/
def sfvoleTweaks (sessionId counterBase : UInt64) (bs : ℕ) : List SfvoleTweak :=
  (List.range bs).map fun j => (sessionId, counterBase + UInt64.ofNat j)

/-- The hashes of leaves under a tweak. -/
def sfvoleHashes (leaves : List Block) (tweak : SfvoleTweak) : List Block :=
  leaves.map fun leaf =>
    let input := blockXor (Block.make 0 tweak.2) leaf
    blockXor (permute (Block.make 0 tweak.1) input) input

/-- One step of a level: the odd entry is added to the sum, and the sum of the neighbours is stored
in place. -/
def butterflyStep (state : Block × List Block) (y : ℕ) : Block × List Block :=
  let lo := state.2.getD (2 * y) Block.zero
  let hi := state.2.getD (2 * y + 1) Block.zero
  (blockXor state.1 hi, state.2.set y (blockXor lo hi))

/-- The levels of a butterfly over the first `n` entries: the sum of each, and the entries at the
end. -/
def butterflyLevels : ℕ → ℕ → List Block → List Block × List Block
  | 0, _, r => ([], r)
  | k + 1, n, r =>
    let (acc, r) := (List.range (n / 2)).foldl butterflyStep (Block.zero, r)
    let (sums, r) := butterflyLevels k (n / 2) r
    (acc :: sums, r)

/-- A butterfly: the sums of its levels, and the entry which is left. -/
def butterfly (k : ℕ) (r : List Block) : List Block × Block :=
  let (sums, r) := butterflyLevels k (2 ^ k) r
  (sums, r.getD 0 Block.zero)

/-- The sums of `bs` butterflies, level by level. -/
def butterflyRows (k : ℕ) (rows : List (List Block × Block)) : List Block :=
  (List.range k).flatMap fun b => rows.map fun row => row.1.getD b Block.zero

/-- `sfvole_sender_butterfly`. -/
def sfvoleSenderButterfly (k : ℕ) (leaves : List Block) (counterBase : UInt64) (bs : ℕ)
    (sessionId : UInt64) : List Block × List Block :=
  let rows := (sfvoleTweaks sessionId counterBase bs).map fun tweak =>
    butterfly k (sfvoleHashes permute leaves tweak)
  (rows.map (·.2), butterflyRows k rows)

/-- `sfvole_receiver_butterfly`. -/
def sfvoleReceiverButterfly (k alpha : ℕ) (leaves : List Block) (counterBase : UInt64) (bs : ℕ)
    (sessionId : UInt64) : List Block :=
  let leaves := (List.range (2 ^ k)).map fun y => leaves.getD (alpha ^^^ y) Block.zero
  butterflyRows k ((sfvoleTweaks sessionId counterBase bs).map fun tweak =>
    butterfly k (sfvoleHashes permute leaves tweak))

end Shachain2pc
