import Shachain2pc.Compat.BaseOt
import Shachain2pc.Compat.HalfGateCorrect
import Shachain2pc.Compat.Mitccrh
import Shachain2pc.Lib.AuthenticatedTriples
import Shachain2pc.Lib.InPlaceLoop

/-!
# The triple pool

A batch of AND triples is three columns of authenticated bits: two factors and their
product. The products of a layer are leaky. A party sends one block for each of them, hashed
in batches of eight, and a bit which corrects it. Layers are combined in buckets, under a
rotation of the later ones, and the last step turns the products of random bits into those
of the inputs.

The size of a bucket is computed in floating point, and is a parameter.
-/

namespace Shachain2pc

/-- `Ag2pcTriplePoolError`. -/
inductive Ag2pcTriplePoolError where
  | badInputShape
  | cotLength (expected actual : ℕ)
  | peerBitLength (expected actual : ℕ)
  | bufferLength (name : String) (expected actual : ℕ)
  deriving DecidableEq, Repr

/-- The text of an error. -/
def Ag2pcTriplePoolError.message : Ag2pcTriplePoolError → String
  | .badInputShape => "AG2PC input share vectors differ in length"
  | .cotLength expected actual => s!"AG2PC COT length mismatch: expected {expected}, got {actual}"
  | .peerBitLength expected actual =>
    s!"AG2PC peer bit length mismatch: expected {expected}, got {actual}"
  | .bufferLength name expected actual =>
    s!"AG2PC {name} length mismatch: expected {expected}, got {actual}"

/-- `Ag2pcTriplePoolState`. -/
structure Ag2pcTriplePoolState where
  party : Role
  ssp : ℕ
  delta : Block
  cotsMintedSinceCheck : Bool
  deriving DecidableEq, Repr

/-- `Ag2pcShareSlicesMut` and `Ag2pcLayerSlices`: three columns of shares, one after the other. -/
structure Ag2pcShareSlices where
  mac : List Block
  key : List Block
  deriving DecidableEq, Repr

/-- `Ag2pcComputeBuffer`. -/
structure Ag2pcComputeBuffer where
  l : ℕ
  bucket : ℕ
  repALsb : List UInt8
  repBLsb : List UInt8
  accMac : List Block
  accKey : List Block
  deriving DecidableEq, Repr

/-- `require_len`. -/
def requireLen (name : String) (actual expected : ℕ) : Except Ag2pcTriplePoolError Unit :=
  if actual ≠ expected then .error (.bufferLength name expected actual) else .ok ()

namespace Ag2pcShareSlices

/-- The shares which the slices hold at an index. -/
def bundle (shares : Ag2pcShareSlices) (j : ℕ) : AShareBundle :=
  ⟨shares.mac.getD j Block.zero, shares.key.getD j Block.zero⟩

/-- The slices have three columns. -/
def requireColumns (shares : Ag2pcShareSlices) (macName keyName : String) (l : ℕ) :
    Except Ag2pcTriplePoolError Unit := do
  requireLen macName shares.mac.length (3 * l)
  requireLen keyName shares.key.length (3 * l)

end Ag2pcShareSlices

namespace Ag2pcComputeBuffer

/-- The shares of the buffer. -/
def acc (compute : Ag2pcComputeBuffer) : Ag2pcShareSlices := ⟨compute.accMac, compute.accKey⟩

/-- `Ag2pcComputeBuffer::new`. -/
def new (bucketSize : ℕ → ℕ → ℕ) (pool : Ag2pcTriplePoolState) (repA repB : List AShareBundle) :
    Except Ag2pcTriplePoolError Ag2pcComputeBuffer :=
  if repA.length ≠ repB.length then .error .badInputShape
  else
    let l := repA.length
    .ok {
      l := l
      bucket := bucketSize pool.ssp l
      repALsb := repA.map fun share => blockLsb share.mac
      repBLsb := repB.map fun share => blockLsb share.mac
      accMac := repA.map (·.mac) ++ repB.map (·.mac) ++ List.replicate l Block.zero
      accKey := repA.map (·.key) ++ repB.map (·.key) ++ List.replicate l Block.zero }

/-- `insert_random_cots`. -/
def insertRandomCots (compute : Ag2pcComputeBuffer) (rMac rKey : List Block) :
    Except Ag2pcTriplePoolError Ag2pcComputeBuffer :=
  if rMac.length ≠ compute.l then .error (.cotLength compute.l rMac.length)
  else if rKey.length ≠ compute.l then .error (.cotLength compute.l rKey.length)
  else .ok { compute with
    accMac := compute.accMac.take (2 * compute.l) ++ rMac
    accKey := compute.accKey.take (2 * compute.l) ++ rKey }

/-- `opening_bits`. -/
def openingBits (compute : Ag2pcComputeBuffer) : List UInt8 × List UInt8 :=
  ((List.range compute.l).map fun i =>
      compute.repALsb.getD i 0 ^^^ blockLsb (compute.accMac.getD i Block.zero),
    (List.range compute.l).map fun i =>
      compute.repBLsb.getD i 0 ^^^ blockLsb (compute.accMac.getD (compute.l + i) Block.zero))

/-- One output of `finish`, from the opened bits. -/
def finishAt (compute : Ag2pcComputeBuffer) (pool : Ag2pcTriplePoolState) (xb yb : UInt8) (i : ℕ) :
    AShareBundle :=
  let l := compute.l
  let mac := blockXor (blockXor (compute.accMac.getD (2 * l + i) Block.zero)
    (blockAnd (selectBlock xb) (compute.accMac.getD (l + i) Block.zero)))
    (blockAnd (selectBlock yb) (compute.accMac.getD i Block.zero))
  let key := blockXor (blockXor (compute.accKey.getD (2 * l + i) Block.zero)
    (blockAnd (selectBlock xb) (compute.accKey.getD (l + i) Block.zero)))
    (blockAnd (selectBlock yb) (compute.accKey.getD i Block.zero))
  let both := selectBlock (xb &&& yb)
  match pool.party with
  | .alice => ⟨blockXor mac (blockAnd both bit0Mask), key⟩
  | .bob => ⟨mac, blockXor key (blockAnd both (blockXor pool.delta bit0Mask))⟩

/-- `finish`. -/
def finish (compute : Ag2pcComputeBuffer) (pool : Ag2pcTriplePoolState)
    (xbMe ybMe xbPeer ybPeer : List UInt8) : Except Ag2pcTriplePoolError (List AShareBundle) := do
  for bits in [xbMe, ybMe, xbPeer, ybPeer] do
    if bits.length ≠ compute.l then throw (.peerBitLength compute.l bits.length)
  return (List.range compute.l).map fun i =>
    compute.finishAt pool (xbMe.getD i 0 ^^^ xbPeer.getD i 0) (ybMe.getD i 0 ^^^ ybPeer.getD i 0) i

end Ag2pcComputeBuffer

namespace Ag2pcTriplePoolState

/-- `Ag2pcTriplePoolState::new`. -/
def new (party : Role) (ssp : ℕ) (delta : Block) : Ag2pcTriplePoolState :=
  ⟨party, ssp, delta, false⟩

/-- `mark_cots_minted`. -/
def markCotsMinted (pool : Ag2pcTriplePoolState) : Ag2pcTriplePoolState :=
  { pool with cotsMintedSinceCheck := true }

section leaky

variable {M : Type} (H : TweakableHash M)

/-- One batch: up to eight pairs of pads are hashed together, and each pair gives a block. -/
def leakyBatch (l : ℕ) (pads : ℕ → Block × Block) (out : ℕ → Block → Block → Block)
    (state : M × List Block) (k0 : ℕ) : M × List Block :=
  let batch := min (l - k0) 8
  let pad := (List.range 8).flatMap fun j =>
    if j < batch then [(pads (k0 + j)).1, (pads (k0 + j)).2] else [Block.zero, Block.zero]
  let hashed := H.hash state.1 pad
  (hashed.2, state.2 ++ (List.range batch).map fun j =>
    out (k0 + j) (hashed.1.getD (2 * j) Block.zero) (hashed.1.getD (2 * j + 1) Block.zero))

/-- The batches of a column. -/
def leakyBatches (l : ℕ) (pads : ℕ → Block × Block) (out : ℕ → Block → Block → Block) (mitc : M) :
    M × List Block :=
  (List.range ((l + 7) / 8)).foldl (fun state b => leakyBatch H l pads out state (8 * b)) (mitc, [])

/-- What a party knows of the products with its own bit of the second column. -/
def leakyTerm (pool : Ag2pcTriplePoolState) (shares : Ag2pcShareSlices) (j : ℕ) : Block :=
  blockXor (blockXor (blockAnd (selectBlock (blockLsb (shares.mac.getD j Block.zero))) pool.delta)
    (shares.key.getD j Block.zero)) (shares.mac.getD j Block.zero)

/-- `leaky_and_prepare_g`. -/
def leakyAndPrepareG (pool : Ag2pcTriplePoolState) (shares : Ag2pcShareSlices) (l : ℕ) (gmitc : M) :
    Except Ag2pcTriplePoolError (M × List Block) := do
  shares.requireColumns "mac" "key" l
  return leakyBatches H l
    (fun k => (shares.key.getD k Block.zero, blockXor (shares.key.getD k Block.zero) pool.delta))
    (fun k h0 h1 => blockXor (blockXor h0 h1) (pool.leakyTerm shares (l + k))) gmitc

/-- `leaky_and_prepare_s`. -/
def leakyAndPrepareS (pool : Ag2pcTriplePoolState) (shares : Ag2pcShareSlices) (l : ℕ) (emitc : M)
    (wBlocks : List Block) : Except Ag2pcTriplePoolError (M × List UInt8 × List Block) := do
  shares.requireColumns "mac" "key" l
  requireLen "W blocks" wBlocks.length l
  let (emitc, sout) := leakyBatches H l
    (fun k => (shares.mac.getD k Block.zero, shares.key.getD k Block.zero))
    (fun k hm hk =>
      let bit := selectBlock (blockLsb (shares.mac.getD k Block.zero))
      let e := blockXor hm (blockAnd (wBlocks.getD k Block.zero) bit)
      blockXor
        (blockXor (blockXor (blockXor (blockXor hk e) (shares.key.getD (2 * l + k) Block.zero))
        (shares.mac.getD (2 * l + k) Block.zero)) (blockAnd (pool.leakyTerm shares (l + k)) bit))
        (blockAnd pool.delta (selectBlock (blockLsb (shares.mac.getD (2 * l + k) Block.zero)))))
    emitc
  return (emitc, sout.map blockLsb1, sout)

end leaky

/-- One index of `leaky_and_finish`: the product and the check value are corrected. -/
def leakyAndFinishStep (pool : Ag2pcTriplePoolState) (l : ℕ) (sMe sPeer : List UInt8)
    (state : Ag2pcShareSlices × List Block) (k : ℕ) : Ag2pcShareSlices × List Block :=
  let mask := selectBlock (sMe.getD k 0 ^^^ sPeer.getD k 0)
  let dxor := blockXor pool.delta bit0Mask
  let shares := match pool.party with
    | .alice => { state.1 with
        mac := state.1.mac.modify (2 * l + k) fun b => blockXor b (blockAnd bit0Mask mask) }
    | .bob =>
      { state.1 with
        key := state.1.key.modify (2 * l + k) fun b => blockXor b (blockAnd dxor mask) }
  (shares, state.2.modify k fun b => blockXor b (blockAnd pool.delta mask))

/-- `leaky_and_finish`; the equality check absorbs the check values. -/
def leakyAndFinish (pool : Ag2pcTriplePoolState) (shares : Ag2pcShareSlices) (l : ℕ)
    (sMe sPeer : List UInt8) (sout : List Block) (feq : List UInt8) :
    Except Ag2pcTriplePoolError (Ag2pcShareSlices × List UInt8) := do
  shares.requireColumns "mac" "key" l
  requireLen "s_me" sMe.length l
  requireLen "s_peer" sPeer.length l
  requireLen "sout" sout.length l
  let (shares, sout) := (List.range l).foldl (pool.leakyAndFinishStep l sMe sPeer) (shares, sout)
  return (shares, feq ++ macBytes sout)

/-- `bucket_shift`, from the first four bytes of the generator. -/
def bucketShift (permute : Block → Block → Block) (seed : Block) (l : ℕ) : ℕ :=
  BaseOt.leValue ((macBytes ((Prg.new seed 0).randomBlock permute 1).1).take 4) % l

/-- The index of a layer which joins the bucket of an index. -/
def bucketSource (l r i : ℕ) : ℕ := if i < l - r then i + r else i + r - l

/-- One index of `bucket_prepare_layer`. -/
def bucketPrepareStep (layer : Ag2pcShareSlices) (l r : ℕ) (state : Ag2pcShareSlices × List UInt8)
    (i : ℕ) :
    Ag2pcShareSlices × List UInt8 :=
  let src := bucketSource l r i
  let mac :=
    (state.1.mac.modify i fun b => blockXor b (layer.mac.getD src Block.zero)).modify (2 * l + i)
    fun b => blockXor b (layer.mac.getD (2 * l + src) Block.zero)
  let key :=
    (state.1.key.modify i fun b => blockXor b (layer.key.getD src Block.zero)).modify (2 * l + i)
    fun b => blockXor b (layer.key.getD (2 * l + src) Block.zero)
  (⟨mac, key⟩, state.2.set i
    (blockLsb (mac.getD (l + i) Block.zero) ^^^ blockLsb (layer.mac.getD (l + src) Block.zero)))

/-- Both parts of a bucket have three columns. -/
def requireLayers (acc layer : Ag2pcShareSlices) (l : ℕ) : Except Ag2pcTriplePoolError Unit := do
  acc.requireColumns "acc_mac" "acc_key" l
  layer.requireColumns "layer_mac" "layer_key" l

/-- `bucket_prepare_layer`. -/
def bucketPrepareLayer (acc layer : Ag2pcShareSlices) (l r : ℕ) :
    Except Ag2pcTriplePoolError (Ag2pcShareSlices × List UInt8) := do
  requireLayers acc layer l
  return (List.range l).foldl (bucketPrepareStep layer l r) (acc, List.replicate l 0)

/-- One index of `bucket_finish_layer`. -/
def bucketFinishStep (layer : Ag2pcShareSlices) (l r : ℕ) (dMe dPeer : List UInt8)
    (acc : Ag2pcShareSlices) (i : ℕ) : Ag2pcShareSlices :=
  let src := bucketSource l r i
  let mask := selectBlock (dMe.getD i 0 ^^^ dPeer.getD i 0)
  { mac := acc.mac.modify (2 * l + i) fun b => blockXor b
      (blockAnd (layer.mac.getD src Block.zero) mask)
    key := acc.key.modify (2 * l + i) fun b =>
      blockXor b (blockAnd (layer.key.getD src Block.zero) mask) }

/-- `bucket_finish_layer`. -/
def bucketFinishLayer (acc layer : Ag2pcShareSlices) (l r : ℕ) (dMe dPeer : List UInt8) :
    Except Ag2pcTriplePoolError Ag2pcShareSlices := do
  requireLayers acc layer l
  requireLen "d_me" dMe.length l
  requireLen "d_peer" dPeer.length l
  return (List.range l).foldl (bucketFinishStep layer l r dMe dPeer) acc

end Ag2pcTriplePoolState

end Shachain2pc
