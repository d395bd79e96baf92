import Shachain2pc.Compat.TriplePool
import Shachain2pc.Daemon.Keys

/-!
# The triple pool on its streams

Each party has two endpoints of correlated OTs, of which it is the sender in the first. Both
have a stream of their own, and each is kept with it here: Alice's first endpoint uses the
sibling stream and her second the main one, Bob's the other way around. Steps on the two
streams are joined, and may go on in any order.

A joined step runs its parts one after the other here. They use different streams, so only a
run in which one of them fails can tell.
-/

namespace Shachain2pc

open Rust (Failure)
open Triples (zoom)

/-- The errors of `CompatError` which the pool returns. -/
inductive PoolError where
  | ot (error : OtError)
  | badAg2pcInputShape
  deriving DecidableEq, Repr

/-- `Ag2pcTriplePool`, with its streams. -/
structure Ag2pcTriplePool (S : Type) where
  state : Ag2pcTriplePoolState
  abit1 : CotEndpoint S
  abit2 : CotEndpoint S

/-- `Ag2pcStreams`. -/
structure Ag2pcStreams (S : Type) where
  main : S
  sibling : S

/-- What a pool is built from: the block cipher, SHA-256, the base OTs of its endpoints, and the
size of a bucket. -/
structure PoolBase (S : Type) where
  permute : Block → Block → Block
  sha256 : List UInt8 → Value32
  abit1 : OtBase S
  abit2 : OtBase S
  bucketSize : ℕ → ℕ → ℕ

/-- `Ag2pcComputeHashes`. -/
structure Ag2pcComputeHashes where
  gmitc : { m : Mitccrh8 // m.SingleKey }
  emitc : { m : Mitccrh8 // m.SingleKey }
  feq : List UInt8

/-- Fallible and possibly panicking code on a pool. -/
abbrev PoolM (S : Type) := EStateM (Failure PoolError) (Ag2pcTriplePool S)

/-- An error of the OTs. -/
def PoolError.ofOt : Failure OtError → Failure PoolError
  | .error e => .error (.ot e)
  | .panic => .panic

namespace Ag2pcTriplePool

variable {S A B : Type}

/-- Run code on the first endpoint. -/
def onAbit1 (prog : CotM S A) : PoolM S A :=
  zoom PoolError.ofOt abit1 (fun abit1 pool => { pool with abit1 := abit1 }) prog

/-- Run code on the second endpoint. -/
def onAbit2 (prog : CotM S A) : PoolM S A :=
  zoom PoolError.ofOt abit2 (fun abit2 pool => { pool with abit2 := abit2 }) prog

/-- Join code on the two endpoints, `try_join!`. -/
def tryJoin (first : CotM S A) (second : CotM S B) : PoolM S (A × B) := do
  let a ← onAbit1 first
  let b ← onAbit2 second
  return (a, b)

/-- Change the state of the pool. -/
def modifyState (f : Ag2pcTriplePoolState → Ag2pcTriplePoolState) : PoolM S Unit :=
  modify fun pool => { pool with state := f pool.state }

/-- An operation on shares; its errors are not told apart. -/
def onShares (result : Except Ag2pcTriplePoolError A) : PoolM S A :=
  ofExcept (result.mapError fun _ => .error .badAg2pcInputShape)

variable [TranscriptIo S]

/-! ## Messages -/

/-- An operation of an endpoint's stream. -/
def onStream (prog : EStateM WireError S A) : CotM S A := SoftSpoken4.onOt (OtState.onWire prog)

/-- `ag2pc_send_blocks`. -/
def sendBlocks (blocks : List Block) : CotM S Unit := do
  onStream (TranscriptIo.sendData (macBytes blocks))
  onStream TranscriptIo.flush

/-- `ag2pc_recv_blocks`. -/
def recvBlocks (len : ℕ) : CotM S (List Block) := SoftSpoken4.onOt (OtState.recvBlock len)

/-- `ag2pc_send_bool_vector`. -/
def sendBoolVector (data : List UInt8) : CotM S Unit := do
  onStream (TranscriptIo.sendData (packBools data))
  onStream TranscriptIo.flush

/-- `ag2pc_recv_bool_vector`. -/
def recvBoolVector (len : ℕ) : CotM S (List UInt8) := do
  let encoded ← onStream (TranscriptIo.recvData (boolWireLen len))
  return unpackBools encoded len

/-- `ag2pc_send_two_bool_vectors`. -/
def sendTwoBoolVectors (first second : List UInt8) : CotM S Unit := do
  onStream (TranscriptIo.sendData (packBools first))
  onStream (TranscriptIo.sendData (packBools second))
  onStream TranscriptIo.flush

/-- `ag2pc_recv_two_bool_vectors`. -/
def recvTwoBoolVectors (len : ℕ) : CotM S (List UInt8 × List UInt8) := do
  let first ← recvBoolVector len
  let second ← recvBoolVector len
  return (first, second)

/-- Send to the peer while receiving from it. Alice sends on the main stream and Bob on the sibling,
which both are those of the second endpoints. -/
def exchange (send : CotM S Unit) (recv : CotM S A) : PoolM S A := do
  let (peer, ()) ← tryJoin recv send
  return peer

/-- `exchange_blocks`. -/
def exchangeBlocks (mine : List Block) (peerLen : ℕ) : PoolM S (List Block) :=
  exchange (sendBlocks mine) (recvBlocks peerLen)

/-- `exchange_bool_vector`. -/
def exchangeBoolVector (mine : List UInt8) (peerLen : ℕ) : PoolM S (List UInt8) :=
  exchange (sendBoolVector mine) (recvBoolVector peerLen)

/-- `exchange_two_bool_vectors`. -/
def exchangeTwoBoolVectors (mineA mineB : List UInt8) (peerLen : ℕ) :
    PoolM S (List UInt8 × List UInt8) :=
  exchange (sendTwoBoolVectors mineA mineB) (recvTwoBoolVectors peerLen)

variable (base : PoolBase S)

/-! ## The equality check -/

/-- `ag2pc_feq_commitment`. -/
def feqCommitment (digest : List UInt8) (nonce : Block) : List UInt8 :=
  (base.sha256 (digest ++ nonce.toList)).bytes.toList

/-- `ag2pc_feq_check` of Alice, with the nonce which she draws. -/
def feqCheckAlice (localDigest : List UInt8) (nonce : Block) : CotM S Unit := do
  onStream (TranscriptIo.sendData (feqCommitment base localDigest nonce))
  let peerDigest ← onStream (TranscriptIo.recvData 32)
  onStream (TranscriptIo.sendData localDigest)
  onStream (TranscriptIo.sendData (macBytes [nonce]))
  onStream TranscriptIo.flush
  if peerDigest ≠ localDigest then throw (.error .feqMismatch)

/-- `ag2pc_feq_check` of Bob. -/
def feqCheckBob (localDigest : List UInt8) : CotM S Unit := do
  let commitment ← onStream (TranscriptIo.recvData 32)
  onStream (TranscriptIo.sendData localDigest)
  let peerDigest ← onStream (TranscriptIo.recvData 32)
  let nonce ← SoftSpoken4.onOt OtState.recvOneBlock
  let expected := feqCommitment base peerDigest nonce
  if commitment ≠ expected ∨ peerDigest ≠ localDigest then throw (.error .feqMismatch)

/-- `ag2pc_feq_check`, on the main stream. -/
def feqCheck (localDigest : List UInt8) (nonce : Block) : PoolM S Unit := do
  match (← get).state.party with
  | .alice => onAbit2 (feqCheckAlice base localDigest nonce)
  | .bob => onAbit1 (feqCheckBob base localDigest)

/-! ## COTs -/

/-- `ag2pc_begin_flush`. -/
def beginFlush (ot : OtBase S) : CotM S Unit := do
  SoftSpoken4.begin ot
  onStream TranscriptIo.flush

/-- `ag2pc_next_n_flush`. -/
def nextNFlush (ot : OtBase S) (count : ℕ) : CotM S (List Block) := do
  let out ← SoftSpoken4.nextN ot count
  onStream TranscriptIo.flush
  return out

/-- `ag2pc_end_flush`. -/
def endFlush (ot : OtBase S) : CotM S Unit := do
  SoftSpoken4.onOt (SoftSpoken4.endSession ot)
  onStream TranscriptIo.flush

/-- `gen_cot_shares`. -/
def genCotShares (count : ℕ) : PoolM S (List Block × List Block) := do
  modifyState Ag2pcTriplePoolState.markCotsMinted
  let (key, mac) ← tryJoin (nextNFlush base.abit1 count) (nextNFlush base.abit2 count)
  return (mac, key)

/-- `begin_abits`. -/
def beginAbits : PoolM S Unit := do
  let _ ← tryJoin (beginFlush base.abit1) (beginFlush base.abit2)

/-- `end_abits`. -/
def endAbits : PoolM S Unit := do
  let _ ← tryJoin (endFlush base.abit1) (endFlush base.abit2)

/-! ## Triples -/

/-- `leaky_and_halfgate`. -/
def leakyAndHalfgate (shares : Ag2pcShareSlices) (l : ℕ) (hashes : Ag2pcComputeHashes) :
    PoolM S (Ag2pcShareSlices × Ag2pcComputeHashes) := do
  let pool := (← get).state
  let (gmitc, gBlocks) ← onShares
    (pool.leakyAndPrepareG (Mitccrh8.hash base.permute) shares l hashes.gmitc)
  let wBlocks ← exchangeBlocks gBlocks l
  let (emitc, sMe, sout) ← onShares
    (pool.leakyAndPrepareS (Mitccrh8.hash base.permute) shares l hashes.emitc wBlocks)
  let sPeer ← exchangeBoolVector sMe l
  let (shares, feq) ← onShares (pool.leakyAndFinish shares l sMe sPeer sout hashes.feq)
  return (shares, ⟨gmitc, emitc, feq⟩)

/-- The digest of a stream. -/
def getDigest (stream : S) : PoolM S Block :=
  ofExcept ((TranscriptIo.getDigest stream).mapError fun e => .error (.ot (.wire e)))

/-- The main and the sibling stream. -/
def streams (pool : Ag2pcTriplePool S) : Ag2pcStreams S :=
  match pool.state.party with
  | .alice => ⟨pool.abit2.ot.stream, pool.abit1.ot.stream⟩
  | .bob => ⟨pool.abit1.ot.stream, pool.abit2.ot.stream⟩

/-- The oracle of a domain on the digests of the streams. -/
def digestSeed (domain : String) (main sibling : Block) : Rust.Outcome PoolError Block := do
  let ro ← EmpRo.new domain Block.zero
  let ro ← ro.absorbBlock main
  let ro ← ro.absorbBlock sibling
  return ro.squeezeBlock base.sha256

/-- The oracle for the rotation of a layer. -/
def bucketSeed (main sibling : Block) : Rust.Outcome PoolError Block :=
  digestSeed base "AG2PC RO" main sibling

/-- `bucket_one_layer`. -/
def bucketOneLayer (acc layer : Ag2pcShareSlices) (l r : ℕ) : PoolM S Ag2pcShareSlices := do
  let (acc, dMe) ← onShares (Ag2pcTriplePoolState.bucketPrepareLayer acc layer l r)
  let dPeer ← exchangeBoolVector dMe l
  onShares (Ag2pcTriplePoolState.bucketFinishLayer acc layer l r dMe dPeer)

/-- `layered_bucket_into_acc`, with the number of layers which are left. -/
def layeredBucketIntoAcc (l : ℕ) : ℕ → Ag2pcShareSlices → Ag2pcComputeHashes →
    PoolM S (Ag2pcShareSlices × Ag2pcComputeHashes)
  | 0, acc, hashes => return (acc, hashes)
  | layers + 1, acc, hashes => do
    let (sacMac, sacKey) ← genCotShares base (3 * l)
    let (sac, hashes) ← leakyAndHalfgate base ⟨sacMac, sacKey⟩ l hashes
    let streams := (← get).streams
    let main ← getDigest streams.main
    let sibling ← getDigest streams.sibling
    let seed ← ofExcept (bucketSeed base main sibling)
    let acc ← bucketOneLayer acc sac l (Ag2pcTriplePoolState.bucketShift base.permute seed l)
    layeredBucketIntoAcc l layers acc hashes

/-- The seed of the hashes, from the parties' numbers. -/
def pairSeed (party : Role) : Block :=
  let mine := party.partyId.toUInt64
  let peer := (3 - party.partyId).toUInt64
  Block.make (min mine peer) (max mine peer)

/-- The hashes of a batch. -/
def newHashes (party : Role) : Ag2pcComputeHashes :=
  let mitc : { m : Mitccrh8 // m.SingleKey } := ⟨.new (pairSeed party), Mitccrh8.singleKey_new _⟩
  ⟨mitc, mitc, []⟩

/-- `compute_inplace_owned`, from what the pool holds, and with the nonce which Alice draws. -/
def computeBatch (pool : Ag2pcTriplePoolState) (repA repB : List AShareBundle) (nonce : Block) :
    PoolM S (List AShareBundle) := do
  let compute ← onShares (Ag2pcComputeBuffer.new base.bucketSize pool repA repB)
  if compute.l = 0 then return []
  let (rMac, rKey) ← genCotShares base compute.l
  let compute ← onShares (compute.insertRandomCots rMac rKey)
  let (acc, hashes) ← leakyAndHalfgate base compute.acc compute.l (newHashes pool.party)
  let (acc, hashes) ← layeredBucketIntoAcc base compute.l (compute.bucket - 1) acc hashes
  feqCheck base (base.sha256 hashes.feq).bytes.toList nonce
  let compute := { compute with accMac := acc.mac, accKey := acc.key }
  let (xbMe, ybMe) := compute.openingBits
  let (xbPeer, ybPeer) ← exchangeTwoBoolVectors xbMe ybMe compute.l
  onShares (compute.finish pool xbMe ybMe xbPeer ybPeer)

/-- `compute_inplace_owned`. -/
def computeInplace (repA repB : List AShareBundle) (nonce : Block) :
    PoolM S (List AShareBundle) := do
  computeBatch base (← get).state repA repB nonce

/-- `draw`. -/
def draw (count : ℕ) : PoolM S (List AShareBundle) := do
  let (mac, key) ← genCotShares base count
  return List.zipWith AShareBundle.mk mac key

/-! ## Checks -/

/-- `mark_cot_check_flushed`. -/
def markCotCheckFlushed (pool : Ag2pcTriplePoolState) : Ag2pcTriplePoolState :=
  { pool with cotsMintedSinceCheck := false }

/-- `flush_cot_check`. -/
def flushCotCheck : PoolM S Unit := do
  modifyState markCotCheckFlushed
  endAbits base
  beginAbits base

/-- `maybe_flush_cot_check`. -/
def maybeFlushCotCheck : PoolM S Unit := do
  if (← get).state.cotsMintedSinceCheck then flushCotCheck base

/-- `end`. -/
def finish : PoolM S Unit := do
  modifyState markCotCheckFlushed
  endAbits base

/-- `trim_idle_allocations`. -/
def trimIdleAllocations : PoolM S Unit := do
  onAbit1 SoftSpoken4.trimIdleAllocations
  onAbit2 SoftSpoken4.trimIdleAllocations

/-! ## Setting up -/

/-- `SoftSpoken4::new_with_delta`, with the Delta and the seed which are drawn. -/
def newWithDelta (drawn choiceSeed delta : Block) (stream : S) : Except OtError (CotEndpoint S) :=
  let endpoint := SoftSpoken4.new .alice true drawn choiceSeed stream
  match endpoint.ot.state.setDelta delta with
  | .ok state => .ok { endpoint with ot := { endpoint.ot with state := state } }
  | .error _ => .error (.badOtRole "SoftSpoken4::set_delta")

/-- What a party draws for its endpoints. -/
structure PoolDraws where
  delta : Block
  choiceSeed1 : Block
  choiceSeed2 : Block

/-- The pool of `setup_with_delta`, at its streams. -/
def new (party : Role) (ssp : ℕ) (delta : Block) (draws : PoolDraws) (streams : Ag2pcStreams S) :
    Except OtError (Ag2pcTriplePool S) := do
  let (first, second) := match party with
    | .alice => (streams.sibling, streams.main)
    | .bob => (streams.main, streams.sibling)
  let delta := normalizeAg2pcDelta party delta
  let abit1 ← newWithDelta draws.delta draws.choiceSeed1 delta first
  return {
    state := .new party ssp delta
    abit1 := abit1
    abit2 := SoftSpoken4.new .bob true Block.zero draws.choiceSeed2 second }

/-- Enable the transcript of an endpoint's stream which has none. -/
def enableFs (sendFirst : Bool) : CotM S Unit := do
  if ¬TranscriptIo.fsEnabled (← get).ot.stream then onStream (TranscriptIo.enableFs sendFirst)

/-- `setup_with_delta`, from the pool's streams on. -/
def setup : PoolM S Unit := do
  let alice := (← get).state.party = .alice
  onAbit1 (enableFs alice)
  onAbit2 (enableFs alice)
  beginAbits base

end Ag2pcTriplePool

end Shachain2pc
