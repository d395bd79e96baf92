import Shachain2pc.Compat.OtPrimitives
import Shachain2pc.Lib.Rust

/-!
# The state of a correlated OT endpoint

Alice is the sender: her COTs are offset by her Delta. Bob is the receiver: his COTs carry
his choice bits. Both stretch 128 base OTs into chunks of COTs. A chunk of `bs` blocks gives
`128 * bs` COTs and uses the tweaks of the endpoint's session from its block counter on.

The fields which hold COTs that were generated and not yet delivered are kept apart.
-/

namespace Shachain2pc

open Rust (Outcome)

/-- `SOFTSPOKEN_K`. -/
def softspokenK : ℕ := 4

/-- `SOFTSPOKEN_N`. -/
def softspokenN : ℕ := 128 / softspokenK

/-- `SOFTSPOKEN_Q`. -/
def softspokenQ : ℕ := 2 ^ softspokenK

/-- `SOFTSPOKEN_CHUNK_BLOCKS`. -/
def softspokenChunkBlocks : ℕ := 64

/-- `SOFTSPOKEN_CHUNK_OTS`. -/
def softspokenChunkOts : ℕ := softspokenChunkBlocks * 128

/-- `SOFTSPOKEN_PPRF_CHECK_HIGH`. -/
def softspokenPprfCheckHigh : UInt64 := 0x70505246434b5f00

inductive SoftSpokenStateError where
  | badDeltaRole
  | maliciousCheckMismatch
  | pprfBufferLength (expected actual : ℕ)
  | pprfDigestLength (expected actual : ℕ)
  | pprfCheckMismatch
  | baseOtLength (expected actual : ℕ)
  deriving DecidableEq, Repr

/-- `SoftSpoken4State`, without the fields of the leftover. -/
structure SoftSpoken4State where
  role : Role
  malicious : Bool
  setupDone : Bool
  delta : Block
  deltaBool : List Bool
  choicePrg : Prg
  session : UInt64
  curSendSession : UInt64
  curRecvSession : UInt64
  curSendB0 : UInt64
  curRecvB0 : UInt64
  alphas : List ℕ
  leavesRecv : List Block
  leavesSend : List Block
  checkQ : Block
  checkT : Block
  checkX : Block
  deriving DecidableEq, Repr

/-- The fields `leftover`, `leftover_pos` and `leftover_count`. -/
structure Leftover where
  blocks : List Block
  pos : ℕ
  count : ℕ
  deriving DecidableEq, Repr

/-- `block_to_bools`. -/
def blockToBools (block : Block) : List Bool :=
  (List.range 128).map fun i => (block.toList.getD (i / 8) 0).toNat.testBit (i % 8)

namespace SoftSpoken4State

/-- `SoftSpoken4State::new`, whose leftover is empty. -/
def new (role : Role) (malicious : Bool) (delta choiceSeed : Block) : SoftSpoken4State where
  role := role
  malicious := malicious
  setupDone := false
  delta := if role = .alice then delta else Block.zero
  deltaBool := if role = .alice then blockToBools delta else List.replicate 128 false
  choicePrg := Prg.new choiceSeed 0
  session := 0
  curSendSession := 0
  curRecvSession := 0
  curSendB0 := 0
  curRecvB0 := 0
  alphas := List.replicate softspokenN 0
  leavesRecv := []
  leavesSend := []
  checkQ := Block.zero
  checkT := Block.zero
  checkX := Block.zero

/-- `set_delta`. -/
def setDelta (s : SoftSpoken4State) (delta : Block) :
    Except SoftSpokenStateError SoftSpoken4State :=
  if s.setupDone ∨ s.role ≠ .alice then .error .badDeltaRole
  else .ok { s with delta := delta, deltaBool := blockToBools delta }

/-- `begin_send_session`. -/
def beginSendSession (s : SoftSpoken4State) : SoftSpoken4State :=
  { s with
    curSendSession := s.session
    session := s.session + 1
    curSendB0 := 0
    checkQ := if s.malicious then Block.zero else s.checkQ }

/-- `begin_recv_session`. -/
def beginRecvSession (s : SoftSpoken4State) : SoftSpoken4State :=
  { s with
    curRecvSession := s.session
    session := s.session + 1
    curRecvB0 := 0
    checkT := if s.malicious then Block.zero else s.checkT
    checkX := if s.malicious then Block.zero else s.checkX }

/-- `verify_send_check`. -/
def verifySendCheck (s : SoftSpoken4State) (checkX checkT : Block) :
    Except SoftSpokenStateError Unit :=
  if blockXor s.checkQ (gfMul checkX s.delta) ≠ checkT then .error .maliciousCheckMismatch
  else .ok ()

/-- `mark_setup_done`. -/
def markSetupDone (s : SoftSpoken4State) : SoftSpoken4State := { s with setupDone := true }

/-! ## Setting up -/

/-- `bootstrap_send_choices`: the choices of the base OTs, and the positions of the leaves which the
sender of the extension does not know. -/
def bootstrapSendChoices (s : SoftSpoken4State) : List Bool × SoftSpoken4State :=
  let alphas := (List.range softspokenN).map fun i =>
    (List.range softspokenK).foldl
      (fun alpha bit => if s.deltaBool.getD (i * softspokenK + bit) false then alpha ||| (1 <<< bit)
        else alpha) 0
  (alphas.flatMap fun alpha => (List.range softspokenK).map fun bit => !alpha.testBit bit,
    { s with alphas := alphas })

variable (permute : Block → Block → Block)

/-- `bootstrap_send_apply_received`. -/
def bootstrapSendApplyReceived (s : SoftSpoken4State) (received : List Block) :
    Except SoftSpokenStateError SoftSpoken4State :=
  if received.length ≠ softspokenN * softspokenK then
    .error (.baseOtLength (softspokenN * softspokenK) received.length)
  else .ok { s with
    leavesRecv := (List.range softspokenN).flatMap fun i =>
      let path := (cggmBitReverse (UInt32.ofNat (s.alphas.getD i 0)) softspokenK).toNat
      cggmEvalReceiver permute softspokenK path
        ((received.drop (i * softspokenK)).take softspokenK) false }

/-- The trees of `bootstrap_recv_keys`, each from two blocks of the generator. -/
def bootstrapRecvTrees : ℕ → Prg → List (List Block × List Block × Block) × Prg
  | 0, prg => ([], prg)
  | n + 1, prg =>
    let (pair, prg) := prg.randomBlock permute 2
    let delta := pair.getD 0 Block.zero
    let (leaves, k0) := cggmBuildSender permute softspokenK delta (pair.getD 1 Block.zero) false
    let (rest, prg) := bootstrapRecvTrees n prg
    ((leaves, k0, delta) :: rest, prg)

/-- `bootstrap_recv_keys`. -/
def bootstrapRecvKeys (s : SoftSpoken4State) : (List Block × List Block) × SoftSpoken4State :=
  let (trees, prg) := bootstrapRecvTrees permute softspokenN s.choicePrg
  ((trees.flatMap fun tree => tree.2.1,
      trees.flatMap fun tree => tree.2.1.map fun key => blockXor key tree.2.2),
    { s with choicePrg := prg, leavesSend := trees.flatMap fun tree => tree.1 })

/-- The key of the check of the trees. -/
def pprfCheckKey : Block := Block.make softspokenPprfCheckHigh 0

/-- The state of the loops of a sender's check: the leaves, the sums of the current tree, those of
the trees, and what is hashed. -/
structure PprfSend where
  leaves : List Block
  tx : Block
  ty : Block
  tBuf : List Block
  hashed : List Block

/-- A leaf of a sender's check. -/
def pprfSendLeaf (base : ℕ) (loop : PprfSend) (y : ℕ) : PprfSend :=
  let exp := aesDm3 permute pprfCheckKey (loop.leaves.getD (base + y) Block.zero)
  { loop with
    leaves := loop.leaves.set (base + y) exp.1
    tx := blockXor loop.tx exp.2.1
    ty := blockXor loop.ty exp.2.2
    hashed := loop.hashed ++ [exp.2.1, exp.2.2] }

/-- A tree of a sender's check. -/
def pprfSendTree (loop : PprfSend) (i : ℕ) : PprfSend :=
  let loop := (List.range softspokenQ).foldl (pprfSendLeaf permute (i * softspokenQ))
    { loop with tx := Block.zero, ty := Block.zero }
  { loop with tBuf := (loop.tBuf.set (i * 2) loop.tx).set (i * 2 + 1) loop.ty }

variable (sha256 : List UInt8 → Value32)

/-- `pprf_check_send_prepare`: the sums sent for each tree, and the digest. -/
def pprfCheckSendPrepare (s : SoftSpoken4State) : (List Block × Value32) × SoftSpoken4State :=
  let loop := (List.range softspokenN).foldl (pprfSendTree permute) {
    leaves := s.leavesSend
    tx := Block.zero
    ty := Block.zero
    tBuf := List.replicate (softspokenN * 2) Block.zero
    hashed := [] }
  ((loop.tBuf, sha256 (macBytes loop.hashed)), { s with leavesSend := loop.leaves })

/-- The state of the loops of a receiver's check. The buffer of a tree is not cleared for the next
one. -/
structure PprfRecv where
  leaves : List Block
  sBuf : List Block
  tx : Block
  ty : Block
  hashed : List Block

/-- A leaf of a receiver's check, which skips the one that is not known. -/
def pprfRecvLeaf (alpha base : ℕ) (loop : PprfRecv) (y : ℕ) : PprfRecv :=
  if y = alpha then loop
  else
    let exp := aesDm3 permute pprfCheckKey (loop.leaves.getD (base + y) Block.zero)
    { loop with
      leaves := loop.leaves.set (base + y) exp.1
      sBuf := (loop.sBuf.set (y * 2) exp.2.1).set (y * 2 + 1) exp.2.2
      tx := blockXor loop.tx exp.2.1
      ty := blockXor loop.ty exp.2.2 }

/-- A tree of a receiver's check: the two blocks of the unknown leaf follow from the sums. -/
def pprfRecvTree (alphas : List ℕ) (tBuf : List Block) (loop : PprfRecv) (i : ℕ) : PprfRecv :=
  let alpha := alphas.getD i 0
  let loop := (List.range softspokenQ).foldl (pprfRecvLeaf permute alpha (i * softspokenQ))
    { loop with tx := Block.zero, ty := Block.zero }
  let sBuf := (loop.sBuf.set (alpha * 2) (blockXor (tBuf.getD (i * 2) Block.zero) loop.tx)).set
    (alpha * 2 + 1) (blockXor (tBuf.getD (i * 2 + 1) Block.zero) loop.ty)
  { loop with sBuf := sBuf, hashed := loop.hashed ++ sBuf }

/-- `pprf_check_recv_verify`: the leaves are replaced before the digests are compared. -/
def pprfCheckRecvVerify (s : SoftSpoken4State) (tBuf : List Block) (theirDigest : List UInt8) :
    Except SoftSpokenStateError Unit × SoftSpoken4State :=
  if tBuf.length ≠ softspokenN * 2 then
    (.error (.pprfBufferLength (softspokenN * 2) tBuf.length), s)
  else if theirDigest.length ≠ 32 then (.error (.pprfDigestLength 32 theirDigest.length), s)
  else
    let loop := (List.range softspokenN).foldl (pprfRecvTree permute s.alphas tBuf) {
      leaves := s.leavesRecv
      sBuf := List.replicate (softspokenQ * 2) Block.zero
      tx := Block.zero
      ty := Block.zero
      hashed := [] }
    (if (sha256 (macBytes loop.hashed)).bytes.toList ≠ theirDigest then .error .pprfCheckMismatch
      else .ok (),
      { s with leavesRecv := loop.leaves })

/-! ## Chunks -/

/-- The random combination of a chunk's COTs, 128 at a time. -/
def packed (out : List Block) (bs : ℕ) : List Block :=
  (List.range bs).map fun i => gfPack128 ((out.drop (i * 128)).take 128)

/-- The coefficients of a combination. -/
def chi (transcriptSeed : Block) (bs : ℕ) : List Block :=
  ((Prg.new transcriptSeed 0).randomBlock permute bs).1

/-- `combine_send_chunk`. -/
def combineSendChunk (s : SoftSpoken4State) (transcriptSeed : Block) (out : List Block) (bs : ℕ) :
    SoftSpoken4State :=
  { s with
    checkQ := blockXor s.checkQ (gfInnerProduct (chi permute transcriptSeed bs) (packed out bs)) }

/-- `combine_recv_chunk`. -/
def combineRecvChunk (s : SoftSpoken4State) (transcriptSeed : Block) (out uCanonical : List Block)
    (bs : ℕ) : SoftSpoken4State :=
  { s with
    checkT := blockXor s.checkT (gfInnerProduct (chi permute transcriptSeed bs) (packed out bs))
    checkX := blockXor s.checkX (gfInnerProduct (chi permute transcriptSeed bs) uCanonical) }

variable {E : Type}

/-- `send_chunk_prepare`; without the leaves of a setup it panics. -/
def sendChunkPrepare (s : SoftSpoken4State) (bs : ℕ) : Outcome E (List Block) := do
  let trees ← (List.range softspokenN).mapM fun i => do
    let leaves ← Rust.readSlice s.leavesRecv (i * softspokenQ) softspokenQ
    return sfvoleReceiverButterfly permute softspokenK (s.alphas.getD i 0) leaves s.curSendB0 bs
      s.curSendSession
  return trees.flatten

/-- The planes of a sender, with the receiver's corrections, and the first one cleared. -/
def correctedPlanes (s : SoftSpoken4State) (planes dBufs : List Block) (bs : ℕ) : List Block :=
  planes.mapIdx fun position plane =>
    let row := position / bs
    let i := row / softspokenK
    if row = 0 then Block.zero
    else if 1 ≤ i ∧ (s.alphas.getD i 0).testBit (row % softspokenK) then
      blockXor plane (dBufs.getD ((i - 1) * bs + position % bs) Block.zero)
    else plane

/-- `send_chunk_finish`. -/
def sendChunkFinish (s : SoftSpoken4State) (planes dBufs : List Block)
    (transcriptSeed : Option Block) (bs : ℕ) :
    Except SoftSpokenStateError (List Block × SoftSpoken4State) :=
  if dBufs.length ≠ (softspokenN - 1) * bs then
    .error (.baseOtLength ((softspokenN - 1) * bs) dBufs.length)
  else
    let out := transposeSoftspokenPlanes (s.correctedPlanes planes dBufs bs) bs
    let s := match transcriptSeed with
      | some seed => s.combineSendChunk permute seed out bs
      | none => s
    .ok (out, { s with curSendB0 := s.curSendB0 + UInt64.ofNat bs })

/-- What `recv_chunk_prepare` returns: the corrections to send, the COTs, and the choice bits. -/
structure RecvChunk where
  dBufs : List Block
  out : List Block
  uCanonical : List Block

/-- `recv_chunk_prepare`; without the leaves of a setup it panics. -/
def recvChunkPrepare (s : SoftSpoken4State) (bs : ℕ) : Outcome E RecvChunk := do
  let trees ← (List.range softspokenN).mapM fun i => do
    let leaves ← Rust.readSlice s.leavesSend (i * softspokenQ) softspokenQ
    return sfvoleSenderButterfly permute softspokenK leaves s.curRecvB0 bs s.curRecvSession
  let uCanonical := (trees.headD ([], [])).1
  return {
    dBufs := trees.tail.flatMap fun tree => List.zipWith blockXor uCanonical tree.1
    out := transposeSoftspokenPlanes (uCanonical ++ (trees.flatMap fun tree => tree.2).drop bs) bs
    uCanonical := uCanonical }

/-- `recv_chunk_finish`. -/
def recvChunkFinish (s : SoftSpoken4State) (transcriptSeed : Option Block)
    (out uCanonical : List Block) (bs : ℕ) : SoftSpoken4State :=
  let s := match transcriptSeed with
    | some seed => s.combineRecvChunk permute seed out uCanonical bs
    | none => s
  { s with curRecvB0 := s.curRecvB0 + UInt64.ofNat bs }

end SoftSpoken4State

end Shachain2pc
