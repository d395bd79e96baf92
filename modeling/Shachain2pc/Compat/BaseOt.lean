import Shachain2pc.Compat.EmpRo
import Shachain2pc.Compat.SoftSpokenIo

/-!
# Base oblivious transfers

The receiver hides each choice in a point, a multiple of the generator to which a common
point is added for a one. The sender derives one pad from each point and one from its
difference with that common point, and the receiver can derive the pad of its choice only.
The sender proves that its pads are well formed, and the receiver answers the proof.

Points travel encoded, after their length. The curve is a parameter: its points, how they are
encoded, and hashing to it.
-/

namespace Shachain2pc

open Rust (Outcome Failure)
open Triples (zoom)

/-- `ByteIo`, what the base OTs use of it. -/
class ByteIo (S : Type) where
  sendData : List UInt8 → EStateM WireError S Unit
  recvData : ℕ → EStateM WireError S (List UInt8)
  flush : EStateM WireError S Unit

/-- A stream with a transcript carries bytes. -/
instance {S : Type} [TranscriptIo S] : ByteIo S :=
  ⟨TranscriptIo.sendData, TranscriptIo.recvData, TranscriptIo.flush⟩

/-- `POINT_BYTES`. -/
def pointBytes : ℕ := 65

/-- `P256`: the generator, the uncompressed encodings of the points, and hashing a message to the
curve under a domain. -/
structure P256 (G : Type) where
  generator : G
  toBytes : G → List UInt8
  fromBytes : List UInt8 → Except String G
  hashFromBytes : List UInt8 → List UInt8 → Option G

namespace P256

variable {G : Type} [AddCommGroup G] (curve : P256 G)

/-- `point_from_bytes`. -/
def pointFromBytes (point : List UInt8) : Outcome OtError G :=
  (curve.fromBytes point).mapError fun text => .error (.openSsl text)

/-- `mul_gen_bn`. -/
def mulGenBn (scalar : ℕ) : List UInt8 := curve.toBytes (scalar • curve.generator)

/-- `point_add`. -/
def pointAdd (lhs rhs : List UInt8) : Outcome OtError (List UInt8) := do
  let lhs ← curve.pointFromBytes lhs
  let rhs ← curve.pointFromBytes rhs
  return curve.toBytes (lhs + rhs)

/-- `point_mul_bn`. -/
def pointMulBn (point : List UInt8) (scalar : ℕ) : Outcome OtError (List UInt8) := do
  let point ← curve.pointFromBytes point
  return curve.toBytes (scalar • point)

/-- `point_inv`. -/
def pointInv (point : List UInt8) : Outcome OtError (List UInt8) := do
  let point ← curve.pointFromBytes point
  return curve.toBytes (-point)

end P256

/-- `squeeze_p256_point`. -/
def EmpRo.squeezeP256Point {G : Type} (curve : P256 G) (ro : EmpRo) :
    Outcome OtError (List UInt8) :=
  match curve.hashFromBytes ro.buf ro.domain with
  | some point => .ok (curve.toBytes point)
  | none => .error (.error .hashToCurve)

namespace BaseOt

/-! ## Hashes -/

section Hashes

variable (sha256 : List UInt8 → Value32)

/-- The point to which the receiver's seed is hashed. -/
def toCurve {G : Type} (curve : P256 G) (sid seed : Block) : Outcome OtError (List UInt8) := do
  let ro ← EmpRo.new "emp-ot:csw-base-ot:to-curve" sid
  let ro ← ro.absorbBlock seed
  ro.squeezeP256Point curve

/-- `csw_pad_block`. -/
def cswPadBlock (sid : Block) (i : ℕ) (point : List UInt8) : Outcome OtError Block := do
  let ro ← EmpRo.new "emp-ot:csw-base-ot:pad" sid
  let ro ← ro.absorbU64 (UInt64.ofNat i)
  let ro ← ro.absorbPoint point
  return ro.squeezeBlock sha256

/-- `csw_short_block`. -/
def cswShortBlock (sid block : Block) : Outcome OtError Block := do
  let ro ← EmpRo.new "emp-ot:csw-base-ot:short" sid
  let ro ← ro.absorbBlock block
  return ro.squeezeBlock sha256

/-- The answer to all challenges. -/
def aggregate (sid : Block) (blocks : List Block) : Outcome OtError Block := do
  let ro ← EmpRo.new "emp-ot:csw-base-ot:agg" sid
  let ro ← ro.absorbBytes (macBytes blocks)
  return ro.squeezeBlock sha256

end Hashes

/-! ## The stream -/

/-- Code of a party of the base OTs. -/
abbrev BaseM (S : Type) := EStateM (Failure OtError) S

section Io

variable {S A : Type}

/-- Run a stream operation. -/
def onIo (prog : EStateM WireError S A) : BaseM S A :=
  zoom (fun e => .error (.wire e)) id (fun stream _ => stream) prog

variable [ByteIo S]

/-- `send_block`. -/
def sendBlock (blocks : List Block) : BaseM S Unit := onIo (ByteIo.sendData (macBytes blocks))

/-- `recv_block`. -/
def recvBlock (count : ℕ) : BaseM S (List Block) := do
  let bytes ← onIo (ByteIo.recvData (count * 16))
  return blocksOfBytes (bytes.length / 16) bytes

/-- `recv_block(1).await?[0]`. -/
def recvOneBlock : BaseM S Block := do
  let blocks ← recvBlock 1
  ofExcept (Rust.readSlot blocks 0)

/-- `send_point`. -/
def sendPoint (point : List UInt8) : BaseM S Unit := do
  if point.length ≠ pointBytes then throw (.error (.badPointLength point.length))
  onIo (ByteIo.sendData (leBytes 4 point.length))
  onIo (ByteIo.sendData point)

/-- The number with the given bytes, `from_le_bytes`. -/
def leValue (bytes : List UInt8) : ℕ := bytes.foldr (fun byte value => byte.toNat + 256 * value) 0

/-- `recv_point`. -/
def recvPoint : BaseM S (List UInt8) := do
  let lenBytes ← onIo (ByteIo.recvData 4)
  let len := leValue lenBytes
  if len ≠ pointBytes then throw (.error (.badPointWireLength (UInt32.ofNat len)))
  onIo (ByteIo.recvData pointBytes)

end Io

/-! ## The parties -/

/-- The two pads of a point of the receiver, and the hash of the first. -/
structure SenderPads where
  pad0 : Block
  pad1 : Block
  h0 : Block
  deriving DecidableEq, Repr

section Parties

variable {G S : Type} [AddCommGroup G] [ByteIo S] (curve : P256 G) (sha256 : List UInt8 → Value32)

/-- The pads of one point. -/
def senderPads (sid : Block) (r : ℕ) (tRNeg : List UInt8) (entry : List UInt8 × ℕ) :
    Outcome OtError SenderPads := do
  let (bPoint, i) := entry
  let rho0 ← curve.pointMulBn bPoint r
  let rho1 ← curve.pointAdd rho0 tRNeg
  let pad0 ← cswPadBlock sha256 sid i rho0
  let pad1 ← cswPadBlock sha256 sid i rho1
  return ⟨pad0, pad1, ← cswShortBlock sha256 sid pad0⟩

/-- The challenge of one point, and the two messages under their pads. -/
def senderChallenge (sid : Block) (entry : SenderPads × Block × Block) :
    Outcome OtError (Block × Block × Block) := do
  let (pads, data0, data1) := entry
  let h1 ← cswShortBlock sha256 sid pads.pad1
  return (blockXor pads.h0 h1, blockXor pads.pad0 data0, blockXor pads.pad1 data1)

/-- `csw_send`, from the receiver's answer on. -/
def cswSendFinish (otans : Block) : BaseM S Unit := do
  let otansPrime ← recvOneBlock
  if otansPrime ≠ otans then throw (.error .cswReceiverMismatch)

/-- `csw_send`, from the pads on. -/
def cswSendPads (z : List UInt8) (pads : List SenderPads) (data0 data1 : List Block) :
    BaseM S Unit := do
  let sid := Block.zero
  let otans ← ofExcept (aggregate sha256 sid (pads.map (·.h0)))
  let proof ← ofExcept (cswShortBlock sha256 sid otans)
  let masked ← ofExcept ((pads.zip (data0.zip data1)).mapM (senderChallenge sha256 sid))
  sendPoint z
  sendBlock (masked.map (·.1))
  sendBlock [proof]
  sendBlock (masked.map (·.2.1))
  sendBlock (masked.map (·.2.2))
  onIo ByteIo.flush
  cswSendFinish otans

/-- `csw_send`, with the scalar which is drawn. -/
def cswSend (r : ℕ) (data0 data1 : List Block) : BaseM S Unit := do
  if data0.length ≠ data1.length then throw (.error (.badOtLength data0.length data1.length))
  if data0.length < 80 then throw (.error (.badCswLength data0.length))
  let sid := Block.zero
  let seed ← recvOneBlock
  let bPoints ← (List.range data0.length).mapM fun _ => recvPoint
  let t ← ofExcept (toCurve curve sid seed)
  let z := curve.mulGenBn r
  let tR ← ofExcept (curve.pointMulBn t r)
  let tRNeg ← ofExcept (curve.pointInv tR)
  let pads ← ofExcept (bPoints.zipIdx.mapM (senderPads curve sha256 sid r tRNeg))
  cswSendPads sha256 z pads data0 data1

/-- The point in which a choice is hidden. -/
def receiverPoint (t : List UInt8) (choice : Bool) (alpha : ℕ) : Outcome OtError (List UInt8) :=
  let bPoint := curve.mulGenBn alpha
  if choice then curve.pointAdd bPoint t else return bPoint

/-- The pad of a choice and its hash. -/
def receiverPad (sid : Block) (z : List UInt8) (entry : ℕ × ℕ) :
    Outcome OtError (Block × Block) := do
  let (alpha, i) := entry
  let zAlpha ← curve.pointMulBn z alpha
  let pad ← cswPadBlock sha256 sid i zAlpha
  return (pad, ← cswShortBlock sha256 sid pad)

/-- The response to each challenge. -/
def receiverResponses (choices : List Bool) (pads : List (Block × Block)) (chi : List Block) :
    List Block :=
  List.zipWith (fun choice entry => if choice then blockXor entry.1.2 entry.2 else entry.1.2)
    choices (pads.zip chi)

/-- The message of each choice. -/
def receiverOutput (choices : List Bool) (pads : List (Block × Block)) (c0 c1 : List Block) :
    List Block :=
  List.zipWith (fun choice entry => blockXor entry.1.1 (if choice then entry.2.2 else entry.2.1))
    choices (pads.zip (c0.zip c1))

/-- `csw_recv`, from the sender's point on. -/
def cswRecvFinish (sid : Block) (alphas : ℕ → ℕ) (choices : List Bool) : BaseM S (List Block) := do
  let z ← recvPoint
  let pads ← ofExcept ((((List.range choices.length).map alphas).zipIdx).mapM
    (receiverPad curve sha256 sid z))
  let chi ← recvBlock choices.length
  let proof ← recvOneBlock
  let c0 ← recvBlock choices.length
  let c1 ← recvBlock choices.length
  let otansPrime ← ofExcept (aggregate sha256 sid (receiverResponses choices pads chi))
  let expected ← ofExcept (cswShortBlock sha256 sid otansPrime)
  if expected ≠ proof then throw (.error .cswProofMismatch)
  let out := receiverOutput choices pads c0 c1
  sendBlock [otansPrime]
  onIo ByteIo.flush
  return out

/-- `csw_recv`, with the seed and the scalars which are drawn. -/
def cswRecv (seed : Block) (alphas : ℕ → ℕ) (choices : List Bool) : BaseM S (List Block) := do
  if choices.length < 80 then throw (.error (.badCswLength choices.length))
  let sid := Block.zero
  let t ← ofExcept (toCurve curve sid seed)
  sendBlock [seed]
  choices.zipIdx.forM fun entry => do
    let bPoint ← ofExcept (receiverPoint curve t entry.1 (alphas entry.2))
    sendPoint bPoint
  onIo ByteIo.flush
  cswRecvFinish curve sha256 sid alphas choices

end Parties

end BaseOt

end Shachain2pc
