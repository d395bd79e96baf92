import Shachain2pc.Compat.BaseOt

/-!
# An honest run of the base OTs

Each party receives what the other has flushed. The pad which the receiver derives from the
sender's point is the sender's pad of the receiver's choice: for a zero both are the product of
the two secret scalars and the generator, for a one the sender takes the common point off
again. Hence every response is the hash of the first pad, whatever the choices are, and the
two aggregated answers agree.
-/

namespace Shachain2pc

open Rust (Outcome Failure)
open Triples (Triple finalState bind_ok ofExcept_ok)

/-- A stream by the bytes which are to come, those which wait for a flush, and those which were
flushed. -/
structure Pipe where
  incoming : List UInt8
  unflushed : List UInt8
  outgoing : List UInt8
  deriving DecidableEq, Repr

/-- A receive fails when the stream ends before the bytes which it asks for. -/
instance : ByteIo Pipe where
  sendData bytes := modify fun p => { p with unflushed := p.unflushed ++ bytes }
  recvData len := fun p =>
    match recvData len p.incoming with
    | some (bytes, rest) => .ok bytes { p with incoming := rest }
    | none => .error .brokenPipe p
  flush := modify fun p => { p with unflushed := [], outgoing := p.outgoing ++ p.unflushed }

/-! ## Oracles -/

namespace EmpRo

/-- The oracle which absorbed frames. -/
def ofFrames (domain : String) (frames : List (ℕ × List UInt8)) : EmpRo :=
  ⟨utf8Bytes domain, frames.flatMap fun frame => roFrame frame.1 frame.2⟩

variable {E : Type}

/-- A frame which fits is absorbed. -/
theorem frame_ofFrames (domain : String) (frames : List (ℕ × List UInt8)) {typ : ℕ}
    {data : List UInt8} (h : data.length < 2 ^ 32) :
    ((ofFrames domain frames).frame typ data : Outcome E EmpRo) =
      .ok (ofFrames domain (frames ++ [(typ, data)])) := by
  rw [frame, if_pos h]
  simp [ofFrames]

/-- A new oracle. -/
theorem new_eq {domain : String} (h : (utf8Bytes domain).length < 2 ^ 32) (sid : Block) :
    (new domain sid : Outcome E EmpRo) =
      .ok (ofFrames domain [(1, utf8Bytes domain), (3, sid.toList)]) := by
  have hfirst : (⟨utf8Bytes domain, []⟩ : EmpRo) = ofFrames domain [] := rfl
  have hsid : sid.toList.length < 2 ^ 32 := by simp
  rw [new, hfirst, frame_ofFrames domain [] h]
  exact frame_ofFrames domain _ hsid

end EmpRo

namespace BaseOt

variable (sha256 : List UInt8 → Value32) (sid : Block)

/-- The oracle for the common point. -/
def curveOracle (seed : Block) : EmpRo :=
  .ofFrames "emp-ot:csw-base-ot:to-curve"
    [(1, utf8Bytes "emp-ot:csw-base-ot:to-curve"), (3, sid.toList), (3, seed.toList)]

/-- The pad of a point. -/
def padValue (i : ℕ) (point : List UInt8) : Block :=
  (EmpRo.ofFrames "emp-ot:csw-base-ot:pad"
    [(1, utf8Bytes "emp-ot:csw-base-ot:pad"), (3, sid.toList),
    (4, leBytes 8 (UInt64.ofNat i).toNat), (5, point)]).squeezeBlock sha256

/-- The hash of a block. -/
def shortValue (block : Block) : Block :=
  (EmpRo.ofFrames "emp-ot:csw-base-ot:short" [(1, utf8Bytes "emp-ot:csw-base-ot:short"),
    (3, sid.toList), (3, block.toList)]).squeezeBlock sha256

/-- The hash of blocks. -/
def aggregateValue (blocks : List Block) : Block :=
  (EmpRo.ofFrames "emp-ot:csw-base-ot:agg"
    [(1, utf8Bytes "emp-ot:csw-base-ot:agg"), (3, sid.toList),
    (2, macBytes blocks)]).squeezeBlock sha256

/-- A point which fits a frame has a pad. -/
theorem cswPadBlock_eq (i : ℕ) {point : List UInt8} (h : point.length < 2 ^ 32) :
    cswPadBlock sha256 sid i point = .ok (padValue sha256 sid i point) := by
  have hvalue : (leBytes 8 (UInt64.ofNat i).toNat).length < 2 ^ 32 := by simp
  rw [cswPadBlock, EmpRo.new_eq (by decide +kernel)]
  simp only [Rust.ok_bind, EmpRo.absorbU64, EmpRo.absorbPoint, EmpRo.frame_ofFrames _ _ hvalue,
    EmpRo.frame_ofFrames _ _ h]
  rfl

/-- A block has a hash. -/
theorem cswShortBlock_eq (block : Block) :
    cswShortBlock sha256 sid block = .ok (shortValue sha256 sid block) := by
  have hblock : block.toList.length < 2 ^ 32 := by simp
  rw [cswShortBlock, EmpRo.new_eq (by decide +kernel)]
  simp only [Rust.ok_bind, EmpRo.absorbBlock, EmpRo.frame_ofFrames _ _ hblock]
  rfl

/-- Fewer than 2^28 blocks have a hash. -/
theorem aggregate_eq {blocks : List Block} (h : blocks.length < 2 ^ 28) :
    aggregate sha256 sid blocks = .ok (aggregateValue sha256 sid blocks) := by
  have hbytes : (macBytes blocks).length < 2 ^ 32 := by
    rw [macBytes_length]
    omega
  rw [aggregate, EmpRo.new_eq (by decide +kernel)]
  simp only [Rust.ok_bind, EmpRo.absorbBytes, EmpRo.frame_ofFrames _ _ hbytes]
  rfl

/-- More blocks do not fit a frame. -/
theorem aggregate_panic {blocks : List Block} (h : 2 ^ 28 ≤ blocks.length) :
    aggregate sha256 sid blocks = .error .panic := by
  have hbytes : ¬(macBytes blocks).length < 2 ^ 32 := by
    rw [macBytes_length]
    omega
  rw [aggregate, EmpRo.new_eq (by decide +kernel)]
  simp only [Rust.ok_bind, EmpRo.absorbBytes, EmpRo.frame, if_neg hbytes]
  rfl

/-- The common point of a seed. -/
theorem toCurve_eq {G : Type} {curve : P256 G} {seed : Block} {t : G}
    (h : curve.hashFromBytes (curveOracle sid seed).buf (curveOracle sid seed).domain = some t) :
    toCurve curve sid seed = .ok (curve.toBytes t) := by
  have hseed : seed.toList.length < 2 ^ 32 := by simp
  rw [toCurve, EmpRo.new_eq (by decide +kernel)]
  simp only [Rust.ok_bind, EmpRo.absorbBlock, EmpRo.frame_ofFrames _ _ hseed]
  change EmpRo.squeezeP256Point curve (curveOracle sid seed) = _
  rw [EmpRo.squeezeP256Point, h]

/-! ## Streams -/

section Streams

variable {A B : Type} {p q : Pipe}

/-- The bytes of a point which is sent. -/
def pointMessage (point : List UInt8) : List UInt8 := leBytes 4 point.length ++ point

/-- Blocks are received as they were sent. -/
theorem recvBlock_run (blocks : List Block) (rest unflushed outgoing : List UInt8) :
    recvBlock (S := Pipe) blocks.length ⟨macBytes blocks ++ rest, unflushed, outgoing⟩ =
      .ok blocks ⟨rest, unflushed, outgoing⟩ := by
  have hreceived : (onIo (ByteIo.recvData (blocks.length * 16)) : BaseM Pipe _)
      ⟨macBytes blocks ++ rest, unflushed, outgoing⟩ =
        .ok (macBytes blocks) ⟨rest, unflushed, outgoing⟩ := by
    simp only [onIo, Triples.zoom, ByteIo.recvData, id_eq, Nat.mul_comm blocks.length 16,
      ← macBytes_length, recvData_append]
  rw [recvBlock, bind_ok hreceived, macBytes_length, Nat.mul_div_cancel_left _ (by decide)]
  rw [blocksOfBytes_macBytes]
  rfl

/-- A block is received as it was sent. -/
theorem recvOneBlock_run (block : Block) (rest unflushed outgoing : List UInt8) :
    recvOneBlock (S := Pipe) ⟨macBytes [block] ++ rest, unflushed, outgoing⟩ =
      .ok block ⟨rest, unflushed, outgoing⟩ := by
  have hblocks : recvBlock (S := Pipe) 1 ⟨macBytes [block] ++ rest, unflushed, outgoing⟩ =
      .ok [block] ⟨rest, unflushed, outgoing⟩ := recvBlock_run [block] rest unflushed outgoing
  rw [recvOneBlock, bind_ok hblocks]
  rfl

/-- A point of the right length is sent. -/
theorem sendPoint_run {point : List UInt8} (h : point.length = pointBytes) (p : Pipe) :
    sendPoint point p = .ok () { p with unflushed := p.unflushed ++ pointMessage point } := by
  rw [sendPoint, if_neg (not_not.mpr h), pointMessage, ← List.append_assoc]
  rfl

/-- A point is received as it was sent. -/
theorem recvPoint_run {point : List UInt8} (h : point.length = pointBytes)
    (rest unflushed outgoing : List UInt8) :
    recvPoint (S := Pipe) ⟨pointMessage point ++ rest, unflushed, outgoing⟩ =
      .ok point ⟨rest, unflushed, outgoing⟩ := by
  have hreceived (data rest' : List UInt8) :
      (onIo (ByteIo.recvData data.length) : BaseM Pipe _) ⟨data ++ rest', unflushed, outgoing⟩ =
        .ok data ⟨rest', unflushed, outgoing⟩ := by
    simp only [onIo, Triples.zoom, ByteIo.recvData, id_eq, recvData_append]
  have hlen : leValue (leBytes 4 point.length) = pointBytes := by
    rw [h]
    rfl
  have hprefix := hreceived (leBytes 4 point.length) (point ++ rest)
  have hpoint := hreceived point rest
  rw [leBytes_length] at hprefix
  rw [h] at hpoint
  rw [recvPoint, pointMessage, List.append_assoc, bind_ok hprefix]
  simp only [hlen, ne_eq, not_true_eq_false, if_false]
  exact hpoint

/-- Points are received as they were sent. -/
theorem recvPoints_run (points : List (List UInt8))
    (h : ∀ point ∈ points, point.length = pointBytes) (rest unflushed outgoing : List UInt8) :
    ((List.range points.length).mapM fun _ => recvPoint (S := Pipe))
        ⟨points.flatMap pointMessage ++ rest, unflushed, outgoing⟩ =
      .ok points ⟨rest, unflushed, outgoing⟩ := by
  induction points with
  | nil => rfl
  | cons point points ih =>
    have hfirst := recvPoint_run (h point List.mem_cons_self) (points.flatMap pointMessage ++ rest)
      unflushed outgoing
    have hlater := ih fun later hlater => h later (List.mem_cons_of_mem _ hlater)
    rw [List.length_cons, List.range_succ_eq_map, List.mapM_cons, List.mapM_map, List.flatMap_cons,
      List.append_assoc, bind_ok hfirst]
    exact bind_ok hlater

/-- Points which can be computed and have the right length are sent. -/
theorem forM_sendPoint_run {E : Type} (entries : List E) (f : E → Outcome OtError (List UInt8))
    (point : E → List UInt8) (h : ∀ entry ∈ entries, f entry = .ok (point entry) ∧
      (point entry).length = pointBytes) (p : Pipe) :
    (entries.forM fun entry => (do
      let bPoint ← ofExcept (f entry)
      sendPoint bPoint : BaseM Pipe Unit)) p =
      .ok () { p with
        unflushed := p.unflushed ++ entries.flatMap fun entry => pointMessage (point entry) } := by
  induction entries generalizing p with
  | nil => simp [List.forM_nil, pure, EStateM.pure]
  | cons entry entries ih =>
    obtain ⟨hpoint, hlength⟩ := h entry List.mem_cons_self
    have hfirst : ((do
        let bPoint ← ofExcept (f entry)
        sendPoint bPoint) : BaseM Pipe Unit) p =
          .ok () { p with unflushed := p.unflushed ++ pointMessage (point entry) } := by
      rw [ofExcept_ok hpoint]
      exact sendPoint_run hlength p
    have hlater := ih (fun later hlater => h later (List.mem_cons_of_mem _ hlater))
      { p with unflushed := p.unflushed ++ pointMessage (point entry) }
    rw [List.append_assoc] at hlater
    exact (bind_ok hfirst).trans hlater

end Streams

end BaseOt

/-! ## The parties of a run -/

section Run

variable {G : Type} [AddCommGroup G]

/-- Points other than the identity have encodings of one length, which determine them. -/
structure P256.Encodes (curve : P256 G) : Prop where
  decodes : ∀ point ≠ 0, curve.fromBytes (curve.toBytes point) = .ok point
  length : ∀ point ≠ 0, (curve.toBytes point).length = pointBytes

/-- What the parties of a run pass and draw, and the point to which the receiver's seed is
hashed. -/
structure CswRun (G : Type) where
  data0 : List Block
  data1 : List Block
  choices : List Bool
  seed : Block
  r : ℕ
  alphas : ℕ → ℕ
  t : G

namespace P256

variable {curve : P256 G} {point : G}

/-- An encoded point fits a frame. -/
theorem Encodes.fits (h : curve.Encodes) (hpoint : point ≠ 0) :
    (curve.toBytes point).length < 2 ^ 32 := by
  rw [h.length point hpoint, pointBytes]
  decide

/-- An encoded point is multiplied. -/
theorem Encodes.pointMulBn_eq (h : curve.Encodes) (hpoint : point ≠ 0) (scalar : ℕ) :
    curve.pointMulBn (curve.toBytes point) scalar = .ok (curve.toBytes (scalar • point)) := by
  rw [pointMulBn, pointFromBytes, h.decodes point hpoint]
  rfl

/-- Encoded points are added. -/
theorem Encodes.pointAdd_eq (h : curve.Encodes) {other : G} (hpoint : point ≠ 0)
    (hother : other ≠ 0) :
    curve.pointAdd (curve.toBytes point) (curve.toBytes other) =
      .ok (curve.toBytes (point + other)) := by
  rw [pointAdd, pointFromBytes, pointFromBytes, h.decodes point hpoint, h.decodes other hother]
  rfl

/-- An encoded point is inverted. -/
theorem Encodes.pointInv_eq (h : curve.Encodes) (hpoint : point ≠ 0) :
    curve.pointInv (curve.toBytes point) = .ok (curve.toBytes (-point)) := by
  rw [pointInv, pointFromBytes, h.decodes point hpoint]
  rfl

end P256

namespace CswRun

open BaseOt

variable (curve : P256 G) (sha256 : List UInt8 → Value32) (R : CswRun G)

/-- The choice at a position. -/
def choice (i : ℕ) : Bool := R.choices.getD i false

/-- The sender's point. -/
def z : G := R.r • curve.generator

/-- The point in which a choice is hidden. -/
def bPoint (i : ℕ) : G := R.alphas i • curve.generator + if R.choice i then R.t else 0

/-- The points which give the two pads. -/
def rho (choice : Bool) (i : ℕ) : G :=
  if choice then R.r • R.bPoint curve i + -(R.r • R.t) else R.r • R.bPoint curve i

/-- No point which arises in the run is the identity. -/
structure NoIdentity : Prop where
  t : R.t ≠ 0
  tR : R.r • R.t ≠ 0
  z : R.z curve ≠ 0
  alpha : ∀ i < R.choices.length, R.alphas i • curve.generator ≠ 0
  bPoint : ∀ i < R.choices.length, R.bPoint curve i ≠ 0
  rho : ∀ choice, ∀ i < R.choices.length, R.rho curve choice i ≠ 0

/-- The messages and the choices are equally many, at least eighty, and the seed is hashed to the
common point. -/
structure Valid : Prop where
  encodes : curve.Encodes
  data : R.data0.length = R.data1.length
  choices : R.data0.length = R.choices.length
  least : 80 ≤ R.choices.length
  hashed : curve.hashFromBytes (curveOracle Block.zero R.seed).buf
    (curveOracle Block.zero R.seed).domain = some R.t
  noIdentity : R.NoIdentity curve

/-- The sender's run. -/
def sender (incoming : List UInt8) : EStateM.Result (Failure OtError) Pipe Unit :=
  cswSend curve sha256 R.r R.data0 R.data1 ⟨incoming, [], []⟩

/-- The receiver's run. -/
def receiver (incoming : List UInt8) : EStateM.Result (Failure OtError) Pipe (List Block) :=
  cswRecv curve sha256 R.seed R.alphas R.choices ⟨incoming, [], []⟩

/-- Each party receives what the other has flushed, and then what is sent later. -/
structure Delivered (restS restR : List UInt8) (s : EStateM.Result (Failure OtError) Pipe Unit)
    (r : EStateM.Result (Failure OtError) Pipe (List Block)) : Prop where
  sender : s = R.sender curve sha256 ((finalState r).outgoing ++ restS)
  receiver : r = R.receiver curve sha256 ((finalState s).outgoing ++ restR)

/-- The message of each choice. -/
def selected : List Block :=
  List.zipWith (fun choice data => if choice then data.2 else data.1) R.choices
    (R.data0.zip R.data1)

/-- Both parties complete, with nothing left to flush, and the receiver returns the chosen
messages. -/
def Delivers : Prop :=
  ∀ restS restR, (∃ s r, R.Delivered curve sha256 restS restR s r) ∧
    ∀ s r, R.Delivered curve sha256 restS restR s r →
      (∃ sent, s = .ok () ⟨restS, [], sent⟩) ∧ ∃ sent, r = .ok R.selected ⟨restR, [], sent⟩

/-! ## What is sent -/

/-- A pad of the sender. -/
def pad (choice : Bool) (i : ℕ) : Block :=
  padValue sha256 Block.zero i (curve.toBytes (R.rho curve choice i))

/-- The hash of a pad. -/
def short (choice : Bool) (i : ℕ) : Block :=
  shortValue sha256 Block.zero (R.pad curve sha256 choice i)

/-- The pads of a point. -/
def pads (i : ℕ) : SenderPads :=
  ⟨R.pad curve sha256 false i, R.pad curve sha256 true i, R.short curve sha256 false i⟩

/-- The responses of the receiver. -/
def responses : List Block := (List.range R.choices.length).map (R.short curve sha256 false)

/-- The answer of the receiver. -/
def otans : Block := aggregateValue sha256 Block.zero (R.responses curve sha256)

/-- The encoded points of the receiver. -/
def points : List (List UInt8) :=
  (List.range R.choices.length).map fun i => curve.toBytes (R.bPoint curve i)

/-- The challenges and the messages under their pads. -/
def masked : List (Block × Block × Block) :=
  (((List.range R.choices.length).map (R.pads curve sha256)).zip
      (R.data0.zip R.data1)).map fun entry =>
    (blockXor entry.1.h0 (shortValue sha256 Block.zero entry.1.pad1),
      blockXor entry.1.pad0 entry.2.1, blockXor entry.1.pad1 entry.2.2)

/-- What the receiver sends first. -/
def hello : List UInt8 := macBytes [R.seed] ++ (R.points curve).flatMap pointMessage

/-- What the sender sends. -/
def challenge : List UInt8 :=
  pointMessage (curve.toBytes (R.z curve)) ++ macBytes ((R.masked curve sha256).map (·.1)) ++
    macBytes [shortValue sha256 Block.zero (R.otans curve sha256)] ++
    macBytes ((R.masked curve sha256).map (·.2.1)) ++ macBytes ((R.masked curve sha256).map (·.2.2))

/-! ## The sender -/

variable {curve sha256 R}

/-- The pads are derived from the points. -/
theorem Valid.senderPads_eq (h : R.Valid curve) {i : ℕ} (hi : i < R.choices.length) :
    senderPads curve sha256 Block.zero R.r (curve.toBytes (-(R.r • R.t)))
      (curve.toBytes (R.bPoint curve i), i) = .ok (R.pads curve sha256 i) := by
  have hrho0 : R.r • R.bPoint curve i ≠ 0 := h.noIdentity.rho false i hi
  have hrho1 : R.r • R.bPoint curve i + -(R.r • R.t) ≠ 0 := h.noIdentity.rho true i hi
  have htR : -(R.r • R.t) ≠ 0 := neg_ne_zero.mpr h.noIdentity.tR
  simp only [senderPads, Rust.ok_bind, h.encodes.pointMulBn_eq (h.noIdentity.bPoint i hi),
    h.encodes.pointAdd_eq hrho0 htR, cswPadBlock_eq _ _ _ (h.encodes.fits hrho0),
    cswPadBlock_eq _ _ _ (h.encodes.fits hrho1), cswShortBlock_eq]
  rfl

/-- A challenge is derived from the pads. -/
theorem senderChallenge_eq (sid : Block) (entry : SenderPads × Block × Block) :
    senderChallenge sha256 sid entry = .ok
      (blockXor entry.1.h0 (shortValue sha256 sid entry.1.pad1), blockXor entry.1.pad0 entry.2.1,
        blockXor entry.1.pad1 entry.2.2) := by
  simp only [senderChallenge, Rust.ok_bind, cswShortBlock_eq]
  rfl

/-- The sender reads the receiver's first message and derives its pads. -/
theorem Valid.sender_eq (h : R.Valid curve) (tail : List UInt8) :
    R.sender curve sha256 (R.hello curve ++ tail) =
      cswSendPads (S := Pipe) sha256 (curve.toBytes (R.z curve))
        ((List.range R.choices.length).map (R.pads curve sha256)) R.data0 R.data1
          ⟨tail, [], []⟩ := by
  have hseed := recvOneBlock_run R.seed ((R.points curve).flatMap pointMessage ++ tail) [] []
  have hpoints := recvPoints_run (R.points curve) (by
    intro point hpoint
    obtain ⟨i, hi, rfl⟩ := List.mem_map.mp hpoint
    exact h.encodes.length _ (h.noIdentity.bPoint i (List.mem_range.mp hi))) tail [] []
  have hlength : (R.points curve).length = R.data0.length := by
    rw [points, List.length_map, List.length_range, h.choices]
  have hentries : (R.points curve).zipIdx =
      (List.range R.choices.length).map fun i => (curve.toBytes (R.bPoint curve i), i) := by
    apply List.ext_getElem <;> simp [points]
  have hpads : (R.points curve).zipIdx.mapM
      (senderPads curve sha256 Block.zero R.r (curve.toBytes (-(R.r • R.t)))) =
        .ok ((List.range R.choices.length).map (R.pads curve sha256)) := by
    rw [hentries, Rust.mapM_eq_map (g := fun entry => R.pads curve sha256 entry.2), List.map_map]
    · rfl
    · intro entry hentry
      obtain ⟨i, hi, rfl⟩ := List.mem_map.mp hentry
      exact h.senderPads_eq (List.mem_range.mp hi)
  have hleast : ¬R.data0.length < 80 := by
    rw [h.choices]
    exact not_lt.mpr h.least
  rw [hlength] at hpoints
  rw [sender, cswSend, hello, List.append_assoc, if_neg (not_not.mpr h.data), if_neg hleast]
  refine (bind_ok hseed).trans ((bind_ok hpoints).trans ?_)
  rw [ofExcept_ok (toCurve_eq _ h.hashed),
    ofExcept_ok (h.encodes.pointMulBn_eq h.noIdentity.t R.r),
    ofExcept_ok (h.encodes.pointInv_eq h.noIdentity.tR), ofExcept_ok hpads]
  rfl

/-- The sender sends its challenges, then waits for the answer. -/
theorem Valid.cswSendPads_eq (h : R.Valid curve) (hfits : R.choices.length < 2 ^ 28)
    (tail : List UInt8) :
    cswSendPads (S := Pipe) sha256 (curve.toBytes (R.z curve))
        ((List.range R.choices.length).map (R.pads curve sha256)) R.data0 R.data1 ⟨tail, [], []⟩ =
      cswSendFinish (R.otans curve sha256) ⟨tail, [], R.challenge curve sha256⟩ := by
  have hresponses : ((List.range R.choices.length).map (R.pads curve sha256)).map (·.h0) =
      R.responses curve sha256 := by
    rw [List.map_map]
    rfl
  have hcount : (R.responses curve sha256).length < 2 ^ 28 := by
    rwa [responses, List.length_map, List.length_range]
  have hmasked : (((List.range R.choices.length).map (R.pads curve sha256)).zip
      (R.data0.zip R.data1)).mapM (senderChallenge sha256 Block.zero) =
        .ok (R.masked curve sha256) :=
    Rust.mapM_eq_map fun entry _ => senderChallenge_eq Block.zero entry
  have hz := sendPoint_run (h.encodes.length _ h.noIdentity.z)
  rw [cswSendPads, hresponses, ofExcept_ok (aggregate_eq sha256 Block.zero hcount),
    ofExcept_ok (cswShortBlock_eq sha256 Block.zero _), ofExcept_ok hmasked]
  refine (bind_ok (hz _)).trans ?_
  rfl

/-- Too many challenges do not fit a frame. -/
theorem cswSendPads_panic (hfits : 2 ^ 28 ≤ R.choices.length) (z tail : List UInt8) :
    cswSendPads (S := Pipe) sha256 z ((List.range R.choices.length).map (R.pads curve sha256))
      R.data0 R.data1 ⟨tail, [], []⟩ = .error .panic ⟨tail, [], []⟩ := by
  have hcount :
      2 ^ 28 ≤ (((List.range R.choices.length).map (R.pads curve sha256)).map (·.h0)).length := by
    rwa [List.length_map, List.length_map, List.length_range]
  rw [cswSendPads, aggregate_panic sha256 Block.zero hcount]
  rfl

/-- The sender accepts the answer. -/
theorem cswSendFinish_eq (otans : Block) (rest outgoing : List UInt8) :
    cswSendFinish (S := Pipe) otans ⟨macBytes [otans] ++ rest, [], outgoing⟩ =
      .ok () ⟨rest, [], outgoing⟩ := by
  rw [cswSendFinish, bind_ok (recvOneBlock_run otans rest [] outgoing)]
  simp only [ne_eq, not_true_eq_false, if_false]
  rfl

/-! ## The receiver -/

/-- The receiver's multiple of the sender's point gives the pad of the choice. -/
theorem alpha_smul_z (i : ℕ) : R.alphas i • R.z curve = R.rho curve (R.choice i) i := by
  have hcomm : R.alphas i • R.r • curve.generator = R.r • R.alphas i • curve.generator :=
    smul_comm _ _ _
  cases hchoice : R.choice i
  · simp only [rho, bPoint, z, hchoice, Bool.false_eq_true, if_false, add_zero]
    exact hcomm
  · simp only [rho, bPoint, z, hchoice, if_true, smul_add, add_neg_cancel_right]
    exact hcomm

/-- The point of a choice is computed. -/
theorem Valid.receiverPoint_eq (h : R.Valid curve) {i : ℕ} (hi : i < R.choices.length) :
    receiverPoint curve (curve.toBytes R.t) (R.choice i) (R.alphas i) =
      .ok (curve.toBytes (R.bPoint curve i)) := by
  cases hchoice : R.choice i
  · simp only [receiverPoint, bPoint, hchoice, Bool.false_eq_true, if_false, add_zero]
    rfl
  · simp only [receiverPoint, bPoint, hchoice, if_true]
    exact h.encodes.pointAdd_eq (h.noIdentity.alpha i hi) h.noIdentity.t

/-- The pad of a choice is derived. -/
theorem Valid.receiverPad_eq (h : R.Valid curve) {i : ℕ} (hi : i < R.choices.length) :
    receiverPad curve sha256 Block.zero (curve.toBytes (R.z curve)) (R.alphas i, i) =
      .ok (R.pad curve sha256 (R.choice i) i, R.short curve sha256 (R.choice i) i) := by
  have hrho := h.noIdentity.rho (R.choice i) i hi
  simp only [receiverPad, Rust.ok_bind, h.encodes.pointMulBn_eq h.noIdentity.z, alpha_smul_z,
    cswPadBlock_eq _ _ _ (h.encodes.fits hrho), cswShortBlock_eq]
  rfl

/-- The receiver sends its seed and its points, then waits for the sender. -/
theorem Valid.receiver_eq (h : R.Valid curve) (incoming : List UInt8) :
    R.receiver curve sha256 incoming =
      cswRecvFinish curve sha256 Block.zero R.alphas R.choices ⟨incoming, [], R.hello curve⟩ := by
  have hentries : R.choices.zipIdx =
      (List.range R.choices.length).map fun i => (R.choice i, i) := by
    apply List.ext_getElem
    · simp
    · intro i hi _
      rw [List.length_zipIdx] at hi
      simp [choice, hi]
  have hpoints := forM_sendPoint_run R.choices.zipIdx
    (fun entry => receiverPoint curve (curve.toBytes R.t) entry.1 (R.alphas entry.2))
    (fun entry => curve.toBytes (R.bPoint curve entry.2)) (by
      intro entry hentry
      rw [hentries] at hentry
      obtain ⟨i, hi, rfl⟩ := List.mem_map.mp hentry
      have hlt := List.mem_range.mp hi
      exact ⟨h.receiverPoint_eq hlt, h.encodes.length _ (h.noIdentity.bPoint i hlt)⟩)
    ⟨incoming, macBytes [R.seed], []⟩
  have hseed : sendBlock (S := Pipe) [R.seed] ⟨incoming, [], []⟩ =
      .ok () ⟨incoming, macBytes [R.seed], []⟩ := rfl
  rw [receiver, cswRecv, if_neg (not_lt.mpr h.least)]
  refine (ofExcept_ok (toCurve_eq _ h.hashed)).trans
    ((bind_ok hseed).trans ((bind_ok hpoints).trans ?_))
  rw [hentries, List.flatMap_map, hello, points, List.flatMap_map]
  rfl

/-- A block added twice. -/
theorem blockXor_cancel (a b : Block) : blockXor a (blockXor a b) = b := by
  apply blockVec_injective
  rw [blockVec_xor, blockVec_xor, ← add_assoc, ZModModule.add_self, zero_add]

/-- A block added on both sides. -/
theorem blockXor_cancel_right (a b : Block) : blockXor a (blockXor b a) = b := by
  apply blockVec_injective
  rw [blockVec_xor, blockVec_xor, add_left_comm, ZModModule.add_self, add_zero]

/-- What the receiver derives from the sender's point. -/
def chosenPads (curve : P256 G) (sha256 : List UInt8 → Value32) (R : CswRun G) :
    List (Block × Block) :=
  (List.range R.choices.length).map fun i =>
    (R.pad curve sha256 (R.choice i) i, R.short curve sha256 (R.choice i) i)

/-- The pads of all choices are derived. -/
theorem Valid.chosenPads_eq (h : R.Valid curve) :
    (((List.range R.choices.length).map R.alphas).zipIdx).mapM
      (receiverPad curve sha256 Block.zero (curve.toBytes (R.z curve))) =
        .ok (R.chosenPads curve sha256) := by
  have hentries : ((List.range R.choices.length).map R.alphas).zipIdx =
      (List.range R.choices.length).map fun i => (R.alphas i, i) := by
    apply List.ext_getElem <;> simp
  rw [hentries, Rust.mapM_eq_map (g := fun entry =>
    (R.pad curve sha256 (R.choice entry.2) entry.2,
      R.short curve sha256 (R.choice entry.2) entry.2)),
    List.map_map]
  · rfl
  · intro entry hentry
    obtain ⟨i, hi, rfl⟩ := List.mem_map.mp hentry
    exact h.receiverPad_eq (List.mem_range.mp hi)

/-- There is one challenge for each choice. -/
theorem Valid.masked_length (h : R.Valid curve) :
    (R.masked curve sha256).length = R.choices.length := by
  rw [masked, List.length_map, List.length_zip, List.length_map, List.length_range, List.length_zip,
    ← h.data, h.choices, min_self, min_self]

/-- Every response is the hash of the first pad. -/
theorem Valid.responses_eq (h : R.Valid curve) :
    receiverResponses R.choices (R.chosenPads curve sha256) ((R.masked curve sha256).map (·.1)) =
      R.responses curve sha256 := by
  have hlength : (R.masked curve sha256).length = R.choices.length := h.masked_length
  apply List.ext_getElem
  · simp [receiverResponses, chosenPads, responses, hlength]
  · intro i hi hi'
    have hlt : i < R.choices.length := by simpa [responses] using hi'
    have hchoice : R.choice i = R.choices[i] := by simp [choice, hlt]
    simp only [receiverResponses, chosenPads, responses, masked, List.getElem_zipWith,
      List.getElem_zip, List.getElem_map, List.getElem_range, ← hchoice]
    cases R.choice i
    · rfl
    · exact blockXor_cancel_right _ _

/-- The chosen message is under the pad of the choice. -/
theorem Valid.output_eq (h : R.Valid curve) :
    receiverOutput R.choices (R.chosenPads curve sha256) ((R.masked curve sha256).map (·.2.1))
      ((R.masked curve sha256).map (·.2.2)) = R.selected := by
  have hlength : (R.masked curve sha256).length = R.choices.length := h.masked_length
  apply List.ext_getElem
  · simp [receiverOutput, chosenPads, selected, hlength, ← h.data, h.choices]
  · intro i hi hi'
    have hlt : i < R.choices.length := by
      simp only [selected, List.length_zipWith] at hi'
      omega
    have hchoice : R.choice i = R.choices[i] := by simp [choice, hlt]
    simp only [receiverOutput, chosenPads, selected, masked, List.getElem_zipWith,
      List.getElem_zip, List.getElem_map, List.getElem_range, ← hchoice]
    cases R.choice i <;> exact blockXor_cancel _ _

/-- The receiver accepts the proof, returns the chosen messages and sends the answer. -/
theorem Valid.cswRecvFinish_eq (h : R.Valid curve) (hfits : R.choices.length < 2 ^ 28)
    (rest : List UInt8) :
    cswRecvFinish (S := Pipe) curve sha256 Block.zero R.alphas R.choices
        ⟨R.challenge curve sha256 ++ rest, [], R.hello curve⟩ =
      .ok R.selected ⟨rest, [], R.hello curve ++ macBytes [R.otans curve sha256]⟩ := by
  have hcount : (R.responses curve sha256).length < 2 ^ 28 := by
    rwa [responses, List.length_map, List.length_range]
  have hz := recvPoint_run (h.encodes.length _ h.noIdentity.z)
  have hblocks (f : Block × Block × Block → Block) (rest : List UInt8) :
      BaseOt.recvBlock (S := Pipe) R.choices.length
        ⟨macBytes ((R.masked curve sha256).map f) ++ rest, [], R.hello curve⟩ =
          .ok ((R.masked curve sha256).map f) ⟨rest, [], R.hello curve⟩ := by
    have hrun := recvBlock_run ((R.masked curve sha256).map f) rest [] (R.hello curve)
    rwa [List.length_map, h.masked_length] at hrun
  rw [cswRecvFinish, challenge]
  simp only [List.append_assoc]
  refine (bind_ok (hz _ _ _)).trans ((ofExcept_ok h.chosenPads_eq).trans ?_)
  refine (bind_ok (hblocks _ _)).trans ((bind_ok (recvOneBlock_run _ _ _ _)).trans ?_)
  refine (bind_ok (hblocks _ _)).trans ((bind_ok (hblocks _ _)).trans ?_)
  rw [h.responses_eq, h.output_eq]
  refine (ofExcept_ok (aggregate_eq sha256 Block.zero hcount)).trans ?_
  refine (ofExcept_ok (cswShortBlock_eq sha256 Block.zero _)).trans ?_
  rw [otans]
  simp only [ne_eq, not_true_eq_false, if_false]
  rfl

/-! ## Streams in an unknown run -/

/-- Code which keeps a property of what was flushed. -/
def Keeps {A : Type} (P : List UInt8 → Prop) (prog : BaseM Pipe A) : Prop :=
  Triple (fun p => P p.outgoing) prog (fun _ p => P p.outgoing) fun p => P p.outgoing

section Keeps

variable {A B : Type} {P : List UInt8 → Prop}

/-- One part after another. -/
theorem Keeps.bind {prog : BaseM Pipe A} {next : A → BaseM Pipe B} (hfirst : Keeps P prog)
    (hnext : ∀ a, Keeps P (next a)) : Keeps P (prog >>= next) :=
  Triple.bind hfirst hnext

/-- What was flushed when the code returns or fails. -/
theorem Keeps.outgoing {prog : BaseM Pipe A} (h : Keeps P prog) {p : Pipe} (hp : P p.outgoing) :
    P (finalState (prog p)).outgoing :=
  Triple.of_finalState (q := fun p => P p.outgoing) h hp (fun _ _ hq => hq) fun _ hq => hq

/-- A result which may be an error. -/
theorem Keeps.ofExcept (result : Outcome OtError A) : Keeps P (ofExcept result : BaseM Pipe A) :=
  Triple.ofExcept (fun _ _ hp _ => hp) fun _ hp => hp

/-- A failed check. -/
theorem Keeps.check (p : Prop) [Decidable p] (error : OtError) {next : BaseM Pipe A}
    (hnext : Keeps P next) :
    Keeps P (if p then throw (.error error) >>= fun _ : PUnit => next else next) := by
  split
  · exact fun _ hp => hp
  · exact hnext

/-- A receive. -/
theorem Keeps.recvData (len : ℕ) : Keeps P (onIo (ByteIo.recvData len)) := by
  intro p hp
  simp only [onIo, Triples.zoom, ByteIo.recvData, id_eq]
  cases Shachain2pc.recvData len p.incoming <;> exact hp

/-- A send, which waits for a flush. -/
theorem Keeps.sendData (bytes : List UInt8) : Keeps P (onIo (ByteIo.sendData bytes)) :=
  fun _ hp => hp

/-- Received blocks. -/
theorem Keeps.recvBlock (count : ℕ) : Keeps P (BaseOt.recvBlock count) :=
  (Keeps.recvData _).bind fun _ _ hp => hp

/-- A received block. -/
theorem Keeps.recvOneBlock : Keeps P BaseOt.recvOneBlock :=
  (Keeps.recvBlock 1).bind fun _ => .ofExcept _

/-- A received point. -/
theorem Keeps.recvPoint : Keeps P BaseOt.recvPoint :=
  (Keeps.recvData 4).bind fun _ => .check _ _ (.recvData _)

end Keeps

/-- Whatever it receives, the receiver leaves its first message. -/
theorem cswRecvFinish_keeps (sent : List UInt8) (sid : Block) (alphas : ℕ → ℕ)
    (choices : List Bool) :
    Keeps (fun out => sent <+: out) (cswRecvFinish curve sha256 sid alphas choices) := by
  have hflush : Keeps (fun out => sent <+: out) (onIo ByteIo.flush) :=
    fun p hp => hp.trans (List.prefix_append p.outgoing p.unflushed)
  refine Keeps.recvPoint.bind fun z => (Keeps.ofExcept _).bind fun pads => ?_
  refine (Keeps.recvBlock _).bind fun chi => Keeps.recvOneBlock.bind fun proof => ?_
  refine (Keeps.recvBlock _).bind fun c0 => (Keeps.recvBlock _).bind fun c1 => ?_
  refine (Keeps.ofExcept _).bind fun otansPrime => (Keeps.ofExcept _).bind fun expected => ?_
  exact .check _ _ ((Keeps.sendData _).bind fun _ => hflush.bind fun _ _ hp => hp)

/-- Whatever it receives, the sender sends nothing after its challenges. -/
theorem cswSendFinish_keeps (sent : List UInt8) (otans : Block) :
    Keeps (fun out => out = sent) (cswSendFinish otans) :=
  Keeps.recvOneBlock.bind fun _ => by
    split
    · exact fun _ hp => hp
    · exact fun _ hp => hp

/-! ## Delivery -/

/-- In every run the receiver's first message arrives. -/
theorem Valid.receiver_outgoing (h : R.Valid curve) (incoming : List UInt8) :
    ∃ later, (finalState (R.receiver curve sha256 incoming)).outgoing = R.hello curve ++ later := by
  rw [h.receiver_eq]
  have hkeeps : Keeps (fun out => R.hello curve <+: out)
      (cswRecvFinish curve sha256 Block.zero R.alphas R.choices) :=
    cswRecvFinish_keeps (R.hello curve) Block.zero R.alphas R.choices
  obtain ⟨later, hlater⟩ :=
    hkeeps.outgoing (p := ⟨incoming, [], R.hello curve⟩) (List.prefix_refl _)
  exact ⟨later, hlater.symm⟩

/-- In every run of a size which fits, the sender's challenges arrive. -/
theorem Valid.sender_outgoing (h : R.Valid curve) (hfits : R.choices.length < 2 ^ 28)
    (tail : List UInt8) :
    (finalState (R.sender curve sha256 (R.hello curve ++ tail))).outgoing =
      R.challenge curve sha256 := by
  rw [h.sender_eq, h.cswSendPads_eq hfits]
  exact (cswSendFinish_keeps (R.challenge curve sha256) _).outgoing rfl

/-- In a run of a size which does not fit, the sender panics. -/
theorem Valid.sender_panic (h : R.Valid curve) (hlarge : 2 ^ 28 ≤ R.choices.length)
    {restS restR : List UInt8} {s : EStateM.Result (Failure OtError) Pipe Unit}
    {r : EStateM.Result (Failure OtError) Pipe (List Block)}
    (hdelivered : R.Delivered curve sha256 restS restR s r) : ∃ p, s = .error .panic p := by
  obtain ⟨later, hlater⟩ : ∃ later, (finalState r).outgoing = R.hello curve ++ later := by
    rw [hdelivered.receiver]
    exact h.receiver_outgoing _
  rw [hdelivered.sender, hlater, List.append_assoc, h.sender_eq, cswSendPads_panic hlarge]
  exact ⟨_, rfl⟩

/-- Fewer than 2^28 honest base OTs deliver the chosen messages, with both checks passing. -/
theorem cswRun_delivers (h : R.Valid curve) (hfits : R.choices.length < 2 ^ 28) :
    R.Delivers curve sha256 := by
  intro restS restR
  have hreceiver : R.receiver curve sha256 (R.challenge curve sha256 ++ restR) =
      .ok R.selected ⟨restR, [], R.hello curve ++ macBytes [R.otans curve sha256]⟩ := by
    rw [h.receiver_eq, h.cswRecvFinish_eq hfits]
  have hsender : R.sender curve sha256 (R.hello curve ++ macBytes [R.otans curve sha256] ++ restS) =
      .ok () ⟨restS, [], R.challenge curve sha256⟩ := by
    rw [List.append_assoc, h.sender_eq, h.cswSendPads_eq hfits, cswSendFinish_eq]
  constructor
  · exact ⟨.ok () ⟨restS, [], R.challenge curve sha256⟩,
      .ok R.selected ⟨restR, [], R.hello curve ++ macBytes [R.otans curve sha256]⟩,
      hsender.symm, hreceiver.symm⟩
  · intro s r hdelivered
    obtain ⟨later, hlater⟩ : ∃ later, (finalState r).outgoing = R.hello curve ++ later := by
      rw [hdelivered.receiver]
      exact h.receiver_outgoing _
    have hchallenge : (finalState s).outgoing = R.challenge curve sha256 := by
      rw [hdelivered.sender, hlater, List.append_assoc]
      exact h.sender_outgoing hfits _
    have hr := hdelivered.receiver
    rw [hchallenge, hreceiver] at hr
    have hs := hdelivered.sender
    rw [hr] at hs
    exact ⟨⟨_, hs.trans hsender⟩, _, hr⟩

end CswRun

end Run

/-- A group of three points. -/
def sampleCurve : P256 (ZMod 3) where
  generator := 1
  toBytes point := UInt8.ofNat point.val :: List.replicate 64 0
  fromBytes bytes := match bytes with
    | [] => .error "no point"
    | byte :: _ => .ok byte.toNat
  hashFromBytes _ _ := some 2

/-- Zeros and ones in turn. -/
def sampleCswRun (n : ℕ) : CswRun (ZMod 3) where
  data0 := List.replicate n (Block.make 0 1)
  data1 := List.replicate n (Block.make 0 2)
  choices := (List.range n).map fun i => i % 2 == 1
  seed := Block.zero
  r := 1
  alphas i := if i % 2 = 1 then 2 else 1
  t := 2

/-- The size of a sample. -/
theorem sampleCswRun_length (n : ℕ) : (sampleCswRun n).choices.length = n := by
  simp [sampleCswRun]

/-- No point of the sample is the identity, whatever its size. -/
theorem sampleCswRun_valid {n : ℕ} (hn : 80 ≤ n) : (sampleCswRun n).Valid sampleCurve := by
  have hchoice {i : ℕ} (hi : i < (sampleCswRun n).choices.length) :
      (sampleCswRun n).choice i = (i % 2 == 1) := by
    have hlt : i < n := by rwa [sampleCswRun_length] at hi
    simp [CswRun.choice, sampleCswRun, hlt]
  have hbPoint {i : ℕ} (hi : i < (sampleCswRun n).choices.length) :
      (sampleCswRun n).bPoint sampleCurve i = 1 := by
    rw [CswRun.bPoint, hchoice hi]
    by_cases hodd : i % 2 = 1
    · simp only [sampleCswRun, hodd]
      decide
    · simp only [sampleCswRun, hodd, if_false, beq_iff_eq]
      decide
  refine ⟨⟨by decide, fun _ _ => rfl⟩, ?_, ?_, ?_, rfl, ?_⟩
  · simp [sampleCswRun]
  · simp [sampleCswRun]
  · simpa [sampleCswRun] using hn
  · have ht : (2 : ZMod 3) ≠ 0 := by decide
    have htR : (1 : ℕ) • (2 : ZMod 3) ≠ 0 := by decide
    have hz : (1 : ℕ) • (1 : ZMod 3) ≠ 0 := by decide
    have hrho : ∀ choice : Bool, (if choice then (1 : ℕ) • (1 : ZMod 3) + -((1 : ℕ) • 2) else
        (1 : ℕ) • 1) ≠ 0 := by decide
    refine ⟨ht, htR, hz, ?_, ?_, ?_⟩
    · intro i _
      by_cases hodd : i % 2 = 1
      · simp only [sampleCswRun, hodd, if_true]
        decide
      · simp only [sampleCswRun, hodd, if_false]
        decide
    · intro i hi
      rw [hbPoint hi]
      decide
    · intro choice i hi
      rw [CswRun.rho, hbPoint hi]
      exact hrho choice

/-- Eighty base OTs. -/
theorem cswRun_delivers_eighty : (sampleCswRun 80).Delivers sampleCurve Value32.ofList :=
  CswRun.cswRun_delivers (sampleCswRun_valid le_rfl) (by rw [sampleCswRun_length]; decide)

/-- The hash of the responses to 2^28 challenges panics. -/
theorem cswRun_oversized : (sampleCswRun (2 ^ 28)).Valid sampleCurve ∧
    ¬(sampleCswRun (2 ^ 28)).Delivers sampleCurve Value32.ofList := by
  have hvalid := sampleCswRun_valid (n := 2 ^ 28) (by norm_num)
  refine ⟨hvalid, fun hdelivers => ?_⟩
  obtain ⟨⟨s, r, hdelivered⟩, hall⟩ := hdelivers [] []
  obtain ⟨⟨sent, hok⟩, -⟩ := hall s r hdelivered
  obtain ⟨p, hpanic⟩ := hvalid.sender_panic (sampleCswRun_length _).ge hdelivered
  rw [hok] at hpanic
  cases hpanic

end Shachain2pc
