import Shachain2pc.Types.Value32

/-!
# Opening an authenticated node

The bits of a node are masked by the XOR of one share bit of each party. A party's share
bit is the low bit of its MAC, and the MAC is the peer's key, offset by the peer's Delta
where the share bit is set. To open a node a party sends its share bits and a digest of
its MACs; the recipient recomputes the MACs from its own keys and Delta and compares the
digests.
-/

namespace Shachain2pc

/-- A 16-byte block of the authenticated shares. -/
abbrev Block := Vector UInt8 16

/-- `Block::xor`. -/
def blockXor (a b : Block) : Block := Vector.zipWith (· ^^^ ·) a b

/-- `Block::and`. -/
def blockAnd (a b : Block) : Block := Vector.zipWith (· &&& ·) a b

/-- `block_lsb`. -/
def blockLsb (b : Block) : UInt8 := b[0] &&& 1

/-- `select_block`. -/
def selectBlock (bit : UInt8) : Block :=
  if bit &&& 1 = 0 then Vector.replicate 16 0 else Vector.replicate 16 0xff

structure AShareBundle where
  mac : Block
  key : Block
  deriving DecidableEq, Repr

structure Ag2pcSecureWires where
  lambda : List UInt8
  wireBundle : List AShareBundle
  label0 : List Block
  evalLabel : List Block
  deriving DecidableEq, Repr

/-- The errors of the wire layer raised by the modelled code. -/
inductive CompatError where
  | badAg2pcInputShape
  | badAuthenticatedSlice (len start stop : ℕ)
  | feqMismatch
  | lengthOverflow (name : String)
  deriving DecidableEq, Repr

/-- The errors of the party crate raised by the modelled code. -/
inductive PartyError where
  | parse (error : ParseError)
  | compat (error : CompatError)
  deriving DecidableEq, Repr

/-- The text of an error. -/
def PartyError.message : PartyError → String
  | .parse error => error.message
  | .compat .badAg2pcInputShape => "AG2PC owner and input-bit vector lengths differ"
  | .compat (.badAuthenticatedSlice len start stop) =>
    s!"authenticated bit slice [{start}, {stop}) is out of range for length {len}"
  | .compat .feqMismatch => "AG2PC equality check mismatch"
  | .compat (.lengthOverflow name) => s!"{name} length overflow"

/-- `RevealNodeShare`, what a party sends to open a node. -/
structure RevealNodeShare where
  shareBits : List UInt8
  macDigest : Value32
  deriving DecidableEq, Repr

/-- `RevealNodeOpen`. -/
structure RevealNodeOpen where
  bits : List UInt8
  value : Value32
  deriving DecidableEq

/-- The bytes hashed from a list of MACs. -/
def macBytes (macs : List Block) : List UInt8 := macs.flatMap (·.toList)

/-- `reveal_local_share`. -/
def revealLocalShare (sha256 : List UInt8 → Value32) (wireBundle : List AShareBundle) :
    RevealNodeShare where
  shareBits := wireBundle.map fun wire => blockLsb wire.mac
  macDigest := sha256 (macBytes (wireBundle.map (·.mac)))

/-- The MAC the recipient expects for one share bit of the peer. -/
def expectedMac (delta : Block) (wire : AShareBundle) (share : UInt8) : Block :=
  blockXor wire.key (blockAnd (selectBlock share) delta)

/-- `verify_peer_mac_digest`. -/
def verifyPeerMacDigest (sha256 : List UInt8 → Value32) (wireBundle : List AShareBundle)
    (peerShare : List UInt8) (peerDigest : Value32) (delta : Block) : Except CompatError Unit :=
  if peerShare.length ≠ wireBundle.length then .error .badAg2pcInputShape
  else if sha256 (macBytes (List.zipWith (expectedMac delta) wireBundle peerShare)) ≠
    peerDigest then
    .error .feqMismatch
  else .ok ()

/-- `reveal_recipient_bits`, with its errors as the party crate maps them. -/
def revealRecipientBits (sha256 : List UInt8 → Value32) (lambda : List UInt8)
    (wireBundle : List AShareBundle) (peerShare : List UInt8) (peerDigest : Value32)
    (delta : Block) : Except CompatError (List UInt8) := do
  if lambda.length ≠ wireBundle.length then throw .badAg2pcInputShape
  verifyPeerMacDigest sha256 wireBundle peerShare peerDigest delta
  return List.zipWith (fun masked share => (masked ^^^ (share &&& 1)) &&& 1)
    (List.zipWith (fun wire bit => blockLsb wire.mac ^^^ bit) wireBundle lambda) peerShare

/-- `verify_share_relation`. -/
def verifyShareRelation (local_ : List AShareBundle) (localDelta : Block)
    (peer : List AShareBundle) (peerDelta : Block) : Bool :=
  local_.length == peer.length && (local_.zip peer).all fun pair =>
    pair.1.mac == expectedMac peerDelta pair.2 (blockLsb pair.1.mac) &&
      pair.2.mac == expectedMac localDelta pair.1 (blockLsb pair.2.mac)

/-- `reveal_node_local_share`. -/
def revealNodeLocalShare (sha256 : List UInt8 → Value32) (node : Ag2pcSecureWires) :
    Except PartyError RevealNodeShare :=
  if node.wireBundle.length ≠ node.lambda.length then .error (.compat .badAg2pcInputShape)
  else .ok (revealLocalShare sha256 node.wireBundle)

/-- `reveal_node_from_peer_share`. -/
def revealNodeFromPeerShare (sha256 : List UInt8 → Value32) (node : Ag2pcSecureWires)
    (delta : Block) (peerShareBits : List UInt8) (peerMacDigest : Value32) :
    Except PartyError RevealNodeOpen := do
  if node.wireBundle.length ≠ node.lambda.length then throw (.compat .badAg2pcInputShape)
  let bits ← (revealRecipientBits sha256 node.lambda node.wireBundle peerShareBits peerMacDigest
    delta).mapError .compat
  let value ← (Value32.fromBitsMsb bits).mapError .parse
  return ⟨bits, value⟩

/-- The two parties share wires: equal masked bits, and shares authenticated by each other's keys
under the two Deltas. -/
structure SharedNode (deltaA deltaB : Block) (a b : Ag2pcSecureWires) : Prop where
  lambda : a.lambda = b.lambda
  length : a.wireBundle.length = a.lambda.length
  relation : verifyShareRelation a.wireBundle deltaA b.wireBundle deltaB = true

/-- The two parties hold a node jointly: equal masked bits, and shares authenticated by each
other's keys under the two Deltas. -/
structure JointNode (deltaA deltaB : Block) (a b : Ag2pcSecureWires) : Prop where
  lambda : a.lambda = b.lambda
  size : a.lambda.length = valueBits
  length : a.wireBundle.length = a.lambda.length
  relation : verifyShareRelation a.wireBundle deltaA b.wireBundle deltaB = true

/-- The bits a party with the wires `a` opens when the peer sends its share of `b`. -/
def openedBits (a b : Ag2pcSecureWires) : List UInt8 :=
  List.zipWith (fun masked share => (masked ^^^ (share &&& 1)) &&& 1)
    (List.zipWith (fun wire bit => blockLsb wire.mac ^^^ bit) a.wireBundle a.lambda)
    (b.wireBundle.map fun wire => blockLsb wire.mac)

variable {sha256 : List UInt8 → Value32} {deltaA deltaB : Block} {a b : Ag2pcSecureWires}

/-- The share relation has equally many wires, and expects each MAC of either party. -/
theorem verifyShareRelation_iff {local_ peer : List AShareBundle} {localDelta peerDelta : Block} :
    verifyShareRelation local_ localDelta peer peerDelta = true ↔
      local_.length = peer.length ∧ ∀ i (hi : i < local_.length) (hi' : i < peer.length),
        local_[i].mac = expectedMac peerDelta peer[i] (blockLsb local_[i].mac) ∧
          peer[i].mac = expectedMac localDelta local_[i] (blockLsb peer[i].mac) := by
  simp only [verifyShareRelation, Bool.and_eq_true, beq_iff_eq, List.all_eq_true,
    List.forall_mem_iff_getElem, List.length_zip, List.getElem_zip, Nat.lt_min]
  exact and_congr_right fun _ =>
    ⟨fun h i hi hi' => h i ⟨hi, hi'⟩, fun h i hi => h i hi.1 hi.2⟩

/-- The parties of a joint node may be exchanged. -/
theorem JointNode.symm (h : JointNode deltaA deltaB a b) : JointNode deltaB deltaA b a := by
  obtain ⟨hlength, hmacs⟩ := verifyShareRelation_iff.mp h.relation
  exact ⟨h.lambda.symm, h.lambda ▸ h.size, by rw [← hlength, h.length, h.lambda],
    verifyShareRelation_iff.mpr ⟨hlength.symm, fun i hi hi' => (hmacs i hi' hi).symm⟩⟩

/-- A joint node is shared. -/
theorem JointNode.shared (h : JointNode deltaA deltaB a b) : SharedNode deltaA deltaB a b :=
  ⟨h.lambda, h.length, h.relation⟩

/-- The parties of a shared node may be exchanged. -/
theorem SharedNode.symm (h : SharedNode deltaA deltaB a b) : SharedNode deltaB deltaA b a := by
  obtain ⟨hlength, hmacs⟩ := verifyShareRelation_iff.mp h.relation
  exact ⟨h.lambda.symm, by rw [← hlength, h.length, h.lambda],
    verifyShareRelation_iff.mpr ⟨hlength.symm, fun i hi hi' => (hmacs i hi' hi).symm⟩⟩

/-- The MACs of the peer are those the recipient expects. -/
theorem SharedNode.expectedMacs (h : SharedNode deltaA deltaB a b) :
    List.zipWith (expectedMac deltaA) a.wireBundle
      (b.wireBundle.map fun wire => blockLsb wire.mac) =
      b.wireBundle.map (·.mac) := by
  obtain ⟨hlength, hmacs⟩ := verifyShareRelation_iff.mp h.relation
  refine List.ext_getElem (by simp [hlength]) fun i hi hi' => ?_
  rw [List.length_map] at hi'
  simpa using (hmacs i (hlength ▸ hi') hi').2.symm

/-- Both parties of a shared node open the same bits. -/
theorem SharedNode.openedBits_comm (h : SharedNode deltaA deltaB a b) :
    openedBits a b = openedBits b a := by
  obtain ⟨hlength, -⟩ := verifyShareRelation_iff.mp h.relation
  have hbits (x y z : UInt8) : (x ^^^ z ^^^ (y &&& 1)) &&& 1 = (y ^^^ z ^^^ (x &&& 1)) &&& 1 := by
    apply UInt8.toNat_inj.mp
    simp only [UInt8.toNat_and, UInt8.toNat_xor, Nat.and_xor_distrib_right, Nat.and_assoc,
      Nat.and_self]
    grind
  refine List.ext_getElem (by simp [openedBits, hlength, h.lambda]) fun i hi hi' => ?_
  simp only [openedBits, List.getElem_zipWith, List.getElem_map, h.lambda]
  exact hbits _ _ _

/-- All bits of a shared node are opened. -/
theorem SharedNode.openedBits_length (h : SharedNode deltaA deltaB a b) :
    (openedBits a b).length = a.lambda.length := by
  obtain ⟨hlength, -⟩ := verifyShareRelation_iff.mp h.relation
  simp [openedBits, ← hlength, h.length]

/-- A recipient accepts the peer's share of a shared node, and opens its bits. -/
theorem SharedNode.recipientBits (h : SharedNode deltaA deltaB a b) :
    revealRecipientBits sha256 a.lambda a.wireBundle
      (revealLocalShare sha256 b.wireBundle).shareBits
      (revealLocalShare sha256 b.wireBundle).macDigest deltaA = .ok (openedBits a b) := by
  obtain ⟨hlength, -⟩ := verifyShareRelation_iff.mp h.relation
  have hmac : verifyPeerMacDigest sha256 a.wireBundle
      (revealLocalShare sha256 b.wireBundle).shareBits
      (revealLocalShare sha256 b.wireBundle).macDigest deltaA = .ok () := by
    rw [verifyPeerMacDigest, if_neg (by simp [revealLocalShare, hlength]),
      if_neg (by simp [revealLocalShare, h.expectedMacs])]
  rw [revealRecipientBits, if_neg (by simp [h.length]), hmac]
  rfl

/-- Both parties of a joint node open the same bits. -/
theorem JointNode.openedBits_comm (h : JointNode deltaA deltaB a b) :
    openedBits a b = openedBits b a :=
  h.shared.openedBits_comm

/-- All bits of a joint node are opened. -/
theorem JointNode.openedBits_length (h : JointNode deltaA deltaB a b) :
    (openedBits a b).length = valueBits :=
  h.shared.openedBits_length.trans h.size

/-- A recipient opens a joint node with the peer's share. -/
theorem JointNode.opens_left (h : JointNode deltaA deltaB a b) {value : Value32}
    (hvalue : Value32.fromBitsMsb (openedBits a b) = .ok value) :
    revealNodeFromPeerShare sha256 a deltaA (revealLocalShare sha256 b.wireBundle).shareBits
      (revealLocalShare sha256 b.wireBundle).macDigest = .ok ⟨openedBits a b, value⟩ := by
  rw [revealNodeFromPeerShare, if_neg (by simp [h.length]), h.shared.recipientBits]
  simp [Except.mapError, hvalue, pure, Except.pure, bind, Except.bind]

/-- Both parties of a joint node open the same value with each other's shares. -/
theorem JointNode.opens (h : JointNode deltaA deltaB a b) : ∃ opened,
    revealNodeFromPeerShare sha256 a deltaA (revealLocalShare sha256 b.wireBundle).shareBits
      (revealLocalShare sha256 b.wireBundle).macDigest = .ok opened ∧
    revealNodeFromPeerShare sha256 b deltaB (revealLocalShare sha256 a.wireBundle).shareBits
      (revealLocalShare sha256 a.wireBundle).macDigest = .ok opened := by
  obtain ⟨value, hvalue⟩ : ∃ value, Value32.fromBitsMsb (openedBits a b) = .ok value :=
    ⟨_, if_pos h.openedBits_length⟩
  refine ⟨_, h.opens_left hvalue, ?_⟩
  rw [h.openedBits_comm] at hvalue ⊢
  exact h.symm.opens_left hvalue

end Shachain2pc
