import Shachain2pc.Compat.JointWires

/-!
# Opening is complete and binding

A recipient hashes the MACs it expects for the share bits the peer claims. For the peer's
true share bits these are the peer's MACs; for a wrong bit the expected MAC is off by the
recipient's Delta, which the peer does not know. So a digest of the expected MACs of wrong
bits is a digest of a string the peer cannot compute.
-/

namespace Shachain2pc

variable {sha256 : List UInt8 → Value32} {deltaA deltaB : Block} {a b : Ag2pcSecureWires}

/-- The bits which both parties open: the masked bits, less the share bits of both. -/
def jointBits (a b : Ag2pcSecureWires) : List UInt8 :=
  (List.range a.lambda.length).map fun i =>
    (a.lambda.getD i 0 ^^^ blockLsb (a.wireBundle.getD i default).mac ^^^
      blockLsb (b.wireBundle.getD i default).mac) &&& 1

/-- The MACs a recipient hashes for the share bits of the peer. -/
def hashedMacs (delta : Block) (wireBundle : List AShareBundle) (peerShare : List UInt8) :
    List Block :=
  List.zipWith (expectedMac delta) wireBundle peerShare

/-- A Delta whose lowest bit is set is not zero. -/
theorem blockVec_ne_zero {delta : Block} (hdelta : blockLsb delta = 1) : blockVec delta ≠ 0 := by
  intro hzero
  have hbit := congrArg (fun byte => bitAt byte 0) hdelta
  simp only [bitAt_blockLsb, hzero, map_zero, bitAt_one_zero] at hbit
  exact absurd hbit (by decide)

/-- Adding a Delta changes a block. -/
theorem blockXor_ne {delta : Block} (hdelta : blockLsb delta = 1) (block : Block) :
    blockXor block delta ≠ block := by
  intro heq
  have hvec := congrArg blockVec heq
  rw [blockVec_xor, add_eq_left] at hvec
  exact blockVec_ne_zero hdelta hvec

/-- The expected MAC is the peer's for its true share bit, and off by Delta for a wrong bit. -/
theorem expectedMac_eq {delta mac : Block} {wire : AShareBundle} (share : UInt8)
    (hmac : mac = expectedMac delta wire (blockLsb mac)) :
    expectedMac delta wire share = if share &&& 1 =
      blockLsb mac then mac else blockXor mac delta := by
  have hvec := congrArg blockVec hmac
  rw [expectedMac, blockVec_xor, blockVec_and_selectBlock, bitAt_blockLsb] at hvec
  have hbits : share &&& 1 = blockLsb mac ↔ bitAt share 0 = lsb (blockVec mac) := by
    rw [bit_eq_iff (by rw [UInt8.and_assoc, UInt8.and_self]) (blockLsb_and_one mac), bitAt_and,
      bitAt_one_zero, mul_one, bitAt_blockLsb]
  apply blockVec_injective
  rw [expectedMac, blockVec_xor, blockVec_and_selectBlock]
  split
  · next heq => rw [hbits.mp heq, ← hvec]
  · next hne =>
    rw [hbits] at hne
    have hflip : bitAt share 0 = lsb (blockVec mac) + 1 := by
      generalize bitAt share 0 = s at hne ⊢
      generalize lsb (blockVec mac) = t at hne ⊢
      revert s t
      decide
    rw [blockVec_xor, hflip, add_smul, one_smul, ← add_assoc, ← hvec]

/-- What a recipient expects of each wire of a shared node. -/
theorem SharedNode.hashedMac_eq (h : SharedNode deltaA deltaB a b) {shares : List UInt8}
    (hshares : shares.length = a.wireBundle.length) {i : ℕ} (hi : i < b.wireBundle.length) :
    (hashedMacs deltaA a.wireBundle shares).getD i Block.zero =
      if shares.getD i 0 &&& 1 = blockLsb (b.wireBundle.getD i default).mac then
        (b.wireBundle.getD i default).mac
      else blockXor (b.wireBundle.getD i default).mac deltaA := by
  obtain ⟨hlength, hmacs⟩ := verifyShareRelation_iff.mp h.relation
  have hi' : i < a.wireBundle.length := hlength ▸ hi
  have hlt : i < (hashedMacs deltaA a.wireBundle shares).length := by
    rw [hashedMacs, List.length_zipWith, hshares, Nat.min_self]
    exact hi'
  rw [List.getD_eq_getElem _ _ hlt, List.getD_eq_getElem _ _ (hshares ▸ hi'),
    List.getD_eq_getElem _ _ hi]
  simp only [hashedMacs, List.getElem_zipWith]
  exact expectedMac_eq _ (hmacs i hi' hi).2

/-- The opened bits are the joint bits. -/
theorem SharedNode.openedBits_eq (h : SharedNode deltaA deltaB a b) :
    openedBits a b = jointBits a b := by
  obtain ⟨hlength, -⟩ := verifyShareRelation_iff.mp h.relation
  refine List.ext_getElem (h.openedBits_length.trans (by simp [jointBits])) fun i hi hi' => ?_
  have hlambda : i < a.lambda.length := by simpa [jointBits] using hi'
  have hbundle : i < a.wireBundle.length := h.length ▸ hlambda
  simp only [openedBits, jointBits, List.getElem_zipWith, List.getElem_map, List.getElem_range,
    List.getD_eq_getElem _ _ hlambda, List.getD_eq_getElem _ _ hbundle,
    List.getD_eq_getElem _ _ (hlength ▸ hbundle), blockLsb_and_one]
  rw [UInt8.xor_comm (blockLsb _) (a.lambda[i])]

/-- An accepted digest is that of the MACs expected for the share bits. -/
theorem verifyPeerMacDigest_ok {wireBundle : List AShareBundle} {shares : List UInt8}
    {digest : Value32} {delta : Block}
    (h : verifyPeerMacDigest sha256 wireBundle shares digest delta = .ok ()) :
    shares.length = wireBundle.length ∧ digest =
      sha256 (macBytes (hashedMacs delta wireBundle shares)) := by
  unfold verifyPeerMacDigest at h
  split at h
  · cases h
  · next hlength =>
    split at h
    · cases h
    · next hdigest => exact ⟨not_not.mp hlength, (not_not.mp hdigest).symm⟩

/-- Shares of a wrong length are refused. -/
theorem verifyPeerMacDigest_length {wireBundle : List AShareBundle} {shares : List UInt8}
    (digest : Value32) (delta : Block) (h : shares.length ≠ wireBundle.length) :
    verifyPeerMacDigest sha256 wireBundle shares digest delta = .error .badAg2pcInputShape :=
  if_pos h

/-- The digest and the share bits which a recipient accepts bind the peer: the hashed MACs are the
peer's exactly at the wires with its true bits, and off by the recipient's Delta at the others. -/
def Binding (sha256 : List UInt8 → Value32) (delta : Block) (own peer : List AShareBundle) : Prop :=
  ∀ shares digest, verifyPeerMacDigest sha256 own shares digest delta = .ok () →
    digest = sha256 (macBytes (hashedMacs delta own shares)) ∧
      (hashedMacs delta own shares).length = peer.length ∧ ∀ i < peer.length,
        if shares.getD i 0 &&& 1 = blockLsb (peer.getD i default).mac then
          (hashedMacs delta own shares).getD i Block.zero = (peer.getD i default).mac
        else
          (hashedMacs delta own shares).getD i Block.zero =
            blockXor (peer.getD i default).mac delta ∧
            blockXor (peer.getD i default).mac delta ≠ (peer.getD i default).mac

/-- Shared nodes bind the peer. -/
theorem SharedNode.binding (h : SharedNode deltaA deltaB a b) (hdelta : blockLsb deltaA = 1) :
    Binding sha256 deltaA a.wireBundle b.wireBundle := by
  intro shares digest haccept
  obtain ⟨hshares, hdigest⟩ := verifyPeerMacDigest_ok haccept
  obtain ⟨hlength, -⟩ := verifyShareRelation_iff.mp h.relation
  refine ⟨hdigest, ?_, fun i hi => ?_⟩
  · rw [hashedMacs, List.length_zipWith, hshares, Nat.min_self, hlength]
  · have hmac := h.hashedMac_eq hshares hi
    split
    · next heq => rw [hmac, if_pos heq]
    · next hne => rw [hmac, if_neg hne]; exact ⟨rfl, blockXor_ne hdelta _⟩

/-- What a recipient of the true share returns: the joint bits, when they make a value. -/
theorem SharedNode.fromPeerShare_eq (h : SharedNode deltaA deltaB a b) :
    revealNodeFromPeerShare sha256 a deltaA (revealLocalShare sha256 b.wireBundle).shareBits
      (revealLocalShare sha256 b.wireBundle).macDigest =
        ((Value32.fromBitsMsb (jointBits a b)).mapError .parse).map fun value =>
          ⟨jointBits a b, value⟩ := by
  rw [revealNodeFromPeerShare, if_neg (by simp [h.length]), h.recipientBits, h.openedBits_eq]
  rfl

/-- The joint bits make a value exactly when there are 256. -/
theorem fromBitsMsb_jointBits (a b : Ag2pcSecureWires) :
    (a.lambda.length = valueBits → ∃ value, Value32.fromBitsMsb (jointBits a b) = .ok value) ∧
      (a.lambda.length ≠ valueBits →
        Value32.fromBitsMsb (jointBits a b) = .error (.badBitLength a.lambda.length)) := by
  have hlength : (jointBits a b).length = a.lambda.length := by simp [jointBits]
  constructor
  · intro hsize
    exact ⟨_, if_pos (hlength.trans hsize)⟩
  · intro hsize
    rw [Value32.fromBitsMsb, if_neg (hlength ▸ hsize), hlength]

/-- A node whose bundle does not fit its masked bits opens nothing. -/
theorem revealNode_badShape {node : Ag2pcSecureWires}
    (h : node.wireBundle.length ≠ node.lambda.length) (delta : Block) (shares : List UInt8)
    (digest : Value32) :
    revealNodeLocalShare sha256 node = .error (.compat .badAg2pcInputShape) ∧
      revealNodeFromPeerShare sha256 node delta shares digest =
        .error (.compat .badAg2pcInputShape) := by
  refine ⟨if_pos h, ?_⟩
  rw [revealNodeFromPeerShare, if_pos h]
  rfl

/-- A node is not opened with shares of a wrong length. -/
theorem revealNodeFromPeerShare_length {node : Ag2pcSecureWires} {shares : List UInt8}
    (h : shares.length ≠ node.wireBundle.length) (delta : Block) (digest : Value32) :
    revealNodeFromPeerShare sha256 node delta shares digest =
      .error (.compat .badAg2pcInputShape) := by
  rw [revealNodeFromPeerShare]
  split
  · rfl
  · next hshape =>
    rw [revealRecipientBits, if_neg fun hne => hshape (Ne.symm hne),
      verifyPeerMacDigest_length digest delta h]
    rfl

/-- Opening is complete and binding at every width. Each party accepts the share which the other
produces and opens the same bits, as a value exactly when there are 256; what a party accepts binds
the other, and wrong lengths are errors. -/
theorem revealNode_complete_binding (sha256 : List UInt8 → Value32)
    (h : SharedNode deltaA deltaB a b) (hdeltaA : blockLsb deltaA = 1)
    (hdeltaB : blockLsb deltaB = 1) :
    (∃ shareA shareB, revealNodeLocalShare sha256 a = .ok shareA ∧
      revealNodeLocalShare sha256 b = .ok shareB ∧
      revealRecipientBits sha256 a.lambda a.wireBundle shareB.shareBits shareB.macDigest deltaA =
        .ok (jointBits a b) ∧
      revealRecipientBits sha256 b.lambda b.wireBundle shareA.shareBits shareA.macDigest deltaB =
        .ok (jointBits a b) ∧
      (a.lambda.length = valueBits → ∃ value,
        revealNodeFromPeerShare sha256 a deltaA shareB.shareBits shareB.macDigest =
          .ok ⟨jointBits a b, value⟩ ∧
        revealNodeFromPeerShare sha256 b deltaB shareA.shareBits shareA.macDigest =
          .ok ⟨jointBits a b, value⟩) ∧
      (a.lambda.length ≠ valueBits →
        revealNodeFromPeerShare sha256 a deltaA shareB.shareBits shareB.macDigest =
          .error (.parse (.badBitLength a.lambda.length)) ∧
        revealNodeFromPeerShare sha256 b deltaB shareA.shareBits shareA.macDigest =
          .error (.parse (.badBitLength a.lambda.length)))) ∧
      Binding sha256 deltaA a.wireBundle b.wireBundle ∧
      Binding sha256 deltaB b.wireBundle a.wireBundle ∧
      ∀ node delta shares digest,
        (node.wireBundle.length ≠ node.lambda.length →
          revealNodeLocalShare sha256 node = .error (.compat .badAg2pcInputShape)) ∧
        (node.wireBundle.length ≠ node.lambda.length ∨ shares.length ≠ node.wireBundle.length →
          revealNodeFromPeerShare sha256 node delta shares digest =
            .error (.compat .badAg2pcInputShape)) := by
  have hcomm : jointBits b a = jointBits a b := by
    rw [← h.openedBits_eq, ← h.symm.openedBits_eq, h.openedBits_comm]
  have hbitsA := @SharedNode.recipientBits sha256 _ _ _ _ h
  have hbitsB := @SharedNode.recipientBits sha256 _ _ _ _ h.symm
  have hopenA := @SharedNode.fromPeerShare_eq sha256 _ _ _ _ h
  have hopenB := @SharedNode.fromPeerShare_eq sha256 _ _ _ _ h.symm
  obtain ⟨hvalue, hrefuse⟩ := fromBitsMsb_jointBits a b
  rw [h.openedBits_eq] at hbitsA
  rw [h.symm.openedBits_eq, hcomm] at hbitsB
  rw [hcomm] at hopenB
  refine ⟨⟨_, _, if_neg (not_not.mpr h.length), if_neg (not_not.mpr h.symm.length), hbitsA, hbitsB,
    fun hsize => ?_, fun hsize => ?_⟩, h.binding hdeltaA, h.symm.binding hdeltaB,
    fun node delta shares digest => ⟨fun hshape => ?_, fun hwrong => ?_⟩⟩
  · obtain ⟨value, hvalue⟩ := hvalue hsize
    rw [hopenA, hopenB, hvalue]
    exact ⟨value, rfl, rfl⟩
  · rw [hopenA, hopenB, hrefuse hsize]
    exact ⟨rfl, rfl⟩
  · exact (revealNode_badShape hshape delta shares digest).1
  · rcases hwrong with hshape | hlength
    · exact (revealNode_badShape hshape delta shares digest).2
    · exact revealNodeFromPeerShare_length hlength delta digest

/-- Two wires, each of which one party masks. -/
def twoWiresA : Ag2pcSecureWires := ⟨[1, 0], [⟨Block.make 0 1, Block.zero⟩, default], [], []⟩

/-- The peer's side of the two wires. -/
def twoWiresB : Ag2pcSecureWires := ⟨[1, 0], [default, ⟨Block.make 0 3, Block.zero⟩], [], []⟩

/-- The two parties share the two wires. -/
theorem twoWires_shared : SharedNode (Block.make 0 3) (Block.make 0 1) twoWiresA twoWiresB :=
  ⟨rfl, rfl, by decide +kernel⟩

/-- A party opens the two wires, and is bound. -/
theorem revealNode_complete_binding_two :
    revealRecipientBits Value32.ofList twoWiresA.lambda twoWiresA.wireBundle
        (revealLocalShare Value32.ofList twoWiresB.wireBundle).shareBits
        (revealLocalShare Value32.ofList twoWiresB.wireBundle).macDigest (Block.make 0 3) =
      .ok (jointBits twoWiresA twoWiresB) ∧
      Binding Value32.ofList (Block.make 0 3) twoWiresA.wireBundle twoWiresB.wireBundle := by
  obtain ⟨⟨shareA, shareB, -, hshareB, hbits, -⟩, hbinding, -⟩ :=
    revealNode_complete_binding Value32.ofList twoWires_shared (by decide +kernel)
      (by decide +kernel)
  cases hshareB
  exact ⟨hbits, hbinding⟩

/-- Shared wires of another width than 256 are not opened as a value: a party refuses the share that
its peer produces. -/
theorem revealNode_refused_two :
    SharedNode (Block.make 0 3) (Block.make 0 1) twoWiresA twoWiresB ∧
      blockLsb (Block.make 0 3) = 1 ∧ blockLsb (Block.make 0 1) = 1 ∧
      ∃ share, revealNodeLocalShare Value32.ofList twoWiresB = .ok share ∧
        revealNodeFromPeerShare Value32.ofList twoWiresA (Block.make 0 3) share.shareBits
          share.macDigest = .error (.parse (.badBitLength 2)) :=
  ⟨twoWires_shared, by decide +kernel, by decide +kernel, _, rfl, by
    rw [twoWires_shared.fromPeerShare_eq, (fromBitsMsb_jointBits _ _).2 (by decide)]
    rfl⟩

end Shachain2pc
