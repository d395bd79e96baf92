import Shachain2pc.Party.RevealBinding
import Shachain2pc.Compat.ByteIo

/-!
# Public openings

To open wires to both parties, Alice sends her share bits and the digest of her MACs, and
Bob checks them, opens the bits and sends the bits back. Bob's value is the true one unless
Alice's message fits his Delta, which it does for one Delta at most. Alice checks nothing:
she returns the bits which Bob sends.
-/

namespace Shachain2pc

/-- What a party sends and what it returns; it returns nothing while its stream holds fewer bytes
than it reads. -/
structure OpeningExchange (A : Type) where
  sent : List UInt8
  result : Option A

/-- The digest received as bytes. -/
def recvDigest (stream : List UInt8) : Option (Value32 × List UInt8) :=
  (recvData 32 stream).map fun received => (Value32.ofList received.1, received.2)

/-- The bytes a party sends to open wires. -/
def shareMessage (share : RevealNodeShare) : List UInt8 :=
  share.shareBits ++ share.macDigest.bytes.toList

/-- `Ag2pcRevealRecipient`: `Public` or a party. -/
inductive Ag2pcRevealRecipient where
  | publicly
  | party (role : Role)

section decode

variable (sha256 : List UInt8 → Value32) (party : Role) (delta : Block) (wires : Ag2pcSecureWires)

/-- `decode_to_party`. -/
def decodeToParty (role : Role) (incoming : List UInt8) :
    OpeningExchange (Except CompatError (List UInt8)) :=
  if party ≠ role then ⟨shareMessage (revealLocalShare sha256 wires.wireBundle), some (.ok [])⟩
  else
    ⟨[], (recvData wires.lambda.length incoming).bind fun share =>
      (recvDigest share.2).map fun digest =>
        revealRecipientBits sha256 wires.lambda wires.wireBundle share.1 digest.1 delta⟩

/-- The bits Alice returns from a public opening: those which Bob sends. -/
def recvBroadcast (len : ℕ) (incoming : List UInt8) : Option (List UInt8) :=
  (recvData len incoming).map fun received => received.1.map (· &&& 1)

/-- `decode`. -/
def decode (recipient : Ag2pcRevealRecipient) (incoming : List UInt8) :
    OpeningExchange (Except CompatError (List UInt8)) :=
  if wires.wireBundle.length ≠ wires.lambda.length then ⟨[], some (.error .badAg2pcInputShape)⟩
  else match recipient with
    | .party role => decodeToParty sha256 party delta wires role incoming
    | .publicly =>
      let opening := decodeToParty sha256 party delta wires .bob incoming
      match party, opening.result with
      | .bob, some (.ok bits) => ⟨opening.sent ++ bits, some (.ok bits)⟩
      | .bob, result => ⟨opening.sent, result⟩
      | .alice, some (.ok _) =>
        ⟨opening.sent, (recvBroadcast wires.lambda.length incoming).map .ok⟩
      | .alice, result => ⟨opening.sent, result⟩

/-- `reveal_node_fast_over_streams`. -/
def revealNodeFastOverStreams (incoming : List UInt8) :
    OpeningExchange (Except PartyError Value32) :=
  match party with
  | .alice =>
    match revealNodeLocalShare sha256 wires with
    | .error e => ⟨[], some (.error e)⟩
    | .ok share => ⟨shareMessage share, (recvBroadcast wires.lambda.length incoming).map fun bits =>
        (Value32.fromBitsMsb bits).mapError .parse⟩
  | .bob =>
    match (recvData wires.lambda.length incoming).bind fun share =>
        (recvDigest share.2).map fun digest =>
          revealNodeFromPeerShare sha256 wires delta share.1 digest.1 with
    | none => ⟨[], none⟩
    | some (.error e) => ⟨[], some (.error e)⟩
    | some (.ok opened) => ⟨opened.bits, some (.ok opened.value)⟩

end decode

/-- The MACs which a recipient with some Delta expects of a peer that claims some share bits. -/
def claimedMacs (peer : List AShareBundle) (shares : List UInt8) (delta : Block) : List Block :=
  List.zipWith (fun wire share =>
    if share &&& 1 = blockLsb wire.mac then wire.mac else blockXor wire.mac delta) peer shares

variable {sha256 : List UInt8 → Value32} {deltaA deltaB : Block} {alice bob : Ag2pcSecureWires}
  {incoming shares : List UInt8}

/-- The MACs a recipient hashes are determined by the peer's MACs, its claim and the Delta. -/
theorem SharedNode.hashedMacs_eq (h : SharedNode deltaB deltaA bob alice)
    (hshares : shares.length = bob.wireBundle.length) :
    hashedMacs deltaB bob.wireBundle shares = claimedMacs alice.wireBundle shares deltaB := by
  obtain ⟨hlength, -⟩ := verifyShareRelation_iff.mp h.relation
  refine List.ext_getElem (by simp [hashedMacs, claimedMacs, hlength]) fun i hi hi' => ?_
  have hbundle : i < alice.wireBundle.length := by
    rw [claimedMacs, List.length_zipWith] at hi'
    omega
  have hmac := h.hashedMac_eq hshares hbundle
  rw [List.getD_eq_getElem _ _ hi, List.getD_eq_getElem _ _ hbundle,
    List.getD_eq_getElem _ _ (by omega)] at hmac
  rw [hmac]
  simp only [claimedMacs, List.getElem_zipWith]

/-- A block is determined by its sum with another. -/
theorem blockXor_left_cancel {block delta delta' : Block}
    (h : blockXor block delta = blockXor block delta') :
    delta = delta' := by
  have hvec := congrArg blockVec h
  rw [blockVec_xor, blockVec_xor] at hvec
  exact blockVec_injective (add_left_cancel hvec)

/-- A claim with a wrong bit gives different MACs under different Deltas. -/
theorem claimedMacs_inj {peer : List AShareBundle} {delta delta' : Block}
    (heq : claimedMacs peer shares delta = claimedMacs peer shares delta')
    (hwrong : ∃ i < peer.length, i < shares.length ∧
      shares.getD i 0 &&& 1 ≠ blockLsb (peer.getD i default).mac) : delta = delta' := by
  obtain ⟨i, hi, hi', hwrong⟩ := hwrong
  rw [List.getD_eq_getElem _ _ hi', List.getD_eq_getElem _ _ hi] at hwrong
  have hget (d : Block) :
      (claimedMacs peer shares d).getD i Block.zero = blockXor peer[i].mac d := by
    have hlt : i < (claimedMacs peer shares d).length := by
      rw [claimedMacs, List.length_zipWith]
      omega
    rw [List.getD_eq_getElem _ _ hlt]
    simp only [claimedMacs, List.getElem_zipWith]
    exact if_neg hwrong
  have hblocks := congrArg (fun blocks => blocks.getD i Block.zero) heq
  simp only [hget] at hblocks
  exact blockXor_left_cancel hblocks

/-- Opened bits come from an accepted digest. -/
theorem revealRecipientBits_ok {lambda : List UInt8} {wireBundle : List AShareBundle}
    {digest : Value32} {delta : Block} {bits : List UInt8}
    (h : revealRecipientBits sha256 lambda wireBundle shares digest delta = .ok bits) :
    verifyPeerMacDigest sha256 wireBundle shares digest delta = .ok () ∧
      bits = List.zipWith (fun masked share => (masked ^^^ (share &&& 1)) &&& 1)
        (List.zipWith (fun wire bit => blockLsb wire.mac ^^^ bit) wireBundle lambda) shares := by
  rw [revealRecipientBits] at h
  split at h
  · cases h
  · cases hverify : verifyPeerMacDigest sha256 wireBundle shares digest delta with
    | error e =>
      rw [hverify] at h
      cases h
    | ok _ =>
      rw [hverify] at h
      exact ⟨rfl, (Except.ok.inj h).symm⟩

/-- A recipient opens the joint bits when the peer claims its true share bits. -/
theorem SharedNode.opened_of_true (h : SharedNode deltaB deltaA bob alice)
    (hshares : shares.length = alice.wireBundle.length)
    (htrue : ∀ i < alice.wireBundle.length,
      shares.getD i 0 &&& 1 = blockLsb (alice.wireBundle.getD i default).mac) :
    List.zipWith (fun masked share => (masked ^^^ (share &&& 1)) &&& 1)
      (List.zipWith (fun wire bit => blockLsb wire.mac ^^^ bit) bob.wireBundle bob.lambda) shares =
      jointBits bob alice := by
  obtain ⟨hlength, -⟩ := verifyShareRelation_iff.mp h.relation
  have hlambda := h.length
  refine List.ext_getElem (by simp [jointBits]; omega) fun i hi hi' => ?_
  have hlt : i < bob.lambda.length := by simpa [jointBits] using hi'
  have hbit := htrue i (by omega)
  rw [List.getD_eq_getElem _ _ (by omega)] at hbit
  simp only [jointBits, List.getElem_zipWith, List.getElem_map, List.getElem_range, hbit,
    List.getD_eq_getElem _ _ hlt, List.getD_eq_getElem _ _ (hlambda ▸ hlt)]
  rw [UInt8.xor_comm (blockLsb _) (bob.lambda[i])]

/-- The digest has no collision among the MACs which a claim gives under the Deltas. -/
def CollisionFree (sha256 : List UInt8 → Value32) (peer : List AShareBundle) (shares : List UInt8) :
    Prop :=
  ∀ delta delta', sha256 (macBytes (claimedMacs peer shares delta)) =
    sha256 (macBytes (claimedMacs peer shares delta')) →
      macBytes (claimedMacs peer shares delta) = macBytes (claimedMacs peer shares delta')

/-- A claim and a digest are accepted under one Delta at most, unless the claim is true. -/
theorem exists_guess (digest : Value32)
    (hcollision : CollisionFree sha256 alice.wireBundle shares) :
    ∃ guess, ∀ deltaA deltaB bob bits, SharedNode deltaB deltaA bob alice → deltaB ≠ guess →
      revealRecipientBits sha256 bob.lambda bob.wireBundle shares digest deltaB = .ok bits →
        bits = jointBits bob alice := by
  by_cases hguess : ∃ guess, digest = sha256 (macBytes (claimedMacs alice.wireBundle shares guess))
  · obtain ⟨guess, hguess⟩ := hguess
    refine ⟨guess, fun deltaA deltaB bob bits h hne hopen => ?_⟩
    obtain ⟨haccept, hbits⟩ := revealRecipientBits_ok hopen
    obtain ⟨hshares, hdigest⟩ := verifyPeerMacDigest_ok haccept
    obtain ⟨hlength, -⟩ := verifyShareRelation_iff.mp h.relation
    rw [h.hashedMacs_eq hshares, hguess] at hdigest
    have hmacs := (macBytes_inj (by simp [claimedMacs])).mp (hcollision _ _ hdigest)
    rw [hbits]
    refine h.opened_of_true (hshares.trans hlength) fun i hi => ?_
    by_contra hwrong
    exact hne (claimedMacs_inj hmacs ⟨i, hi, by omega, hwrong⟩).symm
  · refine ⟨Block.zero, fun deltaA deltaB bob bits h _ hopen => ?_⟩
    obtain ⟨haccept, -⟩ := revealRecipientBits_ok hopen
    obtain ⟨hshares, hdigest⟩ := verifyPeerMacDigest_ok haccept
    rw [h.hashedMacs_eq hshares] at hdigest
    exact absurd ⟨deltaB, hdigest⟩ hguess

/-- What a receive takes is the start of the stream. -/
theorem recvData_eq_some {len : ℕ} {received rest : List UInt8}
    (h : recvData len incoming = some (received, rest)) :
    received = incoming.take len ∧ rest = incoming.drop len := by
  unfold recvData at h
  split at h
  · cases h
    exact ⟨rfl, rfl⟩
  · cases h

/-- What Bob returns from a public opening, he opened with Alice's message. -/
theorem decode_bob {delta : Block} {wires : Ag2pcSecureWires} {bits : List UInt8}
    (h : (decode sha256 .bob delta wires .publicly incoming).result = some (.ok bits)) :
    revealRecipientBits sha256 wires.lambda wires.wireBundle (incoming.take wires.lambda.length)
      (Value32.ofList ((incoming.drop wires.lambda.length).take 32)) delta = .ok bits := by
  have hopening :
      (decodeToParty sha256 .bob delta wires .bob incoming).result = some (.ok bits) := by
    rw [decode] at h
    split at h
    · cases h
    · dsimp only at h
      split at h
      · next hresult => rw [hresult]; exact h
      · exact h
      · next hrole _ => cases hrole
      · next hrole _ => cases hrole
  rw [decodeToParty, if_neg (not_not.mpr rfl)] at hopening
  obtain ⟨⟨share, rest⟩, hshare, hopening⟩ := Option.bind_eq_some_iff.mp hopening
  obtain ⟨⟨digest, last⟩, hdigest, hopening⟩ := Option.map_eq_some_iff.mp hopening
  obtain ⟨⟨bytes, last'⟩, hbytes, heq⟩ := Option.map_eq_some_iff.mp hdigest
  obtain ⟨rfl, rfl⟩ := recvData_eq_some hshare
  obtain ⟨rfl, rfl⟩ := recvData_eq_some hbytes
  rw [(Prod.mk.inj heq).1]
  exact hopening

/-- A value opened from a share is made of opened bits. -/
theorem revealNodeFromPeerShare_ok {node : Ag2pcSecureWires} {delta : Block} {digest : Value32}
    {opened : RevealNodeOpen}
    (h : revealNodeFromPeerShare sha256 node delta shares digest = .ok opened) :
    revealRecipientBits sha256 node.lambda node.wireBundle shares digest delta = .ok opened.bits ∧
      Value32.fromBitsMsb opened.bits = .ok opened.value := by
  rw [revealNodeFromPeerShare] at h
  split at h
  · cases h
  · cases hbits : revealRecipientBits sha256 node.lambda node.wireBundle shares digest delta with
    | error e =>
      rw [hbits] at h
      cases h
    | ok bits =>
      rw [hbits] at h
      cases hvalue : Value32.fromBitsMsb bits with
      | error e =>
        simp only [Except.mapError, bind, Except.bind, hvalue] at h
        cases h
      | ok value =>
        simp only [Except.mapError, bind, Except.bind, hvalue, pure, Except.pure] at h
        cases h
        exact ⟨rfl, hvalue⟩

/-- What Bob returns from a fast opening, he opened with Alice's message. -/
theorem revealNodeFast_bob {delta : Block} {wires : Ag2pcSecureWires} {value : Value32}
    (h : (revealNodeFastOverStreams sha256 .bob delta wires incoming).result = some (.ok value)) :
    ∃ bits, revealRecipientBits sha256 wires.lambda wires.wireBundle
      (incoming.take wires.lambda.length)
      (Value32.ofList ((incoming.drop wires.lambda.length).take 32)) delta = .ok bits ∧
        Value32.fromBitsMsb bits = .ok value := by
  rw [revealNodeFastOverStreams] at h
  split at h
  · cases h
  · cases h
  · next opened hopened =>
    obtain ⟨⟨share, rest⟩, hshare, hopening⟩ := Option.bind_eq_some_iff.mp hopened
    obtain ⟨⟨digest, last⟩, hdigest, hopening⟩ := Option.map_eq_some_iff.mp hopening
    obtain ⟨⟨bytes, last'⟩, hbytes, heq⟩ := Option.map_eq_some_iff.mp hdigest
    obtain ⟨rfl, rfl⟩ := recvData_eq_some hshare
    obtain ⟨rfl, rfl⟩ := recvData_eq_some hbytes
    obtain ⟨hbits, hvalue⟩ := revealNodeFromPeerShare_ok hopening
    rw [← Except.ok.inj (Option.some.inj h), (Prod.mk.inj heq).1]
    exact ⟨_, hbits, hvalue⟩

/-- Alice returns the low bits of what Bob sends. -/
theorem recvBroadcast_eq (len : ℕ) (incoming : List UInt8) :
    recvBroadcast len incoming =
      if len ≤ incoming.length then some ((incoming.take len).map (· &&& 1)) else none := by
  rw [recvBroadcast, recvData]
  split <;> rfl

/-- Alice returns the bits Bob sends from a public opening. -/
theorem decode_alice {delta : Block} {wires : Ag2pcSecureWires}
    (hshape : wires.wireBundle.length = wires.lambda.length) :
    decode sha256 .alice delta wires .publicly incoming =
      ⟨shareMessage (revealLocalShare sha256 wires.wireBundle),
        (recvBroadcast wires.lambda.length incoming).map .ok⟩ := by
  rw [decode, if_neg (not_not.mpr hshape)]
  rfl

/-- Alice returns the value of the bits Bob sends from a fast opening. -/
theorem revealNodeFast_alice {delta : Block} {wires : Ag2pcSecureWires}
    (hshape : wires.wireBundle.length = wires.lambda.length) :
    revealNodeFastOverStreams sha256 .alice delta wires incoming =
      ⟨shareMessage (revealLocalShare sha256 wires.wireBundle),
        (recvBroadcast wires.lambda.length incoming).map fun bits =>
          (Value32.fromBitsMsb bits).mapError .parse⟩ := by
  rw [revealNodeFastOverStreams, revealNodeLocalShare, if_neg (not_not.mpr hshape)]

/-- With Alice's own message, Bob opens the joint bits and sends them. -/
theorem SharedNode.decode_honest (h : SharedNode deltaB deltaA bob alice) :
    decode sha256 .bob deltaB bob .publicly
        (shareMessage (revealLocalShare sha256 alice.wireBundle)) =
      ⟨jointBits bob alice, some (.ok (jointBits bob alice))⟩ := by
  have hlength :
      (revealLocalShare sha256 alice.wireBundle).shareBits.length = bob.lambda.length := by
    obtain ⟨hlength, -⟩ := verifyShareRelation_iff.mp h.relation
    rw [revealLocalShare, List.length_map, ← hlength, h.length]
  have hshare :
      recvData bob.lambda.length (shareMessage (revealLocalShare sha256 alice.wireBundle)) =
      some ((revealLocalShare sha256 alice.wireBundle).shareBits,
        (revealLocalShare sha256 alice.wireBundle).macDigest.bytes.toList) := by
    rw [shareMessage, ← hlength, recvData_append]
  have hdigest : recvDigest (revealLocalShare sha256 alice.wireBundle).macDigest.bytes.toList =
      some ((revealLocalShare sha256 alice.wireBundle).macDigest, []) := by
    have hreceived :=
      recvData_append (revealLocalShare sha256 alice.wireBundle).macDigest.bytes.toList []
    rw [List.append_nil, Vector.length_toList] at hreceived
    rw [recvDigest, hreceived, Option.map_some, Value32.ofList_toList]
  have hopening : decodeToParty sha256 .bob deltaB bob .bob
      (shareMessage (revealLocalShare sha256 alice.wireBundle)) =
        ⟨[], some (.ok (jointBits bob alice))⟩ := by
    rw [decodeToParty, if_neg (not_not.mpr rfl), hshare, Option.bind_some, hdigest, Option.map_some,
      h.recipientBits, h.openedBits_eq]
  rw [decode, if_neg (not_not.mpr h.length)]
  dsimp only
  rw [hopening]
  rfl

/-- A public opening never gives Bob a wrong value: whatever Alice knows and sends, it is accepted
with a wrong bit under one Delta of Bob's at most. Alice returns the low bits of what Bob sends,
which are the true ones when he follows the protocol. -/
theorem publicReveal_sound (sha256 : List UInt8 → Value32) (alice : Ag2pcSecureWires) :
    (∀ incoming : List UInt8,
      CollisionFree sha256 alice.wireBundle (incoming.take alice.lambda.length) →
      ∃ guess, ∀ deltaA deltaB bob, SharedNode deltaB deltaA bob alice → deltaB ≠ guess →
      (∀ bits, (decode sha256 .bob deltaB bob .publicly incoming).result = some (.ok bits) →
        bits = jointBits bob alice) ∧
      ∀ value, (revealNodeFastOverStreams sha256 .bob deltaB bob incoming).result =
        some (.ok value) →
        Value32.fromBitsMsb (jointBits bob alice) = .ok value) ∧
      ∀ deltaA deltaB bob, SharedNode deltaB deltaA bob alice →
        (∀ incoming, (decode sha256 .alice deltaA alice .publicly incoming).result =
            (if alice.lambda.length ≤ incoming.length then
              some (.ok ((incoming.take alice.lambda.length).map (· &&& 1))) else none) ∧
          (revealNodeFastOverStreams sha256 .alice deltaA alice incoming).result =
            (if alice.lambda.length ≤ incoming.length then
              some ((Value32.fromBitsMsb
                ((incoming.take alice.lambda.length).map (· &&& 1))).mapError
                .parse) else none)) ∧
        ∀ incoming, (decode sha256 .alice deltaA alice .publicly
          (decode sha256 .bob deltaB bob .publicly
            (decode sha256 .alice deltaA alice .publicly incoming).sent).sent).result =
              some (.ok (jointBits bob alice)) := by
  refine ⟨fun incoming hcollision => ?_,
    fun deltaA deltaB bob h => ⟨fun incoming => ⟨?_, ?_⟩, fun incoming => ?_⟩⟩
  · obtain ⟨guess, hguess⟩ := exists_guess
      (Value32.ofList ((incoming.drop alice.lambda.length).take 32)) hcollision
    refine ⟨guess, fun deltaA deltaB bob h hne => ⟨fun bits hdecode => ?_, fun value hfast => ?_⟩⟩
    · have hopen := decode_bob hdecode
      rw [h.lambda] at hopen
      exact hguess deltaA deltaB bob bits h hne (by rw [h.lambda]; exact hopen)
    · obtain ⟨bits, hopen, hvalue⟩ := revealNodeFast_bob hfast
      rw [h.lambda] at hopen
      rw [← hguess deltaA deltaB bob bits h hne (by rw [h.lambda]; exact hopen)]
      exact hvalue
  · rw [decode_alice h.symm.length, recvBroadcast_eq]
    split <;> rfl
  · rw [revealNodeFast_alice h.symm.length, recvBroadcast_eq]
    split <;> rfl
  · have hlength :
        (jointBits bob alice).length = alice.lambda.length := by simp [jointBits, h.lambda]
    have hsent : (decode sha256 .alice deltaA alice .publicly incoming).sent =
        shareMessage (revealLocalShare sha256 alice.wireBundle) := by
      rw [decode_alice h.symm.length]
    rw [hsent, h.decode_honest, decode_alice h.symm.length, recvBroadcast_eq, if_pos hlength.ge,
      ← hlength, List.take_length, Option.map_some]
    have hbits : (jointBits bob alice).map (· &&& 1) = jointBits bob alice := by
      refine (List.map_congr_left fun bit hbit => ?_).trans (List.map_id' _)
      obtain ⟨i, -, rfl⟩ := List.mem_map.mp hbit
      rw [UInt8.and_assoc, UInt8.and_self]
    rw [hbits]

/-- Two MACs fill the digest. -/
theorem collisionFree_two (shares : List UInt8) (hshares : 2 ≤ shares.length) :
    CollisionFree Value32.ofList twoWiresA.wireBundle shares := by
  intro delta delta' heq
  have hlength (d : Block) :
      (macBytes (claimedMacs twoWiresA.wireBundle shares d)).length = 32 := by
    rw [macBytes_length, claimedMacs, List.length_zipWith]
    change 16 * min 2 shares.length = 32
    omega
  have hkeep (bytes : List UInt8) (h : bytes.length = 32) :
      (Value32.ofList bytes).bytes.toList = bytes := by
    refine List.ext_getElem (by rw [Vector.length_toList, h]) fun i hi hi' => ?_
    simp [Value32.ofList, hi']
  rw [← hkeep _ (hlength delta), heq, hkeep _ (hlength delta')]

/-- Bob never opens wrong bits of two wires, unless his Delta is the one Alice guessed. -/
theorem publicReveal_sound_two :
    ∃ guess, ∀ deltaA deltaB bob, SharedNode deltaB deltaA bob twoWiresA → deltaB ≠ guess →
      ∀ bits, (decode Value32.ofList .bob deltaB bob .publicly (List.replicate 34 0)).result =
        some (.ok bits) → bits = jointBits bob twoWiresA := by
  obtain ⟨guess, hguess⟩ := (publicReveal_sound Value32.ofList twoWiresA).1 (List.replicate 34 0)
    (collisionFree_two _ (by decide))
  exact ⟨guess, fun deltaA deltaB bob h hne => (hguess deltaA deltaB bob h hne).1⟩

/-- Alice accepts wrong bits: the two wires carry `0` and `1`, and she returns the two ones which
Bob sends, without a digest to check them. -/
theorem decode_alice_wrong :
    SharedNode (Block.make 0 1) (Block.make 0 3) twoWiresB twoWiresA ∧
      jointBits twoWiresB twoWiresA = [0, 1] ∧
      (decode Value32.ofList .alice (Block.make 0 3) twoWiresA .publicly [1, 1]).result =
        some (.ok [1, 1]) :=
  ⟨twoWires_shared.symm, by decide +kernel, by rw [decode_alice rfl]; rfl⟩

end Shachain2pc
