import Shachain2pc.Compat.ByteIo
import Shachain2pc.Compat.JointWires

/-!
# Authenticating inputs

Each party passes the list of owners and, for each owner, a vector of bits; only the lengths of
the peer's vectors matter. The wires of all owners are drawn at once. A party opens the masks
of the wires by its share bits and the digest of its MACs, and sends its own input bits packed
in the order of the wires; the peer places them by the list of the wires it does not own.
Alice sends the label of each masked bit.
-/

namespace Shachain2pc

/-- `Ag2pcSecureWires::slice`. -/
def Ag2pcSecureWires.slice (wires : Ag2pcSecureWires) (start stop : ℕ) :
    Except CompatError Ag2pcSecureWires :=
  if stop < start ∨ wires.lambda.length < stop then
    .error (.badAuthenticatedSlice wires.lambda.length start stop)
  else .ok
    { lambda := (wires.lambda.drop start).take (stop - start)
      wireBundle := (wires.wireBundle.drop start).take (stop - start)
      label0 := (wires.label0.drop start).take (stop - start)
      evalLabel := (wires.evalLabel.drop start).take (stop - start) }

/-- The offsets of the owners' vectors and the number of wires, from the lengths of the vectors. -/
def inputOffsets : List ℕ → ℕ → Except CompatError (List ℕ × ℕ)
  | [], total => .ok ([], total)
  | len :: rest, total =>
    if total + len < 2 ^ 64 then
      (inputOffsets rest (total + len)).map fun result => (total :: result.1, result.2)
    else .error (.lengthOverflow "AG2PC process_inputs")

/-- The owner of each wire. -/
def ownerOfWire (owners : List Role) (bitsPerOwner : List (List UInt8)) : List Role :=
  (owners.zip bitsPerOwner).flatMap fun entry => entry.2.map fun _ => entry.1

/-- Write a vector of bits from an offset on. -/
def writeBits (offset : ℕ) (bits own : List UInt8) : List UInt8 :=
  bits.zipIdx.foldl (fun own entry => own.set (offset + entry.2) (entry.1 &&& 1)) own

/-- `own_x_bits`: the bits of the vectors which the party owns, at their wires. -/
def ownXBits (party : Role) (owners : List Role) (bitsPerOwner : List (List UInt8))
    (offsets : List ℕ) (total : ℕ) : List UInt8 :=
  (owners.zip (bitsPerOwner.zip offsets)).foldl
    (fun own entry => if entry.1 = party then writeBits entry.2.2 entry.2.1 own else own)
    (List.replicate total 0)

/-- `own_x_packed`. -/
def ownXPacked (party : Role) (ownerOfWire : List Role) (ownXBits : List UInt8) : List UInt8 :=
  (ownerOfWire.zipIdx.filter (·.1 = party)).map fun entry => ownXBits.getD entry.2 0

/-- `peer_idx_list`. -/
def peerIdxList (party : Role) (ownerOfWire : List Role) : List ℕ :=
  (ownerOfWire.zipIdx.filter (·.1 ≠ party)).map (·.2)

/-- The message of `ag2pc_send_input_open`. -/
def inputOpenMessage (shares : RevealNodeShare) (ownXPacked : List UInt8) : List UInt8 :=
  shares.shareBits ++ shares.macDigest.bytes.toList ++ ownXPacked

/-- `ag2pc_recv_input_open`, and what remains on the stream. -/
def recvInputOpen (total peerXLen : ℕ) (incoming : List UInt8) :
    Option ((List UInt8 × Value32 × List UInt8) × List UInt8) := do
  let (peerShare, rest) ← recvData total incoming
  let (digest, rest) ← recvData 32 rest
  let (peerX, rest) ← recvData peerXLen rest
  return ((peerShare, Value32.ofList digest, peerX), rest)

/-- `finalize_input_open`, with its errors as `map_input_open_error` maps them. -/
def finalizeInputOpen (sha256 : List UInt8 → Value32) (wireBundle : List AShareBundle)
    (ownXBits : List UInt8) (peerIndices : List ℕ) (peerShare : List UInt8) (peerDigest : Value32)
    (peerXBits : List UInt8) (delta : Block) : Except CompatError (List UInt8) :=
  let n := wireBundle.length
  if ownXBits.length ≠ n then .error .badAg2pcInputShape
  else if peerXBits.length ≠ peerIndices.length then .error .badAg2pcInputShape
  else if peerIndices.any fun idx => n ≤ idx then .error .badAg2pcInputShape
  else (verifyPeerMacDigest sha256 wireBundle peerShare peerDigest delta).map fun _ =>
    let masked := (List.range n).map fun i =>
      (blockLsb (wireBundle.getD i default).mac ^^^ (peerShare.getD i 0 &&& 1) ^^^
        (ownXBits.getD i 0 &&& 1)) &&& 1
    (peerIndices.zip peerXBits).foldl
      (fun lambda entry => lambda.modify entry.1 (· ^^^ (entry.2 &&& 1))) masked

/-- What a party sends, and what it returns with the rest of its stream; it returns nothing while
the stream holds fewer bytes than it reads. -/
structure InputExchange where
  sent : List UInt8
  result : Option (Except CompatError (List Ag2pcSecureWires × List UInt8))

/-- The slices of the owners. -/
def ownerSlices (wires : Ag2pcSecureWires) (lens offsets : List ℕ) :
    Except CompatError (List Ag2pcSecureWires) :=
  (lens.zip offsets).mapM fun entry => wires.slice entry.2 (entry.2 + entry.1)

/-- `process_inputs`. The triple pool gives shares for any number of wires, and Alice's generator
labels; Alice receives on the sibling stream and Bob on the main one. -/
def processInputs (sha256 : List UInt8 → Value32) (party : Role) (delta : Block)
    (owners : List Role) (bitsPerOwner : List (List UInt8)) (draw : ℕ → List AShareBundle)
    (randomBlock : ℕ → List Block) (incoming : List UInt8) : InputExchange :=
  let lens := bitsPerOwner.map (·.length)
  if owners.length ≠ bitsPerOwner.length then ⟨[], some (.error .badAg2pcInputShape)⟩
  else match inputOffsets lens 0 with
    | .error error => ⟨[], some (.error error)⟩
    | .ok (offsets, total) =>
      if total = 0 then ⟨[], some (.ok (List.replicate owners.length ⟨[], [], [], []⟩, incoming))⟩
      else
        let wireBundle := draw total
        let owner := ownerOfWire owners bitsPerOwner
        let own := ownXBits party owners bitsPerOwner offsets total
        let peerIndices := peerIdxList party owner
        let message :=
          inputOpenMessage (revealLocalShare sha256 wireBundle) (ownXPacked party owner own)
        match recvInputOpen total peerIndices.length incoming with
        | none => ⟨message, none⟩
        | some ((peerShare, peerDigest, peerX), rest) =>
          match finalizeInputOpen sha256 wireBundle own peerIndices peerShare peerDigest
            peerX delta with
          | .error error => ⟨message, some (.error error)⟩
          | .ok lambda =>
            match party with
            | .alice =>
              let label0 := randomBlock total
              let labels := List.zipWith
                (fun label0 lambda =>
                  blockXor label0 (blockAnd (selectBlock lambda) delta)) label0 lambda
              ⟨message ++ macBytes labels,
                some ((ownerSlices ⟨lambda, wireBundle, label0, []⟩ lens offsets).map (·, rest))⟩
            | .bob =>
              ⟨message, (recvBlock total rest).map fun received =>
                (ownerSlices ⟨lambda, wireBundle, [], received.1⟩ lens offsets).map (·, received.2)⟩

/-- The own bits of a party at its own wires, and zero at the others. -/
def partyBits (party : Role) (owners : List Role) (bitsPerOwner : List (List UInt8)) : List UInt8 :=
  (owners.zip bitsPerOwner).flatMap fun entry =>
    entry.2.map fun bit => if entry.1 = party then bit &&& 1 else 0

/-- The plain bits of the owners' wires: the bits which each owner passes. -/
def ownerBits (owners : List Role) (bitsA bitsB : List (List UInt8)) : List (List Bool) :=
  List.zipWith (fun owner bits => (if owner = .alice then bits.1 else bits.2).map fun bit =>
    bit &&& 1 != 0) owners (bitsA.zip bitsB)

/-- The masked bits which both parties open. -/
def openedLambda (plain : List Bool) (mine theirs : List AShareBundle) : List UInt8 :=
  List.zipWith (fun x pair => bitByte x ^^^ blockLsb pair.1.mac ^^^ blockLsb pair.2.mac) plain
    (mine.zip theirs)

/-- Updating every position of a segment, one after the other. -/
theorem foldl_modify_zipIdx {α β : Type} (f : α × ℕ → β → β) (xs : List α)
    (before ys after : List β) (hlength : ys.length = xs.length) :
    (xs.zipIdx before.length).foldl (fun acc entry => acc.modify entry.2 (f entry))
      (before ++ ys ++ after) =
    before ++ List.zipWith f (xs.zipIdx before.length) ys ++ after := by
  induction xs generalizing before ys with
  | nil =>
    rw [List.length_nil, List.length_eq_zero_iff] at hlength
    simp [hlength]
  | cons x xs ih =>
    cases ys with
    | nil => simp at hlength
    | cons y ys =>
      have hstep : (before ++ y :: ys ++ after).modify before.length (f (x, before.length)) =
          before ++ [f (x, before.length) y] ++ ys ++ after := by
        have hmodify := List.modifyTailIdx_add (List.modifyHead (f (x, before.length))) 0 before
          (y :: ys ++ after)
        simpa [List.modify] using hmodify
      have hrest := ih (before ++ [f (x, before.length) y]) ys (by simpa using hlength)
      rw [List.length_append, List.length_singleton] at hrest
      rw [List.zipIdx_cons, List.foldl_cons, hstep, hrest]
      simp

/-- The bits of a vector replace the zeros from its offset on. -/
theorem writeBits_append (offset : ℕ) (bits before after : List UInt8)
    (hoffset : offset = before.length) :
    writeBits offset bits (before ++ List.replicate bits.length 0 ++ after) =
      before ++ bits.map (· &&& 1) ++ after := by
  have hwrite (k : ℕ) (before : List UInt8) (hk : offset + k = before.length) :
      (bits.zipIdx k).foldl (fun own entry => own.set (offset + entry.2) (entry.1 &&& 1))
        (before ++ List.replicate bits.length 0 ++ after) = before ++
          bits.map (· &&& 1) ++ after := by
    clear hoffset
    induction bits generalizing k before with
    | nil => simp
    | cons bit bits ih =>
      have hrest := ih (k + 1) (before ++ [bit &&& 1]) (by simp [← hk, Nat.add_assoc])
      rw [List.zipIdx_cons, List.foldl_cons, List.length_cons, List.replicate_succ, hk,
        List.append_assoc, List.set_append_right _ _ le_rfl, Nat.sub_self]
      simpa using hrest
  exact hwrite 0 before hoffset

/-- The offsets after the first vector. -/
theorem offsets_cons {α : Type} (first : List α) (rest : List (List α)) (start : ℕ) :
    (List.range (first :: rest).length).map
        (fun k => start + ((first :: rest).take k).flatten.length) =
      start :: (List.range rest.length).map
        fun k => start + first.length + (rest.take k).flatten.length := by
  simp [List.range_succ_eq_map, Function.comp_def, Nat.add_assoc]

/-- The offsets are the lengths of what precedes. -/
theorem inputOffsets_eq (bits : List (List UInt8)) (start : ℕ)
    (hlt : start + bits.flatten.length < 2 ^ 64) :
    inputOffsets (bits.map (·.length)) start =
      .ok ((List.range bits.length).map fun k => start + (bits.take k).flatten.length,
        start + bits.flatten.length) := by
  induction bits generalizing start with
  | nil => rfl
  | cons first rest ih =>
    rw [List.flatten_cons, List.length_append] at hlt
    rw [List.map_cons, inputOffsets, if_pos (by omega), ih (start + first.length) (by omega),
      offsets_cons, List.flatten_cons, List.length_append, ← Nat.add_assoc]
    rfl

/-- The own bits of a party, written one vector after the other. -/
theorem ownXBits_eq (party : Role) (owners : List Role) (bits : List (List UInt8))
    (hlength : owners.length = bits.length) :
    ownXBits party owners bits ((List.range bits.length).map fun k => (bits.take k).flatten.length)
      bits.flatten.length = partyBits party owners bits := by
  have hwrite (start : ℕ) (before : List UInt8) (hstart : start = before.length) :
      (owners.zip (bits.zip ((List.range bits.length).map fun k =>
          start + (bits.take k).flatten.length))).foldl
        (fun own entry => if entry.1 = party then writeBits entry.2.2 entry.2.1 own else own)
        (before ++ List.replicate bits.flatten.length 0) = before ++
            partyBits party owners bits := by
    induction owners generalizing bits start before with
    | nil =>
      rw [List.length_nil, eq_comm, List.length_eq_zero_iff] at hlength
      simp [hlength, partyBits]
    | cons owner owners ih =>
      cases bits with
      | nil => simp at hlength
      | cons first rest =>
        have hrest := ih rest (by simpa using hlength) (start + first.length)
          (before ++ first.map fun bit => if owner = party then bit &&& 1 else 0)
          (by simp [hstart])
        have hfirst : (if owner = party then writeBits start first
              (before ++ List.replicate (first.length + rest.flatten.length) 0)
            else before ++ List.replicate (first.length + rest.flatten.length) 0) =
            before ++ (first.map fun bit => if owner = party then bit &&& 1 else 0) ++
              List.replicate rest.flatten.length 0 := by
          rw [← List.replicate_append_replicate, ← List.append_assoc]
          split
          · exact writeBits_append start first before _ hstart
          · simp
        rw [offsets_cons, List.zip_cons_cons, List.zip_cons_cons, List.foldl_cons,
          List.flatten_cons, List.length_append, hfirst, hrest]
        simp [partyBits]
  have hall := hwrite 0 [] rfl
  simp only [Nat.zero_add, List.nil_append] at hall
  exact hall

/-- There are two parties. -/
theorem ne_party_iff {party peer : Role} (hne : party ≠ peer) (owner : Role) :
    owner ≠ party ↔ owner = peer := by
  cases party <;> cases peer <;> cases owner <;> first | exact absurd rfl hne | decide

/-- The wires which a party does not own are the peer's. -/
theorem peerWires_eq {party peer : Role} (hne : party ≠ peer) (owner : List Role) :
    owner.zipIdx.filter (·.1 ≠ party) = owner.zipIdx.filter (·.1 = peer) :=
  List.filter_congr fun entry _ => decide_eq_decide.mpr (ne_party_iff hne entry.1)

/-- The peer packs one bit for each wire which is not the party's own. -/
theorem ownXPacked_length {party peer : Role} (hne : party ≠ peer) (owner : List Role)
    (own : List UInt8) : (ownXPacked peer owner own).length = (peerIdxList party owner).length := by
  rw [ownXPacked, peerIdxList, List.length_map, List.length_map, peerWires_eq hne]

/-- The peer's packed bits are added at the peer's wires. -/
theorem foldl_peerIdxList {party peer : Role} (hne : party ≠ peer) (owner : List Role)
    (own masked : List UInt8) (hlength : masked.length = owner.length) :
    ((peerIdxList party owner).zip (ownXPacked peer owner own)).foldl
      (fun lambda entry => lambda.modify entry.1 (· ^^^ (entry.2 &&& 1))) masked =
    List.zipWith
      (fun entry bit => if entry.1 = peer then bit ^^^ (own.getD entry.2 0 &&& 1) else bit)
      owner.zipIdx masked := by
  have hstep :
      (fun (lambda : List UInt8) (entry : Role × ℕ) => if decide (entry.1 = peer) = true then
        lambda.modify entry.2 (· ^^^ (own.getD entry.2 0 &&& 1)) else lambda) =
      fun lambda entry => lambda.modify entry.2 fun bit =>
        if entry.1 = peer then bit ^^^ (own.getD entry.2 0 &&& 1) else bit := by
    funext lambda entry
    by_cases hpeer : entry.1 = peer
    · simp [hpeer]
    · simp only [hpeer, decide_false, Bool.false_eq_true, if_false]
      exact (List.modify_id _ _).symm
  have hfold := foldl_modify_zipIdx
    (fun entry bit => if entry.1 = peer then bit ^^^ (own.getD entry.2 0 &&& 1) else bit)
    owner [] masked [] hlength
  rw [peerIdxList, peerWires_eq hne, ownXPacked, List.zip_map', List.foldl_map, List.foldl_filter]
  simp only [List.nil_append, List.append_nil, List.length_nil] at hfold
  rw [← hfold]
  exact congrArg (fun step => List.foldl step masked owner.zipIdx) hstep

/-- The low bit of a block is the byte of a plain bit. -/
theorem exists_blockLsb_eq (b : Block) : ∃ x, blockLsb b = bitByte x :=
  ⟨_, (bitByte_ne_zero (blockLsb_and_one b)).symm⟩

/-- The opened bit of a party's own wire. -/
theorem openedBit_own (x a b : Bool) :
    (bitByte a ^^^ (bitByte b &&& 1) ^^^ (bitByte x &&& 1)) &&& 1 =
      bitByte x ^^^ bitByte a ^^^ bitByte b := by
  decide +revert

/-- The opened bit of a wire of the peer. -/
theorem openedBit_peer (x a b : Bool) :
    ((bitByte a ^^^ (bitByte b &&& 1) ^^^ (0 &&& 1)) &&& 1) ^^^ (bitByte x &&& 1) =
      bitByte x ^^^ bitByte a ^^^ bitByte b := by
  decide +revert

/-- A party places its own bits and the peer's, and opens the masked bits. -/
theorem finalizeInputOpen_eq {sha256 : List UInt8 → Value32} {party peer : Role}
    (hne : party ≠ peer) {mine theirs : List AShareBundle} {delta : Block} {owner : List Role}
    {plain : List Bool} (hmine : mine.length = plain.length)
    (htheirs : theirs.length = plain.length) (howner : owner.length = plain.length)
    (hmac : ∀ w < plain.length, (theirs.getD w default).mac =
      expectedMac delta (mine.getD w default) (blockLsb (theirs.getD w default).mac)) :
    finalizeInputOpen sha256 mine
      (List.zipWith (fun owner x => if owner = party then bitByte x else 0) owner plain)
      (peerIdxList party owner) (revealLocalShare sha256 theirs).shareBits
      (revealLocalShare sha256 theirs).macDigest
      (ownXPacked peer owner
        (List.zipWith (fun owner x => if owner = peer then bitByte x else 0) owner plain)) delta =
    .ok (openedLambda plain mine theirs) := by
  have hexpected :
      List.zipWith (expectedMac delta) mine (theirs.map fun wire => blockLsb wire.mac) =
      theirs.map (·.mac) := by
    refine List.ext_getElem (by simp [hmine, htheirs]) fun w hw hw' => ?_
    rw [List.length_map, htheirs] at hw'
    have hwire := hmac w hw'
    rw [List.getD_eq_getElem _ _ (htheirs.symm ▸ hw'), List.getD_eq_getElem _ _ (hmine.symm ▸ hw')]
      at hwire
    simpa using hwire.symm
  have hverify : verifyPeerMacDigest sha256 mine (revealLocalShare sha256 theirs).shareBits
      (revealLocalShare sha256 theirs).macDigest delta = .ok () := by
    rw [verifyPeerMacDigest, if_neg (by simp [revealLocalShare, hmine, htheirs]),
      if_neg (by simp [revealLocalShare, hexpected])]
  have hindices : ((peerIdxList party owner).any fun idx => mine.length ≤ idx) = false := by
    rw [List.any_eq_false]
    intro idx hidx
    obtain ⟨entry, hentry, rfl⟩ := List.mem_map.mp hidx
    have hlt := List.snd_lt_of_mem_zipIdx (List.mem_filter.mp hentry).1
    simp only [decide_eq_true_eq]
    omega
  rw [finalizeInputOpen, if_neg (by simp [hmine, howner]),
    if_neg (not_not.mpr (ownXPacked_length hne owner _)),
    if_neg (by simp [hindices]), hverify]
  simp only [Except.map]
  rw [foldl_peerIdxList hne owner _ _ (by simp [hmine, howner])]
  refine congrArg Except.ok (List.ext_getElem (by simp [openedLambda, hmine, htheirs, howner])
    fun w hw hw' => ?_)
  have hlt : w < plain.length := by simpa [openedLambda, hmine, htheirs] using hw'
  simp only [openedLambda, List.getElem_zipWith, List.getElem_map, List.getElem_range,
    List.getElem_zipIdx, List.getElem_zip, Nat.zero_add, revealLocalShare]
  have hown (role : Role) :
      (List.zipWith (fun owner x => if owner = role then bitByte x else 0) owner plain).getD w 0 =
        if owner[w] = role then bitByte plain[w] else 0 := by
    rw [List.getD_eq_getElem _ _ (by simp [howner, hlt]), List.getElem_zipWith]
  have hshare : (theirs.map fun wire => blockLsb wire.mac).getD w 0 = blockLsb theirs[w].mac := by
    rw [List.getD_eq_getElem _ _ (by simp [htheirs, hlt]), List.getElem_map]
  rw [hown, hown, hshare, List.getD_eq_getElem _ _ (hmine.symm ▸ hlt)]
  obtain ⟨a, ha⟩ := exists_blockLsb_eq mine[w].mac
  obtain ⟨b, hb⟩ := exists_blockLsb_eq theirs[w].mac
  rw [ha, hb]
  by_cases hpeer : owner[w] = peer
  · rw [if_pos hpeer, if_pos hpeer, if_neg fun h => hne (h.symm.trans hpeer)]
    exact openedBit_peer plain[w] a b
  · have hparty : owner[w] = party := by
      by_contra hother
      exact hpeer ((ne_party_iff hne _).mp hother)
    rw [if_neg hpeer, if_pos hparty]
    exact openedBit_own plain[w] a b

end Shachain2pc
