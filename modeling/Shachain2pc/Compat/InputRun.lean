import Shachain2pc.Compat.ProcessInputs

/-!
# An honest run of input authentication

The two parties pass equally many bits for each owner, and their triple pools give them
authenticated shares. Each receives what the other sends. Both open the bits of the owners
under the XOR of the two shares, and return one slice for each owner, in the owners' order.
-/

namespace Shachain2pc

/-- What the two parties of an honest run pass to `process_inputs`, and what their triple pools and
Alice's generator give. -/
structure InputRun where
  deltaA : Block
  deltaB : Block
  owners : List Role
  bitsA : List (List UInt8)
  bitsB : List (List UInt8)
  drawA : ℕ → List AShareBundle
  drawB : ℕ → List AShareBundle
  randomBlock : ℕ → List Block

namespace InputRun

variable (R : InputRun) (sha256 : List UInt8 → Value32)

/-- The number of wires of all owners. -/
def total : ℕ := R.bitsA.flatten.length

/-- The plain bits of each owner. -/
def plain : List (List Bool) := ownerBits R.owners R.bitsA R.bitsB

/-- Alice's run. -/
def alice (incoming : List UInt8) : InputExchange :=
  processInputs sha256 .alice R.deltaA R.owners R.bitsA R.drawA R.randomBlock incoming

/-- Bob's run; only Alice draws labels. -/
def bob (incoming : List UInt8) : InputExchange :=
  processInputs sha256 .bob R.deltaB R.owners R.bitsB R.drawB R.randomBlock incoming

/-- Each party receives what the other has sent, and then what is sent later. -/
structure Delivered (restA restB : List UInt8) (a b : InputExchange) : Prop where
  alice : a = R.alice sha256 (b.sent ++ restA)
  bob : b = R.bob sha256 (a.sent ++ restB)

/-- The vectors have equal lengths at the two parties, one for each owner, and the triple pools give
authenticated shares. -/
structure Valid : Prop where
  owners : R.owners.length = R.bitsA.length
  lens : R.bitsA.map (·.length) = R.bitsB.map (·.length)
  total : R.total < 2 ^ 64
  drawA : (R.drawA R.total).length = R.total
  drawB : (R.drawB R.total).length = R.total
  labels : (R.randomBlock R.total).length = R.total
  drawn : ∀ w < R.total, AuthenticatedPair R.deltaA R.deltaB ((R.drawA R.total).getD w default)
    ((R.drawB R.total).getD w default)

/-- The parties return one slice for each owner, with the bits of the owner; the slices are in
order. -/
structure Authenticated (wiresA wiresB : List Ag2pcSecureWires) : Prop where
  countA : wiresA.length = R.owners.length
  countB : wiresB.length = R.owners.length
  slices :
      ∀ (k : ℕ) plain, R.plain[k]? = some plain → ∃ a b, wiresA[k]? = some a ∧ wiresB[k]? = some b ∧
    ValidWires R.deltaA R.deltaB a b plain ∧ a.lambda = b.lambda
  orderA : wiresA.flatMap (·.wireBundle) = R.drawA R.total
  orderB : wiresB.flatMap (·.wireBundle) = R.drawB R.total
  labels : wiresA.flatMap (·.label0) = R.randomBlock R.total

/-- The owner of each wire, which the two parties agree on. -/
def owner : List Role := ownerOfWire R.owners R.bitsA

/-- What Alice sends before she opens the masked bits. -/
def messageA : List UInt8 :=
  inputOpenMessage (revealLocalShare sha256 (R.drawA R.total))
    (ownXPacked .alice R.owner (partyBits .alice R.owners R.bitsA))

/-- What Bob sends. -/
def messageB : List UInt8 :=
  inputOpenMessage (revealLocalShare sha256 (R.drawB R.total))
    (ownXPacked .bob R.owner (partyBits .bob R.owners R.bitsB))

/-- The masked bits of all wires. -/
def lambda : List UInt8 := openedLambda R.plain.flatten (R.drawA R.total) (R.drawB R.total)

/-- The labels which Alice sends. -/
def labels : List Block :=
  List.zipWith (fun label0 lambda => blockXor label0 (blockAnd (selectBlock lambda) R.deltaA))
    (R.randomBlock R.total) R.lambda

/-- Alice's wires of all owners. -/
def wiresA : Ag2pcSecureWires := ⟨R.lambda, R.drawA R.total, R.randomBlock R.total, []⟩

/-- Bob's wires of all owners. -/
def wiresB : Ag2pcSecureWires := ⟨R.lambda, R.drawB R.total, [], R.labels⟩

end InputRun

/-- Lists of equal lengths have equally many elements before any position. -/
theorem flatten_take_length {α β : Type} {xs : List (List α)} {ys : List (List β)}
    (h : xs.map (·.length) = ys.map (·.length)) (k : ℕ) :
    (xs.take k).flatten.length = (ys.take k).flatten.length := by
  rw [List.length_flatten, List.length_flatten, List.map_take, List.map_take, h]

/-- Lists of equal lengths have equally many elements. -/
theorem flatten_length {α β : Type} {xs : List (List α)} {ys : List (List β)}
    (h : xs.map (·.length) = ys.map (·.length)) : xs.flatten.length = ys.flatten.length := by
  rw [List.length_flatten, List.length_flatten, h]

/-- The owners of the wires depend on the lengths only. -/
theorem ownerOfWire_congr (owners : List Role) {bits bits' : List (List UInt8)}
    (h : bits.map (·.length) = bits'.map (·.length)) :
    ownerOfWire owners bits = ownerOfWire owners bits' := by
  have hlens (bits : List (List UInt8)) : ownerOfWire owners bits =
      (owners.zip (bits.map (·.length))).flatMap fun entry => List.replicate entry.2 entry.1 := by
    rw [ownerOfWire, List.zip_map_right, List.flatMap_map]
    simp
  rw [hlens, hlens, h]

/-- Each owner has as many plain bits as wires. -/
theorem ownerBits_lens {owners : List Role} {bitsA bitsB : List (List UInt8)}
    (howners : owners.length = bitsA.length)
    (hlens : bitsA.map (·.length) = bitsB.map (·.length)) :
    (ownerBits owners bitsA bitsB).map (·.length) = bitsA.map (·.length) := by
  induction owners generalizing bitsA bitsB with
  | nil =>
    rw [List.length_nil, eq_comm, List.length_eq_zero_iff] at howners
    simp [howners, ownerBits]
  | cons owner owners ih =>
    cases bitsA with
    | nil => simp at howners
    | cons a restA =>
      cases bitsB with
      | nil => simp at hlens
      | cons b restB =>
        obtain ⟨hfirst, hrest⟩ := List.cons.inj hlens
        have htail := ih (Nat.succ.inj howners) hrest
        have hsize : (if owner = .alice then a else b).length = a.length := by
          split
          · rfl
          · exact hfirst.symm
        simpa [ownerBits, hsize] using htail

/-- There are as many plain bits as wires. -/
theorem ownerOfWire_length {owners : List Role} {bits : List (List UInt8)}
    (howners : owners.length = bits.length) :
    (ownerOfWire owners bits).length = bits.flatten.length := by
  induction owners generalizing bits with
  | nil =>
    rw [List.length_nil, eq_comm, List.length_eq_zero_iff] at howners
    simp [howners, ownerOfWire]
  | cons owner owners ih =>
    cases bits with
    | nil => simp at howners
    | cons first rest =>
      have htail := ih (Nat.succ.inj howners)
      rw [ownerOfWire] at htail
      simp only [ownerOfWire, List.zip_cons_cons, List.flatMap_cons, List.length_append,
        List.length_map, List.flatten_cons, htail]

/-- The bits of a party at the wires of one owner. -/
theorem partyBits_first (party owner : Role) {a b : List UInt8} (hlength : a.length = b.length) :
    (if party = .alice then a else b).map (fun bit => if owner = party then bit &&& 1 else 0) =
      List.zipWith (fun owner x => if owner = party then bitByte x else 0) (a.map fun _ => owner)
        ((if owner = .alice then a else b).map fun bit => bit &&& 1 != 0) := by
  have hbit (bit : UInt8) : bitByte (bit &&& 1 != 0) = bit &&& 1 :=
    bitByte_ne_zero (by rw [UInt8.and_assoc, UInt8.and_self])
  have hsize (role : Role) : (if role = .alice then a else b).length = a.length := by
    split
    · rfl
    · exact hlength.symm
  refine List.ext_getElem (by simp [hsize]) fun i hi hi' => ?_
  rw [List.getElem_map, List.getElem_zipWith, List.getElem_map, List.getElem_map, hbit]
  by_cases howner : owner = party
  · simp only [howner]
  · rw [if_neg howner, if_neg howner]

/-- The bits of a party are the plain bits at its own wires. -/
theorem partyBits_eq {owners : List Role} {bitsA bitsB : List (List UInt8)} (party : Role)
    (howners : owners.length = bitsA.length)
    (hlens : bitsA.map (·.length) = bitsB.map (·.length)) :
    partyBits party owners (if party = .alice then bitsA else bitsB) =
      List.zipWith (fun owner x => if owner = party then bitByte x else 0)
        (ownerOfWire owners bitsA) (ownerBits owners bitsA bitsB).flatten := by
  induction owners generalizing bitsA bitsB with
  | nil => simp [partyBits, ownerOfWire]
  | cons owner owners ih =>
    cases bitsA with
    | nil => simp at howners
    | cons a restA =>
      cases bitsB with
      | nil => simp at hlens
      | cons b restB =>
        obtain ⟨hfirst, hrest⟩ := List.cons.inj hlens
        have htail := ih (Nat.succ.inj howners) hrest
        have hsplit : partyBits party (owner :: owners)
              (if party = .alice then a :: restA else b :: restB) =
            (if party = .alice then a else b).map
              (fun bit => if owner = party then bit &&& 1 else 0) ++
              partyBits party owners (if party = .alice then restA else restB) := by
          split <;> rfl
        have hsize : (a.map fun _ => owner).length =
            ((if owner = .alice then a else b).map fun bit => bit &&& 1 != 0).length := by
          split <;> simp [hfirst]
        rw [hsplit, htail, partyBits_first party owner hfirst]
        exact (List.zipWith_append hsize).symm

/-- The masked bits which the parties open are equal. -/
theorem openedLambda_comm (plain : List Bool) (mine theirs : List AShareBundle) :
    openedLambda plain mine theirs = openedLambda plain theirs mine := by
  refine List.ext_getElem (by simp [openedLambda, min_comm]) fun w hw hw' => ?_
  simp only [openedLambda, List.getElem_zipWith, List.getElem_zip]
  rw [UInt8.xor_assoc, UInt8.xor_comm (blockLsb _), ← UInt8.xor_assoc]

/-- A party receives what the peer sends to open inputs. -/
theorem recvInputOpen_append (shares : RevealNodeShare) (packed rest : List UInt8) :
    recvInputOpen shares.shareBits.length packed.length (inputOpenMessage shares packed ++ rest) =
      some ((shares.shareBits, shares.macDigest, packed), rest) := by
  have hdigest : recvData 32 (shares.macDigest.bytes.toList ++ (packed ++ rest)) =
      some (shares.macDigest.bytes.toList, packed ++ rest) := by
    have hreceived := recvData_append shares.macDigest.bytes.toList (packed ++ rest)
    rwa [Vector.length_toList] at hreceived
  rw [recvInputOpen, inputOpenMessage, List.append_assoc, List.append_assoc, recvData_append]
  simp [hdigest, recvData_append, Value32.ofList_toList]

namespace InputRun

variable {R : InputRun} {sha256 : List UInt8 → Value32}

/-- The plain bits have the owners' lengths. -/
theorem Valid.plain_lens (h : R.Valid) : R.plain.map (·.length) = R.bitsA.map (·.length) :=
  ownerBits_lens h.owners h.lens

/-- There is a plain bit for each wire. -/
theorem Valid.plain_length (h : R.Valid) : R.plain.flatten.length = R.total :=
  flatten_length h.plain_lens

/-- Each wire has an owner. -/
theorem Valid.owner_length (h : R.Valid) : R.owner.length = R.plain.flatten.length :=
  (ownerOfWire_length h.owners).trans h.plain_length.symm

/-- Alice's own bits. -/
theorem Valid.bitsA_eq (h : R.Valid) : partyBits .alice R.owners R.bitsA =
    List.zipWith (fun owner x => if owner = .alice then bitByte x else 0) R.owner R.plain.flatten :=
  partyBits_eq .alice h.owners h.lens

/-- Bob's own bits. -/
theorem Valid.bitsB_eq (h : R.Valid) : partyBits .bob R.owners R.bitsB =
    List.zipWith (fun owner x => if owner = .bob then bitByte x else 0) R.owner R.plain.flatten :=
  partyBits_eq .bob h.owners h.lens

/-- Alice opens the masked bits. -/
theorem Valid.opens_alice (h : R.Valid) :
    finalizeInputOpen sha256 (R.drawA R.total) (partyBits .alice R.owners R.bitsA)
      (peerIdxList .alice R.owner) (revealLocalShare sha256 (R.drawB R.total)).shareBits
      (revealLocalShare sha256 (R.drawB R.total)).macDigest
      (ownXPacked .bob R.owner (partyBits .bob R.owners R.bitsB)) R.deltaA = .ok R.lambda := by
  rw [h.bitsA_eq, h.bitsB_eq]
  exact finalizeInputOpen_eq (by decide) (h.drawA.trans h.plain_length.symm)
    (h.drawB.trans h.plain_length.symm) h.owner_length
    fun w hw => (h.drawn w (h.plain_length ▸ hw)).macBob

/-- Bob opens the same masked bits. -/
theorem Valid.opens_bob (h : R.Valid) :
    finalizeInputOpen sha256 (R.drawB R.total) (partyBits .bob R.owners R.bitsB)
      (peerIdxList .bob R.owner) (revealLocalShare sha256 (R.drawA R.total)).shareBits
      (revealLocalShare sha256 (R.drawA R.total)).macDigest
      (ownXPacked .alice R.owner (partyBits .alice R.owners R.bitsA)) R.deltaB = .ok R.lambda := by
  rw [h.bitsA_eq, h.bitsB_eq, lambda, openedLambda_comm]
  exact finalizeInputOpen_eq (by decide) (h.drawB.trans h.plain_length.symm)
    (h.drawA.trans h.plain_length.symm) h.owner_length
    fun w hw => (h.drawn w (h.plain_length ▸ hw)).macAlice

/-- There is a masked bit for each wire. -/
theorem Valid.lambda_length (h : R.Valid) : R.lambda.length = R.total := by
  simp [lambda, openedLambda, h.plain_length, h.drawA, h.drawB]

/-- There is a label for each wire. -/
theorem Valid.labels_length (h : R.Valid) : R.labels.length = R.total := by
  simp [InputRun.labels, h.lambda_length, h.labels]

/-- The wires of all owners satisfy the session invariant. -/
theorem Valid.wires (h : R.Valid) :
    ValidWires R.deltaA R.deltaB R.wiresA R.wiresB R.plain.flatten := by
  refine ⟨h.lambda_length.trans h.plain_length.symm, h.lambda_length.trans h.plain_length.symm,
    h.drawA.trans h.plain_length.symm, h.drawB.trans h.plain_length.symm,
    h.labels.trans h.plain_length.symm, h.labels_length.trans h.plain_length.symm, fun w hw => ?_⟩
  have hlt : w < R.total := h.plain_length ▸ hw
  have hlambda : R.lambda.getD w 0 = bitByte (R.plain.flatten.getD w false) ^^^
      blockLsb ((R.drawA R.total).getD w default).mac ^^^
      blockLsb ((R.drawB R.total).getD w default).mac := by
    rw [List.getD_eq_getElem _ _ (h.lambda_length.symm ▸ hlt), List.getD_eq_getElem _ _ hw,
      List.getD_eq_getElem _ _ (h.drawA.symm ▸ hlt), List.getD_eq_getElem _ _ (h.drawB.symm ▸ hlt)]
    simp only [lambda, openedLambda, List.getElem_zipWith, List.getElem_zip]
  refine ⟨h.drawn w hlt, hlambda, ?_⟩
  change R.labels.getD w Block.zero = blockXor ((R.randomBlock R.total).getD w Block.zero)
    (blockAnd (selectBlock (R.lambda.getD w 0)) R.deltaA)
  rw [List.getD_eq_getElem _ _ (h.labels_length.symm ▸ hlt),
    List.getD_eq_getElem _ _ (h.labels.symm ▸ hlt),
    List.getD_eq_getElem _ _ (h.lambda_length.symm ▸ hlt)]
  simp only [InputRun.labels, List.getElem_zipWith]

end InputRun

/-- Some consecutive wires. -/
def Ag2pcSecureWires.cut (wires : Ag2pcSecureWires) (start len : ℕ) : Ag2pcSecureWires where
  lambda := (wires.lambda.drop start).take len
  wireBundle := (wires.wireBundle.drop start).take len
  label0 := (wires.label0.drop start).take len
  evalLabel := (wires.evalLabel.drop start).take len

/-- Consecutive elements are elements. -/
theorem getD_take_drop {α : Type} (xs : List α) (start len w : ℕ) (d : α) (hw : w < len) :
    ((xs.drop start).take len).getD w d = xs.getD (start + w) d := by
  rw [List.getD_eq_getElem?_getD, List.getD_eq_getElem?_getD, List.getElem?_take_of_lt hw,
    List.getElem?_drop]

/-- Consecutive valid wires are valid. -/
theorem ValidWires.cut {deltaA deltaB : Block} {a b : Ag2pcSecureWires} {plain : List Bool}
    (h : ValidWires deltaA deltaB a b plain) {start len : ℕ} (hle : start + len ≤ plain.length) :
    ValidWires deltaA deltaB (a.cut start len) (b.cut start len) ((plain.drop start).take len) := by
  have hlength {α : Type} {xs : List α} (hxs : xs.length = plain.length) :
      ((xs.drop start).take len).length = ((plain.drop start).take len).length := by
    rw [List.length_take, List.length_take, List.length_drop, List.length_drop, hxs]
  refine ⟨hlength h.lambdaA, hlength h.lambdaB, hlength h.bundleA, hlength h.bundleB,
    hlength h.label0, hlength h.evalLabel, fun w hw => ?_⟩
  have hw' : w < len := by
    rw [List.length_take] at hw
    omega
  simp only [Ag2pcSecureWires.cut, getD_take_drop _ _ _ _ _ hw']
  exact h.wires (start + w) (by omega)

/-- The slices of the owners are cut from the wires. -/
theorem ownerSlices_eq {wires : Ag2pcSecureWires} {entries : List (ℕ × ℕ)}
    (h : ∀ entry ∈ entries, entry.2 + entry.1 ≤ wires.lambda.length) :
    entries.mapM (fun entry => wires.slice entry.2 (entry.2 + entry.1)) =
      (.ok (entries.map fun entry => wires.cut entry.2 entry.1) :
        Except CompatError (List Ag2pcSecureWires)) := by
  induction entries with
  | nil => rfl
  | cons entry entries ih =>
    have hslice : wires.slice entry.2 (entry.2 + entry.1) = .ok (wires.cut entry.2 entry.1) := by
      have hle := h entry List.mem_cons_self
      rw [Ag2pcSecureWires.slice, if_neg (by omega), Nat.add_sub_cancel_left]
      rfl
    have hrest := ih fun entry hentry => h entry (List.mem_cons_of_mem _ hentry)
    rw [List.mapM_cons, hslice, hrest]
    rfl

/-- The cuts of a list at the owners' offsets are its parts in order. -/
theorem flatMap_cut {α β : Type} (bits : List (List α)) (start : ℕ) (xs : List β) :
    ((bits.map (·.length)).zip ((List.range bits.length).map fun k =>
        start + (bits.take k).flatten.length)).flatMap
          (fun entry => (xs.drop entry.2).take entry.1) =
      (xs.drop start).take bits.flatten.length := by
  induction bits generalizing start with
  | nil => simp
  | cons first rest ih =>
    rw [offsets_cons, List.map_cons, List.zip_cons_cons, List.flatMap_cons, ih, List.flatten_cons,
      List.length_append, List.take_add, List.drop_drop]

/-- The elements of a list are found at its offset among all. -/
theorem take_drop_flatten {α : Type} (xs : List (List α)) {k : ℕ} {x : List α}
    (hk : xs[k]? = some x) :
    (xs.flatten.drop (xs.take k).flatten.length).take x.length = x := by
  have hdrop : xs.flatten.drop (xs.take k).flatten.length = (xs.drop k).flatten := by
    conv_lhs => rw [← List.take_append_drop k xs, List.flatten_append]
    simp
  obtain ⟨hlt, rfl⟩ := List.getElem?_eq_some_iff.mp hk
  rw [hdrop, List.drop_eq_getElem_cons hlt, List.flatten_cons, List.take_left]

/-- The elements of a list end before the end of all. -/
theorem take_flatten_le {α : Type} (xs : List (List α)) {k : ℕ} {x : List α}
    (hk : xs[k]? = some x) :
    (xs.take k).flatten.length + x.length ≤ xs.flatten.length := by
  obtain ⟨hlt, rfl⟩ := List.getElem?_eq_some_iff.mp hk
  conv_rhs => rw [← List.take_append_drop k xs, List.flatten_append, List.drop_eq_getElem_cons hlt]
  rw [List.length_append, List.flatten_cons, List.length_append]
  omega

namespace InputRun

variable (R : InputRun) (sha256 : List UInt8 → Value32)

/-- The first wire of each owner. -/
def offsets : List ℕ := (List.range R.bitsA.length).map fun k => (R.bitsA.take k).flatten.length

/-- The number of wires and the first wire of each owner. -/
def entries : List (ℕ × ℕ) := (R.bitsA.map (·.length)).zip R.offsets

/-- The wires of each owner, cut from the wires of all. -/
def cuts (wires : Ag2pcSecureWires) : List Ag2pcSecureWires :=
  R.entries.map fun entry => wires.cut entry.2 entry.1

variable {R sha256}

/-- The offsets of the vectors are those of the owners. -/
theorem Valid.inputOffsets_eq (h : R.Valid) :
    inputOffsets (R.bitsA.map (·.length)) 0 = .ok (R.offsets, R.total) := by
  have hoffsets := Shachain2pc.inputOffsets_eq R.bitsA 0 (by rw [Nat.zero_add]; exact h.total)
  simp only [Nat.zero_add] at hoffsets
  exact hoffsets

/-- The entry of an owner. -/
theorem Valid.getElem?_entries (h : R.Valid) {k : ℕ} {plain : List Bool}
    (hk : R.plain[k]? = some plain) :
    R.entries[k]? = some (plain.length, (R.plain.take k).flatten.length) := by
  have hlen : (R.bitsA.map (·.length))[k]? = some plain.length := by
    rw [← h.plain_lens, List.getElem?_map, hk, Option.map_some]
  have hlt : k < R.bitsA.length := by
    have hlt := (List.getElem?_eq_some_iff.mp hlen).1
    rwa [List.length_map] at hlt
  have hoffset : R.offsets[k]? = some (R.plain.take k).flatten.length := by
    rw [offsets, List.getElem?_map, List.getElem?_range hlt, Option.map_some,
      flatten_take_length h.plain_lens]
  exact List.getElem?_zip_eq_some.mpr ⟨hlen, hoffset⟩

/-- The owners' slices. -/
theorem Valid.ownerSlices_eq (h : R.Valid) {wires : Ag2pcSecureWires}
    (hwires : wires.lambda.length = R.total) :
    ownerSlices wires (R.bitsA.map (·.length)) R.offsets = .ok (R.cuts wires) := by
  refine Shachain2pc.ownerSlices_eq fun entry hentry => ?_
  obtain ⟨k, hk⟩ := List.mem_iff_getElem?.mp hentry
  have hlt : k < R.plain.length := by
    have hentries := (List.getElem?_eq_some_iff.mp hk).1
    have hcount := congrArg List.length h.plain_lens
    rw [List.length_map, List.length_map] at hcount
    rw [List.length_zip, List.length_map, ← hcount] at hentries
    exact hentries.trans_le (min_le_left _ _)
  have hplain := List.getElem?_eq_getElem hlt
  have hle := take_flatten_le R.plain hplain
  obtain rfl := Option.some.inj ((h.getElem?_entries hplain).symm.trans hk)
  rw [hwires, ← h.plain_length]
  exact hle

/-- The cuts of all wires are those of the owners. -/
theorem Valid.authenticated (h : R.Valid) :
    R.Authenticated (R.cuts R.wiresA) (R.cuts R.wiresB) := by
  have hcount : R.entries.length = R.owners.length := by
    simp [entries, offsets, h.owners]
  have hall {α : Type} {xs : List α} (hxs : xs.length = R.total) :
      R.entries.flatMap (fun entry => (xs.drop entry.2).take entry.1) = xs := by
    have hcut := flatMap_cut R.bitsA 0 xs
    simp only [Nat.zero_add, List.drop_zero] at hcut
    exact hcut.trans (List.take_of_length_le hxs.le)
  refine ⟨(List.length_map _).trans hcount, (List.length_map _).trans hcount, ?_, ?_, ?_, ?_⟩
  · intro k plain hk
    have hentry := h.getElem?_entries hk
    have hcut (wires : Ag2pcSecureWires) : (R.cuts wires)[k]? =
        some (wires.cut (R.plain.take k).flatten.length plain.length) := by
      rw [cuts, List.getElem?_map, hentry, Option.map_some]
    have hvalid := h.wires.cut (take_flatten_le R.plain hk)
    rw [take_drop_flatten R.plain hk] at hvalid
    exact ⟨_, _, hcut _, hcut _, hvalid, rfl⟩
  · rw [cuts, List.flatMap_map]
    exact hall h.drawA
  · rw [cuts, List.flatMap_map]
    exact hall h.drawB
  · rw [cuts, List.flatMap_map]
    exact hall h.labels

/-- Without wires, a party sends nothing and returns empty slices. -/
theorem Valid.empty (h : R.Valid) (hzero : R.total = 0) (incoming : List UInt8) :
    R.alice sha256 incoming =
        ⟨[], some (.ok (List.replicate R.owners.length ⟨[], [], [], []⟩, incoming))⟩ ∧
      R.bob sha256 incoming =
        ⟨[], some (.ok (List.replicate R.owners.length ⟨[], [], [], []⟩, incoming))⟩ := by
  have hlength := congrArg List.length h.lens
  rw [List.length_map, List.length_map] at hlength
  constructor
  · rw [alice, processInputs, if_neg (not_not.mpr h.owners), h.inputOffsets_eq]
    exact if_pos hzero
  · rw [bob, processInputs, if_neg (not_not.mpr (h.owners.trans hlength)), ← h.lens,
      h.inputOffsets_eq]
    exact if_pos hzero

/-- Without wires, every slice is empty. -/
theorem Valid.cuts_empty (h : R.Valid) (hzero : R.total = 0) (wires : Ag2pcSecureWires) :
    R.cuts wires = List.replicate R.owners.length ⟨[], [], [], []⟩ := by
  refine List.eq_replicate_iff.mpr
    ⟨by simp [cuts, entries, offsets, h.owners], fun slice hslice => ?_⟩
  obtain ⟨entry, hentry, rfl⟩ := List.mem_map.mp hslice
  obtain ⟨bits, hbits, hlen⟩ := List.mem_map.mp (List.of_mem_zip hentry).1
  have hle := (List.sublist_flatten_of_mem hbits).length_le
  have hnone : entry.1 = 0 := by
    rw [← hlen]
    exact Nat.le_zero.mp (hzero ▸ hle)
  simp [Ag2pcSecureWires.cut, hnone]

/-- Alice's own bits, as written from her vectors. -/
theorem Valid.ownXBits_alice (h : R.Valid) :
    ownXBits .alice R.owners R.bitsA R.offsets R.total = partyBits .alice R.owners R.bitsA :=
  ownXBits_eq .alice R.owners R.bitsA h.owners

/-- Bob's own bits, as written from his vectors. -/
theorem Valid.ownXBits_bob (h : R.Valid) :
    ownXBits .bob R.owners R.bitsB R.offsets R.total = partyBits .bob R.owners R.bitsB := by
  have hlength := congrArg List.length h.lens
  rw [List.length_map, List.length_map] at hlength
  have hoffsets : R.offsets =
      (List.range R.bitsB.length).map fun k => (R.bitsB.take k).flatten.length := by
    rw [offsets, hlength]
    exact List.map_congr_left fun k _ => flatten_take_length h.lens k
  rw [hoffsets, InputRun.total, flatten_length h.lens]
  exact ownXBits_eq .bob R.owners R.bitsB (h.owners.trans hlength)

/-- Alice receives what Bob sends. -/
theorem Valid.recv_alice (h : R.Valid) (rest : List UInt8) :
    recvInputOpen R.total (peerIdxList .alice R.owner).length (R.messageB sha256 ++ rest) =
      some (((revealLocalShare sha256 (R.drawB R.total)).shareBits,
        (revealLocalShare sha256 (R.drawB R.total)).macDigest,
        ownXPacked .bob R.owner (partyBits .bob R.owners R.bitsB)), rest) := by
  have hreceived := recvInputOpen_append (revealLocalShare sha256 (R.drawB R.total))
    (ownXPacked .bob R.owner (partyBits .bob R.owners R.bitsB)) rest
  have hshares : (revealLocalShare sha256 (R.drawB R.total)).shareBits.length = R.total := by
    rw [revealLocalShare, List.length_map, h.drawB]
  rwa [hshares, ownXPacked_length (show Role.alice ≠ .bob by decide)] at hreceived

/-- Bob receives what Alice sends. -/
theorem Valid.recv_bob (h : R.Valid) (rest : List UInt8) :
    recvInputOpen R.total (peerIdxList .bob R.owner).length (R.messageA sha256 ++ rest) =
      some (((revealLocalShare sha256 (R.drawA R.total)).shareBits,
        (revealLocalShare sha256 (R.drawA R.total)).macDigest,
        ownXPacked .alice R.owner (partyBits .alice R.owners R.bitsA)), rest) := by
  have hreceived := recvInputOpen_append (revealLocalShare sha256 (R.drawA R.total))
    (ownXPacked .alice R.owner (partyBits .alice R.owners R.bitsA)) rest
  have hshares : (revealLocalShare sha256 (R.drawA R.total)).shareBits.length = R.total := by
    rw [revealLocalShare, List.length_map, h.drawA]
  rwa [hshares, ownXPacked_length (show Role.bob ≠ .alice by decide)] at hreceived

/-- Alice reads what Bob sends, and sends the labels. -/
theorem Valid.alice_eq (h : R.Valid) (hpos : R.total ≠ 0) (rest : List UInt8) :
    R.alice sha256 (R.messageB sha256 ++ rest) =
      ⟨R.messageA sha256 ++ macBytes R.labels, some (.ok (R.cuts R.wiresA, rest))⟩ := by
  have hreceived : recvInputOpen _ _ (R.messageB sha256 ++ _) = _ := h.recv_alice rest
  have hopened : finalizeInputOpen sha256 _ _ _ _ _ _ _ = _ := h.opens_alice
  have hslices : ownerSlices R.wiresA _ _ = _ := h.ownerSlices_eq h.lambda_length
  unfold owner at hreceived hopened
  unfold wiresA at hslices
  rw [alice, processInputs, if_neg (not_not.mpr h.owners), h.inputOffsets_eq]
  simp only [if_neg hpos, h.ownXBits_alice, hreceived, hopened, hslices]
  rfl

/-- Bob sends the same whatever he receives. -/
theorem Valid.bob_sent (h : R.Valid) (hpos : R.total ≠ 0) (incoming : List UInt8) :
    (R.bob sha256 incoming).sent = R.messageB sha256 := by
  have hlength := congrArg List.length h.lens
  rw [List.length_map, List.length_map] at hlength
  rw [bob, processInputs, if_neg (not_not.mpr (h.owners.trans hlength)), ← h.lens,
    h.inputOffsets_eq]
  simp only [if_neg hpos, h.ownXBits_bob, ownerOfWire_congr R.owners h.lens.symm]
  split
  · rfl
  · split <;> rfl

/-- Bob reads what Alice sends, and the labels. -/
theorem Valid.bob_eq (h : R.Valid) (hpos : R.total ≠ 0) (rest : List UInt8) :
    R.bob sha256 (R.messageA sha256 ++ macBytes R.labels ++ rest) =
      ⟨R.messageB sha256, some (.ok (R.cuts R.wiresB, rest))⟩ := by
  have hlength := congrArg List.length h.lens
  rw [List.length_map, List.length_map] at hlength
  have hreceived : recvInputOpen _ _ (R.messageA sha256 ++ _) = _ :=
    h.recv_bob (macBytes R.labels ++ rest)
  have hopened : finalizeInputOpen sha256 _ _ _ _ _ _ _ = _ := h.opens_bob
  have hslices : ownerSlices R.wiresB _ _ = _ := h.ownerSlices_eq h.lambda_length
  have hlabels := recvBlock_append R.labels rest
  unfold owner at hreceived hopened
  unfold wiresB at hslices
  rw [h.labels_length] at hlabels
  rw [bob, processInputs, if_neg (not_not.mpr (h.owners.trans hlength)), ← h.lens,
    h.inputOffsets_eq, List.append_assoc]
  simp only [if_neg hpos, h.ownXBits_bob, ownerOfWire_congr R.owners h.lens.symm,
    hreceived, hopened, hlabels, Option.map_some, hslices]
  rfl

end InputRun

/-- Honest input authentication is correct: the parties open the owners' bits under the XOR of their
shares, Bob holds the label of each masked bit, and each owner's slice has its own bits. -/
theorem processInputs_correct (sha256 : List UInt8 → Value32) (R : InputRun) (h : R.Valid)
    (restA restB : List UInt8) :
    (∃ a b, R.Delivered sha256 restA restB a b) ∧
      ∀ a b, R.Delivered sha256 restA restB a b → ∃ wiresA wiresB,
        a.result = some (.ok (wiresA, restA)) ∧ b.result = some (.ok (wiresB, restB)) ∧
          R.Authenticated wiresA wiresB := by
  by_cases hzero : R.total = 0
  · have halice (incoming : List UInt8) : R.alice sha256 incoming = _ := (h.empty hzero incoming).1
    have hbob (incoming : List UInt8) : R.bob sha256 incoming = _ := (h.empty hzero incoming).2
    constructor
    · exact ⟨⟨[], _⟩, ⟨[], _⟩, (halice restA).symm, (hbob restB).symm⟩
    · intro a b hdelivered
      have ha := hdelivered.alice
      have hb := hdelivered.bob
      rw [halice] at ha
      rw [hbob] at hb
      have hauthenticated := h.authenticated
      rw [h.cuts_empty hzero, h.cuts_empty hzero] at hauthenticated
      exact ⟨_, _, by rw [ha, hb]; rfl, by rw [hb, ha]; rfl, hauthenticated⟩
  · have hbob : R.bob sha256 _ = _ := h.bob_eq hzero restB
    have halice : R.alice sha256 _ = _ := h.alice_eq hzero restA
    constructor
    · exact ⟨⟨R.messageA sha256 ++ macBytes R.labels, _⟩, ⟨R.messageB sha256, _⟩,
        halice.symm, hbob.symm⟩
    · intro a b hdelivered
      have hsent : b.sent = R.messageB sha256 := by
        rw [hdelivered.bob]
        exact h.bob_sent hzero _
      have ha := hdelivered.alice
      rw [hsent, halice] at ha
      have hb := hdelivered.bob
      rw [ha, hbob] at hb
      exact ⟨_, _, by rw [ha], by rw [hb], h.authenticated⟩

/-- Four owners in turn, one without bits. -/
def sampleInputRun : InputRun where
  deltaA := Block.make 0 3
  deltaB := Block.make 0 1
  owners := [.bob, .alice, .bob, .alice]
  bitsA := [[0, 0], [1, 0, 1], [], [1]]
  bitsB := [[1, 0], [0, 0, 0], [], [0]]
  drawA n := List.replicate n ⟨Block.make 0 1, Block.zero⟩
  drawB n := List.replicate n ⟨Block.make 0 3, Block.zero⟩
  randomBlock n := (List.range n).map fun i => Block.make 5 (UInt64.ofNat i)

/-- Honest input authentication of four owners. -/
theorem processInputs_correct_sample :
    (∃ a b, sampleInputRun.Delivered Value32.ofList [7] [] a b) ∧
      ∀ a b, sampleInputRun.Delivered Value32.ofList [7] [] a b → ∃ wiresA wiresB,
        a.result = some (.ok (wiresA, [7])) ∧ b.result = some (.ok (wiresB, [])) ∧
          sampleInputRun.Authenticated wiresA wiresB :=
  processInputs_correct Value32.ofList sampleInputRun
    ⟨rfl, rfl, by decide, rfl, rfl, rfl, by decide +kernel⟩ [7] []

end Shachain2pc
