import Shachain2pc.Compat.DirectAnds
import Shachain2pc.Party.PartySession

/-!
# Two parties with their sessions

Two parties which take the same steps complete each of them. The wires which they hold carry the
two shares of the seed, then the values along the bits of the chunks, and what is opened is the
value.
-/

namespace Shachain2pc

open JointRuns AuthenticatedBits
open Ag2pcSession (SessionPaired WiresPaired HeldPaired InputsFit plainOwners opened)
open Ag2pcTriplePool

/-- What the other party is given. -/
def PartyBase.peer {sha256 : List UInt8 → Value32} (base : PartyBase (StreamEnd sha256))
    (nonces : ℕ → Block) :
    PartyBase (StreamEnd sha256) := ⟨base.pool.peer, nonces, base.sha⟩

namespace PartySession

section Ports

variable {S L : Type} [Traffic L] [Port S L]

instance : Port (PartySession S) (Rounds L) where
  load todo done party := { party with session := Port.load todo done party.session }

/-- The streams of a party are those of its session. -/
theorem within_session : Within session (fun session (party : PartySession S) =>
    { party with session := session })
    (fun rounds : Rounds L => rounds) where
  run _ todo done _ := ⟨todo, done, rfl, fun _ => rfl⟩

end Ports

variable {sha256 : List UInt8 → Value32} {base : PartyBase (StreamEnd sha256)} {nonces : ℕ → Block}
  {deltaA deltaB : Block}

/-- Two parties whose sessions are not set up yet. -/
def PartiesFresh (deltaA deltaB : Block) (alice bob : PartySession (StreamEnd sha256)) : Prop :=
  PoolPaired CotFresh deltaA deltaB alice.session.pool bob.session.pool

/-- Two parties whose sessions are paired. -/
def PartiesPaired (deltaA deltaB : Block) (alice bob : PartySession (StreamEnd sha256)) : Prop :=
  SessionPaired deltaA deltaB alice.session bob.session

/-! ## Steps on sessions -/

section Steps

variable {A B C D : Type}
  {rel rel' : Ag2pcSession (StreamEnd sha256) → Ag2pcSession (StreamEnd sha256) → Prop}
  {value : A → B → Prop}

/-- Code on both sessions. -/
theorem joint_onSession {prog : SessionM (StreamEnd sha256) A}
    {prog' : SessionM (StreamEnd sha256) B}
    (h : Joint rel prog prog' fun a alice b bob => value a b ∧ rel' alice bob) :
    Joint (fun alice bob : PartySession (StreamEnd sha256) => rel alice.session bob.session)
      (onSession prog) (onSession prog') fun a alice b bob => value a b ∧
      rel' alice.session bob.session := by
  intro alice bob hpaired
  obtain ⟨left, right, a, session, b, session', hmeets, hours, htheirs, hvalue, hrel⟩ :=
    h _ _ hpaired
  exact ⟨left, right, a, { alice with session := session }, b,
    { bob with session := session' }, hmeets,
    hours.zoom within_session, htheirs.zoom within_session, hvalue, hrel⟩

/-- Code on both sessions which returns nothing. -/
theorem joint_onSessionUnit {prog prog' : SessionM (StreamEnd sha256) Unit}
    (h : Joint rel prog prog' fun _ alice _ bob => rel' alice bob) :
    Joint (fun alice bob : PartySession (StreamEnd sha256) => rel alice.session bob.session)
      (onSession prog) (onSession prog') fun _ alice _ bob => rel' alice.session bob.session := by
  have htrue : Joint rel prog prog' fun _ alice _ bob => True ∧ rel' alice bob :=
    h.mono (fun _ _ h => h) fun _ _ _ _ h => ⟨trivial, h⟩
  exact (joint_onSession htrue).mono (fun _ _ h => h) fun _ _ _ _ h => h.2

/-- Code on the main stream, before the sessions are set up. -/
theorem joint_mainFresh {prog : CotM (StreamEnd sha256) A} {prog' : CotM (StreamEnd sha256) B}
    {left right : List (Event UInt8)} {a : A} {b : B} (h : Exchanges prog left a)
    (h' : Exchanges prog' right b) (hmeets : Crossing [] [] left right) :
    Joint (PartiesFresh deltaA deltaB) (onSession (Ag2pcSession.onMain .alice prog))
      (onSession (Ag2pcSession.onMain .bob prog'))
      fun x alice y bob => (x = a ∧ y = b) ∧ PartiesFresh deltaA deltaB alice bob := by
  intro alice bob hpaired
  obtain ⟨hcots, hours, htheirs⟩ := hpaired.second
  have hfresh {e : CotEndpoint (StreamEnd sha256)} (he : ¬TranscriptIo.fsEnabled e.ot.stream)
      (events : List (Event UInt8)) : ¬TranscriptIo.fsEnabled (e.after events).ot.stream := by
    change ¬TranscriptIo.fsEnabled (e.ot.stream.after events) = true
    rwa [StreamEnd.fsEnabled_after]
  refine ⟨_, _, a, { alice with session := { alice.session with pool :=
    { alice.session.pool with abit2 := alice.session.pool.abit2.after left } } }, b,
    { bob with session := { bob.session with pool :=
    { bob.session.pool with abit1 := bob.session.pool.abit1.after right } } },
    Rounds.meets_one Traffic.meets_none hmeets, ?_, ?_, ⟨rfl, rfl⟩, ?_⟩
  · exact Runs.zoom within_session
      (Runs.zoom Ag2pcSession.within_pool (Runs.zoom within_abit2 (h _)))
  · exact Runs.zoom within_session
      (Runs.zoom Ag2pcSession.within_pool (Runs.zoom within_abit1 (h' _)))
  · exact { hpaired with
      second := ⟨hcots.after hmeets.symm, hfresh hours right, hfresh htheirs left⟩ }

end Steps

/-! ## The digest -/

section Digest

variable {digest : Value32}

/-- A digest is received as it was sent. -/
theorem exchanges_recvDigest (digest : Value32) :
    Exchanges (do
      let digest ← onStream (TranscriptIo.recvData 32)
      return Value32.ofList digest : CotM (StreamEnd sha256) Value32)
        [.received digest.bytes.toList] digest := by
  refine (exchanges_recvData (by simp)).bindQuiet ?_
  rw [Value32.ofList_toList]
  exact .pure digest

/-- A digest is sent. -/
theorem exchanges_sendDigest (digest : Value32) :
    Exchanges (do
      onStream (TranscriptIo.sendData digest.bytes.toList)
      onStream TranscriptIo.flush : CotM (StreamEnd sha256) Unit) [.sent digest.bytes.toList] () :=
  (exchanges_sendData _).bindQuiet exchanges_flush

/-- Equal digests are accepted. -/
theorem onStandalone_exchange {S : Type} (digest : Value32) :
    (onStandalone (exchangeCircuitDigest digest digest) : PartyM S Unit) = pure () := by
  rw [exchangeCircuitDigest, if_pos rfl]
  rfl

/-- Both parties exchange equal digests. -/
theorem joint_exchangeDigest (digest : Value32) :
    Joint (PartiesFresh deltaA deltaB) (exchangeDigest .alice digest) (exchangeDigest .bob digest)
      fun _ (alice : PartySession (StreamEnd sha256)) _ bob =>
        PartiesFresh deltaA deltaB alice bob := by
  refine (joint_mainFresh (exchanges_sendDigest digest) (exchanges_recvDigest digest)
    (Crossing.opposite [.sent digest.bytes.toList])).bind fun _ peer => Joint.assume ?_
  rintro ⟨-, rfl⟩
  refine (joint_mainFresh (exchanges_recvDigest peer) (exchanges_sendDigest peer)
    (Crossing.opposite [.received peer.bytes.toList])).bind fun received _ => Joint.assume ?_
  rintro ⟨rfl, -⟩
  rw [onStandalone_exchange]
  exact .pure fun _ _ hpaired => hpaired

end Digest

/-! ## The life of a session -/

/-- The main stream is flushed. -/
theorem joint_flushMain :
    Joint (PartiesPaired deltaA deltaB) (flushMain .alice) (flushMain .bob)
      fun _ (alice : PartySession (StreamEnd sha256)) _ bob =>
        PartiesPaired deltaA deltaB alice bob :=
  joint_onSessionUnit ((Ag2pcSession.joint_onPool (joint_main exchanges_flush exchanges_flush
    (Crossing.opposite []))).mono (fun _ _ h => h) fun _ _ _ _ h => h.2)

/-- Both set up their sessions. -/
theorem joint_setup (h : base.pool.abit1.Delivers) (h' : base.pool.abit2.Delivers) :
    Joint (PartiesFresh deltaA deltaB) (setup base .alice) (setup (base.peer nonces) .bob)
      fun _ alice _ bob => PartiesPaired deltaA deltaB alice bob :=
  (joint_onSessionUnit (Ag2pcSession.joint_setup h h')).bind fun _ _ => joint_flushMain

/-- Both end their sessions. -/
theorem joint_finish :
    Joint (PartiesPaired deltaA deltaB) (finish base) (finish (base.peer nonces))
      fun _ alice _ bob => PartiesPaired deltaA deltaB alice bob :=
  joint_onSessionUnit Ag2pcSession.joint_finish

/-! ## Programs -/

/-- What two parties need to run chunks: base OTs which deliver, a Delta of Alice's with its lowest
bits, and a gadget with an AND gate. -/
structure Chunked (compress : Block64 → Value32) (base : PartyBase (StreamEnd sha256))
    (deltaA : Block) :
    Prop where
  abit1 : base.pool.abit1.Delivers
  abit2 : base.pool.abit2.Delivers
  delta0 : blockLsb deltaA = 1
  delta1 : blockLsb1 deltaA = 1
  gadget : DirectGadget compress base.sha
  ands : 0 < gadgetAnds base.sha

section Programs

variable {compress : Block64 → Value32} {program : Ag2pcProgram} {plain : List Bool}
  {value : Value32} {inputs inputs' : Ag2pcSecureWires}

/-- Both parties run a program. -/
theorem joint_runProgram (h : Chunked compress base deltaA)
    (hrunnable : Ag2pcSession.Runnable deltaA deltaB program plain inputs inputs') :
    Joint (PartiesPaired deltaA deltaB) (runProgram base program inputs)
      (runProgram (base.peer nonces) program inputs')
      fun x alice y bob => WiresPaired deltaA deltaB (program.plainOutputs plain) x y ∧
        PartiesPaired deltaA deltaB alice bob := by
  intro alice bob hpaired
  obtain ⟨left, right, a, alice', b, bob', hmeets, hours, htheirs, hpost⟩ :=
    joint_onSession (Ag2pcSession.joint_runProgram h.abit1 h.abit2 h.delta0 h.delta1 hrunnable
      (base.nonces alice.programs) (nonces bob.programs))
      { alice with programs := alice.programs + 1 } { bob with programs := bob.programs + 1 }
      hpaired
  refine ⟨left, right, a, alice', b, bob', hmeets, .get ?_ fun _ _ => rfl,
    .get ?_ fun _ _ => rfl, hpost⟩
  · exact Runs.bindLocal (.local fun _ _ => rfl) hours
  · exact Runs.bindLocal (.local fun _ _ => rfl) htheirs

/-- Wires which carry a value. -/
def NodePaired (deltaA deltaB : Block) (value : Value32) (x y : Ag2pcSecureWires) : Prop :=
  WiresPaired deltaA deltaB ⟨plainBits value, true⟩ x y

/-- What a chunk makes of a value. A chunk without bits has no AND gates. -/
def chunkOutputs (compress : Block64 → Value32) (value : Value32) (chainBits : List ℕ) :
    PlainWires :=
  ⟨plainBits (hashBits (sha256Digest compress) value chainBits), chainBits ≠ []⟩

/-- A program which is built. -/
theorem buildProgram_ok {S : Type} {built : Rust.Outcome ProgramError Ag2pcProgram}
    {program : Ag2pcProgram} (h : built = .ok program) :
    (buildProgram built : PartyM S Ag2pcProgram) = pure program := by
  rw [h]
  rfl

/-- Both parties run a chunk. -/
theorem joint_runChunk (h : Chunked compress base deltaA) {chainBits : List ℕ}
    (hbits : ∀ bit ∈ chainBits, bit < indexBits) (hcount : chainBits.length ≤ indexBits)
    {first : Bool} (hin : ChunkInput first plain value)
    (hinputs : WiresPaired deltaA deltaB ⟨plain, true⟩ inputs inputs') :
    Joint (PartiesPaired deltaA deltaB) (runChunk base chainBits first inputs)
      (runChunk (base.peer nonces) chainBits first inputs')
      fun x alice y bob => WiresPaired deltaA deltaB (chunkOutputs compress value chainBits) x y ∧
        PartiesPaired deltaA deltaB alice bob := by
  obtain ⟨program, hprogram, hwellFormed, hwidth, heval⟩ :=
    chunkFromSha_spec h.gadget hbits hcount hin
  have hands : (0 < countAnds program.gates) = (chainBits ≠ []) := by
    have hgadget := h.ands
    rw [chunkFromSha_ands hprogram, Nat.mul_pos_iff_of_pos_right hgadget, List.length_pos_iff]
  have houtputs : program.plainOutputs plain = chunkOutputs compress value chainBits := by
    simp only [Ag2pcProgram.plainOutputs, chunkOutputs, heval, hands]
  have hsha : (base.peer nonces).sha = base.sha := rfl
  rw [runChunk, runChunk, hsha, buildProgram_ok hprogram, pure_bind, pure_bind, ← houtputs]
  exact joint_runProgram h ⟨hwellFormed, hwidth.symm, hinputs⟩

/-- What a tile makes of a value. -/
def tileOutputs (compress : Block64 → Value32) (value : Value32) (bitOffset tileHeight : ℕ) :
    PlainWires :=
  ⟨(List.range (2 ^ tileHeight)).flatMap fun suffix =>
    plainBits (tileValue (sha256Digest compress) value bitOffset suffix), true⟩

/-- A program on a value, by what it makes of each. -/
structure NodeProgram (program : Ag2pcProgram) (outputs : Value32 → PlainWires) : Prop where
  wellFormed : program.WellFormed
  width : program.numInputs = valueBits
  means : ∀ value, program.plainOutputs (plainBits value) = outputs value

/-- Both parties run a program on a node. -/
theorem joint_runNode (h : Chunked compress base deltaA) {program : Ag2pcProgram}
    {outputs : Value32 → PlainWires} (hprogram : NodeProgram program outputs)
    {inputs inputs' : Ag2pcSecureWires} (hinputs : NodePaired deltaA deltaB value inputs inputs') :
    Joint (PartiesPaired deltaA deltaB) (runProgram base program inputs)
      (runProgram (base.peer nonces) program inputs')
      fun x alice y bob => WiresPaired deltaA deltaB (outputs value) x y ∧
        PartiesPaired deltaA deltaB alice bob := by
  rw [← hprogram.means value]
  exact joint_runProgram h
    ⟨hprogram.wellFormed, (plainBits_length value).trans hprogram.width.symm, hinputs⟩

/-- The program of a tile. -/
theorem nodeProgram_tile (h : Chunked compress base deltaA) {bitOffset tileHeight : ℕ}
    (hpos : 1 ≤ tileHeight) (hheight : tileHeight ≤ 4)
    (hwindow : bitOffset + tileHeight ≤ indexBits) :
    ∃ program, tileFromSha base.sha bitOffset tileHeight = .ok program ∧
      NodeProgram program fun value => tileOutputs compress value bitOffset tileHeight := by
  have hfit : valueBits + 2 + (2 ^ tileHeight - 1) * (base.sha.gates.length + 1) + valueBits *
    2 ^ tileHeight ≤
      gateWireLimit := by
    have hleaves : 2 ^ tileHeight ≤ 16 := Nat.pow_le_pow_right (by decide) hheight
    have hgates := Nat.mul_le_mul_right (base.sha.gates.length + 1) (Nat.sub_le_sub_right hleaves 1)
    have hwires := Nat.mul_le_mul_left valueBits hleaves
    have hfits := h.gadget.fits
    unfold indexBits at hfits
    unfold valueBits at *
    unfold gateWireLimit at *
    omega
  have hspec (value : Value32) := tileFromSha_spec h.gadget hpos hwindow hfit value
  obtain ⟨program, hprogram, hwellFormed, hwidth, -⟩ := hspec (Value32.ofList [])
  refine ⟨program, hprogram, hwellFormed, hwidth, fun value => ?_⟩
  obtain ⟨program', hprogram', -, -, heval⟩ := hspec value
  rw [hprogram] at hprogram'
  cases hprogram'
  have hands : 0 < countAnds program.gates := by
    rw [tileFromSha_ands hprogram]
    have hone := mem_tileSuffixes (by unfold indexBits; omega) Nat.one_pos
      (Nat.one_lt_two_pow (by omega : tileHeight ≠ 0))
    exact Nat.mul_pos (List.length_pos_of_mem hone) h.ands
  simp only [Ag2pcProgram.plainOutputs, tileOutputs, heval, hands, decide_true]

end Programs

/-! ## The seed -/

/-- The bits of an owner. -/
theorem plainOwners_share (owner : Role) (a b : Value32) :
    plainOwners [owner] [ownerInput .alice owner a] [ownerInput .bob owner b] =
      [⟨plainBits (if owner = .alice then a else b), true⟩] := by
  have hbits (value : Value32) :
      value.toBitsMsb.map (fun bit => bit &&& 1 != 0) = plainBits value := by
    refine List.map_congr_left fun bit hbit => ?_
    rw [and_one_of_mem_bitsMsb hbit]
  cases owner with
  | alice => simp [plainOwners, ownerBits, ownerInput, hbits]
  | bob => simp [plainOwners, ownerBits, ownerInput, hbits]

/-- The vectors for an owner. -/
theorem inputsFit_share (owner : Role) (a b : Value32) :
    InputsFit [owner] [ownerInput .alice owner a] [ownerInput .bob owner b] := by
  have hlength (role : Role) (share : Value32) : (ownerInput role owner share).length = 256 := by
    unfold ownerInput
    split
    · exact Value32.toBitsMsb_length share
    · exact List.length_replicate
  refine ⟨rfl, by simp [hlength], by simp [hlength]⟩

/-- An element which is there. -/
theorem element_eq {S A : Type} {wires : List A} {i : ℕ} {a : A} (h : wires[i]? = some a) :
    (element wires i : PartyM S A) = pure a := by
  rw [element, Rust.readSlot, h]
  rfl

/-- Both parties authenticate the inputs of an owner. -/
theorem joint_ownerInput (owner : Role) (a b : Value32) :
    Joint (PartiesPaired deltaA deltaB)
      (onSession (Ag2pcSession.processInputs base.pool [owner] [ownerInput .alice owner a]))
      (onSession (Ag2pcSession.processInputs base.pool.peer [owner] [ownerInput .bob owner b]))
      fun x alice y bob => (∃ ours theirs, x[0]? = some ours ∧ y[0]? = some theirs ∧
        NodePaired deltaA deltaB (if owner = .alice then a else b) ours theirs) ∧
          PartiesPaired deltaA deltaB alice bob := by
  refine (joint_onSession (Ag2pcSession.joint_processInputs (inputsFit_share owner a b))).mono
    (fun _ _ h => h)
    fun x alice y bob h => ⟨?_, h.2⟩
  have hheld := h.1
  rw [plainOwners_share] at hheld
  exact hheld.wires 0 _ rfl

/-- Both parties authenticate the two shares of the seed. -/
theorem joint_authenticateSeedInputs (a b : Value32) :
    Joint (PartiesPaired deltaA deltaB) (authenticateSeedInputs base .alice a)
      (authenticateSeedInputs (base.peer nonces) .bob b)
      fun x alice y bob => WiresPaired deltaA deltaB ⟨plainBits b ++ plainBits a, true⟩ x y ∧
        PartiesPaired deltaA deltaB alice bob := by
  refine (joint_ownerInput .bob a b).bind fun bobInputs bobInputs' => Joint.assume ?_
  rintro ⟨bobOurs, bobTheirs, hbob, hbob', hbobPaired⟩
  refine (joint_ownerInput .alice a b).bind fun aliceInputs aliceInputs' => Joint.assume ?_
  rintro ⟨aliceOurs, aliceTheirs, halice, halice', halicePaired⟩
  have hwires := ((HeldPaired.one hbobPaired).append (.one halicePaired)).concat [0, 1]
  have hplain : Ag2pcSession.plainParts ([⟨plainBits b, true⟩] ++ [⟨plainBits a, true⟩]) [0, 1] =
      ⟨plainBits b ++ plainBits a, true⟩ :=
    congrArg (PlainWires.mk · true) (congrArg (plainBits b ++ ·) (List.append_nil _))
  rw [element_eq hbob, element_eq hbob', element_eq halice, element_eq halice']
  exact .pure fun _ _ hpaired => ⟨hplain ▸ hwires, hpaired⟩

/-! ## Openings -/

/-- The bits of a value are read back. -/
theorem valueFromBits_toBitsMsb {S : Type} (value : Value32) :
    (valueFromBits value.toBitsMsb : PartyM S Value32) = pure value := by
  rw [valueFromBits, fromBitsMsb_toBitsMsb]
  rfl

/-- Both open the bits of wires which carry a value. -/
theorem joint_revealBits {value : Value32} {agreed : Bool} {x y : Ag2pcSecureWires}
    (h : WiresPaired deltaA deltaB ⟨plainBits value, agreed⟩ x y) :
    Joint (PartiesPaired deltaA deltaB)
      (onSession (Ag2pcSession.revealPublic base.pool x.stripLabelsForReveal))
      (onSession (Ag2pcSession.revealPublic (base.peer nonces).pool y.stripLabelsForReveal))
      fun x alice y bob => (x = value.toBitsMsb ∧ y = value.toBitsMsb) ∧
        PartiesPaired deltaA deltaB alice bob := by
  have hbits : (plainBits value).map bitByte = value.toBitsMsb := by
    rw [plainBits, List.map_map]
    refine (List.map_congr_left fun bit hbit => ?_).trans (List.map_id _)
    exact bitByte_bne (eq_zero_or_one_of_mem_bitsMsb hbit)
  have hpublic : Ag2pcRevealRecipient.publicly = .party .alice → agreed = true :=
    fun hparty => by cases hparty
  have hopen :
      Joint (SessionPaired deltaA deltaB)
        (Ag2pcSession.revealPublic base.pool x.stripLabelsForReveal)
      (Ag2pcSession.revealPublic base.pool.peer y.stripLabelsForReveal) _ :=
    Ag2pcSession.joint_decode h hpublic
  refine (joint_onSession hopen).mono (fun _ _ hpaired => hpaired) fun bits alice bits' bob hpost =>
    ?_
  have hvalues := hpost.1
  simp only [opened, hbits] at hvalues
  exact ⟨hvalues, hpost.2⟩

/-- Both open wires which carry a value. -/
theorem joint_revealValue {value : Value32} {agreed : Bool} {x y : Ag2pcSecureWires}
    (h : WiresPaired deltaA deltaB ⟨plainBits value, agreed⟩ x y) :
    Joint (PartiesPaired deltaA deltaB) (revealValue base x.stripLabelsForReveal)
      (revealValue (base.peer nonces) y.stripLabelsForReveal)
      fun x alice y bob => (x = value ∧ y = value) ∧ PartiesPaired deltaA deltaB alice bob := by
  refine (joint_revealBits h).bind fun bits bits' => Joint.assume ?_
  rintro ⟨rfl, rfl⟩
  rw [valueFromBits_toBitsMsb]
  exact .pure fun _ _ hpaired => ⟨⟨rfl, rfl⟩, hpaired⟩

end PartySession

end Shachain2pc
