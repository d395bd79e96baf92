import Shachain2pc.Compat.SessionJoint

/-!
# Calls of two sessions

Two sessions which get the same calls complete all of them. A call refers to wires which earlier
calls returned; the parties differ only in the bits which they pass for the owners. After every
call the parties hold the same wires together, with the plain bits which the calls give: those of
the owners, public ones, and those which programs compute. What is opened are the plain bits.
-/

namespace Shachain2pc

open JointRuns AuthenticatedBits
open Ag2pcTriplePool

/-- No plain bits. -/
def PlainWires.none : PlainWires := ⟨[], true⟩

/-- Plain bits and then others, which the parties agree on when they agree on both. -/
def PlainWires.append (plain later : PlainWires) : PlainWires :=
  ⟨plain.bits ++ later.bits, plain.agreed && later.agreed⟩

/-- Some of the plain bits. -/
def PlainWires.cut (plain : PlainWires) (start len : ℕ) : PlainWires :=
  ⟨(plain.bits.drop start).take len, plain.agreed⟩

namespace Ag2pcSession

variable {sha256 : List UInt8 → Value32} {base : PoolBase (StreamEnd sha256)}
  {deltaA deltaB : Block} {plain plain' : PlainWires} {ours theirs ours' theirs' : Ag2pcSecureWires}

/-! ## Parts of wires -/

/-- No wires. -/
def noWires : Ag2pcSecureWires := ⟨[], [], [], []⟩

/-- No wires are held together. -/
theorem noWires_paired : WiresPaired deltaA deltaB .none noWires noWires :=
  ⟨⟨rfl, rfl, rfl, rfl, rfl, rfl, fun _ hw => absurd hw (Nat.not_lt_zero _)⟩, fun _ => rfl⟩

/-- Wires and then others. -/
def appendWires (wires later : Ag2pcSecureWires) : Ag2pcSecureWires :=
  ⟨wires.lambda ++ later.lambda, wires.wireBundle ++ later.wireBundle, wires.label0 ++ later.label0,
    wires.evalLabel ++ later.evalLabel⟩

/-- An element of two lists. -/
theorem getD_append_lt {α : Type} {xs : List α} (ys : List α) {n w : ℕ} (d : α)
    (hlength : xs.length = n) :
    (xs ++ ys).getD w d = if w < n then xs.getD w d else ys.getD (w - n) d := by
  subst hlength
  split
  · next hw => exact List.getD_append _ _ _ _ hw
  · next hw => exact List.getD_append_right _ _ _ _ (not_lt.mp hw)

/-- Wires and others which two parties hold. -/
theorem WiresPaired.append (h : WiresPaired deltaA deltaB plain ours theirs)
    (h' : WiresPaired deltaA deltaB plain' ours' theirs') :
    WiresPaired deltaA deltaB (plain.append plain') (appendWires ours ours')
      (appendWires theirs theirs') := by
  obtain ⟨⟨hlambda, hlambda', hbundle, hbundle', hlabel, heval, hwires⟩, hagree⟩ := h
  obtain ⟨⟨klambda, klambda', kbundle, kbundle', klabel, keval, kwires⟩, kagree⟩ := h'
  refine ⟨⟨?_, ?_, ?_, ?_, ?_, ?_, fun w hw => ?_⟩, fun hboth => ?_⟩
  iterate 6 rw [appendWires, PlainWires.append, List.length_append, List.length_append]; omega
  · simp only [appendWires, PlainWires.append, getD_append_lt _ _ hbundle,
      getD_append_lt _ _ hbundle',
      getD_append_lt _ _ hlabel, getD_append_lt _ _ heval, getD_append_lt _ _ hlambda',
      getD_append_lt plain'.bits false rfl]
    rw [PlainWires.append, List.length_append] at hw
    split
    · next hlt => exact hwires w hlt
    · next hle => exact kwires _ (by omega)
  · obtain ⟨hours, htheirs⟩ := Bool.and_eq_true_iff.mp hboth
    rw [appendWires, appendWires, hagree hours, kagree htheirs]

/-- Public wires are held together. -/
theorem publicWires_paired {p q : Ag2pcTriplePoolState} (hstates : StatesPaired deltaA deltaB p q)
    (bits : List UInt8) :
    WiresPaired deltaA deltaB ⟨bits.map fun bit => bit &&& 1 != 0, true⟩ (publicWires p bits)
      (publicWires q bits) := by
  unfold publicWires
  simp only [hstates.honest.alice, hstates.honest.bob, hstates.offsetA]
  have hlength {A : Type} (f : UInt8 → A) :
      (bits.map f).length = (bits.map fun bit => bit &&& 1 != 0).length := by
    rw [List.length_map, List.length_map]
  have hcount {A : Type} (a : A) :
      (List.replicate bits.length a).length = (bits.map fun bit => bit &&& 1 != 0).length := by
    rw [List.length_replicate, List.length_map]
  refine ⟨⟨hlength _, hlength _, hcount _, hcount _, hlength _, hcount _, fun w hw => ?_⟩,
    fun _ => rfl⟩
  have hlt : w < bits.length := by rwa [List.length_map] at hw
  have hget {A : Type} (f : UInt8 → A) (fill : A) : (bits.map f).getD w fill = f bits[w] := by
    rw [List.getD_eq_getElem _ _ (by rwa [List.length_map]), List.getElem_map]
  have hsame {A : Type} (a fill : A) : (List.replicate bits.length a).getD w fill = a := by
    rw [List.getD_eq_getElem _ _ (by rwa [List.length_replicate]), List.getElem_replicate]
  have hbit : bits[w] &&& 1 &&& 1 = bits[w] &&& 1 := by rw [UInt8.and_assoc, UInt8.and_self]
  rw [hget, hget, hget, hsame, hsame]
  refine ⟨zeroShare_paired, ?_, ?_⟩
  · rw [bitByte_ne_zero hbit]
    change bits[w] &&& 1 = bits[w] &&& 1 ^^^ blockLsb zeroShare.mac ^^^ blockLsb zeroShare.mac
    rw [UInt8.xor_assoc, UInt8.xor_self, UInt8.xor_zero]
  · refine blockVec_injective ?_
    rw [blockVec_xor, blockVec_and_selectBlock]
    rcases bit_cases hbit with hzero | hone
    · rw [if_pos hzero, hzero, bitAt_zero, zero_smul, blockVec_zero, add_zero]
    · rw [if_neg (by rw [hone]; decide), hone, bitAt_one_zero, one_smul, ZModModule.add_self,
        blockVec_zero]

/-! ## What is held -/

section Held

variable {plains : List PlainWires} {held held' : List Ag2pcSecureWires}

/-- What was returned by some call; there are no wires beyond the last. -/
def part (held : List Ag2pcSecureWires) (k : ℕ) : Ag2pcSecureWires := held.getD k noWires

/-- The plain bits of some wires. -/
def plainPart (plains : List PlainWires) (k : ℕ) : PlainWires := plains.getD k .none

/-- Wires at any position are held together. -/
theorem HeldPaired.part (h : HeldPaired deltaA deltaB plains held held') (k : ℕ) :
    WiresPaired deltaA deltaB (plainPart plains k) (part held k) (part held' k) := by
  by_cases hk : k < plains.length
  · obtain ⟨a, b, ha, hb, hwires⟩ := h.wires k _ (List.getElem?_eq_getElem hk)
    rw [plainPart, Ag2pcSession.part, Ag2pcSession.part, List.getD_eq_getElem _ _ hk,
      List.getD_eq_getElem?_getD, ha, List.getD_eq_getElem?_getD, hb]
    exact hwires
  · have hle := not_lt.mp hk
    rw [plainPart, Ag2pcSession.part, Ag2pcSession.part, List.getD_eq_default _ _ hle,
      List.getD_eq_default _ _ (h.countA.trans_le hle),
      List.getD_eq_default _ _ (h.countB.trans_le hle)]
    exact noWires_paired

/-- The plain bits of some wires, one after the other. -/
def plainParts (plains : List PlainWires) (parts : List ℕ) : PlainWires :=
  parts.foldr (fun k later => (plainPart plains k).append later) .none

/-- Parts one after the other are held together. -/
theorem HeldPaired.concat (h : HeldPaired deltaA deltaB plains held held') (parts : List ℕ) :
    WiresPaired deltaA deltaB (plainParts plains parts)
      (.concat (parts.map (Ag2pcSession.part held)))
      (.concat (parts.map (Ag2pcSession.part held'))) := by
  induction parts with
  | nil => exact noWires_paired
  | cons k rest ih => exact (h.part k).append ih

/-- Some wires of a part are held together. -/
theorem WiresPaired.slice (h : WiresPaired deltaA deltaB plain ours theirs) {start stop : ℕ}
    (hle : start ≤ stop) (hstop : stop ≤ plain.bits.length) :
    WiresPaired deltaA deltaB (plain.cut start (stop - start)) (ours.cut start (stop - start))
        (theirs.cut start (stop - start)) ∧
      ours.slice start stop = .ok (ours.cut start (stop - start)) ∧
      theirs.slice start stop = .ok (theirs.cut start (stop - start)) := by
  have hcut (wires : Ag2pcSecureWires) (hwires : wires.lambda.length = plain.bits.length) :
      wires.slice start stop = .ok (wires.cut start (stop - start)) := by
    rw [Ag2pcSecureWires.slice, if_neg (by omega)]
    rfl
  refine ⟨⟨h.valid.cut (by omega), fun hagreed => ?_⟩, hcut _ h.valid.lambdaA,
    hcut _ h.valid.lambdaB⟩
  rw [Ag2pcSecureWires.cut, Ag2pcSecureWires.cut, h.agree hagreed]

/-- What is held, and more. -/
theorem HeldPaired.append (h : HeldPaired deltaA deltaB plains held held')
    {plains' : List PlainWires} {new new' : List Ag2pcSecureWires}
    (h' : HeldPaired deltaA deltaB plains' new new') :
    HeldPaired deltaA deltaB (plains ++ plains') (held ++ new) (held' ++ new') := by
  refine ⟨by simp [h.countA, h'.countA], by simp [h.countB, h'.countB], fun k plain hk => ?_⟩
  by_cases hlt : k < plains.length
  · rw [List.getElem?_append_left hlt] at hk
    rw [List.getElem?_append_left (h.countA ▸ hlt), List.getElem?_append_left (h.countB ▸ hlt)]
    exact h.wires k plain hk
  · have hle := not_lt.mp hlt
    rw [List.getElem?_append_right hle] at hk
    rw [List.getElem?_append_right (h.countA ▸ hle), List.getElem?_append_right (h.countB ▸ hle),
      h.countA, h.countB]
    exact h'.wires _ plain hk

/-- One vector of wires. -/
theorem HeldPaired.one (h : WiresPaired deltaA deltaB plain ours theirs) :
    HeldPaired deltaA deltaB [plain] [ours] [theirs] := by
  refine ⟨rfl, rfl, fun k plain' hk => ?_⟩
  cases k with
  | zero =>
    obtain rfl := Option.some.inj hk
    exact ⟨ours, theirs, rfl, rfl, h⟩
  | succ k => cases hk

end Held

/-! ## Calls -/

/-- What a caller asks of a session. Parts are named by their places among the wires which were
returned; a party passes its own bits for the owners. -/
inductive SessionCall where
  | processInputs (owners : List Role) (bitsA bitsB : List (List UInt8))
  | publicWires (bits : List UInt8)
  | concat (parts : List ℕ)
  | slice (from_ start stop : ℕ)
  | runProgram (program : Ag2pcProgram) (inputs : ℕ) (nonce : Block)
  | decode (wires : ℕ) (recipient : Ag2pcRevealRecipient)
  | trimIdleAllocations

/-- What a party got from its calls. -/
structure Caller where
  wires : List Ag2pcSecureWires
  bits : List (List UInt8)

/-- What calls mean: the plain bits of the wires, and those which were opened to recipients. -/
structure Meaning where
  wires : List PlainWires
  openings : List (Ag2pcRevealRecipient × List Bool)

/-- More wires. -/
def Caller.hold (caller : Caller) (wires : List Ag2pcSecureWires) : Caller :=
  { caller with wires := caller.wires ++ wires }

/-- More plain bits. -/
def Meaning.hold (meaning : Meaning) (plains : List PlainWires) : Meaning :=
  { meaning with wires := meaning.wires ++ plains }

/-- A call of a party. -/
def perform {S : Type} [TranscriptIo S] (base : PoolBase S) (party : Role) (caller : Caller) :
    SessionCall → SessionM S Caller
  | .processInputs owners bitsA bitsB => do
    let slices ← processInputs base owners (match party with
      | .alice => bitsA
      | .bob => bitsB)
    return caller.hold slices
  | .publicWires bits => do
    let pool := (← get).pool.state
    return caller.hold [publicWires pool bits]
  | .concat parts => return caller.hold [.concat (parts.map (part caller.wires))]
  | .slice from_ start stop => do
    let wires ← onCompat ((part caller.wires from_).slice start stop)
    return caller.hold [wires]
  | .runProgram program inputs nonce => do
    let wires ← runProgram base program (part caller.wires inputs) nonce
    return caller.hold [wires]
  | .decode wires recipient => do
    let bits ← decode base (part caller.wires wires) recipient
    return { caller with bits := caller.bits ++ [bits] }
  | .trimIdleAllocations => do
    trimIdleAllocations
    return caller

/-- Calls of a party, one after the other. -/
def performAll {S : Type} [TranscriptIo S] (base : PoolBase S) (party : Role) :
    List SessionCall → Caller → SessionM S Caller
  | [], caller => return caller
  | call :: rest, caller => do
    let caller ← perform base party caller call
    performAll base party rest caller

/-- What a call adds to the plain bits. -/
def Meaning.step (meaning : Meaning) : SessionCall → Meaning
  | .processInputs owners bitsA bitsB => meaning.hold (plainOwners owners bitsA bitsB)
  | .publicWires bits => meaning.hold [⟨bits.map fun bit => bit &&& 1 != 0, true⟩]
  | .concat parts => meaning.hold [plainParts meaning.wires parts]
  | .slice from_ start stop =>
    meaning.hold [(plainPart meaning.wires from_).cut start (stop - start)]
  | .runProgram program inputs _ =>
    meaning.hold [program.plainOutputs (plainPart meaning.wires inputs).bits]
  | .decode wires recipient =>
    { meaning with
      openings := meaning.openings ++ [(recipient, (plainPart meaning.wires wires).bits)] }
  | .trimIdleAllocations => meaning

/-- What a call needs: vectors for the owners of equal lengths at both parties, bounds of a slice,
and inputs for a well-formed program. A program and an opening to Alice need masked bits which the
parties agree on. -/
def Meaning.Fits (meaning : Meaning) : SessionCall → Prop
  | .processInputs owners bitsA bitsB => InputsFit owners bitsA bitsB
  | .slice from_ start stop => start ≤ stop ∧ stop ≤ (plainPart meaning.wires from_).bits.length
  | .runProgram program inputs _ =>
    program.WellFormed ∧ (plainPart meaning.wires inputs).agreed = true ∧
    (plainPart meaning.wires inputs).bits.length = program.numInputs
  | .decode wires recipient =>
    recipient = .party .alice → (plainPart meaning.wires wires).agreed = true
  | _ => True

/-- What calls need, one after the other. -/
def Meaning.FitsAll : List SessionCall → Meaning → Prop
  | [], _ => True
  | call :: rest, meaning => meaning.Fits call ∧ FitsAll rest (meaning.step call)

/-- Two callers hold wires together, and have what was opened. -/
structure CallersPaired (deltaA deltaB : Block) (meaning : Meaning) (ours theirs : Caller) :
    Prop where
  wires : HeldPaired deltaA deltaB meaning.wires ours.wires theirs.wires
  bitsA : ours.bits = meaning.openings.map fun opening => opened opening.1 .alice opening.2
  bitsB : theirs.bits = meaning.openings.map fun opening => opened opening.1 .bob opening.2

section Calls

variable {meaning : Meaning} {caller caller' : Caller}

/-- Callers hold more wires together. -/
theorem CallersPaired.hold (h : CallersPaired deltaA deltaB meaning caller caller')
    {plains : List PlainWires} {new new' : List Ag2pcSecureWires}
    (hnew : HeldPaired deltaA deltaB plains new new') :
    CallersPaired deltaA deltaB (meaning.hold plains) (caller.hold new) (caller'.hold new') :=
  ⟨h.wires.append hnew, h.bitsA, h.bitsB⟩

/-- A call of both parties. -/
theorem joint_perform (h : base.abit1.Delivers) (h' : base.abit2.Delivers)
    (hdelta0 : blockLsb deltaA = 1) (hdelta1 : blockLsb1 deltaA = 1)
    (hcallers : CallersPaired deltaA deltaB meaning caller caller') {call : SessionCall}
    (hfits : meaning.Fits call) :
    Joint (SessionPaired deltaA deltaB) (perform base .alice caller call)
      (perform base.peer .bob caller' call)
      fun x alice y bob => CallersPaired deltaA deltaB (meaning.step call) x y ∧
        SessionPaired deltaA deltaB alice bob := by
  cases call with
  | processInputs owners bitsA bitsB =>
    refine (joint_processInputs hfits).bind fun x y => Joint.assume fun hnew => ?_
    exact .pure fun _ _ hpaired => ⟨hcallers.hold hnew, hpaired⟩
  | publicWires bits =>
    have hnew (p q : Ag2pcTriplePoolState) (hstates : StatesPaired deltaA deltaB p q) :
        Joint (SessionPaired deltaA deltaB)
          (pure (caller.hold [publicWires p bits]) : SessionM (StreamEnd sha256) Caller)
          (pure (caller'.hold [publicWires q bits]) : SessionM (StreamEnd sha256) Caller)
          fun x alice y bob => CallersPaired deltaA deltaB (meaning.step (.publicWires bits)) x y ∧
            SessionPaired deltaA deltaB alice bob :=
      .pure fun _ _ hpaired => ⟨hcallers.hold (.one (publicWires_paired hstates bits)), hpaired⟩
    exact joint_poolState hnew
  | concat parts => exact .pure fun _ _ hpaired =>
    ⟨hcallers.hold (.one (hcallers.wires.concat parts)), hpaired⟩
  | slice from_ start stop =>
    obtain ⟨hpart, hours, htheirs⟩ := (hcallers.wires.part from_).slice hfits.1 hfits.2
    refine (joint_onCompat hours htheirs hpart).bind fun x y => Joint.assume fun hnew => ?_
    exact .pure fun _ _ hpaired => ⟨hcallers.hold (.one hnew), hpaired⟩
  | runProgram program inputs nonce =>
    have hrunnable : Runnable deltaA deltaB program _ _ _ :=
      ⟨hfits.1, hfits.2.2, (hcallers.wires.part inputs).valid,
        fun _ => (hcallers.wires.part inputs).agree hfits.2.1⟩
    refine (joint_runProgram h h' hdelta0 hdelta1 hrunnable nonce nonce).bind fun x y =>
      Joint.assume fun hnew => ?_
    exact .pure fun _ _ hpaired => ⟨hcallers.hold (.one hnew), hpaired⟩
  | decode wires recipient =>
    refine (joint_decode (hcallers.wires.part wires) hfits).bind fun x y => Joint.assume ?_
    rintro ⟨rfl, rfl⟩
    have hbits (party : Role) {bits : List (List UInt8)}
        (hbits : bits = meaning.openings.map fun opening => opened opening.1 party opening.2) :
        bits ++ [opened recipient party (plainPart meaning.wires wires).bits] =
          (meaning.step (.decode wires recipient)).openings.map fun opening =>
            opened opening.1 party opening.2 := by
      rw [hbits, Meaning.step, List.map_append]
      rfl
    exact .pure fun _ _ hpaired =>
      ⟨⟨hcallers.wires, hbits _ hcallers.bitsA, hbits _ hcallers.bitsB⟩, hpaired⟩
  | trimIdleAllocations =>
    refine (joint_onPoolUnit joint_trimIdleAllocations).bind fun _ _ => ?_
    exact .pure fun _ _ hpaired => ⟨hcallers, hpaired⟩

/-- Calls of both parties. -/
theorem joint_performAll (h : base.abit1.Delivers) (h' : base.abit2.Delivers)
    (hdelta0 : blockLsb deltaA = 1) (hdelta1 : blockLsb1 deltaA = 1)
    (hcallers : CallersPaired deltaA deltaB meaning caller caller') {calls : List SessionCall}
    (hfits : Meaning.FitsAll calls meaning) :
    Joint (SessionPaired deltaA deltaB) (performAll base .alice calls caller)
      (performAll base.peer .bob calls caller')
      fun x alice y bob => CallersPaired deltaA deltaB (calls.foldl Meaning.step meaning) x y ∧
        SessionPaired deltaA deltaB alice bob := by
  induction calls generalizing meaning caller caller' with
  | nil => exact .pure fun _ _ hpaired => ⟨hcallers, hpaired⟩
  | cons call rest ih =>
    refine (joint_perform h h' hdelta0 hdelta1 hcallers hfits.1).bind fun x y =>
      Joint.assume fun hnext => ?_
    exact ih hnext hfits.2

end Calls

/-! ## Whole sessions -/

/-- A session which is set up, serves calls, and ends. -/
def serve {S : Type} [TranscriptIo S] (base : PoolBase S) (party : Role)
    (calls : List SessionCall) :
    SessionM S Caller := do
  setup base
  let caller ← performAll base party calls ⟨[], []⟩
  finish base
  return caller

/-- Both set up their sessions. -/
theorem joint_setup (h : base.abit1.Delivers) (h' : base.abit2.Delivers) :
    Joint (fun alice bob : Ag2pcSession (StreamEnd sha256) =>
      PoolPaired CotFresh deltaA deltaB alice.pool bob.pool)
      (setup base) (setup base.peer) fun _ alice _ bob =>
        SessionPaired deltaA deltaB alice bob := by
  intro alice bob hpaired
  obtain ⟨left, right, a, pool, b, pool', hmeets, hours, htheirs, hpools⟩ :=
    Ag2pcTriplePool.joint_setup h h' _ _ hpaired
  exact ⟨left, right, a, { alice with pool := pool }, b, { bob with pool := pool' }, hmeets,
    hours.zoom within_pool,
    htheirs.zoom within_pool, hpools⟩

/-- Both end their sessions. -/
theorem joint_finish :
    Joint (SessionPaired deltaA deltaB) (finish base) (finish base.peer)
      fun _ alice _ bob => SessionPaired deltaA deltaB alice bob :=
  joint_onPoolUnit (joint_markCotCheckFlushed.bind fun _ _ => joint_endAbits)

/-- Both parties complete a session. -/
theorem joint_serve (h : base.abit1.Delivers) (h' : base.abit2.Delivers)
    (hdelta0 : blockLsb deltaA = 1) (hdelta1 : blockLsb1 deltaA = 1) {calls : List SessionCall}
    (hfits : Meaning.FitsAll calls ⟨[], []⟩) :
    Joint (fun alice bob : Ag2pcSession (StreamEnd sha256) =>
      PoolPaired CotFresh deltaA deltaB alice.pool bob.pool)
      (serve base .alice calls) (serve base.peer .bob calls)
      fun x _ y _ => CallersPaired deltaA deltaB (calls.foldl Meaning.step ⟨[], []⟩) x y := by
  have hnone : CallersPaired deltaA deltaB ⟨[], []⟩ ⟨[], []⟩ ⟨[], []⟩ :=
    ⟨⟨rfl, rfl, fun k _ hk => by cases hk⟩, rfl, rfl⟩
  refine (joint_setup h h').bind fun _ _ => ?_
  refine (joint_performAll h h' hdelta0 hdelta1 hnone hfits).bind fun x y =>
    Joint.assume fun hcallers => ?_
  exact joint_finish.bind fun _ _ => .pure fun _ _ _ => hcallers

/-- A Delta which is normalized is kept. -/
theorem normalizeAg2pcDelta_twice (party : Role) (delta : Block) :
    normalizeAg2pcDelta party (normalizeAg2pcDelta party delta) =
      normalizeAg2pcDelta party delta := by
  have hbyte := normalized_byte (delta[0]?.getD 0)
  cases party with
  | alice =>
    have hfirst : (normalizeAg2pcDelta .alice delta)[0]?.getD 0 = delta[0]?.getD 0 ||| 1 ||| 2 := by
      simp [normalizeAg2pcDelta]
    rw [normalizeAg2pcDelta, hfirst]
    simp only [hbyte.1.2.2]
    simp [normalizeAg2pcDelta]
  | bob =>
    have hfirst :
        (normalizeAg2pcDelta .bob delta)[0]?.getD 0 = (delta[0]?.getD 0 ||| 1) &&& ~~~2 := by
      simp [normalizeAg2pcDelta]
    rw [normalizeAg2pcDelta, hfirst]
    simp only [hbyte.2.2.2]
    simp [normalizeAg2pcDelta]

/-- The session which is made at its streams. -/
def begun (party : Role) (ssp : ℕ) (delta : Block) (draws : PoolDraws) (prgSeed : Block)
    (streams : Ag2pcStreams (StreamEnd sha256)) : Ag2pcSession (StreamEnd sha256) :=
  ⟨started party ssp delta draws streams, .new prgSeed 0, 0⟩

/-- A session can be made at any streams. -/
theorem new_begun (party : Role) (ssp : ℕ) (delta : Block) (draws : PoolDraws) (prgSeed : Block)
    (streams : Ag2pcStreams (StreamEnd sha256)) :
    new party ssp delta draws prgSeed streams =
      .ok (begun party ssp delta draws prgSeed streams) := by
  rw [new, new_eq]
  simp only [begun, started, normalizeAg2pcDelta_twice]
  rfl

/-- Two sessions at the ends of two streams, with base OTs which serve, complete any calls that fit.
In every round each receives on both streams what the other sends. The wires which they hold carry
the plain bits of the calls, and what each of them opens are the plain bits. -/
theorem sessions_evaluate {G : Type} [AddCommGroup G] {curve : P256 G} {r r' : ℕ}
    {seed seed' : Block} {alphas alphas' : ℕ → ℕ} {t t' : G}
    (hserves : CswServes curve r seed alphas t) (hserves' : CswServes curve r' seed' alphas' t')
    (permute : Block → Block → Block) (sha256 : List UInt8 → Value32) (bucketSize : ℕ → ℕ → ℕ)
    (ssp : ℕ) (deltaA deltaB : Block) (drawsA drawsB : PoolDraws) (prgA prgB : Block)
    {calls : List SessionCall} (hfits : Meaning.FitsAll calls ⟨[], []⟩) :
    let base : PoolBase (StreamEnd sha256) :=
      ⟨permute, sha256, .csw curve permute sha256 r seed alphas,
      .csw curve permute sha256 r' seed' alphas', bucketSize⟩
    ∃ (left right : Rounds (List (Event UInt8)))
      (sessionA sessionB alice bob : Ag2pcSession (StreamEnd sha256))
      (ours theirs : Caller), Traffic.Meets left right ∧
      new .alice ssp deltaA drawsA prgA ⟨.fed left.second, .fed left.first⟩ = .ok sessionA ∧
      serve base .alice calls sessionA = .ok ours alice ∧ Drained alice.pool left ∧
      new .bob ssp deltaB drawsB prgB ⟨.fed right.first, .fed right.second⟩ = .ok sessionB ∧
      serve base.peer .bob calls sessionB = .ok theirs bob ∧ Drained bob.pool right ∧
      CallersPaired (normalizeAg2pcDelta .alice deltaA) (normalizeAg2pcDelta .bob deltaB)
        (calls.foldl Meaning.step ⟨[], []⟩) ours theirs := by
  intro base
  obtain ⟨hdelta0, hdelta1⟩ := normalizeAg2pcDelta_bits .alice deltaA
  obtain ⟨left, right, ours, alice, theirs, bob, hmeets, hours, htheirs, hcallers⟩ :=
    @joint_serve _ base _ _ (hserves.delivers permute) (hserves'.delivers permute) hdelta0
      hdelta1 calls hfits
      (begun .alice ssp deltaA drawsA prgA ⟨.new, .new⟩)
        (begun .bob ssp deltaB drawsB prgB ⟨.new, .new⟩)
      (started_paired ssp deltaA deltaB drawsA drawsB)
  have hours' := hours Traffic.none Traffic.none
  have htheirs' := htheirs Traffic.none Traffic.none
  rw [Traffic.append_none, Traffic.none_append] at hours' htheirs'
  exact ⟨left, right, _, _, _, _, ours, theirs, hmeets, new_begun .., hours',
    ⟨rfl, rfl, rfl, rfl⟩, new_begun ..,
    htheirs', ⟨rfl, rfl, rfl, rfl⟩, hcallers⟩

/-- Calls of every kind: both parties' bits go through a program with every kind of gate. -/
def sampleCalls : List SessionCall :=
  [.processInputs [.alice, .bob] [[1], [0]] [[0], [1]], .publicWires [1], .concat [0, 1],
    .runProgram sampleProgram 3 Block.zero, .decode 4 .publicly, .slice 4 1 3,
    .decode 5 (.party .alice),
    .trimIdleAllocations]

/-- A session of all calls, on a small group. -/
theorem sessions_evaluate_five :
    let otBase : OtBase (StreamEnd Value32.ofList) :=
      .csw fiveCurve (fun _ block => block) Value32.ofList 1 Block.zero fun _ => 2
    let base : PoolBase (StreamEnd Value32.ofList) :=
      ⟨fun _ block => block, Value32.ofList, otBase, otBase, fun _ _ => 3⟩
    let draws : PoolDraws := ⟨Block.zero, Block.zero, Block.zero⟩
    ∃ (left right : Rounds (List (Event UInt8)))
      (sessionA sessionB alice bob : Ag2pcSession (StreamEnd Value32.ofList))
        (ours theirs : Caller),
      Traffic.Meets left right ∧
      new .alice 40 Block.zero draws Block.zero ⟨.fed left.second, .fed left.first⟩ = .ok sessionA ∧
      serve base .alice sampleCalls sessionA = .ok ours alice ∧ Drained alice.pool left ∧
      new .bob 40 Block.zero draws Block.zero ⟨.fed right.first, .fed right.second⟩ = .ok sessionB ∧
      serve base.peer .bob sampleCalls sessionB = .ok theirs bob ∧ Drained bob.pool right ∧
      CallersPaired (normalizeAg2pcDelta .alice Block.zero) (normalizeAg2pcDelta .bob Block.zero)
        (sampleCalls.foldl Meaning.step ⟨[], []⟩) ours theirs :=
  sessions_evaluate fiveCurve_serves fiveCurve_serves _ _ _ _ _ _ _ _ _ _
    ⟨⟨rfl, rfl, by decide⟩, trivial, trivial, ⟨by decide, rfl, rfl⟩, fun _ => rfl,
      ⟨by decide, by decide⟩,
      fun _ => rfl, trivial, trivial⟩

end Ag2pcSession

end Shachain2pc
