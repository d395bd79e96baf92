import Shachain2pc.Compat.GammaPass
import Shachain2pc.Compat.HalfGateCorrect

/-!
# An honest run of a program

The passes of the two parties compose: Bob receives the tables Alice sends, Alice the masked
bits Bob returns, and Bob the digest of her check values, which are equal to his. After
every gate the parties' memories satisfy the session invariant at the wires still needed,
and so do the gathered outputs.
-/

namespace Shachain2pc

open SlotAllocation

variable {M : Type} {H : TweakableHash M} {sha256 : List UInt8 → Value32} {R : HonestRun M}
  {plain : List Bool} {k : ℕ}

/-- The wires still needed before gate `k`: the inputs, the last gate's, the outputs, and those
which a later gate reads. -/
def Ag2pcProgram.Needed (program : Ag2pcProgram) (k w : ℕ) : Prop :=
  w < program.numInputs ∨ w + 1 = program.numInputs + k ∨ w ∈ program.outputs ∨
    ∃ i gate, k ≤ i ∧ program.gates[i]? = some gate ∧ w ∈ gate.reads

/-- A needed wire is held in its slot. -/
theorem Ready.held_of_needed {program : Ag2pcProgram} {share : ℕ → AShareBundle}
    {base : Ag2pcRunState M} (h : Ready program share base) {w : ℕ} (hneeded : program.Needed k w) :
    (program.layout base.persist base.lastUse).Held k w ∨ w + 1 = program.numInputs + k := by
  rcases hneeded with hinput | hlast | hout | ⟨i, gate, hk, hgate, hw⟩
  · exact .inl (.inl (h.live.inputs w hinput))
  · exact .inr hlast
  · exact .inl (.inl (h.live.outputs w hout))
  · exact .inl (.inr ((Int.ofNat_le.mpr hk).trans (h.live.lastUse i gate hgate w hw)))

namespace HonestRun

/-- The product shares are those of the shares which the slot passes collect. -/
def CorrectSigma (R : HonestRun M) : Prop :=
  ∀ k < countAnds R.program.gates,
    blockLsb (R.sigmaA.getD k default).mac ^^^ blockLsb (R.sigmaB.getD k default).mac =
      (blockLsb (R.alice.repA.getD k default).mac ^^^ blockLsb (R.bob.repA.getD k default).mac) &&&
        (blockLsb (R.alice.repB.getD k default).mac ^^^ blockLsb (R.bob.repB.getD k default).mac)

/-- Alice is prepared before she garbles. -/
theorem Shared.alice_prepared (h : R.Shared) :
    Prepared R.program R.shareA .alice R.deltaA R.inputsA R.mitc R.sigmaA R.alice :=
  prepared_withSigma h.program h.batchesA h.width

/-- Bob is prepared before he evaluates. -/
theorem Shared.bob_prepared (h : R.Shared) :
    Prepared R.program R.shareB .bob R.deltaB R.inputsB R.mitc R.sigmaB R.bob :=
  prepared_withSigma h.program h.batchesB (h.agree ▸ h.width)

/-- Correct product shares multiply the mask bits of the inputs of each AND gate. -/
theorem Shared.products (h : R.Shared) (hsigma : R.CorrectSigma) : R.Products := by
  intro step hmem
  obtain ⟨hstep, htyp⟩ := List.mem_filter.mp hmem
  have hget := Ag2pcProgram.getElem?_andSteps hstep (of_decide_eq_true htyp)
  have hlt := (List.getElem?_eq_some_iff.mp hget).1
  rw [Ag2pcProgram.andSteps, length_filter_gateSteps] at hlt
  have hrep (f : GateStep → AShareBundle) :
      (R.program.andSteps.map f).getD step.andIndex default = f step := by
    rw [List.getD_eq_getElem?_getD, List.getElem?_map, hget]
    rfl
  have hproduct := hsigma _ hlt
  rwa [h.alice_prepared.repA, h.alice_prepared.repB, h.bob_prepared.repA, h.bob_prepared.repB, hrep,
    hrep, hrep, hrep] at hproduct

/-- Alice's memory before the first gate. -/
theorem Shared.garbling (H : TweakableHash M) (h : R.Shared) :
    GarblerCursor.Garbling H R R.alice 0 0 ⟨R.alice, [], [], 0, []⟩ := by
  have hprepared := h.alice_prepared
  refine ⟨?_, hprepared.ready.init_shares hprepared.ready.held,
    hprepared.ready.init fun w hw => ?_, rfl⟩
  · rw [TweakableHash.after, Function.iterate_zero, id, ← hprepared.mitc]
  · rw [hprepared.labels, label0, Ag2pcProgram.wires_input hw]

/-- Alice's tables reach Bob. -/
theorem Shared.garblerSend (H : TweakableHash M) (h : R.Shared) :
    ∃ cursor, GarblerCursor.Garbling H R R.alice R.program.gates.length
        (countAnds R.program.gates) cursor ∧
      garblerSend H R.program R.alice = (cursor.state, encodeTables (R.tables H)) :=
  garblerSend_spec h.alice_prepared.ready h.program h.alice_prepared.delta h.alice_prepared.sigma
    (h.garbling H)

/-- The second pass of Alice starts from the memory her first pass leaves, with any masked bits. -/
theorem Shared.checkingFrom (h : R.Shared) {cursor : GarblerCursor M}
    (hgarbled : GarblerCursor.Garbling H R R.alice R.program.gates.length
      (countAnds R.program.gates) cursor) (bits : List UInt8) :
    Ready R.program R.shareA { cursor.state with lambdaAnd := bits } ∧
      GammaCursor.CheckingFrom R bits { cursor.state with lambdaAnd := bits } 0 0
        ⟨{ cursor.state with lambdaAnd := bits }, 0, []⟩ := by
  have hprepared := h.alice_prepared
  have hframe := hgarbled.frame
  have hphys : cursor.state.phys = R.alice.phys := by rw [hframe]
  have hpersist : cursor.state.persist = R.alice.persist := by rw [hframe]
  have hready : Ready R.program R.shareA { cursor.state with lambdaAnd := bits } := by
    refine ⟨?_, ?_, ?_, ?_, ?_, fun w hw hp => ?_⟩
    · rw [hframe]
      exact hprepared.ready.numInputs
    · rw [hframe]
      exact hprepared.ready.numAnds
    · rw [hframe]
      exact hprepared.ready.live
    · rw [hframe]
      exact hprepared.ready.apart
    · rw [hframe]
      exact hprepared.ready.phys_input
    · change cursor.state.wireSlot (cursor.state.phys w) = _
      rw [hphys]
      exact hgarbled.shares.final hw (hpersist ▸ hp)
  refine ⟨hready, rfl, hready.init_shares hready.held, hready.init fun w hw => ?_, rfl, rfl⟩
  have hmask := hprepared.masks w (Nat.lt_add_right _ hw) (hprepared.ready.live.inputs w hw)
  rw [hprepared.ready.phys_input w hw, if_pos hw] at hmask
  change cursor.state.maskInput w = _
  rw [maskedFrom, Ag2pcProgram.wires_input hw, hframe]
  exact hmask

/-- Bob's memory before the first gate. -/
theorem Shared.evaluatingOn (H : TweakableHash M) (h : R.Shared) (tables : List GarbledTable)
    (stream : List UInt8) :
    EvaluatorCursor.EvaluatingOn H R tables R.bob 0 0 ⟨R.bob, [], [], 0, 0, [], stream⟩ := by
  have hprepared := h.bob_prepared
  refine ⟨?_, hprepared.ready.init_shares hprepared.ready.held, hprepared.ready.init fun w hw => ?_,
    hprepared.ready.init fun w hw => ?_, rfl, hprepared.lambdaAnd, rfl⟩
  · rw [TweakableHash.after, Function.iterate_zero, id, ← hprepared.mitc]
  · rw [hprepared.evals, evalLabelOn, evalsOn, Ag2pcProgram.wires_input hw]
  · have hmask := hprepared.masks w (Nat.lt_add_right _ hw) (hprepared.ready.live.inputs w hw)
    rw [hprepared.ready.phys_input w hw, if_pos hw] at hmask
    rw [hmask, maskedOn, evalsOn, Ag2pcProgram.wires_input hw]

/-- Bob's memory before the first gate of the honest run. -/
theorem Valid.evaluating (H : TweakableHash M) (h : R.Valid plain) (stream : List UInt8) :
    EvaluatorCursor.Evaluating H R R.bob 0 0 ⟨R.bob, [], [], 0, 0, [], stream⟩ :=
  (EvaluatorCursor.evaluatingOn_tables h.program).mp (h.shared.evaluatingOn H (R.tables H) stream)

/-- The check values of the two parties are equal. -/
theorem Valid.checkA_eq_checkB (H : TweakableHash M) (h : R.Valid plain) (hproducts : R.Products)
    {step : GateStep} (hmem : step ∈ R.program.andSteps) : R.checkA H step = R.checkB H step := by
  obtain ⟨hstep, htyp⟩ := List.mem_filter.mp hmem
  have htyp := of_decide_eq_true htyp
  have hlt : step.andIndex < countAnds R.program.gates := by
    rw [← length_filter_gateSteps 0 0]
    exact (List.getElem?_eq_some_iff.mp (Ag2pcProgram.getElem?_andSteps hstep htyp)).1
  have hindex := (List.getElem?_eq_some_iff.mp (getElem?_of_mem_gateSteps hstep)).1
  have hread := h.program.reads _ _ (getElem?_of_mem_gateSteps hstep)
  have h0 := h.wire H hproducts ((hread _ step.gate.right_mem.1).trans
    (Nat.add_lt_add_left hindex _))
  have h1 := h.wire H hproducts ((hread _ step.gate.right_mem.2).trans
    (Nat.add_lt_add_left hindex _))
  have hout := h.wire H hproducts (Nat.add_lt_add_left hindex R.program.numInputs)
  have hlabel := label0_gate (H := H) h.program hstep
  have heval := evals_gate (H := H) h.program hstep
  simp only [labelFn, evalFn, htyp] at hlabel heval
  have hfirst := congrArg Prod.fst heval
  have hsecond := congrArg Prod.snd heval
  dsimp only at hfirst hsecond
  rw [← hfirst] at hsecond
  rw [checkA, checkB, masked, masked, masked, hsecond]
  exact checkValue_eq h0 h1 (h.sigma _ hlt) hout.pair h.delta1 hlabel hfirst

/-- The first gates are steps of the program. -/
theorem mem_gateSteps_of_take {gates : List Ag2pcProgramGate} {step : GateStep}
    (hmem : step ∈ gateSteps 0 0 (gates.take k)) : step ∈ gateSteps 0 0 gates := by
  rw [gateSteps_take] at hmem
  exact List.mem_of_mem_take hmem

/-- The memories of the two parties after the first gates. -/
theorem Valid.memoryAt (H : TweakableHash M) (h : R.Valid plain) (hk : k ≤ R.program.gates.length) :
    ∃ alice bob, R.aliceAt H k = alice.state ∧ R.bobAt H k = some bob.state ∧
      GarblerCursor.Garbling H R R.alice k (countAnds (R.program.gates.take k)) alice ∧
      EvaluatorCursor.Evaluating H R R.bob k (countAnds (R.program.gates.take k)) bob := by
  have hlength : (R.program.gates.take k).length = k := List.length_take_of_le hk
  have hsending : GarblerCursor.Sending (R.tables H) 0 ⟨R.alice, [], [], 0, []⟩ :=
    ⟨[], rfl, rfl, by decide, fun rest => rfl⟩
  have hreceiving : EvaluatorCursor.Receiving (R.tables H) 0
      ⟨R.bob, [], [], 0, 0, [], encodeTables (R.tables H)⟩ :=
    ⟨[], R.tables H, rfl, rfl, le_rfl, rfl, rfl⟩
  have halice :=
    ((h.shared.garbling H).gates h.shared.alice_prepared.ready h.program
      h.shared.alice_prepared.delta
    h.shared.alice_prepared.sigma hsending fun _ hmem => mem_gateSteps_of_take (k := k) hmem).1
  obtain ⟨bob, hgates, hbob, -⟩ := (h.evaluating H _).gates h.shared.bob_prepared.ready h.program
    h.shared.bob_prepared.delta h.shared.bob_prepared.sigma hreceiving
    fun _ hmem => mem_gateSteps_of_take (k := k) hmem
  obtain ⟨cursor, -, hsent⟩ := h.shared.garblerSend H
  rw [Nat.zero_add, Nat.zero_add, hlength] at halice hbob
  refine ⟨_, bob, rfl, ?_, halice, hbob⟩
  rw [bobAt, hsent, hgates]
  rfl

/-- After each gate, the memories of the two parties satisfy the session invariant at the wires
still needed. -/
theorem Valid.validWire_at (H : TweakableHash M) (h : R.Valid plain) (hproducts : R.Products)
    (hk : k ≤ R.program.gates.length) :
    ∃ bob, R.bobAt H k = some bob ∧ ∀ w < R.program.numInputs + k, R.program.Needed k w →
      ValidWire R.deltaA R.deltaB ((R.aliceAt H k).wslot w) (bob.wslot w) ((R.aliceAt H k).lbl w)
        (bob.evl w) (bob.minp w) (R.program.plainWires plain w) := by
  obtain ⟨alice, bob, halice, hbob, hgarbling, hevaluating⟩ := h.memoryAt H hk
  have hphysA : alice.state.phys = R.alice.phys := by rw [hgarbling.frame]
  have hphysB : bob.state.phys = R.bob.phys := by rw [hevaluating.frame]
  refine ⟨bob.state, hbob, fun w hw hneeded => ?_⟩
  have hlt : w < R.program.numInputs + R.program.gates.length := by omega
  have hneededA := h.shared.alice_prepared.ready.held_of_needed hneeded
  have hneededB := h.shared.bob_prepared.ready.held_of_needed hneeded
  have hvalid := h.wire H hproducts hlt
  rw [ValidAt, ← hgarbling.shares w hlt (.inr ⟨hw, hneededA⟩),
    ← hgarbling.labels w hlt (.inr ⟨hw, hneededA⟩),
    ← hevaluating.shares w hlt (.inr ⟨hw, hneededB⟩),
    ← hevaluating.labels w hlt (.inr ⟨hw, hneededB⟩),
    ← hevaluating.masks w hlt (.inr ⟨hw, hneededB⟩), ← hphysA, ← hphysB] at hvalid
  rw [halice]
  exact hvalid

/-- The second pass of Alice starts from the memory her first pass leaves. -/
theorem Valid.checking (h : R.Valid plain) {cursor : GarblerCursor M}
    (hgarbled : GarblerCursor.Garbling H R R.alice R.program.gates.length
      (countAnds R.program.gates) cursor) :
    Ready R.program R.shareA { cursor.state with lambdaAnd := R.andBits H } ∧
      GammaCursor.Checking H R { cursor.state with lambdaAnd := R.andBits H } 0 0
        ⟨{ cursor.state with lambdaAnd := R.andBits H }, 0, []⟩ := by
  obtain ⟨hready, hchecking⟩ := h.shared.checkingFrom hgarbled (R.andBits H)
  exact ⟨hready, (GammaCursor.checkingFrom_andBits h.program h.agree).mp hchecking⟩

/-- All AND gates are counted. -/
theorem take_andSteps (A : Type) (f : GateStep → A) :
    (R.program.andSteps.take (countAnds R.program.gates)).map f = R.program.andSteps.map f := by
  have hall : R.program.andSteps.length ≤ countAnds R.program.gates :=
    (length_filter_gateSteps 0 0 R.program.gates).le
  rw [List.take_of_length_le hall]

/-- Alice receives the masked bits, and sends the digest of her check values. -/
theorem Valid.garblerCheck (h : R.Valid plain) (sha256 : List UInt8 → Value32)
    (hands : 0 < countAnds R.program.gates) {garbled : GarblerCursor M}
    (hgarbled : GarblerCursor.Garbling H R R.alice R.program.gates.length
      (countAnds R.program.gates) garbled) :
    ∃ cursor, GammaCursor.Checking H R { garbled.state with lambdaAnd := R.andBits H }
        R.program.gates.length (countAnds R.program.gates) cursor ∧
      garblerCheck sha256 R.program garbled.state (packBools (R.andBits H)) =
        some (cursor.state,
          (sha256 (macBytes (R.program.andSteps.map (R.checkA H)))).bytes.toList) := by
  obtain ⟨hready, hstart⟩ := h.checking hgarbled
  have hsigma : ({ garbled.state with lambdaAnd := R.andBits H } : Ag2pcRunState M).sigma =
      R.sigmaA := by
    rw [hgarbled.frame]
    exact h.shared.alice_prepared.sigma
  have hchecking := hstart.gates hready h.program h.agree hsigma rfl fun _ hmem => hmem
  rw [Nat.zero_add, Nat.zero_add] at hchecking
  have hnum : garbled.state.numAnds = (R.andBits H).length := by
    rw [hgarbled.frame, andBits, List.length_map, Ag2pcProgram.andSteps, length_filter_gateSteps,
      ← h.shared.alice_prepared.ready.numAnds]
  have hbits : ∀ b ∈ R.andBits H, b &&& 1 = b := by
    intro b hb
    obtain ⟨step, hmem, rfl⟩ := List.mem_map.mp hb
    exact masked_and_one h.program (List.mem_filter.mp hmem).1
  have hpos : 0 < garbled.state.numAnds := by
    rw [hgarbled.frame]
    exact hands.trans_eq h.shared.alice_prepared.ready.numAnds.symm
  have hrecv := recvBoolVector_append hbits []
  rw [List.append_nil, ← hnum] at hrecv
  refine ⟨_, hchecking, ?_⟩
  rw [Shachain2pc.garblerCheck, if_pos hpos, hrecv, ← take_andSteps, ← hchecking.gamma]
  rfl

/-- Bob receives the digest of Alice's check values, which is that of his own. -/
theorem Valid.evaluatorCheck (h : R.Valid plain) (hproducts : R.Products)
    (sha256 : List UInt8 → Value32) (hands : 0 < countAnds R.program.gates)
    {evaluated : EvaluatorCursor M} (hevaluated : EvaluatorCursor.Evaluating H R R.bob
      R.program.gates.length (countAnds R.program.gates) evaluated)
    (hstream : evaluated.stream = []) :
    evaluatorCheck sha256 evaluated
        (sha256 (macBytes (R.program.andSteps.map (R.checkA H)))).bytes.toList =
      some (.ok evaluated.state) := by
  have hpos : 0 < evaluated.state.numAnds := by
    rw [hevaluated.frame]
    exact hands.trans_eq h.shared.bob_prepared.ready.numAnds.symm
  have hgamma : evaluated.gamma = macBytes (R.program.andSteps.map (R.checkA H)) := by
    rw [hevaluated.gamma, take_andSteps]
    exact congrArg macBytes
      (List.map_congr_left fun step hmem => (h.checkA_eq_checkB H hproducts hmem).symm)
  have hrecv := recvData_append
    (sha256 (macBytes (R.program.andSteps.map (R.checkA H)))).bytes.toList []
  rw [List.append_nil, Vector.length_toList] at hrecv
  rw [Shachain2pc.evaluatorCheck, if_pos hpos, hstream, List.nil_append, hrecv, hgamma]
  simp only [Option.bind_eq_bind, Option.bind_some, ne_eq, not_true_eq_false, if_false]
  rfl

/-- What Bob holds at the outputs. -/
theorem Valid.evaluated_outputs (h : R.Valid plain) {evaluated : EvaluatorCursor M}
    (hevaluated : EvaluatorCursor.Evaluating H R R.bob R.program.gates.length
      (countAnds R.program.gates) evaluated) {w : ℕ} (hw : w ∈ R.program.outputs) :
    evaluated.state.wslot w = R.shareB w ∧ evaluated.state.evl w = R.evalLabel H w ∧
      evaluated.state.minp w = R.masked H w := by
  have hlt := h.program.numWires ▸ h.program.outputs w hw
  have hpersist := h.shared.bob_prepared.ready.live.outputs w hw
  have hphys : evaluated.state.phys = R.bob.phys := by rw [hevaluated.frame]
  rw [Ag2pcRunState.wslot, Ag2pcRunState.evl, Ag2pcRunState.minp, hphys]
  exact ⟨hevaluated.shares.final hlt hpersist, hevaluated.labels.final hlt hpersist,
    hevaluated.masks.final hlt hpersist⟩

/-- What Alice holds at the outputs after her first pass: the masked bits are placeholders. -/
theorem Valid.garbled_outputs (h : R.Valid plain) {garbled : GarblerCursor M}
    (hgarbled : GarblerCursor.Garbling H R R.alice R.program.gates.length
      (countAnds R.program.gates) garbled) {w : ℕ} (hw : w ∈ R.program.outputs) :
    garbled.state.wslot w = R.shareA w ∧ garbled.state.lbl w = R.label0 H w ∧
      garbled.state.minp w =
        if w < R.program.numInputs then R.inputsA.lambda.getD w 0 else 0 := by
  have hlt := h.program.numWires ▸ h.program.outputs w hw
  have hpersist := h.shared.alice_prepared.ready.live.outputs w hw
  have hphys : garbled.state.phys = R.alice.phys := by rw [hgarbled.frame]
  have hmask : garbled.state.maskInput = R.alice.maskInput := by rw [hgarbled.frame]
  rw [Ag2pcRunState.wslot, Ag2pcRunState.lbl, Ag2pcRunState.minp, hphys, hmask]
  exact ⟨hgarbled.shares.final hlt hpersist, hgarbled.labels.final hlt hpersist,
    h.shared.alice_prepared.masks w hlt hpersist⟩

/-- What Alice holds at the outputs after her second pass. -/
theorem Valid.checked_outputs (h : R.Valid plain) {garbled : GarblerCursor M}
    {checked : GammaCursor M} (hgarbled : GarblerCursor.Garbling H R R.alice
      R.program.gates.length (countAnds R.program.gates) garbled)
    (hchecked : GammaCursor.Checking H R { garbled.state with lambdaAnd := R.andBits H }
      R.program.gates.length (countAnds R.program.gates) checked) {w : ℕ}
    (hw : w ∈ R.program.outputs) :
    checked.state.wslot w = R.shareA w ∧ checked.state.lbl w = R.label0 H w ∧
      checked.state.minp w = R.masked H w := by
  have hlt := h.program.numWires ▸ h.program.outputs w hw
  have hpersist : garbled.state.persist w := by
    rw [hgarbled.frame]
    exact h.shared.alice_prepared.ready.live.outputs w hw
  have hphys : checked.state.phys = garbled.state.phys := by rw [hchecked.frame]
  have hlabel : checked.state.labelSlot = garbled.state.labelSlot := by rw [hchecked.frame]
  rw [Ag2pcRunState.wslot, Ag2pcRunState.lbl, Ag2pcRunState.minp, hphys, hlabel]
  exact ⟨hchecked.shares.final hlt hpersist, (h.garbled_outputs hgarbled hw).2.1,
    hchecked.masks.final hlt hpersist⟩

/-- The two parties go through, and hold the values of the honest run at the outputs; without AND
gates Alice's masked bits are placeholders. -/
theorem Valid.halfGateRun (H : TweakableHash M) (sha256 : List UInt8 → Value32) (h : R.Valid plain)
    (hproducts : R.Products) :
    ∃ a b, halfGateRun H sha256 R.program R.alice R.bob = some (.ok (a, b)) ∧
      a.party = .alice ∧ b.party = .bob ∧ ∀ w ∈ R.program.outputs,
        (a.wslot w = R.shareA w ∧ a.lbl w = R.label0 H w ∧
          a.minp w = if 0 < countAnds R.program.gates then R.masked H w
            else if w < R.program.numInputs then R.inputsA.lambda.getD w 0 else 0) ∧
        b.wslot w = R.shareB w ∧ b.evl w = R.evalLabel H w ∧ b.minp w = R.masked H w := by
  obtain ⟨garbled, hgarbled, hsend⟩ := h.shared.garblerSend H
  obtain ⟨evaluated, hevaluated, hstream, hreturn⟩ := evaluatorSend_spec h.shared.bob_prepared.ready
    h.program h.shared.bob_prepared.delta h.shared.bob_prepared.sigma
      (h.evaluating H (encodeTables (R.tables H)))
  have hbob : evaluated.state.party = .bob := by
    rw [hevaluated.frame]
    exact h.shared.bob_prepared.party
  have halice : garbled.state.party = .alice := by
    rw [hgarbled.frame]
    exact h.shared.alice_prepared.party
  rw [Shachain2pc.halfGateRun]
  by_cases hands : 0 < countAnds R.program.gates
  · obtain ⟨checked, hchecked, hcheck⟩ := h.garblerCheck sha256 hands hgarbled
    refine ⟨checked.state, evaluated.state, ?_, ?_, hbob, fun w hw => ⟨?_, ?_⟩⟩
    · simp only [hsend, hreturn, if_pos hands, hcheck, Option.bind_eq_bind, Option.bind_some,
        h.evaluatorCheck hproducts sha256 hands hevaluated hstream]
      rfl
    · rw [hchecked.frame]
      exact halice
    · rw [if_pos hands]
      exact h.checked_outputs hgarbled hchecked hw
    · exact h.evaluated_outputs hevaluated hw
  · have hnumA : ¬ 0 < garbled.state.numAnds := by
      rw [hgarbled.frame]
      exact h.shared.alice_prepared.ready.numAnds.symm ▸ hands
    have hnumB : ¬ 0 < evaluated.state.numAnds := by
      rw [hevaluated.frame]
      exact h.shared.bob_prepared.ready.numAnds.symm ▸ hands
    refine ⟨garbled.state, evaluated.state, ?_, halice, hbob, fun w hw => ⟨?_, ?_⟩⟩
    · simp only [hsend, hreturn, if_neg hands, Option.bind_eq_bind, Option.bind_some,
        Shachain2pc.garblerCheck, Shachain2pc.evaluatorCheck, if_neg hnumA, if_neg hnumB]
      rfl
    · rw [if_neg hands]
      exact h.garbled_outputs hgarbled hw
    · exact h.evaluated_outputs hevaluated hw

/-- The masked bit Alice gathers for an output. -/
def gatheredMask (H : TweakableHash M) (R : HonestRun M) (w : ℕ) : UInt8 :=
  if 0 < countAnds R.program.gates then R.masked H w
  else if w < R.program.numInputs then R.inputsA.lambda.getD w 0 else 0

/-- Both parties accept their inputs. -/
theorem Valid.run_eq (H : TweakableHash M) (sha256 : List UInt8 → Value32) (h : R.Valid plain) :
    R.run H sha256 = (Shachain2pc.halfGateRun H sha256 R.program R.alice R.bob).map fun result =>
      (result.mapError .compat).map fun states =>
        (gatherOutputs states.1 R.program, gatherOutputs states.2 R.program) := by
  have hi := h.inputs
  have halice : startRun R.drawA R.program .alice R.deltaA R.inputsA R.mitc =
      .ok (slottedRun R.drawA R.program .alice R.deltaA R.inputsA R.mitc) := by
    rw [startRun, checkSecureWires, if_neg (not_not.mpr (hi.bundleA.trans hi.lambdaA.symm)),
      if_neg (not_not.mpr (hi.lambdaA.trans h.width))]
    simp only [if_neg (not_not.mpr (hi.label0.trans hi.lambdaA.symm))]
    rfl
  have hbob : startRun R.drawB R.program .bob R.deltaB R.inputsB R.mitc =
      .ok (slottedRun R.drawB R.program .bob R.deltaB R.inputsB R.mitc) := by
    rw [startRun, checkSecureWires, if_neg (not_not.mpr (hi.bundleB.trans hi.lambdaB.symm)),
      if_neg (not_not.mpr (hi.lambdaB.trans h.width))]
    simp only [if_neg (not_not.mpr (hi.evalLabel.trans hi.lambdaB.symm))]
    rfl
  rw [run, halice, hbob]
  rfl

/-- What the two parties gather. -/
theorem Valid.run (H : TweakableHash M) (sha256 : List UInt8 → Value32) (h : R.Valid plain)
    (hsigma : R.CorrectSigma) :
    R.run H sha256 = some (.ok
      (⟨R.program.outputs.map (R.gatheredMask H), R.program.outputs.map R.shareA,
          R.program.outputs.map (R.label0 H), []⟩,
        ⟨R.program.outputs.map (R.masked H), R.program.outputs.map R.shareB, [],
          R.program.outputs.map (R.evalLabel H)⟩)) := by
  obtain ⟨a, b, hrun, halice, hbob, houtputs⟩ := h.halfGateRun H sha256 (h.shared.products hsigma)
  rw [h.run_eq, hrun]
  simp only [Option.map_some, Except.mapError, Except.map, gatherOutputs, halice, hbob]
  rw [List.map_congr_left fun w hw => (houtputs w hw).1.1,
    List.map_congr_left fun w hw => (houtputs w hw).1.2.1,
    List.map_congr_left fun w hw => (houtputs w hw).1.2.2,
    List.map_congr_left fun w hw => (houtputs w hw).2.1,
    List.map_congr_left fun w hw => (houtputs w hw).2.2.1,
    List.map_congr_left fun w hw => (houtputs w hw).2.2.2]
  rfl

/-- The gathered outputs satisfy the session invariant with the plain evaluation of the program. -/
theorem Valid.outputs (H : TweakableHash M) (h : R.Valid plain) (hproducts : R.Products)
    (lambda : ℕ → UInt8) :
    ValidWires R.deltaA R.deltaB
      ⟨R.program.outputs.map lambda, R.program.outputs.map R.shareA,
        R.program.outputs.map (R.label0 H), []⟩
      ⟨R.program.outputs.map (R.masked H), R.program.outputs.map R.shareB, [],
        R.program.outputs.map (R.evalLabel H)⟩
      (R.program.evalPlain plain) := by
  have hlength {A B : Type} (f : ℕ → A) (g : ℕ → B) :
      (R.program.outputs.map f).length = (R.program.outputs.map g).length := by
    rw [List.length_map, List.length_map]
  refine ⟨hlength _ _, hlength _ _, hlength _ _, hlength _ _, hlength _ _, hlength _ _,
    fun j hj => ?_⟩
  rw [Ag2pcProgram.evalPlain, List.length_map] at hj
  have hget {A : Type} (f : ℕ → A) (fill : A) :
      (R.program.outputs.map f).getD j fill = f R.program.outputs[j] := by
    rw [List.getD_eq_getElem _ _ (by rwa [List.length_map]), List.getElem_map]
  have hlt := h.program.numWires ▸ h.program.outputs _ (List.getElem_mem hj)
  rw [Ag2pcProgram.evalPlain, hget, hget, hget, hget, hget, hget]
  exact h.wire H hproducts hlt

end HonestRun

/-- Authenticated half-gate evaluation is correct: after every gate the parties' memories satisfy
the session invariant at the wires still needed, no check fails, and the outputs satisfy the
invariant with the plain evaluation of the program. -/
theorem honestRun_correct (H : TweakableHash M) (sha256 : List UInt8 → Value32) (R : HonestRun M)
    (plain : List Bool) (h : R.Valid plain) (hsigma : R.CorrectSigma) :
    (∀ k ≤ R.program.gates.length, ∃ bob, R.bobAt H k = some bob ∧
      ∀ w < R.program.numInputs + k, R.program.Needed k w →
        ValidWire R.deltaA R.deltaB ((R.aliceAt H k).wslot w) (bob.wslot w)
          ((R.aliceAt H k).lbl w) (bob.evl w) (bob.minp w) (R.program.plainWires plain w)) ∧
    ∃ a b, R.run H sha256 = some (.ok (a, b)) ∧
      ValidWires R.deltaA R.deltaB a b (R.program.evalPlain plain) :=
  ⟨fun _ hk => h.validWire_at H (h.shared.products hsigma) hk,
    _, _, h.run H sha256 hsigma, h.outputs H (h.shared.products hsigma) _⟩

/-- A hash which adds the number of the call. -/
def countingHash : TweakableHash ℕ where
  hash calls blocks := (blocks.map (blockXor (Block.make 0 (UInt64.ofNat calls))), calls + 1)
  tweak calls := blockXor (Block.make 0 (UInt64.ofNat calls))
  next calls := calls + 1
  hash_eq _ _ := rfl

/-- An honest run of a program with two inputs, each party masking one of them. -/
def sampleRun (program : Ag2pcProgram) : HonestRun ℕ where
  program := program
  deltaA := Block.make 0 3
  deltaB := Block.make 0 1
  inputsA := ⟨[1, 0], [⟨Block.make 0 1, Block.zero⟩, default], [Block.zero, Block.zero], []⟩
  inputsB := ⟨[1, 0], [default, ⟨Block.make 0 3, Block.zero⟩], [], [Block.make 0 3, Block.zero]⟩
  drawA := fun _ => List.replicate drawBatch default
  drawB := fun _ => List.replicate drawBatch default
  sigmaA := [⟨Block.make 0 1, Block.zero⟩]
  sigmaB := []
  mitc := 0

/-- A program with every kind of gate. -/
def sampleProgram : Ag2pcProgram :=
  ⟨2, 5, [2, 3, 4], [⟨.and, 0, 1⟩, ⟨.xor, 2, 0⟩, ⟨.inv, 3, 0⟩]⟩

/-- Every share drawn from batches of zero shares is a zero share. -/
theorem drawnShare_replicate (k : ℕ) :
    drawnShare (fun _ => List.replicate drawBatch default) k = default := by
  rw [drawnShare, List.getD_replicate]
  exact Nat.mod_lt _ (by decide)

/-- The sample run starts from valid inputs. -/
theorem sampleRun_valid {program : Ag2pcProgram} (hwf : program.WellFormed)
    (hinputs : program.numInputs = 2) :
    (sampleRun program).Valid [false, true] := by
  have hdefault :
      AuthenticatedPair (Block.make 0 3) (Block.make 0 1) default default := by decide +kernel
  have hinput : ∀ w < 2, ValidWire (Block.make 0 3) (Block.make 0 1)
      ((sampleRun sampleProgram).inputsA.wireBundle.getD w default)
      ((sampleRun sampleProgram).inputsB.wireBundle.getD w default)
      ((sampleRun sampleProgram).inputsA.label0.getD w Block.zero)
      ((sampleRun sampleProgram).inputsB.evalLabel.getD w Block.zero)
      ((sampleRun sampleProgram).inputsB.lambda.getD w 0)
        ([false, true].getD w false) := by decide +kernel
  have hsigma (k : ℕ) : AuthenticatedPair (Block.make 0 3) (Block.make 0 1)
      ((sampleRun sampleProgram).sigmaA.getD k default)
      ((sampleRun sampleProgram).sigmaB.getD k default) := by
    cases k with
    | zero => decide +kernel
    | succ k => exact hdefault
  have hdrawn (k : ℕ) : AuthenticatedPair (Block.make 0 3) (Block.make 0 1)
      (drawnShare (sampleRun program).drawA k) (drawnShare (sampleRun program).drawB k) := by
    rw [sampleRun, drawnShare_replicate]
    exact hdefault
  exact ⟨hwf, hinputs.symm, ⟨rfl, rfl, rfl, rfl, rfl, rfl, hinput⟩, rfl,
    (by decide : blockLsb (Block.make 0 3) = 1), (by decide : blockLsb1 (Block.make 0 3) = 1),
    fun _ => List.length_replicate, fun _ => List.length_replicate, hdrawn, fun k _ => hsigma k⟩

/-- Its product shares are correct. -/
theorem sampleRun_correctSigma : (sampleRun sampleProgram).CorrectSigma := by
  have hvalid : (sampleRun sampleProgram).Valid [false, true] := sampleRun_valid (by decide) rfl
  intro k hk
  obtain rfl : k = 0 := Nat.lt_one_iff.mp hk
  rw [hvalid.shared.alice_prepared.repA, hvalid.shared.alice_prepared.repB,
    hvalid.shared.bob_prepared.repA, hvalid.shared.bob_prepared.repB]
  decide

/-- The gates of the sample program are evaluated correctly. -/
theorem honestRun_correct_sample :
    (∀ k ≤ 3, ∃ bob, (sampleRun sampleProgram).bobAt countingHash k = some bob ∧
      ∀ w < 2 + k, sampleProgram.Needed k w →
        ValidWire (Block.make 0 3) (Block.make 0 1)
          (((sampleRun sampleProgram).aliceAt countingHash k).wslot w) (bob.wslot w)
          (((sampleRun sampleProgram).aliceAt countingHash k).lbl w) (bob.evl w) (bob.minp w)
          (sampleProgram.plainWires [false, true] w)) ∧
    ∃ a b, (sampleRun sampleProgram).run countingHash Value32.ofList = some (.ok (a, b)) ∧
      ValidWires (Block.make 0 3) (Block.make 0 1) a b (sampleProgram.evalPlain [false, true]) :=
  honestRun_correct countingHash Value32.ofList (sampleRun sampleProgram) [false, true]
    (sampleRun_valid (by decide) rfl) sampleRun_correctSigma

end Shachain2pc
