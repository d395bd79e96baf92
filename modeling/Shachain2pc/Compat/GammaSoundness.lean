import Shachain2pc.Compat.HalfGateRun

/-!
# What the gamma check proves

Bob evaluates whatever tables he receives. Alice recomputes the masked bits from those which
Bob returns, and hashes her check values. Her digest is Bob's if and only if each masked bit
which Bob holds for the output of an AND gate is the masked product of the gate's inputs, as
long as Alice sends single permutation bits: Bob keeps the lowest bit of the byte he stores,
but returns a set bit for every byte which is not zero.
-/

namespace Shachain2pc

open AuthenticatedBits HalfGate

variable {M : Type} {H : TweakableHash M} {R : HonestRun M} {tables : List GarbledTable}

namespace HonestRun

/-- The mask bit of a wire. -/
def maskBit (R : HonestRun M) (w : ℕ) : UInt8 :=
  blockLsb (R.shareA w).mac ^^^ blockLsb (R.shareB w).mac

/-- Bob after the first gates, on the tables he receives. -/
def bobOn (H : TweakableHash M) (R : HonestRun M) (tables : List GarbledTable) (k : ℕ) :
    Option (Ag2pcRunState M) :=
  (EvaluatorCursor.gates H 0 (R.program.gates.take k)
    ⟨R.bob, [], [], 0, 0, [], encodeTables tables⟩).map (·.state)

/-- Alice's second pass on the masked bits she receives. -/
def checkedOn (H : TweakableHash M) (R : HonestRun M) (bits : List UInt8) : GammaCursor M :=
  GammaCursor.gates 0 R.program.gates
    ⟨{ (Shachain2pc.garblerSend H R.program R.alice).1 with lambdaAnd := bits }, 0, []⟩

/-- The masked bit which Bob holds for the output of an AND gate is the product of the bits he holds
for its inputs, each without its mask, under the mask of the output. -/
def GateHolds (H : TweakableHash M) (R : HonestRun M) (tables : List GarbledTable)
    (step : GateStep) :
    Prop :=
  ∃ before after, R.bobOn H tables step.index = some before ∧
    R.bobOn H tables (step.index + 1) = some after ∧
    after.minp (R.program.numInputs + step.index) =
      (((before.minp step.gate.in0 ^^^ R.maskBit step.gate.in0) &&&
        (before.minp step.gate.in1 ^^^ R.maskBit step.gate.in1)) ^^^
          R.maskBit (R.program.numInputs + step.index)) &&& 1

/-- The mask shares of every wire are authenticated. -/
theorem Shared.pair (h : R.Shared) {w : ℕ} (hw : w < R.program.numInputs + R.program.gates.length) :
    AuthenticatedPair R.deltaA R.deltaB (R.shareA w) (R.shareB w) := by
  induction w using Nat.strong_induction_on with
  | _ w ih =>
    by_cases hinput : w < R.program.numInputs
    · simp only [shareA, shareB, Ag2pcProgram.shares, Ag2pcProgram.wires_input hinput]
      exact h.inputs w hinput
    · obtain ⟨step, hstep, hindex⟩ := exists_mem_gateSteps 0 0 R.program.gates
        (show w - R.program.numInputs < R.program.gates.length by omega)
      have hread := h.program.reads _ _ (getElem?_of_mem_gateSteps hstep)
      have hlt0 := hread _ step.gate.right_mem.1
      have hlt1 := hread _ step.gate.right_mem.2
      have h0 := ih step.gate.in0 (by omega) (by omega)
      have h1 := ih step.gate.right (by omega) (by omega)
      obtain rfl : w = R.program.numInputs + step.index := by omega
      have hshareA := shareA_gate h.program hstep
      have hshareB := shareB_gate h.program hstep
      rw [GateStep.share] at hshareA hshareB
      rw [hshareA, hshareB]
      cases htyp : step.gate.typ with
      | and => exact h.drawn step.andIndex
      | xor => exact h0.xor h1
      | inv => exact h0

/-- The parties' check values of an AND gate are equal if and only if the stored byte has the masked
product as its low bit. -/
theorem Shared.checkFrom_eq_checkOn_iff (h : R.Shared) (hproducts : R.Products)
    (hdelta : R.deltaB ≠ Block.zero) {step : GateStep} (hmem : step ∈ R.program.andSteps)
    {bits : List UInt8} (h0 : R.maskedFrom bits step.gate.in0 = R.maskedOn H tables step.gate.in0)
    (h1 : R.maskedFrom bits step.gate.right = R.maskedOn H tables step.gate.right) :
    R.checkFrom bits step = R.checkOn H tables step ↔
      R.maskedOn H tables (R.program.numInputs + step.index) =
        (((R.maskedOn H tables step.gate.in0 ^^^ R.maskBit step.gate.in0) &&&
          (R.maskedOn H tables step.gate.right ^^^ R.maskBit step.gate.right)) ^^^
            R.maskBit (R.program.numInputs + step.index)) &&& 1 := by
  obtain ⟨hstep, htyp⟩ := List.mem_filter.mp hmem
  have htyp := of_decide_eq_true htyp
  have hindex := (List.getElem?_eq_some_iff.mp (getElem?_of_mem_gateSteps hstep)).1
  have hread := h.program.reads _ _ (getElem?_of_mem_gateSteps hstep)
  have hlt0 := hread _ step.gate.right_mem.1
  have hlt1 := hread _ step.gate.right_mem.2
  have hand : step.andIndex < countAnds R.program.gates := by
    rw [← length_filter_gateSteps 0 0]
    exact (List.getElem?_eq_some_iff.mp (Ag2pcProgram.getElem?_andSteps hstep htyp)).1
  have hdelta' : blockVec R.deltaB ≠ 0 := by
    rw [← blockVec_zero]
    exact blockVec_injective.ne hdelta
  have hbyte : R.andByteOn H tables step &&& 1 = _ := andByteOn_and_one h.program hstep htyp
  have hsingle : R.maskedOn H tables (R.program.numInputs + step.index) &&& 1 =
      R.maskedOn H tables (R.program.numInputs + step.index) := by
    rw [← hbyte, UInt8.and_assoc, UInt8.and_self]
  have hbits := congrArg (fun b => bitAt b 0) (hproducts step hmem)
  simp only [bitAt_xor, bitAt_and, bitAt_blockLsb] at hbits
  have hlow : bitAt (R.andByteOn H tables step) 0 =
      bitAt (R.maskedOn H tables (R.program.numInputs + step.index)) 0 := by
    rw [← hbyte, bitAt_and, bitAt_one_zero, mul_one]
  have hunmask (masked mask : ZMod 2) : masked = masked + mask + mask := by
    rw [add_assoc, CharTwo.add_self_eq_zero, add_zero]
  rw [← blockVec_injective.eq_iff, checkFrom, checkOn, h0, h1, blockVec_garblerCheckValue,
    blockVec_evaluatorCheckValue,
    checkLeft_eq_checkRight_iff (authenticatedPair_iff.mp (h.pair (by omega)))
      (authenticatedPair_iff.mp (h.pair (by omega))) (authenticatedPair_iff.mp (h.sigma _ hand))
      (authenticatedPair_iff.mp (h.pair (by omega))) hdelta',
    bit_eq_iff hsingle (by rw [UInt8.and_assoc, UInt8.and_self]), hlow,
    outMasked_eq (hunmask _ _) (hunmask _ _) hbits]
  simp only [maskBit, bitAt_xor, bitAt_and, bitAt_blockLsb, bitAt_one_zero, mul_one]
  rfl

/-- Bob's memory after the first gates. -/
theorem Shared.bobOn_spec (H : TweakableHash M) (h : R.Shared)
    (hlength : tables.length = countAnds R.program.gates) {k : ℕ}
    (hk : k ≤ R.program.gates.length) :
    ∃ cursor, R.bobOn H tables k = some cursor.state ∧
      EvaluatorCursor.EvaluatingOn H R tables R.bob k
        (countAnds (R.program.gates.take k)) cursor := by
  have hprepared := h.bob_prepared
  have hreceiving : EvaluatorCursor.Receiving tables 0
      ⟨R.bob, [], [], 0, 0, [], encodeTables tables⟩ :=
    ⟨[], tables, rfl, rfl, le_rfl, rfl, rfl⟩
  obtain ⟨cursor, hgates, hcursor, -⟩ := (h.evaluatingOn H tables _).gates hlength hprepared.ready
    h.program hprepared.delta hprepared.sigma hreceiving
    fun _ hmem => mem_gateSteps_of_take (k := k) hmem
  rw [Nat.zero_add, Nat.zero_add, List.length_take_of_le hk] at hcursor
  refine ⟨cursor, ?_, hcursor⟩
  rw [bobOn, hgates]
  rfl

/-- A gate holds if and only if the masked bits of its wires do. -/
theorem Shared.gateHolds_iff (h : R.Shared) (hlength : tables.length = countAnds R.program.gates)
    {step : GateStep} (hmem : step ∈ R.program.andSteps) :
    R.GateHolds H tables step ↔
      R.maskedOn H tables (R.program.numInputs + step.index) =
        (((R.maskedOn H tables step.gate.in0 ^^^ R.maskBit step.gate.in0) &&&
          (R.maskedOn H tables step.gate.right ^^^ R.maskBit step.gate.right)) ^^^
            R.maskBit (R.program.numInputs + step.index)) &&& 1 := by
  obtain ⟨hstep, htyp⟩ := List.mem_filter.mp hmem
  have hgate := getElem?_of_mem_gateSteps hstep
  rw [Nat.sub_zero] at hgate
  have hindex := (List.getElem?_eq_some_iff.mp hgate).1
  obtain ⟨before, hbefore, hreading⟩ := h.bobOn_spec H hlength hindex.le
  obtain ⟨after, hafter, hwritten⟩ := h.bobOn_spec H hlength hindex
  have hready := h.bob_prepared.ready
  have hm0 := (hreading.read hready h.program hgate step.gate.right_mem.1).2.2
  have hm1 := (hreading.read hready h.program hgate step.gate.right_mem.2).2.2
  have hphys : after.state.phys = R.bob.phys := by rw [hwritten.frame]
  have hout : after.state.minp (R.program.numInputs + step.index) =
      R.maskedOn H tables (R.program.numInputs + step.index) := by
    have hlt : R.program.numInputs + step.index < R.program.numInputs + (step.index + 1) := by omega
    rw [Ag2pcRunState.minp, hphys]
    exact hwritten.masks _ (Nat.add_lt_add_left hindex _) (.inr ⟨hlt, .inr (Nat.add_assoc _ _ _)⟩)
  have hright : step.gate.right = step.gate.in1 := by
    simp [Ag2pcProgramGate.right, of_decide_eq_true htyp]
  rw [GateHolds, hbefore, hafter]
  constructor
  · rintro ⟨first, last, hfirst, hlast, hholds⟩
    obtain rfl := Option.some.inj hfirst
    obtain rfl := Option.some.inj hlast
    rwa [hout, hm0, ← hright, hm1] at hholds
  · intro hholds
    refine ⟨_, _, rfl, rfl, ?_⟩
    rwa [hout, hm0, ← hright, hm1]

/-- Single permutation bits give single stored bits. -/
theorem andBytesOn_single (hlength : tables.length = countAnds R.program.gates)
    (hbits : ∀ table ∈ tables, table.bit &&& 1 = table.bit) :
    ∀ b ∈ R.andBytesOn H tables, b &&& 1 = b := by
  intro b hb
  obtain ⟨step, hmem, rfl⟩ := List.mem_map.mp hb
  obtain ⟨hstep, htyp⟩ := List.mem_filter.mp hmem
  have hget := Ag2pcProgram.getElem?_andSteps hstep (of_decide_eq_true htyp)
  have hlt : step.andIndex < tables.length := by
    rw [hlength, ← length_filter_gateSteps 0 0]
    exact (List.getElem?_eq_some_iff.mp hget).1
  have htable : (tableOn tables step).bit &&& 1 = (tableOn tables step).bit := by
    rw [tableOn, List.getD_eq_getElem _ _ hlt]
    exact hbits _ (List.getElem_mem hlt)
  exact bit_xor htable (blockLsb1_and_one _)

/-- On the bytes which Bob stores, as single bits, Alice computes his masked bits. -/
theorem Shared.maskedFrom_eq_maskedOn (h : R.Shared) {w : ℕ}
    (hw : w < R.program.numInputs + R.program.gates.length) :
    R.maskedFrom (R.andBytesOn H tables) w = R.maskedOn H tables w := by
  refine (maskedFrom_eq h.program (fun w hw => ?_) (fun step hstep => ?_) hw).symm
  · rw [maskedOn, evalsOn, Ag2pcProgram.wires_input hw, h.agree]
  · have heval := congrArg Prod.snd (evalsOn_gate h.program hstep : R.evalsOn H tables _ = _)
    rw [maskFnFrom]
    cases htyp : step.gate.typ with
    | and =>
      have hget := Ag2pcProgram.getElem?_andSteps hstep htyp
      simp only [andBytesOn, List.getD_eq_getElem?_getD, List.getElem?_map, hget]
      exact (andByteOn_and_one h.program hstep htyp).symm
    | xor =>
      simp only [evalFnOn, htyp] at heval
      exact heval
    | inv =>
      simp only [evalFnOn, htyp] at heval
      exact heval

/-- The check values of all AND gates on the masked bits Alice receives. -/
theorem Shared.checkedOn_gamma (H : TweakableHash M) (h : R.Shared) (bits : List UInt8) :
    (R.checkedOn H bits).gamma = macBytes (R.program.andSteps.map (R.checkFrom bits)) := by
  obtain ⟨garbled, hgarbled, hsend⟩ := h.garblerSend H
  obtain ⟨hready, hstart⟩ := h.checkingFrom hgarbled bits
  have hsigma : ({ garbled.state with lambdaAnd := bits } : Ag2pcRunState M).sigma = R.sigmaA := by
    rw [hgarbled.frame]
    exact h.alice_prepared.sigma
  have hchecking := hstart.gates hready h.program hsigma rfl fun _ hmem => hmem
  rw [Nat.zero_add, Nat.zero_add] at hchecking
  rw [checkedOn, hsend, hchecking.gamma, take_andSteps]

end HonestRun

/-- When Alice sends single permutation bits, with any rows, her digest is Bob's if and only if
every AND gate holds. -/
theorem gammaDigest_eq_iff (H : TweakableHash M) (sha256 : List UInt8 → Value32) (R : HonestRun M)
    (h : R.Shared) (hsigma : R.CorrectSigma) (hdelta : R.deltaB ≠ Block.zero)
    (tables : List GarbledTable) (hlength : tables.length = countAnds R.program.gates)
    (hbits : ∀ table ∈ tables, table.bit = 0 ∨ table.bit = 1) :
    ∃ evaluated sent bits,
      evaluatorSend H R.program R.bob (encodeTables tables) = some (evaluated, sent) ∧
      recvBoolVector (countAnds R.program.gates) sent = some (bits, []) ∧
      ((sha256 (R.checkedOn H bits).gamma = sha256 evaluated.gamma →
          (R.checkedOn H bits).gamma = evaluated.gamma) →
        ((gammaCheckDigest sha256 R.program
            { (garblerSend H R.program R.alice).1 with lambdaAnd := bits }).2 =
          sha256 evaluated.gamma ↔ ∀ step ∈ R.program.andSteps, R.GateHolds H tables step)) := by
  have hprepared := h.bob_prepared
  obtain ⟨evaluated, hevaluated, -, hsend⟩ := evaluatorSend_on hlength hprepared.ready h.program
    hprepared.delta hprepared.sigma (h.evaluatingOn H tables (encodeTables tables))
  have hsingle := HonestRun.andBytesOn_single (H := H) (R := R) hlength fun table hmem => by
    rcases hbits table hmem with hbit | hbit <;> rw [hbit] <;> rfl
  have hcount : (R.andBytesOn H tables).length = countAnds R.program.gates := by
    rw [HonestRun.andBytesOn, List.length_map, Ag2pcProgram.andSteps, length_filter_gateSteps]
  have hrecv : recvBoolVector (countAnds R.program.gates)
      (if 0 < countAnds R.program.gates then packBools (R.andBytesOn H tables) else []) =
        some (R.andBytesOn H tables, []) := by
    have hpacked := recvBoolVector_append hsingle []
    rw [List.append_nil, hcount] at hpacked
    split
    · exact hpacked
    · next hzero =>
      have hnone : countAnds R.program.gates = 0 := Nat.eq_zero_of_not_pos hzero
      rw [List.length_eq_zero_iff.mp (hcount.trans hnone), hnone]
      rfl
  refine ⟨evaluated, _, R.andBytesOn H tables, hsend, hrecv, fun hcollision => ?_⟩
  have hbob : evaluated.gamma = macBytes (R.program.andSteps.map (R.checkOn H tables)) := by
    rw [hevaluated.gamma, HonestRun.take_andSteps]
  have halice := h.checkedOn_gamma H (R.andBytesOn H tables)
  have hdigest : (gammaCheckDigest sha256 R.program
      { (garblerSend H R.program R.alice).1 with lambdaAnd := R.andBytesOn H tables }).2 =
        sha256 (R.checkedOn H (R.andBytesOn H tables)).gamma := rfl
  have hequal : sha256 (R.checkedOn H (R.andBytesOn H tables)).gamma = sha256 evaluated.gamma ↔
      R.program.andSteps.map (R.checkFrom (R.andBytesOn H tables)) =
        R.program.andSteps.map (R.checkOn H tables) := by
    rw [← macBytes_inj (by rw [List.length_map, List.length_map]), ← halice, ← hbob]
    exact ⟨hcollision, congrArg sha256⟩
  rw [hdigest, hequal, List.map_inj_left]
  refine forall₂_congr fun step hmem => ?_
  have hstep := (List.mem_filter.mp hmem).1
  have hindex := (List.getElem?_eq_some_iff.mp (getElem?_of_mem_gateSteps hstep)).1
  have hread := h.program.reads _ _ (getElem?_of_mem_gateSteps hstep)
  have hlt0 := hread _ step.gate.right_mem.1
  have hlt1 := hread _ step.gate.right_mem.2
  rw [h.checkFrom_eq_checkOn_iff (h.products hsigma) hdelta hmem
    (h.maskedFrom_eq_maskedOn (by omega)) (h.maskedFrom_eq_maskedOn (by omega)),
    h.gateHolds_iff hlength hmem]

/-- A program whose second AND gate reads the output of the first. -/
def chainedProgram : Ag2pcProgram := ⟨2, 4, [3], [⟨.and, 0, 1⟩, ⟨.and, 2, 0⟩]⟩

/-- The product shares of its sample run are correct. -/
theorem chainedProgram_correctSigma : (sampleRun chainedProgram).CorrectSigma := by
  have hshared : (sampleRun chainedProgram).Shared :=
    (sampleRun_valid (by decide) rfl : (sampleRun chainedProgram).Valid [false, true]).shared
  intro k hk
  rw [hshared.alice_prepared.repA, hshared.alice_prepared.repB, hshared.bob_prepared.repA,
    hshared.bob_prepared.repB]
  have hk : k < 2 := hk
  interval_cases k <;> decide +kernel

/-- Two tables with single permutation bits. -/
def bitTables : List GarbledTable :=
  [⟨Block.make 5 6, Block.zero, 1⟩, ⟨Block.zero, Block.make 7 8, 0⟩]

/-- Two tables, the first with an even permutation byte. -/
def evenTables : List GarbledTable := [⟨Block.zero, Block.zero, 2⟩, ⟨Block.zero, Block.zero, 1⟩]

/-- The check of two AND gates on arbitrary rows. -/
theorem gammaDigest_eq_iff_chained :
    ∃ evaluated sent bits, evaluatorSend countingHash chainedProgram (sampleRun chainedProgram).bob
        (encodeTables bitTables) = some (evaluated, sent) ∧
      recvBoolVector 2 sent = some (bits, []) ∧
      ((Value32.ofList ((sampleRun chainedProgram).checkedOn countingHash bits).gamma =
            Value32.ofList evaluated.gamma →
          ((sampleRun chainedProgram).checkedOn countingHash bits).gamma = evaluated.gamma) →
        ((gammaCheckDigest Value32.ofList chainedProgram
            { (garblerSend countingHash chainedProgram (sampleRun chainedProgram).alice).1 with
              lambdaAnd := bits }).2 = Value32.ofList evaluated.gamma ↔
          ∀ step ∈ chainedProgram.andSteps, (sampleRun chainedProgram).GateHolds countingHash
            bitTables step)) :=
  gammaDigest_eq_iff countingHash Value32.ofList (sampleRun chainedProgram)
    (sampleRun_valid (by decide) rfl : (sampleRun chainedProgram).Valid [false, true]).shared
    chainedProgram_correctSigma (by decide) bitTables rfl (by decide)

/-- When Alice sends `2` as a permutation bit, Bob keeps a clear masked bit and returns a set one:
every AND gate holds, and her digest is not his. -/
theorem gammaDigest_ne :
    (sampleRun chainedProgram).Shared ∧ (sampleRun chainedProgram).CorrectSigma ∧
    (sampleRun chainedProgram).deltaB ≠ Block.zero ∧
    ∃ evaluated sent bits, evaluatorSend countingHash chainedProgram (sampleRun chainedProgram).bob
        (encodeTables evenTables) = some (evaluated, sent) ∧
      recvBoolVector 2 sent = some (bits, []) ∧
      (∀ step ∈ chainedProgram.andSteps, (sampleRun chainedProgram).GateHolds countingHash
        evenTables step) ∧
      (gammaCheckDigest Value32.ofList chainedProgram
          { (garblerSend countingHash chainedProgram (sampleRun chainedProgram).alice).1 with
            lambdaAnd := bits }).2 ≠ Value32.ofList evaluated.gamma := by
  have hshared : (sampleRun chainedProgram).Shared :=
    (sampleRun_valid (by decide) rfl : (sampleRun chainedProgram).Valid [false, true]).shared
  have hprepared := hshared.bob_prepared
  obtain ⟨evaluated, hevaluated, -, hsend⟩ := evaluatorSend_on
    (show evenTables.length = countAnds (sampleRun chainedProgram).program.gates from rfl)
    hprepared.ready hshared.program hprepared.delta hprepared.sigma
    (hshared.evaluatingOn countingHash _ _)
  have hbytes : (sampleRun chainedProgram).andBytesOn countingHash evenTables = [2, 0] := by
    decide +kernel
  have hbob : evaluated.gamma = macBytes [Block.make 0 1, Block.zero] := by
    rw [hevaluated.gamma]
    refine congrArg macBytes ?_
    decide +kernel
  have halice : ((sampleRun chainedProgram).checkedOn countingHash [1, 0]).gamma =
      macBytes [Block.make 0 1, Block.make 0 1] := by
    rw [hshared.checkedOn_gamma]
    refine congrArg macBytes ?_
    decide +kernel
  have hholds : ∀ step ∈ chainedProgram.andSteps,
      (sampleRun chainedProgram).maskedOn countingHash evenTables (2 + step.index) =
        ((((sampleRun chainedProgram).maskedOn countingHash evenTables step.gate.in0 ^^^
            (sampleRun chainedProgram).maskBit step.gate.in0) &&&
          ((sampleRun chainedProgram).maskedOn countingHash evenTables step.gate.right ^^^
            (sampleRun chainedProgram).maskBit step.gate.right)) ^^^
              (sampleRun chainedProgram).maskBit (2 + step.index)) &&& 1 := by
    decide +kernel
  refine ⟨hshared, chainedProgram_correctSigma, by decide, evaluated, packBools [2, 0], [1, 0], ?_,
    by decide, fun step hmem => ?_, ?_⟩
  · rw [← hbytes]
    exact hsend
  · rw [hshared.gateHolds_iff rfl hmem]
    exact hholds step hmem
  · change Value32.ofList ((sampleRun chainedProgram).checkedOn countingHash [1, 0]).gamma ≠ _
    rw [halice, hbob]
    decide +kernel

end Shachain2pc
