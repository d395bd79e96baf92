import Shachain2pc.Compat.EvaluatorPass

/-!
# The garbler's second pass

With the masked bits of the AND outputs which Bob has returned, Alice computes the masked
bits of all needed wires and her own check values of the AND gates.
-/

namespace Shachain2pc

open Function (update)
open SlotAllocation

variable {M : Type} {base : Ag2pcRunState M} {i k : ℕ}

/-- Alice's check value of an AND gate. -/
def HonestRun.checkA (H : TweakableHash M) (R : HonestRun M) (step : GateStep) : Block :=
  garblerCheckValue (R.masked H step.gate.in0) (R.masked H step.gate.right) (R.shareA step.gate.in0)
    (R.shareA step.gate.right) (R.sigmaA.getD step.andIndex default)
    (R.shareA (R.program.numInputs + step.index))

namespace HonestRun

variable (R : HonestRun M) (bits : List UInt8)

/-- The masked bit of a gate's output, from the masked bits which Bob returns. -/
def maskFnFrom (step : GateStep) (x y : UInt8) : UInt8 :=
  match step.gate.typ with
  | .and => bits.getD step.andIndex 0 &&& 1
  | .xor => (x ^^^ y) &&& 1
  | .inv => (x ^^^ 1) &&& 1

/-- Alice's masked bit of each wire, from the masked bits which Bob returns. -/
def maskedFrom : ℕ → UInt8 := R.program.wires (maskFnFrom bits) fun w => R.inputsA.lambda.getD w 0

/-- Alice's check value of an AND gate, from the masked bits which Bob returns. -/
def checkFrom (step : GateStep) : Block :=
  garblerCheckValue (R.maskedFrom bits step.gate.in0) (R.maskedFrom bits step.gate.right)
    (R.shareA step.gate.in0) (R.shareA step.gate.right) (R.sigmaA.getD step.andIndex default)
    (R.shareA (R.program.numInputs + step.index))

variable {R bits}

/-- Alice's masked bits follow the gates. -/
theorem maskedFrom_gate (hwf : R.program.WellFormed) {step : GateStep}
    (hstep : step ∈ gateSteps 0 0 R.program.gates) :
    R.maskedFrom bits (R.program.numInputs + step.index) =
      maskFnFrom bits step (R.maskedFrom bits step.gate.in0) (R.maskedFrom bits step.gate.right) :=
  hwf.wires_gate hstep

/-- Alice's masked bits are the only ones which follow the gates. -/
theorem maskedFrom_eq (hwf : R.program.WellFormed) {masked : ℕ → UInt8}
    (hinputs : ∀ w < R.program.numInputs, masked w = R.inputsA.lambda.getD w 0)
    (hgates : ∀ step ∈ gateSteps 0 0 R.program.gates, masked (R.program.numInputs + step.index) =
      maskFnFrom bits step (masked step.gate.in0) (masked step.gate.right)) {w : ℕ}
    (hw : w < R.program.numInputs + R.program.gates.length) : masked w = R.maskedFrom bits w :=
  hwf.wires_unique hinputs hgates hw

end HonestRun

namespace GammaCursor

variable {H : TweakableHash M} {R : HonestRun M} {bits : List UInt8} {cursor : GammaCursor M}

/-- Alice's memory before gate `i` of her second pass, with `k` AND gates before it. -/
structure Checking (H : TweakableHash M) (R : HonestRun M) (base : Ag2pcRunState M) (i k : ℕ)
    (cursor : GammaCursor M) : Prop where
  frame : cursor.state = { base with
    wireSlot := cursor.state.wireSlot, maskInput := cursor.state.maskInput }
  shares : base.Keeps R.program (fun w => base.persist w) i cursor.state.wireSlot R.shareA
  masks : base.Keeps R.program (fun _ => False) i cursor.state.maskInput (R.masked H)
  andIndex : cursor.andIndex = k
  gamma : cursor.gamma = macBytes ((R.program.andSteps.take k).map (R.checkA H))

/-- Alice's memory before gate `i` of her second pass, with `k` AND gates before it, on
the masked bits received. -/
structure CheckingFrom (R : HonestRun M) (bits : List UInt8) (base : Ag2pcRunState M) (i k : ℕ)
    (cursor : GammaCursor M) : Prop where
  frame : cursor.state = { base with
    wireSlot := cursor.state.wireSlot, maskInput := cursor.state.maskInput }
  shares : base.Keeps R.program (fun w => base.persist w) i cursor.state.wireSlot R.shareA
  masks : base.Keeps R.program (fun _ => False) i cursor.state.maskInput (R.maskedFrom bits)
  andIndex : cursor.andIndex = k
  gamma : cursor.gamma = macBytes ((R.program.andSteps.take k).map (R.checkFrom bits))

/-- Writing the share and the masked bit of a gate keeps Alice's memory. -/
theorem CheckingFrom.write (h : CheckingFrom R bits base i k cursor)
    (hready : Ready R.program R.shareA base) {gate : Ag2pcProgramGate}
    (hgate : R.program.gates[i]? = some gate) (hnext : nextAnd k gate = k) {next : GammaCursor M}
    {bit : UInt8} (hbit : bit &&& 1 = R.maskedFrom bits (R.program.numInputs + i))
    (heq : next = { cursor with
      state := (cursor.state.setWslot (R.program.numInputs + i)
        (R.shareA (R.program.numInputs + i))).setMinp (R.program.numInputs + i) bit }) :
    CheckingFrom R bits base (i + 1) (nextAnd k gate) next := by
  have hphys : cursor.state.phys = base.phys := by rw [h.frame]
  subst heq
  rw [hnext]
  constructor
  · rw [h.frame]
    rfl
  · change base.Keeps _ _ _ (update cursor.state.wireSlot (cursor.state.phys _) _) _
    rw [hphys]
    exact hready.write h.shares (fun _ hp => hp) hgate rfl
  · change base.Keeps _ _ _ (update cursor.state.maskInput (cursor.state.phys _) _) _
    rw [hphys]
    exact hready.write h.masks (fun _ hfalse => hfalse.elim) hgate hbit
  · exact h.andIndex
  · exact h.gamma

/-- A gate of the second pass finds the share and the masked bit of the wires it reads. -/
theorem CheckingFrom.read (h : CheckingFrom R bits base i k cursor)
    (hready : Ready R.program R.shareA base) (hwf : R.program.WellFormed) {gate : Ag2pcProgramGate}
    (hgate : R.program.gates[i]? = some gate) {w : ℕ} (hw : w ∈ gate.reads) :
    cursor.state.wslot w = R.shareA w ∧ cursor.state.minp w = R.maskedFrom bits w := by
  have hphys : cursor.state.phys = base.phys := by rw [h.frame]
  rw [Ag2pcRunState.wslot, Ag2pcRunState.minp, hphys]
  exact ⟨hready.read hwf h.shares hgate hw, hready.read hwf h.masks hgate hw⟩

/-- A gate does not write over the slots it reads. -/
theorem CheckingFrom.setMinp_minp (h : CheckingFrom R bits base i k cursor)
    (hready : Ready R.program R.shareA base) (hwf : R.program.WellFormed) {gate : Ag2pcProgramGate}
    (hgate : R.program.gates[i]? = some gate) {w : ℕ} (hw : w ∈ gate.reads) (bit : UInt8) :
    (cursor.state.setMinp (R.program.numInputs + i) bit).minp w = cursor.state.minp w := by
  have hphys : cursor.state.phys = base.phys := by rw [h.frame]
  have hne : base.phys w ≠ base.phys (R.program.numInputs + i) :=
    hready.apart.read_ne (hready.live.layout_wellFormed hwf) (List.getElem?_eq_some_iff.mp hgate).1
      (by simpa [Ag2pcProgram.layout, hgate] using hw)
  change update cursor.state.maskInput (cursor.state.phys _) _ (cursor.state.phys w) =
    cursor.state.maskInput (cursor.state.phys w)
  rw [hphys, Function.update_of_ne hne]

/-- A gate of the second pass keeps Alice's memory. -/
theorem CheckingFrom.gate (h : CheckingFrom R bits base i k cursor)
    (hready : Ready R.program R.shareA base) (hwf : R.program.WellFormed)
    (hsigma : base.sigma = R.sigmaA) (hbits : base.lambdaAnd = bits) {gate : Ag2pcProgramGate}
    (hstep : ⟨i, k, gate⟩ ∈ gateSteps 0 0 R.program.gates) :
    CheckingFrom R bits base (i + 1) (nextAnd k gate) (cursor.gate i gate) := by
  have hgate : R.program.gates[i]? = some gate := getElem?_of_mem_gateSteps hstep
  have hnum : cursor.state.numInputs = R.program.numInputs := by rw [h.frame, ← hready.numInputs]
  obtain ⟨hw0, hm0⟩ := h.read hready hwf hgate gate.right_mem.1
  obtain ⟨hw1, hm1⟩ := h.read hready hwf hgate gate.right_mem.2
  have hshare := HonestRun.shareA_gate hwf hstep
  have hmasked : R.maskedFrom bits _ = _ := HonestRun.maskedFrom_gate hwf hstep
  cases htyp : gate.typ with
  | xor =>
    rw [show gate.right = gate.in1 by simp [Ag2pcProgramGate.right, htyp]] at hw1 hm1 hshare hmasked
    simp only [GateStep.share, HonestRun.maskFnFrom, htyp] at hshare hmasked
    refine h.write hready hgate (by rw [nextAnd, htyp]) hmasked.symm ?_
    simp only [GammaCursor.gate, htyp, Ag2pcRunState.setWslot_minp]
    rw [hnum, hw0, hw1, hm0, hm1, hshare]
  | inv =>
    simp only [GateStep.share, HonestRun.maskFnFrom, htyp] at hshare hmasked
    refine h.write hready hgate (by rw [nextAnd, htyp]) hmasked.symm ?_
    simp only [GammaCursor.gate, htyp, Ag2pcRunState.setWslot_minp]
    rw [hnum, hw0, hm0, hshare]
  | and =>
    have hphys : cursor.state.phys = base.phys := by rw [h.frame]
    have hnext : nextAnd k gate = k + 1 := by rw [nextAnd, htyp]
    have hright : gate.right = gate.in1 := by simp [Ag2pcProgramGate.right, htyp]
    have hmem : R.program.andSteps[k]? = some ⟨i, k, gate⟩ :=
      Ag2pcProgram.getElem?_andSteps hstep htyp
    have hbit : cursor.state.lambdaAnd.getD k 0 = bits.getD k 0 := by
      rw [h.frame, ← hbits]
    have hsingle : bits.getD k 0 &&& 1 = R.maskedFrom bits (R.program.numInputs + i) := by
      simp only [HonestRun.maskFnFrom, htyp] at hmasked
      exact hmasked.symm
    have hsigma' : cursor.state.sigma = R.sigmaA := by rw [h.frame, ← hsigma]
    have hout : cursor.state.wslot (R.program.numInputs + i) =
        R.shareA (R.program.numInputs + i) := by
      rw [Ag2pcRunState.wslot, hphys]
      exact h.shares _ (Nat.add_lt_add_left (List.getElem?_eq_some_iff.mp hgate).1 _)
        (.inl (hready.persist_and hstep htyp))
    have hchecked : cursor.gate i gate =
        { state := cursor.state.setMinp (R.program.numInputs + i) (bits.getD k 0)
          andIndex := k + 1
          gamma := cursor.gamma ++ (R.checkFrom bits ⟨i, k, gate⟩).toList } := by
      have hread (w : ℕ) (hw : w ∈ gate.reads) (bit : UInt8) :=
        h.setMinp_minp hready hwf hgate hw bit
      simp only [GammaCursor.gate, htyp, hnum, h.andIndex, hbit, Ag2pcRunState.setMinp_wslot,
        hread _ gate.right_mem.1, hright ▸ hread _ gate.right_mem.2]
      rw [hright] at hw1 hm1
      rw [hw0, hw1, hm0, hm1, hout, HonestRun.checkFrom, hright, ← hsigma']
      rfl
    rw [hnext, hchecked]
    refine ⟨?_, h.shares.skip (hready.persist_and hstep htyp), ?_, rfl, ?_⟩
    · rw [h.frame]
      rfl
    · change base.Keeps _ _ _ (update cursor.state.maskInput (cursor.state.phys _) _) _
      rw [hphys]
      exact hready.write h.masks (fun _ hfalse => hfalse.elim) hgate hsingle
    · change cursor.gamma ++ _ = _
      rw [h.gamma, List.take_add_one, hmem, List.map_append, macBytes, macBytes,
        List.flatMap_append, Option.toList_some, List.map_singleton, List.flatMap_singleton]

/-- The gates of the second pass keep her memory. -/
theorem CheckingFrom.gates (h : CheckingFrom R bits base i k cursor)
    (hready : Ready R.program R.shareA base) (hwf : R.program.WellFormed)
    (hsigma : base.sigma = R.sigmaA) (hbits : base.lambdaAnd = bits) {gates : List Ag2pcProgramGate}
    (hgates : ∀ step ∈ gateSteps i k gates, step ∈ gateSteps 0 0 R.program.gates) :
    CheckingFrom R bits base (i + gates.length) (k + countAnds gates)
      (GammaCursor.gates i gates cursor) := by
  rw [← foldl_nextAnd]
  induction gates generalizing i k cursor with
  | nil => exact h
  | cons gate rest ih =>
    rw [List.length_cons, Nat.add_comm rest.length, ← Nat.add_assoc]
    exact ih (h.gate hready hwf hsigma hbits (hgates _ List.mem_cons_self))
      fun step hmem => hgates step (List.mem_cons_of_mem _ hmem)

/-- On the masked bits of an honest run, Alice's memory is that of the run. -/
theorem checkingFrom_andBits (hwf : R.program.WellFormed)
    (hagree : R.inputsA.lambda = R.inputsB.lambda) :
    CheckingFrom R (R.andBits H) base i k cursor ↔ Checking H R base i k cursor := by
  have hmasked {w : ℕ} (hw : w < R.program.numInputs + R.program.gates.length) :
      R.masked H w = R.maskedFrom (R.andBits H) w := by
    refine HonestRun.maskedFrom_eq hwf (fun w hw => ?_) (fun step hstep => ?_) hw
    · rw [HonestRun.masked, HonestRun.evals, Ag2pcProgram.wires_input hw, hagree]
    · have heval := congrArg Prod.snd (HonestRun.evals_gate (H := H) hwf hstep)
      have hsingle := HonestRun.masked_and_one (H := H) hwf hstep
      rw [HonestRun.maskFnFrom]
      cases htyp : step.gate.typ with
      | and =>
        have hget := Ag2pcProgram.getElem?_andSteps hstep htyp
        simp only [HonestRun.andBits, List.getD_eq_getElem?_getD, List.getElem?_map, hget]
        exact hsingle.symm
      | xor =>
        simp only [HonestRun.evalFn, htyp] at heval
        exact heval
      | inv =>
        simp only [HonestRun.evalFn, htyp] at heval
        exact heval
  have hcheck : (R.program.andSteps.take k).map (R.checkFrom (R.andBits H)) =
      (R.program.andSteps.take k).map (R.checkA H) := by
    refine List.map_congr_left fun step hmem => ?_
    have hstep := (List.mem_filter.mp (List.mem_of_mem_take hmem)).1
    have hindex := (List.getElem?_eq_some_iff.mp (getElem?_of_mem_gateSteps hstep)).1
    have hread := hwf.reads _ _ (getElem?_of_mem_gateSteps hstep)
    have hlt0 := hread _ step.gate.right_mem.1
    have hlt1 := hread _ step.gate.right_mem.2
    rw [HonestRun.checkFrom, HonestRun.checkA, hmasked (by omega), hmasked (by omega)]
  constructor
  · intro h
    exact ⟨h.frame, h.shares, h.masks.congr fun w hw => (hmasked hw).symm, h.andIndex,
      hcheck ▸ h.gamma⟩
  · intro h
    exact ⟨h.frame, h.shares, h.masks.congr fun w hw => hmasked hw, h.andIndex, hcheck ▸ h.gamma⟩

/-- The gates of the second pass keep Alice's memory. -/
theorem Checking.gates (h : Checking H R base i k cursor) (hready : Ready R.program R.shareA base)
    (hwf : R.program.WellFormed) (hagree : R.inputsA.lambda = R.inputsB.lambda)
    (hsigma : base.sigma = R.sigmaA) (hbits : base.lambdaAnd = R.andBits H)
    {gates : List Ag2pcProgramGate}
    (hgates : ∀ step ∈ gateSteps i k gates, step ∈ gateSteps 0 0 R.program.gates) :
    Checking H R base (i + gates.length) (k + countAnds gates) (GammaCursor.gates i gates cursor) :=
  (checkingFrom_andBits hwf hagree).mp (((checkingFrom_andBits hwf hagree).mpr h).gates hready hwf
    hsigma hbits hgates)

end GammaCursor

end Shachain2pc
