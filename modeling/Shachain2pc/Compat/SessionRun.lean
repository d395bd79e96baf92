import Shachain2pc.Compat.GammaSoundness
import Shachain2pc.Compat.InputRun
import Shachain2pc.Compat.SessionRounds

/-!
# Runs of two sessions

Two sessions with paired pools authenticate inputs, run programs and open wires together. What
they draw from their pools makes an honest run of each program valid, so the wires which they
hold afterwards satisfy the session invariant again.
-/

namespace Shachain2pc

open JointRuns AuthenticatedBits
open Ag2pcTriplePool
open Function (update)

variable {sha256 : List UInt8 → Value32}

namespace Ag2pcSession

/-! ## Both paths -/

/-- What the paths of two parties exchange: tables, masked bits and an answer. -/
structure Completes {M : Type} (H : TweakableHash M) (hash : List UInt8 → Value32)
    (program : Ag2pcProgram) (alice bob garbled checked : Ag2pcRunState M)
    (bytes bits answer : List UInt8) (evaluated : EvaluatorCursor M) :
    Prop where
  sends : garblerSend H program alice = (garbled, bytes)
  evaluates :
      EvaluatorCursor.gates H 0 program.gates ⟨bob, [], [], 0, 0, [], bytes⟩ = some evaluated
  drains : evaluated.stream = []
  counted : garbled.numAnds = bob.numAnds
  kept : evaluated.state.numAnds = bob.numAnds
  length : bits.length = bob.numAnds
  single : ∀ b ∈ bits, b &&& 1 = b
  returns : 0 < bob.numAnds → packBools evaluated.state.lambdaAnd = packBools bits
  checks : garblerCheck hash program garbled (packBools bits) = some (checked, answer)
  size : 0 < bob.numAnds → answer.length = 32
  accepts : evaluatorCheck hash evaluated answer = some (.ok evaluated.state)

section paths

variable {M : Type} {H : TweakableHash M} {hash : List UInt8 → Value32} {program : Ag2pcProgram}
  {alice bob garbled checked : Ag2pcRunState M} {bytes bits answer : List UInt8}
  {evaluated : EvaluatorCursor M}

/-- Paths which complete are those of a run. -/
theorem Completes.halfGateRun
    (h : Completes H hash program alice bob garbled checked bytes bits answer evaluated) :
    Shachain2pc.halfGateRun H hash program alice bob = some (.ok (checked, evaluated.state)) := by
  have hreturn : evaluatorSend H program bob bytes =
      some (evaluated, if 0 < bob.numAnds then packBools evaluated.state.lambdaAnd else []) := by
    rw [evaluatorSend, h.evaluates]
    rfl
  have hcheck : garblerCheck hash program garbled
      (if 0 < bob.numAnds then packBools evaluated.state.lambdaAnd else []) =
        some (checked, answer) := by
    have hchecks := h.checks
    split
    · next hands => rwa [h.returns hands]
    · next hands =>
      rw [garblerCheck, if_neg (h.counted ▸ hands)] at hchecks ⊢
      exact hchecks
  rw [Shachain2pc.halfGateRun, h.sends]
  simp only [hreturn, Option.bind_eq_bind, Option.bind_some, hcheck, h.accepts]
  rfl

variable {deltaA deltaB : Block}

/-- Paths which complete leave paired pools paired. -/
theorem Completes.joint
    (h : Completes H hash program alice bob garbled checked bytes bits answer evaluated) :
    Joint (PoolPaired CotReady deltaA deltaB) (onAbit2 (garblerPath H hash program alice))
      (onAbit1 (evaluatorPath H hash program bob))
      fun x (alice : Ag2pcTriplePool (StreamEnd sha256)) y bob =>
        (x = checked ∧ y = evaluated.state) ∧ PoolPaired CotReady deltaA deltaB alice bob := by
  obtain ⟨sent, hsent, hours⟩ :=
    exchanges_garblerPath h.sends (h.length.trans h.counted.symm) h.single h.checks
  obtain ⟨received, hreceived, htheirs⟩ :=
    exchanges_evaluatorPath (fun hpos => h.size (h.kept ▸ hpos)) h.evaluates h.drains h.accepts
  have htail : checkEvents evaluated.state.numAnds evaluated.state.lambdaAnd answer =
      checkEvents garbled.numAnds bits answer := by
    rw [checkEvents, checkEvents, h.counted, h.kept]
    split
    · next hands => rw [h.returns hands]
    · rfl
  rw [htail] at htheirs
  exact joint_main hours htheirs
    ((Crossing.resized (hsent.trans hreceived.symm)).append (Crossing.opposite _))

/-- The paths of a valid run complete. -/
theorem completes_valid {R : HonestRun M} {plain : List Bool} (h : R.Valid plain)
    (hproducts : R.Products) :
    ∃ garbled checked bytes answer evaluated,
      Completes H hash R.program R.alice R.bob garbled checked bytes
        (R.andBits H) answer evaluated := by
  obtain ⟨garbled, hgarbled, hsend⟩ := h.shared.garblerSend H
  obtain ⟨evaluated, hevaluated, hstream, hreturn⟩ := evaluatorSend_spec h.shared.bob_prepared.ready
    h.program h.shared.bob_prepared.delta h.shared.bob_prepared.sigma
      (h.evaluating H (encodeTables (R.tables H)))
  have hnum := h.shared.bob_prepared.ready.numAnds
  have hnumA : garbled.state.numAnds = R.bob.numAnds := by
    rw [hgarbled.frame, hnum]
    exact h.shared.alice_prepared.ready.numAnds
  have hnumB : evaluated.state.numAnds = R.bob.numAnds := by
    rw [hevaluated.frame]
  have hlength : (R.andBits H).length = R.bob.numAnds := by
    rw [hnum, HonestRun.andBits, List.length_map, Ag2pcProgram.andSteps, length_filter_gateSteps]
  have hbits : ∀ b ∈ R.andBits H, b &&& 1 = b := by
    intro b hb
    obtain ⟨step, hmem, rfl⟩ := List.mem_map.mp hb
    exact HonestRun.masked_and_one h.program (List.mem_filter.mp hmem).1
  obtain ⟨cursor, hgates, hvalue⟩ := Option.bind_eq_some_iff.mp hreturn
  obtain ⟨rfl, hpacked⟩ := Prod.mk.inj (Option.some.inj hvalue)
  rw [← hnum] at hpacked
  have hreturns (hands : 0 < R.bob.numAnds) :
      packBools cursor.state.lambdaAnd = packBools (R.andBits H) := by
    rwa [if_pos hands, if_pos hands] at hpacked
  by_cases hands : 0 < countAnds R.program.gates
  · obtain ⟨checked, hchecked, hcheck⟩ := h.garblerCheck hash hands hgarbled
    exact ⟨_, _, _, _, _, hsend, hgates, hstream, hnumA, hnumB, hlength, hbits, hreturns, hcheck,
      fun _ => Vector.length_toList, h.evaluatorCheck hproducts hash hands hevaluated hstream⟩
  · have hnone : ¬0 < R.bob.numAnds := hnum.symm ▸ hands
    refine ⟨garbled.state, garbled.state, _, [], cursor, hsend, hgates, hstream, hnumA, hnumB,
      hlength, hbits, hreturns,
      ?_, fun hpos => absurd hpos hnone, ?_⟩
    · rw [garblerCheck, if_neg (hnumA ▸ hnone)]
    · rw [evaluatorCheck, if_neg (hnumB ▸ hnone)]

end paths

/-- The wires which the two parties gather in a valid run. -/
theorem joint_halfGatePath {base : PoolBase (StreamEnd sha256)} {deltaA deltaB : Block}
    {R : HonestRun HalfGateHash} {plain : List Bool} (h : R.Valid plain) (hsigma : R.CorrectSigma) :
    ∃ a b, R.run (Mitccrh8.hashCir base.permute) base.sha256 =
        some (.ok (gatherOutputs a R.program, gatherOutputs b R.program)) ∧
      Joint (PoolPaired CotReady deltaA deltaB) (halfGatePath base .alice R.program R.alice)
        (halfGatePath base.peer .bob R.program R.bob)
        fun x alice y bob => (x = a ∧ y = b) ∧ PoolPaired CotReady deltaA deltaB alice bob := by
  obtain ⟨garbled, checked, bytes, answer, evaluated, hcompletes⟩ :=
    @completes_valid HalfGateHash (Mitccrh8.hashCir base.permute) base.sha256 R plain h
      (h.shared.products hsigma)
  refine ⟨checked, evaluated.state, ?_, hcompletes.joint⟩
  rw [h.run_eq, hcompletes.halfGateRun]
  rfl

/-! ## The slot pass -/

section slots

variable {M : Type} {draw draw' : ℕ → List AShareBundle} {cursor cursor' : SlotMaskCursor M}

/-- The place in the batches: the size of the one in use, the next share in it, and the number of
batches. -/
def place (cursor : SlotMaskCursor M) : ℕ × ℕ × ℕ :=
  (cursor.lgBuf.length, cursor.lgOff, cursor.drawn)

/-- The place after a gate, when the next batch has some size. -/
def nextPlace (size : ℕ) (gate : Ag2pcProgramGate) (at_ : ℕ × ℕ × ℕ) : ℕ × ℕ × ℕ :=
  if gate.typ = .and then
    if at_.1 ≤ at_.2.1 then (size, 1, at_.2.2 + 1) else (at_.1, at_.2.1 + 1, at_.2.2)
  else at_

/-- Freeing slots keeps the place. -/
theorem place_free (i : ℕ) (reads : List ℕ) (cursor : SlotMaskCursor M) :
    place (reads.foldl (SlotMaskCursor.freeIfDead i) cursor) = place cursor := by
  induction reads generalizing cursor with
  | nil => rfl
  | cons w rest ih =>
    rw [List.foldl_cons, ih, SlotMaskCursor.freeIfDead]
    split <;> rfl

/-- The place after a gate. -/
theorem place_gate (draw : ℕ → List AShareBundle) (i : ℕ) (gate : Ag2pcProgramGate)
    (cursor : SlotMaskCursor M) :
    place (cursor.gate draw i gate) = nextPlace (draw cursor.drawn).length gate (place cursor) := by
  unfold SlotMaskCursor.gate nextPlace
  rw [place_free]
  cases htyp : gate.typ with
  | and =>
    simp only [if_true, SlotMaskCursor.place_eq, SlotMaskCursor.refill,
      SlotMaskCursor.collect, place]
    by_cases hused : cursor.lgBuf.length ≤ cursor.lgOff
    · simp [hused]
    · simp [hused]
  | xor =>
    simp only [SlotMaskCursor.place_eq]
    rfl
  | inv =>
    simp only [SlotMaskCursor.place_eq]
    rfl

/-- A gate depends on the batch which it draws. -/
theorem gate_congr (i : ℕ) (gate : Ag2pcProgramGate)
    (h : gate.typ = .and ∧ cursor.lgBuf.length ≤ cursor.lgOff → draw cursor.drawn =
      draw' cursor.drawn) :
    cursor.gate draw i gate = cursor.gate draw' i gate := by
  unfold SlotMaskCursor.gate
  cases htyp : gate.typ with
  | and =>
    have hrefill : (cursor.collect gate).refill draw = (cursor.collect gate).refill draw' := by
      unfold SlotMaskCursor.refill SlotMaskCursor.collect
      by_cases hused : cursor.lgBuf.length ≤ cursor.lgOff
      · simp only [if_pos hused, h ⟨htyp, hused⟩]
      · simp only [if_neg hused]
    simp only [hrefill]
  | xor => rfl
  | inv => rfl

/-- A gate draws no batch or the next one. -/
theorem drawn_gate (draw : ℕ → List AShareBundle) (i : ℕ) (gate : Ag2pcProgramGate)
    (cursor : SlotMaskCursor M) :
    (cursor.gate draw i gate).drawn =
      if gate.typ = .and ∧ cursor.lgBuf.length ≤ cursor.lgOff then cursor.drawn +
        1 else cursor.drawn := by
  have hplace := congrArg (·.2.2) (place_gate draw i gate cursor)
  refine hplace.trans ?_
  simp only [nextPlace, place]
  by_cases htyp : gate.typ = .and
  · by_cases hused : cursor.lgBuf.length ≤ cursor.lgOff
    · simp [htyp, hused]
    · simp [htyp, hused]
  · simp [htyp]

/-- Gates depend on the batches which are still to be drawn. -/
theorem gates_congr (i : ℕ) (gates : List Ag2pcProgramGate)
    (h : ∀ j, cursor.drawn ≤ j → draw j = draw' j) :
    SlotMaskCursor.gates draw i gates cursor = SlotMaskCursor.gates draw' i gates cursor := by
  induction gates generalizing i cursor with
  | nil => rfl
  | cons gate rest ih =>
    rw [SlotMaskCursor.gates, SlotMaskCursor.gates, gate_congr i gate fun _ => h _ le_rfl]
    refine ih (i + 1) fun j hj => h j ?_
    rw [drawn_gate] at hj
    split at hj <;> omega

/-- Batches of which a gate draws the first, if it draws one. -/
def withBatch (gate : Ag2pcProgramGate) (cursor : SlotMaskCursor M) (batch : List AShareBundle)
    (draw : ℕ → List AShareBundle) (j : ℕ) : List AShareBundle :=
  if (gate.typ = .and ∧ cursor.lgBuf.length ≤ cursor.lgOff) ∧ j =
    cursor.drawn then batch else draw j

/-- A gate on its batch, and then the rest on theirs. -/
theorem gates_withBatch (i : ℕ) (gate : Ag2pcProgramGate) (rest : List Ag2pcProgramGate)
    (batch : List AShareBundle) :
    SlotMaskCursor.gates draw (i + 1) rest (cursor.gate (fun _ => batch) i gate) =
      SlotMaskCursor.gates (withBatch gate cursor batch draw) i (gate :: rest) cursor := by
  have hgate :
      cursor.gate (withBatch gate cursor batch draw) i gate = cursor.gate (fun _ => batch) i gate :=
    gate_congr i gate fun hdraws => if_pos ⟨hdraws, rfl⟩
  rw [SlotMaskCursor.gates, hgate]
  refine gates_congr (i + 1) rest fun j hj => (if_neg fun hboth => ?_).symm
  rw [drawn_gate, if_pos hboth.1] at hj
  omega

end slots

section slotsJoint

variable {M : Type} {base : PoolBase (StreamEnd sha256)} {deltaA deltaB : Block}

/-- A batch which two parties draw together. -/
def BatchPaired (deltaA deltaB : Block) (batch batch' : List AShareBundle) : Prop :=
  batch.length = drawBatch ∧ SharesPaired deltaA deltaB batch batch'

/-- A batch of no shares. -/
theorem batchPaired_zero : BatchPaired deltaA deltaB (List.replicate drawBatch zeroShare)
    (List.replicate drawBatch zeroShare) :=
  ⟨List.length_replicate,
    List.forall₂_iff_get.mpr ⟨rfl, fun k hk hk' => by simpa using zeroShare_paired⟩⟩

/-- Both parties go through a gate, and draw a batch or none. -/
theorem joint_slotMaskGate (i : ℕ) (gate : Ag2pcProgramGate) {cursor cursor' : SlotMaskCursor M}
    (hplace : place cursor = place cursor') :
    Joint (PoolPaired CotReady deltaA deltaB) (slotMaskGate base i gate cursor)
      (slotMaskGate base.peer i gate cursor')
      fun x alice y bob => (∃ batch batch', BatchPaired deltaA deltaB batch batch' ∧
        x = cursor.gate (fun _ => batch) i gate ∧ y = cursor'.gate (fun _ => batch') i gate) ∧
        PoolPaired CotReady deltaA deltaB alice bob := by
  obtain ⟨hlength, hrest⟩ := Prod.mk.inj hplace
  obtain ⟨hoffset, -⟩ := Prod.mk.inj hrest
  unfold slotMaskGate
  by_cases hrefills : gate.typ = .and ∧ cursor.lgBuf.length ≤ cursor.lgOff
  · rw [if_pos hrefills, if_pos (hlength ▸ hoffset ▸ hrefills)]
    refine (joint_draw drawBatch).bind fun batch batch' => Joint.assume fun hbatch => ?_
    exact .pure fun _ _ h => ⟨⟨batch, batch', hbatch, rfl, rfl⟩, h⟩
  · rw [if_neg hrefills, if_neg (hlength ▸ hoffset ▸ hrefills)]
    exact .pure fun _ _ h =>
      ⟨⟨_, _, batchPaired_zero, gate_congr i gate fun hdraws => absurd hdraws hrefills,
      gate_congr i gate fun hdraws => absurd hdraws (hlength ▸ hoffset ▸ hrefills)⟩, h⟩

/-- Both parties go through gates on batches which they draw together. -/
theorem joint_slotMaskGates (i : ℕ) (gates : List Ag2pcProgramGate)
    {cursor cursor' : SlotMaskCursor M} (hplace : place cursor = place cursor') :
    Joint (PoolPaired CotReady deltaA deltaB) (slotMaskGates base i gates cursor)
      (slotMaskGates base.peer i gates cursor')
      fun x alice y bob =>
        (∃ draw draw' : ℕ → List AShareBundle, (∀ j, BatchPaired deltaA deltaB (draw j) (draw' j)) ∧
        x = SlotMaskCursor.gates draw i gates cursor ∧ y =
          SlotMaskCursor.gates draw' i gates cursor') ∧
        PoolPaired CotReady deltaA deltaB alice bob := by
  induction gates generalizing i cursor cursor' with
  | nil => exact .pure fun _ _ h => ⟨⟨_, _, fun _ => batchPaired_zero, rfl, rfl⟩, h⟩
  | cons gate rest ih =>
    refine (joint_slotMaskGate i gate hplace).bind fun next next' => Joint.assume ?_
    rintro ⟨batch, batch', hbatch, rfl, rfl⟩
    have hnext : place (cursor.gate (fun _ => batch) i gate) =
        place (cursor'.gate (fun _ => batch') i gate) := by
      rw [place_gate, place_gate, hplace, hbatch.1, ← hbatch.2.length_eq, hbatch.1]
    refine (ih (i + 1) hnext).mono (fun _ _ h => h) fun x _ y _ => ?_
    rintro ⟨⟨draw, draw', hdraw, rfl, rfl⟩, h⟩
    refine ⟨⟨_, _, fun j => ?_, gates_withBatch i gate rest batch,
      gates_withBatch i gate rest batch'⟩, h⟩
    obtain ⟨hlength, hoffset, hdrawn⟩ :
        cursor.lgBuf.length = cursor'.lgBuf.length ∧ cursor.lgOff = cursor'.lgOff ∧
        cursor.drawn = cursor'.drawn := by
      simpa only [place, Prod.mk.injEq] using hplace
    rw [withBatch, withBatch, hlength, hoffset, hdrawn]
    split
    · exact hbatch
    · exact hdraw j

/-- Both parties go through the slot pass on batches which they draw together. -/
theorem joint_slotMaskPass (program : Ag2pcProgram) (state state' : Ag2pcRunState M) :
    Joint (PoolPaired CotReady deltaA deltaB) (slotMaskPass base program state)
      (slotMaskPass base.peer program state')
      fun x alice y bob =>
        (∃ draw draw' : ℕ → List AShareBundle, (∀ j, BatchPaired deltaA deltaB (draw j) (draw' j)) ∧
        x = Shachain2pc.slotMaskPass draw program state ∧ y =
          Shachain2pc.slotMaskPass draw' program state') ∧
        PoolPaired CotReady deltaA deltaB alice bob := by
  refine (joint_slotMaskGates 0 program.gates (by exact rfl)).bind fun x y => Joint.assume ?_
  rintro ⟨draw, draw', hdraw, rfl, rfl⟩
  exact .pure fun _ _ h => ⟨⟨draw, draw', hdraw, rfl, rfl⟩, h⟩

end slotsJoint

/-! ## The state of the hash -/

section mitc

variable {M : Type}

/-- A run with another hash. -/
def withMitc (mitc : M) (state : Ag2pcRunState M) : Ag2pcRunState M := { state with mitc := mitc }

/-- A slot pass with another hash. -/
def cursorWithMitc (mitc : M) (cursor : SlotMaskCursor M) : SlotMaskCursor M :=
  { cursor with state := withMitc mitc cursor.state }

/-- Placing a share does not depend on the hash. -/
theorem place_withMitc (mitc : M) (cursor : SlotMaskCursor M) (wire : ℕ) (value : AShareBundle) :
    (cursorWithMitc mitc cursor).place wire value = cursorWithMitc mitc
    (cursor.place wire value) := by
  rw [SlotMaskCursor.place_eq, SlotMaskCursor.place_eq]
  rfl

/-- Freeing slots does not depend on the hash. -/
theorem free_withMitc (mitc : M) (i : ℕ) (reads : List ℕ) (cursor : SlotMaskCursor M) :
    reads.foldl (SlotMaskCursor.freeIfDead i) (cursorWithMitc mitc cursor) =
      cursorWithMitc mitc (reads.foldl (SlotMaskCursor.freeIfDead i) cursor) := by
  induction reads generalizing cursor with
  | nil => rfl
  | cons w rest ih =>
    rw [List.foldl_cons, List.foldl_cons, ← ih]
    refine congrArg (rest.foldl (SlotMaskCursor.freeIfDead i)) ?_
    unfold SlotMaskCursor.freeIfDead
    change (if (!cursor.state.persist w) = true ∧ cursor.state.lastUse w = i then _ else _) = _
    split <;> rfl

/-- Drawing a batch does not depend on the hash. -/
theorem refill_withMitc (mitc : M) (draw : ℕ → List AShareBundle) (cursor : SlotMaskCursor M) :
    (cursorWithMitc mitc cursor).refill draw = cursorWithMitc mitc (cursor.refill draw) := by
  unfold SlotMaskCursor.refill
  change (if cursor.lgBuf.length ≤ cursor.lgOff then _ else _) = _
  split <;> rfl

/-- A gate of the slot pass does not depend on the hash. -/
theorem gate_withMitc (mitc : M) (draw : ℕ → List AShareBundle) (i : ℕ) (gate : Ag2pcProgramGate)
    (cursor : SlotMaskCursor M) :
    (cursorWithMitc mitc cursor).gate draw i gate = cursorWithMitc mitc
    (cursor.gate draw i gate) := by
  unfold SlotMaskCursor.gate
  rw [← free_withMitc]
  refine congrArg (gate.reads.foldl (SlotMaskCursor.freeIfDead i)) ?_
  cases gate.typ with
  | and =>
    have hcollect :
        (cursorWithMitc mitc cursor).collect gate = cursorWithMitc mitc (cursor.collect gate) := rfl
    simp only [hcollect, refill_withMitc]
    have hplace := place_withMitc mitc ((cursor.collect gate).refill draw)
      ((cursorWithMitc mitc cursor).state.numInputs + i)
      (((cursor.collect gate).refill draw).lgBuf.getD
        ((cursor.collect gate).refill draw).lgOff default)
    exact congrArg (fun cursor => { cursor with lgOff := cursor.lgOff + 1 }) hplace
  | xor => exact place_withMitc ..
  | inv => exact place_withMitc ..

/-- The slot pass does not depend on the hash. -/
theorem gates_withMitc (mitc : M) (draw : ℕ → List AShareBundle) (i : ℕ)
    (gates : List Ag2pcProgramGate) (cursor : SlotMaskCursor M) :
    SlotMaskCursor.gates draw i gates (cursorWithMitc mitc cursor) =
      cursorWithMitc mitc (SlotMaskCursor.gates draw i gates cursor) := by
  induction gates generalizing i cursor with
  | nil => rfl
  | cons gate rest ih => rw [SlotMaskCursor.gates, SlotMaskCursor.gates, gate_withMitc, ih]

/-- The liveness pass does not depend on the hash. -/
theorem livenessGates_withMitc (mitc : M) (i : ℕ) (gates : List Ag2pcProgramGate)
    (state : Ag2pcRunState M) :
    Ag2pcRunState.livenessGates i gates (withMitc mitc state) =
      withMitc mitc (Ag2pcRunState.livenessGates i gates state) := by
  induction gates generalizing i state with
  | nil => rfl
  | cons gate rest ih =>
    rw [Ag2pcRunState.livenessGates, Ag2pcRunState.livenessGates, ← ih]
    rfl

/-- The passes before garbling do not depend on the hash. -/
theorem slottedRun_withMitc (mitc mitc' : M) (draw : ℕ → List AShareBundle) (program : Ag2pcProgram)
    (party : Role) (delta : Block) (inputs : Ag2pcSecureWires) :
    withMitc mitc (slottedRun draw program party delta inputs mitc') =
      slottedRun draw program party delta inputs mitc := by
  unfold slottedRun Shachain2pc.slotMaskPass
  have hliveness : Ag2pcRunState.livenessPass program (.new party delta inputs mitc) =
      withMitc mitc (Ag2pcRunState.livenessPass program (.new party delta inputs mitc')) := by
    unfold Ag2pcRunState.livenessPass
    have hgates := livenessGates_withMitc mitc 0 program.gates
      { Ag2pcRunState.new party delta inputs mitc' with
        numAnds := 0, lastUse := fun _ => -1, persist :=
          fun w => decide (w < inputs.lambda.length) }
    exact congrArg (fun passed : Ag2pcRunState M => { passed with
      persist :=
        program.outputs.foldl (fun persist out => update persist out true) passed.persist }) hgates
  rw [hliveness]
  exact (congrArg SlotMaskCursor.state (gates_withMitc mitc draw 0 program.gates _)).symm

/-- The state before garbling does not depend on the hash. -/
theorem withSigma_withMitc (mitc mitc' : M) (draw : ℕ → List AShareBundle) (program : Ag2pcProgram)
    (party : Role) (delta : Block) (inputs : Ag2pcSecureWires) (sigma : List AShareBundle) :
    { (slottedRun draw program party delta inputs mitc').withSigma sigma with mitc := mitc } =
      (slottedRun draw program party delta inputs mitc).withSigma sigma :=
  congrArg (fun state : Ag2pcRunState M => state.withSigma sigma)
    (slottedRun_withMitc mitc mitc' draw program party delta inputs)

end mitc

end Ag2pcSession

end Shachain2pc
