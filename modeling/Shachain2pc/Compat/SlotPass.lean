import Shachain2pc.Compat.RunState

/-!
# The slots of a program run

The liveness pass makes inputs, AND outputs, and program outputs persistent, and knows the
last use of every wire. The slot pass then is the general slot allocator, run along the
gates. It leaves every wire which is still needed with its mask share, and the masked bits
of the inputs where they were.
-/

namespace Shachain2pc

open Function (update)
open SlotAllocation

/-- `DRAW`, the size of the batches the slot pass draws. -/
def drawBatch : ℕ := 2 ^ 14

/-- The share drawn for the AND gate number `k`. -/
def drawnShare (draw : ℕ → List AShareBundle) (k : ℕ) : AShareBundle :=
  (draw (k / drawBatch)).getD (k % drawBatch) default

/-- The mask share of a gate's output. -/
def GateStep.share (draw : ℕ → List AShareBundle) (step : GateStep) (x y : AShareBundle) :
    AShareBundle :=
  match step.gate.typ with
  | .and => drawnShare draw step.andIndex
  | .xor => x.xor y
  | .inv => x

/-- One party's mask shares of all wires. -/
def Ag2pcProgram.shares (program : Ag2pcProgram) (draw : ℕ → List AShareBundle)
    (inputs : Ag2pcSecureWires) : ℕ → AShareBundle :=
  program.wires (GateStep.share draw) fun w => inputs.wireBundle.getD w default

/-- The AND gates of a program, in order. -/
def Ag2pcProgram.andSteps (program : Ag2pcProgram) : List GateStep :=
  (gateSteps 0 0 program.gates).filter fun step => step.gate.typ = .and

/-- The layout of a program for the slot allocator. -/
def Ag2pcProgram.layout (program : Ag2pcProgram) (persist : ℕ → Bool) (lastUse : ℕ → ℤ) :
    Layout where
  inputs := program.numInputs
  reads := fun i => (program.gates[i]?).elim [] Ag2pcProgramGate.reads
  persist := persist
  lastUse := lastUse

/-- What the liveness pass finds. -/
structure Ag2pcProgram.Liveness (program : Ag2pcProgram) (persist : ℕ → Bool) (lastUse : ℕ → ℤ) :
    Prop where
  inputs : ∀ w < program.numInputs, persist w
  ands : ∀ step ∈ program.andSteps, persist (program.numInputs + step.index)
  outputs : ∀ w ∈ program.outputs, persist w
  lastUse : ∀ (i : ℕ) gate, program.gates[i]? = some gate → ∀ w ∈ gate.reads, (i : ℤ) ≤ lastUse w

/-- The gates at the front of a program are its first steps. -/
theorem gateSteps_take (i k len : ℕ) (gates : List Ag2pcProgramGate) :
    gateSteps i k (gates.take len) = (gateSteps i k gates).take len := by
  induction gates generalizing i k len with
  | nil => simp [gateSteps]
  | cons gate rest ih =>
    cases len with
    | zero => rfl
    | succ len => rw [List.take_succ_cons, gateSteps, gateSteps, List.take_succ_cons, ih]

/-- The AND gate number `k` of the remaining gates is the step which says so. -/
theorem getElem?_filter_gateSteps {i k : ℕ} {gates : List Ag2pcProgramGate} {step : GateStep}
    (h : step ∈ gateSteps i k gates) (htyp : step.gate.typ = .and) :
    k ≤ step.andIndex ∧
      ((gateSteps i k gates).filter fun s => s.gate.typ = .and)[step.andIndex - k]? =
        some step := by
  induction gates generalizing i k with
  | nil => cases h
  | cons gate rest ih =>
    rw [gateSteps, List.filter_cons]
    rcases List.mem_cons.mp h with rfl | h
    · exact ⟨le_rfl, by simp [show gate.typ = .and from htyp]⟩
    · obtain ⟨hle, hget⟩ := ih h
      by_cases hand : gate.typ = .and
      · simp only [nextAnd, hand] at hle hget
        have hsub : step.andIndex - k = step.andIndex - (k + 1) + 1 := by omega
        refine ⟨by omega, ?_⟩
        simpa [hand, hsub, nextAnd] using hget
      · have hnext : nextAnd k gate = k := by
          unfold nextAnd
          split <;> simp_all
        rw [hnext] at hle hget
        exact ⟨hle, by simpa [hand, hnext] using hget⟩

/-- The AND gate number `k`. -/
theorem Ag2pcProgram.getElem?_andSteps {program : Ag2pcProgram} {step : GateStep}
    (h : step ∈ gateSteps 0 0 program.gates) (htyp : step.gate.typ = .and) :
    program.andSteps[step.andIndex]? = some step :=
  (getElem?_filter_gateSteps h htyp).2

/-- There are as many AND steps as AND gates. -/
theorem length_filter_gateSteps (i k : ℕ) (gates : List Ag2pcProgramGate) :
    ((gateSteps i k gates).filter fun step => step.gate.typ = .and).length = countAnds gates := by
  induction gates generalizing i k with
  | nil => rfl
  | cons gate rest ih =>
    have hrest := ih (i + 1) (nextAnd k gate)
    unfold countAnds at hrest ⊢
    rw [gateSteps, List.filter_cons, List.filter_cons]
    by_cases hand : gate.typ = .and
    · simpa [hand] using hrest
    · simpa [hand] using hrest

/-- The count of AND gates after some gates. -/
theorem foldl_nextAnd (k : ℕ) (gates : List Ag2pcProgramGate) :
    gates.foldl nextAnd k = k + countAnds gates := by
  induction gates generalizing k with
  | nil => rfl
  | cons gate rest ih =>
    rw [List.foldl_cons, ih, countAnds, countAnds, List.filter_cons, nextAnd]
    cases htyp : gate.typ <;> simp
    omega

variable {program : Ag2pcProgram} {persist : ℕ → Bool} {lastUse : ℕ → ℤ}

/-- With the liveness of a well-formed program, the layout is well formed. -/
theorem Ag2pcProgram.Liveness.layout_wellFormed (h : program.Liveness persist lastUse)
    (hwf : program.WellFormed) :
    (program.layout persist lastUse).WellFormed program.gates.length := by
  have hreads {i : ℕ} (hi : i < program.gates.length) :
      (program.layout persist lastUse).reads i = program.gates[i].reads := by
    simp [layout, hi]
  constructor
  · intro i hi
    rw [hreads hi]
    exact Ag2pcProgramGate.reads_nodup _
  · intro i hi
    rw [hreads hi]
    exact hwf.reads i _ (List.getElem?_eq_getElem hi)
  · intro i hi
    rw [hreads hi]
    exact h.lastUse i _ (List.getElem?_eq_getElem hi)

namespace Ag2pcRunState

variable {M : Type}

/-- The wires a gate reads, as the liveness pass visits them. -/
theorem livenessGate_lastUse (i : ℕ) (gate : Ag2pcProgramGate) (state : Ag2pcRunState M) (w : ℕ) :
    (livenessGate i gate state).lastUse w = if w ∈ gate.reads then
    (i : ℤ) else state.lastUse w := by
  unfold livenessGate Ag2pcProgramGate.reads
  by_cases htyp : gate.typ = .inv
  · simp [htyp, Function.update_apply]
  · by_cases hsame : gate.in1 = gate.in0
    · by_cases h0 : w = gate.in0
      · simp [htyp, hsame, h0]
      · simp [htyp, hsame, h0]
    · by_cases h1 : w = gate.in1
      · simp [htyp, hsame, h1]
      · simp [htyp, hsame, h1, Function.update_apply]

/-- The gates from a position on mark their AND outputs and their last uses. -/
theorem livenessGates_spec (gates : List Ag2pcProgramGate) (i : ℕ) (state : Ag2pcRunState M)
    (hlast : ∀ w, state.lastUse w < i) :
    ∃ persist lastUse,
      livenessGates i gates state =
        { state with
          persist := persist, lastUse := lastUse, numAnds := state.numAnds + countAnds gates } ∧
      (∀ w < state.numInputs + i, persist w = state.persist w) ∧
      (∀ j gate, gates[j]? = some gate → gate.typ = .and →
        persist (state.numInputs + i + j) = true) ∧
      (∀ w, state.lastUse w ≤ lastUse w) ∧
      (∀ j gate, gates[j]? = some gate → ∀ w ∈ gate.reads, ((i + j : ℕ) : ℤ) ≤ lastUse w) := by
  rw [← foldl_nextAnd]
  induction gates generalizing i state with
  | nil => exact ⟨_, _, rfl, by simp, by simp, by simp, by simp⟩
  | cons gate rest ih =>
    have hle (w : ℕ) : state.lastUse w ≤ (livenessGate i gate state).lastUse w := by
      rw [livenessGate_lastUse]
      split
      · exact (hlast w).le
      · exact le_rfl
    have hlt (w : ℕ) : (livenessGate i gate state).lastUse w < ((i + 1 : ℕ) : ℤ) := by
      rw [livenessGate_lastUse]
      have hw := hlast w
      split <;> omega
    obtain ⟨persist, lastUse, heq, hkeep, hand, hmono, huse⟩ :=
      ih (i + 1) (livenessGate i gate state) hlt
    refine ⟨persist, lastUse, heq, fun w hw => ?_, fun j g hj htyp => ?_,
      fun w => (hle w).trans (hmono w), fun j g hj w hw => ?_⟩
    · rw [hkeep w (Nat.lt_succ_of_lt hw)]
      exact Function.update_of_ne hw.ne _ _
    · cases j with
      | zero =>
        obtain rfl : gate = g := by simpa using hj
        have hwritten := hkeep (state.numInputs + i) (Nat.lt_succ_self _)
        rw [Nat.add_zero, hwritten]
        change update state.persist (state.numInputs + i) _ (state.numInputs + i) = true
        rw [Function.update_self, htyp]
        rfl
      | succ j =>
        rw [show state.numInputs + i + (j + 1) = state.numInputs + (i + 1) + j by omega]
        exact hand j g (by simpa using hj) htyp
    · cases j with
      | zero =>
        obtain rfl : gate = g := by simpa using hj
        have huse := hmono w
        rw [livenessGate_lastUse, if_pos hw] at huse
        simpa using huse
      | succ j =>
        rw [show i + (j + 1) = i + 1 + j by omega]
        exact huse j g (by simpa using hj) w hw

/-- Marked wires are persistent. -/
theorem foldl_update_true (outputs : List ℕ) (persist : ℕ → Bool) (w : ℕ) :
    outputs.foldl (fun persist out => update persist out true) persist w =
      (persist w || decide (w ∈ outputs)) := by
  induction outputs generalizing persist with
  | nil => simp
  | cons out rest ih =>
    rw [List.foldl_cons, ih]
    by_cases h : w = out
    · simp [h]
    · simp [h]

/-- The liveness pass finds the liveness of a program. -/
theorem livenessPass_spec (program : Ag2pcProgram) (state : Ag2pcRunState M)
    (hinputs : state.numInputs = program.numInputs) :
    ∃ persist lastUse,
      livenessPass program state =
        { state with
          persist := persist, lastUse := lastUse, numAnds := countAnds program.gates } ∧
      program.Liveness persist lastUse := by
  obtain ⟨persist, lastUse, heq, hkeep, hand, -, huse⟩ := livenessGates_spec program.gates 0
    { state with
      numAnds := 0, lastUse := fun _ => -1, persist := fun w => decide (w < state.numInputs) }
    (fun _ => by simp)
  refine ⟨program.outputs.foldl (fun persist out => update persist out true) persist, lastUse, ?_,
    fun w hw => ?_, fun step hstep => ?_, fun w hw => ?_, fun i gate hi w hw => ?_⟩
  · unfold livenessPass
    simp only [heq, Nat.zero_add]
  · rw [foldl_update_true, hkeep w (by simpa [hinputs] using hw)]
    simp [hinputs, hw]
  · obtain ⟨hmem, htyp⟩ := List.mem_filter.mp hstep
    have hget := getElem?_of_mem_gateSteps hmem
    have hpersist := hand _ _ hget (by simpa using htyp)
    rw [foldl_update_true, ← hinputs]
    simpa using .inl hpersist
  · rw [foldl_update_true]
    simp [hw]
  · simpa using huse i gate hi w hw

end Ag2pcRunState

/-- Every batch drawn from the triple pool has the size asked for. -/
def FullBatches (draw : ℕ → List AShareBundle) : Prop := ∀ j, (draw j).length = drawBatch

namespace SlotMaskCursor

variable {M : Type} {draw : ℕ → List AShareBundle} {L : Layout} {i k : ℕ}

/-- The cursor's slots, as the allocator has them. -/
def slots (cursor : SlotMaskCursor M) : Slots :=
  ⟨cursor.state.phys, cursor.state.numSlots, cursor.freelist⟩

/-- The batch in use after `k` AND gates. -/
def Drawn (draw : ℕ → List AShareBundle) (k : ℕ) (cursor : SlotMaskCursor M) : Prop :=
  (k = 0 ∧ cursor.lgBuf = [] ∧ cursor.lgOff = 0 ∧ cursor.drawn = 0) ∨
    ∃ b, cursor.lgBuf = draw b ∧ 0 < cursor.lgOff ∧ cursor.lgOff ≤ drawBatch ∧
      cursor.drawn = b + 1 ∧ k = b * drawBatch + cursor.lgOff

/-- A refilled cursor is at the share of the next AND gate. -/
theorem Drawn.refill {cursor : SlotMaskCursor M} (h : Drawn draw k cursor)
    (hdraw : FullBatches draw) :
    cursor.refill draw = { cursor with
      lgBuf := draw (k / drawBatch), lgOff := k % drawBatch, drawn := k / drawBatch + 1 } := by
  have hpos : 0 < drawBatch := by decide
  rcases h with ⟨rfl, hbuf, hoff, hdrawn⟩ | ⟨b, hbuf, hlow, hhigh, hdrawn, rfl⟩
  · rw [SlotMaskCursor.refill, if_pos (by simp [hbuf]), hdrawn, Nat.zero_div, Nat.zero_mod]
  · rcases hhigh.lt_or_eq with hlt | heq
    · have hdiv : (b * drawBatch + cursor.lgOff) / drawBatch = b := by
        rw [Nat.mul_comm, Nat.mul_add_div hpos, Nat.div_eq_of_lt hlt, Nat.add_zero]
      have hmod : (b * drawBatch + cursor.lgOff) % drawBatch = cursor.lgOff := by
        rw [Nat.mul_comm, Nat.mul_add_mod, Nat.mod_eq_of_lt hlt]
      rw [SlotMaskCursor.refill, if_neg (by rw [hbuf, hdraw]; omega), hdiv, hmod, ← hbuf, ← hdrawn]
    · have hnext : b * drawBatch + cursor.lgOff = (b + 1) * drawBatch := by
        rw [heq, Nat.succ_mul]
      rw [SlotMaskCursor.refill, if_pos (by rw [hbuf, hdraw]; omega), hnext,
        Nat.mul_div_cancel _ hpos, Nat.mul_mod_left, hdrawn]

/-- Placing a share allocates a slot and writes it. -/
theorem place_eq (cursor : SlotMaskCursor M) (wire : ℕ) (value : AShareBundle) :
    cursor.place wire value =
      { cursor with
        state := { cursor.state with
          phys := (cursor.slots.assign (cursor.state.persist wire) wire).slot
          numSlots := (cursor.slots.assign (cursor.state.persist wire) wire).count
          wireSlot := update cursor.state.wireSlot
            ((cursor.slots.assign (cursor.state.persist wire) wire).slot wire) value
          maskInput := update cursor.state.maskInput
            ((cursor.slots.assign (cursor.state.persist wire) wire).slot wire) 0 }
        freelist := (cursor.slots.assign (cursor.state.persist wire) wire).free } := by
  unfold place allocSlot Slots.assign slots
  cases cursor.state.persist wire with
  | true => rfl
  | false =>
    cases cursor.freelist with
    | nil => rfl
    | cons slot rest => rfl

/-- Placing a share does not move in the batch. -/
theorem place_lgOff (cursor : SlotMaskCursor M) (wire : ℕ) (value : AShareBundle) :
    (cursor.place wire value).lgOff = cursor.lgOff := by
  rw [place_eq]

/-- Freeing dead wires is the allocator's release. -/
theorem foldl_freeIfDead (reads : List ℕ) (cursor : SlotMaskCursor M)
    (hpersist : L.persist = cursor.state.persist) (hlast : L.lastUse = cursor.state.lastUse) :
    reads.foldl (freeIfDead i) cursor =
      { cursor with freelist := (reads.foldl (L.release i) cursor.slots).free } := by
  induction reads generalizing cursor with
  | nil => rfl
  | cons w rest ih =>
    rw [List.foldl_cons, List.foldl_cons, freeIfDead, Layout.release, hpersist, hlast]
    split
    · exact ih _ hpersist hlast
    · exact ih _ hpersist hlast

/-- Place the share of a gate, then free the wires used last. -/
def settle (i : ℕ) (reads : List ℕ) (wire : ℕ) (value : AShareBundle) (lgOff : ℕ)
    (cursor : SlotMaskCursor M) : SlotMaskCursor M :=
  reads.foldl (freeIfDead i) { cursor.place wire value with lgOff := lgOff }

/-- A gate's placement and its releases are one step of the allocator. -/
theorem settle_eq {reads : List ℕ} {cursor : SlotMaskCursor M} (hreads : L.reads i = reads)
    (hpersist : L.persist = cursor.state.persist) (hlast : L.lastUse = cursor.state.lastUse)
    (value : AShareBundle) (lgOff : ℕ) :
    cursor.settle i reads (L.inputs + i) value lgOff =
      { cursor with
        state := { cursor.state with
          phys := (L.step i cursor.slots).slot
          numSlots := (L.step i cursor.slots).count
          wireSlot :=
            update cursor.state.wireSlot ((L.step i cursor.slots).slot (L.inputs + i)) value
          maskInput :=
            update cursor.state.maskInput ((L.step i cursor.slots).slot (L.inputs + i)) 0 }
        freelist := (L.step i cursor.slots).free
        lgOff := lgOff } := by
  rw [settle, place_eq]
  refine (foldl_freeIfDead (L := L) reads _ (by exact hpersist) (by exact hlast)).trans ?_
  unfold Layout.step
  rw [(release_foldl_slot _ _).1, (release_foldl_slot _ _).2, hreads, hpersist]
  rfl

/-- The slots before the first gate. -/
def initialSlots (program : Ag2pcProgram) : Slots where
  slot := fun wire => if wire < program.numInputs then wire else 2 ^ 32 - 1
  count := program.numInputs
  free := []

/-- The slot of each wire after the slot pass. -/
def finalSlot (program : Ag2pcProgram) (L : Layout) : ℕ → ℕ :=
  (L.run (initialSlots program) program.gates.length).slot

/-- The masked bits which the slot pass leaves: those of the inputs, and zeros in place of the
rest. -/
def placeholder (program : Ag2pcProgram) (base : Ag2pcRunState M) (w : ℕ) : UInt8 :=
  if w < program.numInputs then base.maskInput w else 0

/-- The memory of the slot pass before gate `i`: the slots are those of the allocator, and the
needed wires have their shares and their placeholders. -/
structure Placed (program : Ag2pcProgram) (base : Ag2pcRunState M) (share : ℕ → AShareBundle)
    (i : ℕ) (cursor : SlotMaskCursor M) : Prop where
  frame : cursor.state = { base with
    phys := cursor.state.phys, numSlots := cursor.state.numSlots
    wireSlot := cursor.state.wireSlot, maskInput := cursor.state.maskInput
    repA := cursor.state.repA, repB := cursor.state.repB }
  slots : cursor.slots = (program.layout base.persist base.lastUse).run (initialSlots program) i
  holds : (program.layout base.persist base.lastUse).Holds program.gates.length
    (finalSlot program (program.layout base.persist base.lastUse)) (fun _ => False) i
    cursor.state.wireSlot share
  masks : (program.layout base.persist base.lastUse).Holds program.gates.length
    (finalSlot program (program.layout base.persist base.lastUse)) (fun _ => False) i
    cursor.state.maskInput (placeholder program base)

variable {program : Ag2pcProgram} {base : Ag2pcRunState M} {share : ℕ → AShareBundle}
  {cursor : SlotMaskCursor M}

/-- The allocator's invariant holds at the end of a well-formed program. -/
theorem run_allocated (hwf : program.WellFormed) {persist : ℕ → Bool} {lastUse : ℕ → ℤ}
    (hlive : program.Liveness persist lastUse) :
    (program.layout persist lastUse).Allocated program.gates.length
      ((program.layout persist lastUse).run (initialSlots program) program.gates.length) :=
  (Layout.Allocated.init (program.layout persist lastUse) fun _ hw => if_pos hw).run
    (hlive.layout_wellFormed hwf) le_rfl

/-- The allocator keeps the needed wires of a well-formed program apart. -/
theorem finalSlot_apart (hwf : program.WellFormed) {persist : ℕ → Bool} {lastUse : ℕ → ℤ}
    (hlive : program.Liveness persist lastUse) :
    (program.layout persist lastUse).Apart program.gates.length
      (finalSlot program (program.layout persist lastUse)) :=
  (run_allocated hwf hlive).apart

/-- Inputs are in the slots of their own numbers. -/
theorem finalSlot_input (L : Layout) (hinputs : L.inputs = program.numInputs) {w : ℕ}
    (hw : w < program.numInputs) : finalSlot program L w = w := by
  have hstay := Layout.run_slot_of_lt (L := L) (s := initialSlots program) (i := 0)
    (show w < L.inputs + 0 by omega) (Nat.zero_le program.gates.length)
  exact hstay.trans (if_pos hw)

/-- A gate of the slot pass finds the shares of the wires it reads. -/
theorem Placed.read (h : Placed program base share i cursor) (hwf : program.WellFormed)
    (hlive : program.Liveness base.persist base.lastUse) {gate : Ag2pcProgramGate}
    (hgate : program.gates[i]? = some gate) {w : ℕ} (hw : w ∈ gate.reads) :
    cursor.state.wslot w = share w := by
  have hi : i < program.gates.length := (List.getElem?_eq_some_iff.mp hgate).1
  have hphys : cursor.state.phys w =
      finalSlot program (program.layout base.persist base.lastUse) w := by
    have hslot := congrArg (fun s : Slots => s.slot w) h.slots
    exact hslot.trans (Layout.run_slot_of_lt (hwf.reads i gate hgate w hw) hi.le).symm
  rw [Ag2pcRunState.wslot, hphys]
  exact h.holds.read (hlive.layout_wellFormed hwf) hi
    (by simpa [Ag2pcProgram.layout, hgate] using hw)

/-- Placing the share of a gate keeps the memory invariant. -/
theorem Placed.settle (h : Placed program base share i cursor) (hwf : program.WellFormed)
    (hlive : program.Liveness base.persist base.lastUse) {gate : Ag2pcProgramGate}
    (hgate : program.gates[i]? = some gate) (lgOff : ℕ) :
    Placed program base share (i + 1) (cursor.settle i gate.reads (program.numInputs + i)
      (share (program.numInputs + i)) lgOff) := by
  have hi : i < program.gates.length := (List.getElem?_eq_some_iff.mp hgate).1
  have hpersist : base.persist = cursor.state.persist := by rw [h.frame]
  have hlast : base.lastUse = cursor.state.lastUse := by rw [h.frame]
  have hapart := finalSlot_apart hwf hlive
  have hreads : (program.layout base.persist base.lastUse).reads i = gate.reads := by
    simp [Ag2pcProgram.layout, hgate]
  have hrelease := settle_eq hreads hpersist hlast (share (program.numInputs + i)) lgOff
  have hslots : (program.layout base.persist base.lastUse).step i cursor.slots =
      (program.layout base.persist base.lastUse).run (initialSlots program) (i + 1) := by
    rw [h.slots]
    rfl
  have hout : ((program.layout base.persist base.lastUse).step i cursor.slots).slot
      (program.numInputs + i) =
      finalSlot program (program.layout base.persist base.lastUse) (program.numInputs + i) := by
    rw [hslots]
    exact (Layout.run_slot_of_lt (Nat.lt_succ_self _) hi).symm
  refine (congrArg (Placed program base share (i + 1)) hrelease).mpr ?_
  constructor
  · conv_lhs => rw [h.frame]
  · exact hslots
  · have hwrite := h.holds.write hapart (fun _ hfalse => hfalse.elim) hi
    change Layout.Holds _ _ _ _ _ (update cursor.state.wireSlot
      (((program.layout base.persist base.lastUse).step i cursor.slots).slot
        (program.numInputs + i)) _) _
    rw [hout]
    exact hwrite
  · have hwrite := h.masks.write hapart (fun _ hfalse => hfalse.elim) hi
    have hzero : placeholder program base (program.numInputs + i) = 0 :=
      if_neg (Nat.le_add_right _ _).not_gt
    change Layout.Holds _ _ _ _ _ (update cursor.state.maskInput
      (((program.layout base.persist base.lastUse).step i cursor.slots).slot
        (program.numInputs + i)) _) _
    rw [hout, ← hzero]
    exact hwrite

/-- Settling a gate touches neither the batch in use nor the collected shares. -/
theorem Placed.settle_other (h : Placed program base share i cursor) {gate : Ag2pcProgramGate}
    (hgate : program.gates[i]? = some gate) (value : AShareBundle) (lgOff : ℕ)
    {next : SlotMaskCursor M}
    (hnext : cursor.settle i gate.reads (program.numInputs + i) value lgOff = next) :
    next.lgBuf = cursor.lgBuf ∧ next.lgOff = lgOff ∧ next.drawn = cursor.drawn ∧
      next.state.repA = cursor.state.repA ∧ next.state.repB = cursor.state.repB := by
  have hpersist : base.persist = cursor.state.persist := by rw [h.frame]
  have hlast : base.lastUse = cursor.state.lastUse := by rw [h.frame]
  have hreads : (program.layout base.persist base.lastUse).reads i = gate.reads := by
    simp [Ag2pcProgram.layout, hgate]
  have hrelease := settle_eq hreads hpersist hlast value lgOff
  rw [← hnext, show program.numInputs = (program.layout base.persist base.lastUse).inputs from rfl,
    hrelease]
  exact ⟨rfl, rfl, rfl, rfl, rfl⟩

/-- The invariant of the slot pass before gate `i`, with `k` AND gates before it. -/
structure Inv (program : Ag2pcProgram) (draw : ℕ → List AShareBundle) (base : Ag2pcRunState M)
    (share : ℕ → AShareBundle) (i k : ℕ) (cursor : SlotMaskCursor M) : Prop where
  placed : Placed program base share i cursor
  drawn : Drawn draw k cursor
  repA : cursor.state.repA = (program.andSteps.take k).map fun step => share step.gate.in0
  repB : cursor.state.repB = (program.andSteps.take k).map fun step => share step.gate.right

/-- A gate which draws no share keeps the invariant of the slot pass. -/
theorem Inv.keep (h : Inv program draw base share i k cursor) (hwf : program.WellFormed)
    (hlive : program.Liveness base.persist base.lastUse) {gate : Ag2pcProgramGate}
    (hgate : program.gates[i]? = some gate) (hnext : nextAnd k gate = k) {next : SlotMaskCursor M}
    (heq : next = cursor.settle i gate.reads (program.numInputs + i)
      (share (program.numInputs + i)) cursor.lgOff) :
    Inv program draw base share (i + 1) (nextAnd k gate) next := by
  obtain ⟨hbuf, hoff, hdrawn, hrepA, hrepB⟩ := h.placed.settle_other hgate _ _ heq.symm
  rw [hnext]
  refine ⟨heq ▸ h.placed.settle hwf hlive hgate _, ?_, hrepA.trans h.repA, hrepB.trans h.repB⟩
  unfold Drawn
  rw [hbuf, hoff, hdrawn]
  exact h.drawn

/-- A gate keeps the invariant of the slot pass. -/
theorem Inv.gate (h : Inv program draw base share i k cursor) (hwf : program.WellFormed)
    (hlive : program.Liveness base.persist base.lastUse) (hdraw : FullBatches draw)
    {gate : Ag2pcProgramGate} (hstep : ⟨i, k, gate⟩ ∈ gateSteps 0 0 program.gates)
    (hinputs : base.numInputs = program.numInputs)
    (hshare : share (program.numInputs + i) =
      GateStep.share draw ⟨i, k, gate⟩ (share gate.in0) (share gate.right)) :
    Inv program draw base share (i + 1) (nextAnd k gate) (cursor.gate draw i gate) := by
  have hgate : program.gates[i]? = some gate := getElem?_of_mem_gateSteps hstep
  have hnum : cursor.state.numInputs = program.numInputs := by rw [h.placed.frame, ← hinputs]
  have hin0 := h.placed.read hwf hlive hgate gate.right_mem.1
  have hright := h.placed.read hwf hlive hgate gate.right_mem.2
  cases htyp : gate.typ with
  | and =>
    have hget := Ag2pcProgram.getElem?_andSteps hstep htyp
    have htake {A : Type} (f : GateStep → A) : (program.andSteps.take (k + 1)).map f =
        (program.andSteps.take k).map f ++ [f ⟨i, k, gate⟩] := by
      rw [List.take_add_one, hget, List.map_append]
      rfl
    have hin1 : gate.right = gate.in1 := by simp [Ag2pcProgramGate.right, htyp]
    rw [hin1] at hright
    have hdrawnShare : share (program.numInputs + i) = drawnShare draw k := by
      rw [hshare, GateStep.share, htyp]
    have hcollected : Drawn draw k (cursor.collect gate) := h.drawn
    have hrefill := hcollected.refill hdraw
    have hfetched : Placed program base share i ((cursor.collect gate).refill draw) := by
      rw [hrefill]
      refine ⟨?_, h.placed.slots, h.placed.holds, h.placed.masks⟩
      conv_lhs => rw [SlotMaskCursor.collect, h.placed.frame]
      rfl
    have heq : cursor.gate draw i gate =
        ((cursor.collect gate).refill draw).settle i gate.reads (program.numInputs + i)
          (share (program.numInputs + i)) (k % drawBatch + 1) := by
      rw [hdrawnShare, SlotMaskCursor.settle, SlotMaskCursor.gate]
      simp only [htyp]
      rw [hnum, place_lgOff, hrefill]
      rfl
    obtain ⟨hbuf, hoff, hdrawn, hrepA, hrepB⟩ := hfetched.settle_other hgate _ _ rfl
    have hnext : nextAnd k gate = k + 1 := by rw [nextAnd, htyp]
    rw [heq, hnext]
    refine ⟨hfetched.settle hwf hlive hgate _,
      .inr ⟨k / drawBatch, hbuf.trans (congrArg lgBuf hrefill), ?_, ?_,
        hdrawn.trans (congrArg SlotMaskCursor.drawn hrefill), ?_⟩, ?_, ?_⟩
    · rw [hoff]
      omega
    · rw [hoff]
      exact Nat.mod_lt _ (by decide)
    · rw [hoff]
      have := Nat.div_add_mod' k drawBatch
      omega
    · rw [hrepA, htake, ← h.repA, hrefill, ← hin0]
      rfl
    · rw [hrepB, htake, ← h.repB, hrefill, hin1, ← hright]
      rfl
  | xor =>
    rw [show gate.right = gate.in1 by simp [Ag2pcProgramGate.right, htyp]] at hright hshare
    have heq : cursor.gate draw i gate = cursor.settle i gate.reads (program.numInputs + i)
        (share (program.numInputs + i)) cursor.lgOff := by
      rw [hshare, GateStep.share, SlotMaskCursor.settle, SlotMaskCursor.gate]
      simp only [htyp]
      rw [hin0, hright, hnum, place_eq]
    exact h.keep hwf hlive hgate (by rw [nextAnd, htyp]) heq
  | inv =>
    have heq : cursor.gate draw i gate = cursor.settle i gate.reads (program.numInputs + i)
        (share (program.numInputs + i)) cursor.lgOff := by
      rw [hshare, GateStep.share, SlotMaskCursor.settle, SlotMaskCursor.gate]
      simp only [htyp]
      rw [hin0, hnum, place_eq]
    exact h.keep hwf hlive hgate (by rw [nextAnd, htyp]) heq

/-- The gates from a position on keep the invariant of the slot pass. -/
theorem Inv.gates (h : Inv program draw base share i k cursor) (hwf : program.WellFormed)
    (hlive : program.Liveness base.persist base.lastUse) (hdraw : FullBatches draw)
    (hinputs : base.numInputs = program.numInputs)
    (hshare : ∀ step ∈ gateSteps 0 0 program.gates, share (program.numInputs + step.index) =
      step.share draw (share step.gate.in0) (share step.gate.right))
    {gates : List Ag2pcProgramGate}
    (hgates : ∀ step ∈ gateSteps i k gates, step ∈ gateSteps 0 0 program.gates) :
    Inv program draw base share (i + gates.length) (k + countAnds gates)
      (SlotMaskCursor.gates draw i gates cursor) := by
  rw [← foldl_nextAnd]
  induction gates generalizing i k cursor with
  | nil => exact h
  | cons gate rest ih =>
    have hstep := hgates _ List.mem_cons_self
    rw [List.length_cons, Nat.add_comm rest.length, ← Nat.add_assoc]
    exact ih (h.gate hwf hlive hdraw hstep hinputs (hshare _ hstep)) fun step hmem =>
      hgates step (List.mem_cons_of_mem _ hmem)

end SlotMaskCursor

section slotMaskPass

open SlotMaskCursor
  (finalSlot finalSlot_input finalSlot_apart run_allocated initialSlots placeholder)

variable {M : Type} {draw : ℕ → List AShareBundle} {program : Ag2pcProgram}
  {base : Ag2pcRunState M} {share : ℕ → AShareBundle}

/-- What the slot pass leaves: slots which keep the needed wires apart, the shares and placeholders
of all persistent wires, and the shares of the AND inputs. -/
structure Slotted (program : Ag2pcProgram) (base : Ag2pcRunState M) (share : ℕ → AShareBundle)
    (state : Ag2pcRunState M) : Prop where
  frame : state = { base with
    phys := state.phys, numSlots := state.numSlots, wireSlot := state.wireSlot
    maskInput := state.maskInput, repA := state.repA, repB := state.repB }
  phys_lt : ∀ w < program.numInputs + program.gates.length, state.phys w < state.numSlots
  apart : (program.layout base.persist base.lastUse).Apart program.gates.length state.phys
  phys_input : ∀ w < program.numInputs, state.phys w = w
  held : ∀ w < program.numInputs + program.gates.length, base.persist w →
    state.wireSlot (state.phys w) = share w
  masks : ∀ w < program.numInputs + program.gates.length, base.persist w →
    state.maskInput (state.phys w) = placeholder program base w
  repA : state.repA = program.andSteps.map fun step => share step.gate.in0
  repB : state.repB = program.andSteps.map fun step => share step.gate.right

/-- The slot pass, on a state which the liveness pass has prepared. -/
theorem slotMaskPass_spec (hwf : program.WellFormed)
    (hlive : program.Liveness base.persist base.lastUse) (hdraw : FullBatches draw)
    (hinputs : base.numInputs = program.numInputs) (hslots : base.numSlots = program.numInputs)
    (hinit : ∀ w < program.numInputs, base.wireSlot w = share w)
    (hshare : ∀ step ∈ gateSteps 0 0 program.gates, share (program.numInputs + step.index) =
      step.share draw (share step.gate.in0) (share step.gate.right)) :
    Slotted program base share (slotMaskPass draw program base) := by
  have hinput {w : ℕ} (hw : w < program.numInputs) :
      finalSlot program (program.layout base.persist base.lastUse) w = w :=
    finalSlot_input _ rfl hw
  have hstart : SlotMaskCursor.Inv program draw base share 0 0
      ⟨{ base with
        phys := fun wire => if wire < base.numInputs then wire else 2 ^ 32 - 1
        repA := [], repB := [] }, [], [], 0, 0⟩ := by
    refine ⟨⟨rfl, ?_, fun w _ hneeded => ?_, fun w _ hneeded => ?_⟩, .inl ⟨rfl, rfl, rfl, rfl⟩, rfl,
      rfl⟩
    · change Slots.mk _ base.numSlots [] = initialSlots program
      rw [hinputs, hslots]
      rfl
    · have hw : w < program.numInputs := (hneeded.resolve_left fun hfalse => hfalse).1
      rw [hinput hw]
      exact hinit w hw
    · have hw : w < program.numInputs := (hneeded.resolve_left fun hfalse => hfalse).1
      rw [hinput hw]
      exact (if_pos hw).symm
  have hpass := hstart.gates hwf hlive hdraw hinputs hshare fun _ hmem => hmem
  rw [Nat.zero_add, Nat.zero_add] at hpass
  obtain ⟨⟨hframe, hslots', hholds, hmasks⟩, -, hrepA, hrepB⟩ := hpass
  have hphys : (slotMaskPass draw program base).phys =
      finalSlot program (program.layout base.persist base.lastUse) :=
    congrArg Slots.slot hslots'
  have htake : program.andSteps.take (countAnds program.gates) = program.andSteps :=
    List.take_of_length_le (length_filter_gateSteps 0 0 program.gates).le
  rw [htake] at hrepA hrepB
  refine ⟨hframe, fun w hw => ?_, ?_, fun w hw => ?_, fun w hw hpersist => ?_,
    fun w hw hpersist => ?_, hrepA, hrepB⟩
  · rw [hphys, show (slotMaskPass draw program base).numSlots =
      ((program.layout base.persist base.lastUse).run (initialSlots program)
        program.gates.length).count from congrArg Slots.count hslots']
    exact (run_allocated hwf hlive).separated.slot_lt w hw
  · rw [hphys]
    exact finalSlot_apart hwf hlive
  · rw [hphys, hinput hw]
  · rw [hphys]
    exact hholds.final hw hpersist
  · rw [hphys]
    exact hmasks.final hw hpersist

end slotMaskPass

end Shachain2pc
