import Shachain2pc.Compat.GarblerPass

/-!
# The evaluator's pass

Bob keeps the mask share, the label, and the masked bit of every needed wire. He receives
a chunk whenever he has used up the last one; the chunks he asks for are those which Alice
sends. His check values are those of the honest run.
-/

namespace Shachain2pc

open Function (update)
open SlotAllocation

variable {M : Type} {base : Ag2pcRunState M} {i k : ℕ}

namespace HonestRun

variable (H : TweakableHash M) (R : HonestRun M)

/-- The masked bits Bob returns. -/
def andBits : List UInt8 :=
  R.program.andSteps.map fun step => R.masked H (R.program.numInputs + step.index)

/-- Bob's check value of an AND gate. -/
def checkB (step : GateStep) : Block :=
  evaluatorCheckValue R.deltaB (R.masked H step.gate.in0) (R.masked H step.gate.right)
    (R.masked H (R.program.numInputs + step.index)) (R.shareB step.gate.in0)
    (R.shareB step.gate.right) (R.sigmaB.getD step.andIndex default)
    (R.shareB (R.program.numInputs + step.index))

variable (tables : List GarbledTable)

/-- The table Bob uses for an AND gate. -/
def tableOn (step : GateStep) : GarbledTable :=
  tables.getD step.andIndex ⟨Block.zero, Block.zero, 0⟩

/-- Bob's label and masked bit of a gate's output, from the tables he receives. -/
def evalFnOn (step : GateStep) (x y : Block × UInt8) : Block × UInt8 :=
  match step.gate.typ with
  | .and =>
    let table := tableOn tables step
    let t := evaluatedLabel (R.tweakAt H step.andIndex) x.1 y.1 table.row0 table.row1
      x.2 y.2 (R.shareB step.gate.in0) (R.shareB step.gate.right)
      (R.sigmaB.getD step.andIndex default) (R.shareB (R.program.numInputs + step.index))
    (t, (table.bit ^^^ blockLsb1 t) &&& 1)
  | .xor => (blockXor x.1 y.1, (x.2 ^^^ y.2) &&& 1)
  | .inv => (x.1, (x.2 ^^^ 1) &&& 1)

/-- Bob's label and masked bit of each wire, from the tables he receives. -/
def evalsOn : ℕ → Block × UInt8 :=
  R.program.wires (R.evalFnOn H tables) fun w =>
    (R.inputsB.evalLabel.getD w Block.zero, R.inputsB.lambda.getD w 0)

/-- Bob's label of each wire. -/
def evalLabelOn (w : ℕ) : Block := (R.evalsOn H tables w).1

/-- Bob's masked bit of each wire. -/
def maskedOn (w : ℕ) : UInt8 := (R.evalsOn H tables w).2

/-- The byte Bob stores for an AND gate; its low bit is the masked bit. -/
def andByteOn (step : GateStep) : UInt8 :=
  (tableOn tables step).bit ^^^ blockLsb1
    (R.evalLabelOn H tables (R.program.numInputs + step.index))

/-- The bytes Bob stores for all AND gates. -/
def andBytesOn : List UInt8 := R.program.andSteps.map (R.andByteOn H tables)

/-- Bob's check value of an AND gate, from the tables he receives. -/
def checkOn (step : GateStep) : Block :=
  evaluatorCheckValue R.deltaB (R.maskedOn H tables step.gate.in0)
    (R.maskedOn H tables step.gate.right) (R.andByteOn H tables step) (R.shareB step.gate.in0)
    (R.shareB step.gate.right) (R.sigmaB.getD step.andIndex default)
    (R.shareB (R.program.numInputs + step.index))

variable {H R tables}

/-- Bob's labels and masked bits follow the gates. -/
theorem evalsOn_gate (hwf : R.program.WellFormed) {step : GateStep}
    (hstep : step ∈ gateSteps 0 0 R.program.gates) :
    R.evalsOn H tables (R.program.numInputs + step.index) =
      R.evalFnOn H tables step (R.evalsOn H tables step.gate.in0)
        (R.evalsOn H tables step.gate.right) :=
  hwf.wires_gate hstep

/-- The masked bit of an AND gate is the low bit of the byte stored for it. -/
theorem andByteOn_and_one (hwf : R.program.WellFormed) {step : GateStep}
    (hstep : step ∈ gateSteps 0 0 R.program.gates) (htyp : step.gate.typ = .and) :
    R.andByteOn H tables step &&& 1 = R.maskedOn H tables (R.program.numInputs + step.index) := by
  have heval : R.evalsOn H tables _ = _ := evalsOn_gate hwf hstep
  simp only [evalFnOn, htyp] at heval
  have hfirst := congrArg Prod.fst heval
  have hsecond := congrArg Prod.snd heval
  dsimp only at hfirst hsecond
  rw [← hfirst] at hsecond
  exact hsecond.symm

/-- The masked bit of a gate's output is a single bit. -/
theorem masked_and_one (hwf : R.program.WellFormed) {step : GateStep}
    (hstep : step ∈ gateSteps 0 0 R.program.gates) :
    R.masked H (R.program.numInputs + step.index) &&& 1 =
      R.masked H (R.program.numInputs + step.index) := by
  rw [masked, evals_gate hwf hstep, evalFn]
  cases step.gate.typ <;> simp only [UInt8.and_assoc, UInt8.and_self]

/-- The table which Alice sends for an AND gate. -/
theorem tableOn_tables {step : GateStep} (hstep : step ∈ gateSteps 0 0 R.program.gates)
    (htyp : step.gate.typ = .and) : tableOn (R.tables H) step = R.table H step := by
  rw [tableOn, tables, List.getD_eq_getElem?_getD, List.getElem?_map,
    Ag2pcProgram.getElem?_andSteps hstep htyp]
  rfl

/-- On Alice's tables, Bob's labels and masked bits are those of the honest run. -/
theorem evalsOn_tables : R.evalsOn H (R.tables H) = R.evals H := by
  refine Ag2pcProgram.wires_congr fun step hstep => ?_
  funext x y
  rw [evalFnOn, evalFn]
  cases htyp : step.gate.typ with
  | and =>
    simp only [tableOn_tables hstep htyp]
    rfl
  | xor => rfl
  | inv => rfl

/-- On Alice's tables, Bob stores single bits. -/
theorem andByteOn_tables (hwf : R.program.WellFormed) {step : GateStep}
    (hstep : step ∈ gateSteps 0 0 R.program.gates) (htyp : step.gate.typ = .and) :
    R.andByteOn H (R.tables H) step = R.masked H (R.program.numInputs + step.index) := by
  have hbyte : R.andByteOn H (R.tables H) step &&& 1 = _ := andByteOn_and_one hwf hstep htyp
  rw [maskedOn, evalsOn_tables] at hbyte
  rw [masked, ← hbyte, andByteOn, tableOn_tables hstep htyp]
  exact (bit_xor (blockLsb1_and_one _) (blockLsb1_and_one _)).symm

/-- On Alice's tables, Bob stores the masked bits. -/
theorem andBytesOn_tables (hwf : R.program.WellFormed) :
    R.andBytesOn H (R.tables H) = R.andBits H :=
  List.map_congr_left fun _ hmem => andByteOn_tables hwf (List.mem_filter.mp hmem).1
    (of_decide_eq_true (List.mem_filter.mp hmem).2)

/-- Alice sends one table for each AND gate. -/
theorem tables_length (H : TweakableHash M) (R : HonestRun M) :
    (R.tables H).length = countAnds R.program.gates := by
  rw [tables, List.length_map]
  exact length_filter_gateSteps 0 0 _

end HonestRun

/-- One AND gate of the evaluator, in terms of what it reads. -/
theorem evaluatorAndGate_eq (H : TweakableHash M) (state : Ag2pcRunState M)
    (gate : Ag2pcProgramGate) (out andIndex : ℕ) (g0 g1 : Block) (b : UInt8) {t : Block}
    {lg : UInt8}
    (ht : t = evaluatedLabel (H.tweak state.mitc) (state.evl gate.in0) (state.evl gate.in1) g0 g1
      (state.minp gate.in0) (state.minp gate.in1) (state.wslot gate.in0) (state.wslot gate.in1)
      (state.sigma.getD andIndex default) (state.wslot out))
    (hlg : lg = b ^^^ blockLsb1 t) :
    evaluatorAndGate H state gate out andIndex g0 g1 b =
      ({ (({ state with mitc := H.next state.mitc }).setEvl out t).setMinp out lg with
          lambdaAnd := state.lambdaAnd.set andIndex lg },
        evaluatorCheckValue state.delta (state.minp gate.in0) (state.minp gate.in1) lg
          (state.wslot gate.in0) (state.wslot gate.in1) (state.sigma.getD andIndex default)
          (state.wslot out)) := by
  subst hlg ht
  simp only [evaluatorAndGate, H.hash_eq]
  rfl

/-- The rows of a chunk are found at twice the position. -/
theorem getD_rows (tables : List GarbledTable) (pos : ℕ) {table : GarbledTable}
    (h : tables[pos]? = some table) :
    (tables.flatMap fun t => [t.row0, t.row1]).getD (2 * pos) Block.zero = table.row0 ∧
      (tables.flatMap fun t => [t.row0, t.row1]).getD (2 * pos + 1) Block.zero = table.row1 := by
  induction tables generalizing pos with
  | nil => cases h
  | cons first rest ih =>
    cases pos with
    | zero =>
      obtain rfl : first = table := by simpa using h
      exact ⟨rfl, rfl⟩
    | succ pos => exact ih pos (by simpa using h)

/-- Writing the next entry of a list which is filled from the front. -/
theorem set_take_append_replicate {A : Type} {entries : List A} {n : ℕ} {entry fill : A}
    (hget : entries[k]? = some entry) (hk : k < n) :
    (entries.take k ++ List.replicate (n - k) fill).set k entry =
      entries.take (k + 1) ++ List.replicate (n - (k + 1)) fill := by
  have hlength : (entries.take k).length = k :=
    List.length_take_of_le (List.getElem?_eq_some_iff.mp hget).1.le
  obtain ⟨m, hm⟩ := Nat.exists_eq_add_of_lt hk
  rw [show n - k = m + 1 by omega, show n - (k + 1) = m by omega, List.replicate_succ,
    List.set_append_right _ _ hlength.le, hlength, Nat.sub_self, List.set_cons_zero,
    List.take_add_one, hget, Option.toList_some, List.append_assoc, List.singleton_append]

namespace EvaluatorCursor

variable {H : TweakableHash M} {R : HonestRun M} {tables : List GarbledTable}
  {cursor : EvaluatorCursor M}

/-- The evaluator's memory before gate `i`, with `k` AND gates before it. -/
structure Evaluating (H : TweakableHash M) (R : HonestRun M) (base : Ag2pcRunState M) (i k : ℕ)
    (cursor : EvaluatorCursor M) : Prop where
  frame : cursor.state = { base with
    wireSlot := cursor.state.wireSlot, evalSlot := cursor.state.evalSlot
    maskInput := cursor.state.maskInput, lambdaAnd := cursor.state.lambdaAnd
    mitc := H.after R.mitc k }
  shares : base.Keeps R.program (fun w => base.persist w) i cursor.state.wireSlot R.shareB
  labels : base.Keeps R.program (fun _ => False) i cursor.state.evalSlot (R.evalLabel H)
  masks : base.Keeps R.program (fun _ => False) i cursor.state.maskInput (R.masked H)
  andIndex : cursor.andIndex = k
  andBits : cursor.state.lambdaAnd = (R.andBits H).take k ++
    List.replicate (max (countAnds R.program.gates) 1 - k) 0
  gamma : cursor.gamma = macBytes ((R.program.andSteps.take k).map (R.checkB H))

/-- The evaluator's memory before gate `i`, with `k` AND gates before it, on the tables received. -/
structure EvaluatingOn (H : TweakableHash M) (R : HonestRun M) (tables : List GarbledTable)
    (base : Ag2pcRunState M) (i k : ℕ) (cursor : EvaluatorCursor M) : Prop where
  frame : cursor.state = { base with
    wireSlot := cursor.state.wireSlot, evalSlot := cursor.state.evalSlot
    maskInput := cursor.state.maskInput, lambdaAnd := cursor.state.lambdaAnd
    mitc := H.after R.mitc k }
  shares : base.Keeps R.program (fun w => base.persist w) i cursor.state.wireSlot R.shareB
  labels : base.Keeps R.program (fun _ => False) i cursor.state.evalSlot (R.evalLabelOn H tables)
  masks : base.Keeps R.program (fun _ => False) i cursor.state.maskInput (R.maskedOn H tables)
  andIndex : cursor.andIndex = k
  andBits : cursor.state.lambdaAnd = (R.andBytesOn H tables).take k ++
    List.replicate (max (countAnds R.program.gates) 1 - k) 0
  gamma : cursor.gamma = macBytes ((R.program.andSteps.take k).map (R.checkOn H tables))

/-- The tables still to be used are those of the chunk in use, and those still on the stream. -/
def Receiving (tables : List GarbledTable) (k : ℕ) (cursor : EvaluatorCursor M) : Prop :=
  ∃ received rest : List GarbledTable,
    cursor.chunkG = received.flatMap (fun table => [table.row0, table.row1]) ∧
    cursor.chunkB = received.map (·.bit) ∧ cursor.chunkPos ≤ received.length ∧
    received.drop cursor.chunkPos ++ rest = tables.drop k ∧ cursor.stream = encodeTables rest

/-- The next table is in the chunk in use, after a receive if need be. -/
theorem Receiving.recvChunk {tables : List GarbledTable} {table : GarbledTable}
    (h : Receiving tables k cursor) (hands : cursor.state.numAnds = tables.length)
    (hindex : cursor.andIndex = k) (hget : tables[k]? = some table) :
    ∃ chunkG chunkB chunkPos stream,
      cursor.recvChunk = some { cursor with
        chunkG := chunkG, chunkB := chunkB, chunkPos := chunkPos, stream := stream } ∧
      chunkG.getD (2 * chunkPos) Block.zero = table.row0 ∧
      chunkG.getD (2 * chunkPos + 1) Block.zero = table.row1 ∧
      chunkB.getD chunkPos 0 = table.bit ∧
      Receiving tables (k + 1) { cursor with
        chunkG := chunkG, chunkB := chunkB, chunkPos := chunkPos + 1, stream := stream } := by
  obtain ⟨received, rest, hg, hb, hpos, hsplit, hstream⟩ := h
  have hdrop : tables.drop k = table :: tables.drop (k + 1) := by
    obtain ⟨hlt, hget⟩ := List.getElem?_eq_some_iff.mp hget
    rw [List.drop_eq_getElem_cons hlt, hget]
  -- a table of the chunk in use is used, and the position moves on
  have huse (received rest : List GarbledTable) (pos : ℕ) (hlt : pos < received.length)
      (hsplit : received.drop pos ++ rest = tables.drop k) :
      received[pos]? = some table ∧ received.drop (pos + 1) ++ rest = tables.drop (k + 1) := by
    rw [List.drop_eq_getElem_cons hlt, List.cons_append, hdrop, List.cons.injEq] at hsplit
    exact ⟨List.getElem?_eq_some_iff.mpr ⟨hlt, hsplit.1⟩, hsplit.2⟩
  have hbit (received : List GarbledTable) (pos : ℕ) (hget : received[pos]? = some table) :
      (received.map (·.bit)).getD pos 0 = table.bit := by
    rw [List.getD_eq_getElem?_getD, List.getElem?_map, hget]
    rfl
  rw [EvaluatorCursor.recvChunk]
  split
  · next hused =>
    have hall : received.drop cursor.chunkPos = [] := by
      rw [hused, hb, List.length_map, List.drop_length]
    rw [hall, List.nil_append] at hsplit
    have hne : rest ≠ [] := by
      rw [hsplit, hdrop]
      exact List.cons_ne_nil _ _
    have hn : min (cursor.state.numAnds - cursor.andIndex) garbleChunkAnds =
        (rest.take garbleChunkAnds).length := by
      rw [List.length_take, hsplit, List.length_drop, hands, hindex, Nat.min_comm]
    have hlen : 2 * (rest.take garbleChunkAnds).length =
        ((rest.take garbleChunkAnds).flatMap fun table => [table.row0, table.row1]).length := by
      rw [List.length_flatMap]
      simp [Nat.mul_comm]
    have hsent : cursor.stream = macBytes ((rest.take garbleChunkAnds).flatMap
        fun table => [table.row0, table.row1]) ++ ((rest.take garbleChunkAnds).map (·.bit) ++
          encodeTables (rest.drop garbleChunkAnds)) := by
      rw [hstream, encodeTables, if_neg hne, encodeChunk, List.append_assoc]
    have hpos' : 0 < (rest.take garbleChunkAnds).length := by
      rw [List.length_take]
      exact Nat.lt_min.mpr ⟨by decide, List.length_pos_of_ne_nil hne⟩
    obtain ⟨hfirst, hnext⟩ := huse (rest.take garbleChunkAnds) (rest.drop garbleChunkAnds) 0 hpos'
      (by rw [List.drop_zero, List.take_append_drop, hsplit])
    obtain ⟨hrow0, hrow1⟩ := getD_rows _ _ hfirst
    refine ⟨_, _, 0, _, ?_, hrow0, hrow1, hbit _ _ hfirst,
      rest.take garbleChunkAnds, rest.drop garbleChunkAnds, rfl, rfl, hpos', hnext, rfl⟩
    have hrecv := recvData_append ((rest.take garbleChunkAnds).map (·.bit))
      (encodeTables (rest.drop garbleChunkAnds))
    rw [List.length_map] at hrecv
    simp only [hn, hlen, hsent, recvBlock_append, Option.bind_eq_bind, Option.bind_some]
    simp only [hrecv, Option.bind_some]
    rfl
  · next hused =>
    have hlt : cursor.chunkPos < received.length := by
      rw [hb, List.length_map] at hused
      omega
    obtain ⟨hfirst, hnext⟩ := huse received rest _ hlt hsplit
    obtain ⟨hrow0, hrow1⟩ := getD_rows _ _ hfirst
    refine ⟨_, _, _, _, rfl, ?_, ?_, ?_, received, rest, hg, hb, hlt, hnext, hstream⟩
    · rw [hg, hrow0]
    · rw [hg, hrow1]
    · rw [hb, hbit _ _ hfirst]

/-- Writing the share, the label, and the masked bit of a gate keeps the evaluator's memory. -/
theorem EvaluatingOn.write (h : EvaluatingOn H R tables base i k cursor)
    (hready : Ready R.program R.shareB base) {gate : Ag2pcProgramGate}
    (hgate : R.program.gates[i]? = some gate) (hnext : nextAnd k gate = k)
    {next : EvaluatorCursor M} {bit : UInt8}
    (hbit : bit &&& 1 = R.maskedOn H tables (R.program.numInputs + i))
    (heq : next = { cursor with
      state := ((cursor.state.setWslot (R.program.numInputs + i)
        (R.shareB (R.program.numInputs + i))).setEvl (R.program.numInputs + i)
          (R.evalLabelOn H tables (R.program.numInputs + i))).setMinp
            (R.program.numInputs + i) bit }) :
    EvaluatingOn H R tables base (i + 1) (nextAnd k gate) next := by
  have hphys : cursor.state.phys = base.phys := by rw [h.frame]
  subst heq
  rw [hnext]
  constructor
  · rw [h.frame]
    rfl
  · change base.Keeps _ _ _ (update cursor.state.wireSlot (cursor.state.phys _) _) _
    rw [hphys]
    exact hready.write h.shares (fun _ hp => hp) hgate rfl
  · change base.Keeps _ _ _ (update cursor.state.evalSlot (cursor.state.phys _) _) _
    rw [hphys]
    exact hready.write h.labels (fun _ hfalse => hfalse.elim) hgate rfl
  · change base.Keeps _ _ _ (update cursor.state.maskInput (cursor.state.phys _) _) _
    rw [hphys]
    exact hready.write h.masks (fun _ hfalse => hfalse.elim) hgate hbit
  · exact h.andIndex
  · exact h.andBits
  · exact h.gamma

/-- A gate of the evaluator finds what he keeps of the wires it reads. -/
theorem EvaluatingOn.read (h : EvaluatingOn H R tables base i k cursor)
    (hready : Ready R.program R.shareB base)
    (hwf : R.program.WellFormed) {gate : Ag2pcProgramGate}
    (hgate : R.program.gates[i]? = some gate) {w : ℕ} (hw : w ∈ gate.reads) :
    cursor.state.wslot w = R.shareB w ∧ cursor.state.evl w = R.evalLabelOn H tables w ∧
      cursor.state.minp w = R.maskedOn H tables w := by
  have hphys : cursor.state.phys = base.phys := by rw [h.frame]
  rw [Ag2pcRunState.wslot, Ag2pcRunState.evl, Ag2pcRunState.minp, hphys]
  exact ⟨hready.read hwf h.shares hgate hw, hready.read hwf h.labels hgate hw,
    hready.read hwf h.masks hgate hw⟩

/-- An AND gate of the evaluator computes the label, the masked bit, and the check value from the
table. -/
theorem EvaluatingOn.gate_and (h : EvaluatingOn H R tables base i k cursor)
    (hready : Ready R.program R.shareB base) (hwf : R.program.WellFormed)
    (hdelta : base.delta = R.deltaB) (hsigma : base.sigma = R.sigmaB) {gate : Ag2pcProgramGate}
    (hstep : ⟨i, k, gate⟩ ∈ gateSteps 0 0 R.program.gates) (htyp : gate.typ = .and)
    {table : GarbledTable} (hget : tables[k]? = some table) :
    evaluatorAndGate H cursor.state gate
      (R.program.numInputs + i) k table.row0 table.row1 table.bit =
      ({ (({ cursor.state with mitc := H.after R.mitc (k + 1) }).setEvl (R.program.numInputs + i)
            (R.evalLabelOn H tables (R.program.numInputs + i))).setMinp (R.program.numInputs + i)
            (R.andByteOn H tables ⟨i, k, gate⟩) with
          lambdaAnd := cursor.state.lambdaAnd.set k (R.andByteOn H tables ⟨i, k, gate⟩) },
        R.checkOn H tables ⟨i, k, gate⟩) := by
  have hgate : R.program.gates[i]? = some gate := getElem?_of_mem_gateSteps hstep
  have hmitc : cursor.state.mitc = H.after R.mitc k := by rw [h.frame]
  have hdelta' : cursor.state.delta = R.deltaB := by rw [h.frame, ← hdelta]
  have hsigma' : cursor.state.sigma = R.sigmaB := by rw [h.frame, ← hsigma]
  have htable : HonestRun.tableOn tables ⟨i, k, gate⟩ = table := by
    rw [HonestRun.tableOn, List.getD_eq_getElem?_getD, hget]
    rfl
  have hout :
      cursor.state.wslot (R.program.numInputs + i) = R.shareB (R.program.numInputs + i) := by
    have hphys : cursor.state.phys = base.phys := by rw [h.frame]
    rw [Ag2pcRunState.wslot, hphys]
    exact h.shares _ (Nat.add_lt_add_left (List.getElem?_eq_some_iff.mp hgate).1 _)
      (.inl (hready.persist_and hstep htyp))
  have hright : gate.right = gate.in1 := by simp [Ag2pcProgramGate.right, htyp]
  obtain ⟨hw0, hl0, hm0⟩ := h.read hready hwf hgate gate.right_mem.1
  obtain ⟨hw1, hl1, hm1⟩ := h.read hready hwf hgate gate.right_mem.2
  have heval : R.evalsOn H tables _ = _ := HonestRun.evalsOn_gate hwf hstep
  simp only [HonestRun.evalFnOn, HonestRun.tweakAt, htyp, htable] at heval
  rw [hright] at hw1 hl1 hm1
  have ht : R.evalLabelOn H tables (R.program.numInputs + i) =
      evaluatedLabel (H.tweak cursor.state.mitc) (cursor.state.evl gate.in0)
        (cursor.state.evl gate.in1) table.row0 table.row1 (cursor.state.minp gate.in0)
        (cursor.state.minp gate.in1) (cursor.state.wslot gate.in0) (cursor.state.wslot gate.in1)
        (cursor.state.sigma.getD k default) (cursor.state.wslot (R.program.numInputs + i)) := by
    rw [hw0, hw1, hl0, hl1, hm0, hm1, hout, hmitc, hsigma', ← hright]
    exact congrArg Prod.fst heval
  have hlg : R.andByteOn H tables ⟨i, k, gate⟩ =
      table.bit ^^^ blockLsb1 (R.evalLabelOn H tables (R.program.numInputs + i)) := by
    rw [HonestRun.andByteOn, htable]
  have hcheck : evaluatorCheckValue cursor.state.delta (cursor.state.minp gate.in0)
      (cursor.state.minp gate.in1) (R.andByteOn H tables ⟨i, k, gate⟩)
      (cursor.state.wslot gate.in0) (cursor.state.wslot gate.in1)
      (cursor.state.sigma.getD k default) (cursor.state.wslot (R.program.numInputs + i)) =
        R.checkOn H tables ⟨i, k, gate⟩ := by
    rw [hw0, hw1, hm0, hm1, hout, hdelta', hsigma', HonestRun.checkOn, hright]
  have hnext : H.next cursor.state.mitc = H.after R.mitc (k + 1) := by
    rw [hmitc, TweakableHash.after_succ]
  rw [evaluatorAndGate_eq H cursor.state gate _ k _ _ _ ht hlg, hcheck, hnext]

/-- A gate of the evaluator goes through, and keeps his memory in step with the tables. -/
theorem EvaluatingOn.gate (h : EvaluatingOn H R tables base i k cursor)
    (hlength : tables.length = countAnds R.program.gates) (hready : Ready R.program R.shareB base)
    (hwf : R.program.WellFormed) (hdelta : base.delta = R.deltaB) (hsigma : base.sigma = R.sigmaB)
    {gate : Ag2pcProgramGate} (hstep : ⟨i, k, gate⟩ ∈ gateSteps 0 0 R.program.gates)
    (hreceiving : Receiving tables k cursor) :
    ∃ next, cursor.gate H i gate = some next ∧ EvaluatingOn H R tables base (i + 1)
      (nextAnd k gate) next ∧
      Receiving tables (nextAnd k gate) next := by
  have hgate : R.program.gates[i]? = some gate := getElem?_of_mem_gateSteps hstep
  have hnum : cursor.state.numInputs = R.program.numInputs := by rw [h.frame, ← hready.numInputs]
  obtain ⟨hw0, hl0, hm0⟩ := h.read hready hwf hgate gate.right_mem.1
  obtain ⟨hw1, hl1, hm1⟩ := h.read hready hwf hgate gate.right_mem.2
  have hshare := HonestRun.shareB_gate hwf hstep
  have heval : R.evalsOn H tables _ = _ := HonestRun.evalsOn_gate hwf hstep
  cases htyp : gate.typ with
  | xor =>
    rw [show gate.right = gate.in1 by simp [Ag2pcProgramGate.right, htyp]]
      at hw1 hl1 hm1 hshare heval
    simp only [GateStep.share, HonestRun.evalFnOn, htyp] at hshare heval
    have hnext : nextAnd k gate = k := by rw [nextAnd, htyp]
    have hlabel : R.evalLabelOn H tables (R.program.numInputs + i) =
        blockXor (R.evalLabelOn H tables gate.in0) (R.evalLabelOn H tables gate.in1) :=
          congrArg Prod.fst heval
    have hwritten : cursor.gate H i gate = some { cursor with
        state := ((cursor.state.setWslot (R.program.numInputs + i)
          (R.shareB (R.program.numInputs + i))).setEvl (R.program.numInputs + i)
            (R.evalLabelOn H tables (R.program.numInputs + i))).setMinp (R.program.numInputs + i)
              (R.maskedOn H tables gate.in0 ^^^ R.maskedOn H tables gate.in1) } := by
      simp only [EvaluatorCursor.gate, htyp, Ag2pcRunState.setWslot_evl, Ag2pcRunState.setEvl_minp,
        Ag2pcRunState.setWslot_minp]
      rw [hnum, hw0, hw1, hl0, hl1, hm0, hm1, hshare, hlabel]
    exact ⟨_, hwritten, h.write hready hgate hnext (congrArg Prod.snd heval).symm rfl,
      hnext.symm ▸ hreceiving⟩
  | inv =>
    simp only [GateStep.share, HonestRun.evalFnOn, htyp] at hshare heval
    have hnext : nextAnd k gate = k := by rw [nextAnd, htyp]
    have hlabel :
        R.evalLabelOn H tables (R.program.numInputs + i) = R.evalLabelOn H tables gate.in0 := by
      rw [HonestRun.evalLabelOn, heval]
      rfl
    have hwritten : cursor.gate H i gate = some { cursor with
        state := ((cursor.state.setWslot (R.program.numInputs + i)
          (R.shareB (R.program.numInputs + i))).setEvl (R.program.numInputs + i)
            (R.evalLabelOn H tables (R.program.numInputs + i))).setMinp (R.program.numInputs + i)
              (R.maskedOn H tables gate.in0 ^^^ 1) } := by
      simp only [EvaluatorCursor.gate, htyp, Ag2pcRunState.setWslot_evl, Ag2pcRunState.setEvl_minp,
        Ag2pcRunState.setWslot_minp]
      rw [hnum, hw0, hl0, hm0, hshare, hlabel]
    exact ⟨_, hwritten, h.write hready hgate hnext (congrArg Prod.snd heval).symm rfl,
      hnext.symm ▸ hreceiving⟩
  | and =>
    have hnext : nextAnd k gate = k + 1 := by rw [nextAnd, htyp]
    have hphys : cursor.state.phys = base.phys := by rw [h.frame]
    have hmem : R.program.andSteps[k]? = some ⟨i, k, gate⟩ :=
      Ag2pcProgram.getElem?_andSteps hstep htyp
    have hands : cursor.state.numAnds = tables.length := by
      rw [h.frame, hlength, ← hready.numAnds]
    have hbit : (R.andBytesOn H tables)[k]? = some (R.andByteOn H tables ⟨i, k, gate⟩) := by
      rw [HonestRun.andBytesOn, List.getElem?_map, hmem]
      rfl
    have hlt : k < max (countAnds R.program.gates) 1 := by
      have hlt := (List.getElem?_eq_some_iff.mp hmem).1
      rw [Ag2pcProgram.andSteps, length_filter_gateSteps] at hlt
      exact hlt.trans_le (le_max_left _ _)
    have hk : k < tables.length := by
      rw [hlength, ← length_filter_gateSteps 0 0]
      exact (List.getElem?_eq_some_iff.mp hmem).1
    have hget : tables[k]? = some tables[k] := List.getElem?_eq_getElem hk
    obtain ⟨chunkG, chunkB, chunkPos, stream, hchunk, hrow0, hrow1, hbit', hreceiving'⟩ :=
      hreceiving.recvChunk hands h.andIndex hget
    have hevaluated : cursor.gate H i gate = some
        { state := { (({ cursor.state with mitc := H.after R.mitc (k + 1) }).setEvl
            (R.program.numInputs + i) (R.evalLabelOn H tables (R.program.numInputs + i))).setMinp
            (R.program.numInputs + i) (R.andByteOn H tables ⟨i, k, gate⟩) with
              lambdaAnd := cursor.state.lambdaAnd.set k (R.andByteOn H tables ⟨i, k, gate⟩) }
          chunkG := chunkG, chunkB := chunkB, chunkPos := chunkPos + 1, andIndex := k + 1
          gamma := cursor.gamma ++ (R.checkOn H tables ⟨i, k, gate⟩).toList, stream :=
              stream } := by
      simp only [EvaluatorCursor.gate, htyp, hchunk, Option.bind_eq_bind, Option.bind_some, hrow0,
        hrow1, hbit', h.andIndex, hnum, h.gate_and hready hwf hdelta hsigma hstep htyp hget]
      rfl
    rw [hnext]
    refine ⟨_, hevaluated, ?_, hreceiving'⟩
    refine ⟨?_, h.shares.skip (hready.persist_and hstep htyp), ?_, ?_, rfl, ?_, ?_⟩
    · rw [h.frame]
      rfl
    · change base.Keeps _ _ _ (update cursor.state.evalSlot (cursor.state.phys _) _) _
      rw [hphys]
      exact hready.write h.labels (fun _ hfalse => hfalse.elim) hgate rfl
    · change base.Keeps _ _ _ (update cursor.state.maskInput (cursor.state.phys _) _) _
      rw [hphys]
      exact hready.write h.masks (fun _ hfalse => hfalse.elim) hgate
        (HonestRun.andByteOn_and_one hwf hstep htyp)
    · change cursor.state.lambdaAnd.set k _ = _
      rw [h.andBits]
      exact set_take_append_replicate hbit hlt
    · change cursor.gamma ++ _ = _
      rw [h.gamma, List.take_add_one, hmem, List.map_append, macBytes, macBytes,
        List.flatMap_append, Option.toList_some, List.map_singleton, List.flatMap_singleton]

/-- The gates of the evaluator go through, and keep his memory in step with the tables. -/
theorem EvaluatingOn.gates (h : EvaluatingOn H R tables base i k cursor)
    (hlength : tables.length = countAnds R.program.gates) (hready : Ready R.program R.shareB base)
    (hwf : R.program.WellFormed) (hdelta : base.delta = R.deltaB) (hsigma : base.sigma = R.sigmaB)
    (hreceiving : Receiving tables k cursor) {gates : List Ag2pcProgramGate}
    (hgates : ∀ step ∈ gateSteps i k gates, step ∈ gateSteps 0 0 R.program.gates) :
    ∃ last, EvaluatorCursor.gates H i gates cursor = some last ∧
      EvaluatingOn H R tables base (i + gates.length) (k + countAnds gates) last ∧
      Receiving tables (k + countAnds gates) last := by
  rw [← foldl_nextAnd]
  induction gates generalizing i k cursor with
  | nil => exact ⟨cursor, rfl, h, hreceiving⟩
  | cons gate rest ih =>
    have hstep := hgates _ List.mem_cons_self
    obtain ⟨next, hgate, hnext, hreceived⟩ :=
      h.gate hlength hready hwf hdelta hsigma hstep hreceiving
    obtain ⟨last, hlast, hkept⟩ := ih hnext hreceived
      fun step hmem => hgates step (List.mem_cons_of_mem _ hmem)
    refine ⟨last, ?_, ?_⟩
    · rw [EvaluatorCursor.gates, hgate, ← hlast]
      rfl
    · rw [List.length_cons, Nat.add_comm rest.length, ← Nat.add_assoc]
      exact hkept

/-- On Alice's tables, the evaluator's memory is that of the honest run. -/
theorem evaluatingOn_tables (hwf : R.program.WellFormed) :
    EvaluatingOn H R (R.tables H) base i k cursor ↔ Evaluating H R base i k cursor := by
  have hlabel : R.evalLabelOn H (R.tables H) = R.evalLabel H := by
    funext w
    rw [HonestRun.evalLabelOn, HonestRun.evalsOn_tables, HonestRun.evalLabel]
  have hmasked : R.maskedOn H (R.tables H) = R.masked H := by
    funext w
    rw [HonestRun.maskedOn, HonestRun.evalsOn_tables, HonestRun.masked]
  have hbyte {step : GateStep} (hmem : step ∈ R.program.andSteps) :
      R.andByteOn H (R.tables H) step = R.masked H (R.program.numInputs + step.index) :=
    HonestRun.andByteOn_tables hwf (List.mem_filter.mp hmem).1
      (of_decide_eq_true (List.mem_filter.mp hmem).2)
  have hbytes := HonestRun.andBytesOn_tables (H := H) hwf
  have hcheck : (R.program.andSteps.take k).map (R.checkOn H (R.tables H)) =
      (R.program.andSteps.take k).map (R.checkB H) := by
    refine List.map_congr_left fun step hmem => ?_
    rw [HonestRun.checkOn, HonestRun.checkB, hbyte (List.mem_of_mem_take hmem), hmasked]
  constructor
  · intro h
    exact ⟨h.frame, h.shares, hlabel ▸ h.labels, hmasked ▸ h.masks, h.andIndex, hbytes ▸ h.andBits,
      hcheck ▸ h.gamma⟩
  · intro h
    exact ⟨h.frame, h.shares, hlabel ▸ h.labels, hmasked ▸ h.masks, h.andIndex, hbytes ▸ h.andBits,
      hcheck ▸ h.gamma⟩

/-- The gates of the evaluator go through on Alice's tables, and keep his memory in step with
them. -/
theorem Evaluating.gates (h : Evaluating H R base i k cursor)
    (hready : Ready R.program R.shareB base) (hwf : R.program.WellFormed)
    (hdelta : base.delta = R.deltaB) (hsigma : base.sigma = R.sigmaB)
    (hreceiving : Receiving (R.tables H) k cursor) {gates : List Ag2pcProgramGate}
    (hgates : ∀ step ∈ gateSteps i k gates, step ∈ gateSteps 0 0 R.program.gates) :
    ∃ last, EvaluatorCursor.gates H i gates cursor = some last ∧
      Evaluating H R base (i + gates.length) (k + countAnds gates) last ∧
      Receiving (R.tables H) (k + countAnds gates) last := by
  obtain ⟨last, hlast, hkept, hreceived⟩ := ((evaluatingOn_tables hwf).mpr h).gates
    (R.tables_length H) hready hwf hdelta hsigma hreceiving hgates
  exact ⟨last, hlast, (evaluatingOn_tables hwf).mp hkept, hreceived⟩

end EvaluatorCursor

/-- Bob evaluates all gates on the tables he receives, and returns the bytes he has stored. -/
theorem evaluatorSend_on {H : TweakableHash M} {R : HonestRun M} {tables : List GarbledTable}
    (hlength : tables.length = countAnds R.program.gates) (hready : Ready R.program R.shareB base)
    (hwf : R.program.WellFormed) (hdelta : base.delta = R.deltaB) (hsigma : base.sigma = R.sigmaB)
    (hstart : EvaluatorCursor.EvaluatingOn H R tables base 0 0
      ⟨base, [], [], 0, 0, [], encodeTables tables⟩) :
    ∃ cursor, EvaluatorCursor.EvaluatingOn H R tables base R.program.gates.length
        (countAnds R.program.gates) cursor ∧ cursor.stream = [] ∧
      evaluatorSend H R.program base (encodeTables tables) =
        some (cursor,
          if 0 < countAnds R.program.gates then packBools (R.andBytesOn H tables) else []) := by
  have hreceiving : EvaluatorCursor.Receiving tables 0
      ⟨base, [], [], 0, 0, [], encodeTables tables⟩ :=
    ⟨[], tables, rfl, rfl, le_rfl, rfl, rfl⟩
  obtain ⟨cursor, hgates, hlast, received, rest, -, -, -, hrest, hstream⟩ :=
    hstart.gates hlength hready hwf hdelta hsigma hreceiving fun _ hmem => hmem
  rw [Nat.zero_add] at hrest
  rw [Nat.zero_add, Nat.zero_add] at hlast
  have hnil : rest = [] := by
    rw [List.drop_eq_nil_of_le hlength.le] at hrest
    exact (List.append_eq_nil_iff.mp hrest).2
  refine ⟨cursor, hlast, by rw [hstream, hnil, encodeTables_nil], ?_⟩
  rw [evaluatorSend, hgates, Option.bind_eq_bind, Option.bind_some, hready.numAnds, hlast.andBits]
  by_cases hands : 0 < countAnds R.program.gates
  · have hall : (R.andBytesOn H tables).length = countAnds R.program.gates := by
      rw [HonestRun.andBytesOn, List.length_map, Ag2pcProgram.andSteps, length_filter_gateSteps]
    rw [max_eq_left hands, Nat.sub_self, List.replicate_zero, List.append_nil,
      List.take_of_length_le hall.le]
    rfl
  · rw [if_neg hands, if_neg hands]
    rfl

/-- Bob evaluates all gates on the tables Alice sends, and returns the masked bits. -/
theorem evaluatorSend_spec {H : TweakableHash M} {R : HonestRun M}
    (hready : Ready R.program R.shareB base) (hwf : R.program.WellFormed)
    (hdelta : base.delta = R.deltaB) (hsigma : base.sigma = R.sigmaB)
    (hstart : EvaluatorCursor.Evaluating H R base 0 0
      ⟨base, [], [], 0, 0, [], encodeTables (R.tables H)⟩) :
    ∃ cursor, EvaluatorCursor.Evaluating H R base R.program.gates.length
        (countAnds R.program.gates) cursor ∧ cursor.stream = [] ∧
      evaluatorSend H R.program base (encodeTables (R.tables H)) =
        some (cursor, if 0 < countAnds R.program.gates then packBools (R.andBits H) else []) := by
  obtain ⟨cursor, hlast, hstream, hsend⟩ :=
    evaluatorSend_on (R.tables_length H) hready hwf hdelta hsigma
    ((EvaluatorCursor.evaluatingOn_tables hwf).mpr hstart)
  exact ⟨cursor, (EvaluatorCursor.evaluatingOn_tables hwf).mp hlast, hstream,
    HonestRun.andBytesOn_tables hwf ▸ hsend⟩

end Shachain2pc
