import Shachain2pc.Compat.RunProgram

/-!
# The garbler's passes

In her first pass Alice keeps the mask share and the zero label of every needed wire, and
sends the rows and permutation bits of the AND gates in chunks. In her second pass, once
she has the masked bits of the AND outputs, she keeps the masked bit of every needed wire,
and hashes her check values.
-/

namespace Shachain2pc

open Function (update)
open SlotAllocation

variable {M : Type} {program : Ag2pcProgram} {base : Ag2pcRunState M}
  {share : ℕ → AShareBundle} {i k : ℕ}

/-- The memory of a pass over the gates holds the needed values before gate `i`. -/
def Ag2pcRunState.Keeps {A : Type} (base : Ag2pcRunState M) (program : Ag2pcProgram)
    (kept : ℕ → Prop) (i : ℕ) (mem value : ℕ → A) : Prop :=
  (program.layout base.persist base.lastUse).Holds program.gates.length base.phys kept i mem value

section keeps

variable {A : Type} {kept : ℕ → Prop} {mem value : ℕ → A} {gate : Ag2pcProgramGate}

/-- A gate finds the values of the wires it reads. -/
theorem Ready.read (h : Ready program share base) (hwf : program.WellFormed)
    (hkeeps : base.Keeps program kept i mem value) (hgate : program.gates[i]? = some gate) {w : ℕ}
    (hw : w ∈ gate.reads) : mem (base.phys w) = value w :=
  hkeeps.read (h.live.layout_wellFormed hwf) (List.getElem?_eq_some_iff.mp hgate).1
    (by simpa [Ag2pcProgram.layout, hgate] using hw)

/-- A gate which writes its value keeps the needed values. -/
theorem Ready.write (h : Ready program share base) (hkeeps : base.Keeps program kept i mem value)
    (hkept : ∀ w, kept w → base.persist w) (hgate : program.gates[i]? = some gate) {v : A}
    (hv : v = value (program.numInputs + i)) :
    base.Keeps program kept (i + 1) (update mem (base.phys (program.numInputs + i)) v) value := by
  subst hv
  exact Layout.Holds.write hkeeps h.apart hkept (List.getElem?_eq_some_iff.mp hgate).1

/-- The inputs are kept before the first gate. -/
theorem Ready.init (h : Ready program share base)
    (hinputs : ∀ w < program.numInputs, mem w = value w) :
    base.Keeps program (fun _ => False) 0 mem value := by
  intro w _ hneeded
  have hw : w < program.numInputs := (hneeded.resolve_left fun hfalse => hfalse).1
  rw [h.phys_input w hw]
  exact hinputs w hw

/-- Only the values of the wires are kept. -/
theorem Ag2pcRunState.Keeps.congr {value' : ℕ → A} (hkeeps : base.Keeps program kept i mem value)
    (h : ∀ w < program.numInputs + program.gates.length, value w = value' w) :
    base.Keeps program kept i mem value' :=
  fun w hw hneeded => (hkeeps w hw hneeded).trans (h w hw)

/-- The shares of the persistent wires are kept before the first gate. -/
theorem Ready.init_shares (h : Ready program share base) {mem : ℕ → AShareBundle}
    (hmem : ∀ w < program.numInputs + program.gates.length, base.persist w →
      mem (base.phys w) = share w) :
    base.Keeps program (fun w => base.persist w) 0 mem share := by
  intro w hw hneeded
  rcases hneeded with hp | ⟨hlt, -⟩
  · exact hmem w hw hp
  · exact hmem w hw (h.live.inputs w hlt)

/-- The output of an AND gate is persistent. -/
theorem Ready.persist_and (h : Ready program share base)
    (hstep : ⟨i, k, gate⟩ ∈ gateSteps 0 0 program.gates) (htyp : gate.typ = .and) :
    base.persist (program.numInputs + i) :=
  h.live.ands _ (List.mem_filter.mpr ⟨hstep, by simp [htyp]⟩)

end keeps

/-- What the garbler sends for one AND gate. -/
structure GarbledTable where
  row0 : Block
  row1 : Block
  bit : UInt8

/-- The bytes of a chunk. -/
def encodeChunk (tables : List GarbledTable) : List UInt8 :=
  macBytes (tables.flatMap fun table => [table.row0, table.row1]) ++ tables.map (·.bit)

/-- The bytes of all chunks. -/
def encodeTables (tables : List GarbledTable) : List UInt8 :=
  if tables = [] then [] else
    encodeChunk (tables.take garbleChunkAnds) ++ encodeTables (tables.drop garbleChunkAnds)
termination_by tables.length
decreasing_by
  rename_i h
  have := List.length_pos_of_ne_nil h
  rw [List.length_drop, garbleChunkAnds]
  omega

/-- No AND gates need no bytes. -/
@[simp] theorem encodeTables_nil : encodeTables [] = [] := by
  rw [encodeTables, if_pos rfl]

/-- A full chunk is sent before the rest. -/
theorem encodeTables_append {tables : List GarbledTable} (h : tables.length = garbleChunkAnds)
    (rest : List GarbledTable) :
    encodeTables (tables ++ rest) = encodeChunk tables ++ encodeTables rest := by
  have hne : tables ++ rest ≠ [] := by
    intro hnil
    have hzero := congrArg List.length (List.append_eq_nil_iff.mp hnil).1
    rw [h] at hzero
    exact absurd hzero (by decide)
  rw [encodeTables, if_neg hne, ← h, List.take_left' rfl, List.drop_left' rfl]

/-- The last tables are one chunk. -/
theorem encodeTables_last {tables : List GarbledTable} (hne : tables ≠ [])
    (h : tables.length ≤ garbleChunkAnds) : encodeTables tables = encodeChunk tables := by
  rw [encodeTables, if_neg hne, List.take_of_length_le h, List.drop_eq_nil_of_le h,
    encodeTables_nil, List.append_nil]

namespace HonestRun

variable (H : TweakableHash M) (R : HonestRun M)

/-- What Alice sends for an AND gate. -/
def table (step : GateStep) : GarbledTable :=
  ⟨R.row0 H step, R.row1 H step, blockLsb1 (R.label0 H (R.program.numInputs + step.index))⟩

/-- What Alice sends for all AND gates. -/
def tables : List GarbledTable := R.program.andSteps.map (R.table H)

end HonestRun

/-- One AND gate of the garbler, in terms of what it reads. -/
theorem garblerAndGate_eq (H : TweakableHash M) (state : Ag2pcRunState M) (gate : Ag2pcProgramGate)
    (out andIndex : ℕ) :
    garblerAndGate H state gate out andIndex =
      ((({ state with mitc := H.next state.mitc }).setLbl out
          (garbledLabel (H.tweak state.mitc) state.delta (state.lbl gate.in0) (state.lbl gate.in1)
            (state.sigma.getD andIndex default) (state.wslot out))),
        garbledRow0 (H.tweak state.mitc) state.delta (state.lbl gate.in0) (state.wslot gate.in1),
        garbledRow1 (H.tweak state.mitc) state.delta (state.lbl gate.in0) (state.lbl gate.in1)
          (state.wslot gate.in0),
        blockLsb1 (garbledLabel (H.tweak state.mitc) state.delta (state.lbl gate.in0)
          (state.lbl gate.in1) (state.sigma.getD andIndex default) (state.wslot out))) := by
  simp only [garblerAndGate, H.hash_eq]
  rfl

/-- One more call of the hash. -/
theorem TweakableHash.after_succ (H : TweakableHash M) (state : M) (calls : ℕ) :
    H.after state (calls + 1) = H.next (H.after state calls) :=
  Function.iterate_succ_apply' _ _ _

namespace GarblerCursor

variable {H : TweakableHash M} {R : HonestRun M} {cursor : GarblerCursor M}

/-- The garbler's memory before gate `i`, with `k` AND gates before it. -/
structure Garbling (H : TweakableHash M) (R : HonestRun M) (base : Ag2pcRunState M) (i k : ℕ)
    (cursor : GarblerCursor M) : Prop where
  frame : cursor.state = { base with
    wireSlot := cursor.state.wireSlot, labelSlot := cursor.state.labelSlot
    mitc := H.after R.mitc k }
  shares : base.Keeps R.program (fun w => base.persist w) i cursor.state.wireSlot R.shareA
  labels : base.Keeps R.program (fun _ => False) i cursor.state.labelSlot (R.label0 H)
  andIndex : cursor.andIndex = k

/-- What the garbler has sent, with `k` AND gates garbled. -/
def Sending (tables : List GarbledTable) (k : ℕ) (cursor : GarblerCursor M) : Prop :=
  ∃ pending : List GarbledTable,
    cursor.chunkG = pending.flatMap (fun table => [table.row0, table.row1]) ∧
    cursor.chunkB = pending.map (·.bit) ∧ pending.length < garbleChunkAnds ∧
    ∀ rest, cursor.sent ++ encodeTables (pending ++ rest) = encodeTables (tables.take k ++ rest)

/-- Writing the share and the label of a gate keeps the garbler's memory. -/
theorem Garbling.write (h : Garbling H R base i k cursor) (hready : Ready R.program R.shareA base)
    {gate : Ag2pcProgramGate} (hgate : R.program.gates[i]? = some gate)
    (hnext : nextAnd k gate = k) {next : GarblerCursor M}
    (heq : next = { cursor with
      state := (cursor.state.setWslot (R.program.numInputs + i)
        (R.shareA (R.program.numInputs + i))).setLbl (R.program.numInputs + i)
          (R.label0 H (R.program.numInputs + i)) }) :
    Garbling H R base (i + 1) (nextAnd k gate) next := by
  have hphys : cursor.state.phys = base.phys := by rw [h.frame]
  subst heq
  rw [hnext]
  constructor
  · rw [h.frame]
    rfl
  · change base.Keeps _ _ _ (update cursor.state.wireSlot (cursor.state.phys _) _) _
    rw [hphys]
    exact hready.write h.shares (fun _ hp => hp) hgate rfl
  · change base.Keeps _ _ _ (update cursor.state.labelSlot (cursor.state.phys _) _) _
    rw [hphys]
    exact hready.write h.labels (fun _ hfalse => hfalse.elim) hgate rfl
  · exact h.andIndex

/-- A gate of the garbler finds the share and the label of the wires it reads. -/
theorem Garbling.read (h : Garbling H R base i k cursor) (hready : Ready R.program R.shareA base)
    (hwf : R.program.WellFormed) {gate : Ag2pcProgramGate}
    (hgate : R.program.gates[i]? = some gate) {w : ℕ} (hw : w ∈ gate.reads) :
    cursor.state.wslot w = R.shareA w ∧ cursor.state.lbl w = R.label0 H w := by
  have hphys : cursor.state.phys = base.phys := by rw [h.frame]
  rw [Ag2pcRunState.wslot, Ag2pcRunState.lbl, hphys]
  exact ⟨hready.read hwf h.shares hgate hw, hready.read hwf h.labels hgate hw⟩

/-- An AND gate of the garbler computes the label and the table of the honest run. -/
theorem Garbling.gate_and (h : Garbling H R base i k cursor)
    (hready : Ready R.program R.shareA base) (hwf : R.program.WellFormed)
    (hdelta : base.delta = R.deltaA) (hsigma : base.sigma = R.sigmaA) {gate : Ag2pcProgramGate}
    (hstep : ⟨i, k, gate⟩ ∈ gateSteps 0 0 R.program.gates) (htyp : gate.typ = .and)
    {garbled : GarblerCursor M} (hgarbled : garbled = { cursor with
      state := ({ cursor.state with mitc := H.after R.mitc (k + 1) }).setLbl
        (R.program.numInputs + i) (R.label0 H (R.program.numInputs + i))
      chunkG := cursor.chunkG ++ [R.row0 H ⟨i, k, gate⟩, R.row1 H ⟨i, k, gate⟩]
      chunkB := cursor.chunkB ++ [blockLsb1 (R.label0 H (R.program.numInputs + i))]
      andIndex := k + 1 }) :
    cursor.gate H i gate =
      if garbled.chunkB.length = garbleChunkAnds then garbled.sendChunk else garbled := by
  have hgate : R.program.gates[i]? = some gate := getElem?_of_mem_gateSteps hstep
  have hnum : cursor.state.numInputs = R.program.numInputs := by rw [h.frame, ← hready.numInputs]
  have hmitc : cursor.state.mitc = H.after R.mitc k := by rw [h.frame]
  have hdelta' : cursor.state.delta = R.deltaA := by rw [h.frame, ← hdelta]
  have hsigma' : cursor.state.sigma = R.sigmaA := by rw [h.frame, ← hsigma]
  have hout :
      cursor.state.wslot (R.program.numInputs + i) = R.shareA (R.program.numInputs + i) := by
    have hphys : cursor.state.phys = base.phys := by rw [h.frame]
    rw [Ag2pcRunState.wslot, hphys]
    exact h.shares _ (Nat.add_lt_add_left (List.getElem?_eq_some_iff.mp hgate).1 _)
      (.inl (hready.persist_and hstep htyp))
  have hright : gate.right = gate.in1 := by simp [Ag2pcProgramGate.right, htyp]
  obtain ⟨hw0, hl0⟩ := h.read hready hwf hgate gate.right_mem.1
  obtain ⟨hw1, hl1⟩ := h.read hready hwf hgate gate.right_mem.2
  have hlabel := HonestRun.label0_gate (H := H) hwf hstep
  rw [hright] at hw1 hl1 hlabel
  simp only [HonestRun.labelFn, HonestRun.tweakAt, htyp] at hlabel
  subst hgarbled
  simp only [GarblerCursor.gate, htyp, garblerAndGate_eq, HonestRun.row0, HonestRun.row1,
    HonestRun.tweakAt, hright]
  rw [hnum, h.andIndex, hout, hw0, hw1, hl0, hl1, hmitc, hdelta', hsigma', ← hlabel,
    TweakableHash.after_succ]

/-- A gate of the garbler keeps her memory. -/
theorem Garbling.gate (h : Garbling H R base i k cursor) (hready : Ready R.program R.shareA base)
    (hwf : R.program.WellFormed) (hdelta : base.delta = R.deltaA) (hsigma : base.sigma = R.sigmaA)
    {gate : Ag2pcProgramGate} (hstep : ⟨i, k, gate⟩ ∈ gateSteps 0 0 R.program.gates) :
    Garbling H R base (i + 1) (nextAnd k gate) (cursor.gate H i gate) := by
  have hgate : R.program.gates[i]? = some gate := getElem?_of_mem_gateSteps hstep
  have hnum : cursor.state.numInputs = R.program.numInputs := by rw [h.frame, ← hready.numInputs]
  obtain ⟨hw0, hl0⟩ := h.read hready hwf hgate gate.right_mem.1
  obtain ⟨hw1, hl1⟩ := h.read hready hwf hgate gate.right_mem.2
  have hshare := HonestRun.shareA_gate hwf hstep
  have hlabel := HonestRun.label0_gate (H := H) hwf hstep
  cases htyp : gate.typ with
  | xor =>
    rw [show gate.right = gate.in1 by simp [Ag2pcProgramGate.right, htyp]] at hw1 hl1 hshare hlabel
    simp only [GateStep.share, HonestRun.labelFn, htyp] at hshare hlabel
    refine h.write hready hgate (by rw [nextAnd, htyp]) ?_
    simp only [GarblerCursor.gate, htyp, Ag2pcRunState.setWslot_lbl]
    rw [hnum, hw0, hw1, hl0, hl1, hshare, hlabel]
  | inv =>
    have hdelta' : cursor.state.delta = R.deltaA := by rw [h.frame, ← hdelta]
    simp only [GateStep.share, HonestRun.labelFn, htyp] at hshare hlabel
    refine h.write hready hgate (by rw [nextAnd, htyp]) ?_
    simp only [GarblerCursor.gate, htyp, Ag2pcRunState.setWslot_lbl, Ag2pcRunState.setWslot_delta]
    rw [hnum, hw0, hl0, hdelta', hshare, hlabel]
  | and =>
    have hphys : cursor.state.phys = base.phys := by rw [h.frame]
    have hnext : nextAnd k gate = k + 1 := by rw [nextAnd, htyp]
    have hkept : Garbling H R base (i + 1) (k + 1) { cursor with
        state := ({ cursor.state with mitc := H.after R.mitc (k + 1) }).setLbl
          (R.program.numInputs + i) (R.label0 H (R.program.numInputs + i))
        chunkG := cursor.chunkG ++ [R.row0 H ⟨i, k, gate⟩, R.row1 H ⟨i, k, gate⟩]
        chunkB := cursor.chunkB ++ [blockLsb1 (R.label0 H (R.program.numInputs + i))]
        andIndex := k + 1 } := by
      refine ⟨?_, h.shares.skip (hready.persist_and hstep htyp), ?_, rfl⟩
      · rw [h.frame]
        rfl
      · change base.Keeps _ _ _ (update cursor.state.labelSlot (cursor.state.phys _) _) _
        rw [hphys]
        exact hready.write h.labels (fun _ hfalse => hfalse.elim) hgate rfl
    rw [hnext, h.gate_and hready hwf hdelta hsigma hstep htyp rfl]
    split
    · exact ⟨hkept.frame, hkept.shares, hkept.labels, hkept.andIndex⟩
    · exact hkept

/-- A gate of the garbler keeps what she has sent in step with the AND gates. -/
theorem Garbling.gate_sending (h : Garbling H R base i k cursor)
    (hready : Ready R.program R.shareA base) (hwf : R.program.WellFormed)
    (hdelta : base.delta = R.deltaA) (hsigma : base.sigma = R.sigmaA) {gate : Ag2pcProgramGate}
    (hstep : ⟨i, k, gate⟩ ∈ gateSteps 0 0 R.program.gates)
    (hsending : Sending (R.tables H) k cursor) :
    Sending (R.tables H) (nextAnd k gate) (cursor.gate H i gate) := by
  obtain ⟨pending, hg, hb, hlength, hsent⟩ := hsending
  cases htyp : gate.typ with
  | xor =>
    rw [nextAnd, htyp]
    simp only [GarblerCursor.gate, htyp]
    exact ⟨pending, hg, hb, hlength, hsent⟩
  | inv =>
    rw [nextAnd, htyp]
    simp only [GarblerCursor.gate, htyp]
    exact ⟨pending, hg, hb, hlength, hsent⟩
  | and =>
    have hnext : nextAnd k gate = k + 1 := by rw [nextAnd, htyp]
    have hget : (R.tables H)[k]? = some (R.table H ⟨i, k, gate⟩) := by
      rw [HonestRun.tables, List.getElem?_map]
      exact congrArg (Option.map (R.table H)) (Ag2pcProgram.getElem?_andSteps hstep htyp)
    have htake (rest : List GarbledTable) : (R.tables H).take (k + 1) ++ rest =
        (R.tables H).take k ++ (R.table H ⟨i, k, gate⟩ :: rest) := by
      rw [List.take_add_one, hget, Option.toList_some, List.append_assoc, List.singleton_append]
    rw [hnext, h.gate_and hready hwf hdelta hsigma hstep htyp rfl]
    have hchunkB : (pending ++ [R.table H ⟨i, k, gate⟩]).map (·.bit) =
        cursor.chunkB ++ [blockLsb1 (R.label0 H (R.program.numInputs + i))] := by
      rw [List.map_append, hb]
      rfl
    have hchunkG : (pending ++ [R.table H ⟨i, k, gate⟩]).flatMap
        (fun table => [table.row0, table.row1]) =
          cursor.chunkG ++ [R.row0 H ⟨i, k, gate⟩, R.row1 H ⟨i, k, gate⟩] := by
      rw [List.flatMap_append, hg]
      rfl
    split
    · next hfull =>
      refine ⟨[], rfl, rfl, by decide, fun rest => ?_⟩
      have hfull' : (pending ++ [R.table H ⟨i, k, gate⟩]).length = garbleChunkAnds := by
        rw [← hfull, ← hchunkB, List.length_map]
      have hsplit : pending ++ R.table H ⟨i, k, gate⟩ :: rest =
          (pending ++ [R.table H ⟨i, k, gate⟩]) ++ rest := by
        rw [List.append_assoc, List.singleton_append]
      rw [htake, ← hsent, hsplit, encodeTables_append hfull', encodeChunk, hchunkB, hchunkG,
        ← List.append_assoc]
      rfl
    · next hpartial =>
      refine ⟨pending ++ [R.table H ⟨i, k, gate⟩], hchunkG.symm, hchunkB.symm, ?_, fun rest => ?_⟩
      · have hlength' : (pending ++ [R.table H ⟨i, k, gate⟩]).length ≠ garbleChunkAnds := by
          rw [← List.length_map (f := fun table : GarbledTable => table.bit), hchunkB]
          exact hpartial
        rw [List.length_append, List.length_singleton] at hlength' ⊢
        omega
      · rw [htake, ← hsent, List.append_assoc, List.singleton_append]

/-- The gates of the garbler keep her memory, and what she has sent in step. -/
theorem Garbling.gates (h : Garbling H R base i k cursor) (hready : Ready R.program R.shareA base)
    (hwf : R.program.WellFormed) (hdelta : base.delta = R.deltaA) (hsigma : base.sigma = R.sigmaA)
    (hsending : Sending (R.tables H) k cursor) {gates : List Ag2pcProgramGate}
    (hgates : ∀ step ∈ gateSteps i k gates, step ∈ gateSteps 0 0 R.program.gates) :
    Garbling H R base (i + gates.length) (k + countAnds gates)
      (GarblerCursor.gates H i gates cursor) ∧
      Sending (R.tables H) (k + countAnds gates) (GarblerCursor.gates H i gates cursor) := by
  rw [← foldl_nextAnd]
  induction gates generalizing i k cursor with
  | nil => exact ⟨h, hsending⟩
  | cons gate rest ih =>
    have hstep := hgates _ List.mem_cons_self
    rw [List.length_cons, Nat.add_comm rest.length, ← Nat.add_assoc]
    exact ih (h.gate hready hwf hdelta hsigma hstep)
      (h.gate_sending hready hwf hdelta hsigma hstep hsending)
      fun step hmem => hgates step (List.mem_cons_of_mem _ hmem)

end GarblerCursor

/-- Alice sends the tables of all AND gates. -/
theorem garblerSend_spec {H : TweakableHash M} {R : HonestRun M}
    (hready : Ready R.program R.shareA base) (hwf : R.program.WellFormed)
    (hdelta : base.delta = R.deltaA) (hsigma : base.sigma = R.sigmaA)
    (hstart : GarblerCursor.Garbling H R base 0 0 ⟨base, [], [], 0, []⟩) :
    ∃ cursor, GarblerCursor.Garbling H R base R.program.gates.length (countAnds R.program.gates)
        cursor ∧
      garblerSend H R.program base = (cursor.state, encodeTables (R.tables H)) := by
  have hsending : GarblerCursor.Sending (R.tables H) 0 ⟨base, [], [], 0, []⟩ :=
    ⟨[], rfl, rfl, by decide, fun rest => rfl⟩
  obtain ⟨hgarbling, pending, hg, hb, hlength, hsent⟩ :=
    hstart.gates hready hwf hdelta hsigma hsending fun _ hmem => hmem
  rw [Nat.zero_add] at hsent
  rw [Nat.zero_add, Nat.zero_add] at hgarbling
  have hall : (R.tables H).take (countAnds R.program.gates) = R.tables H := by
    refine List.take_of_length_le (le_of_eq ?_)
    rw [HonestRun.tables, List.length_map]
    exact length_filter_gateSteps 0 0 _
  have hbytes := hsent []
  rw [hall, List.append_nil, List.append_nil] at hbytes
  refine ⟨_, hgarbling, ?_⟩
  rw [garblerSend]
  by_cases hnil : pending = []
  · rw [hnil] at hb hbytes
    simp only [hb, List.map_nil, List.isEmpty_nil, if_true]
    rw [← hbytes, encodeTables_nil, List.append_nil]
  · have hne : (GarblerCursor.gates H 0 R.program.gates ⟨base, [], [], 0, []⟩).chunkB.isEmpty =
        false := by
      rw [hb, List.isEmpty_map, List.isEmpty_eq_false_iff]
      exact hnil
    simp only [hne, Bool.false_eq_true, if_false]
    rw [← hbytes, encodeTables_last hnil hlength.le, encodeChunk, ← hg, ← hb]
    rfl

end Shachain2pc
