import Shachain2pc.Compat.ProgramBuilder

/-!
# Programs from circuits

`from_circuit` renumbers the wires of a circuit by the gates which write them. A circuit
whose gates already write the wires in order keeps its numbers; for any other circuit a map
sends each wire to the last gate that writes it. Both ways give the same program.

Reserving memory is left out. Adding the type to a second wire of more than 30 bits fails a
debug assertion.
-/

namespace Shachain2pc

open Function (update)
open Rust

/-- `Ag2pcProgramGate::new`. -/
def Ag2pcProgramGate.new (typ : Ag2pcGateType) (in0 in1 : ℕ) :
    Outcome ProgramError Ag2pcProgramGate :=
  if gateWireLimit ≤ in1 then .error .panic else .ok ⟨typ, in0, in1⟩

/-- The map entry which a gate writes, `(num_inputs + i) as u32`. -/
def remapGate (numInputs numWire : ℕ) (remap : List ℕ) (entry : Gate × ℕ) :
    Outcome ProgramError (List ℕ) := do
  let out ← checkedWire "out" entry.1.out numWire
  writeSlot remap out ((numInputs + entry.2) % 2 ^ 32)

/-- `resolve`. -/
def resolveWire (remap : List ℕ) (old : ℕ) : Outcome ProgramError ℕ := do
  let v ← readSlot remap old
  if v = unmapped then badProgram "wire is not defined" else .ok v

/-- The second wire of a renumbered gate. -/
def resolveIn1 (remap : List ℕ) (numWire : ℕ) (gate : Gate) : Outcome ProgramError ℕ :=
  if gate.typ = .inv then .ok 0
  else do
    let in1Old ← checkedWire "in1" gate.in1 numWire
    resolveWire remap in1Old

/-- One gate of the renumbered program. -/
def renumberGate (remap : List ℕ) (numWire : ℕ) (gate : Gate) :
    Outcome ProgramError Ag2pcProgramGate := do
  let in0Old ← checkedWire "in0" gate.in0 numWire
  let in0 ← resolveWire remap in0Old
  let in1 ← resolveIn1 remap numWire gate
  Ag2pcProgramGate.new gate.typ.program in0 in1

/-- The second wire of a gate in order. -/
def orderedIn1 (maxWire : ℕ) (gate : Gate) : Outcome ProgramError ℕ :=
  if gate.typ = .inv then .ok 0 else checkedWire "in1" gate.in1 maxWire

/-- One gate of a circuit in order. -/
def orderedGate (numInputs : ℕ) (entry : Gate × ℕ) : Outcome ProgramError Ag2pcProgramGate := do
  let in0 ← checkedWire "in0" entry.1.in0 (numInputs + entry.2)
  let in1 ← orderedIn1 (numInputs + entry.2) entry.1
  Ag2pcProgramGate.new entry.1.typ.program in0 in1

/-- `from_ordered_circuit`. -/
def fromOrderedCircuit (circuit : Circuit) (numInputs n3 : ℕ) :
    Outcome ProgramError Ag2pcProgram := do
  let gates ← circuit.gates.zipIdx.mapM (orderedGate numInputs)
  let numWires := numInputs + gates.length
  .ok ⟨numInputs, numWires, (List.range n3).map fun k => numWires - n3 + k, gates⟩

/-- The rest of `from_circuit`, for a circuit which is not in order. -/
def fromUnorderedCircuit (circuit : Circuit) (numInputs numWire n3 : ℕ) :
    Outcome ProgramError Ag2pcProgram := do
  let remap ← newVec unmapped numWire
  let remap ← circuit.gates.zipIdx.foldlM (remapGate numInputs numWire)
    (List.range numInputs ++ remap.drop numInputs)
  let gates ← circuit.gates.mapM (renumberGate remap numWire)
  let outputs ← (List.range n3).mapM fun i => resolveWire remap (numWire - n3 + i)
  .ok ⟨numInputs, numInputs + gates.length, outputs, gates⟩

/-- The gates write the wires after the inputs, in order. -/
def Circuit.Ordered (circuit : Circuit) (numInputs : ℕ) : Prop :=
  ∀ entry ∈ circuit.gates.zipIdx, 0 ≤ entry.1.out ∧ asUsize entry.1.out = numInputs + entry.2

instance (circuit : Circuit) (numInputs : ℕ) : Decidable (circuit.Ordered numInputs) :=
  inferInstanceAs (Decidable (∀ entry ∈ circuit.gates.zipIdx, _))

/-- `Ag2pcProgram::from_circuit`. -/
def fromCircuit (circuit : Circuit) : Outcome ProgramError Ag2pcProgram := do
  let numWire ← checkedNonnegative "num_wire" circuit.numWire
  let n1 ← checkedNonnegative "n1" circuit.n1
  let n2 ← checkedNonnegative "n2" circuit.n2
  let n3 ← checkedNonnegative "n3" circuit.n3
  if numWire = 0 ∨ numWire < n1 + n2 ∨ numWire < n3 ∨ gateWireLimit ≤ numWire then
    badProgram "inconsistent circuit header"
  else if numWire = n1 + n2 + circuit.gates.length ∧ circuit.Ordered (n1 + n2) then
    fromOrderedCircuit circuit (n1 + n2) n3
  else fromUnorderedCircuit circuit (n1 + n2) numWire n3

/-! ## The wires of the program -/

/-- The number of each wire when gates, numbered from a start, rewrite what they write. -/
def lastWrites (start : ℕ) (init : ℕ → ℕ) : List Gate → ℕ → ℕ
  | [] => init
  | gate :: rest => lastWrites (start + 1) (update init (asUsize gate.out) (start % 2 ^ 32)) rest

/-- The numbers of the wires before the first gate. -/
def inputNumbers (numInputs w : ℕ) : ℕ := if w < numInputs then w else unmapped

/-- The number of each wire of a circuit in its program. -/
def programWire (numInputs : ℕ) (gates : List Gate) : ℕ → ℕ :=
  lastWrites numInputs (inputNumbers numInputs) gates

/-- A gate with its wires renumbered. -/
def Gate.convert (gate : Gate) (number : ℕ → ℕ) : Ag2pcProgramGate :=
  ⟨gate.typ.program, number (asUsize gate.in0),
    if gate.typ = .inv then 0 else number (asUsize gate.in1)⟩

/-- Only the numbers of the wires it reads matter to a converted gate. -/
theorem Gate.convert_congr {gate : Gate} {number number' : ℕ → ℕ}
    (h : ∀ w ∈ gate.instr.args, number w = number' w) :
    gate.convert number = gate.convert number' := by
  rw [Gate.convert, Gate.convert, h _ gate.in0_mem_args]
  by_cases htyp : gate.typ = .inv
  · rw [if_pos htyp, if_pos htyp]
  · rw [if_neg htyp, if_neg htyp, h _ (Gate.in1_mem_args htyp)]

variable {start : ℕ} {init : ℕ → ℕ} {gates : List Gate}

/-- Later gates rewrite what earlier gates wrote. -/
theorem lastWrites_append (first second : List Gate) :
    lastWrites start init (first ++ second) =
      lastWrites (start + first.length) (lastWrites start init first) second := by
  induction first generalizing start init with
  | nil => rfl
  | cons gate rest ih =>
    rw [List.cons_append, lastWrites, ih, lastWrites, List.length_cons, Nat.add_comm rest.length,
      ← Nat.add_assoc]

/-- A wire that no gate writes keeps its number. -/
theorem lastWrites_of_forall_ne {w : ℕ} (h : ∀ gate ∈ gates, asUsize gate.out ≠ w) :
    lastWrites start init gates w = init w := by
  induction gates generalizing start init with
  | nil => rfl
  | cons gate rest ih =>
    rw [lastWrites, ih fun g hg => h g (List.mem_cons_of_mem _ hg)]
    exact Function.update_of_ne (h gate List.mem_cons_self).symm _ _

/-- A wire has the number of the last gate that writes it. -/
theorem lastWrites_last {first rest : List Gate} {gate : Gate}
    (h : ∀ later ∈ rest, asUsize later.out ≠ asUsize gate.out) :
    lastWrites start init (first ++ gate :: rest) (asUsize gate.out) =
      (start + first.length) % 2 ^ 32 := by
  rw [lastWrites_append, lastWrites, lastWrites_of_forall_ne h]
  exact Function.update_self _ _ _

/-- A written wire has a last gate that writes it. -/
theorem exists_last_write {w : ℕ} (h : ∃ gate ∈ gates, asUsize gate.out = w) :
    ∃ first gate rest, gates = first ++ gate :: rest ∧ asUsize gate.out = w ∧
      ∀ later ∈ rest, asUsize later.out ≠ w := by
  induction gates with
  | nil =>
    obtain ⟨gate, hmem, -⟩ := h
    cases hmem
  | cons gate rest ih =>
    by_cases hrest : ∃ later ∈ rest, asUsize later.out = w
    · obtain ⟨first, last, rest', heq, hout, hlater⟩ := ih hrest
      exact ⟨gate :: first, last, rest', congrArg (List.cons gate) heq, hout, hlater⟩
    · have hnone : ∀ later ∈ rest, asUsize later.out ≠ w := fun later hmem hout =>
        hrest ⟨later, hmem, hout⟩
      obtain ⟨other, hmem, hout⟩ := h
      rcases List.mem_cons.mp hmem with rfl | hmem
      · exact ⟨[], other, rest, rfl, hout, hnone⟩
      · exact absurd hout (hnone other hmem)

/-- Gates which write the wires in order keep the numbers. -/
theorem programWire_ordered {circuit : Circuit} {numInputs w : ℕ} (h : circuit.Ordered numInputs)
    (hlimit : numInputs + circuit.gates.length ≤ gateWireLimit)
    (hw : w < numInputs + circuit.gates.length) : programWire numInputs circuit.gates w = w := by
  have hout {i : ℕ} (hi : i < circuit.gates.length) :
      asUsize circuit.gates[i].out = numInputs + i :=
    (h (circuit.gates[i], i) (List.mem_zipIdx_iff_getElem?.mpr (List.getElem?_eq_getElem hi))).2
  by_cases hinput : w < numInputs
  · rw [programWire, lastWrites_of_forall_ne, inputNumbers, if_pos hinput]
    intro gate hmem
    obtain ⟨i, hi, rfl⟩ := List.getElem_of_mem hmem
    rw [hout hi]
    omega
  · obtain ⟨i, rfl⟩ := Nat.exists_eq_add_of_le (Nat.le_of_not_lt hinput)
    have hi : i < circuit.gates.length := by omega
    have hsplit : circuit.gates = circuit.gates.take i ++
        circuit.gates[i] :: circuit.gates.drop (i + 1) := by
      rw [List.getElem_cons_drop, List.take_append_drop]
    have hlater : ∀ later ∈ circuit.gates.drop (i + 1),
        asUsize later.out ≠ asUsize circuit.gates[i].out := by
      intro later hmem
      obtain ⟨j, hj, rfl⟩ := List.getElem_of_mem hmem
      rw [List.getElem_drop, hout, hout hi]
      omega
    have hlast : lastWrites numInputs (inputNumbers numInputs)
        (circuit.gates.take i ++ circuit.gates[i] :: circuit.gates.drop (i + 1))
          (asUsize circuit.gates[i].out) = (numInputs + (circuit.gates.take i).length) % 2 ^ 32 :=
      lastWrites_last hlater
    rw [← hsplit, hout hi, List.length_take_of_le hi.le] at hlast
    rw [programWire, hlast]
    unfold gateWireLimit at hlimit
    omega

/-! ## What an accepted circuit gives -/

/-- The program of a circuit: its gates and outputs with their wires renumbered, all of which are
defined. -/
structure Converted (c : Circuit) (p : Ag2pcProgram) : Prop where
  n1 : 0 ≤ c.n1
  n2 : 0 ≤ c.n2
  n3 : 0 ≤ c.n3
  numInputs : p.numInputs = asUsize c.n1 + asUsize c.n2
  inputs_le : p.numInputs ≤ asUsize c.numWire
  outputs_le : asUsize c.n3 ≤ asUsize c.numWire
  numWire : 0 ≤ c.numWire
  numWire_lt : asUsize c.numWire < gateWireLimit
  inRange : ∀ g ∈ c.gates, g.InRange (asUsize c.numWire)
  defined : ∀ g ∈ c.gates, ∀ w ∈ g.instr.args, programWire p.numInputs c.gates w ≠ unmapped
  outputsDefined : ∀ w ∈ p.outputs, w ≠ unmapped
  gates : p.gates = c.gates.map fun g => g.convert (programWire p.numInputs c.gates)
  outputs : p.outputs = (List.range (asUsize c.n3)).map fun k =>
    programWire p.numInputs c.gates (asUsize c.numWire - asUsize c.n3 + k)
  numWires : p.numWires = p.numInputs + c.gates.length

/-- A checked wire is in range. -/
theorem checkedWire_eq_ok {name : String} {wire : ℤ} {numWire w : ℕ}
    (h : checkedWire name wire numWire = .ok w) : w = asUsize wire ∧ w < numWire := by
  unfold checkedWire at h
  split at h
  · cases h
  · rename_i hrange
    cases h
    exact ⟨rfl, by omega⟩

/-- A checked wire is nonnegative. -/
theorem checkedWire_nonneg {name : String} {wire : ℤ} {numWire w : ℕ}
    (h : checkedWire name wire numWire = .ok w) : 0 ≤ wire := by
  unfold checkedWire at h
  split at h
  · cases h
  · rename_i hrange
    omega

/-- A nonnegative number is cast. -/
theorem checkedNonnegative_eq_ok {name : String} {value : ℤ} {n : ℕ}
    (h : checkedNonnegative name value = .ok n) : 0 ≤ value ∧ n = asUsize value := by
  unfold checkedNonnegative at h
  split at h
  · cases h
  · rename_i hneg
    cases h
    exact ⟨not_lt.mp hneg, rfl⟩

/-- A packed gate is the gate. -/
theorem Ag2pcProgramGate.new_eq_ok {typ : Ag2pcGateType} {in0 in1 : ℕ} {gate : Ag2pcProgramGate}
    (h : Ag2pcProgramGate.new typ in0 in1 = .ok gate) : gate = ⟨typ, in0, in1⟩ := by
  unfold Ag2pcProgramGate.new at h
  split at h
  · cases h
  · exact (Except.ok.inj h).symm

/-- The wires of a gate in a tabulated map are resolved to defined wires. -/
theorem resolveWire_eq_ok {number : ℕ → ℕ} {n old v : ℕ}
    (h : resolveWire ((List.range n).map number) old = .ok v) (hold : old < n) :
    v = number old ∧ number old ≠ unmapped := by
  rw [resolveWire, readSlot_map_range number hold] at h
  simp only [bind, Except.bind] at h
  split at h
  · cases h
  · rename_i hmapped
    exact ⟨(Except.ok.inj h).symm, hmapped⟩

/-- A renumbered gate has its wires in range, defined, and renumbered by the map. -/
theorem renumberGate_eq_ok {number : ℕ → ℕ} {n : ℕ} {gate : Gate} {result : Ag2pcProgramGate}
    (h : renumberGate ((List.range n).map number) n gate = .ok result) :
    result = gate.convert number ∧ ∀ w ∈ gate.instr.args, w < n ∧ number w ≠ unmapped := by
  obtain ⟨in0Old, hin0Old, h⟩ := bind_eq_ok h
  obtain ⟨in0, hin0, h⟩ := bind_eq_ok h
  obtain ⟨in1, hin1, h⟩ := bind_eq_ok h
  obtain ⟨rfl, hlt0⟩ := checkedWire_eq_ok hin0Old
  obtain ⟨rfl, hdef0⟩ := resolveWire_eq_ok hin0 hlt0
  obtain rfl := Ag2pcProgramGate.new_eq_ok h
  by_cases htyp : gate.typ = .inv
  · rw [resolveIn1, if_pos htyp] at hin1
    cases hin1
    refine ⟨?_, Gate.forall_args ⟨hlt0, hdef0⟩ fun hne => absurd htyp hne⟩
    rw [Gate.convert, if_pos htyp]
  · rw [resolveIn1, if_neg htyp] at hin1
    obtain ⟨in1Old, hin1Old, hin1⟩ := bind_eq_ok hin1
    obtain ⟨rfl, hlt1⟩ := checkedWire_eq_ok hin1Old
    obtain ⟨rfl, hdef1⟩ := resolveWire_eq_ok hin1 hlt1
    refine ⟨?_, Gate.forall_args ⟨hlt0, hdef0⟩ fun _ => ⟨hlt1, hdef1⟩⟩
    rw [Gate.convert, if_neg htyp]

/-- A gate in order keeps its wires, which are earlier. -/
theorem orderedGate_eq_ok {numInputs : ℕ} {entry : Gate × ℕ} {result : Ag2pcProgramGate}
    (h : orderedGate numInputs entry = .ok result) :
    result = entry.1.convert id ∧ ∀ w ∈ entry.1.instr.args, w < numInputs + entry.2 := by
  obtain ⟨in0, hin0, h⟩ := bind_eq_ok h
  obtain ⟨in1, hin1, h⟩ := bind_eq_ok h
  obtain ⟨rfl, hlt0⟩ := checkedWire_eq_ok hin0
  obtain rfl := Ag2pcProgramGate.new_eq_ok h
  by_cases htyp : entry.1.typ = .inv
  · rw [orderedIn1, if_pos htyp] at hin1
    cases hin1
    refine ⟨?_, Gate.forall_args hlt0 fun hne => absurd htyp hne⟩
    rw [Gate.convert, if_pos htyp, id]
  · rw [orderedIn1, if_neg htyp] at hin1
    obtain ⟨rfl, hlt1⟩ := checkedWire_eq_ok hin1
    refine ⟨?_, Gate.forall_args hlt0 fun _ => hlt1⟩
    rw [Gate.convert, if_neg htyp, id, id]

/-- The remap loop tabulates the numbers of the wires, which are in range. -/
theorem foldlM_remapGate_eq_ok {numInputs n i : ℕ} {gates : List Gate} {number : ℕ → ℕ}
    {result : List ℕ}
    (h : (gates.zipIdx i).foldlM (remapGate numInputs n) ((List.range n).map number) = .ok result) :
    result = (List.range n).map (lastWrites (numInputs + i) number gates) ∧
      ∀ gate ∈ gates, asUsize gate.out < n := by
  induction gates generalizing i number with
  | nil =>
    cases h
    exact ⟨rfl, by simp⟩
  | cons gate rest ih =>
    rw [List.zipIdx_cons, List.foldlM_cons] at h
    obtain ⟨map, hmap, h⟩ := bind_eq_ok h
    obtain ⟨out, hout, hmap⟩ := bind_eq_ok hmap
    obtain ⟨rfl, hlt⟩ := checkedWire_eq_ok hout
    rw [writeSlot_map_range number hlt] at hmap
    cases hmap
    obtain ⟨hresult, hrange⟩ := ih h
    exact ⟨hresult, List.forall_mem_cons.mpr ⟨hlt, hrange⟩⟩

/-- The map before the first gate. -/
theorem range_append_unmapped {numInputs n : ℕ} (h : numInputs ≤ n) :
    List.range numInputs ++ (List.replicate n unmapped).drop numInputs =
      (List.range n).map (inputNumbers numInputs) := by
  apply List.ext_getElem
  · simp
    omega
  · intro i hi _
    by_cases hlt : i < numInputs
    · rw [List.getElem_append_left (by simpa using hlt)]
      simp [inputNumbers, hlt]
    · rw [List.getElem_append_right (by simpa using hlt)]
      simp [inputNumbers, hlt]

/-- Mapping the entries of a numbered list. -/
theorem map_fst_zipIdx {A B : Type} (f : A → B) (entries : List A) :
    (entries.zipIdx.map fun entry => f entry.1) = entries.map f := by
  conv_rhs => rw [← List.zipIdx_map_fst 0 entries, List.map_map]
  rfl

/-- A circuit in order gives the program with the same wires. -/
theorem fromOrderedCircuit_eq_ok {c : Circuit} {p : Ag2pcProgram} {numInputs n3 : ℕ}
    (h : fromOrderedCircuit c numInputs n3 = .ok p) :
    p = ⟨numInputs, numInputs + c.gates.length,
        (List.range n3).map fun k => numInputs + c.gates.length - n3 + k,
        c.gates.map fun g => g.convert id⟩ ∧
      ∀ entry ∈ c.gates.zipIdx, ∀ w ∈ entry.1.instr.args, w < numInputs + entry.2 := by
  obtain ⟨gates, hgates, h⟩ := bind_eq_ok h
  cases h
  obtain ⟨rfl, hreads⟩ := mapM_eq_ok hgates fun entry _ gate hgate => orderedGate_eq_ok hgate
  refine ⟨?_, hreads⟩
  rw [List.length_map, List.length_zipIdx, map_fst_zipIdx fun g : Gate => g.convert id]

/-- Any other circuit gives the program with its wires renumbered. -/
theorem fromUnorderedCircuit_eq_ok {c : Circuit} {p : Ag2pcProgram} {numInputs numWire n3 : ℕ}
    (h : fromUnorderedCircuit c numInputs numWire n3 = .ok p) (hinputs : numInputs ≤ numWire)
    (hn3 : n3 ≤ numWire) :
    p = ⟨numInputs, numInputs + c.gates.length,
        (List.range n3).map fun k => programWire numInputs c.gates (numWire - n3 + k),
        c.gates.map fun g => g.convert (programWire numInputs c.gates)⟩ ∧
      (∀ g ∈ c.gates, asUsize g.out < numWire) ∧
      (∀ g ∈ c.gates, ∀ w ∈ g.instr.args,
        w < numWire ∧ programWire numInputs c.gates w ≠ unmapped) ∧
      ∀ k < n3, programWire numInputs c.gates (numWire - n3 + k) ≠ unmapped := by
  obtain ⟨start, hstart, h⟩ := bind_eq_ok h
  obtain ⟨remap, hremap, h⟩ := bind_eq_ok h
  obtain ⟨gates, hgates, h⟩ := bind_eq_ok h
  obtain ⟨outputs, houtputs, h⟩ := bind_eq_ok h
  cases h
  rw [newVec_eq_ok hstart, range_append_unmapped hinputs] at hremap
  obtain ⟨hmap, hrange⟩ := foldlM_remapGate_eq_ok hremap
  change remap = (List.range numWire).map (programWire numInputs c.gates) at hmap
  subst hmap
  obtain ⟨rfl, hreads⟩ := mapM_eq_ok hgates fun g _ gate hgate => renumberGate_eq_ok hgate
  obtain ⟨rfl, hdefined⟩ := mapM_eq_ok houtputs fun k hk v hv =>
    resolveWire_eq_ok hv (by have := List.mem_range.mp hk; omega)
  refine ⟨?_, hrange, hreads, fun k hk => hdefined k (List.mem_range.mpr hk)⟩
  rw [List.length_map]

/-- An accepted circuit is converted. -/
theorem fromCircuit_eq_ok {c : Circuit} {p : Ag2pcProgram} (h : fromCircuit c = .ok p) :
    Converted c p := by
  obtain ⟨numWire, hnumWire, h⟩ := bind_eq_ok h
  obtain ⟨n1, hn1, h⟩ := bind_eq_ok h
  obtain ⟨n2, hn2, h⟩ := bind_eq_ok h
  obtain ⟨n3, hn3, h⟩ := bind_eq_ok h
  obtain ⟨hwire, rfl⟩ := checkedNonnegative_eq_ok hnumWire
  obtain ⟨h1, rfl⟩ := checkedNonnegative_eq_ok hn1
  obtain ⟨h2, rfl⟩ := checkedNonnegative_eq_ok hn2
  obtain ⟨h3, rfl⟩ := checkedNonnegative_eq_ok hn3
  split at h
  · cases h
  rename_i hheader
  split at h
  · rename_i hcond
    obtain ⟨hlength, hordered⟩ := hcond
    obtain ⟨rfl, hreads⟩ := fromOrderedCircuit_eq_ok h
    have hsame {w : ℕ} (hw : w < asUsize c.numWire) :
        programWire (asUsize c.n1 + asUsize c.n2) c.gates w = w :=
      programWire_ordered hordered (by omega) (by omega)
    have hargs : ∀ g ∈ c.gates, ∀ w ∈ g.instr.args, w < asUsize c.numWire := by
      intro g hg w hw
      obtain ⟨i, hi, rfl⟩ := List.getElem_of_mem hg
      have hlt := hreads (c.gates[i], i)
        (List.mem_zipIdx_iff_getElem?.mpr (List.getElem?_eq_getElem hi)) w hw
      simp only at hlt
      omega
    have houts : ∀ g ∈ c.gates, asUsize g.out < asUsize c.numWire := by
      intro g hg
      obtain ⟨i, hi, rfl⟩ := List.getElem_of_mem hg
      have hout := (hordered (c.gates[i], i)
        (List.mem_zipIdx_iff_getElem?.mpr (List.getElem?_eq_getElem hi))).2
      simp only at hout
      omega
    have hmapped {w : ℕ} (hw : w < asUsize c.numWire) : w ≠ unmapped := by
      unfold gateWireLimit at hheader
      unfold unmapped
      omega
    refine ⟨h1, h2, h3, rfl, by simp only; omega, by omega, hwire, by omega,
      fun g hg => ⟨hargs g hg, houts g hg⟩, fun g hg w hw => ?_, fun w hw => ?_, ?_, ?_, rfl⟩
    · simp only
      rw [hsame (hargs g hg w hw)]
      exact hmapped (hargs g hg w hw)
    · obtain ⟨k, hk, rfl⟩ := List.mem_map.mp hw
      have := List.mem_range.mp hk
      exact hmapped (by omega)
    · refine List.map_congr_left fun g hg => ?_
      exact Gate.convert_congr fun w hw => (hsame (hargs g hg w hw)).symm
    · refine List.map_congr_left fun k hk => ?_
      have := List.mem_range.mp hk
      rw [hsame (by omega), hlength]
  · obtain ⟨rfl, houts, hreads, hdefined⟩ := fromUnorderedCircuit_eq_ok h (by omega) (by omega)
    refine ⟨h1, h2, h3, rfl, by simp only; omega, by omega, hwire, by omega,
      fun g hg => ⟨fun w hw => (hreads g hg w hw).1, houts g hg⟩,
      fun g hg w hw => (hreads g hg w hw).2, fun w hw => ?_, rfl, rfl, rfl⟩
    obtain ⟨k, hk, rfl⟩ := List.mem_map.mp hw
    exact hdefined k (List.mem_range.mp hk)

end Shachain2pc
