import Shachain2pc.Compat.CircuitProgram
import Shachain2pc.Compat.ProgramGadget
import Shachain2pc.Types.Parse

/-!
# The meaning of a converted circuit

The evaluator of circuits reads a wire as the gates before have left it, the program reads
what the last gate writes to it. The two agree when no gate reads a wire which it or a later
gate writes. Otherwise the program has a gate which reads its own output or a later one.
-/

namespace Shachain2pc

open Rust
open Ag2pcProgramBuilder (gateByte gateByte_instr)

/-- The numbers in the header of a circuit are `i32`. -/
structure Circuit.HeaderI32 (c : Circuit) : Prop where
  numWire : IsI32 c.numWire
  n1 : IsI32 c.n1
  n2 : IsI32 c.n2
  n3 : IsI32 c.n3

/-- No gate reads a wire which it or a later gate writes. -/
def Circuit.ReadsSettled (c : Circuit) : Prop :=
  (∀ g ∈ c.gates, asUsize g.out ∉ g.instr.args) ∧
    c.gates.Pairwise fun earlier later => asUsize later.out ∉ earlier.instr.args

instance : DecidablePred Circuit.ReadsSettled := fun c =>
  inferInstanceAs (Decidable ((∀ g ∈ c.gates, _) ∧ _))

/-- The program keeps the meaning of the circuit: its gates read inputs and outputs of earlier
gates, and on every input its outputs are those of the circuit. -/
structure Ag2pcProgram.Means (p : Ag2pcProgram) (c : Circuit) : Prop where
  reads : ∀ i gate, p.gates[i]? = some gate → ∀ w ∈ gate.reads, w < p.numInputs + i
  evaluates : ∀ inBits : List UInt8, inBits.length = p.numInputs →
    evalBristol c inBits = .ok ((p.evalPlain (inBits.map fun b => b &&& 1 != 0)).map bitByte)

/-- Where a gate stands, neither it nor a later gate writes what it reads. -/
theorem Circuit.ReadsSettled.later {c : Circuit} (h : c.ReadsSettled) {first rest : List Gate}
    {g : Gate} (hsplit : c.gates = first ++ g :: rest) :
    asUsize g.out ∉ g.instr.args ∧ ∀ later ∈ rest, asUsize later.out ∉ g.instr.args := by
  obtain ⟨hself, hpairs⟩ := h
  rw [hsplit] at hself hpairs
  exact ⟨hself g (by simp), (List.pairwise_cons.mp (List.pairwise_append.mp hpairs).2.1).1⟩

variable {c : Circuit} {p : Ag2pcProgram} {numInputs w : ℕ} {gates : List Gate}

/-- The number of a wire: its own when no gate writes it, else that of the last gate that does. -/
theorem programWire_cases (hfit : numInputs + gates.length < 2 ^ 32) :
    ((∀ g ∈ gates, asUsize g.out ≠ w) ∧ programWire numInputs gates w = inputNumbers numInputs w) ∨
      ∃ first g rest, gates = first ++ g :: rest ∧ asUsize g.out = w ∧
        (∀ later ∈ rest, asUsize later.out ≠ w) ∧
        programWire numInputs gates w = numInputs + first.length := by
  by_cases hwritten : ∃ g ∈ gates, asUsize g.out = w
  · obtain ⟨first, g, rest, rfl, rfl, hlater⟩ := exists_last_write hwritten
    refine .inr ⟨first, g, rest, rfl, rfl, hlater, (lastWrites_last hlater).trans ?_⟩
    rw [List.length_append, List.length_cons] at hfit
    exact Nat.mod_eq_of_lt (by omega)
  · have hnone : ∀ g ∈ gates, asUsize g.out ≠ w := fun g hg hout => hwritten ⟨g, hg, hout⟩
    exact .inl ⟨hnone, lastWrites_of_forall_ne hnone⟩

/-- The wires a converted gate reads are the numbers of those the gate reads. -/
theorem Gate.mem_reads_convert {g : Gate} {number : ℕ → ℕ} {v : ℕ} :
    v ∈ (g.convert number).reads ↔ ∃ w ∈ g.instr.args, v = number w := by
  rw [Ag2pcProgramGate.mem_reads]
  cases htyp : g.typ <;>
    simp [Gate.convert, Gate.instr, Ag2pcProgramGate.right, GateType.program, htyp]

/-- The second wire of a converted gate. -/
theorem Gate.right_convert (g : Gate) (number : ℕ → ℕ) : (g.convert number).right =
    number (asUsize (if g.typ = .inv then g.in0 else g.in1)) := by
  cases htyp : g.typ <;> simp [Gate.convert, Ag2pcProgramGate.right, GateType.program, htyp]

/-- A gate of the program is converted from the gate at its position. -/
theorem Converted.gate (h : Converted c p) {i : ℕ} {gate : Ag2pcProgramGate}
    (hgate : p.gates[i]? = some gate) : ∃ first g rest, c.gates = first ++ g :: rest ∧
      first.length = i ∧ gate = g.convert (programWire p.numInputs c.gates) := by
  rw [h.gates, List.getElem?_map] at hgate
  obtain ⟨g, hget, rfl⟩ := Option.map_eq_some_iff.mp hgate
  obtain ⟨hi, rfl⟩ := List.getElem?_eq_some_iff.mp hget
  exact ⟨c.gates.take i, c.gates[i], c.gates.drop (i + 1),
    by rw [List.getElem_cons_drop, List.take_append_drop], List.length_take_of_le hi.le, rfl⟩

/-- A program whose gates read earlier wires comes from settled reads. -/
theorem Converted.readsSettled (h : Converted c p) (hfit : p.numInputs + c.gates.length < 2 ^ 32)
    (hreads : ∀ i gate, p.gates[i]? = some gate → ∀ w ∈ gate.reads, w < p.numInputs + i) :
    c.ReadsSettled := by
  -- no gate from position `i` on writes what the gate there reads
  have key (first : List Gate) (g : Gate) (rest : List Gate)
    (hsplit : c.gates = first ++ g :: rest) :
      ∀ later ∈ g :: rest, asUsize later.out ∉ g.instr.args := by
    intro later hlater hmem
    have hget : p.gates[first.length]? = some (g.convert (programWire p.numInputs c.gates)) := by
      rw [h.gates, hsplit]
      simp
    have hearly := hreads _ _ hget _ (Gate.mem_reads_convert.mpr ⟨_, hmem, rfl⟩)
    rcases programWire_cases (w := asUsize later.out) hfit with ⟨hnone, -⟩ | hlast
    · exact hnone later (hsplit ▸ List.mem_append_right _ hlater) rfl
    · obtain ⟨first', g', rest', hsplit', -, hnone, hnumber⟩ := hlast
      rw [hnumber] at hearly
      have hdrop : later ∈ c.gates.drop (first'.length + 1) := by
        have hlater' : later ∈ c.gates.drop first.length := by
          rw [hsplit, List.drop_left']
          · exact hlater
          · rfl
        have hle : first'.length + 1 ≤ first.length := by omega
        exact (List.drop_subset_drop_left c.gates hle) hlater'
      rw [hsplit', List.drop_append, List.drop_eq_nil_of_le (by omega), List.nil_append,
        show first'.length + 1 - first'.length = 1 by omega, List.drop_one, List.tail_cons] at hdrop
      exact hnone later hdrop rfl
  constructor
  · intro g hg
    obtain ⟨first, rest, hsplit⟩ := List.append_of_mem hg
    exact key first g rest hsplit g List.mem_cons_self
  · rw [List.pairwise_iff_getElem]
    intro i j hi hj hij
    have hsplit : c.gates = c.gates.take i ++ c.gates[i] :: c.gates.drop (i + 1) := by
      rw [List.getElem_cons_drop, List.take_append_drop]
    refine key _ _ _ hsplit _ (List.mem_cons_of_mem _ ?_)
    rw [List.mem_drop_iff_getElem]
    exact ⟨j - (i + 1), by omega, by simp only [show i + 1 + (j - (i + 1)) = j by omega]⟩

/-- Settled reads are converted to reads of earlier wires. -/
theorem Converted.reads (h : Converted c p) (hfit : p.numInputs + c.gates.length < 2 ^ 32)
    (hsettled : c.ReadsSettled) :
    ∀ i gate, p.gates[i]? = some gate → ∀ w ∈ gate.reads, w < p.numInputs + i := by
  intro i gate hgate v hv
  obtain ⟨first, g, rest, hsplit, rfl, rfl⟩ := h.gate hgate
  obtain ⟨w, hw, rfl⟩ := Gate.mem_reads_convert.mp hv
  have hdefined := h.defined g (hsplit ▸ by simp) w hw
  rcases programWire_cases (w := w) hfit with ⟨-, hnumber⟩ |
    ⟨first', g', rest', hsplit', hout, -, hnumber⟩
  · rw [hnumber] at hdefined ⊢
    unfold inputNumbers at hdefined ⊢
    split at hdefined
    · rename_i hlt
      rw [if_pos hlt]
      omega
    · exact absurd rfl hdefined
  · rw [hnumber]
    by_contra hlate
    have hle : first.length ≤ first'.length := by omega
    have hmem : g' ∈ c.gates.drop first.length := by
      rw [hsplit', List.drop_append_of_le_length hle]
      exact List.mem_append_right _ List.mem_cons_self
    rw [hsplit, List.drop_left' rfl] at hmem
    obtain ⟨hself, hlater⟩ := hsettled.later hsplit
    rcases List.mem_cons.mp hmem with rfl | hmem
    · exact hself (hout ▸ hw)
    · exact hlater g' hmem (hout ▸ hw)

/-- Gates compute bits from bits. -/
theorem gateByte_and_one (typ : Ag2pcGateType) {x y : UInt8} (hx : x &&& 1 = x) (hy : y &&& 1 = y) :
    gateByte typ x y &&& 1 = gateByte typ x y := by
  rw [← bitByte_ne_zero hx, ← bitByte_ne_zero hy]
  cases typ <;> cases x != 0 <;> cases y != 0 <;> rfl

/-- A gate computes the same on bits as on truth values. -/
theorem GateStep.gateByte_plain (step : GateStep) (x y : Bool) :
    (gateByte step.gate.typ (bitByte x) (bitByte y) != 0) = step.plain x y := by
  unfold gateByte GateStep.plain
  cases step.gate.typ <;> cases x <;> cases y <;> rfl

/-- The wires of an evaluation carry bits. -/
theorem gateMeaning_and_one (gates : List Gate) (inBits : List UInt8) (w : ℕ) :
    gateMeaning gates inBits w &&& 1 = gateMeaning gates inBits w := by
  have hrun (env : ℕ → UInt8) (henv : ∀ w, env w &&& 1 = env w) :
      ∀ w, StraightLine.exec (gates.map Gate.instr) env w &&& 1 =
        StraightLine.exec (gates.map Gate.instr) env w := by
    induction gates generalizing env with
    | nil => exact henv
    | cons g rest ih =>
      refine ih _ fun w => ?_
      by_cases hw : w = g.instr.out
      · rw [StraightLine.Instr.exec, hw, Function.update_self, gateByte_instr]
        exact gateByte_and_one _ (henv _) (henv _)
      · rw [StraightLine.Instr.exec, Function.update_of_ne hw]
        exact henv w
  refine hrun _ (fun w => ?_) w
  rw [inputEnv, UInt8.and_assoc, UInt8.and_self]

/-- The value of each wire of the program: an input, or what the gate computes from the final values
of the circuit. -/
def circuitValues (c : Circuit) (numInputs : ℕ) (inBits : List UInt8) (v : ℕ) : Bool :=
  if v < numInputs then inBits.getD v 0 &&& 1 != 0
  else (c.gates[v - numInputs]?).any fun g => g.instr.value (gateMeaning c.gates inBits) != 0

/-- A defined wire of the circuit has the value of its number. -/
theorem circuitValues_programWire {numInputs : ℕ} (hfit : numInputs + c.gates.length < 2 ^ 32)
    (hsettled : c.ReadsSettled) (inBits : List UInt8)
    (hdefined : programWire numInputs c.gates w ≠ unmapped) :
    bitByte (circuitValues c numInputs inBits (programWire numInputs c.gates w)) =
      gateMeaning c.gates inBits w := by
  rcases programWire_cases (w := w) hfit with ⟨hnone, hnumber⟩ |
    ⟨first, g, rest, hsplit, hout, hlater, hnumber⟩
  · rw [hnumber] at hdefined ⊢
    unfold inputNumbers at hdefined ⊢
    split at hdefined
    · rename_i hlt
      rw [if_pos hlt, circuitValues, if_pos hlt, bitByte_ne_zero, gateMeaning,
        StraightLine.exec_frame]
      · rfl
      · intro instr hinstr
        obtain ⟨g, hg, rfl⟩ := List.mem_map.mp hinstr
        exact hnone g hg
      · rw [UInt8.and_assoc, UInt8.and_self]
    · exact absurd rfl hdefined
  · have hget : c.gates[numInputs + first.length - numInputs]? = some g := by
      rw [Nat.add_sub_cancel_left, hsplit]
      simp
    have hvalue : gateMeaning c.gates inBits w = g.instr.value (gateMeaning c.gates inBits) := by
      obtain ⟨hself, hafter⟩ := hsettled.later hsplit
      rw [← hout, gateMeaning, hsplit, List.map_append, List.map_cons]
      refine StraightLine.exec_last _ hself fun later hmem => ?_
      obtain ⟨g', hg', rfl⟩ := List.mem_map.mp hmem
      exact ⟨fun heq => hlater g' hg' (heq.trans hout), hafter g' hg'⟩
    rw [hnumber, circuitValues, if_neg (by omega), hget, Option.any_some, ← hvalue]
    exact bitByte_ne_zero (gateMeaning_and_one _ _ _)

/-- With settled reads, the program is well formed. -/
theorem Converted.wellFormed (h : Converted c p) (hfit : p.numInputs + c.gates.length < 2 ^ 32)
    (hsettled : c.ReadsSettled) : p.WellFormed := by
  refine ⟨by rw [h.numWires, h.gates, List.length_map], h.reads hfit hsettled, fun v hv => ?_⟩
  have hdefined := h.outputsDefined v hv
  rw [h.outputs] at hv
  obtain ⟨k, -, rfl⟩ := List.mem_map.mp hv
  rw [h.numWires]
  rcases programWire_cases (w := asUsize c.numWire - asUsize c.n3 + k) hfit with
    ⟨-, hnumber⟩ | ⟨first, g, rest, hsplit, -, -, hnumber⟩
  · rw [hnumber] at hdefined ⊢
    unfold inputNumbers at hdefined ⊢
    split at hdefined
    · rename_i hlt
      rw [if_pos hlt]
      omega
    · exact absurd rfl hdefined
  · rw [hnumber, hsplit, List.length_append, List.length_cons]
    omega

/-- With settled reads, the program computes what the circuit does. -/
theorem Converted.evaluates (h : Converted c p) (hi32 : c.HeaderI32)
    (hfit : p.numInputs + c.gates.length < 2 ^ 32) (hsettled : c.ReadsSettled) {inBits : List UInt8}
    (hlength : inBits.length = p.numInputs) :
    evalBristol c inBits = .ok ((p.evalPlain (inBits.map fun b => b &&& 1 != 0)).map bitByte) := by
  have hcast {value : ℤ} (h0 : 0 ≤ value) (hi : IsI32 value) : value = (asUsize value : ℤ) := by
    unfold asUsize
    have := hi.2
    omega
  have hinputs := h.numInputs
  have hwidth : c.n1 + c.n2 = inBits.length := by
    have h1 := hcast h.n1 hi32.n1
    have h2 := hcast h.n2 hi32.n2
    omega
  have hmax : (asUsize c.numWire : ℤ) ≤ i32Max := by
    rw [← hcast h.numWire hi32.numWire]
    exact Int.le_sub_one_of_lt hi32.numWire.2
  rw [evalBristol_eq c inBits (hcast h.numWire hi32.numWire) (hcast h.n3 hi32.n3) hwidth hmax
    (hlength ▸ h.inputs_le) h.outputs_le h.inRange, Ag2pcProgram.evalPlain, h.outputs, List.map_map,
    List.map_map]
  refine congrArg Except.ok (List.map_congr_left fun k hk => ?_)
  have hmem :
      programWire p.numInputs c.gates (asUsize c.numWire - asUsize c.n3 + k) ∈ p.outputs := by
    rw [h.outputs]
    exact List.mem_map_of_mem hk
  have hwf := h.wellFormed hfit hsettled
  rw [Function.comp_apply,
    Function.comp_apply, ← circuitValues_programWire hfit hsettled inBits (h.outputsDefined _ hmem)]
  refine congrArg bitByte (hwf.wires_unique (fun v hv => ?_) (fun step hstep => ?_) ?_)
  · rw [circuitValues, if_pos hv]
    have hv' : v < inBits.length := hlength ▸ hv
    simp [hv']
  · obtain ⟨first, g, rest, hsplit, hindex, hgate⟩ := h.gate (getElem?_of_mem_gateSteps hstep)
    rw [Nat.sub_zero] at hindex
    have hg : g ∈ c.gates := hsplit ▸ by simp
    have hget : c.gates[p.numInputs + step.index - p.numInputs]? = some g := by
      rw [Nat.add_sub_cancel_left, hsplit, ← hindex]
      simp
    have hread {w : ℕ} (hw : w ∈ g.instr.args) :=
      circuitValues_programWire hfit hsettled inBits (h.defined g hg w hw)
    have h1 : asUsize (if g.typ = .inv then g.in0 else g.in1) ∈ g.instr.args := by
      cases htyp : g.typ <;> simp [Gate.instr, htyp]
    have htyp : g.typ.program = step.gate.typ := by rw [hgate, Gate.convert]
    rw [circuitValues, if_neg (by omega), hget, Option.any_some, gateByte_instr,
      ← hread g.in0_mem_args, ← hread h1, htyp, GateStep.gateByte_plain, hgate, Gate.right_convert]
    rfl
  · rw [h.gates, List.length_map, ← h.numWires]
    exact hwf.outputs _ hmem

/-- An accepted circuit keeps its meaning exactly when no gate reads a wire which it or a later gate
writes. -/
theorem fromCircuit_means_iff (hi32 : c.HeaderI32) (hgates : c.gates.length < 2 ^ 31)
    (h : fromCircuit c = .ok p) : p.Means c ↔ c.ReadsSettled := by
  have hconverted := fromCircuit_eq_ok h
  have hfit : p.numInputs + c.gates.length < 2 ^ 32 := by
    have hle := hconverted.inputs_le
    have hlt := hconverted.numWire_lt
    unfold gateWireLimit at hlt
    omega
  constructor
  · intro hmeans
    exact hconverted.readsSettled hfit hmeans.reads
  · intro hsettled
    exact ⟨hconverted.reads hfit hsettled, fun inBits hlength =>
      hconverted.evaluates hi32 hfit hsettled hlength⟩

/-- A circuit which numbers its wires in another order. -/
def unorderedCircuit : Circuit := ⟨4, 2, 0, 1, [⟨.xor, 0, 1, 3⟩, ⟨.inv, 3, -1, 2⟩]⟩

/-- Its reads are settled, so the program keeps its meaning. -/
theorem fromCircuit_means_unordered :
    Ag2pcProgram.Means ⟨2, 4, [2], [⟨.xor, 0, 1⟩, ⟨.inv, 2, 0⟩]⟩ unorderedCircuit :=
  (fromCircuit_means_iff ⟨⟨by decide, by decide⟩, ⟨by decide, by decide⟩, ⟨by decide, by decide⟩,
    ⟨by decide, by decide⟩⟩ (by decide) (by decide +kernel)).mpr (by decide)

/-- A circuit which negates a wire in place. -/
def rewritingCircuit : Circuit := ⟨2, 1, 0, 1, [⟨.inv, 0, -1, 1⟩, ⟨.inv, 1, -1, 1⟩]⟩

/-- It is accepted, but its program reads a gate's own output and evaluates to another value. -/
theorem fromCircuit_rewriting : ∃ p, fromCircuit rewritingCircuit = .ok p ∧
    (¬∀ i gate, p.gates[i]? = some gate → ∀ w ∈ gate.reads, w < p.numInputs + i) ∧
    evalBristol rewritingCircuit [0] ≠ .ok ((p.evalPlain [false]).map bitByte) := by
  refine ⟨⟨1, 3, [2], [⟨.inv, 0, 0⟩, ⟨.inv, 2, 0⟩]⟩, by decide +kernel,
    fun h => ?_, by decide +kernel⟩
  exact absurd (h 1 ⟨.inv, 2, 0⟩ rfl 2 (by decide)) (by decide)

end Shachain2pc
