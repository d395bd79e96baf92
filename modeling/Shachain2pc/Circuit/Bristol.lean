import Shachain2pc.Types.Value32
import Shachain2pc.Lib.StraightLine
import Shachain2pc.Lib.Rust

/-!
# Bristol circuits and their evaluator

Wire numbers are `i32` in the source, so they are integers here and every addition or
subtraction checks the `i32` range.

The evaluator works on a mutable byte vector. `evalBristol_eq` relates a panic-free
evaluation to the straight-line meaning of the gate list, which the builders' proofs use.
-/

namespace Shachain2pc

open StraightLine (Instr)
open Rust

inductive GateType where
  | and
  | xor
  | inv
  deriving DecidableEq, Repr

structure Gate where
  typ : GateType
  in0 : ℤ
  in1 : ℤ
  out : ℤ
  deriving DecidableEq, Repr

structure Circuit where
  numWire : ℤ
  n1 : ℤ
  n2 : ℤ
  n3 : ℤ
  gates : List Gate
  deriving DecidableEq, Repr

inductive CircuitError where
  | parse (message : String)
  | shape (message : String)
  | index (error : ParseError)
  deriving DecidableEq, Repr

/-- The low 32 bits of an integer as an `i32`. -/
def wrapI32 (value : ℤ) : ℤ := (value + 2 ^ 31) % 2 ^ 32 - 2 ^ 31

/-- One gate of the evaluation loop. -/
def evalGate (wires : List UInt8) (g : Gate) : Outcome CircuitError (List UInt8) :=
  match g.typ with
  | .and => do
    let x ← readSlot wires (asUsize g.in0)
    let y ← readSlot wires (asUsize g.in1)
    writeSlot wires (asUsize g.out) (x &&& y)
  | .xor => do
    let x ← readSlot wires (asUsize g.in0)
    let y ← readSlot wires (asUsize g.in1)
    writeSlot wires (asUsize g.out) (x ^^^ y)
  | .inv => do
    let x ← readSlot wires (asUsize g.in0)
    writeSlot wires (asUsize g.out) (x ^^^ 1)

/-- The input loop `wires[i] = b & 1`. -/
def loadInputs (wires inBits : List UInt8) : Outcome CircuitError (List UInt8) :=
  if inBits.length ≤ wires.length then
    .ok (inBits.map (· &&& 1) ++ wires.drop inBits.length)
  else .error .panic

/-- `eval_bristol`. -/
def evalBristol (c : Circuit) (inBits : List UInt8) : Outcome CircuitError (List UInt8) := do
  let width ← checkedI32 (c.n1 + c.n2)
  if inBits.length ≠ asUsize width then
    .error (.error (.shape "EvalBristol: wrong input width"))
  else do
    let wires ← newVec 0 (asUsize c.numWire)
    let wires ← loadInputs wires inBits
    let wires ← c.gates.foldlM evalGate wires
    let start ← checkedI32 (c.numWire - c.n3)
    readSlice wires (asUsize start) (asUsize c.n3)

/-- The straight-line instruction a gate performs, over `usize` wire positions. -/
def Gate.instr (g : Gate) : Instr ℕ UInt8 where
  args := match g.typ with
    | .inv => [asUsize g.in0]
    | _ => [asUsize g.in0, asUsize g.in1]
  fn := fun values => match g.typ, values with
    | .and, [x, y] => x &&& y
    | .xor, [x, y] => x ^^^ y
    | .inv, [x] => x ^^^ 1
    | _, _ => 0
  out := asUsize g.out

/-- Every gate reads its first wire. -/
theorem Gate.in0_mem_args (gate : Gate) : asUsize gate.in0 ∈ gate.instr.args := by
  cases htyp : gate.typ <;> simp [Gate.instr, htyp]

/-- A gate which is not an inverter reads its second wire. -/
theorem Gate.in1_mem_args {gate : Gate} (htyp : gate.typ ≠ .inv) :
    asUsize gate.in1 ∈ gate.instr.args := by
  cases htyp' : gate.typ with
  | inv => exact absurd htyp' htyp
  | _ => simp [Gate.instr, htyp']

/-- What holds of the wires a gate reads holds of all its arguments. -/
theorem Gate.forall_args {P : ℕ → Prop} {gate : Gate} (h0 : P (asUsize gate.in0))
    (h1 : gate.typ ≠ .inv → P (asUsize gate.in1)) : ∀ w ∈ gate.instr.args, P w := by
  intro w hw
  cases htyp : gate.typ with
  | inv =>
    simp only [Gate.instr, htyp, List.mem_singleton] at hw
    exact hw ▸ h0
  | _ =>
    simp only [Gate.instr, htyp, List.mem_cons, List.not_mem_nil, or_false] at hw
    rcases hw with rfl | rfl
    · exact h0
    · exact h1 (by simp [htyp])

/-- Every wire a gate reads or writes lies below `bound`. -/
def Gate.InRange (g : Gate) (bound : ℕ) : Prop :=
  (∀ w ∈ g.instr.args, w < bound) ∧ asUsize g.out < bound

/-- The initial wire values of an evaluation: masked inputs, then zeros. -/
def inputEnv (inBits : List UInt8) : ℕ → UInt8 := fun w => inBits.getD w 0 &&& 1

/-- The straight-line meaning of a gate list. -/
def gateMeaning (gates : List Gate) (inBits : List UInt8) : ℕ → UInt8 :=
  StraightLine.exec (gates.map Gate.instr) (inputEnv inBits)

/-- One gate inside the wire vector performs exactly its straight-line instruction. -/
theorem evalGate_map_range (g : Gate) (env : ℕ → UInt8) {n : ℕ} (hg : g.InRange n) :
    evalGate ((List.range n).map env) g =
      .ok ((List.range n).map (g.instr.exec env)) := by
  obtain ⟨hargs, hout⟩ := hg
  cases htyp : g.typ <;> simp only [Gate.instr, htyp, List.forall_mem_cons] at hargs <;>
    simp only [evalGate, htyp, readSlot_map_range env hargs.1, bind, Except.bind]
  case inv =>
    rw [writeSlot_map_range env hout]
    simp [Instr.exec, Instr.value, Gate.instr, htyp]
  all_goals
    rw [readSlot_map_range env hargs.2.1]
    simp only
    rw [writeSlot_map_range env hout]
    simp [Instr.exec, Instr.value, Gate.instr, htyp]

/-- The evaluation loop tabulates the straight-line meaning of the gates. -/
theorem foldlM_evalGate_map_range (gates : List Gate) (env : ℕ → UInt8) {n : ℕ}
    (hgates : ∀ g ∈ gates, g.InRange n) :
    gates.foldlM evalGate ((List.range n).map env) =
      .ok ((List.range n).map (StraightLine.exec (gates.map Gate.instr) env)) := by
  induction gates generalizing env with
  | nil => rfl
  | cons g rest ih =>
    rw [List.foldlM_cons, evalGate_map_range g env (hgates g List.mem_cons_self)]
    exact ih _ fun g' hg' => hgates g' (List.mem_cons_of_mem _ hg')

/-- A gate that ran without panicking had all its wires in range. -/
theorem evalGate_inRange {wires wires' : List UInt8} {g : Gate}
    (h : evalGate wires g = .ok wires') :
    g.InRange wires.length ∧ wires'.length = wires.length := by
  have hread {i : ℕ} {x : UInt8} (hr : (readSlot wires i : Outcome CircuitError UInt8) = .ok x) :
      i < wires.length := by
    unfold readSlot at hr
    split at hr
    · next hx => exact (List.getElem?_eq_some_iff.mp hx).1
    · cases hr
  have hwrite {i : ℕ} {x : UInt8}
      (hw : (writeSlot wires i x : Outcome CircuitError (List UInt8)) = .ok wires') :
      i < wires.length ∧ wires'.length = wires.length := by
    unfold writeSlot at hw
    split at hw
    · next hi =>
      cases hw
      exact ⟨hi, by simp⟩
    · cases hw
  cases htyp : g.typ with
  | and =>
    simp only [evalGate, htyp] at h
    obtain ⟨x, hx, h⟩ := bind_eq_ok h
    obtain ⟨y, hy, h⟩ := bind_eq_ok h
    obtain ⟨hout, hlen⟩ := hwrite h
    exact ⟨⟨by simpa [Gate.instr, htyp] using ⟨hread hx, hread hy⟩, hout⟩, hlen⟩
  | xor =>
    simp only [evalGate, htyp] at h
    obtain ⟨x, hx, h⟩ := bind_eq_ok h
    obtain ⟨y, hy, h⟩ := bind_eq_ok h
    obtain ⟨hout, hlen⟩ := hwrite h
    exact ⟨⟨by simpa [Gate.instr, htyp] using ⟨hread hx, hread hy⟩, hout⟩, hlen⟩
  | inv =>
    simp only [evalGate, htyp] at h
    obtain ⟨x, hx, h⟩ := bind_eq_ok h
    obtain ⟨hout, hlen⟩ := hwrite h
    exact ⟨⟨by simpa [Gate.instr, htyp] using hread hx, hout⟩, hlen⟩

/-- A gate list that ran without panicking had all its wires in range. -/
theorem foldlM_evalGate_inRange {gates : List Gate} {wires wires' : List UInt8}
    (h : gates.foldlM evalGate wires = .ok wires') : ∀ g ∈ gates, g.InRange wires.length := by
  induction gates generalizing wires with
  | nil => simp
  | cons g rest ih =>
    rw [List.foldlM_cons] at h
    obtain ⟨mid, hg, h⟩ := bind_eq_ok h
    obtain ⟨hrange, hlen⟩ := evalGate_inRange hg
    exact List.forall_mem_cons.mpr ⟨hrange, fun g' hg' => hlen ▸ ih h g' hg'⟩

/-- The input loop tabulates the initial environment. -/
theorem loadInputs_replicate (inBits : List UInt8) {n : ℕ} (hlen : inBits.length ≤ n) :
    loadInputs (List.replicate n 0) inBits = .ok ((List.range n).map (inputEnv inBits)) := by
  rw [loadInputs, if_pos (by simpa using hlen)]
  congr 1
  apply List.ext_getElem
  · simp
    omega
  · intro i hi _
    by_cases hlt : i < inBits.length
    · rw [List.getElem_append_left (by simpa using hlt)]
      simp [inputEnv, hlt]
    · rw [List.getElem_append_right (by simpa using hlt)]
      simp [inputEnv, List.getElem?_eq_none (Nat.le_of_not_lt hlt)]

/-- A circuit of consistent shape evaluates to the straight-line meaning of its last wires. -/
theorem evalBristol_eq (c : Circuit) (inBits : List UInt8) {numWire n3 : ℕ}
    (hnum : c.numWire = numWire) (hn3 : c.n3 = n3) (hwidth : c.n1 + c.n2 = inBits.length)
    (hmax : (numWire : ℤ) ≤ i32Max) (hin : inBits.length ≤ numWire) (hout : n3 ≤ numWire)
    (hgates : ∀ g ∈ c.gates, g.InRange numWire) :
    evalBristol c inBits =
      .ok ((List.range n3).map fun k => gateMeaning c.gates inBits (numWire - n3 + k)) := by
  have hcast (m : ℕ) (hm : m ≤ numWire) : asUsize (m : ℤ) = m :=
    asUsize_natCast (by unfold i32Max at hmax; omega)
  have hstart : c.numWire - c.n3 = ((numWire - n3 : ℕ) : ℤ) := by omega
  have hnew :
      (newVec 0 numWire : Outcome CircuitError (List UInt8)) = .ok (List.replicate numWire 0) :=
    if_pos (by unfold i32Max at hmax; omega)
  rw [evalBristol, hwidth, hstart, hnum, hn3,
    checkedI32_ok (by omega) (by omega), checkedI32_ok (by omega) (by omega)]
  simp only [bind, Except.bind, hcast _ hin, hcast _ le_rfl, hcast _ hout,
    hcast _ (Nat.sub_le _ _), ne_eq, not_true_eq_false, if_false, hnew,
    loadInputs_replicate inBits hin, foldlM_evalGate_map_range c.gates _ hgates]
  exact readSlice_map_range _ (by omega)

/-- What one panic-free evaluation establishes about a circuit's shape. -/
theorem evalBristol_shape {c : Circuit} {inBits out : List UInt8}
    (h : evalBristol c inBits = .ok out) :
    inBits.length ≤ asUsize c.numWire ∧ asUsize c.numWire < 2 ^ 63 ∧
      (∀ g ∈ c.gates, g.InRange (asUsize c.numWire)) ∧
      asUsize (c.numWire - c.n3) + asUsize c.n3 ≤ asUsize c.numWire := by
  unfold evalBristol at h
  obtain ⟨width, -, h⟩ := bind_eq_ok h
  split at h
  · cases h
  obtain ⟨wires, hnew, h⟩ := bind_eq_ok h
  obtain ⟨loaded, hload, h⟩ := bind_eq_ok h
  obtain ⟨final, hfold, h⟩ := bind_eq_ok h
  obtain ⟨start, hstart, h⟩ := bind_eq_ok h
  have hcap : asUsize c.numWire < 2 ^ 63 ∧ wires = List.replicate (asUsize c.numWire) 0 := by
    unfold newVec at hnew
    split at hnew
    · next hlt => exact ⟨hlt, (Except.ok.inj hnew).symm⟩
    · cases hnew
  obtain ⟨hcap, rfl⟩ := hcap
  have hlen : inBits.length ≤ asUsize c.numWire := by
    unfold loadInputs at hload
    split at hload
    · next hle => simpa using hle
    · cases hload
  rw [loadInputs_replicate inBits hlen] at hload
  cases hload
  have hgates := foldlM_evalGate_inRange hfold
  simp only [List.length_map, List.length_range] at hgates
  rw [foldlM_evalGate_map_range _ _ hgates] at hfold
  cases hfold
  refine ⟨hlen, hcap, hgates, ?_⟩
  unfold checkedI32 at hstart
  split at hstart
  · cases hstart
    unfold readSlice at h
    split at h
    · next hle => simpa using hle
    · cases h
  · cases hstart

end Shachain2pc
