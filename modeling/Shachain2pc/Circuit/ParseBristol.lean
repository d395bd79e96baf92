import Shachain2pc.Circuit.Bristol
import Shachain2pc.Types.Parse

/-!
# Reading Bristol circuits

The header's sum of input widths is an `i32` addition, which panics when the program is
built with overflow checks and wraps when it is not. All other arithmetic of the parser is
comparison. A circuit with all its wires in range is evaluated without a panic.
-/

namespace Shachain2pc

open Rust

/-- An `i32` addition, in a build with or without overflow checks. -/
def addI32 {E : Type} (overflowChecks : Bool) (x y : ℤ) : Outcome E ℤ :=
  if overflowChecks then checkedI32 (x + y) else .ok (wrapI32 (x + y))

/-- `next_token`. -/
def nextToken (field : String) : List String → Except CircuitError (String × List String)
  | [] => .error (.parse s!"LoadBristol: missing {field}")
  | token :: rest => .ok (token, rest)

/-- `next_parse`, of an `i32`. -/
def nextParse (field : String) (tokens : List String) : Except CircuitError (ℤ × List String) := do
  let (token, rest) ← nextToken field tokens
  match parseI32 token with
  | some value => .ok (value, rest)
  | none => .error (.parse s!"LoadBristol: bad {field}")

/-- The first line of a circuit file. -/
structure BristolHeader where
  numGate : ℤ
  numWire : ℤ
  n1 : ℤ
  n2 : ℤ
  n3 : ℤ

/-- Read the header. -/
def parseHeader (tokens : List String) : Except CircuitError (BristolHeader × List String) := do
  let (numGate, tokens) ← nextParse "num_gate" tokens
  let (numWire, tokens) ← nextParse "num_wire" tokens
  let (n1, tokens) ← nextParse "n1" tokens
  let (n2, tokens) ← nextParse "n2" tokens
  let (n3, tokens) ← nextParse "n3" tokens
  .ok (⟨numGate, numWire, n1, n2, n3⟩, tokens)

/-- The type of a gate with two inputs, by the first letter of its name. -/
def binaryType (op : String) : Option GateType :=
  match op.toList.head? with
  | some 'A' => some .and
  | some 'X' => some .xor
  | _ => none

/-- The rest of a gate, after its numbers of inputs and outputs. -/
def parseGateBody (src : String) (nIn : ℤ) (tokens : List String) :
    Except CircuitError (Gate × List String) :=
  if nIn = 2 then do
    let (in0, tokens) ← nextParse "in0" tokens
    let (in1, tokens) ← nextParse "in1" tokens
    let (out, tokens) ← nextParse "out" tokens
    let (op, tokens) ← nextToken "op" tokens
    match binaryType op with
    | some typ => .ok (⟨typ, in0, in1, out⟩, tokens)
    | none => .error (.parse s!"LoadBristol: unknown 2-input op in {src}")
  else if nIn = 1 then do
    let (in0, tokens) ← nextParse "in0" tokens
    let (out, tokens) ← nextParse "out" tokens
    let (_, tokens) ← nextToken "op" tokens
    .ok (⟨.inv, in0, -1, out⟩, tokens)
  else .error (.parse s!"LoadBristol: unexpected gate fan-in in {src}")

/-- Read one gate. -/
def parseGate (src : String) (numWire : ℤ) (tokens : List String) :
    Except CircuitError (Gate × List String) := do
  let (nIn, tokens) ← nextParse "gate n_in" tokens
  let (nOut, tokens) ← nextParse "gate n_out" tokens
  if nOut ≠ 1 then .error (.parse s!"LoadBristol: bad gate arity in {src}")
  else do
    let (gate, tokens) ← parseGateBody src nIn tokens
    let inRange := fun w : ℤ => 0 ≤ w ∧ w < numWire
    if ¬inRange gate.in0 ∨ ¬inRange gate.out ∨ (gate.typ ≠ .inv ∧ ¬inRange gate.in1) then
      .error (.parse s!"LoadBristol: gate wire index out of range in {src}")
    else .ok (gate, tokens)

/-- Read a number of gates. -/
def parseGates (src : String) (numWire : ℤ) : ℕ → List String → Except CircuitError (List Gate)
  | 0, _ => .ok []
  | count + 1, tokens => do
    let (gate, tokens) ← parseGate src numWire tokens
    let gates ← parseGates src numWire count tokens
    .ok (gate :: gates)

/-- The numbers of a header which are checked before the widths are added. -/
def BristolHeader.Nonneg (header : BristolHeader) : Prop :=
  0 ≤ header.numGate ∧ 0 < header.numWire ∧ 0 ≤ header.n1 ∧ 0 ≤ header.n2 ∧ 0 ≤ header.n3

instance : DecidablePred BristolHeader.Nonneg := fun header => by
  unfold BristolHeader.Nonneg
  infer_instance

/-- `parse_bristol`, in a build with or without overflow checks. -/
def parseBristol (overflowChecks : Bool) (text src : String) : Outcome CircuitError Circuit := do
  let (header, tokens) ← (parseHeader (splitWhitespace text)).mapError .error
  if ¬header.Nonneg then .error (.error (.parse s!"LoadBristol: inconsistent header in {src}"))
  else do
    let width ← addI32 overflowChecks header.n1 header.n2
    if header.numWire < width ∨ header.numWire < header.n3 then
      .error (.error (.parse s!"LoadBristol: inconsistent header in {src}"))
    else do
      let gates ← (parseGates src header.numWire header.numGate.toNat tokens).mapError .error
      .ok ⟨header.numWire, header.n1, header.n2, header.n3, gates⟩

/-- A parsed number is an `i32`. -/
theorem nextParse_isI32 {field : String} {tokens rest : List String} {value : ℤ}
    (h : nextParse field tokens = .ok (value, rest)) : IsI32 value := by
  obtain ⟨token, -, h⟩ := bind_eq_ok h
  cases hparse : parseI32 token.1 with
  | none => simp [hparse] at h
  | some parsed =>
    simp only [hparse, Except.ok.injEq, Prod.mk.injEq] at h
    exact h.1 ▸ parseI32_isI32 hparse

/-- The numbers of a parsed header are `i32`. -/
theorem parseHeader_isI32 {tokens rest : List String} {header : BristolHeader}
    (h : parseHeader tokens = .ok (header, rest)) :
    IsI32 header.numWire ∧ IsI32 header.n1 ∧ IsI32 header.n2 ∧ IsI32 header.n3 := by
  obtain ⟨⟨numGate, _⟩, -, h⟩ := bind_eq_ok h
  obtain ⟨⟨numWire, _⟩, hwire, h⟩ := bind_eq_ok h
  obtain ⟨⟨n1, _⟩, h1, h⟩ := bind_eq_ok h
  obtain ⟨⟨n2, _⟩, h2, h⟩ := bind_eq_ok h
  obtain ⟨⟨n3, _⟩, h3, h⟩ := bind_eq_ok h
  cases h
  exact ⟨nextParse_isI32 hwire, nextParse_isI32 h1, nextParse_isI32 h2, nextParse_isI32 h3⟩

/-- The wires of a gate are those of a circuit. -/
def Gate.Within (gate : Gate) (numWire : ℤ) : Prop :=
  (0 ≤ gate.in0 ∧ gate.in0 < numWire) ∧ (0 ≤ gate.out ∧ gate.out < numWire) ∧
    (gate.typ ≠ .inv → 0 ≤ gate.in1 ∧ gate.in1 < numWire)

/-- A parsed gate has its wires in range. -/
theorem parseGate_within {src : String} {numWire : ℤ} {tokens rest : List String} {gate : Gate}
    (h : parseGate src numWire tokens = .ok (gate, rest)) : gate.Within numWire := by
  obtain ⟨⟨nIn, _⟩, -, h⟩ := bind_eq_ok h
  obtain ⟨⟨nOut, _⟩, -, h⟩ := bind_eq_ok h
  dsimp only at h
  split at h
  · cases h
  · obtain ⟨⟨gate', _⟩, -, h⟩ := bind_eq_ok h
    dsimp only at h
    split at h
    · cases h
    · rename_i hrange
      cases h
      obtain ⟨h0, hrange⟩ := not_or.mp hrange
      obtain ⟨hout, h1⟩ := not_or.mp hrange
      exact ⟨not_not.mp h0, not_not.mp hout, fun htyp => not_not.mp fun hbad => h1 ⟨htyp, hbad⟩⟩

/-- Parsed gates have their wires in range. -/
theorem parseGates_within {src : String} {numWire : ℤ} {count : ℕ} {tokens : List String}
    {gates : List Gate} (h : parseGates src numWire count tokens = .ok gates) :
    ∀ gate ∈ gates, gate.Within numWire := by
  induction count generalizing tokens gates with
  | zero =>
    cases h
    simp
  | succ count ih =>
    obtain ⟨⟨gate, tokens'⟩, hgate, h⟩ := bind_eq_ok h
    obtain ⟨rest, hrest, h⟩ := bind_eq_ok h
    cases h
    exact List.forall_mem_cons.mpr ⟨parseGate_within hgate, ih hrest⟩

/-- A circuit has its input widths, its output width, and the wires of its gates in range. -/
structure Circuit.Within (c : Circuit) : Prop where
  numWire : c.numWire ≤ i32Max
  n1 : 0 ≤ c.n1
  n2 : 0 ≤ c.n2
  n3 : 0 ≤ c.n3
  inputs : c.n1 + c.n2 ≤ c.numWire
  outputs : c.n3 ≤ c.numWire
  gates : ∀ gate ∈ c.gates, gate.Within c.numWire

/-- A gate with its wires in range reads and writes inside the wire vector. -/
theorem Gate.Within.inRange {gate : Gate} {n : ℕ} (h : gate.Within n) : gate.InRange n := by
  obtain ⟨h0, hout, h1⟩ := h
  have hcast {w : ℤ} (hw : 0 ≤ w ∧ w < n) : asUsize w < n := by
    unfold asUsize
    omega
  refine ⟨fun w hw => ?_, hcast hout⟩
  cases htyp : gate.typ with
  | inv =>
    simp only [Gate.instr, htyp, List.mem_singleton] at hw
    exact hw ▸ hcast h0
  | _ =>
    simp only [Gate.instr, htyp, List.mem_cons, List.not_mem_nil, or_false] at hw
    rcases hw with rfl | rfl
    · exact hcast h0
    · exact hcast (h1 (by simp [htyp]))

/-- A circuit with everything in range is evaluated on inputs of its width. -/
theorem Circuit.Within.evalBristol_ok {c : Circuit} (h : c.Within) {inBits : List UInt8}
    (hwidth : (inBits.length : ℤ) = c.n1 + c.n2) : ∃ out, evalBristol c inBits = .ok out := by
  have hpos : 0 ≤ c.numWire := le_trans h.n3 h.outputs
  have hnum : c.numWire = (c.numWire.toNat : ℤ) := (Int.toNat_of_nonneg hpos).symm
  have hn3 : c.n3 = (c.n3.toNat : ℤ) := (Int.toNat_of_nonneg h.n3).symm
  have hinputs := h.inputs
  have houtputs := h.outputs
  have hmax : (c.numWire.toNat : ℤ) ≤ i32Max := hnum ▸ h.numWire
  exact ⟨_, evalBristol_eq c inBits hnum hn3 hwidth.symm hmax (by omega) (by omega)
    fun gate hgate => (hnum ▸ h.gates gate hgate : gate.Within c.numWire.toNat).inRange⟩

/-- What the parser should guarantee for a text: it does not overflow, and the circuits it accepts
are in range and evaluated without a panic, in either build. -/
def BristolSafe (text src : String) : Prop :=
  parseBristol true text src ≠ .error .panic ∧
    ∀ overflowChecks c, parseBristol overflowChecks text src = .ok c →
      c.Within ∧ ∀ inBits : List UInt8, (inBits.length : ℤ) = c.n1 + c.n2 →
        ∃ out, evalBristol c inBits = .ok out

/-- The sum of the input widths of the header is an `i32`, whenever it is computed. -/
def WidthsFit (text : String) : Prop :=
  ∀ header rest, parseHeader (splitWhitespace text) = .ok (header, rest) → header.Nonneg →
    header.n1 + header.n2 ≤ i32Max

/-- Parsing is safe exactly when the sum of the input widths fits. -/
theorem parseBristol_safe (text src : String) : BristolSafe text src ↔ WidthsFit text := by
  constructor
  · intro h header rest hheader hnonneg
    by_contra hover
    refine h.1 ?_
    have hsum : addI32 true header.n1 header.n2 = (.error .panic : Outcome CircuitError ℤ) := by
      rw [addI32, if_pos rfl, checkedI32, if_neg fun hfits => hover hfits.2]
    simp only [parseBristol, hheader, Except.mapError, bind, Except.bind, hnonneg,
      not_true_eq_false, if_false, hsum]
  · intro hfits
    -- In either build the header's sum is exact.
    have hsum (overflowChecks : Bool) {header : BristolHeader} {rest : List String}
        (hheader : parseHeader (splitWhitespace text) = .ok (header, rest))
        (hnonneg : header.Nonneg) : addI32 overflowChecks header.n1 header.n2 =
          (.ok (header.n1 + header.n2) : Outcome CircuitError ℤ) := by
      have hmax := hfits header rest hheader hnonneg
      obtain ⟨-, -, h1, h2, -⟩ := hnonneg
      cases overflowChecks with
      | true => exact checkedI32_ok (by omega) hmax
      | false =>
        refine congrArg Except.ok ?_
        unfold wrapI32 i32Max at *
        omega
    constructor
    · intro hpanic
      cases hheader : parseHeader (splitWhitespace text) with
      | error error => simp [parseBristol, hheader, Except.mapError, bind, Except.bind] at hpanic
      | ok result =>
        by_cases hnonneg : result.1.Nonneg
        · simp only [parseBristol, hheader, Except.mapError, bind, Except.bind, hnonneg,
            not_true_eq_false, if_false, hsum true hheader hnonneg] at hpanic
          split at hpanic
          · cases hpanic
          · cases hgates : parseGates src result.1.numWire result.1.numGate.toNat result.2 <;>
              simp [hgates] at hpanic
        · simp [parseBristol, hheader, Except.mapError, bind, Except.bind, hnonneg] at hpanic
    · intro overflowChecks c hc
      obtain ⟨⟨header, rest⟩, hheader, hc⟩ := bind_eq_ok hc
      have hheader := mapError_eq_ok hheader
      dsimp only at hc
      split at hc
      · cases hc
      · rename_i hnonneg
        have hnonneg := not_not.mp hnonneg
        rw [hsum overflowChecks hheader hnonneg] at hc
        simp only [bind, Except.bind] at hc
        split at hc
        · cases hc
        · rename_i hrange
          obtain ⟨gates, hgates, hc⟩ := bind_eq_ok hc
          cases hc
          obtain ⟨hwire, -⟩ := parseHeader_isI32 hheader
          obtain ⟨-, -, h1, h2, h3⟩ := hnonneg
          have hwithin : Circuit.Within ⟨header.numWire, header.n1, header.n2, header.n3, gates⟩ :=
            ⟨Int.le_sub_one_of_lt hwire.2, h1, h2, h3, by simp only; omega, by simp only; omega,
              parseGates_within (mapError_eq_ok hgates)⟩
          exact ⟨hwithin, fun inBits hwidth => hwithin.evalBristol_ok hwidth⟩

/-- A header whose input widths do not fit. -/
def overflowingText : String := "0 1 2147483647 1 1"

/-- On this header the parser panics with overflow checks, and without them accepts a circuit with
more inputs than wires. -/
theorem parseBristol_overflow : ¬BristolSafe overflowingText "file" ∧
    parseBristol true overflowingText "file" = .error .panic ∧
    parseBristol false overflowingText "file" = .ok ⟨1, 2147483647, 1, 1, []⟩ := by
  have hpanic : parseBristol true overflowingText "file" = .error .panic := by decide +kernel
  exact ⟨fun h => h.1 hpanic, hpanic, by decide +kernel⟩

end Shachain2pc
