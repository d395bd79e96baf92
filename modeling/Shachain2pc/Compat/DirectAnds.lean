import Shachain2pc.Compat.TileMeaning

/-!
# AND gates of the direct programs

Only the gadget has AND gates. A chunk has those of one gadget for each of its bits, and a tile
those of one gadget for each node below its root. So a chunk without bits has none.
-/

namespace Shachain2pc

open Rust

/-- The AND gates of a gadget. -/
def gadgetAnds (gadget : Circuit) : ℕ := (gadget.gates.filter fun gate => gate.typ = .and).length

namespace Ag2pcProgramBuilder

variable {b : Ag2pcProgramBuilder} {gadget : Circuit}

/-- A pushed gate counts when it is an AND gate. -/
theorem pushGate_ands {typ : Ag2pcGateType} {in0 in1 : ℕ} {r : ℕ × Ag2pcProgramBuilder}
    (h : b.pushGate typ in0 in1 = .ok r) :
    countAnds r.2.gates = countAnds b.gates + if typ = .and then 1 else 0 := by
  unfold pushGate at h
  simp only at h
  split at h
  · cases h
  · cases h
    rw [countAnds, countAnds, List.filter_append, List.length_append]
    split <;> simp_all

/-- A copied gate counts when it is an AND gate. -/
theorem copyGate_ands {map : List ℕ} {gate : Gate} {r : List ℕ × Ag2pcProgramBuilder}
    (h : copyGate (map, b) gate = .ok r) :
    countAnds r.2.gates = countAnds b.gates + if gate.typ = .and then 1 else 0 := by
  obtain ⟨in0, -, h⟩ := bind_eq_ok h
  obtain ⟨in1, -, h⟩ := bind_eq_ok h
  obtain ⟨pushed, hpush, h⟩ := bind_eq_ok h
  obtain ⟨outWire, -, h⟩ := bind_eq_ok h
  obtain ⟨map', -, h⟩ := bind_eq_ok h
  cases h
  cases htyp : gate.typ with
  | and =>
    rw [htyp] at hpush
    exact pushGate_ands hpush
  | xor =>
    rw [htyp] at hpush
    exact pushGate_ands hpush
  | inv =>
    rw [htyp] at hpush
    exact pushGate_ands hpush

/-- Copied gates. -/
theorem copyGates_ands {map : List ℕ} {gates : List Gate} {r : List ℕ × Ag2pcProgramBuilder}
    (h : gates.foldlM copyGate (map, b) = .ok r) :
    countAnds r.2.gates = countAnds b.gates +
      (gates.filter fun gate => gate.typ = .and).length := by
  induction gates generalizing b map with
  | nil =>
    cases h
    rfl
  | cons gate rest ih =>
    rw [List.foldlM_cons] at h
    obtain ⟨next, hnext, h⟩ := bind_eq_ok h
    rw [ih h, copyGate_ands hnext, Nat.add_assoc, List.filter_cons]
    split <;> simp_all [Nat.add_comm]

/-- A gadget. -/
theorem applyGadget_ands {inputs : List ℕ} {r : List ℕ × Ag2pcProgramBuilder}
    (h : b.applyGadget gadget inputs = .ok r) :
    countAnds r.2.gates = countAnds b.gates + gadgetAnds gadget := by
  obtain ⟨width, -, h⟩ := bind_eq_ok h
  obtain ⟨gin, -, h⟩ := bind_eq_ok h
  obtain ⟨numWire, -, h⟩ := bind_eq_ok h
  obtain ⟨n3, -, h⟩ := bind_eq_ok h
  split at h
  · cases h
  obtain ⟨map, -, h⟩ := bind_eq_ok h
  obtain ⟨-, -, h⟩ := bind_eq_ok h
  obtain ⟨copied, hcopied, h⟩ := bind_eq_ok h
  obtain ⟨outs, -, h⟩ := bind_eq_ok h
  split at h
  · cases h
  cases h
  have hands := copyGates_ands hcopied
  exact hands

/-- An edge has those of one gadget. -/
theorem hashWires_ands {c0 c1 bit : ℕ} {p : List ℕ} {r : List ℕ × Ag2pcProgramBuilder}
    (h : hashWires gadget c0 c1 (p, b) bit = .ok r) :
    countAnds r.2.gates = countAnds b.gates + gadgetAnds gadget := by
  obtain ⟨wire, -, h⟩ := bind_eq_ok h
  obtain ⟨flipped, hflipped, h⟩ := bind_eq_ok h
  exact (applyGadget_ands h).trans (congrArg (· + gadgetAnds gadget) (pushGate_ands hflipped))

/-- XORed pairs have none. -/
theorem xorPairs_ands {pairs : List (ℕ × ℕ)} {r : List ℕ × Ag2pcProgramBuilder}
    (h : b.xorPairs pairs = .ok r) :
    countAnds r.2.gates = countAnds b.gates := by
  induction pairs generalizing b r with
  | nil =>
    cases h
    rfl
  | cons pair rest ih =>
    obtain ⟨first, hfirst, h⟩ := bind_eq_ok h
    obtain ⟨others, hothers, h⟩ := bind_eq_ok h
    cases h
    exact (ih hothers).trans (pushGate_ands hfirst)

/-- The edges of a chunk. -/
theorem hashLoop_ands {c0 c1 : ℕ} {p bits : List ℕ} {r : List ℕ × Ag2pcProgramBuilder}
    (h : bits.foldlM (hashWires gadget c0 c1) (p, b) = .ok r) :
    countAnds r.2.gates = countAnds b.gates + bits.length * gadgetAnds gadget := by
  induction bits generalizing b p with
  | nil =>
    cases h
    rw [List.length_nil, Nat.zero_mul, Nat.add_zero]
  | cons bit rest ih =>
    rw [List.foldlM_cons] at h
    obtain ⟨next, hnext, h⟩ := bind_eq_ok h
    rw [ih h, hashWires_ands hnext, List.length_cons, Nat.succ_mul]
    omega

/-- The wires a chunk starts from have none. -/
theorem startWires_ands {first : Bool} {r : List ℕ × Ag2pcProgramBuilder}
    (h : b.startWires first = .ok r) :
    countAnds r.2.gates = countAnds b.gates := by
  cases first with
  | false =>
    cases h
    rfl
  | true => exact xorPairs_ands h

/-- The gates of a chunk. -/
theorem chunkGates_ands {bits : List ℕ} {first : Bool} {r : Ag2pcProgramBuilder}
    (h : chunkGates gadget bits first b = .ok r) :
    countAnds r.gates = countAnds b.gates + bits.length * gadgetAnds gadget := by
  obtain ⟨zero, hzero, h⟩ := bind_eq_ok h
  obtain ⟨one, hone, h⟩ := bind_eq_ok h
  obtain ⟨start, hstart, h⟩ := bind_eq_ok h
  obtain ⟨hashed, hhashed, h⟩ := bind_eq_ok h
  obtain ⟨copied, hcopied, h⟩ := bind_eq_ok h
  cases h
  rw [xorPairs_ands hcopied, hashLoop_ands hhashed, startWires_ands hstart, pushGate_ands hone,
    pushGate_ands hzero]
  rfl

/-- The edges of a tile. -/
theorem tileSteps_ands {c0 c1 bitOffset : ℕ} {nodes : List (List ℕ)} {suffixes : List ℕ}
    {r : List (List ℕ) × Ag2pcProgramBuilder}
    (h : suffixes.foldlM (tileStep gadget c0 c1 bitOffset) (nodes, b) = .ok r) :
    countAnds r.2.gates = countAnds b.gates + suffixes.length * gadgetAnds gadget := by
  induction suffixes generalizing b nodes with
  | nil =>
    cases h
    rw [List.length_nil, Nat.zero_mul, Nat.add_zero]
  | cons suffix rest ih =>
    rw [List.foldlM_cons] at h
    obtain ⟨next, hnext, h⟩ := bind_eq_ok h
    obtain ⟨p, -, hnext⟩ := bind_eq_ok hnext
    obtain ⟨hashed, hhashed, hnext⟩ := bind_eq_ok hnext
    obtain ⟨node, -, hnext⟩ := bind_eq_ok hnext
    cases hnext
    have hands : countAnds hashed.2.gates = countAnds b.gates + gadgetAnds gadget :=
      hashWires_ands hhashed
    rw [ih h, hands, List.length_cons, Nat.succ_mul]
    omega

/-- The gates of a tile. -/
theorem tileGates_ands {bitOffset tileHeight : ℕ} {r : Ag2pcProgramBuilder}
    (h : tileGates gadget bitOffset tileHeight b = .ok r) :
    countAnds r.gates = countAnds b.gates + (tileSuffixes tileHeight).length *
      gadgetAnds gadget := by
  obtain ⟨zero, hzero, h⟩ := bind_eq_ok h
  obtain ⟨one, hone, h⟩ := bind_eq_ok h
  obtain ⟨nodes, hnodes, h⟩ := bind_eq_ok h
  obtain ⟨copied, hcopied, h⟩ := bind_eq_ok h
  cases h
  rw [xorPairs_ands hcopied, tileSteps_ands hnodes, pushGate_ands hone, pushGate_ands hzero]
  rfl

/-- A finished program has the gates of its builder. -/
theorem finish_gates {count : ℕ} {program : Ag2pcProgram} (h : b.finish count = .ok program) :
    program.gates = b.gates := by
  unfold finish at h
  split at h
  · cases h
  · cases h
    rfl

end Ag2pcProgramBuilder

open Ag2pcProgramBuilder

/-- A chunk has the AND gates of one gadget for each of its bits. -/
theorem chunkFromSha_ands {gadget : Circuit} {bits : List ℕ} {first : Bool} {program : Ag2pcProgram}
    (h : chunkFromSha gadget bits first = .ok program) :
    countAnds program.gates = bits.length * gadgetAnds gadget := by
  obtain ⟨-, -, h⟩ := bind_eq_ok h
  split at h
  · cases h
  obtain ⟨b, hgates, h⟩ := bind_eq_ok h
  rw [finish_gates h, chunkGates_ands hgates]
  exact Nat.zero_add _

/-- A tile has the AND gates of one gadget for each node below its root. -/
theorem tileFromSha_ands {gadget : Circuit} {bitOffset tileHeight : ℕ} {program : Ag2pcProgram}
    (h : tileFromSha gadget bitOffset tileHeight = .ok program) :
    countAnds program.gates = (tileSuffixes tileHeight).length * gadgetAnds gadget := by
  unfold tileFromSha at h
  split at h
  · cases h
  obtain ⟨window, -, h⟩ := bind_eq_ok h
  split at h
  · cases h
  obtain ⟨-, -, h⟩ := bind_eq_ok h
  obtain ⟨b, hgates, h⟩ := bind_eq_ok h
  rw [finish_gates h, tileGates_ands hgates]
  exact Nat.zero_add _

/-- The gadget which computes one of two digests has an AND gate. -/
theorem selectGadget_ands (position : ℕ) (first second : Value32) :
    0 < gadgetAnds (selectGadget position first second) := by
  rw [gadgetAnds, List.length_pos_iff]
  have hmem : (⟨.and, position, 513, 514⟩ : Gate) ∈ (selectGadget position first second).gates :=
    List.mem_append_left _ (by simp [selectHead])
  exact List.ne_nil_of_mem (List.mem_filter.mpr ⟨hmem, rfl⟩)

end Shachain2pc
