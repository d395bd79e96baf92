import Shachain2pc.Compat.CircuitProgram
import Shachain2pc.Compat.ProgramGadget

/-!
# Circuits which are converted

What a circuit needs to be accepted by `from_circuit`, whether or not its gates are in order.
-/

namespace Shachain2pc

open Rust

/-- A circuit with a consistent header, whose gates read earlier wires once they are renumbered. -/
structure Convertible (c : Circuit) (numInputs : ℕ) : Prop where
  n1 : 0 ≤ c.n1
  n2 : 0 ≤ c.n2
  n3 : 0 ≤ c.n3
  numWire : 0 ≤ c.numWire
  inputs : asUsize c.n1 + asUsize c.n2 = numInputs
  pos : 0 < asUsize c.numWire
  lt_limit : asUsize c.numWire < gateWireLimit
  inputs_le : numInputs ≤ asUsize c.numWire
  outputs_le : asUsize c.n3 ≤ asUsize c.numWire
  fits : numInputs + c.gates.length ≤ gateWireLimit
  nonneg : ∀ g ∈ c.gates, g.Nonneg
  inRange : ∀ g ∈ c.gates, g.InRange (asUsize c.numWire)
  reads : ∀ i g, c.gates[i]? = some g →
    ∀ w ∈ g.instr.args, programWire numInputs c.gates w < numInputs + i
  outputs : ∀ k < asUsize c.n3,
    programWire numInputs c.gates (asUsize c.numWire - asUsize c.n3 + k) ≠ unmapped

/-- The renumbered program of a circuit. -/
def Circuit.renumbered (c : Circuit) (numInputs : ℕ) : Ag2pcProgram where
  numInputs := numInputs
  numWires := numInputs + c.gates.length
  outputs := (List.range (asUsize c.n3)).map fun k =>
    programWire numInputs c.gates (asUsize c.numWire - asUsize c.n3 + k)
  gates := c.gates.map fun g => g.convert (programWire numInputs c.gates)

variable {c : Circuit} {numInputs : ℕ}

/-- A wire in range passes its check. -/
theorem checkedWire_of_lt {name : String} {wire : ℤ} {numWire : ℕ} (h0 : 0 ≤ wire)
    (h : asUsize wire < numWire) : checkedWire name wire numWire = .ok (asUsize wire) :=
  if_neg (by omega)

/-- A number which is not negative passes its check. -/
theorem checkedNonnegative_of_nonneg {name : String} {value : ℤ} (h : 0 ≤ value) :
    checkedNonnegative name value = .ok (asUsize value) :=
  if_neg (Int.not_lt.mpr h)

/-- A gate of a convertible circuit reads numbered wires. -/
theorem Convertible.reads_lt (h : Convertible c numInputs) {g : Gate} (hg : g ∈ c.gates) {w : ℕ}
    (hw : w ∈ g.instr.args) : programWire numInputs c.gates w < gateWireLimit := by
  obtain ⟨i, hi, rfl⟩ := List.getElem_of_mem hg
  have hlt := h.reads i _ (List.getElem?_eq_getElem hi) w hw
  have hfits := h.fits
  omega

/-- A renumbered gate of a convertible circuit is packed. -/
theorem Convertible.new_convert (h : Convertible c numInputs) {g : Gate} (hg : g ∈ c.gates) :
    Ag2pcProgramGate.new g.typ.program (programWire numInputs c.gates (asUsize g.in0))
        (if g.typ = .inv then 0 else programWire numInputs c.gates (asUsize g.in1)) =
      .ok (g.convert (programWire numInputs c.gates)) := by
  refine if_neg (Nat.not_le_of_lt ?_)
  split
  · decide
  · next htyp => exact h.reads_lt hg (Gate.in1_mem_args htyp)

/-- Gates in order are taken as they are. -/
theorem Convertible.orderedGate_eq (h : Convertible c numInputs)
    (hlength : asUsize c.numWire = numInputs + c.gates.length) (hordered : c.Ordered numInputs)
    {entry : Gate × ℕ} (hentry : entry ∈ c.gates.zipIdx) :
    orderedGate numInputs entry = .ok (entry.1.convert (programWire numInputs c.gates)) := by
  have hget := List.mem_zipIdx_iff_getElem?.mp hentry
  have hmem := List.mem_of_getElem? hget
  have hsame {w : ℕ} (hw : w ∈ entry.1.instr.args) : programWire numInputs c.gates w = w :=
    programWire_ordered hordered h.fits (hlength ▸ (h.inRange _ hmem).1 w hw)
  have hread {w : ℕ} (hw : w ∈ entry.1.instr.args) : w < numInputs + entry.2 :=
    hsame hw ▸ h.reads entry.2 entry.1 hget w hw
  have h0 := entry.1.in0_mem_args
  have hin1 : orderedIn1 (numInputs + entry.2) entry.1 = .ok (if entry.1.typ = .inv then 0 else
      programWire numInputs c.gates (asUsize entry.1.in1)) := by
    unfold orderedIn1
    split
    · rfl
    · next htyp =>
      have h1 := Gate.in1_mem_args htyp
      rw [checkedWire_of_lt ((h.nonneg _ hmem).in1 htyp) (hread h1), hsame h1]
  rw [orderedGate, checkedWire_of_lt (h.nonneg _ hmem).in0 (hread h0), hin1]
  simp only [bind, Except.bind]
  rw [← h.new_convert hmem, hsame h0]

/-- A wire with a number is resolved. -/
theorem resolveWire_of_ne {number : ℕ → ℕ} {n old : ℕ} (hold : old < n)
    (hne : number old ≠ unmapped) :
    resolveWire ((List.range n).map number) old = .ok (number old) := by
  rw [resolveWire, readSlot_map_range number hold]
  exact if_neg hne

/-- Any other gates are renumbered. -/
theorem Convertible.renumberGate_eq (h : Convertible c numInputs) {g : Gate} (hg : g ∈ c.gates) :
    renumberGate ((List.range (asUsize c.numWire)).map (programWire numInputs c.gates))
        (asUsize c.numWire) g = .ok (g.convert (programWire numInputs c.gates)) := by
  have hresolve {w : ℕ} (hw : w ∈ g.instr.args) :
      resolveWire ((List.range (asUsize c.numWire)).map (programWire numInputs c.gates)) w =
        .ok (programWire numInputs c.gates w) := by
    refine resolveWire_of_ne ((h.inRange g hg).1 w hw) fun heq => ?_
    have hlt := h.reads_lt hg hw
    unfold gateWireLimit at hlt
    unfold unmapped at heq
    omega
  have h0 := g.in0_mem_args
  have hin1 : resolveIn1 ((List.range (asUsize c.numWire)).map (programWire numInputs c.gates))
      (asUsize c.numWire) g = .ok (if g.typ = .inv then 0 else
        programWire numInputs c.gates (asUsize g.in1)) := by
    unfold resolveIn1
    split
    · rfl
    · next htyp =>
      have h1 := Gate.in1_mem_args htyp
      rw [checkedWire_of_lt ((h.nonneg g hg).in1 htyp) ((h.inRange g hg).1 _ h1)]
      exact hresolve h1
  rw [renumberGate, checkedWire_of_lt (h.nonneg g hg).in0 ((h.inRange g hg).1 _ h0)]
  simp only [bind, Except.bind]
  rw [hresolve h0, hin1]
  exact h.new_convert hg

/-- The remap loop tabulates the numbers of wires in range. -/
theorem foldlM_remapGate_eq {n i : ℕ} {gates : List Gate} {number : ℕ → ℕ}
    (hnonneg : ∀ g ∈ gates, g.Nonneg) (hrange : ∀ g ∈ gates, g.InRange n) :
    (gates.zipIdx i).foldlM (remapGate numInputs n) ((List.range n).map number) =
      .ok ((List.range n).map (lastWrites (numInputs + i) number gates)) := by
  induction gates generalizing i number with
  | nil => rfl
  | cons gate rest ih =>
    obtain ⟨hnonneg0, hnonneg⟩ := List.forall_mem_cons.mp hnonneg
    obtain ⟨hrange0, hrange⟩ := List.forall_mem_cons.mp hrange
    have hgate : remapGate numInputs n ((List.range n).map number) (gate, i) =
        .ok ((List.range n).map
          (Function.update number (asUsize gate.out) ((numInputs + i) % 2 ^ 32))) := by
      rw [remapGate, checkedWire_of_lt hnonneg0.out hrange0.2]
      exact writeSlot_map_range number hrange0.2 _
    rw [List.zipIdx_cons, List.foldlM_cons, hgate]
    exact ih hnonneg hrange

/-- A convertible circuit is accepted, with its wires renumbered. -/
theorem Convertible.fromCircuit_eq (h : Convertible c numInputs) :
    fromCircuit c = .ok (c.renumbered numInputs) := by
  have hpos := h.pos
  have hlimit := h.lt_limit
  have hinputs := h.inputs_le
  have houtputs := h.outputs_le
  rw [fromCircuit, checkedNonnegative_of_nonneg h.numWire, checkedNonnegative_of_nonneg h.n1,
    checkedNonnegative_of_nonneg h.n2, checkedNonnegative_of_nonneg h.n3]
  simp only [bind, Except.bind, h.inputs]
  rw [if_neg (by omega)]
  split
  · rename_i hcond
    obtain ⟨hlength, hordered⟩ := hcond
    have hgates := mapM_eq_map fun entry hentry => h.orderedGate_eq hlength hordered hentry
    have houts : (List.range (asUsize c.n3)).map
        (fun k => numInputs + c.gates.length - asUsize c.n3 + k) =
        (List.range (asUsize c.n3)).map fun k =>
          programWire numInputs c.gates (asUsize c.numWire - asUsize c.n3 + k) := by
      refine List.map_congr_left fun k hk => ?_
      have hk := List.mem_range.mp hk
      rw [programWire_ordered hordered h.fits (by omega), hlength]
    rw [fromOrderedCircuit, hgates]
    simp only [bind, Except.bind]
    rw [map_fst_zipIdx fun g : Gate => g.convert (programWire numInputs c.gates),
      List.length_map, houts]
    rfl
  · have hremap : c.gates.zipIdx.foldlM (remapGate numInputs (asUsize c.numWire))
        ((List.range (asUsize c.numWire)).map (inputNumbers numInputs)) =
          .ok ((List.range (asUsize c.numWire)).map (programWire numInputs c.gates)) :=
      foldlM_remapGate_eq h.nonneg h.inRange
    have hgates := mapM_eq_map fun g hg => h.renumberGate_eq hg
    have hout : ∀ k ∈ List.range (asUsize c.n3),
        resolveWire ((List.range (asUsize c.numWire)).map (programWire numInputs c.gates))
            (asUsize c.numWire - asUsize c.n3 + k) =
          .ok (programWire numInputs c.gates (asUsize c.numWire - asUsize c.n3 + k)) := by
      intro k hk
      have hk := List.mem_range.mp hk
      exact resolveWire_of_ne (by omega) (h.outputs k hk)
    have houts := mapM_eq_map hout
    have hvec : (newVec unmapped (asUsize c.numWire) : Outcome ProgramError (List ℕ)) =
        .ok (List.replicate (asUsize c.numWire) unmapped) := by
      refine if_pos ?_
      unfold gateWireLimit at hlimit
      omega
    rw [fromUnorderedCircuit, hvec]
    simp only [bind, Except.bind]
    rw [range_append_unmapped hinputs, hremap]
    simp only
    rw [hgates]
    simp only
    rw [houts, List.length_map]
    rfl

end Shachain2pc
