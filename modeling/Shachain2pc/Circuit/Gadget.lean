import Shachain2pc.Circuit.Builder

/-!
# Copying a gadget preserves its function

The renaming map sends gadget inputs to the supplied wires and every other gadget wire
to a fresh one. Only written wires need names of their own, so a gadget whose gates
never write an input wire computes the same function in the copy, even when two of its
inputs are the same wire of the larger circuit.
-/

namespace Shachain2pc

open StraightLine (Instr)
open Rust

namespace Builder

variable {x : List UInt8} {b : Builder}

/-- The wire of the larger circuit that a gadget wire becomes. -/
def gadgetWire (b : Builder) (inputs : List ℤ) (w : ℕ) : ℕ :=
  if w < inputs.length then asUsize (inputs.getD w 0)
  else asUsize b.next + (w - inputs.length)

/-- A gadget gate after renaming. -/
def renameGate (rho : ℕ → ℕ) (g : Gate) : Gate where
  typ := g.typ
  in0 := rho (asUsize g.in0)
  in1 := match g.typ with
    | .inv => -1
    | _ => rho (asUsize g.in1)
  out := rho (asUsize g.out)

/-- Renaming a gate renames its straight-line instruction. -/
theorem renameGate_instr {rho : ℕ → ℕ} {g : Gate} {n : ℕ} (hg : g.InRange n)
    (hrho : ∀ w < n, rho w < 2 ^ 63) : (renameGate rho g).instr = g.instr.rename rho := by
  have hcast {w : ℕ} (hw : w < n) : asUsize (rho w : ℤ) = rho w :=
    asUsize_natCast (lt_trans (hrho w hw) (by decide))
  obtain ⟨hargs, hout⟩ := hg
  cases htyp : g.typ <;> simp only [Gate.instr, htyp, List.forall_mem_cons] at hargs <;>
    simp [Gate.instr, renameGate, Instr.rename, htyp, hcast, hargs, hout]

/-- Copying a gate inside the tabulated renaming map appends the renamed gate. -/
theorem copyGate_map_range (rho : ℕ → ℕ) {n : ℕ} (b : Builder) {g : Gate} (hg : g.InRange n) :
    copyGate ((List.range n).map fun w => (rho w : ℤ)) b g =
      .ok { b with gates := b.gates ++ [renameGate rho g] } := by
  obtain ⟨hargs, hout⟩ := hg
  cases htyp : g.typ <;> simp only [Gate.instr, htyp, List.forall_mem_cons] at hargs <;>
    simp [copyGate, htyp, readSlot_map_range, hargs, hout, renameGate, bind, Except.bind,
      Builder.and, Builder.xor, Builder.inv]

/-- The copy loop appends every renamed gate in order. -/
theorem foldlM_copyGate_map_range (rho : ℕ → ℕ) {n : ℕ} (gates : List Gate) (b : Builder)
    (hgates : ∀ g ∈ gates, g.InRange n) :
    gates.foldlM (copyGate ((List.range n).map fun w => (rho w : ℤ))) b =
      .ok { b with gates := b.gates ++ gates.map (renameGate rho) } := by
  induction gates generalizing b with
  | nil => simp [pure, Except.pure]
  | cons g rest ih =>
    rw [List.foldlM_cons, copyGate_map_range rho b (hgates g List.mem_cons_self)]
    simp only [bind, Except.bind]
    rw [ih _ fun g' hg' => hgates g' (List.mem_cons_of_mem _ hg')]
    simp

/-- The renaming map is the supplied wires followed by the fresh ones. -/
theorem gadgetWire_map_range (hb : Good x b) {inputs : List ℤ} {n : ℕ} (hn : inputs.length ≤ n)
    (hinputs : ∀ w ∈ inputs, (asUsize w : ℤ) = w) :
    inputs ++ (List.range (n - inputs.length)).map (fun k : ℕ => b.next + k) =
      (List.range n).map fun w => (b.gadgetWire inputs w : ℤ) := by
  apply List.ext_getElem
  · simp
    omega
  · intro i hi _
    by_cases hlt : i < inputs.length
    · rw [List.getElem_append_left hlt]
      simp [gadgetWire, hlt, hinputs]
    · rw [List.getElem_append_right (Nat.le_of_not_lt hlt)]
      simp [gadgetWire, hlt, hb.asUsize_next]

/-- The builder after a gadget of `n` wires has been copied. -/
def gadgetCopy (b : Builder) (gadget : Circuit) (inputs : List ℤ) (n : ℕ) : Builder where
  next := b.next + (n - inputs.length : ℕ)
  gates := b.gates ++ gadget.gates.map (renameGate (b.gadgetWire inputs))

/-- What a copy relies on: numbered input wires, gadget wires in range and below the `i32`
limit after renumbering, and no gate that writes a gadget input. -/
structure Copyable (x : List UInt8) (b : Builder) (gadget : Circuit) (inputs : List ℤ) (n : ℕ) :
    Prop where
  good : Good x b
  wires : ∀ w ∈ inputs, asUsize w < asUsize b.next ∧ (asUsize w : ℤ) = w
  width : gadget.n1 + gadget.n2 = inputs.length
  numWire : gadget.numWire = n
  inputs_le : inputs.length ≤ n
  inRange : ∀ g ∈ gadget.gates, g.InRange n
  writes : ∀ g ∈ gadget.gates, inputs.length ≤ asUsize g.out
  fits : b.next + (n - inputs.length : ℕ) ≤ i32Max

variable {gadget : Circuit} {inputs : List ℤ} {n : ℕ}

/-- Every renamed gadget wire is numbered in the copy. -/
theorem Copyable.gadgetWire_lt (h : Copyable x b gadget inputs n) {w : ℕ} (hw : w < n) :
    b.gadgetWire inputs w < asUsize b.next + (n - inputs.length) := by
  unfold gadgetWire
  split
  · next hlt =>
    rw [List.getD_eq_getElem _ _ hlt]
    exact Nat.lt_add_right _ (h.wires _ (List.getElem_mem hlt)).1
  · omega

/-- The copy's counter, as a position. -/
theorem Copyable.asUsize_next (h : Copyable x b gadget inputs n) :
    asUsize (b.gadgetCopy gadget inputs n).next = asUsize b.next + (n - inputs.length) := by
  change asUsize (b.next + (n - inputs.length : ℕ)) = _
  have := h.good.asUsize_next
  have := h.fits
  unfold asUsize i32Max at *
  omega

/-- Renamed wires stay in the range where casts are exact. -/
theorem Copyable.gadgetWire_small (h : Copyable x b gadget inputs n) {w : ℕ} (hw : w < n) :
    b.gadgetWire inputs w < 2 ^ 63 := by
  have := h.gadgetWire_lt hw
  have := h.good.asUsize_next
  have := h.fits
  unfold i32Max at *
  omega

/-- The copied gates are the renamed instructions of the gadget. -/
theorem Copyable.instrs (h : Copyable x b gadget inputs n) :
    (gadget.gates.map (renameGate (b.gadgetWire inputs))).map Gate.instr =
      (gadget.gates.map Gate.instr).map (Instr.rename (b.gadgetWire inputs)) := by
  simp only [List.map_map]
  exact List.map_congr_left fun g hg =>
    renameGate_instr (h.inRange g hg) fun _ hw => h.gadgetWire_small hw

/-- A copy appends the renamed gates and returns the renamed output wires. -/
theorem Copyable.applyGadget_eq (h : Copyable x b gadget inputs n) {n3 : ℕ}
    (hn3 : gadget.n3 = n3) (hmax : (n : ℤ) ≤ i32Max) (hout : n3 ≤ n) :
    b.applyGadget gadget inputs = .ok ((List.range n3).map
      (fun k => (b.gadgetWire inputs (n - n3 + k) : ℤ)), b.gadgetCopy gadget inputs n) := by
  have hnonneg : 0 ≤ b.next := le_trans (Int.natCast_nonneg _) h.good.inputs_le
  have hcast (m : ℕ) (hm : m ≤ n) : asUsize (m : ℤ) = m :=
    asUsize_natCast (by unfold i32Max at hmax; omega)
  have hmap := gadgetWire_map_range h.good h.inputs_le fun w hw => (h.wires w hw).2
  have hstart : gadget.numWire - gadget.n3 = ((n - n3 : ℕ) : ℤ) := by rw [h.numWire, hn3]; omega
  have hnew : (newVec 0 n : Outcome CircuitError (List ℤ)) = .ok (List.replicate n 0) :=
    if_pos (by unfold i32Max at hmax; omega)
  have hslice : (readSlice (List.replicate n (0 : ℤ)) 0 inputs.length :
      Outcome CircuitError (List ℤ)) = .ok ((List.replicate n 0).take inputs.length) :=
    if_pos (by simpa using h.inputs_le)
  have hin := h.inputs_le
  rw [applyGadget, h.width, hstart, h.numWire, hn3,
    checkedI32_ok (by omega) (by omega), checkedI32_ok (by omega) (by omega)]
  simp only [bind, Except.bind, hcast _ hin, hcast _ le_rfl, hcast _ hout,
    hcast _ (Nat.sub_le _ _), ne_eq, not_true_eq_false, if_false, hnew, hslice,
    allocMany_eq b (n - inputs.length) hnonneg h.fits, hmap,
    foldlM_copyGate_map_range _ gadget.gates _ h.inRange]
  rw [readSlice_map_range _ (by omega)]
  rfl

/-- A copied gate writes only wires numbered by the copy. -/
theorem Copyable.out_ge (h : Copyable x b gadget inputs n) {g : Gate} (hg : g ∈ gadget.gates) :
    b.gadgetWire inputs (asUsize g.out) = asUsize b.next + (asUsize g.out - inputs.length) :=
  if_neg (Nat.not_lt.mpr (h.writes g hg))

/-- A written wire is fresh, so no other gadget wire shares its new name. -/
theorem Copyable.gadgetWire_own (h : Copyable x b gadget inputs n) {g : Gate}
    (hg : g ∈ gadget.gates) {w : ℕ}
    (hw : b.gadgetWire inputs w = b.gadgetWire inputs (asUsize g.out)) : w = asUsize g.out := by
  have hge := h.writes g hg
  rw [h.out_ge hg] at hw
  unfold gadgetWire at hw
  split at hw
  · next hlt =>
    rw [List.getD_eq_getElem _ _ hlt] at hw
    have := (h.wires _ (List.getElem_mem hlt)).1
    omega
  · omega

/-- Wires numbered before the copy keep their values. -/
theorem Copyable.value_old (h : Copyable x b gadget inputs n) {w : ℤ} (h0 : 0 ≤ w)
    (hw : w < b.next) : (b.gadgetCopy gadget inputs n).value x w = b.value x w := by
  simp only [value, gateMeaning, gadgetCopy, List.map_append, StraightLine.exec_append, h.instrs]
  apply StraightLine.exec_frame
  intro instr hinstr
  obtain ⟨instr', hinstr', rfl⟩ := List.mem_map.mp hinstr
  obtain ⟨g, hg, rfl⟩ := List.mem_map.mp hinstr'
  change b.gadgetWire inputs (asUsize g.out) ≠ asUsize w
  rw [h.out_ge hg]
  have := h.good.next_le
  unfold asUsize i32Max at *
  omega

/-- Every gadget wire carries in the copy what it carries in the gadget. -/
theorem Copyable.meaning (h : Copyable x b gadget inputs n) {vals : List UInt8}
    (hvals : List.Forall₂ (Carries x b) inputs vals) (hbits : ∀ v ∈ vals, v &&& 1 = v) (w : ℕ) :
    gateMeaning (b.gadgetCopy gadget inputs n).gates x (b.gadgetWire inputs w) =
      gateMeaning gadget.gates vals w := by
  have hlen := hvals.length_eq
  simp only [gateMeaning, gadgetCopy, List.map_append, StraightLine.exec_append, h.instrs]
  apply StraightLine.exec_rename
  · intro instr hinstr v hv
    obtain ⟨g, hg, rfl⟩ := List.mem_map.mp hinstr
    exact h.gadgetWire_own hg hv
  · intro v
    by_cases hlt : v < inputs.length
    · have hcar := hvals.get hlt (hlen ▸ hlt)
      have hv : v < vals.length := hlen ▸ hlt
      rw [gadgetWire, if_pos hlt, List.getD_eq_getElem _ _ hlt, inputEnv,
        List.getD_eq_getElem _ _ hv, hbits _ (List.getElem_mem hv)]
      exact hcar.value_eq
    · rw [gadgetWire, if_neg hlt]
      refine (h.good.value_fresh (Nat.le_add_right _ _)).trans ?_
      simp [inputEnv, List.getElem?_eq_none (hlen ▸ Nat.le_of_not_lt hlt)]

/-- The copy keeps the builder well formed. -/
theorem Copyable.good_copy (h : Copyable x b gadget inputs n) :
    Good x (b.gadgetCopy gadget inputs n) := by
  refine ⟨?_, h.fits, ?_⟩
  · have := h.good.inputs_le
    change (x.length : ℤ) ≤ b.next + (n - inputs.length : ℕ)
    omega
  · intro g hg
    rw [h.asUsize_next]
    rcases List.mem_append.mp hg with hold | hnew
    · obtain ⟨h1, h2⟩ := h.good.inRange g hold
      exact ⟨fun w hw => Nat.lt_add_right _ (h1 w hw), Nat.lt_add_right _ h2⟩
    · obtain ⟨ge, hge, rfl⟩ := List.mem_map.mp hnew
      have hinstr := renameGate_instr (h.inRange ge hge) fun _ hw => h.gadgetWire_small hw
      refine ⟨fun w hw => ?_, ?_⟩
      · rw [hinstr] at hw
        obtain ⟨v, hv, rfl⟩ := List.mem_map.mp hw
        exact h.gadgetWire_lt ((h.inRange ge hge).1 v hv)
      · have hgeout : asUsize (renameGate (b.gadgetWire inputs) ge).out =
            b.gadgetWire inputs (asUsize ge.out) := congrArg Instr.out hinstr
        rw [hgeout]
        exact h.gadgetWire_lt (h.inRange ge hge).2

/-- A copied gadget extends the builder by its non-input wires and returns wires carrying
the gadget's outputs on the values carried by the supplied wires. -/
theorem applyGadget_spec (h : Copyable x b gadget inputs n) {vals outs : List UInt8}
    (hvals : List.Forall₂ (Carries x b) inputs vals) (hbits : ∀ v ∈ vals, v &&& 1 = v)
    (heval : evalBristol gadget vals = .ok outs) {n3 : ℕ} (hn3 : gadget.n3 = n3)
    (hmax : (n : ℤ) ≤ i32Max) (hout : n3 ≤ n) :
    Yields (b.applyGadget gadget inputs) fun r =>
      Extends x b (n - inputs.length) r.2 ∧ List.Forall₂ (Carries x r.2) r.1 outs := by
  refine ⟨_, h.applyGadget_eq hn3 hmax hout, ⟨h.good_copy, rfl, fun w => h.value_old⟩, ?_⟩
  have hlen := hvals.length_eq
  rw [evalBristol_eq gadget vals h.numWire hn3 (hlen ▸ h.width) hmax (hlen ▸ h.inputs_le) hout
    h.inRange] at heval
  cases heval
  rw [List.forall₂_map_left_iff, List.forall₂_map_right_iff, List.forall₂_same]
  intro k hk
  have hk := List.mem_range.mp hk
  have hwire : n - n3 + k < n := by omega
  refine ⟨Int.natCast_nonneg _, ?_, ?_⟩
  · have := h.gadgetWire_lt hwire
    have := h.good.asUsize_next
    change (_ : ℤ) < b.next + (n - inputs.length : ℕ)
    omega
  · rw [value, asUsize_natCast (lt_trans (h.gadgetWire_small hwire) (by decide))]
    exact h.meaning hvals hbits _

end Builder

end Shachain2pc
