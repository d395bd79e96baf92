import Shachain2pc.Compat.ProgramFollows

/-!
# A copied gadget follows

The circuit builder renames the gadget by a map which it fixes before the first gate. The
program builder keeps a map of its own, which it changes after each gate. The two agree all
along: a gadget wire has been mapped to the number of its renamed wire, or neither has one.
-/

namespace Shachain2pc

open Function (update)
open Rust

variable {b : Ag2pcProgramBuilder} {c : Builder} {map : ℕ → ℕ} {n : ℕ}

/-- A resolved wire of a gadget is a mapped wire. -/
theorem resolveDirectWire_eq_ok {wire : ℤ} {v : ℕ}
    (h : resolveDirectWire ((List.range n).map map) wire = .ok v) :
    0 ≤ wire ∧ asUsize wire < n ∧ v = map (asUsize wire) ∧ map (asUsize wire) ≠ unmapped := by
  obtain ⟨w, hw, h⟩ := bind_eq_ok h
  have hnonneg := checkedWire_nonneg hw
  obtain ⟨rfl, hlt⟩ := checkedWire_eq_ok hw
  rw [List.length_map, List.length_range] at hlt
  rw [readSlot_map_range map hlt] at h
  simp only [bind, Except.bind] at h
  split at h
  · cases h
  · rename_i hmapped
    exact ⟨hnonneg, hlt, (Except.ok.inj h).symm, hmapped⟩

namespace Ag2pcProgramBuilder

/-- A copied gate reads mapped wires of the gadget, and is pushed with its wires mapped. -/
theorem copyGate_eq_ok {gate : Gate} {r : List ℕ × Ag2pcProgramBuilder}
    (h : copyGate ((List.range n).map map, b) gate = .ok r) :
    gate.Nonneg ∧ gate.InRange n ∧ (∀ w ∈ gate.instr.args, map w ≠ unmapped) ∧
      b.next < gateWireLimit ∧
      r = ((List.range n).map (update map (asUsize gate.out) b.next),
        { b with gates := b.gates ++ [gate.convert map] }) := by
  obtain ⟨in0, hin0, h⟩ := bind_eq_ok h
  obtain ⟨in1, hin1, h⟩ := bind_eq_ok h
  obtain ⟨pushed, hpush, h⟩ := bind_eq_ok h
  obtain ⟨out, hout, h⟩ := bind_eq_ok h
  obtain ⟨map', hwrite, h⟩ := bind_eq_ok h
  cases h
  obtain ⟨hnonneg0, hlt0, rfl, hmapped0⟩ := resolveDirectWire_eq_ok hin0
  have hright : (gate.typ ≠ .inv → 0 ≤ gate.in1 ∧ asUsize gate.in1 < n ∧
      map (asUsize gate.in1) ≠ unmapped) ∧
      in1 = if gate.typ = .inv then 0 else map (asUsize gate.in1) := by
    unfold resolveRight at hin1
    split at hin1
    · rename_i htyp
      exact ⟨fun hne => absurd htyp hne, by rw [if_pos htyp]; exact (Except.ok.inj hin1).symm⟩
    · rename_i htyp
      obtain ⟨hnonneg1, hlt1, rfl, hmapped1⟩ := resolveDirectWire_eq_ok hin1
      exact ⟨fun _ => ⟨hnonneg1, hlt1, hmapped1⟩, by rw [if_neg htyp]⟩
  obtain ⟨hright, rfl⟩ := hright
  have hpushed : b.next < gateWireLimit ∧
      pushed = (b.next, { b with gates := b.gates ++ [gate.convert map] }) := by
    cases htyp : gate.typ <;> rw [htyp] at hpush <;>
      simpa [Gate.convert, GateType.program, htyp] using pushGate_eq_ok hpush
  obtain ⟨hfit, rfl⟩ := hpushed
  have hnonneg := checkedWire_nonneg hout
  obtain ⟨rfl, hlt⟩ := checkedWire_eq_ok hout
  rw [List.length_map, List.length_range] at hlt
  rw [writeSlot_map_range map hlt] at hwrite
  cases hwrite
  exact ⟨⟨hnonneg0, fun hne => (hright hne).1, hnonneg⟩,
    ⟨Gate.forall_args hlt0 fun hne => (hright hne).2.1, hlt⟩,
    Gate.forall_args hmapped0 fun hne => (hright hne).2.2, hfit, rfl⟩

end Ag2pcProgramBuilder

/-- The program's map of a gadget agrees with the renaming of the circuit. -/
structure Agrees (b : Ag2pcProgramBuilder) (c : Builder) (rho map : ℕ → ℕ) (n : ℕ) : Prop where
  rename_lt : ∀ w < n, rho w < asUsize c.next
  number : ∀ w < n, programWire b.numInputs c.gates (rho w) = map w
  map_lt : ∀ w, map w ≠ unmapped → map w < b.next

/-- A gadget gate which writes an unmapped wire is copied on both sides. -/
theorem Follows.copyGate (h : Follows b c) {rho : ℕ → ℕ} (ha : Agrees b c rho map n) {gate : Gate}
    (hfree : map (asUsize gate.out) = unmapped)
    (hown : ∀ w < n, rho w = rho (asUsize gate.out) → w = asUsize gate.out)
    {r : List ℕ × Ag2pcProgramBuilder}
    (hrun : Ag2pcProgramBuilder.copyGate ((List.range n).map map, b) gate = .ok r) :
    r = ((List.range n).map (update map (asUsize gate.out) b.next), r.2) ∧
      Advances b c r.2 { c with gates := c.gates ++ [Builder.renameGate rho gate] } ∧
      Agrees r.2 { c with gates := c.gates ++ [Builder.renameGate rho gate] } rho
        (update map (asUsize gate.out) b.next) n := by
  obtain ⟨hnonneg, hrange, hmapped, hfit, rfl⟩ := Ag2pcProgramBuilder.copyGate_eq_ok hrun
  have hsmall : ∀ w < n, rho w < 2 ^ 63 := by
    intro w hw
    have hlt := ha.rename_lt w hw
    have hcast := h.good.asUsize_next
    have hle := h.good.next_le
    unfold i32Max at hle
    omega
  have hinstr := Builder.renameGate_instr hrange hsmall
  have hargs : ∀ w ∈ (Builder.renameGate rho gate).instr.args,
      ∃ w' ∈ gate.instr.args, w = rho w' := by
    intro w hw
    rw [hinstr] at hw
    obtain ⟨w', hmem, rfl⟩ := List.mem_map.mp hw
    exact ⟨w', hmem, rfl⟩
  have hout : asUsize (Builder.renameGate rho gate).out = rho (asUsize gate.out) :=
    congrArg StraightLine.Instr.out hinstr
  have hconvert : (Builder.renameGate rho gate).convert (programWire b.numInputs c.gates) =
      gate.convert map := by
    have hcast {w : ℕ} (hw : w < n) :
        programWire b.numInputs c.gates (asUsize (rho w : ℤ)) = map w := by
      rw [asUsize_natCast (lt_trans (hsmall w hw) (by decide)), ha.number w hw]
    have hcast0 := hcast (hrange.1 _ gate.in0_mem_args)
    cases htyp : gate.typ with
    | inv => simp [Gate.convert, Builder.renameGate, htyp, hcast0]
    | _ =>
      have hcast1 := hcast (hrange.1 _ (Gate.in1_mem_args (by simp [htyp])))
      simp [Gate.convert, Builder.renameGate, htyp, hcast0, hcast1]
  have hnonneg' : (Builder.renameGate rho gate).Nonneg := by
    refine ⟨Int.natCast_nonneg _, fun hne => ?_, Int.natCast_nonneg _⟩
    cases htyp : gate.typ with
    | inv => exact absurd htyp hne
    | _ =>
      simp only [Builder.renameGate, htyp]
      exact Int.natCast_nonneg _
  have hnumber : programWire b.numInputs c.gates (asUsize (Builder.renameGate rho gate).out) =
      unmapped := by
    rw [hout, ha.number _ hrange.2, hfree]
  have hread : ∀ w ∈ (Builder.renameGate rho gate).instr.args,
      programWire b.numInputs c.gates w < b.next := by
    intro w hw
    obtain ⟨w', hmem, rfl⟩ := hargs w hw
    rw [ha.number w' (hrange.1 w' hmem)]
    exact ha.map_lt w' (hmapped w' hmem)
  have hrange' : (Builder.renameGate rho gate).InRange (asUsize c.next) := by
    refine ⟨fun w hw => ?_, ?_⟩
    · obtain ⟨w', hmem, rfl⟩ := hargs w hw
      exact ha.rename_lt w' (hrange.1 w' hmem)
    · rw [hout]
      exact ha.rename_lt _ hrange.2
  have hpush := h.push hfit hnonneg' hrange' hread hnumber
  rw [hconvert] at hpush
  refine ⟨rfl, hpush, ha.rename_lt, fun w hw => ?_, fun w hw => ?_⟩
  · change programWire b.numInputs (c.gates ++ [Builder.renameGate rho gate]) (rho w) = _
    rw [h.programWire_push hfit, hout]
    by_cases heq : w = asUsize gate.out
    · rw [heq, Function.update_self, Function.update_self]
    · rw [Function.update_of_ne heq, Function.update_of_ne (fun h => heq (hown w hw h)),
        ha.number w hw]
  · simp only [Ag2pcProgramBuilder.next, List.length_append, List.length_singleton]
    by_cases heq : w = asUsize gate.out
    · rw [heq, Function.update_self]
      omega
    · rw [Function.update_of_ne heq] at hw ⊢
      have hlt := ha.map_lt w hw
      unfold Ag2pcProgramBuilder.next at hlt
      omega

/-- The gates of a gadget are copied on both sides, if no wire is written twice. -/
theorem Follows.copyGates (h : Follows b c) {rho : ℕ → ℕ} (ha : Agrees b c rho map n)
    {gates : List Gate} (hnodup : (gates.map fun g => asUsize g.out).Nodup)
    (hfree : ∀ g ∈ gates, map (asUsize g.out) = unmapped)
    (hown : ∀ g ∈ gates, ∀ w < n, rho w = rho (asUsize g.out) → w = asUsize g.out)
    {r : List ℕ × Ag2pcProgramBuilder}
    (hrun : gates.foldlM Ag2pcProgramBuilder.copyGate ((List.range n).map map, b) = .ok r) :
    ∃ map', r.1 = (List.range n).map map' ∧
      Advances b c r.2 { c with gates := c.gates ++ gates.map (Builder.renameGate rho) } ∧
      Agrees r.2 { c with gates := c.gates ++ gates.map (Builder.renameGate rho) } rho map' n := by
  induction gates generalizing b c map with
  | nil =>
    cases hrun
    simp only [List.map_nil, List.append_nil]
    exact ⟨map, rfl, h.refl, ha⟩
  | cons gate rest ih =>
    rw [List.foldlM_cons] at hrun
    obtain ⟨mid, hfirst, hrun⟩ := bind_eq_ok hrun
    rw [List.map_cons, List.nodup_cons] at hnodup
    obtain ⟨hmid, hadv, ha'⟩ := h.copyGate ha (hfree gate List.mem_cons_self)
      (hown gate List.mem_cons_self) hfirst
    rw [hmid] at hrun
    have hfree' : ∀ g ∈ rest, update map (asUsize gate.out) b.next (asUsize g.out) = unmapped := by
      intro g hg
      have hne : asUsize g.out ≠ asUsize gate.out := fun heq =>
        hnodup.1 (heq ▸ List.mem_map_of_mem (f := fun g : Gate => asUsize g.out) hg)
      rw [Function.update_of_ne hne]
      exact hfree g (List.mem_cons_of_mem _ hg)
    obtain ⟨map', hmap, hadv', ha''⟩ := ih hadv.follows ha' hnodup.2 hfree'
      (fun g hg => hown g (List.mem_cons_of_mem _ hg)) hrun
    simp only [List.append_assoc, List.singleton_append] at hadv' ha''
    exact ⟨map', hmap, hadv.trans hadv', ha''⟩

/-- A copied gadget has its wires in range. -/
theorem Ag2pcProgramBuilder.copyGates_inRange {gates : List Gate} {r : List ℕ × Ag2pcProgramBuilder}
    (h : gates.foldlM copyGate ((List.range n).map map, b) = .ok r) : ∀ g ∈ gates, g.InRange n := by
  induction gates generalizing b map with
  | nil => exact fun g hg => absurd hg List.not_mem_nil
  | cons gate rest ih =>
    rw [List.foldlM_cons] at h
    obtain ⟨mid, hfirst, h⟩ := bind_eq_ok h
    obtain ⟨-, hrange, -, -, rfl⟩ := copyGate_eq_ok hfirst
    exact List.forall_mem_cons.mpr ⟨hrange, ih h⟩

/-- Wires which are allocated fit. -/
theorem Builder.allocMany_fits {count : ℕ} {r : List ℤ × Builder} (h : c.allocMany count = .ok r)
    (hfit : c.next ≤ i32Max) : c.next + count ≤ i32Max := by
  induction count generalizing c r with
  | zero => simpa using hfit
  | succ count ih =>
    obtain ⟨first, hfirst, h⟩ := bind_eq_ok h
    obtain ⟨hnext, rfl⟩ := alloc_eq_ok hfirst
    obtain ⟨others, hothers, -⟩ := bind_eq_ok h
    have hrest := ih hothers hnext
    simp only at hrest
    omega

/-- What the program's copy of a gadget gives. -/
structure Ag2pcProgramBuilder.Copied (b : Ag2pcProgramBuilder) (gadget : Circuit) (inputs : List ℕ)
    (r : List ℕ × Ag2pcProgramBuilder) : Prop where
  width : gadget.n1 + gadget.n2 = inputs.length
  numWire : 0 ≤ gadget.numWire
  n3 : 0 ≤ gadget.n3
  n3_le : asUsize gadget.n3 ≤ asUsize gadget.numWire
  inputs_le : inputs.length ≤ asUsize gadget.numWire
  outputs : unmapped ∉ r.1
  run : ∃ slots, gadget.gates.foldlM copyGate
      ((List.range (asUsize gadget.numWire)).map fun w => inputs.getD w unmapped, b) =
        .ok (slots, r.2) ∧
    readSlice slots (asUsize gadget.numWire - asUsize gadget.n3) (asUsize gadget.n3) =
      (.ok r.1 : Outcome ProgramError (List ℕ))

/-- An accepted copy of a gadget. -/
theorem Ag2pcProgramBuilder.applyGadget_eq_ok {gadget : Circuit} {inputs : List ℕ}
    {r : List ℕ × Ag2pcProgramBuilder} (h : b.applyGadget gadget inputs = .ok r) :
    Copied b gadget inputs r := by
  obtain ⟨width, hwidth, h⟩ := bind_eq_ok h
  obtain ⟨gin, hgin, h⟩ := bind_eq_ok h
  obtain ⟨numWire, hnumWire, h⟩ := bind_eq_ok h
  obtain ⟨n3, hn3, h⟩ := bind_eq_ok h
  obtain ⟨rfl, hmax⟩ := checkedI32_eq_ok hwidth
  obtain ⟨hwidth0, rfl⟩ := checkedNonnegative_eq_ok hgin
  obtain ⟨hnumWire0, rfl⟩ := checkedNonnegative_eq_ok hnumWire
  obtain ⟨hn30, rfl⟩ := checkedNonnegative_eq_ok hn3
  split at h
  · cases h
  rename_i hshape
  rw [not_or, not_not, not_lt] at hshape
  obtain ⟨hlength, hn3le⟩ := hshape
  obtain ⟨start, hstart, h⟩ := bind_eq_ok h
  obtain ⟨slice, hslice, h⟩ := bind_eq_ok h
  obtain ⟨mid, hrun, h⟩ := bind_eq_ok h
  obtain ⟨outs, houts, h⟩ := bind_eq_ok h
  rw [newVec_eq_ok hstart, ← hlength] at hrun hslice
  have hinputs : inputs.length ≤ asUsize gadget.numWire := by
    simpa using (readSlice_eq_ok hslice).1
  rw [inputs_map_range hinputs] at hrun
  split at h
  · cases h
  rename_i hmapped
  cases h
  have hwidth : gadget.n1 + gadget.n2 = inputs.length := by
    unfold asUsize i32Max at *
    omega
  exact ⟨hwidth, hnumWire0, hn30, hn3le, hinputs, hmapped, mid.1, hrun, houts⟩

/-- A copy of a gadget into a circuit allocates its wires. -/
theorem Builder.applyGadget_fits {gadget : Circuit} {inputs : List ℤ} {r : List ℤ × Builder}
    (h : c.applyGadget gadget inputs = .ok r) (hfit : c.next ≤ i32Max) :
    c.next + (asUsize gadget.numWire - inputs.length : ℕ) ≤ i32Max := by
  obtain ⟨gin, -, h⟩ := bind_eq_ok h
  split at h
  · cases h
  rename_i hlength
  rw [not_not.mp hlength]
  obtain ⟨map, -, h⟩ := bind_eq_ok h
  obtain ⟨slice, -, h⟩ := bind_eq_ok h
  obtain ⟨fresh, hfresh, -⟩ := bind_eq_ok h
  exact allocMany_fits hfresh hfit

/-- Both builders copy a gadget which writes no wire twice and no input. -/
theorem Follows.applyGadget (h : Follows b c) {gadget : Circuit} (hi32 : gadget.numWire ≤ i32Max)
    (hn3 : gadget.n3 = valueBits) (hnodup : (gadget.gates.map fun g => asUsize g.out).Nodup)
    {ws : List ℤ} {vs : List ℕ} (hwrites : ∀ g ∈ gadget.gates, ws.length ≤ asUsize g.out)
    (hws : List.Forall₂ (Numbered b c) ws vs) {r : List ℕ × Ag2pcProgramBuilder}
    {s : List ℤ × Builder} (hp : b.applyGadget gadget vs = .ok r)
    (hc : c.applyGadget gadget ws = .ok s) :
    Advances b c r.2 s.2 ∧ List.Forall₂ (Numbered r.2 s.2) s.1 r.1 ∧ r.1.length = valueBits := by
  obtain ⟨hwidth, hnumWire, -, hn3le, hinputs, hmapped, slots, hrun, houts⟩ :=
    Ag2pcProgramBuilder.applyGadget_eq_ok hp
  have hlen := hws.length_eq
  have hfits := Builder.applyGadget_fits hc h.good.next_le
  have hnum : gadget.numWire = (asUsize gadget.numWire : ℕ) := by
    unfold asUsize i32Max at *
    omega
  have hcast : asUsize gadget.n3 = valueBits := by
    rw [hn3]
    rfl
  rw [hcast] at hn3le houts
  generalize asUsize gadget.numWire = n at *
  -- The circuit's copy.
  have hwire : ∀ w ∈ ws, asUsize w < asUsize c.next ∧ (asUsize w : ℤ) = w := by
    intro w hw
    obtain ⟨i, hi, rfl⟩ := List.getElem_of_mem hw
    have hnumbered := hws.get hi (hlen ▸ hi)
    exact h.asUsize_lt hnumbered.nonneg hnumbered.lt_next
  have hcopy : Builder.Copyable (List.replicate b.numInputs 0) c gadget ws n :=
    ⟨h.good, hwire, hlen ▸ hwidth, hnum, hlen ▸ hinputs,
      Ag2pcProgramBuilder.copyGates_inRange hrun, hwrites, hfits⟩
  rw [hcopy.applyGadget_eq hn3 (hnum ▸ hi32) hn3le] at hc
  cases hc
  -- The program's copy.
  have halloc := h.alloc hfits
  have hagrees : Agrees b { c with next := c.next + (n - ws.length : ℕ) } (c.gadgetWire ws)
      (fun w => vs.getD w unmapped) n := by
    refine ⟨fun w hw => ?_, fun w hw => ?_, fun w hw => ?_⟩
    · exact hcopy.asUsize_next ▸ hcopy.gadgetWire_lt hw
    · by_cases hlt : w < ws.length
      · have hvs : w < vs.length := hlen ▸ hlt
        rw [Builder.gadgetWire, if_pos hlt, List.getD_eq_getElem _ _ hlt,
          List.getD_eq_getElem _ _ hvs]
        exact (hws.get hlt hvs).number
      · rw [Builder.gadgetWire, if_neg hlt, List.getD_eq_default _ _ (by omega)]
        exact h.fresh _ (Nat.le_add_right _ _)
    · by_cases hlt : w < vs.length
      · rw [List.getD_eq_getElem _ _ hlt]
        exact (hws.get (hlen ▸ hlt) hlt).lt
      · rw [List.getD_eq_default _ _ (Nat.le_of_not_lt hlt)] at hw
        exact absurd rfl hw
  have hfree : ∀ g ∈ gadget.gates, vs.getD (asUsize g.out) unmapped = unmapped := fun g hg =>
    List.getD_eq_default _ _ (hlen ▸ hwrites g hg)
  obtain ⟨map', hmap, hadv, ha⟩ := halloc.follows.copyGates hagrees hnodup hfree
    (fun g hg w _ hw => hcopy.gadgetWire_own hg hw) hrun
  have hslots : slots = (List.range n).map map' := hmap
  rw [hslots, readSlice_map_range map' (by omega)] at houts
  have houts : r.1 = (List.range valueBits).map fun k => map' (n - valueBits + k) :=
    (Except.ok.inj houts).symm
  refine ⟨halloc.trans hadv, ?_, by simp [houts]⟩
  rw [houts, List.forall₂_map_left_iff, List.forall₂_map_right_iff, List.forall₂_same]
  intro k hk
  have hk := List.mem_range.mp hk
  have hwire : n - valueBits + k < n := by omega
  have hmem : map' (n - valueBits + k) ∈ r.1 :=
    houts ▸ List.mem_map_of_mem (f := fun k => map' (n - valueBits + k)) (List.mem_range.mpr hk)
  refine ⟨Int.natCast_nonneg _, ?_, ?_, ha.map_lt _ fun heq => hmapped (heq ▸ hmem)⟩
  · have hlt := ha.rename_lt _ hwire
    have hnext := hadv.follows.good.asUsize_next
    change _ < c.next + (n - ws.length : ℕ)
    change (asUsize (c.next + (n - ws.length : ℕ)) : ℤ) = c.next + (n - ws.length : ℕ) at hnext
    change _ < asUsize (c.next + (n - ws.length : ℕ)) at hlt
    omega
  · rw [asUsize_natCast (lt_trans (hcopy.gadgetWire_small hwire) (by decide))]
    exact ha.number _ hwire

end Shachain2pc
