import Shachain2pc.Compat.ProgramBuilder

/-!
# Copying a gadget into a program

The copy loop resolves the wires a gate reads through its map and then maps the wire the
gate writes to the new gate. So it keeps one invariant: every gadget wire defined so far is
mapped to a wire of the program that carries the gadget wire's value. The loop needs no
single assignment, as a wire written again is mapped again.
-/

namespace Shachain2pc

open Rust

/-- Each gate reads only wires which are defined at first or written by an earlier gate. -/
def ReadsFrom (defined : ℕ → Prop) (gates : List Gate) : Prop :=
  ∀ i (_ : i < gates.length), ∀ w ∈ gates[i].instr.args,
    defined w ∨ ∃ earlier ∈ gates.take i, asUsize earlier.out = w

/-- The first gate reads defined wires, and the others may read what it writes. -/
theorem ReadsFrom.cons {defined : ℕ → Prop} {gate : Gate} {rest : List Gate}
    (h : ReadsFrom defined (gate :: rest)) :
    (∀ w ∈ gate.instr.args, defined w) ∧
      ReadsFrom (fun w => defined w ∨ w = asUsize gate.out) rest := by
  constructor
  · intro w hw
    rcases h 0 (Nat.succ_pos _) w hw with hdef | ⟨earlier, hmem, -⟩
    · exact hdef
    · exact absurd hmem List.not_mem_nil
  · intro i hi w hw
    rcases h (i + 1) (Nat.succ_lt_succ hi) w hw with hdef | ⟨earlier, hmem, hout⟩
    · exact .inl (.inl hdef)
    · rcases List.mem_cons.mp hmem with rfl | hmem
      · exact .inl (.inr hout.symm)
      · exact .inr ⟨earlier, hmem, hout⟩

/-- A circuit which reads inputs and earlier outputs reads from its inputs. -/
theorem ReadsDefined.readsFrom {inputs : ℕ} {gates : List Gate} (h : ReadsDefined inputs gates) :
    ReadsFrom (· < inputs) gates := by
  intro i hi w hw
  rcases h i hi w hw with hin | ⟨j, hj, hout⟩
  · exact .inl hin
  · have hmem : gates[j] ∈ gates.take i := List.mem_take_iff_getElem.mpr ⟨j, by omega, rfl⟩
    exact .inr ⟨_, hmem, hout⟩

/-- The wires of a gate that the copy reads or writes are nonnegative. -/
structure Gate.Nonneg (g : Gate) : Prop where
  in0 : 0 ≤ g.in0
  in1 : g.typ ≠ .inv → 0 ≤ g.in1
  out : 0 ≤ g.out

namespace Ag2pcProgramBuilder

/-- The wires of the gadget defined so far are mapped to wires which carry their values. -/
structure Mapped (x : List Bool) (b : Ag2pcProgramBuilder) (map : ℕ → ℕ) (defined : ℕ → Prop)
    (env : ℕ → UInt8) : Prop where
  good : b.Good
  carries : ∀ w, defined w → b.Carries x (map w) (env w)

variable {x : List Bool} {b : Ag2pcProgramBuilder} {map : ℕ → ℕ} {defined : ℕ → Prop}
  {env : ℕ → UInt8} {n : ℕ}

/-- Wires of a program are never `UNMAPPED`. -/
theorem Good.ne_unmapped (hb : b.Good) {w : ℕ} (hw : w < b.next) : w ≠ unmapped := by
  have hle := hb.next_le
  unfold gateWireLimit at hle
  unfold unmapped
  omega

/-- A defined wire is resolved to the wire it is mapped to. -/
theorem Mapped.resolve (h : Mapped x b map defined env) {wire : ℤ} (hnonneg : 0 ≤ wire)
    (hlt : asUsize wire < n) (hdef : defined (asUsize wire)) :
    resolveDirectWire ((List.range n).map map) wire = .ok (map (asUsize wire)) := by
  have hcheck : checkedWire "gadget wire" wire ((List.range n).map map).length =
      .ok (asUsize wire) := by
    rw [checkedWire, if_neg]
    rw [List.length_map, List.length_range]
    omega
  rw [resolveDirectWire, hcheck]
  simp only [bind, Except.bind]
  rw [readSlot_map_range map hlt]
  exact if_neg (h.good.ne_unmapped (h.carries _ hdef).lt_next)

/-- The value a gate computes from the wires it reads. -/
theorem gateByte_instr (gate : Gate) (env : ℕ → UInt8) :
    gate.instr.value env = gateByte gate.typ.program (env (asUsize gate.in0))
      (env (asUsize (if gate.typ = .inv then gate.in0 else gate.in1))) := by
  cases htyp : gate.typ <;>
    simp [StraightLine.Instr.value, Gate.instr, htyp, gateByte, GateType.program]

/-- Copying one gate pushes it with its wires mapped, and maps the wire it writes. -/
theorem copyGate_spec (h : Mapped x b map defined env) {gate : Gate} (hnonneg : gate.Nonneg)
    (hrange : gate.InRange n) (hreads : ∀ w ∈ gate.instr.args, defined w)
    (hfit : b.next < gateWireLimit) :
    Yields (copyGate ((List.range n).map map, b) gate) fun r => ∃ map',
      r.1 = (List.range n).map map' ∧ b.Extends 1 r.2 ∧
        Mapped x r.2 map' (fun w => defined w ∨ w = asUsize gate.out) (gate.instr.exec env) := by
  -- The mapped gate.
  let right := if gate.typ = .inv then 0 else map (asUsize gate.in1)
  let mapped : Ag2pcProgramGate := ⟨gate.typ.program, map (asUsize gate.in0), right⟩
  have hcar0 := h.carries _ (hreads _ gate.in0_mem_args)
  have hinv : mapped.typ = .inv ↔ gate.typ = .inv := by
    change gate.typ.program = .inv ↔ _
    cases gate.typ <;> simp [GateType.program]
  have hcar1 : b.Carries x mapped.right
      (env (asUsize (if gate.typ = .inv then gate.in0 else gate.in1))) := by
    by_cases htyp : gate.typ = .inv
    · rw [Ag2pcProgramGate.right, if_pos (hinv.mpr htyp), if_pos htyp]
      exact hcar0
    · rw [Ag2pcProgramGate.right, if_neg (fun h => htyp (hinv.mp h)), if_neg htyp]
      change b.Carries x right _
      rw [show right = map (asUsize gate.in1) from if_neg htyp]
      exact h.carries _ (hreads _ (Gate.in1_mem_args htyp))
  have hlt : ∀ w ∈ mapped.reads, w < b.next := by
    intro w hw
    rcases mapped.mem_reads.mp hw with rfl | rfl
    · exact hcar0.lt_next
    · exact hcar1.lt_next
  obtain ⟨hpush, hextends⟩ := pushGate_spec h.good hlt hfit
  refine ⟨((List.range n).map (Function.update map (asUsize gate.out) b.next),
    { b with gates := b.gates ++ [mapped] }), ?_, _, rfl, hextends, hextends.good, ?_⟩
  · have hin1 : resolveRight ((List.range n).map map) gate = .ok right := by
      by_cases htyp : gate.typ = .inv
      · rw [resolveRight, if_pos htyp, show right = 0 from if_pos htyp]
      · rw [resolveRight, if_neg htyp, show right = map (asUsize gate.in1) from if_neg htyp]
        have hmem := Gate.in1_mem_args htyp
        exact h.resolve (hnonneg.in1 htyp) (hrange.1 _ hmem) (hreads _ hmem)
    have hout : checkedWire "gadget out" gate.out ((List.range n).map map).length =
        .ok (asUsize gate.out) := by
      rw [checkedWire, if_neg]
      rw [List.length_map, List.length_range]
      have := hrange.2
      have := hnonneg.out
      omega
    have hgate : b.gateW gate.typ (map (asUsize gate.in0)) right =
        .ok (b.next, { b with gates := b.gates ++ [mapped] }) := by
      rw [← hpush]
      cases htyp :
          gate.typ <;> simp [gateW, mapped, right, htyp, GateType.program, andW, xorW, invW]
    rw [copyGate,
      h.resolve hnonneg.in0 (hrange.1 _ gate.in0_mem_args) (hreads _ gate.in0_mem_args), hin1]
    simp only [bind, Except.bind]
    rw [hgate, hout]
    simp only
    rw [writeSlot_map_range _ hrange.2]
  · intro w hw
    by_cases heq : w = asUsize gate.out
    · rw [heq, Function.update_self]
      have hvalue : gate.instr.exec env (asUsize gate.out) = gate.instr.value env :=
        Function.update_self (β := fun _ => UInt8) _ _ _
      rw [hvalue, gateByte_instr]
      exact show Carries ⟨_, b.gates ++ [mapped]⟩ x _ _ from carries_push hcar0 hcar1
    · have hkeep : gate.instr.exec env w = env w := Function.update_of_ne heq _ _
      rw [Function.update_of_ne heq, hkeep]
      exact (h.carries w (hw.resolve_right heq)).mono hextends

/-- The copy loop carries every wire of the gadget. -/
theorem copyGates_spec (h : Mapped x b map defined env) {gates : List Gate}
    (hnonneg : ∀ g ∈ gates, g.Nonneg) (hrange : ∀ g ∈ gates, g.InRange n)
    (hreads : ReadsFrom defined gates) (hfit : b.next + gates.length ≤ gateWireLimit) :
    Yields (gates.foldlM copyGate ((List.range n).map map, b)) fun r => ∃ map',
      r.1 = (List.range n).map map' ∧ b.Extends gates.length r.2 ∧
        Mapped x r.2 map' (fun w => defined w ∨ w ∈ gates.map fun g => asUsize g.out)
          (StraightLine.exec (gates.map Gate.instr) env) := by
  induction gates generalizing b map defined env with
  | nil =>
    refine .ok ⟨map, rfl, h.good.extends, h.good, fun w hw => h.carries w (hw.resolve_right ?_)⟩
    exact List.not_mem_nil
  | cons gate rest ih =>
    rw [List.length_cons] at hfit
    rw [List.foldlM_cons]
    obtain ⟨hfirst, hrest⟩ := hreads.cons
    refine (copyGate_spec h (hnonneg gate List.mem_cons_self)
      (hrange gate List.mem_cons_self) hfirst
      (by omega)).bind fun r hr => ?_
    obtain ⟨map', hmap, hextends, hmapped⟩ := hr
    have hr : r = ((List.range n).map map', r.2) := by rw [← hmap]
    rw [hr]
    refine (ih hmapped (fun g hg => hnonneg g (List.mem_cons_of_mem _ hg))
      (fun g hg => hrange g (List.mem_cons_of_mem _ hg)) hrest
      (by rw [hextends.next_eq]; omega)).mono fun s hs => ?_
    obtain ⟨map'', hmap', hextends', hmapped'⟩ := hs
    refine ⟨map'', hmap', ?_, hmapped'.good, fun w hw => hmapped'.carries w ?_⟩
    · rw [List.length_cons, Nat.add_comm]
      exact hextends.trans hextends'
    · rw [List.map_cons, List.mem_cons, ← or_assoc] at hw
      exact hw

end Ag2pcProgramBuilder

/-- What the direct builder further assumes of the embedded gadget file: its wire numbers are
nonnegative, its outputs are defined, and 48 copies fit into a program. -/
structure DirectGadget (compress : Block64 → Value32) (gadget : Circuit) : Prop
    extends CompressionGadget compress gadget where
  nonneg : ∀ g ∈ gadget.gates, g.Nonneg
  outputsDefined : ∀ k < 256, asUsize gadget.numWire - 256 + k < 512 ∨
    asUsize gadget.numWire - 256 + k ∈ gadget.gates.map fun g => asUsize g.out
  fits : 1026 + indexBits * (gadget.gates.length + 1) ≤ gateWireLimit

/-- A gadget which copies wires of at most 600 gates meets the direct builder's assumptions. -/
theorem CopyHead.direct {n : ℕ} {head : List Gate} {source : ℕ → ℤ} (h : CopyHead n head source)
    {compress : Block64 → Value32} (hgadget : CompressionGadget compress (copyGadget n head source))
    (hhead : ∀ g ∈ head, g.Nonneg) (hsource : ∀ k, 0 ≤ source k) (hshort : head.length ≤ 600) :
    DirectGadget compress (copyGadget n head source) where
  toCompressionGadget := hgadget
  nonneg := by
    intro g hg
    rcases List.mem_append.mp hg with hg | hg
    · exact hhead g hg
    · obtain ⟨k, -, rfl⟩ := List.mem_map.mp hg
      exact ⟨show (0 : ℤ) ≤ 512 by decide, fun _ => hsource k, Int.natCast_nonneg _⟩
  outputsDefined := by
    intro k hk
    right
    have hfits := h.fits
    have hnum : asUsize (copyGadget n head source).numWire = n :=
      asUsize_natCast (by unfold i32Max at hfits; omega)
    rw [hnum, copyGadget, List.map_append, List.map_map]
    refine List.mem_append_right _ (List.mem_map.mpr ⟨k, List.mem_range.mpr hk, ?_⟩)
    exact h.asUsize_out hk
  fits := by
    rw [copyGadget, List.length_append, List.length_map, List.length_range]
    calc 1026 + indexBits * (head.length + 256 + 1)
        ≤ 1026 + indexBits * (600 + 256 + 1) := by gcongr
      _ ≤ gateWireLimit := by decide

/-- The smallest constant gadget meets the direct builder's assumptions. -/
theorem constantGadget_direct (digest : Value32) :
    DirectGadget (fun _ => digest) (constantGadget 770 digest) := by
  refine (constantHead_copyHead (by decide) (by decide) digest).direct
    (constantGadget_compression (by decide) (by decide)) (fun g hg => ?_) (fun k => ?_) (by decide)
  · rcases List.mem_cons.mp hg with rfl | hg
    · exact ⟨by decide, fun _ => by decide, by decide⟩
    · rw [List.mem_singleton.mp hg]
      exact ⟨by decide, fun h => absurd rfl h, by decide⟩
  · rw [constantSource]
    split <;> decide

/-- So does the gadget which computes one of two digests. -/
theorem selectGadget_direct {position : ℕ} (hposition : position < 512) (first second : Value32) :
    DirectGadget (selectDigest position first second) (selectGadget position first second) := by
  refine (selectHead_copyHead hposition).direct (selectGadget_compression hposition)
    (fun g hg => ?_)
    (fun k => ?_) (show 4 ≤ 600 by decide)
  · simp only [selectHead, List.mem_cons, List.not_mem_nil, or_false] at hg
    rcases hg with rfl | rfl | rfl | rfl
    · exact ⟨by decide, fun _ => by decide, by decide⟩
    · exact ⟨by decide, fun h => absurd rfl h, by decide⟩
    · exact ⟨Int.natCast_nonneg _, fun _ => show (0 : ℤ) ≤ 513 by decide, show (0 : ℤ) ≤
        514 by decide⟩
    · exact ⟨by decide, fun h => absurd rfl h, by decide⟩
  · rw [selectSource]
    split <;> split <;> decide

namespace Ag2pcProgramBuilder

variable {x : List Bool} {b : Ag2pcProgramBuilder} {compress : Block64 → Value32} {gadget : Circuit}

/-- The map before the first gate sends the gadget's inputs to the supplied wires. -/
theorem inputs_map_range {inputs : List ℕ} {n : ℕ} (hn : inputs.length ≤ n) :
    inputs ++ (List.replicate n unmapped).drop inputs.length =
      (List.range n).map fun w => inputs.getD w unmapped := by
  apply List.ext_getElem
  · simp
    omega
  · intro i hi _
    by_cases hlt : i < inputs.length
    · rw [List.getElem_append_left hlt]
      simp [hlt]
    · rw [List.getElem_append_right (Nat.le_of_not_lt hlt)]
      simp [hlt]

/-- A copied gadget extends the program by its gates, and returns wires which carry the compression
of the block that the supplied wires carry. -/
theorem applyGadget_spec (hgadget : DirectGadget compress gadget) (hb : b.Good) {inputs : List ℕ}
    {block : Block64} (hvals : List.Forall₂ (b.Carries x) inputs (bitsMsb block))
    (hfit : b.next + gadget.gates.length ≤ gateWireLimit) :
    Yields (b.applyGadget gadget inputs) fun r =>
      b.Extends gadget.gates.length r.2 ∧
        List.Forall₂ (r.2.Carries x) r.1 (compress block).toBitsMsb := by
  have hlen : inputs.length = 512 := hvals.length_eq.trans (by simp)
  obtain ⟨hin, hcap, hrange, hslice⟩ := evalBristol_shape (hgadget.computes block)
  have hnum := natCast_asUsize hgadget.numWire_i32.1 hgadget.numWire_i32.2 hcap
  generalize hn : asUsize gadget.numWire = n at *
  have hmin : 512 ≤ n := by simpa using hin
  have hmax : (n : ℤ) ≤ i32Max := hnum ▸ hgadget.numWire_i32.2
  have heval := hgadget.computes block
  rw [@evalBristol_eq gadget (bitsMsb block) n 256 hnum.symm hgadget.outputs
    (by simpa using hgadget.width) hmax hin (by omega) hrange] at heval
  -- The wires the gadget starts from.
  have hmapped : Mapped x b (fun w => inputs.getD w unmapped) (fun w => w < 512)
      (inputEnv (bitsMsb block)) := by
    refine ⟨hb, fun w hw => ?_⟩
    have hbits : w < (bitsMsb block).length := by simpa using hw
    rw [List.getD_eq_getElem _ _ (hlen ▸ hw), inputEnv, List.getD_eq_getElem _ _ hbits,
      and_one_of_mem_bitsMsb (List.getElem_mem hbits)]
    exact hvals.get (hlen ▸ hw) hbits
  obtain ⟨r, hrun, map', hmap, hextends, hmapped'⟩ := copyGates_spec (n := n) hmapped hgadget.nonneg
    hrange hgadget.readsDefined.readsFrom hfit
  have hcarries (k : ℕ) (hk : k < 256) : r.2.Carries x (map' (n - 256 + k))
      (gateMeaning gadget.gates (bitsMsb block) (n - 256 + k)) := by
    apply hmapped'.carries
    rw [← hn]
    exact hgadget.outputsDefined k hk
  have hwidth : (checkedI32 (gadget.n1 + gadget.n2) : Outcome ProgramError ℤ) = .ok 512 := by
    rw [hgadget.width]
    exact checkedI32_ok (by decide) (by decide)
  have hnumWire : checkedNonnegative "gadget num_wire" gadget.numWire = .ok n := by
    rw [checkedNonnegative, if_neg (by omega), hn]
  have hn3 : checkedNonnegative "gadget n3" gadget.n3 = .ok 256 := by
    rw [hgadget.outputs]
    rfl
  have hgin : checkedNonnegative "gadget inputs" 512 = .ok 512 := rfl
  have hvec :
      (newVec unmapped n : Outcome ProgramError (List ℕ)) = .ok (List.replicate n unmapped) :=
    if_pos hcap
  have hread : (readSlice (List.replicate n unmapped) 0 512 : Outcome ProgramError (List ℕ)) =
      .ok ((List.replicate n unmapped).take 512) :=
    if_pos (by simpa using hmin)
  have hstart : inputs ++ (List.replicate n unmapped).drop 512 =
      (List.range n).map fun w => inputs.getD w unmapped := by
    rw [← hlen]
    exact inputs_map_range (hlen ▸ hmin)
  refine ⟨((List.range 256).map fun k => map' (n - 256 + k), r.2), ?_, hextends, ?_⟩
  · rw [applyGadget, hwidth]
    simp only [bind, Except.bind, hgin, hnumWire, hn3, hvec, hread, hstart, hrun, hmap]
    rw [if_neg (by omega), readSlice_map_range map' (by omega)]
    refine if_neg fun hmem => ?_
    obtain ⟨k, hk, hbad⟩ := List.mem_map.mp hmem
    exact hmapped'.good.ne_unmapped (hcarries k (List.mem_range.mp hk)).lt_next hbad
  · rw [← Except.ok.inj heval, List.forall₂_map_left_iff, List.forall₂_map_right_iff,
      List.forall₂_same]
    exact fun k hk => hcarries k (List.mem_range.mp hk)

end Ag2pcProgramBuilder

end Shachain2pc
