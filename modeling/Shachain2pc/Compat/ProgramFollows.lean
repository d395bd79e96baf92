import Shachain2pc.Compat.CircuitProgram
import Shachain2pc.Compat.TileProgram

/-!
# The direct builder follows the circuit builder

Both builders make the same calls. The program builder has the gates of the circuit builder
with their wires renumbered as `from_circuit` renumbers them, and its wires are the numbers
of the circuit's wires. A gate keeps this when it reads numbered wires and writes a wire
which has no number yet. In a copy of a gadget that is the single assignment of the gadget.
-/

namespace Shachain2pc

open Function (update)
open Rust

/-- The program builder has the gates of the circuit builder, renumbered. -/
structure Follows (b : Ag2pcProgramBuilder) (c : Builder) : Prop where
  good : Builder.Good (List.replicate b.numInputs 0) c
  next_le : b.next ≤ gateWireLimit
  gates : b.gates = c.gates.map fun g => g.convert (programWire b.numInputs c.gates)
  reads : ∀ i g, c.gates[i]? = some g →
    ∀ w ∈ g.instr.args, programWire b.numInputs c.gates w < b.numInputs + i
  nonneg : ∀ g ∈ c.gates, g.Nonneg
  fresh : ∀ w, asUsize c.next ≤ w → programWire b.numInputs c.gates w = unmapped

/-- The wire of the circuit has the number of the program's wire. -/
structure Numbered (b : Ag2pcProgramBuilder) (c : Builder) (w : ℤ) (v : ℕ) : Prop where
  nonneg : 0 ≤ w
  lt_next : w < c.next
  number : programWire b.numInputs c.gates (asUsize w) = v
  lt : v < b.next

/-- Both builders have moved on, and numbered wires have kept their numbers. -/
structure Advances (b : Ag2pcProgramBuilder) (c : Builder) (b' : Ag2pcProgramBuilder)
    (c' : Builder) :
    Prop where
  follows : Follows b' c'
  numInputs : b'.numInputs = b.numInputs
  keeps : ∀ w v, Numbered b c w v → Numbered b' c' w v

variable {b b' b'' : Ag2pcProgramBuilder} {c c' c'' : Builder}

/-- Builders which have not moved. -/
theorem Follows.refl (h : Follows b c) : Advances b c b c := ⟨h, rfl, fun _ _ hw => hw⟩

/-- Moves compose. -/
theorem Advances.trans (h : Advances b c b' c') (h' : Advances b' c' b'' c'') :
    Advances b c b'' c'' :=
  ⟨h'.follows, h'.numInputs.trans h.numInputs, fun w v hw => h'.keeps w v (h.keeps w v hw)⟩

/-- Vectors of wires keep their numbers. -/
theorem Advances.keeps_all (h : Advances b c b' c') {ws : List ℤ} {vs : List ℕ}
    (hws : List.Forall₂ (Numbered b c) ws vs) : List.Forall₂ (Numbered b' c') ws vs :=
  hws.imp fun w v => h.keeps w v

/-- Builders without gates. -/
theorem Follows.new {n : ℕ} (hn : n ≤ gateWireLimit) : Follows ⟨n, []⟩ (Builder.new n) where
  good := by
    unfold gateWireLimit at hn
    refine ⟨by simp [Builder.new], ?_, fun g hg => absurd hg List.not_mem_nil⟩
    change (n : ℤ) ≤ i32Max
    unfold i32Max
    omega
  next_le := hn
  gates := rfl
  reads i g hg := absurd hg (by simp [Builder.new])
  nonneg g hg := absurd hg List.not_mem_nil
  fresh w hw := by
    have hcast : asUsize (Builder.new n).next = n := by
      unfold gateWireLimit at hn
      exact asUsize_natCast (by omega)
    rw [hcast] at hw
    exact if_neg (Nat.not_lt.mpr hw)

/-- The inputs are numbered. -/
theorem Numbered.input {n w : ℕ} (hw : w < n) (hn : n ≤ gateWireLimit) :
    Numbered ⟨n, []⟩ (Builder.new n) w w where
  nonneg := Int.natCast_nonneg w
  lt_next := Int.ofNat_lt.mpr hw
  number := by
    unfold gateWireLimit at hn
    rw [asUsize_natCast (by omega)]
    exact if_pos hw
  lt := hw

/-- The wires of a following program are not `UNMAPPED`. -/
theorem Follows.ne_unmapped (h : Follows b c) {v : ℕ} (hv : v < b.next) : v ≠ unmapped := by
  have hle := h.next_le
  unfold gateWireLimit at hle
  unfold unmapped
  omega

/-- A numbered wire of the circuit builder, as a position. -/
theorem Follows.asUsize_lt (h : Follows b c) {w : ℤ} (h0 : 0 ≤ w) (hw : w < c.next) :
    asUsize w < asUsize c.next ∧ (asUsize w : ℤ) = w := by
  have hle := h.good.next_le
  unfold asUsize i32Max at *
  omega

/-- Both builders have as many gates. -/
theorem Follows.length (h : Follows b c) : b.gates.length = c.gates.length := by
  rw [h.gates, List.length_map]

/-- Allocating wires numbers none. -/
theorem Follows.alloc (h : Follows b c) {n : ℕ} (hfit : c.next + n ≤ i32Max) :
    Advances b c b { c with next := c.next + n } := by
  have hnext := h.good.asUsize_next
  have hcast : asUsize c.next ≤ asUsize (c.next + n) := by
    unfold asUsize i32Max at *
    omega
  refine ⟨⟨⟨?_, hfit, fun g hg => ?_⟩, h.next_le, h.gates, h.reads, h.nonneg, fun w hw => ?_⟩, rfl,
    fun w v hw => ⟨hw.nonneg, ?_, hw.number, hw.lt⟩⟩
  · have hle := h.good.inputs_le
    change _ ≤ c.next + n
    omega
  · obtain ⟨hargs, hout⟩ := h.good.inRange g hg
    exact ⟨fun w hw => (hargs w hw).trans_le hcast, hout.trans_le hcast⟩
  · exact h.fresh w (hcast.trans hw)
  · have hlt := hw.lt_next
    change w < c.next + n
    omega

/-- A further gate gives the wire it writes the next number. -/
theorem Follows.programWire_push (h : Follows b c) (hfit : b.next < gateWireLimit) (g : Gate) :
    programWire b.numInputs (c.gates ++ [g]) =
      update (programWire b.numInputs c.gates) (asUsize g.out) b.next := by
  have hnext : (b.numInputs + c.gates.length) % 2 ^ 32 = b.next := by
    rw [← h.length]
    unfold gateWireLimit at hfit
    exact Nat.mod_eq_of_lt (show b.next < _ by omega)
  rw [programWire, lastWrites_append, lastWrites, lastWrites, hnext]
  rfl

/-- A gate which reads numbered wires and writes a wire without a number is pushed on both sides. -/
theorem Follows.push (h : Follows b c) (hfit : b.next < gateWireLimit) {g : Gate}
    (hnonneg : g.Nonneg) (hrange : g.InRange (asUsize c.next))
    (hargs : ∀ w ∈ g.instr.args, programWire b.numInputs c.gates w < b.next)
    (hout : programWire b.numInputs c.gates (asUsize g.out) = unmapped) :
    Advances b c { b with gates := b.gates ++ [g.convert (programWire b.numInputs c.gates)] }
      { c with gates := c.gates ++ [g] } := by
  have hpush := h.programWire_push hfit g
  have hkeep {w : ℕ} (hw : programWire b.numInputs c.gates w < b.next) :
      programWire b.numInputs (c.gates ++ [g]) w = programWire b.numInputs c.gates w := by
    rw [hpush]
    refine Function.update_of_ne (fun heq => ?_) _ _
    rw [heq, hout] at hw
    exact h.ne_unmapped hw rfl
  have hread {i : ℕ} {g' : Gate} (hg' : c.gates[i]? = some g') {w : ℕ} (hw : w ∈ g'.instr.args) :
      programWire b.numInputs c.gates w < b.next := by
    have hlt : i < c.gates.length := (List.getElem?_eq_some_iff.mp hg').1
    have hi := h.reads i g' hg' w hw
    rw [← h.length] at hlt
    unfold Ag2pcProgramBuilder.next
    omega
  refine ⟨⟨⟨h.good.inputs_le, h.good.next_le, fun g' hg' => ?_⟩, ?_, ?_, fun i g' hg' w hw => ?_,
    fun g' hg' => ?_, fun w hw => ?_⟩, rfl, fun w v hw => ⟨hw.nonneg, hw.lt_next, ?_, ?_⟩⟩
  · rcases List.mem_append.mp hg' with hold | hnew
    · exact h.good.inRange g' hold
    · exact List.mem_singleton.mp hnew ▸ hrange
  · simp only [Ag2pcProgramBuilder.next, List.length_append, List.length_singleton] at hfit ⊢
    omega
  · simp only [List.map_append, List.map_cons, List.map_nil]
    refine congrArg₂ (· ++ ·) (h.gates.trans (List.map_congr_left fun g' hg' => ?_)) ?_
    · obtain ⟨i, hi, rfl⟩ := List.getElem_of_mem hg'
      exact Gate.convert_congr fun w hw => (hkeep (hread (List.getElem?_eq_getElem hi) hw)).symm
    · exact congrArg (fun g' => [g']) (Gate.convert_congr fun w hw => (hkeep (hargs w hw)).symm)
  · change programWire b.numInputs (c.gates ++ [g]) w < b.numInputs + i
    rcases getElem?_append_singleton hg' with ⟨-, hold⟩ | ⟨rfl, rfl⟩
    · rw [hkeep (hread hold hw)]
      exact h.reads i g' hold w hw
    · rw [hkeep (hargs w hw), ← h.length]
      exact hargs w hw
  · rcases List.mem_append.mp hg' with hold | hnew
    · exact h.nonneg g' hold
    · exact List.mem_singleton.mp hnew ▸ hnonneg
  · change programWire b.numInputs (c.gates ++ [g]) w = unmapped
    change asUsize c.next ≤ w at hw
    rw [hpush, Function.update_of_ne (by have := hrange.2; omega)]
    exact h.fresh w hw
  · change programWire b.numInputs (c.gates ++ [g]) (asUsize w) = v
    rw [hkeep (hw.number.symm ▸ hw.lt), hw.number]
  · have hlt := hw.lt
    simp only [Ag2pcProgramBuilder.next, List.length_append, List.length_singleton] at hlt ⊢
    omega

/-- A pushed gate leaves room for its wire. -/
theorem Ag2pcProgramBuilder.pushGate_eq_ok {typ : Ag2pcGateType} {in0 in1 : ℕ}
    {r : ℕ × Ag2pcProgramBuilder} (h : b.pushGate typ in0 in1 = .ok r) :
    b.next < gateWireLimit ∧ r = (b.next, { b with gates := b.gates ++ [⟨typ, in0, in1⟩] }) := by
  dsimp only [Ag2pcProgramBuilder.pushGate] at h
  split at h
  · cases h
  · rename_i hfit
    exact ⟨Nat.lt_of_not_le hfit, (Except.ok.inj h).symm⟩

/-- An allocated wire is the next one. -/
theorem Builder.alloc_eq_ok {r : ℤ × Builder} (h : c.alloc = .ok r) :
    c.next + 1 ≤ i32Max ∧ r = (c.next, { c with next := c.next + 1 }) := by
  obtain ⟨next, hnext, h⟩ := bind_eq_ok h
  obtain ⟨rfl, hfit⟩ := checkedI32_eq_ok hnext
  exact ⟨hfit, (Except.ok.inj h).symm⟩

/-- A gate onto a new wire is emitted on both sides, and the new wires correspond. -/
theorem Follows.emit (h : Follows b c) (hfit : b.next < gateWireLimit) (hnext : c.next + 1 ≤ i32Max)
    {g : Gate} (hnonneg : g.Nonneg) (hout : g.out = c.next)
    (hargs : ∀ w ∈ g.instr.args, programWire b.numInputs c.gates w < b.next) :
    Advances b c { b with gates := b.gates ++ [g.convert (programWire b.numInputs c.gates)] }
        ⟨c.next + 1, c.gates ++ [g]⟩ ∧
      Numbered { b with gates := b.gates ++ [g.convert (programWire b.numInputs c.gates)] }
        ⟨c.next + 1, c.gates ++ [g]⟩ c.next b.next := by
  have hzero : 0 ≤ c.next := (Int.natCast_nonneg _).trans h.good.inputs_le
  have hcast : asUsize (c.next + 1) = asUsize c.next + 1 := by
    unfold asUsize i32Max at *
    omega
  have halloc := h.alloc (n := 1) hnext
  have hrange : g.InRange (asUsize (c.next + 1)) := by
    rw [hcast]
    refine ⟨fun w hw => ?_, by rw [hout]; exact Nat.lt_succ_self _⟩
    by_contra hge
    exact h.ne_unmapped (hargs w hw) (h.fresh w (by omega))
  have hfree : programWire b.numInputs c.gates (asUsize g.out) = unmapped := by
    rw [hout]
    exact h.fresh _ le_rfl
  refine ⟨halloc.trans (halloc.follows.push hfit hnonneg hrange hargs hfree), hzero, ?_, ?_, ?_⟩
  · change c.next < c.next + 1
    omega
  · change programWire b.numInputs (c.gates ++ [g]) (asUsize c.next) = b.next
    rw [h.programWire_push hfit, hout, Function.update_self]
  · simp only [Ag2pcProgramBuilder.next, List.length_append, List.length_singleton]
    omega

/-- Numbered wires are read under their numbers. -/
theorem Numbered.cast {w : ℤ} {v : ℕ} (h : Numbered b c w v) :
    programWire b.numInputs c.gates (asUsize w) = v ∧ v < b.next := ⟨h.number, h.lt⟩

/-- Both builders XOR corresponding wires onto corresponding wires. -/
theorem Follows.xorW (h : Follows b c) {w0 w1 : ℤ} {v0 v1 : ℕ} (h0 : Numbered b c w0 v0)
    (h1 : Numbered b c w1 v1) {r : ℕ × Ag2pcProgramBuilder} {s : ℤ × Builder}
    (hp : b.xorW v0 v1 = .ok r) (hc : c.xorW w0 w1 = .ok s) :
    Advances b c r.2 s.2 ∧ Numbered r.2 s.2 s.1 r.1 ∧ r.1 = b.next ∧ s.1 = c.next ∧
      r.2.next = b.next + 1 ∧ s.2.next = c.next + 1 := by
  obtain ⟨hfit, rfl⟩ := Ag2pcProgramBuilder.pushGate_eq_ok hp
  obtain ⟨out, halloc, hc⟩ := bind_eq_ok hc
  obtain ⟨hnext, rfl⟩ := Builder.alloc_eq_ok halloc
  cases hc
  have hzero : 0 ≤ c.next := (Int.natCast_nonneg _).trans h.good.inputs_le
  have hargs : ∀ w ∈ (Gate.instr ⟨.xor, w0, w1, c.next⟩).args,
      programWire b.numInputs c.gates w < b.next :=
    Gate.forall_args (h0.number ▸ h0.lt) fun _ => h1.number ▸ h1.lt
  obtain ⟨hadvances, hnew⟩ :=
    h.emit hfit hnext (g := ⟨.xor, w0, w1, c.next⟩) ⟨h0.nonneg, fun _ => h1.nonneg, hzero⟩ rfl hargs
  have hconvert : Gate.convert ⟨.xor, w0, w1, c.next⟩ (programWire b.numInputs c.gates) =
      ⟨.xor, v0, v1⟩ := by
    simp [Gate.convert, GateType.program, h0.number, h1.number]
  rw [hconvert] at hadvances hnew
  refine ⟨hadvances, hnew, rfl, rfl, ?_, rfl⟩
  simp only [Ag2pcProgramBuilder.next, List.length_append, List.length_singleton]
  omega

/-- Both builders invert corresponding wires onto corresponding wires. -/
theorem Follows.invW (h : Follows b c) {w0 : ℤ} {v0 : ℕ} (h0 : Numbered b c w0 v0)
    {r : ℕ × Ag2pcProgramBuilder} {s : ℤ × Builder} (hp : b.invW v0 = .ok r)
    (hc : c.invW w0 = .ok s) :
    Advances b c r.2 s.2 ∧ Numbered r.2 s.2 s.1 r.1 := by
  obtain ⟨hfit, rfl⟩ := Ag2pcProgramBuilder.pushGate_eq_ok hp
  obtain ⟨out, halloc, hc⟩ := bind_eq_ok hc
  obtain ⟨hnext, rfl⟩ := Builder.alloc_eq_ok halloc
  cases hc
  have hzero : 0 ≤ c.next := (Int.natCast_nonneg _).trans h.good.inputs_le
  have hargs : ∀ w ∈ (Gate.instr ⟨.inv, w0, -1, c.next⟩).args,
      programWire b.numInputs c.gates w < b.next :=
    Gate.forall_args (h0.number ▸ h0.lt) fun hne => absurd rfl hne
  obtain ⟨hadvances, hnew⟩ :=
    h.emit hfit hnext (g := ⟨.inv, w0, -1, c.next⟩) ⟨h0.nonneg, fun hne => absurd rfl hne, hzero⟩
      rfl hargs
  have hconvert : Gate.convert ⟨.inv, w0, -1, c.next⟩ (programWire b.numInputs c.gates) =
      ⟨.inv, v0, 0⟩ := by
    simp [Gate.convert, GateType.program, h0.number]
  rw [hconvert] at hadvances hnew
  exact ⟨hadvances, hnew⟩

/-- Both builders XOR corresponding pairs onto consecutive wires. -/
theorem Follows.xorPairs (h : Follows b c) {pairs : List (ℕ × ℕ)} {pairs' : List (ℤ × ℤ)}
    (hpairs : List.Forall₂ (fun w v => Numbered b c w.1 v.1 ∧ Numbered b c w.2 v.2) pairs' pairs)
    {r : List ℕ × Ag2pcProgramBuilder} {s : List ℤ × Builder} (hp : b.xorPairs pairs = .ok r)
    (hc : c.xorPairs pairs' = .ok s) :
    Advances b c r.2 s.2 ∧ List.Forall₂ (Numbered r.2 s.2) s.1 r.1 ∧
      r.1 = (List.range pairs.length).map (b.next + ·) ∧
      s.1 = (List.range pairs.length).map (fun k : ℕ => c.next + k) ∧
      r.2.next = b.next + pairs.length ∧ s.2.next = c.next + pairs.length := by
  induction pairs generalizing b c pairs' r s with
  | nil =>
    cases hpairs
    cases hp
    cases hc
    exact ⟨h.refl, List.Forall₂.nil, rfl, rfl, rfl, by simp⟩
  | cons pair rest ih =>
    obtain ⟨pair', rest', hpair, hrest, rfl⟩ := List.forall₂_cons_right_iff.mp hpairs
    obtain ⟨r0, hp0, hp⟩ := bind_eq_ok hp
    obtain ⟨r1, hp1, hp⟩ := bind_eq_ok hp
    obtain ⟨s0, hc0, hc⟩ := bind_eq_ok hc
    obtain ⟨s1, hc1, hc⟩ := bind_eq_ok hc
    cases hp
    cases hc
    obtain ⟨hadv, hnew, hr0, hs0, hnext, hcounter⟩ := h.xorW hpair.1 hpair.2 hp0 hc0
    obtain ⟨hadv', hnews, hr1, hs1, hnext', hcounter'⟩ :=
      ih hadv.follows (hrest.imp fun _ _ hw => ⟨hadv.keeps _ _ hw.1, hadv.keeps _ _ hw.2⟩) hp1 hc1
    refine ⟨hadv.trans hadv', List.Forall₂.cons (hadv'.keeps _ _ hnew) hnews, ?_, ?_, ?_, ?_⟩
    · rw [hr0, hr1, hnext, List.length_cons, List.range_succ_eq_map, List.map_cons, List.map_map]
      refine congrArg (b.next :: ·) (List.map_congr_left fun k _ => ?_)
      simp only [Function.comp_apply]
      omega
    · rw [hs0, hs1, hcounter, List.length_cons, List.range_succ_eq_map, List.map_cons, List.map_map]
      refine congrArg₂ List.cons (by simp) (List.map_congr_left fun k _ => ?_)
      simp only [Function.comp_apply]
      omega
    · rw [hnext', hnext, List.length_cons]
      omega
    · rw [hcounter', hcounter, List.length_cons]
      omega

end Shachain2pc
