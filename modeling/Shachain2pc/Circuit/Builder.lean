import Shachain2pc.Circuit.Bristol
import Mathlib.Data.List.Forall2

/-!
# The circuit builder and its gadget copies

The builder numbers wires with an `i32` counter and appends gates. `applyGadget` copies
a gadget: gadget inputs become the supplied wires, every other gadget wire gets a fresh
number, and the gates are renamed along that map.

Each builder operation has one specification over the straight-line meaning of the gates
emitted so far: it stays well formed, keeps all earlier wires, and says what the wires
it returns carry.
-/

namespace Shachain2pc

open StraightLine (Instr)
open Rust

structure Builder where
  next : ℤ
  gates : List Gate

namespace Builder

/-- `Builder::new`. -/
def new (numInputs : ℤ) : Builder := ⟨numInputs, []⟩

/-- `Builder::alloc`. -/
def alloc (b : Builder) : Outcome CircuitError (ℤ × Builder) := do
  let next ← checkedI32 (b.next + 1)
  .ok (b.next, { b with next := next })

/-- `Builder::and`. -/
def and (b : Builder) (in0 in1 out : ℤ) : Builder :=
  { b with gates := b.gates ++ [⟨.and, in0, in1, out⟩] }

/-- `Builder::xor`. -/
def xor (b : Builder) (in0 in1 out : ℤ) : Builder :=
  { b with gates := b.gates ++ [⟨.xor, in0, in1, out⟩] }

/-- `Builder::inv`; the unused second input is `-1`. -/
def inv (b : Builder) (in0 out : ℤ) : Builder :=
  { b with gates := b.gates ++ [⟨.inv, in0, -1, out⟩] }

/-- `Builder::xor_w`. -/
def xorW (b : Builder) (in0 in1 : ℤ) : Outcome CircuitError (ℤ × Builder) := do
  let (out, b) ← b.alloc
  .ok (out, b.xor in0 in1 out)

/-- `Builder::inv_w`. -/
def invW (b : Builder) (in0 : ℤ) : Outcome CircuitError (ℤ × Builder) := do
  let (out, b) ← b.alloc
  .ok (out, b.inv in0 out)

/-- Allocate the given number of consecutive wires. -/
def allocMany (b : Builder) : ℕ → Outcome CircuitError (List ℤ × Builder)
  | 0 => .ok ([], b)
  | n + 1 => do
    let (out, b) ← b.alloc
    let (outs, b) ← b.allocMany n
    .ok (out :: outs, b)

/-- Copy one gadget gate, looking up its wires in the renaming map. -/
def copyGate (map : List ℤ) (b : Builder) (ge : Gate) : Outcome CircuitError Builder :=
  match ge.typ with
  | .and => do
    let in0 ← readSlot map (asUsize ge.in0)
    let in1 ← readSlot map (asUsize ge.in1)
    let out ← readSlot map (asUsize ge.out)
    .ok (b.and in0 in1 out)
  | .xor => do
    let in0 ← readSlot map (asUsize ge.in0)
    let in1 ← readSlot map (asUsize ge.in1)
    let out ← readSlot map (asUsize ge.out)
    .ok (b.xor in0 in1 out)
  | .inv => do
    let in0 ← readSlot map (asUsize ge.in0)
    let out ← readSlot map (asUsize ge.out)
    .ok (b.inv in0 out)

/-- `Builder::apply_gadget`. -/
def applyGadget (b : Builder) (gadget : Circuit) (inputs : List ℤ) :
    Outcome CircuitError (List ℤ × Builder) := do
  let gin ← checkedI32 (gadget.n1 + gadget.n2)
  if inputs.length ≠ asUsize gin then
    .error (.error (.shape "ApplyGadget: wrong gadget input width"))
  else do
    let map ← newVec (0 : ℤ) (asUsize gadget.numWire)
    -- `map[..gin]` panics when the gadget declares more inputs than wires.
    let _ ← readSlice map 0 (asUsize gin)
    let (fresh, b) ← b.allocMany (asUsize gadget.numWire - asUsize gin)
    let map := inputs ++ fresh
    let b ← gadget.gates.foldlM (copyGate map) b
    let start ← checkedI32 (gadget.numWire - gadget.n3)
    let outs ← readSlice map (asUsize start) (asUsize gadget.n3)
    .ok (outs, b)

/-- `Builder::finish`. -/
def finish (b : Builder) (n1 n2 n3 : ℤ) : Circuit := ⟨b.next, n1, n2, n3, b.gates⟩

/-- The value a wire carries once the gates emitted so far have run on the inputs. -/
def value (b : Builder) (x : List UInt8) (w : ℤ) : UInt8 := gateMeaning b.gates x (asUsize w)

/-- Invariant of a builder over the inputs `x`: the counter stays an `i32` beyond the inputs,
and every emitted gate uses only numbered wires. -/
structure Good (x : List UInt8) (b : Builder) : Prop where
  inputs_le : (x.length : ℤ) ≤ b.next
  next_le : b.next ≤ i32Max
  inRange : ∀ g ∈ b.gates, g.InRange (asUsize b.next)

/-- A well-formed extension which numbered `count` further wires. -/
structure Extends (x : List UInt8) (b : Builder) (count : ℕ) (b' : Builder) : Prop where
  good : Good x b'
  next_eq : b'.next = b.next + count
  value_eq : ∀ w, 0 ≤ w → w < b.next → b'.value x w = b.value x w

/-- The wire is numbered and carries the value. -/
structure Carries (x : List UInt8) (b : Builder) (w : ℤ) (v : UInt8) : Prop where
  nonneg : 0 ≤ w
  lt_next : w < b.next
  value_eq : b.value x w = v

variable {x : List UInt8} {b b' b'' : Builder}

/-- A builder extends itself by no wires. -/
theorem Good.extends (hb : Good x b) : Extends x b 0 b :=
  ⟨hb, by simp, fun _ _ _ => rfl⟩

/-- Extensions compose, adding their wire counts. -/
theorem Extends.trans {m n : ℕ} (h : Extends x b m b') (h' : Extends x b' n b'') :
    Extends x b (m + n) b'' where
  good := h'.good
  next_eq := by rw [h'.next_eq, h.next_eq]; omega
  value_eq w h0 hw := by
    rw [h'.value_eq w h0 (by rw [h.next_eq]; omega), h.value_eq w h0 hw]

/-- Wires keep their values under extension. -/
theorem Carries.mono {n : ℕ} {w : ℤ} {v : UInt8} (hw : Carries x b w v) (h : Extends x b n b') :
    Carries x b' w v :=
  ⟨hw.nonneg, by rw [h.next_eq]; have := hw.lt_next; omega,
    (h.value_eq w hw.nonneg hw.lt_next).trans hw.value_eq⟩

/-- Vectors of wires keep their values under extension. -/
theorem carries_mono {n : ℕ} {ws : List ℤ} {vs : List UInt8}
    (hws : List.Forall₂ (Carries x b) ws vs) (h : Extends x b n b') :
    List.Forall₂ (Carries x b') ws vs :=
  hws.imp fun _ _ hw => Carries.mono hw h

/-- The counter is a natural number, as every use `as usize` requires. -/
theorem Good.asUsize_next (hb : Good x b) : (asUsize b.next : ℤ) = b.next := by
  have := hb.inputs_le
  have := hb.next_le
  unfold asUsize i32Max at *
  omega

/-- Wires the builder has not numbered yet carry the evaluator's initial zero. -/
theorem Good.value_fresh (hb : Good x b) {w : ℕ} (hw : asUsize b.next ≤ w) :
    gateMeaning b.gates x w = 0 := by
  have hx : x.length ≤ w := by
    have := hb.inputs_le
    have := hb.asUsize_next
    omega
  rw [gateMeaning, StraightLine.exec_frame]
  · simp [inputEnv, List.getElem?_eq_none hx]
  · intro instr hinstr
    obtain ⟨g, hg, rfl⟩ := List.mem_map.mp hinstr
    have : asUsize g.out < asUsize b.next := (hb.inRange g hg).2
    change asUsize g.out ≠ w
    omega

/-- A carried wire is a numbered position. -/
theorem Carries.asUsize_lt (hb : Good x b) {w : ℤ} {v : UInt8} (hw : Carries x b w v) :
    asUsize w < asUsize b.next ∧ (asUsize w : ℤ) = w := by
  have := hw.nonneg
  have := hw.lt_next
  have := hb.next_le
  have := hb.asUsize_next
  unfold asUsize i32Max at *
  omega

/-- Emitting one gate onto the next fresh wire. -/
theorem Good.push (hb : Good x b) (hfit : b.next + 1 ≤ i32Max) {g : Gate} (hout : g.out = b.next)
    (hargs : ∀ w ∈ g.instr.args, w < asUsize b.next) :
    Extends x b 1 ⟨b.next + 1, b.gates ++ [g]⟩ ∧
      Carries x ⟨b.next + 1, b.gates ++ [g]⟩ b.next (g.instr.value (gateMeaning b.gates x)) := by
  have hnext := hb.asUsize_next
  have hnonneg : 0 ≤ b.next := le_trans (Int.natCast_nonneg _) hb.inputs_le
  have hsucc : asUsize (b.next + 1) = asUsize b.next + 1 := by
    unfold asUsize i32Max at *
    omega
  have hmeaning (w : ℕ) : gateMeaning (b.gates ++ [g]) x w =
      g.instr.exec (gateMeaning b.gates x) w := by
    simp [gateMeaning, StraightLine.exec_append]
  have hgout : g.instr.out = asUsize b.next := congrArg asUsize hout
  refine ⟨⟨⟨?_, hfit, ?_⟩, by simp, fun w h0 hw => ?_⟩, ⟨hnonneg, by simp, ?_⟩⟩
  · exact le_trans hb.inputs_le (by simp)
  · intro g' hg'
    change g'.InRange (asUsize (b.next + 1))
    rw [hsucc]
    rcases List.mem_append.mp hg' with hold | hnew
    · obtain ⟨h1, h2⟩ := hb.inRange g' hold
      exact ⟨fun w hw => Nat.lt_succ_of_lt (h1 w hw), Nat.lt_succ_of_lt h2⟩
    · obtain rfl := List.mem_singleton.mp hnew
      exact ⟨fun w hw => Nat.lt_succ_of_lt (hargs w hw), by rw [hout]; omega⟩
  · have hne : asUsize w ≠ g.instr.out := by
      rw [hgout]
      have := hb.next_le
      unfold asUsize i32Max at *
      omega
    change gateMeaning (b.gates ++ [g]) x _ = gateMeaning b.gates x _
    rw [hmeaning, Instr.exec, Function.update_of_ne hne]
  · change gateMeaning (b.gates ++ [g]) x _ = _
    rw [hmeaning, Instr.exec, ← hgout, Function.update_self]

/-- `xor_w` numbers one wire, which carries the XOR of its inputs. -/
theorem xorW_spec (hb : Good x b) (hfit : b.next + 1 ≤ i32Max) {w0 w1 : ℤ} {v0 v1 : UInt8}
    (h0 : Carries x b w0 v0) (h1 : Carries x b w1 v1) :
    Yields (b.xorW w0 w1) fun r =>
      Extends x b 1 r.2 ∧ r.1 = b.next ∧ Carries x r.2 r.1 (v0 ^^^ v1) := by
  have hnonneg : 0 ≤ b.next := le_trans (Int.natCast_nonneg _) hb.inputs_le
  obtain ⟨hext, hcarry⟩ := hb.push hfit (g := ⟨.xor, w0, w1, b.next⟩) rfl
    (by simpa [Gate.instr] using ⟨(h0.asUsize_lt hb).1, (h1.asUsize_lt hb).1⟩)
  refine ⟨(b.next, ⟨b.next + 1, b.gates ++ [⟨.xor, w0, w1, b.next⟩]⟩), ?_, hext, rfl, ?_⟩
  · simp [xorW, alloc,
      checkedI32_ok (E := CircuitError) (show -(2 ^ 31) ≤ b.next + 1 by omega) hfit,
      bind, Except.bind, xor]
  · have hvalue :
        (Gate.instr ⟨.xor, w0, w1, b.next⟩).value (gateMeaning b.gates x) = v0 ^^^ v1 := by
      rw [← h0.value_eq, ← h1.value_eq]
      rfl
    exact hvalue ▸ hcarry

/-- `inv_w` numbers one wire, which carries the inverted input. -/
theorem invW_spec (hb : Good x b) (hfit : b.next + 1 ≤ i32Max) {w0 : ℤ} {v0 : UInt8}
    (h0 : Carries x b w0 v0) :
    Yields (b.invW w0) fun r =>
      Extends x b 1 r.2 ∧ r.1 = b.next ∧ Carries x r.2 r.1 (v0 ^^^ 1) := by
  have hnonneg : 0 ≤ b.next := le_trans (Int.natCast_nonneg _) hb.inputs_le
  obtain ⟨hext, hcarry⟩ := hb.push hfit (g := ⟨.inv, w0, -1, b.next⟩) rfl
    (by simpa [Gate.instr] using (h0.asUsize_lt hb).1)
  refine ⟨(b.next, ⟨b.next + 1, b.gates ++ [⟨.inv, w0, -1, b.next⟩]⟩), ?_, hext, rfl, ?_⟩
  · simp [invW, alloc,
      checkedI32_ok (E := CircuitError) (show -(2 ^ 31) ≤ b.next + 1 by omega) hfit,
      bind, Except.bind, inv]
  · have hvalue : (Gate.instr ⟨.inv, w0, -1, b.next⟩).value (gateMeaning b.gates x) = v0 ^^^ 1 := by
      rw [← h0.value_eq]
      rfl
    exact hvalue ▸ hcarry

/-- Allocation numbers consecutive wires while the counter fits. -/
theorem allocMany_eq (b : Builder) (n : ℕ) (h0 : 0 ≤ b.next) (hfit : b.next + n ≤ i32Max) :
    b.allocMany n =
      .ok ((List.range n).map (fun k : ℕ => b.next + k), { b with next := b.next + n }) := by
  induction n generalizing b with
  | zero => simp [allocMany]
  | succ n ih =>
    have halloc : b.alloc = .ok (b.next, { b with next := b.next + 1 }) := by
      simp [alloc, checkedI32_ok (E := CircuitError) (show -(2 ^ 31) ≤ b.next + 1 by omega)
        (by omega), bind, Except.bind]
    have hrest := ih { b with next := b.next + 1 } (by simp only; omega) (by simp only; omega)
    simp only [allocMany, halloc, bind, Except.bind, hrest]
    congr 2
    · rw [List.range_succ_eq_map]
      simp [Function.comp_def]
      intro k _
      omega
    · simp only [Builder.mk.injEq, and_true]
      omega

end Builder

end Shachain2pc
