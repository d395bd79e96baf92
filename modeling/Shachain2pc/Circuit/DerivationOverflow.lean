import Shachain2pc.Circuit.DerivationCorrect

/-!
# When the wire counter of the derivation circuit overflows

The builder numbers wires with an `i32`. A derivation which needs more wires than that
panics, whatever the gadget computes, so the bound in the correctness theorem cannot
be dropped.
-/

namespace Shachain2pc

open Rust

namespace Builder

variable {x : List UInt8} {b : Builder}

/-- The last `i32` wire number cannot be followed by another. -/
theorem alloc_panic (hfull : b.next = i32Max) : b.alloc = .error .panic := by
  rw [alloc, hfull, checkedI32, if_neg (by omega)]
  rfl

/-- Allocating past the `i32` range panics. -/
theorem allocMany_panic (n : ℕ) (h0 : 0 ≤ b.next) (hle : b.next ≤ i32Max)
    (hover : i32Max < b.next + n) : b.allocMany n = .error .panic := by
  induction n generalizing b with
  | zero => omega
  | succ n ih =>
    by_cases hfull : b.next = i32Max
    · rw [allocMany, alloc_panic hfull]
      rfl
    · have halloc : b.alloc = .ok (b.next, { b with next := b.next + 1 }) := by
        simp [alloc, checkedI32_ok (E := CircuitError) (show -(2 ^ 31) ≤ b.next + 1 by omega)
          (by omega), bind, Except.bind]
      have hrest := ih (b := { b with next := b.next + 1 }) (by simp only; omega)
        (by simp only; omega) (by simp only; omega)
      simp only [allocMany, halloc, bind, Except.bind, hrest]

/-- A row of XOR gates past the `i32` range panics. -/
theorem xorPairs_panic (pairs : List (ℤ × ℤ)) (h0 : 0 ≤ b.next) (hle : b.next ≤ i32Max)
    (hover : i32Max < b.next + pairs.length) : b.xorPairs pairs = .error .panic := by
  induction pairs generalizing b with
  | nil =>
    simp only [List.length_nil] at hover
    omega
  | cons pair rest ih =>
    obtain ⟨in0, in1⟩ := pair
    rw [List.length_cons] at hover
    by_cases hfull : b.next = i32Max
    · rw [xorPairs, xorW, alloc_panic hfull]
      rfl
    · have halloc : b.alloc = .ok (b.next, { b with next := b.next + 1 }) := by
        simp [alloc, checkedI32_ok (E := CircuitError) (show -(2 ^ 31) ≤ b.next + 1 by omega)
          (by omega), bind, Except.bind]
      have hrest := ih (b := ⟨b.next + 1, b.gates ++ [⟨.xor, in0, in1, b.next⟩]⟩)
        (by simp only; omega) (by simp only; omega) (by simp only; push_cast at hover; omega)
      simp only [xorPairs, xorW, halloc, xor, bind, Except.bind, hrest]

/-- A gadget copy past the `i32` range panics. -/
theorem applyGadget_panic {gadget : Circuit} {inputs : List ℤ} {n : ℕ}
    (hwidth : gadget.n1 + gadget.n2 = inputs.length) (hn : gadget.numWire = n)
    (hmin : inputs.length ≤ n) (hmax : (n : ℤ) ≤ i32Max) (h0 : 0 ≤ b.next) (hle : b.next ≤ i32Max)
    (hover : i32Max < b.next + (n - inputs.length : ℕ)) :
    b.applyGadget gadget inputs = .error .panic := by
  have hcast (m : ℕ) (hm : m ≤ n) : asUsize (m : ℤ) = m :=
    asUsize_natCast (by unfold i32Max at hmax; omega)
  have hnew : (newVec 0 n : Outcome CircuitError (List ℤ)) = .ok (List.replicate n 0) :=
    if_pos (by unfold i32Max at hmax; omega)
  have hslice : (readSlice (List.replicate n (0 : ℤ)) 0 inputs.length :
      Outcome CircuitError (List ℤ)) = .ok ((List.replicate n 0).take inputs.length) :=
    if_pos (by simpa using hmin)
  rw [applyGadget, hwidth, hn, checkedI32_ok (by omega) (by omega)]
  simp only [bind, Except.bind, hcast _ hmin, hcast _ le_rfl, ne_eq, not_true_eq_false, if_false,
    hnew, hslice, allocMany_panic _ h0 hle hover]

/-- A loop body past the `i32` range panics. -/
theorem hashWires_panic {compress : Block64 → Value32} {gadget : Circuit}
    (hgadget : CompressionGadget compress gadget) {n : ℕ} (hn : gadget.numWire = n)
    (hmin : 512 ≤ n) {c0 c1 : ℤ} {p : List ℤ} (hp : p.length = 256) {bit : ℕ}
    (hbit : bit < indexBits) (h0 : 0 ≤ b.next) (hle : b.next ≤ i32Max)
    (hover : i32Max < b.next + (n - 511 : ℕ)) :
    b.hashWires gadget c0 c1 p bit = .error .panic := by
  have hidx : flipBitIndex bit < p.length := by
    unfold flipBitIndex
    unfold indexBits at hbit
    omega
  have hread : (readSlot p (flipBitIndex bit) : Outcome CircuitError ℤ) =
      .ok p[flipBitIndex bit] := by
    simp [readSlot, hidx]
  rw [hashWires, hread]
  by_cases hfull : b.next = i32Max
  · simp only [bind, Except.bind, invW, alloc_panic hfull]
  · have halloc : b.alloc = .ok (b.next, { b with next := b.next + 1 }) := by
      simp [alloc, checkedI32_ok (E := CircuitError) (show -(2 ^ 31) ≤ b.next + 1 by omega)
        (by omega), bind, Except.bind]
    simp only [bind, Except.bind, invW, halloc, inv]
    have hlen (wire : ℤ) :
        (p.set (flipBitIndex bit) wire ++ paddingWires c0 c1).length = 512 := by
      simp [hp, paddingWires, paddingBits]
    refine applyGadget_panic (n := n) (by rw [hlen]; exact hgadget.width) hn
      (by rw [hlen]; exact hmin)
      (hn ▸ hgadget.numWire_i32.2) ?_ ?_ ?_ <;> simp only [hlen] <;> omega

/-- An index loop past the `i32` range panics. -/
theorem hashLoop_panic {compress : Block64 → Value32} {gadget : Circuit}
    (hgadget : CompressionGadget compress gadget) {n : ℕ} (hn : gadget.numWire = n)
    (hmin : 512 ≤ n) {c0 c1 : ℤ} (bits : List ℕ) (hbits : ∀ bit ∈ bits, bit < indexBits)
    (hb : Good x b) (h0 : Carries x b c0 0) (h1 : Carries x b c1 1)
    {p : List ℤ} {v : Value32} (hp : List.Forall₂ (Carries x b) p v.toBitsMsb)
    (hover : i32Max < b.next + (bits.length * (n - 511) : ℕ)) :
    bits.foldlM (fun s bit => s.2.hashWires gadget c0 c1 s.1 bit) (p, b) = .error .panic := by
  have hnonneg : 0 ≤ b.next := le_trans (Int.natCast_nonneg _) hb.inputs_le
  induction bits generalizing b p v with
  | nil =>
    have := hb.next_le
    simp only [List.length_nil, Nat.zero_mul] at hover
    omega
  | cons bit rest ih =>
    rw [List.length_cons, Nat.succ_mul] at hover
    rw [List.foldlM_cons]
    have hbit := hbits bit List.mem_cons_self
    by_cases hfit : b.next + (n - 511 : ℕ) ≤ i32Max
    · -- This copy still fits, so a later one does not.
      obtain ⟨r, hr, hext, hcar⟩ := hashWires_spec hgadget hn hb h0 h1 hp hbit (by omega)
      have hnext := hext.next_eq
      rw [hr]
      exact ih (fun bit' hbit' => hbits bit' (List.mem_cons_of_mem _ hbit')) hext.good
        (h0.mono hext) (h1.mono hext) hcar (by omega) (by omega)
    · rw [hashWires_panic hgadget hn hmin (hp.length_eq.trans (by simp)) hbit hnonneg hb.next_le
        (by omega)]
      rfl

end Builder

open Builder in
/-- A derivation which needs more wires than an `i32` can number panics. -/
theorem buildDerivationCircuit_panic {compress : Block64 → Value32} {gadget : Circuit}
    (hgadget : CompressionGadget compress gadget) {index : ℕ} (hindex : index ≤ maxIndex)
    (hover : i32Max < derivationWires gadget index) :
    buildDerivationCircuit gadget index = .error .panic := by
  obtain ⟨n, hn, hmin⟩ := hgadget.numWire_nat
  rw [derivationWires_eq hn hmin] at hover
  rw [buildDerivationCircuit_eq hgadget hindex]
  obtain ⟨r, hr, hgood, hnext, hc0, hc1, hp⟩ := shareWires_spec ⟨.replicate 32 0⟩ ⟨.replicate 32 0⟩
  have hbits (bit : ℕ) (hbit : bit ∈ setBitsDesc index) : bit < indexBits :=
    (mem_setBitsDesc.mp hbit).1
  rw [hr]
  simp only [bind, Except.bind]
  by_cases hfit : r.2.2.next + ((setBitsDesc index).length * (n - 511) : ℕ) ≤ i32Max
  · -- The hashes fit, so the copy onto the last wires does not.
    obtain ⟨s, hs, hext, hhash⟩ := hashLoop_spec hgadget hn hmin _ hbits hgood hc0 hc1 hp hfit
    have hlen : s.1.length = 256 := hhash.length_eq.trans (by simp)
    have hle := hext.good.next_le
    have hpos : 0 ≤ s.2.next := le_trans (Int.natCast_nonneg _) hext.good.inputs_le
    have hnext' := hext.next_eq
    simp only [hs]
    rw [xorPairs_panic _ hpos hle (by rw [List.length_map, hlen]; omega)]
  · simp only [hashLoop_panic hgadget hn hmin _ hbits hgood hc0 hc1 hp (by omega)]

/-- On a zero seed and index 1, a gadget of the assumed kind and of `i32::MAX` wires leaves the
builder no wire numbers: it panics instead of returning a circuit. -/
theorem buildDerivationCircuit_panic_one :
    CompressionGadget (fun _ => firstEdgeDigest) (constantGadget (2 ^ 31 - 1) firstEdgeDigest) ∧
      1 ≤ maxIndex ∧
      ¬ Yields (buildDerivationCircuit (constantGadget (2 ^ 31 - 1) firstEdgeDigest) 1) fun c =>
        evalBristol c
            ((⟨.replicate 32 0⟩ : Value32).toBitsMsb ++ (⟨.replicate 32 0⟩ : Value32).toBitsMsb) =
          .ok (generateFromSeed (sha256Digest fun _ => firstEdgeDigest)
            ((⟨.replicate 32 0⟩ : Value32).xor ⟨.replicate 32 0⟩) 1).toBitsMsb := by
  have hgadget : CompressionGadget (fun _ => firstEdgeDigest)
      (constantGadget (2 ^ 31 - 1) firstEdgeDigest) :=
    constantGadget_compression (by decide) (by decide)
  refine ⟨hgadget, by decide, ?_⟩
  rintro ⟨c, hc, -⟩
  rw [buildDerivationCircuit_panic hgadget (by decide) (by decide)] at hc
  cases hc

end Shachain2pc
