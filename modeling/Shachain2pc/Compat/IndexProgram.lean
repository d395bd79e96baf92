import Shachain2pc.Circuit.ChunkCorrect
import Shachain2pc.Compat.DirectPrograms

/-!
# The program of an index

The circuit of an index has the gates of a first chunk with all bits of the index. So the program
which is made of it is the direct program of that chunk.
-/

namespace Shachain2pc

open Rust

variable {compress : Block64 → Value32} {gadget : Circuit} {index : ℕ}

/-- The circuit of an index is that of a first chunk with its bits. -/
theorem buildDerivationCircuit_eq_chunk (hgadget : CompressionGadget compress gadget)
    (hindex : index ≤ maxIndex) (hfits : derivationWires gadget index ≤ i32Max) :
    buildDerivationCircuit gadget index = buildChunkCircuit gadget (setBitsDesc index) true := by
  obtain ⟨n, hn, hmin⟩ := hgadget.numWire_nat
  rw [derivationWires_eq hn hmin] at hfits
  have hbits : ∀ bit ∈ setBitsDesc index, bit < indexBits :=
    fun _ hbit => (mem_setBitsDesc.mp hbit).1
  have hany : ¬(setBitsDesc index).any (indexBits ≤ ·) = true := by
    rw [List.any_eq_true]
    rintro ⟨bit, hmem, hge⟩
    exact absurd (hbits bit hmem) (Nat.not_lt_of_le (of_decide_eq_true hge))
  have hwidth : (checkedI32 (gadget.n1 + gadget.n2) : Outcome CircuitError ℤ) = .ok 512 := by
    rw [hgadget.width]
    exact checkedI32_ok (by decide) (by decide)
  obtain ⟨r, hr, hgood, hnext, hc0, hc1, hp⟩ :=
    Builder.shareWires_spec (Value32.ofList []) (Value32.ofList [])
  obtain ⟨s, hs, -, hhash⟩ :=
    Builder.hashLoop_spec hgadget hn hmin (setBitsDesc index) hbits hgood hc0 hc1 hp
    (by omega)
  -- The hashed value has one wire for each bit, so that the chunk copies all of them.
  have hlen : s.1.length = valueBits := hhash.length_eq.trans (by simp [valueBits])
  obtain ⟨r0, hr0, hr⟩ := bind_eq_ok hr
  obtain ⟨r1, hr1, hr⟩ := bind_eq_ok hr
  obtain ⟨r2, hr2, hr⟩ := bind_eq_ok hr
  cases hr
  have hstart : r1.2.startWires true = .ok r2 := hr2
  have hsteps : (setBitsDesc index).foldlM (Builder.chunkStep gadget r0.1 r1.1) r2 = .ok s := hs
  rw [buildDerivationCircuit_eq hgadget hindex, buildChunkCircuit, hwidth, Builder.shareWires]
  change _ = (if (512 : ℤ) ≠ 512 ∨ gadget.n3 ≠ valueBits then _ else _)
  rw [if_neg (by rw [hgadget.outputs]; simp [valueBits]), if_neg hany, Builder.chunkGates]
  simp only [if_true, hr0, hr1, hr2, hs, hstart, hsteps, bind, Except.bind]
  rw [List.take_of_length_le hlen.le]
  cases s.2.xorPairs (s.1.map fun wire => (wire, r0.1)) with
  | error e => rfl
  | ok copied => rfl

/-- No index has more wires than the highest. -/
theorem derivationWires_le (hgadget : CompressionGadget compress gadget) (index : ℕ) :
    derivationWires gadget index ≤ derivationWires gadget maxIndex := by
  obtain ⟨n, hn, hmin⟩ := hgadget.numWire_nat
  have hcount : (setBitsDesc index).length ≤ (setBitsDesc maxIndex).length := by
    have hall : (setBitsDesc maxIndex).length = bitsDesc.length := by decide +kernel
    rw [hall]
    exact List.length_filter_le _ bitsDesc
  rw [derivationWires_eq hn hmin, derivationWires_eq hn hmin]
  exact_mod_cast Nat.add_le_add_left (Nat.mul_le_mul_right (n - 511) hcount) 1026

/-- The program of the circuit of an index is the direct program of a first chunk with its bits. -/
theorem fromCircuit_index (hgadget : DirectGadget compress gadget)
    (hwires : derivationWires gadget maxIndex < gateWireLimit) (hindex : index ≤ maxIndex) :
    ∃ circuit program, buildDerivationCircuit gadget index = .ok circuit ∧
    fromCircuit circuit = .ok program ∧
      chunkFromSha gadget (setBitsDesc index) true = .ok program := by
  have hlt := (derivationWires_le hgadget.toCompressionGadget index).trans_lt hwires
  have hfits : derivationWires gadget index ≤ i32Max := by
    unfold gateWireLimit at hlt
    unfold i32Max
    omega
  obtain ⟨n, hn, hmin⟩ := hgadget.numWire_nat
  have hbits : ∀ bit ∈ setBitsDesc index, bit < indexBits :=
    fun _ hbit => (mem_setBitsDesc.mp hbit).1
  obtain ⟨program, hprogram, -⟩ :=
    chunkFromSha_spec hgadget hbits (List.length_filter_le _ bitsDesc)
    (.shares (Value32.ofList []) (Value32.ofList []))
  have hcount := hfits
  rw [derivationWires_eq hn hmin] at hcount
  obtain ⟨circuit, hcircuit, hnumWire, -⟩ :=
    buildChunkCircuit_correct hgadget.toCompressionGadget hn hbits
    (.shares (Value32.ofList []) (Value32.ofList [])) hcount
  refine ⟨circuit, program, ?_, ?_, hprogram⟩
  · rw [buildDerivationCircuit_eq_chunk hgadget.toCompressionGadget hindex hfits, hcircuit]
  · rw [derivationWires_eq hn hmin] at hlt
    exact chunkFromSha_eq_fromCircuit hgadget.toCompressionGadget.assignsOnce hprogram hcircuit
      (hnumWire.trans_lt hlt)

end Shachain2pc
