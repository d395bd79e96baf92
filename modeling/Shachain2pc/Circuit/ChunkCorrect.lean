import Shachain2pc.Circuit.ChunkCircuit
import Shachain2pc.Circuit.DerivationCorrect

/-!
# Chunk circuits hash along their bits

The first chunk XORs the two shares of the seed, and every other chunk starts from a value.
-/

namespace Shachain2pc

open Rust

/-- The inputs of a chunk circuit and the value it starts from. -/
inductive ChunkBits : Bool → List UInt8 → Value32 → Prop where
  | shares (a b : Value32) : ChunkBits true (a.toBitsMsb ++ b.toBitsMsb) (a.xor b)
  | value (v : Value32) : ChunkBits false v.toBitsMsb v

/-- The inputs of a chunk circuit are two values or one. -/
theorem ChunkBits.length {first : Bool} {x : List UInt8} {v : Value32} (h : ChunkBits first x v) :
    x.length = if first then 2 * valueBits else valueBits := by
  cases h with
  | shares a b => simp [valueBits]
  | value v => simp [valueBits]

/-- The inputs of a chunk circuit are bits. -/
theorem ChunkBits.and_one {first : Bool} {x : List UInt8} {v : Value32} (h : ChunkBits first x v) :
    ∀ bit ∈ x, bit &&& 1 = bit := by
  intro bit hbit
  cases h with
  | shares a b =>
    rcases List.mem_append.mp hbit with hleft | hright
    · exact and_one_of_mem_bitsMsb hleft
    · exact and_one_of_mem_bitsMsb hright
  | value v => exact and_one_of_mem_bitsMsb hbit

namespace Builder

variable {x : List UInt8} {b : Builder}

/-- The wires a chunk starts from carry its value. -/
theorem startWires_spec {first : Bool} {v : Value32} (hin : ChunkBits first x v) (hb : Good x b)
    {n : ℕ} (hext : Extends x (new x.length) n b) (hfit : b.next + valueBits ≤ i32Max) :
    Yields (b.startWires first) fun r =>
      Extends x b (if first then valueBits else 0) r.2 ∧
        List.Forall₂ (Carries x r.2) r.1 v.toBitsMsb := by
  cases hin with
  | shares a c =>
    have hpairs : sharePairs.length = valueBits := by simp [sharePairs]
    have hshares := sharePairs_carry a c
    have hnew : (a.toBitsMsb ++ c.toBitsMsb).length = 512 := by simp
    rw [hnew] at hext
    refine (xorPairs_spec hb (carries_mono hshares.1 hext) (carries_mono hshares.2 hext)
      (by rw [hpairs]; exact hfit)).mono fun r hr => ?_
    rw [hpairs, ← toBitsMsb_xor] at hr
    exact ⟨hr.1, hr.2.2⟩
  | value v =>
    have hsplit : v.toBitsMsb = [] ++ v.toBitsMsb ++ [] := by simp
    have hmax : (v.toBitsMsb.length : ℤ) ≤ i32Max := by
      rw [Value32.toBitsMsb_length, i32Max]
      omega
    have hvalue := new_carries hsplit hmax fun _ => and_one_of_mem_bitsMsb
    refine .ok ⟨hb.extends, ?_⟩
    have hwires := carries_mono hvalue hext
    simpa [valueWires, valueBits] using hwires

variable {compress : Block64 → Value32} {gadget : Circuit} {n : ℕ}

/-- The gates of a chunk leave the hashed value on the last wires. -/
theorem chunkGates_spec (hgadget : CompressionGadget compress gadget) (hn : gadget.numWire = n)
    (hmin : 512 ≤ n) {bits : List ℕ} (hbits : ∀ bit ∈ bits, bit < indexBits) {first : Bool}
    {v : Value32} (hin : ChunkBits first x v)
    (hfit : 1026 + (bits.length * (n - 511) : ℕ) ≤ i32Max) :
    Yields (chunkGates gadget bits first (new x.length)) fun b =>
      Good x b ∧ b.next ≤ 1026 + (bits.length * (n - 511) : ℕ) ∧ valueBits ≤ b.next ∧
        List.Forall₂ (Carries x b) ((List.range valueBits).map fun k : ℕ => b.next - valueBits + k)
          (hashBits (sha256Digest compress) v bits).toBitsMsb := by
  have hi32 : i32Max = 2147483647 := by decide
  have hlen : 0 < x.length ∧ x.length ≤ 512 := by
    rw [hin.length]
    split <;> decide
  have hgood : Good x (new x.length) := new_good (by rw [hi32]; omega)
  have hnext : (new x.length).next = x.length := rfl
  have hzero : Carries x (new x.length) 0 x[0] :=
    new_carries_input (by rw [hi32]; omega) hlen.1 (hin.and_one _ (List.getElem_mem _))
  -- The constant wires.
  refine (xorW_spec hgood (by rw [hi32, hnext]; omega) hzero hzero).bind fun r0 hr0 => ?_
  obtain ⟨hext0, -, hc0⟩ := hr0
  rw [UInt8.xor_self] at hc0
  have hnext0 := hext0.next_eq
  refine (invW_spec hext0.good (by omega) hc0).bind fun r1 hr1 => ?_
  obtain ⟨hext1, -, hc1⟩ := hr1
  rw [UInt8.zero_xor] at hc1
  have hnext1 := hext1.next_eq
  -- The value, hashed along the bits.
  refine (startWires_spec hin hext1.good (hext0.trans hext1)
    (by rw [hi32, valueBits]; omega)).bind fun r2 hr2 => ?_
  obtain ⟨hext2, hvalue⟩ := hr2
  have hnext2 : r2.2.next ≤ 770 := by
    rw [hext2.next_eq]
    cases hin <;> simp [valueBits] <;> simp at hnext hnext0 <;> omega
  refine (hashLoop_spec hgadget hn hmin bits hbits hext2.good ((hc0.mono hext1).mono hext2)
    (hc1.mono hext2) hvalue (by omega)).bind fun r3 hr3 => ?_
  obtain ⟨hext3, hhash⟩ := hr3
  have hnext3 := hext3.next_eq
  -- The copy onto the last wires.
  have hp : r3.1.length = valueBits := hhash.length_eq.trans (by simp [valueBits])
  change Yields (r3.2.xorPairs ((r3.1.take valueBits).map _) >>= _) _
  rw [List.take_of_length_le hp.le]
  refine (copyWires_spec hext3.good hhash (((hc0.mono hext1).mono hext2).mono hext3)
    (by rw [hp, valueBits]; omega)).bind fun r4 hr4 => ?_
  obtain ⟨hext4, hcopy⟩ := hr4
  rw [hp] at hext4 hcopy
  have hnext4 := hext4.next_eq
  have hbase : r4.2.next - (valueBits : ℕ) = r3.2.next := by omega
  have hnonneg := (Int.natCast_nonneg _).trans hext3.good.inputs_le
  refine .ok ⟨hext4.good, ?_, by omega, ?_⟩
  · rw [hnext4, hnext3, valueBits]
    omega
  · rw [hbase]
    exact hcopy

end Builder

/-- A chunk circuit is built and hashes the value it starts from along its bits. -/
theorem buildChunkCircuit_correct {compress : Block64 → Value32} {gadget : Circuit}
    (hgadget : CompressionGadget compress gadget) {n : ℕ} (hn : gadget.numWire = n) {bits : List ℕ}
    (hbits : ∀ bit ∈ bits, bit < indexBits) {first : Bool} {x : List UInt8} {v : Value32}
    (hin : ChunkBits first x v) (hfit : 1026 + (bits.length * (n - 511) : ℕ) ≤ i32Max) :
    Yields (buildChunkCircuit gadget bits first) fun c =>
      c.numWire ≤ 1026 + (bits.length * (n - 511) : ℕ) ∧
        evalBristol c x = .ok (hashBits (sha256Digest compress) v bits).toBitsMsb := by
  obtain ⟨n', hn', hmin⟩ := hgadget.numWire_nat
  have hsame : n' = n := by omega
  subst hsame
  have hwidth : (checkedI32 (gadget.n1 + gadget.n2) : Outcome CircuitError ℤ) = .ok 512 := by
    rw [hgadget.width]
    exact checkedI32_ok (by decide) (by decide)
  have hany : ¬ bits.any (indexBits ≤ ·) = true := by
    rw [List.any_eq_true]
    intro ⟨bit, hmem, hge⟩
    exact absurd (hbits bit hmem) (Nat.not_lt_of_le (of_decide_eq_true hge))
  have hnew : (if first then 2 * (valueBits : ℤ) else valueBits) = x.length := by
    have hlength := hin.length
    cases first
    · exact (congrArg Nat.cast hlength).symm
    · simp only [if_true] at hlength ⊢
      omega
  have hn1 :
      (if first then (valueBits : ℤ) else 0) = ((if first then valueBits else 0 : ℕ) : ℤ) := by
    cases first <;> rfl
  rw [buildChunkCircuit, hwidth]
  change Yields (if (512 : ℤ) ≠ 512 ∨ gadget.n3 ≠ valueBits then _ else _) _
  rw [if_neg (by rw [hgadget.outputs]; simp [valueBits]), if_neg hany, hnew]
  refine (Builder.chunkGates_spec hgadget hn hmin hbits hin hfit).bind fun b hb => ?_
  obtain ⟨hgood, hnext, hroom, hcarries⟩ := hb
  rw [hn1]
  refine .ok ⟨hnext, Builder.finish_eval hgood ?_ hroom hcarries⟩
  have hlength := hin.length
  cases first
  · exact hlength.symm
  · simp only [if_true] at hlength ⊢
    omega

end Shachain2pc
