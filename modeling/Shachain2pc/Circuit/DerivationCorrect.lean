import Shachain2pc.Circuit.ConstantGadget

/-!
# The derivation circuit computes the shachain derivation

Each builder loop is followed by the value its wires carry: the XOR of the shares, then
one hash for each set bit, then a copy onto the last wires of the circuit. The only
arithmetic side condition is that the copies keep the `i32` wire counter in range.
-/

namespace Shachain2pc

open Rust

/-- The builder's constant block is the padding SHA-256 prescribes. -/
theorem paddingBytes_eq : paddingBytes = sha256Padding := by
  decide

namespace Builder

variable {x : List UInt8} {b : Builder}

/-- The padding wires carry the padding bits. -/
theorem paddingWires_carry {c0 c1 : ℤ} (h0 : Carries x b c0 0) (h1 : Carries x b c1 1) :
    List.Forall₂ (Carries x b) (paddingWires c0 c1) paddingBits := by
  rw [paddingWires, List.forall₂_map_left_iff, List.forall₂_same]
  intro bit hbit
  rcases eq_zero_or_one_of_mem_bitsMsb hbit with rfl | rfl
  · exact h0
  · exact h1

/-- XORed pairs are consecutive fresh wires carrying the pairwise XORs. -/
theorem xorPairs_spec (hb : Good x b) {pairs : List (ℤ × ℤ)} {left right : List UInt8}
    (hleft : List.Forall₂ (Carries x b) (pairs.map Prod.fst) left)
    (hright : List.Forall₂ (Carries x b) (pairs.map Prod.snd) right)
    (hfit : b.next + pairs.length ≤ i32Max) :
    Yields (b.xorPairs pairs) fun r =>
      Extends x b pairs.length r.2 ∧
        r.1 = (List.range pairs.length).map (fun k : ℕ => b.next + k) ∧
        List.Forall₂ (Carries x r.2) r.1 (List.zipWith (· ^^^ ·) left right) := by
  induction pairs generalizing b left right with
  | nil =>
    simp only [List.map_nil, List.forall₂_nil_left_iff] at hleft
    subst hleft
    exact .ok ⟨hb.extends, rfl, List.Forall₂.nil⟩
  | cons pair rest ih =>
    obtain ⟨in0, in1⟩ := pair
    simp only [List.map_cons, List.length_cons] at hleft hright hfit
    cases hleft with
    | cons h0 hleft =>
      cases hright with
      | cons h1 hright =>
        refine (xorW_spec hb (by push_cast at hfit; omega) h0 h1).bind fun r hr => ?_
        obtain ⟨hext, hout, hcar⟩ := hr
        have hnext := hext.next_eq
        refine (ih hext.good (carries_mono hleft hext) (carries_mono hright hext)
          (by push_cast at hfit hnext; omega)).bind fun s hs => ?_
        obtain ⟨hext', houts, hcars⟩ := hs
        have hlen : 1 + rest.length = ((in0, in1) :: rest).length := by simp [Nat.add_comm]
        refine .ok ⟨hlen ▸ hext.trans hext', ?_, List.Forall₂.cons (hcar.mono hext') hcars⟩
        rw [houts, hout, hnext, List.length_cons, List.range_succ_eq_map]
        simp only [List.map_cons, List.map_map, Int.ofNat_zero, add_zero]
        congr 1
        apply List.map_congr_left
        intro k _
        simp only [Function.comp_apply]
        omega

/-- XOR with a zero wire copies a value onto consecutive fresh wires. -/
theorem copyWires_spec (hb : Good x b) {p : List ℤ} {vs : List UInt8}
    (hp : List.Forall₂ (Carries x b) p vs) {c0 : ℤ} (h0 : Carries x b c0 0)
    (hfit : b.next + p.length ≤ i32Max) :
    Yields (b.xorPairs (p.map fun wire => (wire, c0))) fun r =>
      Extends x b p.length r.2 ∧
        List.Forall₂ (Carries x r.2) ((List.range p.length).map fun k : ℕ => b.next + k) vs := by
  have hzero : List.Forall₂ (Carries x b) ((p.map fun wire => (wire, c0)).map Prod.snd)
      (vs.map fun _ => 0) := by
    rw [List.map_map, List.forall₂_map_left_iff, List.forall₂_map_right_iff]
    exact hp.imp fun _ _ _ => h0
  have hvals : List.Forall₂ (Carries x b) ((p.map fun wire => (wire, c0)).map Prod.fst) vs := by
    simpa [Function.comp_def] using hp
  refine (xorPairs_spec hb hvals hzero (by simpa using hfit)).mono fun r hr => ?_
  obtain ⟨hext, hout, hcar⟩ := hr
  rw [List.length_map] at hext hout
  rw [List.zipWith_map_right, List.zipWith_self] at hcar
  refine ⟨hext, hout ▸ ?_⟩
  simpa using hcar

/-- One loop body extends the builder by an inverter and a gadget copy, and replaces the
wires of a value by the wires of its hash. -/
theorem hashWires_spec {compress : Block64 → Value32} {gadget : Circuit}
    (hgadget : CompressionGadget compress gadget) {n : ℕ} (hn : gadget.numWire = n)
    (hb : Good x b) {c0 c1 : ℤ} (h0 : Carries x b c0 0) (h1 : Carries x b c1 1)
    {p : List ℤ} {v : Value32} (hp : List.Forall₂ (Carries x b) p v.toBitsMsb) {bit : ℕ}
    (hbit : bit < indexBits) (hfit : b.next + n - 511 ≤ i32Max) :
    Yields (b.hashWires gadget c0 c1 p bit) fun r =>
      Extends x b (n - 511) r.2 ∧
        List.Forall₂ (Carries x r.2) r.1 (hashBit (sha256Digest compress) v bit).toBitsMsb := by
  have hshape := evalBristol_shape (hgadget.computes (Vector.replicate 64 0))
  have hcast : asUsize gadget.numWire = n := by
    have := natCast_asUsize hgadget.numWire_i32.1 hgadget.numWire_i32.2 hshape.2.1
    omega
  rw [hcast] at hshape
  obtain ⟨hin, -, hgates, hslice⟩ := hshape
  simp only [bitsMsb_length] at hin
  have hplen : p.length = 256 := hp.length_eq.trans (by simp)
  have hidx : flipBitIndex bit < 256 := by
    unfold flipBitIndex
    unfold indexBits at hbit
    omega
  -- Flip one wire.
  have hread : (readSlot p (flipBitIndex bit) : Outcome CircuitError ℤ) =
      .ok p[flipBitIndex bit] := by
    simp [readSlot, hplen, hidx]
  have hwire := hp.get (i := flipBitIndex bit) (by omega) (by simpa using hidx)
  simp only [List.get_eq_getElem] at hwire
  rw [hashWires, hread]
  refine (invW_spec hb (by omega) hwire).bind fun r hr => ?_
  obtain ⟨hext, -, hcar⟩ := hr
  have hflip : List.Forall₂ (Carries x r.2) (p.set (flipBitIndex bit) r.1)
      (v.flipBit bit).toBitsMsb := by
    rw [toBitsMsb_flipBit]
    apply List.forall₂_iff_get.mpr
    refine ⟨by simp [hplen], fun i hi hi' => ?_⟩
    simp only [List.get_eq_getElem, List.getElem_set, List.getElem_modify]
    by_cases hi0 : flipBitIndex bit = i
    · subst hi0
      simpa using hcar
    · have hi1 : i < p.length := by simpa using hi
      simp only [if_neg hi0]
      exact (hp.get hi1 (by simpa [hplen] using hi1)).mono hext
  -- Hash the block.
  have hvals : List.Forall₂ (Carries x r.2)
      (p.set (flipBitIndex bit) r.1 ++ paddingWires c0 c1)
      (bitsMsb ((v.flipBit bit).bytes ++ sha256Padding)) := by
    rw [bitsMsb_append, ← paddingBytes_eq]
    exact List.rel_append hflip (paddingWires_carry (h0.mono hext) (h1.mono hext))
  have hlen : (p.set (flipBitIndex bit) r.1 ++ paddingWires c0 c1).length = 512 :=
    hvals.length_eq.trans (by simp)
  have hnext := hext.next_eq
  have hmax : (n : ℤ) ≤ i32Max := hn ▸ hgadget.numWire_i32.2
  have hcopy : Copyable x r.2 gadget (p.set (flipBitIndex bit) r.1 ++ paddingWires c0 c1) n := by
    refine ⟨hext.good, fun w hw => ?_, by rw [hlen]; exact hgadget.width, hn, by omega, hgates,
      by rw [hlen]; exact hgadget.writes, by rw [hlen]; push_cast at hnext; omega⟩
    obtain ⟨i, hi, rfl⟩ := List.getElem_of_mem hw
    exact (hvals.get hi (hvals.length_eq ▸ hi)).asUsize_lt hext.good
  have hout : 256 ≤ n := by
    have : asUsize gadget.n3 = 256 := by rw [hgadget.outputs]; rfl
    omega
  have hn3 : gadget.n3 = (256 : ℕ) := hgadget.outputs
  refine (applyGadget_spec hcopy hvals (fun _ => and_one_of_mem_bitsMsb)
    (hgadget.computes ((v.flipBit bit).bytes ++ sha256Padding)) hn3 hmax hout).mono fun s hs => ?_
  obtain ⟨hext', hcars⟩ := hs
  rw [hlen] at hext'
  have hcount : 1 + (n - 512) = n - 511 := by omega
  exact ⟨hcount ▸ hext.trans hext', hcars⟩

/-- The index loop hashes along its bits. -/
theorem hashLoop_spec {compress : Block64 → Value32} {gadget : Circuit}
    (hgadget : CompressionGadget compress gadget) {n : ℕ} (hn : gadget.numWire = n) (hmin : 512 ≤ n)
    {c0 c1 : ℤ} (bits : List ℕ) (hbits : ∀ bit ∈ bits, bit < indexBits)
    (hb : Good x b) (h0 : Carries x b c0 0) (h1 : Carries x b c1 1)
    {p : List ℤ} {v : Value32} (hp : List.Forall₂ (Carries x b) p v.toBitsMsb)
    (hfit : b.next + (bits.length * (n - 511) : ℕ) ≤ i32Max) :
    Yields (bits.foldlM (fun s bit => s.2.hashWires gadget c0 c1 s.1 bit) (p, b)) fun r =>
      Extends x b (bits.length * (n - 511)) r.2 ∧
        List.Forall₂ (Carries x r.2) r.1 (hashBits (sha256Digest compress) v bits).toBitsMsb := by
  induction bits generalizing b p v with
  | nil => exact .ok ⟨by simpa using hb.extends, hp⟩
  | cons bit rest ih =>
    rw [List.length_cons, Nat.succ_mul] at hfit ⊢
    rw [List.foldlM_cons]
    refine (hashWires_spec hgadget hn hb h0 h1 hp (hbits bit List.mem_cons_self)
      (by omega)).bind fun r hr => ?_
    obtain ⟨hext, hcar⟩ := hr
    have hnext := hext.next_eq
    refine (ih (fun bit' hbit' => hbits bit' (List.mem_cons_of_mem _ hbit')) hext.good
      (h0.mono hext) (h1.mono hext) hcar (by omega)).mono fun s hs => ?_
    exact ⟨Nat.add_comm (n - 511) _ ▸ hext.trans hs.1, hs.2⟩

/-- A fresh builder numbers exactly its inputs. -/
theorem new_good {x : List UInt8} (hmax : (x.length : ℤ) ≤ i32Max) : Good x (new x.length) :=
  ⟨le_rfl, hmax, by simp [new]⟩

/-- An input wire of a fresh builder carries its masked input. -/
theorem new_carries_input (hmax : (x.length : ℤ) ≤ i32Max) {i : ℕ} (hi : i < x.length)
    (hbit : x[i] &&& 1 = x[i]) : Carries x (new x.length) i x[i] := by
  refine ⟨by omega, by simpa [new] using hi, ?_⟩
  have hcast : asUsize (i : ℤ) = i := asUsize_natCast (by unfold i32Max at hmax; omega)
  simp [value, new, gateMeaning, hcast, inputEnv, hi, hbit]

/-- Consecutive input wires of a fresh builder carry the corresponding inputs. -/
theorem new_carries {pre mid post : List UInt8} (hx : x = pre ++ mid ++ post)
    (hmax : (x.length : ℤ) ≤ i32Max) (hbits : ∀ v ∈ mid, v &&& 1 = v) :
    List.Forall₂ (Carries x (new x.length))
      ((List.range mid.length).map fun i : ℕ => (pre.length + i : ℤ)) mid := by
  apply List.forall₂_iff_get.mpr
  refine ⟨by simp, fun i hi hi' => ?_⟩
  simp only [List.get_eq_getElem, List.getElem_map, List.getElem_range]
  have hlen := congrArg List.length hx
  simp only [List.length_append] at hlen
  have hlt : pre.length + i < x.length := by omega
  have hget : x[pre.length + i] = mid[i] := by
    subst hx
    rw [List.getElem_append_left (by simp; omega), List.getElem_append_right (by omega)]
    simp
  have hcar := new_carries_input hmax (i := pre.length + i) (by omega)
    (by rw [hget]; exact hbits _ (List.getElem_mem hi'))
  rw [hget] at hcar
  exact_mod_cast hcar

/-- A finished builder evaluates to the values carried by its last wires. -/
theorem finish_eval (hb : Good x b) {n1 n2 n3 : ℕ} (hwidth : n1 + n2 = x.length) {out : List UInt8}
    (hn3 : (n3 : ℤ) ≤ b.next)
    (hout : List.Forall₂ (Carries x b) ((List.range n3).map fun k : ℕ => b.next - n3 + k) out) :
    evalBristol (b.finish n1 n2 n3) x = .ok out := by
  have hnext := hb.asUsize_next
  have hle := hb.inputs_le
  have hmax := hb.next_le
  have hn3' : (b.finish n1 n2 n3).n3 = n3 := rfl
  rw [evalBristol_eq (b.finish n1 n2 n3) x hnext.symm hn3'
    (by simp only [finish]; omega) (by omega) (by omega) (by omega) hb.inRange]
  congr 1
  apply List.ext_getElem
  · simpa using hout.length_eq
  · intro k hk hk'
    have hcar := hout.get (i := k) (by simpa using hk) hk'
    simp only [List.length_map, List.length_range] at hk
    simp only [List.get_eq_getElem, List.getElem_map, List.getElem_range] at hcar ⊢
    rw [← hcar.value_eq, value]
    congr 1
    unfold asUsize i32Max at *
    omega

/-- On two shares, the paired wires of a fresh builder carry the bits of the shares. -/
theorem sharePairs_carry (a b : Value32) :
    List.Forall₂ (Carries (a.toBitsMsb ++ b.toBitsMsb) (new 512))
        (sharePairs.map Prod.fst) a.toBitsMsb ∧
      List.Forall₂ (Carries (a.toBitsMsb ++ b.toBitsMsb) (new 512))
        (sharePairs.map Prod.snd) b.toBitsMsb := by
  have hlen : (a.toBitsMsb ++ b.toBitsMsb).length = 512 := by simp
  have hmax : ((a.toBitsMsb ++ b.toBitsMsb).length : ℤ) ≤ i32Max := by
    rw [hlen, i32Max]
    omega
  have hsplit : a.toBitsMsb ++ b.toBitsMsb = [] ++ a.toBitsMsb ++ b.toBitsMsb := by simp
  have hsplit' : a.toBitsMsb ++ b.toBitsMsb = a.toBitsMsb ++ b.toBitsMsb ++ [] := by simp
  have hleft := new_carries hsplit hmax fun _ => and_one_of_mem_bitsMsb
  have hright := new_carries hsplit' hmax fun _ => and_one_of_mem_bitsMsb
  rw [hlen] at hleft hright
  simp only [Value32.toBitsMsb_length, List.length_nil] at hleft hright
  constructor
  · simpa [sharePairs, valueBits, Function.comp_def] using hleft
  · simpa [sharePairs, valueBits, Function.comp_def] using hright

/-- The prologue numbers the constant wires and the XOR of the shares. -/
theorem shareWires_spec (a b : Value32) :
    Yields shareWires fun r =>
      Good (a.toBitsMsb ++ b.toBitsMsb) r.2.2 ∧ r.2.2.next = 770 ∧
        Carries (a.toBitsMsb ++ b.toBitsMsb) r.2.2 r.1.1 0 ∧
        Carries (a.toBitsMsb ++ b.toBitsMsb) r.2.2 r.1.2 1 ∧
        List.Forall₂ (Carries (a.toBitsMsb ++ b.toBitsMsb) r.2.2) r.2.1 (a.xor b).toBitsMsb := by
  have hlen : (a.toBitsMsb ++ b.toBitsMsb).length = 512 := by simp
  have hi32 : i32Max = 2147483647 := by decide
  have hgood : Good (a.toBitsMsb ++ b.toBitsMsb) (new 512) := by
    have hnew := new_good (x := a.toBitsMsb ++ b.toBitsMsb) (by rw [hlen]; omega)
    rwa [hlen] at hnew
  have hshares := sharePairs_carry a b
  have hw0 : Carries (a.toBitsMsb ++ b.toBitsMsb) (new 512) 0 (a.toBitsMsb.get ⟨0, by simp⟩) := by
    have hget := hshares.1.get (i := 0) (by simp [sharePairs, valueBits]) (by simp)
    simpa [sharePairs, valueBits] using hget
  refine (xorW_spec hgood (by rw [hi32]; simp [new]) hw0 hw0).bind fun r0 hr0 => ?_
  obtain ⟨hext0, -, hc0⟩ := hr0
  rw [UInt8.xor_self] at hc0
  have hnext0 : r0.2.next = 513 := hext0.next_eq
  refine (invW_spec hext0.good (by omega) hc0).bind fun r1 hr1 => ?_
  obtain ⟨hext1, -, hc1⟩ := hr1
  rw [UInt8.zero_xor] at hc1
  have hnext1 : r1.2.next = 514 := by rw [hext1.next_eq, hnext0]; rfl
  have hpairs : sharePairs.length = 256 := by simp [sharePairs, valueBits]
  have hext01 := hext0.trans hext1
  refine (xorPairs_spec hext1.good (carries_mono hshares.1 hext01) (carries_mono hshares.2 hext01)
    (by omega)).bind fun r2 hr2 => ?_
  obtain ⟨hext2, -, hp⟩ := hr2
  rw [← toBitsMsb_xor] at hp
  have hnext2 : r2.2.next = 770 := by rw [hext2.next_eq, hnext1, hpairs]; rfl
  exact .ok ⟨hext2.good, hnext2, (hc0.mono hext1).mono hext2, hc1.mono hext2, hp⟩

end Builder

/-- A gadget of the assumed kind declares a natural number of wires, at least its inputs. -/
theorem CompressionGadget.numWire_nat {compress : Block64 → Value32} {gadget : Circuit}
    (hgadget : CompressionGadget compress gadget) : ∃ n : ℕ, gadget.numWire = n ∧ 512 ≤ n := by
  have hshape := evalBristol_shape (hgadget.computes (Vector.replicate 64 0))
  have hnum := natCast_asUsize hgadget.numWire_i32.1 hgadget.numWire_i32.2 hshape.2.1
  exact ⟨_, hnum.symm, by simpa using hshape.1⟩

/-- The wires a derivation numbers, as a natural number. -/
theorem derivationWires_eq {gadget : Circuit} {n : ℕ} (hn : gadget.numWire = n) (hmin : 512 ≤ n)
    (index : ℕ) :
    derivationWires gadget index = (1026 + (setBitsDesc index).length * (n - 511) : ℕ) := by
  have hsub : gadget.numWire - 511 = ((n - 511 : ℕ) : ℤ) := by omega
  rw [derivationWires, hsub, Int.natCast_add, Int.natCast_mul]
  rfl

/-- The derivation builder on an accepted index and a gadget of the right shape: prologue, one
hash for each set bit, and the copy onto the last wires. -/
theorem buildDerivationCircuit_eq {compress : Block64 → Value32} {gadget : Circuit}
    (hgadget : CompressionGadget compress gadget) {index : ℕ} (hindex : index ≤ maxIndex) :
    buildDerivationCircuit gadget index = (do
      let ((c0, c1), p, b) ← Builder.shareWires
      let (p, b) ← (setBitsDesc index).foldlM
        (fun s bit => s.2.hashWires gadget c0 c1 s.1 bit) (p, b)
      let (_, b) ← b.xorPairs (p.map fun wire => (wire, c0))
      .ok (b.finish valueBits valueBits valueBits)) := by
  have hwidth : checkedI32 (gadget.n1 + gadget.n2) = (.ok 512 : Outcome CircuitError ℤ) := by
    rw [hgadget.width]
    exact checkedI32_ok (by decide) (by decide)
  have hloop {c0 c1 : ℤ} (s : List ℤ × Builder) : bitsDesc.foldlM
      (fun s bit => if index.testBit bit then s.2.hashWires gadget c0 c1 s.1 bit else .ok s) s =
      (setBitsDesc index).foldlM (fun s bit => s.2.hashWires gadget c0 c1 s.1 bit) s :=
    (List.foldlM_filter (m := Outcome CircuitError)).symm
  rw [buildDerivationCircuit, if_neg (by omega), hwidth]
  change (if (512 : ℤ) ≠ 512 ∨ gadget.n3 ≠ valueBits then _ else _) = _
  rw [if_neg (by rw [hgadget.outputs]; simp [valueBits])]
  simp only [hloop]

open Builder in
/-- The derivation circuit computes the shachain secret of the XOR of its two input shares,
whenever the gadget copies keep the `i32` wire counter in range. -/
theorem buildDerivationCircuit_correct {compress : Block64 → Value32} {gadget : Circuit}
    (hgadget : CompressionGadget compress gadget) {index : ℕ} (hindex : index ≤ maxIndex)
    (hfits : derivationWires gadget index ≤ i32Max) (a b : Value32) :
    Yields (buildDerivationCircuit gadget index) fun c =>
      evalBristol c (a.toBitsMsb ++ b.toBitsMsb) =
        .ok (generateFromSeed (sha256Digest compress) (a.xor b) index).toBitsMsb := by
  obtain ⟨n, hn, hmin⟩ := hgadget.numWire_nat
  rw [derivationWires_eq hn hmin] at hfits
  rw [buildDerivationCircuit_eq hgadget hindex]
  refine (shareWires_spec a b).bind fun r hr => ?_
  obtain ⟨hgood, hnext, hc0, hc1, hp⟩ := hr
  -- One hash for each set index bit.
  refine (hashLoop_spec hgadget hn hmin (setBitsDesc index)
    (fun _ hbit => (mem_setBitsDesc.mp hbit).1) hgood hc0 hc1 hp (by omega)).bind fun s hs => ?_
  obtain ⟨hext, hhash⟩ := hs
  -- The copy onto the last wires.
  have hlen : s.1.length = valueBits := hhash.length_eq.trans (by simp [valueBits])
  refine (copyWires_spec hext.good hhash (hc0.mono hext)
    (by rw [hext.next_eq, hnext, hlen, valueBits]; omega)).bind fun t ht => ?_
  obtain ⟨hcopy, hcar⟩ := ht
  rw [hlen] at hcopy hcar
  have hwidth : valueBits + valueBits = (a.toBitsMsb ++ b.toBitsMsb).length := by simp [valueBits]
  refine .ok (finish_eval hcopy.good hwidth ?_ ?_)
  · rw [hcopy.next_eq, hext.next_eq, hnext]
    omega
  · have hbase : t.2.next - (valueBits : ℕ) = s.2.next := by
      rw [hcopy.next_eq]
      omega
    rwa [hbase, generateFromSeed_eq]

/-- On a zero seed and index 1, the derivation hashes one block, and the circuit returns its
digest. -/
theorem buildDerivationCircuit_correct_one :
    Yields (buildDerivationCircuit (constantGadget 770 firstEdgeDigest) 1) fun c =>
      evalBristol c
          ((⟨.replicate 32 0⟩ : Value32).toBitsMsb ++ (⟨.replicate 32 0⟩ : Value32).toBitsMsb) =
        .ok (generateFromSeed (sha256Digest fun _ => firstEdgeDigest)
          ((⟨.replicate 32 0⟩ : Value32).xor ⟨.replicate 32 0⟩) 1).toBitsMsb :=
  buildDerivationCircuit_correct (constantGadget_compression (by decide) (by decide)) (by decide)
    (by decide) _ _

end Shachain2pc
