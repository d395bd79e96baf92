import Shachain2pc.Circuit.Bristol
import Shachain2pc.Types.Bytes

/-!
# Digests of circuits and runs

What the parties exchange before a session. Each digest hashes its fields one after the
other, without a tag for the mode and without lengths; the bytes hashed are kept apart from
the hash, which is a parameter.
-/

namespace Shachain2pc

/-- The number `to_emp_gate_array` stores for a gate type. -/
def GateType.empCode : GateType → ℤ
  | .and => 0
  | .xor => 1
  | .inv => 2

/-- `to_emp_gate_array`. -/
def toEmpGateArray (c : Circuit) : List ℤ :=
  c.gates.flatMap fun g => [g.in0, if g.typ = .inv then 0 else g.in1, g.out, g.typ.empCode]

/-- `circuit_digest`. The gate count is cast to an `i32`, which keeps its low four bytes. -/
def circuitDigest (sha256 : List UInt8 → Value32) (c : Circuit) (gateArr : List ℤ) : Value32 :=
  sha256 (([(c.gates.length : ℤ), c.numWire, c.n1, c.n2, c.n3] ++ gateArr).flatMap i32Bytes)

/-- The gadget's own digest, which closes every digest of a run. -/
def gadgetDigest (sha256 : List UInt8 → Value32) (sha : Circuit) : List UInt8 :=
  (circuitDigest sha256 sha (toEmpGateArray sha)).bytes.toList

/-- The indices as `batch_digest` and `tree_digest` hash them. -/
def indexBytes (indices : List ℕ) : List UInt8 := indices.flatMap (leBytes 8)

/-- `batch_digest`, less the gadget. -/
def batchBytes (indices : List ℕ) : List UInt8 := indexBytes indices

/-- `chunk_spec_digest`, less the gadget. -/
def chunkSpecBytes (index : ℕ) (blocksPerChunk : ℤ) : List UInt8 :=
  leBytes 8 index ++ i32Bytes blocksPerChunk

/-- `tree_digest`, less the gadget. -/
def treeBytes (indices : List ℕ) (trunkChunkBlocks : ℤ) : List UInt8 :=
  indexBytes indices ++ i32Bytes trunkChunkBlocks

/-- `cache_digest`, less the gadget. -/
def cacheBytes (lo hi : ℕ) (trunkChunkBlocks tileFanout : ℤ) : List UInt8 :=
  leBytes 8 lo ++ leBytes 8 hi ++ i32Bytes trunkChunkBlocks ++ i32Bytes tileFanout

/-- Each index takes eight bytes. -/
@[simp] theorem indexBytes_length (indices : List ℕ) :
    (indexBytes indices).length = 8 * indices.length := by
  induction indices with
  | nil => rfl
  | cons index rest ih =>
    simp only [indexBytes, List.flatMap_cons, List.length_append, leBytes_length,
      List.length_cons] at ih ⊢
    omega

/-- Indices of 64 bits are determined by their bytes. -/
theorem indexBytes_inj {a b : List ℕ} (ha : ∀ index ∈ a, index < 2 ^ 64)
    (hb : ∀ index ∈ b, index < 2 ^ 64) (h : indexBytes a = indexBytes b) : a = b := by
  induction a generalizing b with
  | nil =>
    have hlen := congrArg List.length h
    simp only [indexBytes_length, List.length_nil] at hlen
    exact (List.length_eq_zero_iff.mp (by omega)).symm
  | cons index rest ih =>
    cases b with
    | nil =>
      have hlen := congrArg List.length h
      simp at hlen
    | cons index' rest' =>
      obtain ⟨hhead, htail⟩ := List.append_inj h (by rw [leBytes_length, leBytes_length])
      have hindex : index = index' :=
        leBytes_inj (ha index List.mem_cons_self) (hb index' List.mem_cons_self) hhead
      have hrest : rest = rest' :=
        ih (fun i hi => ha i (List.mem_cons_of_mem _ hi))
          (fun i hi => hb i (List.mem_cons_of_mem _ hi))
          htail
      rw [hindex, hrest]

/-- A batch and a tree never hash the same number of bytes. -/
theorem batchBytes_ne_treeBytes (a b : List ℕ) (trunkChunkBlocks : ℤ) :
    batchBytes a ≠ treeBytes b trunkChunkBlocks := by
  intro h
  have hlen := congrArg List.length h
  simp only [batchBytes, treeBytes, List.length_append, indexBytes_length, i32Bytes_length] at hlen
  omega

/-- Two runs of the tree mode hash the same bytes only for the same indices and trunk. -/
theorem treeBytes_inj {a b : List ℕ} {blocksA blocksB : ℤ} (ha : ∀ index ∈ a, index < 2 ^ 64)
    (hb : ∀ index ∈ b, index < 2 ^ 64) (hblocksA : -(2 ^ 31) ≤ blocksA ∧ blocksA < 2 ^ 31)
    (hblocksB : -(2 ^ 31) ≤ blocksB ∧ blocksB < 2 ^ 31)
    (h : treeBytes a blocksA = treeBytes b blocksB) : a = b ∧ blocksA = blocksB := by
  obtain ⟨hindices, hblocks⟩ := List.append_inj' h (by rw [i32Bytes_length, i32Bytes_length])
  exact ⟨indexBytes_inj ha hb hindices, i32Bytes_inj hblocksA hblocksB hblocks⟩

/-- The bytes of a chunked run are those of the tree mode on its single index. -/
theorem chunkSpecBytes_eq (index : ℕ) (blocksPerChunk : ℤ) :
    chunkSpecBytes index blocksPerChunk = treeBytes [index] blocksPerChunk := by
  simp [chunkSpecBytes, treeBytes, indexBytes]

/-- The bytes of a cached run are those of a batch of three, whose last index is made of the
trunk chunk blocks and the tile fan-out. -/
theorem cacheBytes_eq (lo hi : ℕ) (trunkChunkBlocks tileFanout : ℤ) :
    cacheBytes lo hi trunkChunkBlocks tileFanout =
      batchBytes [lo, hi, i32Bits trunkChunkBlocks + 2 ^ 32 * i32Bits tileFanout] := by
  have hfields := leBytes_append 4 4 (i32Bits tileFanout) (i32Bits_lt trunkChunkBlocks)
  simp only [cacheBytes, batchBytes, indexBytes, List.flatMap_cons, List.flatMap_nil, i32Bytes,
    List.append_assoc, List.append_nil, hfields]
  rfl

end Shachain2pc
