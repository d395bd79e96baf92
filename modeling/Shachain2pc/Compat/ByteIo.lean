import Shachain2pc.Compat.BlockAlgebra

/-!
# Blocks and bit vectors on a stream

A stream carries bytes. Blocks are sent as their bytes, and bit vectors packed eight to a
byte, lowest bit first. A receive takes the bytes it asks for, or waits for more.
-/

namespace Shachain2pc

/-- `recv_data`; `none` while the stream holds fewer bytes. -/
def recvData (len : ℕ) (stream : List UInt8) : Option (List UInt8 × List UInt8) :=
  if len ≤ stream.length then some (stream.take len, stream.drop len) else none

/-- The blocks made of consecutive bytes. -/
def blocksOfBytes (len : ℕ) (bytes : List UInt8) : List Block :=
  (List.range len).map fun i => Vector.ofFn fun j : Fin 16 => bytes.getD (16 * i + j) 0

/-- `recv_block`. -/
def recvBlock (len : ℕ) (stream : List UInt8) : Option (List Block × List UInt8) :=
  (recvData (16 * len) stream).map fun received => (blocksOfBytes len received.1, received.2)

/-- `ag2pc_bool_wire_len`. -/
def boolWireLen (len : ℕ) : ℕ := (len + 7) / 8

/-- `ag2pc_pack_bools`; byte `j` collects the bits `8 * j` to `8 * j + 7`. -/
def packBools (data : List UInt8) : List UInt8 :=
  (List.range (boolWireLen data.length)).map fun j =>
    (List.range 8).foldl
      (fun out k => if data.getD (8 * j + k) 0 ≠ 0 then out ||| (1 <<< UInt8.ofNat k) else out) 0

/-- `ag2pc_unpack_bools`. -/
def unpackBools (encoded : List UInt8) (len : ℕ) : List UInt8 :=
  (List.range len).map fun i => (encoded.getD (i / 8) 0 >>> UInt8.ofNat (i % 8)) &&& 1

/-- `ag2pc_recv_bool_vector`. -/
def recvBoolVector (len : ℕ) (stream : List UInt8) : Option (List UInt8 × List UInt8) :=
  (recvData (boolWireLen len) stream).map fun received => (unpackBools received.1 len, received.2)

/-- What was sent first is received first. -/
theorem recvData_append (data rest : List UInt8) :
    recvData data.length (data ++ rest) = some (data, rest) := by
  simp [recvData]

/-- Every block has sixteen bytes. -/
@[simp] theorem macBytes_length (blocks : List Block) :
    (macBytes blocks).length = 16 * blocks.length := by
  induction blocks with
  | nil => rfl
  | cons block rest ih =>
    rw [macBytes, List.flatMap_cons, List.length_append, Vector.length_toList]
    change 16 + (macBytes rest).length = 16 * (rest.length + 1)
    rw [ih]
    omega

/-- The bytes of blocks give the blocks back. -/
theorem blocksOfBytes_macBytes (blocks : List Block) :
    blocksOfBytes blocks.length (macBytes blocks) = blocks := by
  induction blocks with
  | nil => rfl
  | cons block rest ih =>
    have hbytes : macBytes (block :: rest) = block.toList ++ macBytes rest := rfl
    have hlen : block.toList.length = 16 := Vector.length_toList
    rw [blocksOfBytes, List.length_cons, List.range_succ_eq_map, List.map_cons,
      List.map_map, hbytes]
    refine congrArg₂ List.cons ?_ (Eq.trans (List.map_congr_left fun i _ => ?_) ih)
    · apply Vector.ext
      intro j hj
      rw [Vector.getElem_ofFn, Nat.mul_zero, Nat.zero_add,
        List.getD_eq_getElem _ _ (by rw [List.length_append, hlen]; omega),
        List.getElem_append_left (by rw [hlen]; omega), Vector.getElem_toList]
    · rw [Function.comp_apply]
      refine congrArg Vector.ofFn (funext fun j => ?_)
      have hindex : 16 * i.succ + j.val - 16 = 16 * i + j.val := by omega
      rw [List.getD_append_right _ _ _ _ (by rw [hlen]; omega), hlen, hindex]

/-- Blocks are determined by their bytes. -/
theorem macBytes_inj {xs ys : List Block} (hlength : xs.length = ys.length) :
    macBytes xs = macBytes ys ↔ xs = ys := by
  constructor
  · intro h
    rw [← blocksOfBytes_macBytes xs, ← blocksOfBytes_macBytes ys, hlength, h]
  · exact congrArg macBytes

/-- Received blocks are the blocks sent. -/
theorem recvBlock_append (blocks : List Block) (rest : List UInt8) :
    recvBlock blocks.length (macBytes blocks ++ rest) = some (blocks, rest) := by
  rw [recvBlock, ← macBytes_length, recvData_append, Option.map_some, blocksOfBytes_macBytes]

/-- A packed bit vector has the expected length. -/
@[simp] theorem packBools_length (data : List UInt8) :
    (packBools data).length = boolWireLen data.length := by
  simp [packBools]

/-- A packed byte has the bits which are set. -/
theorem packed_testBit (p : ℕ → Prop) [DecidablePred p] {n k : ℕ} (hn : n ≤ 8) (hk : k < 8) :
    ((List.range n).foldl
      (fun out k => if p k then out ||| (1 <<< UInt8.ofNat k) else out)
      (0 : UInt8)).toNat.testBit k =
      decide (k < n ∧ p k) := by
  have hone :
      ∀ n < 8, ∀ k < 8, ((1 : UInt8) <<< UInt8.ofNat n).toNat.testBit k = decide (k = n) := by
    decide
  induction n with
  | zero => simp
  | succ n ih =>
    rw [List.range_succ, List.foldl_append, List.foldl_cons, List.foldl_nil]
    split
    · next hp =>
      rw [UInt8.toNat_or, Nat.testBit_or, ih (by omega), hone n (by omega) k hk, ← Bool.decide_or]
      refine decide_eq_decide.mpr ⟨?_, fun h => ?_⟩
      · rintro (h | rfl)
        · exact ⟨by omega, h.2⟩
        · exact ⟨by omega, hp⟩
      · by_cases hkn : k = n
        · exact .inr hkn
        · exact .inl ⟨by omega, h.2⟩
    · next hp =>
      rw [ih (by omega)]
      refine decide_eq_decide.mpr ⟨fun h => ⟨by omega, h.2⟩, fun h => ⟨?_, h.2⟩⟩
      by_contra hle
      exact hp ((show k = n by omega) ▸ h.2)

/-- One bit of a byte, moved to the lowest position. -/
theorem shiftRight_and_one (b : UInt8) {k : ℕ} (hk : k < 8) :
    (b >>> UInt8.ofNat k) &&& 1 = if b.toNat.testBit k then 1 else 0 := by
  have hshift : (UInt8.ofNat k).toNat % 8 = k := by
    rw [UInt8.toNat_ofNat']
    omega
  apply UInt8.toNat_inj.mp
  rw [UInt8.toNat_and, UInt8.toNat_shiftRight, hshift, UInt8.toNat_one, Nat.and_one_is_mod]
  have hbit := Nat.testBit_eq_decide_div_mod_eq (x := b.toNat) (i := k)
  rw [hbit, Nat.shiftRight_eq_div_pow]
  rcases Nat.mod_two_eq_zero_or_one (b.toNat / 2 ^ k) with h | h <;> simp [h]

/-- Unpacking gives a set bit for each byte which is not zero. -/
theorem unpackBools_packBools (data : List UInt8) :
    unpackBools (packBools data) data.length = data.map fun b => if b ≠ 0 then 1 else 0 := by
  apply List.ext_getElem
  · simp [unpackBools]
  · intro i hi hi'
    rw [List.length_map] at hi'
    have hbyte : i / 8 < boolWireLen data.length := by
      unfold boolWireLen
      omega
    have hpos : 8 * (i / 8) + i % 8 = i := by omega
    have hmod : i % 8 < 8 := Nat.mod_lt _ (by decide)
    simp only [unpackBools, packBools, List.getElem_map, List.getElem_range]
    rw [List.getD_eq_getElem _ _ (by simpa using hbyte), List.getElem_map, List.getElem_range,
      shiftRight_and_one _ hmod, packed_testBit _ le_rfl hmod, hpos,
      List.getD_eq_getElem _ _ hi']
    simp [hmod]

/-- Received bits are those of the bytes sent which are not zero. -/
theorem recvBoolVector_packBools (data rest : List UInt8) :
    recvBoolVector data.length (packBools data ++ rest) =
      some (data.map fun b => if b ≠ 0 then 1 else 0, rest) := by
  rw [recvBoolVector, ← packBools_length, recvData_append, Option.map_some, unpackBools_packBools]

/-- Received bits are the bits sent. -/
theorem recvBoolVector_append {data : List UInt8} (hdata : ∀ b ∈ data, b &&& 1 = b)
    (rest : List UInt8) :
    recvBoolVector data.length (packBools data ++ rest) = some (data, rest) := by
  have hsame : (data.map fun b : UInt8 => if b ≠ 0 then 1 else 0) = data := by
    refine (List.map_congr_left fun b hb => ?_).trans (List.map_id data)
    rcases bit_cases (hdata b hb) with rfl | rfl <;> rfl
  rw [recvBoolVector_packBools, hsame]

end Shachain2pc
