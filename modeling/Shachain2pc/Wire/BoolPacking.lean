import Shachain2pc.Compat.ByteIo
import Shachain2pc.Lib.Rust

/-!
# Packed vectors of bools

A vector of bools is a byte each. On the wire the bytes up to the sender's next aligned
address are sent as they are, then eight bools to a byte, and what is left over as it is. A
vector without an aligned group is not packed at all. The receiver knows the length and the
alignment, and refuses any other number of bytes.
-/

namespace Shachain2pc

/-- The errors of `WireError` which the packing raises. -/
inductive BoolWireError where
  | invalidPtrMod8 (value : ℕ)
  | malformedBoolEncoding (expectedBytes actualBytes : ℕ)
  deriving DecidableEq, Repr

/-- The text of an error. -/
def BoolWireError.message : BoolWireError → String
  | .invalidPtrMod8 value => s!"EMP bool ptr_mod8 must be in 0..8, got {value}"
  | .malformedBoolEncoding expectedBytes actualBytes =>
    s!"malformed EMP bool encoding: expected {expectedBytes} bytes, got {actualBytes}"

/-- `aligned_prefix_len`; `none` is a vector which is not packed. -/
def alignedPrefixLen (length ptrMod8 : ℕ) : Except BoolWireError (Option ℕ) :=
  if 8 ≤ ptrMod8 then .error (.invalidPtrMod8 ptrMod8)
  else
    let diff := if ptrMod8 = 0 then 0 else 8 - ptrMod8
    if length < diff ∨ length - diff < 8 then .ok none else .ok (some diff)

/-- `emp_bool_wire_len`. -/
def empBoolWireLen (length ptrMod8 : ℕ) : Except BoolWireError ℕ := do
  match ← alignedPrefixLen length ptrMod8 with
  | none => return length
  | some start => return start + (length - start) / 8 + (length - start) % 8

/-- The lowest bits of eight bytes, lowest bit first. -/
def packByte (chunk : List UInt8) : UInt8 :=
  (List.range 8).foldl (fun packed i => packed ||| ((chunk.getD i 0 &&& 1) <<< UInt8.ofNat i)) 0

/-- The bits of a byte, lowest bit first. -/
def unpackByte (packed : UInt8) : List UInt8 :=
  (List.range 8).map fun bit => (packed >>> UInt8.ofNat bit) &&& 1

/-- Pack the given number of groups; the rest is kept. -/
def packGroups : ℕ → List UInt8 → List UInt8
  | 0, rest => rest
  | n + 1, bytes => packByte (bytes.take 8) :: packGroups n (bytes.drop 8)

/-- Unpack the given number of groups; the rest is kept. -/
def unpackGroups : ℕ → List UInt8 → List UInt8
  | 0, rest => rest
  | n + 1, encoded => unpackByte (encoded.headD 0) ++ unpackGroups n encoded.tail

/-- `pack_emp_bools`. -/
def packEmpBools (boolBytes : List UInt8) (ptrMod8 : ℕ) : Except BoolWireError (List UInt8) := do
  match ← alignedPrefixLen boolBytes.length ptrMod8 with
  | none => return boolBytes
  | some start =>
    return boolBytes.take start ++
      packGroups ((boolBytes.length - start) / 8) (boolBytes.drop start)

/-- `unpack_emp_bools`. -/
def unpackEmpBools (encoded : List UInt8) (length ptrMod8 : ℕ) :
    Except BoolWireError (List UInt8) := do
  let expected ← empBoolWireLen length ptrMod8
  if encoded.length ≠ expected then .error (.malformedBoolEncoding expected encoded.length)
  else match ← alignedPrefixLen length ptrMod8 with
  | none => return encoded
  | some start =>
    return encoded.take start ++ unpackGroups ((length - start) / 8) (encoded.drop start)

/-! ## Groups -/

/-- The bits of a packed byte. -/
theorem packByte_testBit (chunk : List UInt8) {k : ℕ} (hk : k < 8) :
    (packByte chunk).toNat.testBit k = decide (chunk.getD k 0 &&& 1 ≠ 0) := by
  have hbody : (fun packed i => packed ||| ((chunk.getD i 0 &&& 1) <<< UInt8.ofNat i)) =
      fun packed i => if chunk.getD i 0 &&& 1 ≠
        0 then packed ||| (1 <<< UInt8.ofNat i) else packed := by
    funext packed i
    rcases bit_cases (b := chunk.getD i 0 &&& 1)
      (by rw [UInt8.and_assoc, UInt8.and_self]) with h | h
    · rw [h, if_neg (not_not.mpr rfl), UInt8.zero_shiftLeft, UInt8.or_zero]
    · rw [h, if_pos (by decide)]
  rw [packByte, hbody, packed_testBit _ le_rfl hk]
  simp [hk]

/-- The bits of an unpacked byte. -/
theorem unpackByte_getD (packed : UInt8) {k : ℕ} (hk : k < 8) :
    (unpackByte packed).getD k 0 = if packed.toNat.testBit k then 1 else 0 := by
  rw [List.getD_eq_getElem _ _ (by simpa [unpackByte] using hk)]
  simp only [unpackByte, List.getElem_map, List.getElem_range]
  exact shiftRight_and_one packed hk

@[simp] theorem unpackByte_length (packed : UInt8) : (unpackByte packed).length = 8 := by
  simp [unpackByte]

/-- A packed group is unpacked. -/
theorem unpackByte_packByte {chunk : List UInt8} (hlength : chunk.length = 8)
    (hbits : ∀ b ∈ chunk, b &&& 1 = b) : unpackByte (packByte chunk) = chunk := by
  apply List.ext_getElem
  · rw [unpackByte_length, hlength]
  · intro k hk hk'
    rw [unpackByte_length] at hk
    have hbit := bit_cases (hbits _ (List.getElem_mem hk'))
    rw [← List.getD_eq_getElem _ 0, unpackByte_getD _ hk, packByte_testBit _ hk,
      List.getD_eq_getElem _ _ hk']
    rcases hbit with h | h <;> simp [h]

/-- An unpacked byte is packed. -/
theorem packByte_unpackByte (packed : UInt8) : packByte (unpackByte packed) = packed := by
  apply UInt8.toNat_inj.mp
  apply Nat.eq_of_testBit_eq
  intro k
  by_cases hk : k < 8
  · rw [packByte_testBit _ hk, unpackByte_getD _ hk]
    cases packed.toNat.testBit k <;> decide
  · have hhigh (b : UInt8) : b.toNat.testBit k = false :=
      Nat.testBit_lt_two_pow (b.toNat_lt.trans_le (Nat.pow_le_pow_right (by decide) (by omega)))
    rw [hhigh, hhigh]

/-- A group takes one byte in place of eight. -/
theorem packGroups_length {n : ℕ} {bytes : List UInt8} (h : 8 * n ≤ bytes.length) :
    (packGroups n bytes).length = bytes.length - 7 * n := by
  induction n generalizing bytes with
  | zero => rfl
  | succ n ih =>
    rw [packGroups, List.length_cons, ih (by rw [List.length_drop]; omega), List.length_drop]
    omega

/-- A group gives eight bytes for one. -/
theorem unpackGroups_length {n : ℕ} {encoded : List UInt8} (h : n ≤ encoded.length) :
    (unpackGroups n encoded).length = encoded.length + 7 * n := by
  induction n generalizing encoded with
  | zero => rfl
  | succ n ih =>
    rw [unpackGroups, List.length_append, unpackByte_length, ih (by rw [List.length_tail]; omega),
      List.length_tail]
    omega

/-- Packed groups are unpacked. -/
theorem unpackGroups_packGroups {n : ℕ} {bytes : List UInt8} (h : 8 * n ≤ bytes.length)
    (hbits : ∀ b ∈ bytes, b &&& 1 = b) : unpackGroups n (packGroups n bytes) = bytes := by
  induction n generalizing bytes with
  | zero => rfl
  | succ n ih =>
    rw [packGroups, unpackGroups, List.headD_cons, List.tail_cons,
      unpackByte_packByte (by rw [List.length_take]; omega) fun b hb =>
        hbits b (List.mem_of_mem_take hb),
      ih (by rw [List.length_drop]; omega) fun b hb => hbits b (List.mem_of_mem_drop hb),
      List.take_append_drop]

/-- Unpacked groups are packed. -/
theorem packGroups_unpackGroups {n : ℕ} {encoded : List UInt8} (h : n ≤ encoded.length) :
    packGroups n (unpackGroups n encoded) = encoded := by
  induction n generalizing encoded with
  | zero => rfl
  | succ n ih =>
    cases encoded with
    | nil => exact absurd h (by simp)
    | cons byte rest =>
      have hlength := unpackByte_length byte
      rw [unpackGroups, packGroups, List.headD_cons, List.tail_cons,
        List.take_left' hlength, List.drop_left' hlength, packByte_unpackByte,
        ih (Nat.le_of_succ_le_succ h)]

/-! ## Vectors -/

/-- An aligned vector has a group after its unaligned bytes. -/
theorem alignedPrefixLen_cases (length : ℕ) {ptrMod8 : ℕ} (hptr : ptrMod8 < 8) :
    alignedPrefixLen length ptrMod8 = .ok none ∨
      ∃ start, alignedPrefixLen length ptrMod8 = .ok (some start) ∧ start ≤ length := by
  rw [alignedPrefixLen, if_neg (by omega)]
  generalize (if ptrMod8 = 0 then 0 else 8 - ptrMod8) = diff
  by_cases hshort : length < diff ∨ length - diff < 8
  · exact .inl (if_pos hshort)
  · exact .inr ⟨diff, if_neg hshort, by omega⟩

/-- The length on the wire, of a vector which is not packed. -/
theorem empBoolWireLen_none {length ptrMod8 : ℕ} (h : alignedPrefixLen length ptrMod8 = .ok none) :
    empBoolWireLen length ptrMod8 = .ok length := by
  rw [empBoolWireLen, h]
  rfl

/-- The length on the wire, of a vector which is packed from a position on. -/
theorem empBoolWireLen_some {length ptrMod8 start : ℕ}
    (h : alignedPrefixLen length ptrMod8 = .ok (some start)) :
    empBoolWireLen length ptrMod8 = .ok (start + (length - start) / 8 + (length - start) % 8) := by
  rw [empBoolWireLen, h]
  rfl

/-- A vector is packed into the number of bytes which a receiver expects. -/
theorem packEmpBools_length {ptrMod8 : ℕ} (hptr : ptrMod8 < 8) (boolBytes : List UInt8) :
    ∃ encoded, packEmpBools boolBytes ptrMod8 = .ok encoded ∧
      empBoolWireLen boolBytes.length ptrMod8 = .ok encoded.length := by
  rcases alignedPrefixLen_cases boolBytes.length hptr with h | ⟨start, h, hstart⟩
  · refine ⟨boolBytes, ?_, empBoolWireLen_none h⟩
    rw [packEmpBools, h]
    rfl
  · refine ⟨_, by rw [packEmpBools, h]; rfl, ?_⟩
    rw [empBoolWireLen_some h, List.length_append, List.length_take, packGroups_length (by
      rw [List.length_drop]; omega), List.length_drop]
    congr 1
    omega

/-- What is unpacked from an encoding of the expected length. -/
theorem unpackEmpBools_eq {encoded : List UInt8} {length ptrMod8 : ℕ}
    (h : empBoolWireLen length ptrMod8 = .ok encoded.length) :
    unpackEmpBools encoded length ptrMod8 = do
      match ← alignedPrefixLen length ptrMod8 with
      | none => return encoded
      | some start =>
        return encoded.take start ++ unpackGroups ((length - start) / 8) (encoded.drop start) := by
  rw [unpackEmpBools, h]
  exact if_neg (not_not.mpr rfl)

/-- Other encodings are refused. -/
theorem unpackEmpBools_malformed {encoded : List UInt8} {length ptrMod8 expected : ℕ}
    (h : empBoolWireLen length ptrMod8 = .ok expected) (hne : encoded.length ≠ expected) :
    unpackEmpBools encoded length ptrMod8 =
      .error (.malformedBoolEncoding expected encoded.length) := by
  rw [unpackEmpBools, h]
  exact if_pos hne

/-- Only encodings of the expected length are unpacked. -/
theorem empBoolWireLen_of_unpack {encoded boolBytes : List UInt8} {length ptrMod8 : ℕ}
    (h : unpackEmpBools encoded length ptrMod8 = .ok boolBytes) :
    empBoolWireLen length ptrMod8 = .ok encoded.length := by
  obtain ⟨expected, hexpected, -⟩ := Rust.bind_eq_ok h
  by_cases hlength : encoded.length = expected
  · rw [hexpected, hlength]
  · rw [unpackEmpBools_malformed hexpected hlength] at h
    cases h

/-- A packed vector of bits is unpacked. -/
theorem unpackEmpBools_packEmpBools {boolBytes encoded : List UInt8} {ptrMod8 : ℕ}
    (hptr : ptrMod8 < 8) (hbits : ∀ b ∈ boolBytes, b = 0 ∨ b = 1)
    (h : packEmpBools boolBytes ptrMod8 = .ok encoded) :
    unpackEmpBools encoded boolBytes.length ptrMod8 = .ok boolBytes := by
  obtain ⟨encoded', hpack, hwire⟩ := packEmpBools_length hptr boolBytes
  obtain rfl : encoded = encoded' := Except.ok.inj (h.symm.trans hpack)
  rw [unpackEmpBools_eq hwire]
  rcases alignedPrefixLen_cases boolBytes.length hptr with hstart | ⟨start, hstart, hle⟩
  · rw [packEmpBools, hstart] at h
    rw [hstart]
    cases h
    rfl
  · rw [packEmpBools, hstart] at h
    rw [hstart]
    cases h
    have hlength : (boolBytes.take start).length = start := by
      rw [List.length_take]
      omega
    have hbit : ∀ b ∈ boolBytes.drop start, b &&& 1 = b := by
      intro b hb
      rcases hbits b (List.mem_of_mem_drop hb) with rfl | rfl <;> rfl
    change Except.ok _ = _
    rw [List.take_left' hlength, List.drop_left' hlength,
      unpackGroups_packGroups (by rw [List.length_drop]; omega) hbit, List.take_append_drop]

/-- An unpacked encoding is packed. -/
theorem packEmpBools_unpackEmpBools {boolBytes encoded : List UInt8} {length ptrMod8 : ℕ}
    (hptr : ptrMod8 < 8) (h : unpackEmpBools encoded length ptrMod8 = .ok boolBytes) :
    boolBytes.length = length ∧ packEmpBools boolBytes ptrMod8 = .ok encoded := by
  have hwire := empBoolWireLen_of_unpack h
  rw [unpackEmpBools_eq hwire] at h
  rcases alignedPrefixLen_cases length hptr with hstart | ⟨start, hstart, hle⟩
  · rw [hstart] at h
    cases h
    rw [empBoolWireLen_none hstart] at hwire
    have hlength := Except.ok.inj hwire
    refine ⟨hlength.symm, ?_⟩
    rw [packEmpBools, ← hlength, hstart]
    rfl
  · rw [hstart] at h
    cases h
    rw [empBoolWireLen_some hstart] at hwire
    have hencoded := Except.ok.inj hwire
    have hgroups : (length - start) / 8 ≤ (encoded.drop start).length := by
      rw [List.length_drop]
      omega
    have htake : (encoded.take start).length = start := by
      rw [List.length_take]
      omega
    have hlength : (encoded.take start ++
        unpackGroups ((length - start) / 8) (encoded.drop start)).length = length := by
      rw [List.length_append, htake, unpackGroups_length hgroups, List.length_drop]
      omega
    refine ⟨hlength, ?_⟩
    rw [packEmpBools, hlength, hstart]
    change Except.ok _ = _
    rw [List.take_left' htake, List.drop_left' htake, packGroups_unpackGroups hgroups,
      List.take_append_drop]

/-- The packing of bools is a round trip in both directions, between the vectors of bits and the
encodings which are accepted, and these have the length on the wire. -/
theorem empBools_roundTrip {ptrMod8 : ℕ} (hptr : ptrMod8 < 8) :
    (∀ boolBytes : List UInt8, ∃ encoded, packEmpBools boolBytes ptrMod8 = .ok encoded ∧
      empBoolWireLen boolBytes.length ptrMod8 = .ok encoded.length ∧
      ((∀ b ∈ boolBytes, b = 0 ∨ b = 1) →
        unpackEmpBools encoded boolBytes.length ptrMod8 = .ok boolBytes)) ∧
    (∀ (encoded boolBytes : List UInt8) (length : ℕ),
      unpackEmpBools encoded length ptrMod8 = .ok boolBytes →
        boolBytes.length = length ∧ packEmpBools boolBytes ptrMod8 = .ok encoded) ∧
    ∀ (encoded : List UInt8) (length : ℕ), ∃ expected, empBoolWireLen length ptrMod8 =
      .ok expected ∧
      (encoded.length ≠ expected → unpackEmpBools encoded length ptrMod8 =
        .error (.malformedBoolEncoding expected encoded.length)) := by
  refine ⟨fun boolBytes => ?_, fun encoded boolBytes length h => packEmpBools_unpackEmpBools hptr h,
    fun encoded length => ?_⟩
  · obtain ⟨encoded, hpack, hwire⟩ := packEmpBools_length hptr boolBytes
    exact ⟨encoded, hpack, hwire, fun hbits => unpackEmpBools_packEmpBools hptr hbits hpack⟩
  · rcases alignedPrefixLen_cases length hptr with hstart | ⟨start, hstart, -⟩
    · exact ⟨length, empBoolWireLen_none hstart,
        unpackEmpBools_malformed (empBoolWireLen_none hstart)⟩
    · exact ⟨_, empBoolWireLen_some hstart, unpackEmpBools_malformed (empBoolWireLen_some hstart)⟩

/-- Fourteen bools, of which five come before the aligned group and one after it. -/
theorem empBools_roundTrip_fourteen :
    unpackEmpBools [1, 0, 1, 0, 1, 0x83, 0] 14 3 = .ok [1, 0, 1, 0, 1, 1, 1, 0, 0, 0, 0, 0, 1, 0] ∧
      packEmpBools [1, 0, 1, 0, 1, 1, 1, 0, 0, 0, 0, 0, 1, 0] 3 = .ok [1, 0, 1, 0, 1, 0x83, 0] :=
  have hunpack : unpackEmpBools [1, 0, 1, 0, 1, 0x83, 0] 14 3 =
      .ok [1, 0, 1, 0, 1, 1, 1, 0, 0, 0, 0, 0, 1, 0] := by decide +kernel
  ⟨hunpack, ((empBools_roundTrip (by decide)).2.1 _ _ _ hunpack).2⟩

end Shachain2pc
