import Shachain2pc.Types.Value32
import Mathlib.Algebra.Group.Nat.Defs
import Mathlib.Algebra.Order.Group.Int
import Mathlib.Data.Nat.Basic
import Mathlib.Tactic.Common

/-!
# Fixed-width little-endian integers

What the hashed and sent messages are made of. The digests of the standalone modes hash
integers in the machine's own byte order; the machines the programs run on are
little-endian.
-/

namespace Shachain2pc

/-- The 32 bytes at the start of a list. -/
def Value32.ofList (bytes : List UInt8) : Value32 := ⟨Vector.ofFn fun i : Fin 32 => bytes.getD i 0⟩

/-- `String::as_bytes`. -/
def utf8Bytes (text : String) : List UInt8 := text.toUTF8.data.toList

/-- Unsigned little-endian bytes, `to_le_bytes`. -/
def leBytes (width value : ℕ) : List UInt8 :=
  (List.range width).map fun k => UInt8.ofNat (value / 256 ^ k)

/-- The two's complement of an `i32`. -/
def i32Bits (value : ℤ) : ℕ := (value % 2 ^ 32).toNat

/-- `i32::to_ne_bytes`. -/
def i32Bytes (value : ℤ) : List UInt8 := leBytes 4 (i32Bits value)

/-- Thirty-two bytes are kept. -/
theorem Value32.ofList_toList (value : Value32) : Value32.ofList value.bytes.toList = value := by
  obtain ⟨bytes⟩ := value
  simp only [Value32.ofList, Value32.mk.injEq]
  ext k hk
  simp

/-- The width decides the length. -/
@[simp] theorem leBytes_length (width value : ℕ) : (leBytes width value).length = width := by
  simp [leBytes]

/-- An `i32` has four bytes. -/
@[simp] theorem i32Bytes_length (value : ℤ) : (i32Bytes value).length = 4 :=
  leBytes_length 4 _

/-- The lowest byte comes first. -/
theorem leBytes_succ (width value : ℕ) :
    leBytes (width + 1) value = UInt8.ofNat value :: leBytes width (value / 256) := by
  simp only [leBytes, List.range_succ_eq_map, List.map_cons, List.map_map, pow_zero, Nat.div_one]
  congr 1
  refine List.map_congr_left ?_
  rintro k -
  simp only [Function.comp_apply, Nat.succ_eq_add_one, pow_succ, Nat.div_div_eq_div_mul]
  rw [Nat.mul_comm]

/-- Values below `256 ^ width` are determined by their bytes. -/
theorem leBytes_inj {width a b : ℕ} (ha : a < 256 ^ width) (hb : b < 256 ^ width)
    (h : leBytes width a = leBytes width b) : a = b := by
  induction width generalizing a b with
  | zero =>
    rw [pow_zero] at ha hb
    omega
  | succ width ih =>
    rw [leBytes_succ, leBytes_succ, List.cons.injEq] at h
    rw [pow_succ] at ha hb
    have hlow : a % 256 = b % 256 := by
      simpa [UInt8.ofNat, BitVec.ofNat] using congrArg UInt8.toNat h.1
    have hhigh : a / 256 = b / 256 :=
      ih (Nat.div_lt_of_lt_mul (by omega)) (Nat.div_lt_of_lt_mul (by omega)) h.2
    omega

/-- Two adjacent fields read as one wide field. -/
theorem leBytes_append {low : ℕ} (width rest high : ℕ) (hlow : low < 256 ^ width) :
    leBytes width low ++ leBytes rest high = leBytes (width + rest) (low + 256 ^ width * high) := by
  induction width generalizing low with
  | zero =>
    have : low = 0 := by simpa using hlow
    simp [this, leBytes]
  | succ width ih =>
    rw [pow_succ] at hlow
    have hshift : 256 ^ (width + 1) * high = 256 * (256 ^ width * high) := by
      rw [pow_succ, Nat.mul_comm (256 ^ width) 256, Nat.mul_assoc]
    have hbyte : UInt8.ofNat (low + 256 * (256 ^ width * high)) = UInt8.ofNat low := by
      rw [← UInt8.toNat_inj]
      simp [UInt8.ofNat, BitVec.ofNat]
    rw [leBytes_succ, Nat.succ_add, leBytes_succ, hshift, hbyte,
      Nat.add_mul_div_left _ _ (by simp), List.cons_append, ih (Nat.div_lt_of_lt_mul (by omega))]

/-- The two's complement determines an `i32`. -/
theorem i32Bits_inj {a b : ℤ} (ha : -(2 ^ 31) ≤ a ∧ a < 2 ^ 31) (hb : -(2 ^ 31) ≤ b ∧ b < 2 ^ 31)
    (h : i32Bits a = i32Bits b) : a = b := by
  unfold i32Bits at h
  omega

/-- A two's complement fits in its field. -/
theorem i32Bits_lt (value : ℤ) : i32Bits value < 2 ^ 32 := by
  unfold i32Bits
  omega

/-- The bytes determine an `i32`. -/
theorem i32Bytes_inj {a b : ℤ} (ha : -(2 ^ 31) ≤ a ∧ a < 2 ^ 31) (hb : -(2 ^ 31) ≤ b ∧ b < 2 ^ 31)
    (h : i32Bytes a = i32Bytes b) : a = b :=
  i32Bits_inj ha hb (leBytes_inj (i32Bits_lt a) (i32Bits_lt b) h)

/-- The bytes of a text determine it. -/
theorem utf8Bytes_inj {first second : String} (h : utf8Bytes first = utf8Bytes second) :
    first = second := by
  refine String.toByteArray_inj.mp ?_
  simp only [utf8Bytes, String.toUTF8_eq_toByteArray] at h
  exact ByteArray.ext (Array.toList_inj.mp h)

end Shachain2pc
