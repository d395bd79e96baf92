import Mathlib.Algebra.Group.Nat.Defs
import Mathlib.Algebra.Order.Group.Int
import Mathlib.Data.Option.Basic
import Mathlib.Tactic.Common

/-!
# Reading numbers and words from texts

What the standard library does with the texts of the environment, the command line, and
circuit files. A number may have a sign, a word ends at any Unicode white space.
-/

namespace Shachain2pc

/-- A nonempty string of decimal digits. -/
def parseDigits (chars : List Char) : Option ℕ :=
  if chars ≠ [] ∧ chars.all Char.isDigit then
    some (chars.foldl (fun n c => 10 * n + (c.toNat - '0'.toNat)) 0)
  else none

/-- `str::parse::<i32>`. -/
def parseI32 (text : String) : Option ℤ :=
  let exact : Option ℤ := match text.toList with
    | '-' :: digits => (parseDigits digits).map fun n : ℕ => -(n : ℤ)
    | '+' :: digits => (parseDigits digits).map fun n : ℕ => (n : ℤ)
    | digits => (parseDigits digits).map fun n : ℕ => (n : ℤ)
  exact.filter fun value => -(2 ^ 31) ≤ value ∧ value < 2 ^ 31

/-- `str::parse::<usize>`. -/
def parseUsize (text : String) : Option ℕ :=
  let exact := match text.toList with
    | '+' :: digits => parseDigits digits
    | digits => parseDigits digits
  exact.filter (· < 2 ^ 64)

/-- The `i32` values. -/
def IsI32 (value : ℤ) : Prop := -(2 ^ 31) ≤ value ∧ value < 2 ^ 31

/-- A parsed `i32` is in range. -/
theorem parseI32_isI32 {text : String} {value : ℤ} (h : parseI32 text = some value) :
    IsI32 value := by
  simp only [parseI32, Option.filter_eq_some_iff, decide_eq_true_eq] at h
  exact h.2

/-- `char::is_whitespace`, the Unicode property `White_Space`. -/
def isWhitespace (c : Char) : Bool :=
  let n := c.toNat
  (9 ≤ n ∧ n ≤ 13) ∨ n = 0x20 ∨ n = 0x85 ∨ n = 0xA0 ∨ n = 0x1680 ∨ (0x2000 ≤ n ∧ n ≤ 0x200A) ∨
    n = 0x2028 ∨ n = 0x2029 ∨ n = 0x202F ∨ n = 0x205F ∨ n = 0x3000

/-- `str::split_whitespace`. -/
def splitWhitespace (text : String) : List String :=
  ((text.toList.splitOnP isWhitespace).filter (· ≠ [])).map String.ofList

end Shachain2pc
