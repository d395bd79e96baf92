import Mathlib.Tactic.Common
import Mathlib.Data.List.Basic
import Mathlib.Algebra.Group.Nat.Defs

/-!
# Ordered maps keyed by canonical decimals

The source keys its ordered maps by `u64::to_string`. Every key it stores is such a
canonical decimal, so the model keys them by the number and keeps the order of the decimal
strings: iteration visits `10` before `9`, as it does in the source.
-/

namespace Shachain2pc

open Std

/-- The order of the decimal representations. -/
def compareDecimal (a b : ℕ) : Ordering := compare (toString a) (toString b)

/-- Canonical decimals are injective. -/
theorem toString_injective {a b : ℕ} (h : toString a = toString b) : a = b := by
  have hdigits : Nat.toDigits 10 a = Nat.toDigits 10 b :=
    String.ofList_injective (by simpa [Nat.toString_eq_repr, Nat.repr] using h)
  rw [← Nat.ofDigitChars_ten_toDigits (n := a), hdigits, Nat.ofDigitChars_ten_toDigits]

instance : TransCmp compareDecimal :=
  inferInstanceAs (TransCmp (compareOn fun n : ℕ => toString n))

instance : LawfulEqCmp compareDecimal where
  eq_of_compare h := toString_injective (LawfulEqOrd.eq_of_compare h)

/-- A `BTreeMap<String, V>` whose keys are canonical decimals. -/
abbrev DecimalMap (V : Type) := ExtTreeMap ℕ V compareDecimal

/-- Deleting a list of keys one by one keeps exactly the other keys. -/
theorem getElem?_foldl_erase {V : Type} (m : DecimalMap V) (drop : List ℕ) (key : ℕ) :
    (drop.foldl ExtTreeMap.erase m)[key]? = if key ∈ drop then none else m[key]? := by
  induction drop generalizing m with
  | nil => simp
  | cons first rest ih =>
    rw [List.foldl_cons, ih, ExtTreeMap.getElem?_erase]
    by_cases hrest : key ∈ rest
    · simp [hrest]
    · by_cases hfirst : first = key
      · simp [hrest, hfirst]
      · simp [hrest, hfirst, Ne.symm hfirst]

/-- An entry is listed exactly when it is stored. -/
theorem mem_toList {V : Type} {m : DecimalMap V} {key : ℕ} {value : V} :
    (key, value) ∈ m.toList ↔ m[key]? = some value :=
  ExtTreeMap.mem_toList_iff_getElem?_eq_some

/-- `u64::from_str`: an optional plus sign and then decimal digits, leading zeros allowed. -/
def parseU64 (text : String) : Option ℕ :=
  let digits := match text.toList with
    | '+' :: rest => rest
    | chars => chars
  if digits.isEmpty || digits.any fun digit => !digit.isDigit then none
  else if Nat.ofDigitChars 10 digits 0 < 2 ^ 64 then some (Nat.ofDigitChars 10 digits 0)
  else none

/-- Iteration visits `10` before `9`. -/
example : ((∅ : DecimalMap Bool).insert 9 true |>.insert 10 false).toList =
    [(10, false), (9, true)] := by decide

end Shachain2pc
