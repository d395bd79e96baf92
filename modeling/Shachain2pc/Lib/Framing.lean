import Mathlib.Data.List.Basic

/-!
# Encodings which delimit themselves

An encoding delimits itself when a reader finds its end in whatever follows. The
concatenation of such encodings determines the list of the encoded values.
-/

namespace Framing

variable {A B : Type*}

/-- Nothing that follows changes what is read, for the values in question. -/
def Delimited (valid : A → Prop) (encode : A → List B) : Prop :=
  ∀ a b rest rest', valid a → valid b → encode a ++ rest = encode b ++ rest' → a = b ∧ rest = rest'

variable {valid : A → Prop} {encode : A → List B}

/-- A concatenation of encodings which are not empty determines the values. -/
theorem Delimited.flatMap_inj (h : Delimited valid encode) (hne : ∀ a, valid a → encode a ≠ [])
    {xs ys : List A} (hxs : ∀ x ∈ xs, valid x) (hys : ∀ y ∈ ys, valid y)
    (heq : xs.flatMap encode = ys.flatMap encode) : xs = ys := by
  induction xs generalizing ys with
  | nil =>
    cases ys with
    | nil => rfl
    | cons y ys =>
      rw [List.flatMap_nil, List.flatMap_cons] at heq
      exact absurd (List.append_eq_nil_iff.mp heq.symm).1 (hne y (hys y List.mem_cons_self))
  | cons x xs ih =>
    cases ys with
    | nil =>
      rw [List.flatMap_nil, List.flatMap_cons] at heq
      exact absurd (List.append_eq_nil_iff.mp heq).1 (hne x (hxs x List.mem_cons_self))
    | cons y ys =>
      rw [List.flatMap_cons, List.flatMap_cons] at heq
      obtain ⟨rfl, hrest⟩ := h x y _ _ (hxs x List.mem_cons_self) (hys y List.mem_cons_self) heq
      rw [ih (fun z hz => hxs z (List.mem_cons_of_mem _ hz))
        (fun z hz => hys z (List.mem_cons_of_mem _ hz)) hrest]

end Framing
