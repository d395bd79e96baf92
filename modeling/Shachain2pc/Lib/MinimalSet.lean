import Mathlib.Order.Antichain

/-!
# Keeping the minimal elements of a growing set

A set that only ever stores elements no stored element already yields is an antichain, and
what its elements yield is what the inserted elements yield. Elements and the relation
"yields" are arbitrary.
-/

namespace MinimalSet

variable {A : Type*} (r : A → A → Prop)

/-- Everything some element of the set yields. -/
def upward (S : Set A) : Set A := {j | ∃ i ∈ S, r i j}

open Classical in
/-- Insert an element unless a stored one yields it, dropping what it yields itself. -/
noncomputable def insertMinimal (S : Set A) (x : A) : Set A :=
  if x ∈ upward r S then S else insert x {y ∈ S | ¬ r x y}

variable {r}

/-- Larger sets yield more. -/
theorem upward_mono {S T : Set A} (h : S ⊆ T) : upward r S ⊆ upward r T :=
  fun _ ⟨i, hi, hr⟩ => ⟨i, h hi, hr⟩

/-- A union yields what either part yields. -/
theorem upward_union (S T : Set A) : upward r (S ∪ T) = upward r S ∪ upward r T := by
  ext j
  constructor
  · rintro ⟨i, hi | hi, hr⟩
    · exact .inl ⟨i, hi, hr⟩
    · exact .inr ⟨i, hi, hr⟩
  · rintro (⟨i, hi, hr⟩ | ⟨i, hi, hr⟩)
    · exact ⟨i, .inl hi, hr⟩
    · exact ⟨i, .inr hi, hr⟩

/-- Inserting keeps the stored elements pairwise incomparable. -/
theorem insertMinimal_isAntichain {S : Set A} (hS : IsAntichain r S) (x : A) :
    IsAntichain r (insertMinimal r S x) := by
  unfold insertMinimal
  split
  · exact hS
  · next hx =>
    intro a ha b hb hne hr
    rcases ha with rfl | ⟨ha, hxa⟩
    · rcases hb with rfl | ⟨-, hxb⟩
      · exact hne rfl
      · exact hxb hr
    · rcases hb with rfl | ⟨hb, -⟩
      · exact hx ⟨a, ha, hr⟩
      · exact hS ha hb hne hr

/-- Inserting a minimal element yields exactly what plain insertion yields. -/
theorem upward_insertMinimal (htrans : ∀ a b c, r a b → r b c → r a c)
    (S : Set A) (x : A) : upward r (insertMinimal r S x) = upward r (insert x S) := by
  unfold insertMinimal
  split
  · next hx =>
    obtain ⟨i, hi, hix⟩ := hx
    refine Set.Subset.antisymm (upward_mono (Set.subset_insert _ _)) ?_
    rintro j ⟨y, rfl | hy, hyj⟩
    · exact ⟨i, hi, htrans _ _ _ hix hyj⟩
    · exact ⟨y, hy, hyj⟩
  · refine Set.Subset.antisymm (upward_mono (Set.insert_subset_insert fun _ hy => hy.1)) ?_
    rintro j ⟨y, rfl | hy, hyj⟩
    · exact ⟨y, .inl rfl, hyj⟩
    · by_cases hxy : r x y
      · exact ⟨x, .inl rfl, htrans _ _ _ hxy hyj⟩
      · exact ⟨y, .inr ⟨hy, hxy⟩, hyj⟩

/-- A whole sequence of insertions keeps an antichain. -/
theorem foldl_insertMinimal_isAntichain {S : Set A} (hS : IsAntichain r S) (xs : List A) :
    IsAntichain r (xs.foldl (insertMinimal r) S) := by
  induction xs generalizing S with
  | nil => exact hS
  | cons x rest ih => exact ih (insertMinimal_isAntichain hS x)

/-- A whole sequence of insertions yields what its elements yield. -/
theorem upward_foldl_insertMinimal (htrans : ∀ a b c, r a b → r b c → r a c) (S : Set A)
    (xs : List A) :
    upward r (xs.foldl (insertMinimal r) S) = upward r (S ∪ {x | x ∈ xs}) := by
  induction xs generalizing S with
  | nil => simp
  | cons x rest ih =>
    have hset : S ∪ {y | y ∈ x :: rest} = insert x S ∪ {y | y ∈ rest} := by
      ext y
      simp only [Set.mem_union, Set.mem_ofPred_eq, List.mem_cons, Set.mem_insert_iff]
      tauto
    rw [List.foldl_cons, ih, hset, upward_union, upward_union, upward_insertMinimal htrans]

end MinimalSet
