import Mathlib.Logic.Function.Basic
import Mathlib.Data.List.Basic
import Mathlib.Algebra.Order.Group.Int
import Mathlib.Algebra.Group.Nat.Defs

/-!
# Panicking operations of Rust

A Rust function returns an error of its own type or panics. Checked `i32` arithmetic,
indexing, slicing, and allocation panic; their models keep panics distinct from
returned errors. Vectors which tabulate an environment `ℕ → A` are read and written
through that environment.
-/

namespace Rust

/-- A computation either returns an error of its own type or panics. -/
inductive Failure (E : Type) where
  | error (e : E)
  | panic
  deriving DecidableEq, Repr

/-- Fallible Rust code which may also panic. -/
abbrev Outcome (E : Type) := Except (Failure E)

/-- The `i32` range. -/
def i32Max : ℤ := 2 ^ 31 - 1

/-- An `i32` result, panicking when the exact value leaves the range. -/
def checkedI32 {E : Type} (value : ℤ) : Outcome E ℤ :=
  if -(2 ^ 31) ≤ value ∧ value ≤ i32Max then .ok value else .error .panic

/-- A `usize` sum, panicking when the exact value leaves the range. -/
def checkedUsize {E : Type} (value : ℕ) : Outcome E ℕ :=
  if value < 2 ^ 64 then .ok value else .error .panic

/-- The cast `as usize` of an `i32`, which sign-extends to 64 bits. -/
def asUsize (value : ℤ) : ℕ := (value % 2 ^ 64).toNat

/-- Read one slot of a vector, panicking when the index is out of range. -/
def readSlot {A E : Type} (slots : List A) (i : ℕ) : Outcome E A :=
  match slots[i]? with
  | some value => .ok value
  | none => .error .panic

/-- Overwrite one slot of a vector, panicking when the index is out of range. -/
def writeSlot {A E : Type} (slots : List A) (i : ℕ) (value : A) : Outcome E (List A) :=
  if i < slots.length then .ok (slots.set i value) else .error .panic

/-- The subslice `slots[start..start + len]`, panicking when it is out of range. -/
def readSlice {A E : Type} (slots : List A) (start len : ℕ) : Outcome E (List A) :=
  if start + len ≤ slots.length then .ok ((slots.drop start).take len) else .error .panic

/-- `vec![value; len]`; a length above `isize::MAX` is a capacity overflow. -/
def newVec {A E : Type} (value : A) (len : ℕ) : Outcome E (List A) :=
  if len < 2 ^ 63 then .ok (List.replicate len value) else .error .panic

/-- The computation succeeds with a value satisfying the postcondition. -/
def Yields {E A : Type} (outcome : Outcome E A) (post : A → Prop) : Prop :=
  ∃ value, outcome = .ok value ∧ post value

/-- A mapped result is successful when the result is. -/
theorem map_eq_ok {E A B : Type} {first : Except E A} {f : A → B} {result : B}
    (h : first.map f = .ok result) : ∃ value, first = .ok value ∧ f value = result := by
  cases first with
  | error e => cases h
  | ok value => exact ⟨value, rfl, Except.ok.inj h⟩

/-- A result with its error mapped is successful when the result is. -/
theorem mapError_eq_ok {E F A : Type} {result : Except E A} {f : E → F} {value : A}
    (h : result.mapError f = .ok value) : result = .ok value := by
  cases result with
  | error e => cases h
  | ok value' => exact congrArg Except.ok (Except.ok.inj h)

/-- A successful sequence had a successful first part. -/
theorem bind_eq_ok {E A B : Type} {first : Except E A} {next : A → Except E B} {result : B}
    (h : (first >>= next) = .ok result) : ∃ value, first = .ok value ∧ next value = .ok result := by
  cases first with
  | error e => cases h
  | ok value => exact ⟨value, rfl, h⟩

/-- A part which returned is followed by the rest. -/
theorem ok_bind {E A B : Type} (a : A) (next : A → Except E B) : (Except.ok a >>= next) = next a :=
  rfl

/-- A fallible map returns what each call returns. -/
theorem mapM_eq_ok {E A B : Type} {f : A → Except E B} {g : A → B} {P : A → Prop} {entries : List A}
    {results : List B} (h : entries.mapM f = .ok results)
    (hf : ∀ a ∈ entries, ∀ b, f a = .ok b → b = g a ∧ P a) :
    results = entries.map g ∧ ∀ a ∈ entries, P a := by
  induction entries generalizing results with
  | nil =>
    cases h
    exact ⟨rfl, by simp⟩
  | cons entry rest ih =>
    rw [List.mapM_cons] at h
    obtain ⟨first, hfirst, h⟩ := bind_eq_ok h
    obtain ⟨others, hothers, h⟩ := bind_eq_ok h
    cases h
    obtain ⟨rfl, hentry⟩ := hf entry List.mem_cons_self first hfirst
    obtain ⟨rfl, hrest⟩ := ih hothers fun a ha => hf a (List.mem_cons_of_mem _ ha)
    exact ⟨rfl, List.forall_mem_cons.mpr ⟨hentry, hrest⟩⟩

/-- A fallible map in which every call returns. -/
theorem mapM_eq_map {E A B : Type} {f : A → Except E B} {g : A → B} {entries : List A}
    (h : ∀ a ∈ entries, f a = .ok (g a)) : entries.mapM f = .ok (entries.map g) := by
  induction entries with
  | nil => rfl
  | cons entry rest ih =>
    rw [List.mapM_cons, h entry List.mem_cons_self, ih fun a ha => h a (List.mem_cons_of_mem _ ha)]
    rfl

/-- Loops whose bodies agree on the entries give the same result. -/
theorem foldlM_congr {E A B : Type} {f g : A → B → Except E A} {entries : List B} {state : A}
    (h : ∀ a, ∀ b ∈ entries, f a b = g a b) : entries.foldlM f state = entries.foldlM g state := by
  induction entries generalizing state with
  | nil => rfl
  | cons entry rest ih =>
    rw [List.foldlM_cons, List.foldlM_cons, h state entry List.mem_cons_self]
    exact bind_congr fun next => ih fun a b hb => h a b (List.mem_cons_of_mem _ hb)

/-- Nonnegative `i32` values keep their value as `usize`. -/
theorem asUsize_natCast {n : ℕ} (hn : n < 2 ^ 64) : asUsize n = n := by
  unfold asUsize
  omega

/-- An `i32` whose `usize` cast is a possible capacity is nonnegative. -/
theorem natCast_asUsize {value : ℤ} (hlow : -(2 ^ 31) ≤ value) (hhigh : value ≤ i32Max)
    (hcap : asUsize value < 2 ^ 63) : (asUsize value : ℤ) = value := by
  unfold asUsize i32Max at *
  omega

/-- A checked result inside the range is returned exactly. -/
theorem checkedI32_ok {E : Type} {value : ℤ} (hlow : -(2 ^ 31) ≤ value) (hhigh : value ≤ i32Max) :
    (checkedI32 value : Outcome E ℤ) = .ok value :=
  if_pos ⟨hlow, hhigh⟩

/-- A checked `i32` is the value, which fits. -/
theorem checkedI32_eq_ok {E : Type} {value result : ℤ}
    (h : (checkedI32 value : Outcome E ℤ) = .ok result) : result = value ∧ value ≤ i32Max := by
  unfold checkedI32 at h
  split at h
  · rename_i hrange
    exact ⟨(Except.ok.inj h).symm, hrange.2⟩
  · cases h

/-- A slot which is written is in range. -/
theorem writeSlot_eq_ok {A E : Type} {slots result : List A} {i : ℕ} {value : A}
    (h : (writeSlot slots i value : Outcome E (List A)) = .ok result) :
    i < slots.length ∧ result = slots.set i value := by
  unfold writeSlot at h
  split at h
  · rename_i hlt
    exact ⟨hlt, (Except.ok.inj h).symm⟩
  · cases h

/-- A slice which is read is in range. -/
theorem readSlice_eq_ok {A E : Type} {slots result : List A} {start len : ℕ}
    (h : (readSlice slots start len : Outcome E (List A)) = .ok result) :
    start + len ≤ slots.length ∧ result = (slots.drop start).take len := by
  unfold readSlice at h
  split at h
  · rename_i hfits
    exact ⟨hfits, (Except.ok.inj h).symm⟩
  · cases h

/-- A vector which is made repeats its value. -/
theorem newVec_eq_ok {A E : Type} {value : A} {len : ℕ} {result : List A}
    (h : (newVec value len : Outcome E (List A)) = .ok result) :
    result = List.replicate len value := by
  unfold newVec at h
  split at h
  · exact (Except.ok.inj h).symm
  · cases h

/-- Outcome a first part, then every continuation its postcondition allows. -/
theorem Yields.bind {E A B : Type} {first : Outcome E A} {next : A → Outcome E B}
    {mid : A → Prop} {post : B → Prop} (hfirst : Yields first mid)
    (hnext : ∀ value, mid value → Yields (next value) post) : Yields (first >>= next) post := by
  obtain ⟨value, rfl, hmid⟩ := hfirst
  exact hnext value hmid

/-- Weaken a postcondition. -/
theorem Yields.mono {E A : Type} {outcome : Outcome E A} {post weaker : A → Prop}
    (h : Yields outcome post) (hweaker : ∀ value, post value → weaker value) :
    Yields outcome weaker := by
  obtain ⟨value, hvalue, hpost⟩ := h
  exact ⟨value, hvalue, hweaker value hpost⟩

/-- A returned value satisfies every postcondition it meets. -/
theorem Yields.ok {E A : Type} {value : A} {post : A → Prop} (h : post value) :
    Yields (.ok value : Outcome E A) post := ⟨value, rfl, h⟩

/-- Reading a slot of a tabulated environment returns the environment's value. -/
theorem readSlot_map_range {A E : Type} (env : ℕ → A) {n i : ℕ} (hi : i < n) :
    (readSlot ((List.range n).map env) i : Outcome E A) = .ok (env i) := by
  simp [readSlot, hi]

/-- Writing a slot of a tabulated environment updates the environment. -/
theorem writeSlot_map_range {A E : Type} (env : ℕ → A) {n i : ℕ} (hi : i < n) (value : A) :
    (writeSlot ((List.range n).map env) i value : Outcome E (List A)) =
      .ok ((List.range n).map (Function.update env i value)) := by
  rw [writeSlot, if_pos (by simpa using hi)]
  congr 1
  apply List.ext_getElem
  · simp
  · intro j hj _
    by_cases hij : i = j
    · subst hij
      simp
    · simp [List.getElem_set_ne hij, Function.update_of_ne (Ne.symm hij)]

/-- A slice of a tabulated environment reads consecutive wires. -/
theorem readSlice_map_range {A E : Type} (env : ℕ → A) {n start len : ℕ}
    (hfits : start + len ≤ n) :
    (readSlice ((List.range n).map env) start len : Outcome E (List A)) =
      .ok ((List.range len).map fun k => env (start + k)) := by
  rw [readSlice, if_pos (by simpa using hfits)]
  congr 1
  apply List.ext_getElem
  · simp
    omega
  · intro i _ _
    simp

end Rust
