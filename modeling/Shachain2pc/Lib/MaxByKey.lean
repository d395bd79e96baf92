import Mathlib.Data.List.Basic
import Mathlib.Data.List.Forall2
import Mathlib.Data.List.Induction
import Mathlib.Order.Basic
import Mathlib.Algebra.Order.Group.Nat
import Mathlib.Data.Option.Basic

/-!
# The last entry of maximal key

`max_by_key` of an iterator returns the last of the entries whose key is maximal. Entries
related pairwise, with equal keys, have related maxima.
-/

namespace MaxByKey

variable {A B : Type}

/-- The maximum after one more entry, which wins a tie. -/
def later (key : A → ℕ) (best : Option A) (entry : A) : A :=
  match best with
  | none => entry
  | some other => if key entry < key other then other else entry

/-- `max_by_key`. -/
def maxByKey (key : A → ℕ) (entries : List A) : Option A :=
  entries.foldl (fun best entry => some (later key best entry)) none

variable {key : A → ℕ} {entries : List A} {best : A}

/-- One more entry competes with the maximum of the others. -/
theorem maxByKey_append_singleton (key : A → ℕ) (entries : List A) (entry : A) :
    maxByKey key (entries ++ [entry]) = some (later key (maxByKey key entries) entry) := by
  rw [maxByKey, List.foldl_append]
  rfl

/-- A list without a maximum is empty. -/
theorem maxByKey_eq_none : maxByKey key entries = none ↔ entries = [] := by
  induction entries using List.reverseRecOn with
  | nil => exact ⟨fun _ => rfl, fun _ => rfl⟩
  | append_singleton rest entry =>
    rw [maxByKey_append_singleton]
    simp

/-- The maximum is listed, and no listed entry has a larger key. -/
theorem maxByKey_spec (h : maxByKey key entries = some best) :
    best ∈ entries ∧ ∀ entry ∈ entries, key entry ≤ key best := by
  induction entries using List.reverseRecOn generalizing best with
  | nil => cases h
  | append_singleton rest last ih =>
    rw [maxByKey_append_singleton] at h
    have hbest := Option.some.inj h
    cases hrest : maxByKey key rest with
    | none =>
      rw [hrest] at hbest
      rw [maxByKey_eq_none.mp hrest, ← hbest]
      simp [later]
    | some other =>
      obtain ⟨hmem, hmax⟩ := ih hrest
      rw [hrest, later] at hbest
      split at hbest
      · next hlt =>
        rw [← hbest]
        refine ⟨List.mem_append_left _ hmem, fun entry hentry => ?_⟩
        rcases List.mem_append.mp hentry with hold | hlast
        · exact hmax entry hold
        · exact List.mem_singleton.mp hlast ▸ hlt.le
      · next hge =>
        rw [← hbest]
        refine ⟨by simp, fun entry hentry => ?_⟩
        rcases List.mem_append.mp hentry with hold | hlast
        · exact (hmax entry hold).trans (Nat.le_of_not_lt hge)
        · exact (List.mem_singleton.mp hlast ▸ le_rfl)

/-- Related entries with equal keys have related maxima. -/
theorem maxByKey_rel {R : A → B → Prop} {key' : B → ℕ} {entries' : List B}
    (hkey : ∀ entry entry', R entry entry' → key entry = key' entry')
    (h : List.Forall₂ R entries entries') :
    Option.Rel R (maxByKey key entries) (maxByKey key' entries') := by
  have hfold (best : Option A) (best' : Option B) (hbest : Option.Rel R best best') :
      Option.Rel R (entries.foldl (fun best entry => some (later key best entry)) best)
        (entries'.foldl (fun best entry => some (later key' best entry)) best') := by
    induction h generalizing best best' with
    | nil => exact hbest
    | @cons entry entry' rest rest' hentry _ ih =>
      refine ih _ _ (.some ?_)
      cases hbest with
      | none => exact hentry
      | some hother =>
        simp only [later, hkey _ _ hentry, hkey _ _ hother]
        split
        · exact hother
        · exact hentry
  exact hfold none none .none

end MaxByKey
