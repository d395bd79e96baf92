import Mathlib.Data.List.Basic
import Mathlib.Tactic.SplitIfs

/-!
# Loops which change a list in place

A loop over a range which changes, in each step, one entry of a window, or the entries of
two windows. After it each entry of a window was changed once, and the other entries are as
before.
-/

namespace InPlaceLoop

variable {α : Type} {f g : ℕ → α → α} {d : α}

/-- Reading an entry after a change. -/
theorem getD_modify {xs : List α} {i : ℕ} (hi : i < xs.length) (f : α → α) (j : ℕ) :
    (xs.modify i f).getD j d = if i = j then f (xs.getD j d) else xs.getD j d := by
  rw [List.getD_eq_getElem?_getD, List.getD_eq_getElem?_getD, List.getElem?_modify]
  split_ifs with h
  · subst h
    rw [List.getElem?_eq_getElem hi]
    rfl
  · cases xs[j]? <;> rfl

/-- The entries of one window, changed in turn. -/
def modifyRange (f : ℕ → α → α) (off n : ℕ) (xs : List α) : List α :=
  (List.range n).foldl (fun ys k => ys.modify (off + k) (f k)) xs

/-- One more entry of a window. -/
theorem modifyRange_succ (f : ℕ → α → α) (off n : ℕ) (xs : List α) :
    modifyRange f off (n + 1) xs = (modifyRange f off n xs).modify (off + n) (f n) := by
  rw [modifyRange, List.range_succ, List.foldl_append]
  rfl

/-- The list keeps its length. -/
@[simp] theorem modifyRange_length (f : ℕ → α → α) (off n : ℕ) (xs : List α) :
    (modifyRange f off n xs).length = xs.length := by
  induction n with
  | zero => rfl
  | succ n ih => rw [modifyRange_succ, List.length_modify, ih]

/-- The entries after the loop. -/
theorem modifyRange_getD {off n : ℕ} {xs : List α} (hfit : off + n ≤ xs.length) (j : ℕ) :
    (modifyRange f off n xs).getD j d =
      if off ≤ j ∧ j < off + n then f (j - off) (xs.getD j d) else xs.getD j d := by
  induction n with
  | zero =>
    rw [if_neg (by omega)]
    rfl
  | succ n ih =>
    rw [modifyRange_succ, getD_modify (by rw [modifyRange_length]; omega), ih (by omega)]
    by_cases h : off + n = j
    · subst h
      rw [if_pos rfl, if_neg (by omega), if_pos (by omega), Nat.add_sub_cancel_left]
    · rw [if_neg h]
      exact if_congr (by omega) rfl rfl

/-- The entries of two windows, of which the first begins the list, changed in turn. -/
def modifyTwo (f g : ℕ → α → α) (off n : ℕ) (xs : List α) : List α :=
  (List.range n).foldl (fun ys k => (ys.modify k (f k)).modify (off + k) (g k)) xs

/-- One more entry of both windows. -/
theorem modifyTwo_succ (f g : ℕ → α → α) (off n : ℕ) (xs : List α) :
    modifyTwo f g off (n + 1) xs =
      ((modifyTwo f g off n xs).modify n (f n)).modify (off + n) (g n) := by
  rw [modifyTwo, List.range_succ, List.foldl_append]
  rfl

/-- The list keeps its length. -/
@[simp] theorem modifyTwo_length (f g : ℕ → α → α) (off n : ℕ) (xs : List α) :
    (modifyTwo f g off n xs).length = xs.length := by
  induction n with
  | zero => rfl
  | succ n ih => rw [modifyTwo_succ, List.length_modify, List.length_modify, ih]

/-- The entries after the loop, when the windows do not overlap. -/
theorem modifyTwo_getD {off n : ℕ} {xs : List α} (hfit : off + n ≤ xs.length) (hapart : n ≤ off)
    (j : ℕ) :
    (modifyTwo f g off n xs).getD j d =
      if j < n then f j (xs.getD j d)
      else if off ≤ j ∧ j < off + n then g (j - off) (xs.getD j d) else xs.getD j d := by
  induction n with
  | zero =>
    rw [if_neg (by omega), if_neg (by omega)]
    rfl
  | succ n ih =>
    have hlength := modifyTwo_length f g off n xs
    rw [modifyTwo_succ, getD_modify (by rw [List.length_modify]; omega), getD_modify (by omega),
      ih (by omega) (by omega)]
    by_cases hoff : off + n = j
    · subst hoff
      rw [if_pos rfl, if_neg (by omega), if_neg (by omega), if_neg (by omega), if_neg (by omega),
        if_pos (by omega), Nat.add_sub_cancel_left]
    · rw [if_neg hoff]
      by_cases hn : n = j
      · subst hn
        rw [if_pos rfl, if_neg (by omega), if_neg (by omega), if_pos (by omega)]
      · rw [if_neg hn]
        exact if_congr (by omega) rfl (if_congr (by omega) rfl rfl)

end InPlaceLoop
