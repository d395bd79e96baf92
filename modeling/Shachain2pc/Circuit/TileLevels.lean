import Shachain2pc.Circuit.Bristol
import Mathlib.Tactic.Ring

/-!
# Levels of tiles

`plan_tile_levels` covers a number of bits by tiles of one height, from the highest bits down.
When the height does not divide the number of bits, the first tiles are lower.
-/

namespace Shachain2pc

structure TileLevel where
  bitOffset : ℕ
  height : ℕ
  deriving DecidableEq, Repr

/-- The loop of `plan_tile_levels`, which ends at offset zero. -/
def tileLevelsFrom (tileHeight offset : ℕ) : List TileLevel :=
  ⟨offset, tileHeight⟩ :: if offset = 0 ∨ tileHeight = 0 then
    [] else tileLevelsFrom tileHeight (offset - tileHeight)
termination_by offset

/-- `plan_tile_levels`. -/
def planTileLevels (depth tileHeight : ℕ) : Except CircuitError (List TileLevel) :=
  if tileHeight < 1 then .error (.shape "PlanTileLevels: tile_height must be >= 1")
  else if depth < tileHeight then .error (.shape "PlanTileLevels: depth must be >= tile_height")
  else
    let r := depth % tileHeight
    let first := if r ≠ 0 then [⟨depth - r, r⟩] else []
    let remaining := if r ≠ 0 then depth - r else depth
    .ok (first ++ tileLevelsFrom tileHeight (remaining - tileHeight))

/-- Levels cover a number of bits: each starts where the one above ends, the last at zero. -/
def CoverBits (maxHeight : ℕ) : ℕ → List TileLevel → Prop
  | depth, [] => depth = 0
  | depth, level :: rest =>
    level.bitOffset + level.height = depth ∧ 1 ≤ level.height ∧ level.height ≤ maxHeight ∧
      CoverBits maxHeight level.bitOffset rest

/-- Levels of low tiles are levels of higher ones. -/
theorem CoverBits.mono {height height' depth : ℕ} {levels : List TileLevel} (hle : height ≤ height')
    (h : CoverBits height depth levels) : CoverBits height' depth levels := by
  induction levels generalizing depth with
  | nil => exact h
  | cons level rest ih => exact ⟨h.1, h.2.1, h.2.2.1.trans hle, ih h.2.2.2⟩

/-- The loop covers a multiple of the height. -/
theorem tileLevelsFrom_cover {tileHeight : ℕ} (hpos : 1 ≤ tileHeight) (count : ℕ) :
    CoverBits tileHeight ((count + 1) * tileHeight)
      (tileLevelsFrom tileHeight (count * tileHeight)) := by
  induction count with
  | zero =>
    rw [tileLevelsFrom, if_pos (.inl (Nat.zero_mul _))]
    exact ⟨by ring, hpos, le_rfl, Nat.zero_mul _⟩
  | succ count ih =>
    have hne : (count + 1) * tileHeight ≠ 0 := Nat.mul_ne_zero (Nat.succ_ne_zero count) (by omega)
    have hnext : (count + 1) * tileHeight - tileHeight = count * tileHeight := by
      rw [Nat.succ_mul, Nat.add_sub_cancel]
    rw [tileLevelsFrom, if_neg (by omega), hnext]
    exact ⟨by ring, hpos, le_rfl, ih⟩

/-- The planned levels cover the bits. -/
theorem planTileLevels_cover {depth tileHeight : ℕ} (hpos : 1 ≤ tileHeight)
    (hdepth : tileHeight ≤ depth) :
    ∃ level rest, planTileLevels depth tileHeight = .ok (level :: rest) ∧
      CoverBits tileHeight depth (level :: rest) := by
  obtain ⟨count, hcount⟩ : ∃ count, depth / tileHeight = count + 1 :=
    Nat.exists_eq_succ_of_ne_zero (Nat.div_pos hdepth hpos).ne'
  have hdivmod := Nat.div_add_mod' depth tileHeight
  rw [hcount, Nat.succ_mul] at hdivmod
  have hcover := tileLevelsFrom_cover hpos count
  rw [planTileLevels, if_neg (by omega), if_neg (by omega)]
  by_cases hr : depth % tileHeight = 0
  · have hoffset : depth - tileHeight = count * tileHeight := by omega
    have htotal : (count + 1) * tileHeight = depth := by
      rw [Nat.succ_mul]
      omega
    simp only [hr, ne_eq, not_true_eq_false, if_false, List.nil_append, hoffset]
    rw [htotal] at hcover
    rw [tileLevelsFrom] at hcover ⊢
    exact ⟨_, _, rfl, hcover⟩
  · have hoffset : depth - depth % tileHeight - tileHeight = count * tileHeight := by omega
    have htotal : (count + 1) * tileHeight = depth - depth % tileHeight := by
      rw [Nat.succ_mul]
      omega
    have hlt := Nat.mod_lt depth hpos
    simp only [hr, ne_eq, not_false_eq_true, if_true, hoffset, List.singleton_append]
    rw [htotal] at hcover
    exact ⟨_, _, rfl, by simp only; omega, Nat.pos_of_ne_zero hr, hlt.le, hcover⟩

end Shachain2pc
