import Mathlib.Algebra.BigOperators.Pi
import Shachain2pc.Compat.SmallFieldVole
import Shachain2pc.Lib.PuncturedTree

/-!
# The punctured pseudorandom function

A sender expands a root into the leaves of a tree, and has for each level the sum of its left
children. The first level is the root and its sum with Delta, so that every level sums up to
Delta. A receiver is given, for each level, the sum of the children off its path, and finds
every leaf but the one at the end of the path. The last level may clear the lowest bit of
its leaves.
-/

namespace Shachain2pc

open PuncturedTree

variable (permute : Block → Block → Block)

/-! ## One level in place -/

/-- The child of a node on one side. -/
def cggmChild (clearLsb right : Bool) (parent : Block) : Block :=
  let left := ccrhHash permute parent
  let child := if right then blockXor parent left else left
  if clearLsb then blockAnd child cggmLsbClearMask else child

/-- What a level does to the sum of two children. -/
def cggmProject (clearLsb : Bool) : (Fin 128 → ZMod 2) →+ (Fin 128 → ZMod 2) where
  toFun v i := if clearLsb ∧ i.val = 0 then 0 else v i
  map_zero' := by
    funext i
    simp
  map_add' v w := by
    funext i
    by_cases h : clearLsb ∧ i.val = 0
    · simp only [Pi.add_apply, if_pos h, add_zero]
    · simp only [Pi.add_apply, if_neg h]

/-- Projecting twice is projecting once. -/
@[simp] theorem cggmProject_project (clearLsb : Bool) (v : Fin 128 → ZMod 2) :
    cggmProject clearLsb (cggmProject clearLsb v) = cggmProject clearLsb v := by
  funext i
  by_cases h : clearLsb ∧ i = 0
  · simp [cggmProject, h]
  · simp [cggmProject, h]

/-- A level which does not clear bits keeps every value. -/
@[simp] theorem cggmProject_false (v : Fin 128 → ZMod 2) : cggmProject false v = v := by
  funext i
  simp [cggmProject]

/-- The mask clears the lowest bit. -/
@[simp] theorem blockVec_and_lsbClearMask (b : Block) :
    blockVec (blockAnd b cggmLsbClearMask) = cggmProject true (blockVec b) := by
  funext i
  have hbits : ∀ i : Fin 128, blockVec cggmLsbClearMask i = if i = 0 then 0 else 1 := by
    decide +kernel
  have hand :
      blockVec (blockAnd b cggmLsbClearMask) i = blockVec b i * blockVec cggmLsbClearMask i := by
    simp [blockVec, blockAnd]
  rw [hand, hbits i]
  by_cases h : i = 0
  · simp [cggmProject, h]
  · simp [cggmProject, h]

/-- Clearing the bit when a level does so. -/
theorem blockVec_cleared (clearLsb : Bool) (b : Block) :
    blockVec (if clearLsb then blockAnd b cggmLsbClearMask else b) = cggmProject clearLsb
      (blockVec b) := by
  cases clearLsb with
  | false => exact (cggmProject_false _).symm
  | true => exact blockVec_and_lsbClearMask b

/-- A child is a projected value. -/
theorem cggmProject_child (clearLsb right : Bool) (parent : Block) :
    cggmProject clearLsb (blockVec (cggmChild permute clearLsb right parent)) =
      blockVec (cggmChild permute clearLsb right parent) := by
  rw [cggmChild, blockVec_cleared, cggmProject_project]

/-- The children of a node sum up to the node. -/
theorem cggmChild_add (clearLsb : Bool) (parent : Block) :
    blockVec (cggmChild permute clearLsb false parent) +
      blockVec (cggmChild permute clearLsb true parent) =
      cggmProject clearLsb (blockVec parent) := by
  rw [cggmChild, cggmChild, blockVec_cleared, blockVec_cleared, ← map_add]
  congr 1
  rw [if_pos rfl, if_neg Bool.false_ne_true, blockVec_xor, add_left_comm,
    blockVec_add_self, add_zero]

/-- The two children of a node which is zero are the same. -/
theorem cggmChild_zero (clearLsb right : Bool) :
    cggmChild permute clearLsb right Block.zero = cggmChild permute clearLsb false Block.zero := by
  apply blockVec_injective
  rw [cggmChild, cggmChild, blockVec_cleared, blockVec_cleared]
  cases right with
  | false => rfl
  | true => rw [if_pos rfl, if_neg Bool.false_ne_true, blockVec_xor, blockVec_zero, zero_add]

/-- One parent, by its children. -/
theorem cggmExpandStep_eq (parents : ℕ) (wantRight clearLsb : Bool) (state : List Block × Block)
    (j : ℕ) :
    cggmExpandStep permute parents wantRight clearLsb state j =
      let parent := state.1.getD j Block.zero
      ((state.1.set (parents + j) (cggmChild permute clearLsb true parent)).set j
          (cggmChild permute clearLsb false parent),
        blockXor state.2 (cggmChild permute clearLsb wantRight parent)) := by
  cases clearLsb <;> cases wantRight <;> rfl

/-- The first steps of a level: parents become left children, and the right ones follow the
parents. -/
theorem foldl_cggmExpandStep {leaves : List Block} {parents m : ℕ} (hm : m ≤ parents)
    (hfit : 2 * parents ≤ leaves.length) (wantRight clearLsb : Bool) :
    let result := (List.range m).foldl (cggmExpandStep permute parents wantRight clearLsb)
      (leaves, Block.zero)
    result.1.length = leaves.length ∧
      (∀ j, result.1.getD j Block.zero =
        if j < m then cggmChild permute clearLsb false (leaves.getD j Block.zero)
        else if parents ≤ j ∧ j < parents + m then
          cggmChild permute clearLsb true (leaves.getD (j - parents) Block.zero)
        else leaves.getD j Block.zero) ∧
      blockVec result.2 =
        ∑ j ∈ Finset.range m,
        blockVec (cggmChild permute clearLsb wantRight (leaves.getD j Block.zero)) := by
  induction m with
  | zero =>
    refine ⟨rfl, fun j => ?_, blockVec_zero⟩
    rw [if_neg (Nat.not_lt_zero j), if_neg (by omega)]
    rfl
  | succ m ih =>
    obtain ⟨hlength, hentry, hsum⟩ := ih (by omega)
    rw [List.range_succ, List.foldl_append, List.foldl_cons, List.foldl_nil, cggmExpandStep_eq]
    generalize (List.range m).foldl _ (leaves, Block.zero) = before at *
    have hparent : before.1.getD m Block.zero = leaves.getD m Block.zero := by
      rw [hentry, if_neg (by omega), if_neg (by omega)]
    simp only [hparent]
    refine ⟨by simp only [List.length_set, hlength], fun j => ?_, ?_⟩
    · rw [getD_set (by rw [List.length_set]; omega), getD_set (by omega), hentry]
      by_cases hleft : j = m
      · rw [if_pos hleft, if_pos (by omega), hleft]
      · rw [if_neg hleft]
        by_cases hright : j = parents + m
        · rw [if_pos hright, if_neg (by omega), if_pos (by omega), hright, Nat.add_sub_cancel_left]
        · rw [if_neg hright]
          by_cases hlow : j < m
          · rw [if_pos hlow, if_pos (by omega)]
          · by_cases hhigh : parents ≤ j ∧ j < parents + m
            · rw [if_neg hlow, if_pos hhigh, if_neg (by omega), if_pos (by omega)]
            · rw [if_neg hlow, if_neg hhigh, if_neg (by omega), if_neg (by omega)]
    · rw [Finset.sum_range_succ, ← hsum, blockVec_xor]

/-- A level: parents become left children, and the right ones follow them. -/
theorem cggmExpandLevel_spec {leaves : List Block} {parents : ℕ}
    (hfit : 2 * parents ≤ leaves.length) (wantRight clearLsb : Bool) :
    let result := cggmExpandLevel permute leaves parents wantRight clearLsb
    result.1.length = leaves.length ∧
      (∀ j < parents, result.1.getD j Block.zero =
        cggmChild permute clearLsb false (leaves.getD j Block.zero)) ∧
      (∀ j < parents, result.1.getD (parents + j) Block.zero =
        cggmChild permute clearLsb true (leaves.getD j Block.zero)) ∧
      blockVec result.2 = ∑ j ∈ Finset.range parents,
        blockVec (cggmChild permute clearLsb wantRight (leaves.getD j Block.zero)) := by
  obtain ⟨hlength, hentry, hsum⟩ := foldl_cggmExpandStep permute le_rfl hfit wantRight clearLsb
  refine ⟨hlength, fun j hj => ?_, fun j hj => ?_, hsum⟩
  · exact (hentry j).trans (if_pos hj)
  · refine (hentry (parents + j)).trans ?_
    rw [if_neg (by omega), if_pos (by omega), Nat.add_sub_cancel_left]

/-- A level, by side. -/
theorem cggmExpandLevel_getD {leaves : List Block} {parents : ℕ}
    (hfit : 2 * parents ≤ leaves.length) (wantRight clearLsb side : Bool) {j : ℕ}
    (hj : j < parents) :
    (cggmExpandLevel permute leaves parents wantRight clearLsb).1.getD (j + side.toNat * parents)
      Block.zero = cggmChild permute clearLsb side (leaves.getD j Block.zero) := by
  obtain ⟨-, hleft, hright, -⟩ := cggmExpandLevel_spec permute hfit wantRight clearLsb
  cases side with
  | false => rw [Bool.toNat_false, Nat.zero_mul, Nat.add_zero, hleft j hj]
  | true => rw [Bool.toNat_true, Nat.one_mul, Nat.add_comm, hright j hj]

/-- A position is a parent's position and a side. -/
theorem exists_side {parents j : ℕ} (hj : j < 2 * parents) :
    ∃ (side : Bool) (i : ℕ), i < parents ∧ j = i + side.toNat * parents := by
  by_cases h : j < parents
  · exact ⟨false, j, h, by simp⟩
  · exact ⟨true, j - parents, by omega, by rw [Bool.toNat_true]; omega⟩

/-- Both parts are determined by the position. -/
theorem side_inj {parents i j : ℕ} {side side' : Bool} (hi : i < parents) (hj : j < parents)
    (h : i + side.toNat * parents = j + side'.toNat * parents) : i = j ∧ side = side' := by
  cases side <;> cases side' <;> simp at h ⊢ <;> omega

/-- A child of a node has the position of the node, on one of the sides. -/
theorem parent_eq {parents i pos : ℕ} {side : Bool} (hi : i < parents) (hpos : pos < parents)
    (h : i + side.toNat * parents = pos ∨ i + side.toNat * parents = pos + parents) : i = pos := by
  cases side <;> simp at h <;> omega

/-! ## The levels of the two sides -/

/-- The bit of a level. -/
theorem cggmAlphaBit_eq (depth alpha level : ℕ) :
    cggmAlphaBit depth alpha level = (alpha.testBit (depth - level)).toNat := by
  rw [cggmAlphaBit, Nat.and_one_is_mod, Nat.testBit_eq_decide_div_mod_eq, Nat.shiftRight_eq_div_pow]
  rcases Nat.mod_two_eq_zero_or_one (alpha / 2 ^ (depth - level)) with h | h <;> simp [h]

/-- The keys a receiver obtains: at each level the sum of the left children, or that sum and Delta
when the bit of the level is not set. -/
def cggmReceiverKeys (depth alpha : ℕ) (delta : Block) (k0 : List Block) : List Block :=
  (List.range depth).map fun i =>
    if alpha.testBit (depth - 1 - i) then k0.getD i Block.zero
    else blockXor (k0.getD i Block.zero) delta

/-- After a level the receiver knows every node but one, whose position has the bits of the path. -/
structure PuncturedLevel (depth level alpha : ℕ) (delta : Fin 128 → ZMod 2) (leaves : List Block)
    (receiver : List Block × ℕ) : Prop where
  length : leaves.length = 2 ^ depth
  known_length : receiver.1.length = 2 ^ depth
  sum : ∑ j ∈ Finset.range (2 ^ level), entryVec leaves j = delta
  pos_lt : receiver.2 < 2 ^ level
  pos_bits : ∀ i < level, receiver.2.testBit i = alpha.testBit (depth - 1 - i)
  agree : ∀ j < 2 ^ level, j ≠ receiver.2 →
    receiver.1.getD j Block.zero = leaves.getD j Block.zero
  unknown : receiver.1.getD receiver.2 Block.zero = Block.zero

variable {permute} {depth alpha : ℕ}

/-- The first level. -/
theorem puncturedLevel_one (hdepth : 1 ≤ depth) (delta root : Block) (recvKeys : List Block)
    (hkey : recvKeys.getD 0 Block.zero =
      if alpha.testBit (depth - 1) then root else blockXor root delta) :
    let alpha1 := cggmAlphaBit depth alpha 1
    PuncturedLevel depth 1 alpha (blockVec delta)
      (((List.replicate (2 ^ depth) Block.zero).set 0 root).set 1 (blockXor delta root))
      ((List.replicate (2 ^ depth) Block.zero).set (1 - alpha1)
        (recvKeys.getD 0 Block.zero), alpha1) := by
  intro alpha1
  have halpha1 : alpha1 = (alpha.testBit (depth - 1)).toNat := cggmAlphaBit_eq depth alpha 1
  have hfit : 2 ≤ 2 ^ depth := Nat.le_self_pow (by omega) 2
  have hblank (j : ℕ) : (List.replicate (2 ^ depth) Block.zero).getD j Block.zero = Block.zero := by
    rw [List.getD_eq_getElem?_getD, List.getElem?_replicate]
    split <;> rfl
  have hswap : blockXor root delta = blockXor delta root := by
    apply blockVec_injective
    rw [blockVec_xor, blockVec_xor, add_comm]
  have hentry (j : ℕ) :
      (((List.replicate (2 ^ depth) Block.zero).set 0 root).set 1 (blockXor delta root)).getD
        j Block.zero =
        if j = 1 then blockXor delta root else if j = 0 then root else Block.zero := by
    rw [getD_set (by rw [List.length_set, List.length_replicate]; omega),
      getD_set (by rw [List.length_replicate]; omega), hblank]
  have hknown (j : ℕ) :
      ((List.replicate (2 ^ depth) Block.zero).set (1 - alpha1) (recvKeys.getD 0 Block.zero)).getD j
        Block.zero = if j = 1 - alpha1 then recvKeys.getD 0 Block.zero else Block.zero := by
    rw [getD_set (by rw [List.length_replicate]; omega), hblank]
  refine ⟨by simp, by simp, ?_, ?_, ?_, ?_, ?_⟩
  · rw [pow_one, Finset.sum_range_succ, Finset.sum_range_one, entryVec, entryVec, hentry, hentry,
      if_neg (by decide), if_pos rfl, if_pos rfl, blockVec_xor, add_left_comm,
      blockVec_add_self, add_zero]
  · have hlt : alpha1 < 2 := halpha1 ▸ Bool.toNat_lt _
    exact hlt
  · intro i hi
    obtain rfl : i = 0 := by omega
    have hbit : alpha1.testBit 0 = alpha.testBit (depth - 1) := by
      rw [halpha1]
      cases alpha.testBit (depth - 1) <;> decide
    exact hbit
  · intro j hj hne
    rw [hentry, hknown, hkey]
    cases hbit : alpha.testBit (depth - 1) with
    | false =>
      rw [hbit, Bool.toNat_false] at halpha1
      obtain rfl : j = 1 := by omega
      rw [halpha1, if_pos rfl, if_neg Bool.false_ne_true, if_pos rfl, hswap]
    | true =>
      rw [hbit, Bool.toNat_true] at halpha1
      obtain rfl : j = 0 := by omega
      rw [halpha1, if_pos rfl, if_pos rfl, if_neg (by decide), if_pos rfl]
  · have hne : alpha1 ≠ 1 - alpha1 := by omega
    exact (hknown alpha1).trans (if_neg hne)

/-- A level of the receiver, by the bit of the level. -/
theorem cggmReceiverStep_eq {k : ℕ} {bit clear clearLeafLsb : Bool}
    (hbit : alpha.testBit (depth - 1 - (k + 1)) = bit)
    (hclear : (clearLeafLsb && decide (k + 2 = depth)) = clear) (recvKeys known : List Block)
    (pos : ℕ) :
    cggmReceiverStep permute depth alpha recvKeys clearLeafLsb (known, pos) k =
      let expanded := cggmExpandLevel permute known (2 ^ (k + 1)) (!bit) clear
      let sibling := blockXor (blockXor expanded.2 (expanded.1.getD pos Block.zero))
        (recvKeys.getD (k + 1) Block.zero)
      (((expanded.1.set pos Block.zero).set (pos + 2 ^ (k + 1)) Block.zero).set
          (pos + (!bit).toNat * 2 ^ (k + 1))
          (if clear then blockAnd sibling cggmLsbClearMask else sibling),
        pos + bit.toNat * 2 ^ (k + 1)) := by
  have halphaBit : cggmAlphaBit depth alpha (k + 2) = bit.toNat := by
    rw [cggmAlphaBit_eq, ← hbit, Nat.sub_sub, Nat.add_comm 1]
  have hbar : 1 - bit.toNat = (!bit).toNat := by
    cases bit <;> rfl
  have hside : decide ((!bit).toNat ≠ 0) = !bit := by
    cases bit <;> rfl
  have hlevel : k + 2 - 1 = k + 1 := rfl
  simp only [cggmReceiverStep, halphaBit, hclear, hbar, hside, hlevel]

/-- The sibling of the unknown node is what the key of the level leaves over. -/
theorem PuncturedLevel.sibling_eq {level : ℕ} {delta key : Block} {leaves known : List Block}
    {pos : ℕ} (h : PuncturedLevel depth level alpha (blockVec delta) leaves (known, pos))
    (hlevel : level < depth) (bit clear : Bool)
    (hkey : key =
      let sum := (cggmExpandLevel permute leaves (2 ^ level) false clear).2
      if bit then sum else blockXor sum delta) :
    let expanded := cggmExpandLevel permute known (2 ^ level) (!bit) clear
    let sibling := blockXor (blockXor expanded.2 (expanded.1.getD pos Block.zero)) key
    (if clear then blockAnd sibling cggmLsbClearMask else sibling) =
      cggmChild permute clear (!bit) (leaves.getD pos Block.zero) := by
  intro expanded sibling
  have hfit : 2 * 2 ^ level ≤ 2 ^ depth := by
    rw [← pow_succ']
    exact Nat.pow_le_pow_right (by decide) hlevel
  have hfitKnown : 2 * 2 ^ level ≤ known.length := h.known_length ▸ hfit
  obtain ⟨-, -, -, hsum⟩ := cggmExpandLevel_spec permute (h.length ▸ hfit) false clear
  obtain ⟨-, hleft, -, hknownSum⟩ := cggmExpandLevel_spec permute hfitKnown (!bit) clear
  have hjunk : expanded.1.getD pos Block.zero = cggmChild permute clear (!bit) Block.zero := by
    rw [hleft pos h.pos_lt, h.unknown, cggmChild_zero permute clear (!bit)]
  have hgiven : blockVec key =
      ∑ j ∈ Finset.range (2 ^ level),
      blockVec (cggmChild permute clear false (leaves.getD j Block.zero)) +
        if !bit then blockVec delta else 0 := by
    rw [hkey, ← hsum]
    cases bit with
    | false => exact blockVec_xor _ _
    | true => exact (add_zero _).symm
  apply blockVec_injective
  rw [blockVec_cleared, blockVec_xor, blockVec_xor, hknownSum, hjunk, hgiven]
  refine PuncturedTree.sibling_eq blockVec_add_self h.pos_lt
    (fun side j => blockVec (cggmChild permute clear side (leaves.getD j Block.zero)))
    (fun side j => blockVec (cggmChild permute clear side (known.getD j Block.zero)))
    (!bit) (fun j _ => cggmProject_child permute clear _ _)
    (fun j _ => cggmProject_child permute clear _ _)
      (fun j _ => cggmChild_add permute clear _) h.sum
    (fun j hj hne => ?_) ?_ (cggmProject_child permute clear _ _)
  · rw [h.agree j hj hne]
  · rw [h.unknown]

/-- One more level. -/
theorem PuncturedLevel.step {k : ℕ} {delta : Block} {leaves : List Block}
    {receiver : List Block × ℕ}
    (h : PuncturedLevel depth (k + 1) alpha (blockVec delta) leaves receiver) (hk : k + 1 < depth)
    (clearLeafLsb : Bool) {recvKeys : List Block} (k0 : List Block)
    (hkey : recvKeys.getD (k + 1) Block.zero =
      let sum := (cggmExpandLevel permute leaves (2 ^ (k + 1)) false
        (clearLeafLsb && k + 2 = depth)).2
      if alpha.testBit (depth - 1 - (k + 1)) then sum else blockXor sum delta) :
    PuncturedLevel depth (k + 2) alpha
      (cggmProject (clearLeafLsb && k + 2 = depth) (blockVec delta))
      (cggmSenderStep permute depth clearLeafLsb (leaves, k0) k).1
      (cggmReceiverStep permute depth alpha recvKeys clearLeafLsb receiver k) := by
  obtain ⟨known, pos⟩ := receiver
  generalize hclear : (clearLeafLsb && decide (k + 2 = depth)) = clear at hkey ⊢
  generalize hbit : alpha.testBit (depth - 1 - (k + 1)) = bit at hkey
  have hdouble : 2 ^ (k + 2) = 2 * 2 ^ (k + 1) := pow_succ' 2 (k + 1)
  have hfit : 2 * 2 ^ (k + 1) ≤ 2 ^ depth := by
    rw [← hdouble]
    exact Nat.pow_le_pow_right (by decide) hk
  have hfitSender : 2 * 2 ^ (k + 1) ≤ leaves.length := h.length ▸ hfit
  have hfitKnown : 2 * 2 ^ (k + 1) ≤ known.length := h.known_length ▸ hfit
  have hsibling := h.sibling_eq hk bit clear hkey
  have hchild (side : Bool) {j : ℕ} (hj : j < 2 ^ (k + 1)) :=
    cggmExpandLevel_getD permute hfitSender false clear side hj
  have hknown (side : Bool) {j : ℕ} (hj : j < 2 ^ (k + 1)) :=
    cggmExpandLevel_getD permute hfitKnown (!bit) clear side hj
  obtain ⟨hlength, hleft, hright, -⟩ := cggmExpandLevel_spec permute hfitSender false clear
  obtain ⟨hknownLength, -, -, -⟩ := cggmExpandLevel_spec permute hfitKnown (!bit) clear
  rw [cggmReceiverStep_eq hbit hclear, cggmSenderStep, hclear]
  generalize cggmExpandLevel permute leaves (2 ^ (k + 1)) false clear = expanded at *
  generalize cggmExpandLevel permute known (2 ^ (k + 1)) (!bit) clear = expandedKnown at *
  obtain ⟨hsenderLength, hreceiverLength, hsum, hpos, hbits, hagree, hunknown⟩ := h
  simp only at hpos hbits hagree hunknown hreceiverLength hsibling ⊢
  rw [hsibling]
  have hposSibling : pos + (!bit).toNat * 2 ^ (k + 1) < 2 * 2 ^ (k + 1) :=
    hdouble ▸ add_bit_lt hpos (!bit)
  have hposNext : pos + bit.toNat * 2 ^ (k + 1) < 2 * 2 ^ (k + 1) := hdouble ▸ add_bit_lt hpos bit
  have hentry (j : ℕ) :
      (((expandedKnown.1.set pos Block.zero).set (pos + 2 ^ (k + 1)) Block.zero).set
          (pos + (!bit).toNat * 2 ^ (k + 1))
          (cggmChild permute clear (!bit) (leaves.getD pos Block.zero))).getD j Block.zero =
        if j = pos + (!bit).toNat * 2 ^ (k + 1) then
          cggmChild permute clear (!bit) (leaves.getD pos Block.zero)
        else if j = pos + 2 ^ (k + 1) then Block.zero
        else if j = pos then Block.zero else expandedKnown.1.getD j Block.zero := by
    rw [getD_set (by simp only [List.length_set]; omega), getD_set (by rw [List.length_set]; omega),
      getD_set (by omega)]
  refine ⟨by rw [hlength, hsenderLength], by simp only [List.length_set]; omega, ?_, ?_, ?_, ?_, ?_⟩
  · rw [hdouble, two_mul, Finset.sum_range_add, ← hsum]
    refine Eq.trans ?_ (sum_children
      (fun side j => blockVec (cggmChild permute clear side (leaves.getD j Block.zero))) fun j _ =>
        cggmChild_add permute clear _)
    congr 1
    · refine Finset.sum_congr rfl fun j hj => ?_
      rw [entryVec, hleft j (Finset.mem_range.mp hj)]
    · refine Finset.sum_congr rfl fun j hj => ?_
      rw [entryVec, hright j (Finset.mem_range.mp hj)]
  · exact hdouble ▸ hposNext
  · intro i hi
    rw [testBit_add_bit hpos bit (by omega)]
    by_cases hlast : i = k + 1
    · rw [if_pos hlast, hlast, hbit]
    · rw [if_neg hlast, hbits i (by omega)]
  · intro j hj hne
    obtain ⟨side, i, hi, rfl⟩ := exists_side (hdouble ▸ hj)
    rw [hentry, hchild side hi]
    by_cases hsame : i = pos
    · subst hsame
      have hside : side = !bit := by
        cases side <;> cases bit <;> first | rfl | exact absurd rfl hne
      rw [hside, if_pos rfl]
    · rw [if_neg fun heq => hsame (side_inj hi hpos heq).1,
        if_neg fun heq => hsame (parent_eq hi hpos (Or.inr heq)),
        if_neg fun heq => hsame (parent_eq hi hpos (Or.inl heq)), hknown side hi, hagree i hi hsame]
  · refine (hentry (pos + bit.toNat * 2 ^ (k + 1))).trans ?_
    rw [if_neg fun heq => Bool.not_ne_self bit (side_inj hpos hpos heq).2.symm]
    cases bit with
    | false => rw [Bool.toNat_false, Nat.zero_mul, Nat.add_zero, if_pos rfl, ite_self]
    | true => rw [Bool.toNat_true, Nat.one_mul, if_pos rfl]

/-! ## The tree -/

/-- The sender's leaves and sums after the level `m + 1`. -/
def cggmSenderAt (permute : Block → Block → Block) (depth : ℕ) (delta root : Block)
    (clearLeafLsb : Bool) (m : ℕ) : List Block × List Block :=
  (List.range m).foldl (cggmSenderStep permute depth clearLeafLsb)
    (((List.replicate (2 ^ depth) Block.zero).set 0 root).set 1 (blockXor delta root), [root])

/-- One level more. -/
theorem cggmSenderAt_succ (delta root : Block) (clearLeafLsb : Bool) (m : ℕ) :
    cggmSenderAt permute depth delta root clearLeafLsb (m + 1) =
      cggmSenderStep permute depth clearLeafLsb
        (cggmSenderAt permute depth delta root clearLeafLsb m) m := by
  rw [cggmSenderAt, List.range_succ, List.foldl_append]
  rfl

/-- The sums of a sender: each stays where it is while levels follow. -/
theorem cggmSenderAt_sums (delta root : Block) (clearLeafLsb : Bool) (m : ℕ) :
    let sender := cggmSenderAt permute depth delta root clearLeafLsb
    (sender m).2.length = m + 1 ∧ (sender m).2.getD 0 Block.zero = root ∧
      ∀ k < m, (sender m).2.getD (k + 1) Block.zero =
        (cggmExpandLevel permute (sender k).1 (2 ^ (k + 1)) false
          (clearLeafLsb && k + 2 = depth)).2 := by
  intro sender
  induction m with
  | zero => exact ⟨rfl, rfl, fun k hk => absurd hk (Nat.not_lt_zero k)⟩
  | succ m ih =>
    obtain ⟨hlength, hroot, hsums⟩ := ih
    have hsucc : (sender (m + 1)).2 = (sender m).2 ++
        [(cggmExpandLevel permute (sender m).1 (2 ^ (m + 1)) false
          (clearLeafLsb && m + 2 = depth)).2] := by
      simp only [sender, cggmSenderAt_succ, cggmSenderStep]
    rw [hsucc]
    refine ⟨by rw [List.length_append, hlength]; rfl, ?_, ?_⟩
    · rw [List.getD_append _ _ _ _ (by omega), hroot]
    · intro k hk
      by_cases hlast : k = m
      · rw [List.getD_append_right _ _ _ _ (by omega), hlength, hlast, Nat.sub_self,
          List.getD_cons_zero]
      · rw [List.getD_append _ _ _ _ (by omega), hsums k (by omega)]

/-- What the receiver knows after the level `m + 1`. -/
def cggmReceiverAt (permute : Block → Block → Block) (depth alpha : ℕ) (recvKeys : List Block)
    (clearLeafLsb : Bool) (m : ℕ) : List Block × ℕ :=
  (List.range m).foldl (cggmReceiverStep permute depth alpha recvKeys clearLeafLsb)
    ((List.replicate (2 ^ depth) Block.zero).set (1 - cggmAlphaBit depth alpha 1)
      (recvKeys.getD 0 Block.zero), cggmAlphaBit depth alpha 1)

/-- One level more. -/
theorem cggmReceiverAt_succ (recvKeys : List Block) (clearLeafLsb : Bool) (m : ℕ) :
    cggmReceiverAt permute depth alpha recvKeys clearLeafLsb (m + 1) =
      cggmReceiverStep permute depth alpha recvKeys clearLeafLsb
        (cggmReceiverAt permute depth alpha recvKeys clearLeafLsb m) m := by
  rw [cggmReceiverAt, List.range_succ, List.foldl_append]
  rfl

/-- What the levels do to Delta: only the last one may clear its lowest bit. -/
def cggmDelta (depth : ℕ) (clearLeafLsb : Bool) (delta : Block) (m : ℕ) : Fin 128 → ZMod 2 :=
  cggmProject (clearLeafLsb && 1 ≤ m && m + 1 = depth) (blockVec delta)

/-- Every level of a run is punctured at one node. -/
theorem cggm_puncturedLevel (hdepth : 1 ≤ depth) (delta root : Block) (clearLeafLsb : Bool) {m : ℕ}
    (hm : m < depth) :
    let sender := cggmSenderAt permute depth delta root clearLeafLsb
    let recvKeys := cggmReceiverKeys depth alpha delta (sender (depth - 1)).2
    PuncturedLevel depth (m + 1) alpha (cggmDelta depth clearLeafLsb delta m) (sender m).1
      (cggmReceiverAt permute depth alpha recvKeys clearLeafLsb m) := by
  intro sender recvKeys
  obtain ⟨-, hroot, hsums⟩ := @cggmSenderAt_sums permute depth delta root clearLeafLsb
    (depth - 1)
  have hkey {i : ℕ} (hi : i < depth) : recvKeys.getD i Block.zero =
      if alpha.testBit (depth - 1 - i) then (sender (depth - 1)).2.getD i Block.zero
      else blockXor ((sender (depth - 1)).2.getD i Block.zero) delta := by
    simp only [recvKeys, cggmReceiverKeys]
    rw [List.getD_eq_getElem _ _ (by simpa using hi), List.getElem_map, List.getElem_range]
  induction m with
  | zero =>
    have hfirst := puncturedLevel_one hdepth delta root recvKeys
      (by rw [hkey hm, hroot, Nat.sub_zero])
    rw [cggmDelta, decide_eq_false (by decide), Bool.and_false, Bool.false_and, cggmProject_false]
    exact hfirst
  | succ m ih =>
    have hbefore := ih (by omega)
    have hkeep : cggmDelta depth clearLeafLsb delta m = blockVec delta := by
      rw [cggmDelta, decide_eq_false (p := m + 1 = depth) (by omega), Bool.and_false,
        cggmProject_false]
    rw [hkeep] at hbefore
    have hstep := hbefore.step hm clearLeafLsb (sender m).2 (by rw [hkey hm, hsums m (by omega)])
    rw [cggmDelta, decide_eq_true (p := 1 ≤ m + 1) (by omega), Bool.and_true, cggmReceiverAt_succ]
    simp only [sender, cggmSenderAt_succ]
    exact hstep

/-! ## The bit reversal of the code -/

/-- The steps of the reversal, on a word: the lowest bits in reverse order, and the bits which
follow. -/
theorem foldl_cggmBitReverse (x : UInt32) {m : ℕ} (hm : m ≤ 32) :
    let result := (List.range m).foldl
      (fun (out, x) _ => ((out <<< 1) ||| (x &&& 1), x >>> 1)) ((0 : UInt32), x)
    result.1.toNat = bitReverse m x.toNat ∧ result.2.toNat = x.toNat >>> m := by
  induction m with
  | zero => exact ⟨rfl, rfl⟩
  | succ m ih =>
    obtain ⟨hout, hrest⟩ := ih (by omega)
    rw [List.range_succ, List.foldl_append, List.foldl_cons, List.foldl_nil]
    generalize (List.range m).foldl _ ((0 : UInt32), x) = before at *
    have hfit : bitReverse m x.toNat < 2 ^ 31 :=
      (bitReverse_lt m x.toNat).trans_le (Nat.pow_le_pow_right (by decide) (by omega))
    have hshift : (before.1 <<< 1).toNat = 2 * bitReverse m x.toNat := by
      rw [UInt32.toNat_shiftLeft, hout]
      simp only [UInt32.toNat_one, Nat.reduceMod, Nat.shiftLeft_eq, pow_one]
      omega
    have hlow : (before.2 &&& 1).toNat = (x.toNat.testBit m).toNat := by
      rw [UInt32.toNat_and, hrest, UInt32.toNat_one, Nat.and_one_is_mod,
        Nat.testBit_eq_decide_div_mod_eq, Nat.shiftRight_eq_div_pow]
      rcases Nat.mod_two_eq_zero_or_one (x.toNat / 2 ^ m) with h | h <;> simp [h]
    constructor
    · refine eq_bitReverse ?_ fun i hi => ?_
      · rw [UInt32.toNat_or, hshift, hlow]
        refine Nat.or_lt_two_pow ?_ ?_
        · rw [pow_succ']
          exact Nat.mul_lt_mul_of_pos_left (bitReverse_lt m x.toNat) (by decide)
        · exact (Bool.toNat_lt _).trans_le (Nat.le_self_pow (by omega) 2)
      · rw [UInt32.toNat_or, hshift, hlow, Nat.testBit_or]
        cases i with
        | zero =>
          rw [Nat.testBit_zero, Nat.mul_mod_right, Nat.add_sub_cancel, Nat.sub_zero]
          cases x.toNat.testBit m <;> rfl
        | succ i =>
          have hrest : (x.toNat.testBit m).toNat / 2 = 0 := Nat.div_eq_of_lt (Bool.toNat_lt _)
          rw [Nat.testBit_succ, Nat.mul_div_cancel_left _ (by decide), Nat.testBit_succ, hrest,
            Nat.zero_testBit, Bool.or_false, testBit_bitReverse (by omega)]
          congr 1
          omega
    · rw [UInt32.toNat_shiftRight, hrest]
      simp [Nat.shiftRight_succ]

/-- `cggm_bit_reverse` reverses the lowest bits. -/
theorem cggmBitReverse_toNat (x : UInt32) {depth : ℕ} (hdepth : depth ≤ 32) :
    (cggmBitReverse x depth).toNat = bitReverse depth x.toNat :=
  (foldl_cggmBitReverse x hdepth).1

/-! ## The leaves -/

/-- Reading an entry of a sum of blocks. -/
theorem blockVec_foldl_xor (blocks : List Block) :
    blockVec (blocks.foldl blockXor Block.zero) =
      ∑ j ∈ Finset.range blocks.length, entryVec blocks j := by
  induction blocks using List.reverseRecOn with
  | nil => exact blockVec_zero
  | append_singleton blocks b ih =>
    rw [List.foldl_append, List.foldl_cons, List.foldl_nil, blockVec_xor, ih, List.length_append,
      List.length_singleton, Finset.sum_range_succ]
    congr 1
    · refine Finset.sum_congr rfl fun j hj => ?_
      rw [entryVec, entryVec, List.getD_append _ _ _ _ (Finset.mem_range.mp hj)]
    · rw [entryVec, List.getD_append_right _ _ _ _ le_rfl, Nat.sub_self, List.getD_cons_zero]

/-- The levels before the last one do not depend on the flag. -/
theorem cggmSenderAt_flag (delta root : Block) (clearLeafLsb : Bool) {m : ℕ} (hm : m + 1 < depth) :
    cggmSenderAt permute depth delta root clearLeafLsb m =
      cggmSenderAt permute depth delta root false m := by
  induction m with
  | zero => rfl
  | succ m ih =>
    rw [cggmSenderAt_succ, cggmSenderAt_succ, ih (by omega)]
    simp only [cggmSenderStep]
    rw [decide_eq_false (p := m + 2 = depth) (by omega), Bool.and_false, Bool.and_false]

/-- The cleared leaf. -/
def clearLsb (b : Block) : Block := blockAnd b cggmLsbClearMask

/-- The flag clears the lowest bit of every leaf, from two levels on. -/
theorem cggmBuildSender_clear (hdepth : 2 ≤ depth) (delta root : Block) :
    (cggmBuildSender permute depth delta root true).1 =
      (cggmBuildSender permute depth delta root false).1.map clearLsb := by
  obtain ⟨m, rfl⟩ : ∃ m, depth = m + 2 := ⟨depth - 2, by omega⟩
  have hlevel := @cggm_puncturedLevel permute (m + 2) 0 (by omega) delta root false m (by omega)
  have hfit : 2 * 2 ^ (m + 1) ≤ (cggmSenderAt permute (m + 2) delta root false m).1.length := by
    rw [hlevel.length, ← pow_succ']
  change (cggmSenderAt permute (m + 2) delta root true (m + 1)).1 =
    (cggmSenderAt permute (m + 2) delta root false (m + 1)).1.map clearLsb
  rw [cggmSenderAt_succ, cggmSenderAt_succ, cggmSenderAt_flag delta root true (by omega)]
  simp only [cggmSenderStep, Bool.true_and, Bool.false_and, decide_true]
  obtain ⟨hlength, -, -, -⟩ := cggmExpandLevel_spec permute hfit false true
  obtain ⟨hlength', -, -, -⟩ := cggmExpandLevel_spec permute hfit false false
  have hcount : (cggmSenderAt permute (m + 2) delta root false m).1.length = 2 * 2 ^ (m + 1) := by
    rw [hlevel.length, ← pow_succ']
  refine eq_of_getD_eq (by rw [List.length_map, hlength, hlength']) fun j hj => ?_
  rw [List.length_map] at hj
  have hmap :
      ((cggmExpandLevel permute (cggmSenderAt permute (m + 2) delta root false m).1 (2 ^ (m + 1))
      false false).1.map clearLsb).getD j Block.zero =
      clearLsb
        ((cggmExpandLevel permute (cggmSenderAt permute (m + 2) delta root false m).1 (2 ^ (m + 1))
        false false).1.getD j Block.zero) := by
    rw [List.getD_eq_getElem _ _ (by rwa [List.length_map]), List.getElem_map,
      List.getD_eq_getElem _ _ hj]
  rw [hmap]
  obtain ⟨side, i, hi, rfl⟩ := @exists_side (2 ^ (m + 1)) j (by omega)
  rw [cggmExpandLevel_getD permute hfit false true side hi,
    cggmExpandLevel_getD permute hfit false false side hi]
  rfl

/-- Clearing the lowest bit twice is clearing it once. -/
theorem clearLsb_clearLsb (b : Block) : clearLsb (clearLsb b) = clearLsb b := by
  apply blockVec_injective
  rw [clearLsb, clearLsb, blockVec_and_lsbClearMask, blockVec_and_lsbClearMask, cggmProject_project]

/-- The sum of cleared blocks is the cleared sum. -/
theorem foldl_xor_clearLsb (blocks : List Block) :
    (blocks.map clearLsb).foldl blockXor Block.zero =
      clearLsb (blocks.foldl blockXor Block.zero) := by
  induction blocks using List.reverseRecOn with
  | nil => decide +kernel
  | append_singleton blocks b ih =>
    rw [List.map_append, List.foldl_append, List.map_singleton, List.foldl_cons, List.foldl_nil, ih,
      List.foldl_append, List.foldl_cons, List.foldl_nil]
    apply blockVec_injective
    rw [clearLsb, clearLsb, clearLsb, blockVec_xor, blockVec_and_lsbClearMask,
      blockVec_and_lsbClearMask, blockVec_and_lsbClearMask, blockVec_xor, map_add]

/-- A receiver obtains every leaf of the sender but the one at the reversed position, which is
zero. -/
theorem cggmEvalReceiver_eq (hdepth : 1 ≤ depth) (delta root : Block) (clearLeafLsb : Bool) :
    let sender := cggmBuildSender permute depth delta root clearLeafLsb
    cggmEvalReceiver permute depth alpha (cggmReceiverKeys depth alpha delta sender.2)
      clearLeafLsb =
      sender.1.set (bitReverse depth alpha) Block.zero := by
  intro sender
  obtain ⟨m, rfl⟩ : ∃ m, depth = m + 1 := ⟨depth - 1, by omega⟩
  obtain ⟨hlength, hknownLength, -, hpos, hbits, hagree, hunknown⟩ :=
    @cggm_puncturedLevel permute (m + 1) alpha hdepth delta root clearLeafLsb m (Nat.lt_succ_self m)
  rw [eq_bitReverse hpos hbits] at hagree hunknown
  refine eq_of_getD_eq (hknownLength.trans ?_) fun j hj => ?_
  · rw [List.length_set]
    exact hlength.symm
  · rw [List.length_set] at hj
    have hpos' : bitReverse (m + 1) alpha < sender.1.length :=
      hlength.symm ▸ bitReverse_lt (m + 1) alpha
    rw [getD_set hpos']
    by_cases hself : j = bitReverse (m + 1) alpha
    · rw [if_pos hself, hself]
      exact hunknown
    · rw [if_neg hself]
      exact hagree j (hlength ▸ hj) hself

/-- The leaves of a sender sum up to Delta, or to Delta without its lowest bit. -/
theorem cggmBuildSender_sum (hdepth : 1 ≤ depth) (delta root : Block) :
    ((cggmBuildSender permute depth delta root false).1.foldl blockXor Block.zero) = delta := by
  obtain ⟨m, rfl⟩ : ∃ m, depth = m + 1 := ⟨depth - 1, by omega⟩
  have hlevel :=
    @cggm_puncturedLevel permute (m + 1) 0 hdepth delta root false m (Nat.lt_succ_self m)
  apply blockVec_injective
  have hdelta : cggmDelta (m + 1) false delta m = blockVec delta := by
    rw [cggmDelta, Bool.false_and, Bool.false_and, cggmProject_false]
  rw [blockVec_foldl_xor, ← hdelta, ← hlevel.sum, ← hlevel.length]
  rfl

/-- The punctured function, for every depth and every path: the receiver obtains all leaves but one,
and the leaves sum up to Delta. A flag clears the lowest bit of the leaves; a tree of one level
ignores it. -/
theorem cggm_punctured (hdepth : 1 ≤ depth) (halpha : alpha < 2 ^ depth) (delta root : Block) :
    (∀ clearLeafLsb,
      let sender := cggmBuildSender permute depth delta root clearLeafLsb
      let recvKeys := cggmReceiverKeys depth alpha delta sender.2
      sender.1.length = 2 ^ depth ∧ sender.2.length = depth ∧ recvKeys.length = depth ∧
        cggmEvalReceiver permute depth alpha recvKeys clearLeafLsb =
          sender.1.set (bitReverse depth alpha) Block.zero) ∧
      (cggmBuildSender permute depth delta root false).1.foldl blockXor Block.zero = delta ∧
      ((cggmBuildSender permute depth delta root true).1.map clearLsb).foldl blockXor Block.zero =
        clearLsb delta ∧
      (2 ≤ depth → (cggmBuildSender permute depth delta root true).1 =
        (cggmBuildSender permute depth delta root false).1.map clearLsb) ∧
      bitReverse depth alpha < 2 ^ depth ∧
      (depth ≤ 32 → (cggmBitReverse (UInt32.ofNat alpha) depth).toNat =
          bitReverse depth alpha) := by
  refine ⟨fun clearLeafLsb => ?_, cggmBuildSender_sum hdepth delta root, ?_,
    fun hmore => cggmBuildSender_clear hmore delta root, bitReverse_lt depth alpha, fun hword => ?_⟩
  · intro sender recvKeys
    obtain ⟨hsums, -, -⟩ := @cggmSenderAt_sums permute depth delta root clearLeafLsb (depth - 1)
    have hlevel :=
      @cggm_puncturedLevel permute depth alpha hdepth delta root clearLeafLsb (depth - 1) (by omega)
    refine ⟨hlevel.length, hsums.trans (by omega), by simp [recvKeys, cggmReceiverKeys], ?_⟩
    exact cggmEvalReceiver_eq hdepth delta root clearLeafLsb
  · rw [foldl_xor_clearLsb]
    rcases Nat.lt_or_ge 1 depth with hmore | hone
    · rw [cggmBuildSender_clear hmore, foldl_xor_clearLsb, cggmBuildSender_sum hdepth,
        clearLsb_clearLsb]
    · obtain rfl : depth = 1 := by omega
      exact congrArg clearLsb (cggmBuildSender_sum hdepth delta root)
  · rw [cggmBitReverse_toNat _ hword, UInt32.toNat_ofNat_of_lt']
    exact halpha.trans_le (Nat.pow_le_pow_right (by decide) hword)

/-- A tree of three levels, punctured at the reversal of six. -/
theorem cggm_punctured_three :
    let sender := cggmBuildSender blockXor 3 (Block.make 0 9) (Block.make 0 4) false
    cggmEvalReceiver blockXor 3 6 (cggmReceiverKeys 3 6 (Block.make 0 9) sender.2) false =
      sender.1.set 3 Block.zero := by
  intro sender
  have htree :=
    (@cggm_punctured blockXor 3 6 (by decide) (by decide) (Block.make 0 9) (Block.make 0 4)).1 false
  exact htree.2.2.2

end Shachain2pc
