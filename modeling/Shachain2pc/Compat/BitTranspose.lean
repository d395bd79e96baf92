import Mathlib.Data.Nat.Bitwise
import Shachain2pc.Compat.BlockAlgebra
import Shachain2pc.Lib.FoldEstablish

/-!
# Transposing 128 rows of bits

Rows are cut into tiles of 16 rows and 16 bytes. A tile is transposed in registers, by
interleaving lanes of one, two, four and eight bytes. A column of a tile holds one byte of
16 rows, and its bits are read off from the highest one down: the highest bits of the lanes
form a mask, and the lanes are shifted. Bytes after the last full tile are gathered column by
column.

Registers are lists of 16 lanes.
-/

namespace Shachain2pc

open FoldEstablish

variable {α β : Type}

/-! ## Interleaving -/

/-- The lanes of a register, of `width` bytes each. -/
def lanes (width : ℕ) (register : List α) : List (List α) :=
  (List.range (16 / width)).map fun i => (register.drop (i * width)).take width

/-- `interleave` of registers whose lanes are of `width` bytes. -/
def interleave (width : ℕ) (a b : List α) : List α × List α :=
  let both := ((lanes width a).zip (lanes width b)).flatMap fun lane => lane.1 ++ lane.2
  (both.take 16, both.drop 16)

/-- The two registers which result from two registers of an array. -/
def interleaveAt (width : ℕ) (registers : List (List α)) (i j : ℕ) : List (List α) :=
  let pair := interleave width (registers.getD i []) (registers.getD j [])
  [pair.1, pair.2]

/-- `transpose_16x16_bytes`. -/
def transpose16x16Bytes (m : List (List α)) : List (List α) :=
  let t := (List.range 8).flatMap fun i => interleaveAt 1 m (2 * i) (2 * i + 1)
  let u := (List.range 4).flatMap fun i =>
    interleaveAt 2 t (4 * i) (4 * i + 2) ++ interleaveAt 2 t (4 * i + 1) (4 * i + 3)
  let v := (List.range 2).flatMap fun i => (List.range 4).flatMap fun k =>
    interleaveAt 4 u (8 * i + k) (8 * i + k + 4)
  (List.range 8).flatMap fun k => interleaveAt 8 v k (k + 8)

/-- Interleaving moves lanes without looking at them. -/
theorem interleave_map (f : α → β) (width : ℕ) (a b : List α) :
    interleave width (a.map f) (b.map f) =
      ((interleave width a b).1.map f, (interleave width a b).2.map f) := by
  have hlanes (register : List α) :
      lanes width (register.map f) = (lanes width register).map (List.map f) := by
    simp only [lanes, List.map_map, Function.comp_def, List.map_take, List.map_drop]
  have hboth : (((lanes width a).map (List.map f)).zip ((lanes width b).map (List.map f))).flatMap
      (fun lane => lane.1 ++ lane.2) =
        (((lanes width a).zip (lanes width b)).flatMap fun lane => lane.1 ++ lane.2).map f := by
    rw [List.zip_map, List.flatMap_map, List.map_flatMap]
    simp only [Prod.map, List.map_append]
  simp only [interleave, hlanes, hboth, List.map_take, List.map_drop]

/-- The same for registers of an array. -/
theorem interleaveAt_map (f : α → β) (width : ℕ) (registers : List (List α)) (i j : ℕ) :
    interleaveAt width (registers.map (List.map f)) i j =
      (interleaveAt width registers i j).map (List.map f) := by
  have hget (i : ℕ) : (registers.map (List.map f)).getD i [] = (registers.getD i []).map f := by
    rw [List.getD_eq_getElem?_getD, List.getD_eq_getElem?_getD, List.getElem?_map]
    cases registers[i]? <;> rfl
  rw [interleaveAt, hget, hget, interleave_map]
  rfl

/-- The transposition moves bytes without looking at them. -/
theorem transpose16x16Bytes_map (f : α → β) (m : List (List α)) :
    transpose16x16Bytes (m.map (List.map f)) = (transpose16x16Bytes m).map (List.map f) := by
  simp only [transpose16x16Bytes, interleaveAt_map, ← List.map_append, ← List.map_flatMap]

/-- The places of a tile. -/
def tilePlaces : List (List (ℕ × ℕ)) :=
  (List.range 16).map fun r => (List.range 16).map fun c => (r, c)

/-- Every place is moved to the one with row and column exchanged. -/
theorem transpose16x16Bytes_tilePlaces :
    transpose16x16Bytes tilePlaces =
      (List.range 16).map fun c => (List.range 16).map fun r => (r, c) := by
  decide +kernel

/-- A tile is transposed. -/
theorem transpose16x16Bytes_eq (tile : ℕ → ℕ → α) :
    transpose16x16Bytes ((List.range 16).map fun r => (List.range 16).map fun c => tile r c) =
      (List.range 16).map fun c => (List.range 16).map fun r => tile r c := by
  have hmap := transpose16x16Bytes_map (fun place => tile place.1 place.2) tilePlaces
  rw [transpose16x16Bytes_tilePlaces] at hmap
  simpa only [tilePlaces, List.map_map, Function.comp_def] using hmap

/-! ## Columns -/

/-- `to_bitmask`: the bit of a lane is at the lane's index. -/
def toBitmask (mask : List Bool) : UInt64 :=
  UInt64.ofNat (Nat.ofBits fun i : Fin 16 => mask.getD i false)

/-- One bit of a column: the mask of the highest bits goes into two bytes of an output block. -/
def transposeEmitBit (sourceByte rowGroup : ℕ) (state : List Block × List UInt8) (bit : ℕ) :
    List Block × List UInt8 :=
  let mask := (toBitmask (state.2.map fun lane => decide (0x80 ≤ lane))).toUInt16
  let block := state.1.getD (sourceByte * 8 + bit) Block.zero
  let block := block.setIfInBounds (rowGroup * 2) mask.toUInt8
  let block := block.setIfInBounds (rowGroup * 2 + 1) (mask >>> 8).toUInt8
  (state.1.set (sourceByte * 8 + bit) block, state.2.map fun lane => lane <<< (1 : UInt8))

/-- `transpose_emit_column`. -/
def transposeEmitColumn (out : List Block) (col : List UInt8) (sourceByte rowGroup : ℕ) :
    List Block :=
  ((List.range 8).reverse.foldl (transposeEmitBit sourceByte rowGroup) (out, col)).1

/-- One bit of a block. -/
def blockBit (block : Block) (r : ℕ) : Bool := (block.toList.getD (r / 8) 0).toNat.testBit (r % 8)

/-- The highest bit of a byte. -/
theorem testBit_seven (x : UInt8) : decide (0x80 ≤ x) = x.toNat.testBit 7 := by
  have hlt := x.toNat_lt
  rw [Nat.testBit_eq_decide_div_mod_eq, decide_eq_decide, UInt8.le_iff_toNat_le]
  have hmask : (0x80 : UInt8).toNat = 128 := rfl
  rw [hmask]
  omega

/-- A shift moves the bits up. -/
theorem testBit_shiftLeft_one (x : UInt8) {i : ℕ} (hi : i < 7) :
    (x <<< 1).toNat.testBit (i + 1) = x.toNat.testBit i := by
  rw [UInt8.toNat_shiftLeft, Nat.testBit_mod_two_pow, decide_eq_true (by omega), Bool.true_and]
  have hone : (1 : UInt8).toNat % 8 = 1 := rfl
  rw [hone, Nat.testBit_shiftLeft, decide_eq_true (by omega), Bool.true_and, Nat.add_sub_cancel]

/-- The bits of a mask of 16 lanes. -/
theorem toBitmask_testBit (mask : List Bool) {i : ℕ} (hi : i < 16) :
    ((toBitmask mask).toUInt16).toNat.testBit i = mask.getD i false := by
  have hfit : Nat.ofBits (fun i : Fin 16 => mask.getD i false) < 2 ^ 16 := Nat.ofBits_lt_two_pow _
  have hword : (toBitmask mask).toNat = Nat.ofBits fun i : Fin 16 => mask.getD i false :=
    UInt64.toNat_ofNat_of_lt' (hfit.trans (by decide))
  rw [UInt64.toNat_toUInt16, hword, Nat.mod_eq_of_lt hfit, Nat.testBit_ofBits_lt _ i hi]

/-- Writing a mask into two bytes of a block sets 16 of its bits. -/
theorem blockBit_setMask (block : Block) (mask : UInt16) {rowGroup r : ℕ}
    (hr : r < 128) :
    blockBit ((block.setIfInBounds (rowGroup * 2) mask.toUInt8).setIfInBounds (rowGroup * 2 + 1)
        (mask >>> 8).toUInt8) r =
      if r / 16 = rowGroup then mask.toNat.testBit (r % 16) else blockBit block r := by
  have hbyte : r / 8 < 16 := by omega
  have hread (block : Block) : block.toList.getD (r / 8) 0 = block[r / 8] := by
    rw [List.getD_eq_getElem _ _ (by simp; omega), Vector.getElem_toList]
  have hlow : mask.toUInt8.toNat = mask.toNat % 2 ^ 8 := rfl
  have hhigh : (mask >>> 8).toUInt8.toNat = (mask.toNat >>> 8) % 2 ^ 8 := rfl
  rw [blockBit, blockBit, hread, hread, Vector.getElem_setIfInBounds, Vector.getElem_setIfInBounds]
  by_cases hodd : rowGroup * 2 + 1 = r / 8
  · rw [if_pos hodd, if_pos (by omega), hhigh, Nat.testBit_mod_two_pow, decide_eq_true (by omega),
      Bool.true_and, Nat.testBit_shiftRight]
    congr 1
    omega
  · by_cases heven : rowGroup * 2 = r / 8
    · rw [if_neg hodd, if_pos heven, if_pos (by omega), hlow, Nat.testBit_mod_two_pow,
        decide_eq_true (by omega), Bool.true_and]
      congr 1
      omega
    · rw [if_neg hodd, if_neg heven, if_neg (by omega)]

/-- One bit of a column, by the highest bits of the lanes. -/
theorem transposeEmitBit_spec {out : List Block} (col : List UInt8) {sourceByte rowGroup bit : ℕ}
    (hfit : sourceByte * 8 + bit < out.length) :
    let result := (transposeEmitBit sourceByte rowGroup (out, col) bit).1
    result.length = out.length ∧ ∀ c, ∀ r < 128, blockBit (result.getD c Block.zero) r =
      if c = sourceByte * 8 + bit ∧ r / 16 = rowGroup then (col.getD (r % 16) 0).toNat.testBit 7
      else blockBit (out.getD c Block.zero) r := by
  refine ⟨List.length_set, fun c r hr => ?_⟩
  have hlane : (col.map fun lane => decide (0x80 ≤ lane)).getD (r % 16) false =
      (col.getD (r % 16) 0).toNat.testBit 7 :=
    (List.getD_map col 0 fun lane : UInt8 => decide (0x80 ≤ lane)).trans (testBit_seven _)
  simp only [transposeEmitBit]
  rw [getD_set hfit]
  by_cases hblock : c = sourceByte * 8 + bit
  · rw [if_pos hblock, blockBit_setMask _ _ hr, toBitmask_testBit _ (by omega), hlane, ← hblock]
    by_cases hgroup : r / 16 = rowGroup
    · rw [if_pos hgroup, if_pos ⟨rfl, hgroup⟩]
    · rw [if_neg hgroup, if_neg fun h => hgroup h.2]
  · rw [if_neg hblock, if_neg fun h => hblock h.1]

/-- The lower bits of a column, when the lanes were shifted by the number of the higher ones. -/
theorem foldl_transposeEmitBit {n : ℕ} (hn : n ≤ 8) {out : List Block} (col : List UInt8)
    {sourceByte rowGroup : ℕ} (hfit : sourceByte * 8 + 8 ≤ out.length) :
    let result := ((List.range n).reverse.foldl (transposeEmitBit sourceByte rowGroup) (out, col)).1
    result.length = out.length ∧ ∀ c, ∀ r < 128, blockBit (result.getD c Block.zero) r =
      if (sourceByte * 8 ≤ c ∧ c < sourceByte * 8 + n) ∧ r / 16 = rowGroup then
        (col.getD (r % 16) 0).toNat.testBit (c - sourceByte * 8 + (8 - n))
      else blockBit (out.getD c Block.zero) r := by
  induction n generalizing out col with
  | zero =>
    refine ⟨rfl, fun c r _ => ?_⟩
    rw [if_neg (by omega)]
    rfl
  | succ n ih =>
    obtain ⟨hlength, hbit⟩ := @transposeEmitBit_spec out col sourceByte rowGroup n (by omega)
    rw [List.range_succ, List.reverse_append, List.reverse_singleton, List.singleton_append,
      List.foldl_cons]
    have hshift : (transposeEmitBit sourceByte rowGroup (out, col) n).2 =
        col.map fun lane => lane <<< (1 : UInt8) := rfl
    generalize transposeEmitBit sourceByte rowGroup (out, col) n = next at *
    obtain ⟨hlength', hbit'⟩ := @ih (by omega) next.1 next.2 (by omega)
    refine ⟨hlength'.trans hlength, fun c r hr => ?_⟩
    have hlane : next.2.getD (r % 16) 0 = (col.getD (r % 16) 0) <<< (1 : UInt8) := by
      rw [hshift]
      exact List.getD_map col 0 fun lane : UInt8 => lane <<< (1 : UInt8)
    refine (hbit' c r hr).trans ?_
    rw [hbit c r hr, hlane]
    by_cases hgroup : r / 16 = rowGroup
    · by_cases hlow : sourceByte * 8 ≤ c ∧ c < sourceByte * 8 + n
      · rw [if_pos ⟨hlow, hgroup⟩, if_pos ⟨by omega, hgroup⟩]
        have hindex : c - sourceByte * 8 + (8 - n) = c - sourceByte * 8 + (8 - (n + 1)) + 1 := by
          omega
        rw [hindex, testBit_shiftLeft_one _ (by omega)]
      · rw [if_neg fun h => hlow h.1]
        by_cases hlast : c = sourceByte * 8 + n
        · rw [if_pos ⟨hlast, hgroup⟩, if_pos ⟨by omega, hgroup⟩]
          congr 1
          omega
        · rw [if_neg fun h => hlast h.1, if_neg fun h => hlow (by omega)]
    · rw [if_neg fun h => hgroup h.2, if_neg fun h => hgroup h.2, if_neg fun h => hgroup h.2]

/-- A column: the bits of its lanes, and all other bits are kept. -/
theorem transposeEmitColumn_spec {out : List Block} (col : List UInt8) {sourceByte rowGroup : ℕ}
    (hfit : sourceByte * 8 + 8 ≤ out.length) :
    let result := transposeEmitColumn out col sourceByte rowGroup
    result.length = out.length ∧ ∀ c, ∀ r < 128, blockBit (result.getD c Block.zero) r =
      if c / 8 = sourceByte ∧ r / 16 = rowGroup then (col.getD (r % 16) 0).toNat.testBit (c % 8)
      else blockBit (out.getD c Block.zero) r := by
  obtain ⟨hlength, hbit⟩ := @foldl_transposeEmitBit 8 le_rfl out col sourceByte rowGroup hfit
  refine ⟨hlength, fun c r hr => (hbit c r hr).trans ?_⟩
  by_cases hin : c / 8 = sourceByte ∧ r / 16 = rowGroup
  · rw [if_pos hin, if_pos ⟨by omega, hin.2⟩]
    congr 1
    omega
  · rw [if_neg hin, if_neg fun h => hin ⟨by omega, h.2⟩]

/-! ## Rows -/

/-- A tile of 16 rows and 16 bytes. -/
def transposeTile (rows : List UInt8) (rowBytes rowGroup : ℕ) (out : List Block) (tile : ℕ) :
    List Block :=
  let m := (List.range 16).map fun r =>
    (rows.drop ((rowGroup * 16 + r) * rowBytes + tile * 16)).take 16
  (transpose16x16Bytes m).zipIdx.foldl
    (fun out entry => transposeEmitColumn out entry.1 (tile * 16 + entry.2) rowGroup) out

/-- A column of 16 rows after the last full tile. -/
def transposeGather (rows : List UInt8) (rowBytes sourceByte : ℕ) (out : List Block)
    (rowGroup : ℕ) :
    List Block :=
  let lane := (List.range 16).map fun i => rows.getD ((rowGroup * 16 + i) * rowBytes + sourceByte) 0
  transposeEmitColumn out lane sourceByte rowGroup

/-- `transpose_128_rows_simd`. -/
def transpose128RowsSimd (rows : List UInt8) (rowBytes outputLen : ℕ) : List Block :=
  let colTiles := rowBytes / 16
  let out := (List.range 8).foldl
    (fun out rowGroup => (List.range colTiles).foldl (transposeTile rows rowBytes rowGroup) out)
    (List.replicate outputLen Block.zero)
  (List.range' (colTiles * 16) (rowBytes - colTiles * 16)).foldl
    (fun out sourceByte => (List.range 8).foldl (transposeGather rows rowBytes sourceByte) out) out

/-- A column keeps the number of blocks. -/
theorem transposeEmitColumn_length (out : List Block) (col : List UInt8) (sourceByte rowGroup : ℕ) :
    (transposeEmitColumn out col sourceByte rowGroup).length = out.length :=
  @foldl_invariant _ _ (transposeEmitBit sourceByte rowGroup)
    (fun state => state.1.length = out.length) _
    (fun _ _ _ hstate => List.length_set.trans hstate) (out, col) rfl

/-- The output has the number of blocks which is asked for. -/
@[simp] theorem transpose128RowsSimd_length (rows : List UInt8) (rowBytes outputLen : ℕ) :
    (transpose128RowsSimd rows rowBytes outputLen).length = outputLen := by
  have hinv {α : Type} {f : List Block → α → List Block} (l : List α)
      (h : ∀ s a, s.length = outputLen → (f s a).length = outputLen) (s : List Block)
      (hs : s.length = outputLen) : (l.foldl f s).length = outputLen :=
    @foldl_invariant _ _ f (fun s => s.length = outputLen) l (fun s a _ => h s a) s hs
  refine hinv _ (fun s sourceByte hs => hinv _ (fun s rowGroup hs => ?_) s hs) _
    (hinv _ (fun s rowGroup hs =>
      hinv _ (fun s tile hs => hinv _ (fun s entry hs => ?_) s hs) s hs) _
      List.length_replicate)
  · exact (transposeEmitColumn_length ..).trans hs
  · exact (transposeEmitColumn_length ..).trans hs

/-- The output has a block for every column of bits. -/
def RightLength (rowBytes : ℕ) (out : List Block) : Prop := out.length = rowBytes * 8

/-- The columns of one byte, and the rows of one group, are right. -/
def RightColumns (rows : List UInt8) (rowBytes sourceByte rowGroup : ℕ) (out : List Block) : Prop :=
  ∀ c r, c / 8 = sourceByte → r < 128 → r / 16 = rowGroup →
    blockBit (out.getD c Block.zero) r =
      (rows.getD (r * rowBytes + sourceByte) 0).toNat.testBit (c % 8)

/-- The bytes of a column are those of 16 rows. -/
def RightLane (rows : List UInt8) (rowBytes sourceByte rowGroup : ℕ) (col : List UInt8) : Prop :=
  ∀ i < 16, col.getD i 0 = rows.getD ((rowGroup * 16 + i) * rowBytes + sourceByte) 0

variable {rows : List UInt8} {rowBytes : ℕ}

/-- Writing a right column: it becomes right, and the right ones stay so. -/
theorem transposeEmitColumn_right {out : List Block} {col : List UInt8} {sourceByte rowGroup : ℕ}
    (hsource : sourceByte < rowBytes) (hlength : RightLength rowBytes out)
    (hlane : RightLane rows rowBytes sourceByte rowGroup col) :
    RightLength rowBytes (transposeEmitColumn out col sourceByte rowGroup) ∧
      RightColumns rows rowBytes sourceByte rowGroup
        (transposeEmitColumn out col sourceByte rowGroup) ∧
      ∀ sourceByte' rowGroup', RightColumns rows rowBytes sourceByte' rowGroup' out →
        RightColumns rows rowBytes sourceByte' rowGroup'
          (transposeEmitColumn out col sourceByte rowGroup) := by
  obtain ⟨hkept, hbit⟩ := @transposeEmitColumn_spec out col sourceByte rowGroup
    (by rw [RightLength] at hlength; omega)
  have hright {c r : ℕ} (hr : r < 128) (hin : c / 8 = sourceByte ∧ r / 16 = rowGroup) :
      blockBit ((transposeEmitColumn out col sourceByte rowGroup).getD c Block.zero) r =
        (rows.getD (r * rowBytes + sourceByte) 0).toNat.testBit (c % 8) := by
    have hrow : rowGroup * 16 + r % 16 = r := by omega
    refine (hbit c r hr).trans ?_
    rw [if_pos hin, hlane (r % 16) (by omega), hrow]
  refine ⟨hkept.trans hlength, fun c r hc hr hgroup => hright hr ⟨hc, hgroup⟩,
    fun sourceByte' rowGroup' hbefore c r hc hr hgroup => ?_⟩
  by_cases hin : c / 8 = sourceByte ∧ r / 16 = rowGroup
  · rw [hright hr hin, ← hc, hin.1]
  · exact ((hbit c r hr).trans (if_neg hin)).trans (hbefore c r hc hr hgroup)

/-- A part of the loops which keeps what is right. -/
def KeepsRight (rows : List UInt8) (rowBytes : ℕ) (part : List Block → List Block) : Prop :=
  ∀ out, RightLength rowBytes out → RightLength rowBytes (part out) ∧
    ∀ sourceByte rowGroup, RightColumns rows rowBytes sourceByte rowGroup out →
      RightColumns rows rowBytes sourceByte rowGroup (part out)

/-- A part of the loops after which some columns are right. -/
def MakesRight (rows : List UInt8) (rowBytes sourceByte rowGroup : ℕ)
    (part : List Block → List Block) :
    Prop :=
  ∀ out, RightLength rowBytes out → RightColumns rows rowBytes sourceByte rowGroup (part out)

/-- A loop keeps what its steps keep. -/
theorem KeepsRight.foldl {α : Type} {l : List α} {f : List Block → α → List Block}
    (h : ∀ a ∈ l, KeepsRight rows rowBytes fun out => f out a) :
    KeepsRight rows rowBytes fun out => l.foldl f out := by
  intro out hlength
  refine ⟨foldl_invariant (fun s a ha hs => (h a ha s hs).1) hlength,
    fun sourceByte rowGroup hright => ?_⟩
  exact (@foldl_invariant _ _ f
    (fun s => RightLength rowBytes s ∧ RightColumns rows rowBytes sourceByte rowGroup s) l
    (fun s a ha hs => ⟨(h a ha s hs.1).1, (h a ha s hs.1).2 sourceByte rowGroup hs.2⟩) out
    ⟨hlength, hright⟩).2

/-- A loop makes right what one of its steps makes right. -/
theorem MakesRight.foldl {α : Type} {l : List α} {f : List Block → α → List Block} {a : α}
    (ha : a ∈ l) {sourceByte rowGroup : ℕ}
    (hkeep : ∀ b ∈ l, KeepsRight rows rowBytes fun out => f out b)
    (hmake : MakesRight rows rowBytes sourceByte rowGroup fun out => f out a) :
    MakesRight rows rowBytes sourceByte rowGroup fun out => l.foldl f out := by
  intro out hlength
  exact foldl_establish ha (fun s b hb hs => (hkeep b hb s hs).1)
    (fun s b hb hs hright => (hkeep b hb s hs).2 sourceByte rowGroup hright) hmake hlength

/-- A column which is written keeps what is right. -/
theorem keepsRight_emit {col : List UInt8} {sourceByte rowGroup : ℕ}
    (hsource : sourceByte < rowBytes) (hlane : RightLane rows rowBytes sourceByte rowGroup col) :
    KeepsRight rows rowBytes fun out => transposeEmitColumn out col sourceByte rowGroup := by
  intro out hlength
  obtain ⟨hkept, -, hright⟩ := transposeEmitColumn_right hsource hlength hlane
  exact ⟨hkept, hright⟩

/-- A column which is written is right. -/
theorem makesRight_emit {col : List UInt8} {sourceByte rowGroup : ℕ}
    (hsource : sourceByte < rowBytes) (hlane : RightLane rows rowBytes sourceByte rowGroup col) :
    MakesRight rows rowBytes sourceByte rowGroup
      fun out => transposeEmitColumn out col sourceByte rowGroup :=
  fun _ hlength => (transposeEmitColumn_right hsource hlength hlane).2.1

/-! ### Tiles -/

/-- Bytes of a row, one by one. -/
theorem take_drop_eq_map {offset n : ℕ} (hfit : offset + n ≤ rows.length) :
    (rows.drop offset).take n = (List.range n).map fun c => rows.getD (offset + c) 0 := by
  refine List.ext_getElem (by simp; omega) fun c hc _ => ?_
  rw [List.length_take] at hc
  rw [List.getElem_take, List.getElem_drop, List.getElem_map, List.getElem_range,
    List.getD_eq_getElem _ _ (by omega)]

/-- The columns of a tile. -/
def tileColumns (rows : List UInt8) (rowBytes rowGroup tile : ℕ) : List (List UInt8) :=
  (List.range 16).map fun c => (List.range 16).map fun r =>
    rows.getD ((rowGroup * 16 + r) * rowBytes + tile * 16 + c) 0

/-- A tile writes its columns. -/
theorem transposeTile_eq (hrows : rows.length = 128 * rowBytes) {rowGroup tile : ℕ}
    (hgroup : rowGroup < 8) (htile : tile < rowBytes / 16) (out : List Block) :
    transposeTile rows rowBytes rowGroup out tile =
      (tileColumns rows rowBytes rowGroup tile).zipIdx.foldl
        (fun out entry => transposeEmitColumn out entry.1 (tile * 16 + entry.2) rowGroup) out := by
  have hm : ((List.range 16).map fun r =>
      (rows.drop ((rowGroup * 16 + r) * rowBytes + tile * 16)).take 16) =
        (List.range 16).map fun r => (List.range 16).map fun c =>
          rows.getD ((rowGroup * 16 + r) * rowBytes + tile * 16 + c) 0 := by
    refine List.map_congr_left fun r hr => take_drop_eq_map ?_
    have hrow : (rowGroup * 16 + r + 1) * rowBytes ≤ 128 * rowBytes :=
      Nat.mul_le_mul_right _ (by have := List.mem_range.mp hr; omega)
    rw [Nat.succ_mul] at hrow
    omega
  rw [transposeTile, hm, transpose16x16Bytes_eq, tileColumns]

/-- The columns of a tile hold the bytes of their rows. -/
theorem tileColumns_lane {rowGroup tile : ℕ} {entry : List UInt8 × ℕ}
    (hentry : entry ∈ (tileColumns rows rowBytes rowGroup tile).zipIdx) :
    entry.2 < 16 ∧ RightLane rows rowBytes (tile * 16 + entry.2) rowGroup entry.1 := by
  have hget := List.mem_zipIdx_iff_getElem?.mp hentry
  obtain ⟨hlt, heq⟩ := List.getElem?_eq_some_iff.mp hget
  rw [tileColumns, List.length_map, List.length_range] at hlt
  simp only [tileColumns, List.getElem_map, List.getElem_range] at heq
  refine ⟨hlt, fun i hi => ?_⟩
  rw [← heq, List.getD_eq_getElem _ _ (by simpa using hi), List.getElem_map, List.getElem_range,
    Nat.add_assoc]

/-- A tile keeps what is right. -/
theorem keepsRight_tile (hrows : rows.length = 128 * rowBytes) {rowGroup tile : ℕ}
    (hgroup : rowGroup < 8) (htile : tile < rowBytes / 16) :
    KeepsRight rows rowBytes fun out => transposeTile rows rowBytes rowGroup out tile := by
  simp only [transposeTile_eq hrows hgroup htile]
  refine KeepsRight.foldl fun entry hentry => ?_
  obtain ⟨hlt, hlane⟩ := tileColumns_lane hentry
  exact keepsRight_emit (by omega) hlane

/-- A tile makes its columns right. -/
theorem makesRight_tile (hrows : rows.length = 128 * rowBytes) {rowGroup tile c : ℕ}
    (hgroup : rowGroup < 8) (htile : tile < rowBytes / 16) (hc : c < 16) :
    MakesRight rows rowBytes (tile * 16 + c) rowGroup
      fun out => transposeTile rows rowBytes rowGroup out tile := by
  simp only [transposeTile_eq hrows hgroup htile]
  have hlength : (tileColumns rows rowBytes rowGroup tile).length = 16 := by simp [tileColumns]
  have hmem : ((tileColumns rows rowBytes rowGroup tile)[c], c) ∈
      (tileColumns rows rowBytes rowGroup tile).zipIdx :=
    List.mem_zipIdx_iff_getElem?.mpr (List.getElem?_eq_getElem _)
  refine MakesRight.foldl hmem (fun entry hentry => ?_) ?_
  · obtain ⟨hlt, hlane⟩ := tileColumns_lane hentry
    exact keepsRight_emit (by omega) hlane
  · exact makesRight_emit (by omega) (tileColumns_lane hmem).2

/-- The loops over the tiles make the columns of full tiles right. -/
theorem tiles_right (hrows : rows.length = 128 * rowBytes) :
    let tiles := fun out => (List.range 8).foldl
      (fun out rowGroup =>
        (List.range (rowBytes / 16)).foldl (transposeTile rows rowBytes rowGroup) out) out
    KeepsRight rows rowBytes tiles ∧
      ∀ sourceByte < rowBytes / 16 * 16, ∀ rowGroup < 8,
        MakesRight rows rowBytes sourceByte rowGroup tiles := by
  have hkeep {rowGroup : ℕ} (hgroup : rowGroup < 8) :=
    KeepsRight.foldl (l := List.range (rowBytes / 16)) (f := transposeTile rows rowBytes rowGroup)
      fun tile htile => keepsRight_tile hrows hgroup (List.mem_range.mp htile)
  refine ⟨KeepsRight.foldl fun rowGroup hgroup => hkeep (List.mem_range.mp hgroup),
    fun sourceByte hsource rowGroup hgroup => ?_⟩
  refine MakesRight.foldl (List.mem_range.mpr hgroup)
    (fun other hother => hkeep (List.mem_range.mp hother)) ?_
  have htile : sourceByte / 16 < rowBytes / 16 := by omega
  refine MakesRight.foldl (List.mem_range.mpr htile)
    (fun tile htile => keepsRight_tile hrows hgroup (List.mem_range.mp htile)) ?_
  have hplace : sourceByte / 16 * 16 + sourceByte % 16 = sourceByte := by omega
  have hmake :=
    @makesRight_tile rows rowBytes hrows rowGroup (sourceByte / 16) (sourceByte % 16) hgroup htile
    (by omega)
  rwa [hplace] at hmake

/-! ### The tail -/

/-- The bytes which are gathered are those of a column. -/
theorem gather_lane (sourceByte rowGroup : ℕ) :
    RightLane rows rowBytes sourceByte rowGroup
      ((List.range 16).map fun i => rows.getD ((rowGroup * 16 + i) * rowBytes + sourceByte) 0) := by
  intro i hi
  rw [List.getD_eq_getElem _ _ (by simpa using hi), List.getElem_map, List.getElem_range]

/-- The loops over the tail make its columns right. -/
theorem tail_right :
    let tail := fun out => (List.range' (rowBytes / 16 * 16) (rowBytes - rowBytes / 16 * 16)).foldl
      (fun out sourceByte =>
        (List.range 8).foldl (transposeGather rows rowBytes sourceByte) out) out
    KeepsRight rows rowBytes tail ∧
      ∀ sourceByte < rowBytes, rowBytes / 16 * 16 ≤ sourceByte → ∀ rowGroup < 8,
        MakesRight rows rowBytes sourceByte rowGroup tail := by
  have hkeep {sourceByte : ℕ} (hsource : sourceByte < rowBytes) :=
    KeepsRight.foldl (l := List.range 8) (f := transposeGather rows rowBytes sourceByte)
      fun rowGroup _ => keepsRight_emit hsource (gather_lane sourceByte rowGroup)
  have hin {sourceByte : ℕ} : sourceByte ∈ List.range' (rowBytes / 16 * 16)
      (rowBytes - rowBytes / 16 * 16) ↔ rowBytes / 16 * 16 ≤ sourceByte ∧ sourceByte <
        rowBytes := by
    rw [List.mem_range'_1]
    omega
  refine ⟨KeepsRight.foldl fun sourceByte hmem => hkeep (hin.mp hmem).2,
    fun sourceByte hsource htail rowGroup hgroup => ?_⟩
  refine MakesRight.foldl (hin.mpr ⟨htail, hsource⟩)
    (fun other hother => hkeep (hin.mp hother).2) ?_
  exact MakesRight.foldl (List.mem_range.mpr hgroup)
    (fun other _ => keepsRight_emit hsource (gather_lane sourceByte other))
    (makesRight_emit hsource (gather_lane sourceByte rowGroup))

/-- A bit of a transposition: the tiles make it and the tail keeps it, or the tail makes it. -/
theorem transpose128RowsSimd_bit (hrows : rows.length = 128 * rowBytes) {r c : ℕ} (hr : r < 128)
    (hc : c < rowBytes * 8) :
    blockBit ((transpose128RowsSimd rows rowBytes (rowBytes * 8)).getD c Block.zero) r =
      (rows.getD (r * rowBytes + c / 8) 0).toNat.testBit (c % 8) := by
  obtain ⟨hkeepTiles, hmakeTiles⟩ := tiles_right hrows
  obtain ⟨hkeepTail, hmakeTail⟩ := @tail_right rows rowBytes
  have hblank : RightLength rowBytes (List.replicate (rowBytes * 8) Block.zero) :=
    List.length_replicate
  obtain ⟨hlengthTiles, -⟩ := hkeepTiles _ hblank
  obtain ⟨-, hkeep⟩ := hkeepTail _ hlengthTiles
  by_cases htile : c / 8 < rowBytes / 16 * 16
  · exact hkeep _ _ (hmakeTiles (c / 8) htile (r / 16) (by omega) _ hblank) c r rfl hr rfl
  · exact hmakeTail (c / 8) (by omega) (by omega) (r / 16) (by omega) _ hlengthTiles c r rfl hr rfl

/-- The transposition, for every number of bytes in a row: bit `r` of output block `c` is bit `c` of
row `r`, in the tiles and in the tail. -/
theorem transpose128RowsSimd_transposes (hrows : rows.length = 128 * rowBytes) :
    (transpose128RowsSimd rows rowBytes (rowBytes * 8)).length = rowBytes * 8 ∧
      ∀ r < 128, ∀ c < rowBytes * 8,
        blockBit ((transpose128RowsSimd rows rowBytes (rowBytes * 8)).getD c Block.zero) r =
          (rows.getD (r * rowBytes + c / 8) 0).toNat.testBit (c % 8) :=
  ⟨transpose128RowsSimd_length .., fun _ hr _ hc => transpose128RowsSimd_bit hrows hr hc⟩

/-- Rows of 17 bytes, with the last byte in the tail. -/
theorem transpose128RowsSimd_transposes_seventeen :
    let rows := List.replicate (128 * 17) (5 : UInt8)
    let out := transpose128RowsSimd rows 17 (17 * 8)
    out.length = 17 * 8 ∧
      blockBit (out.getD 130 Block.zero) 127 =
        (rows.getD (127 * 17 + 130 / 8) 0).toNat.testBit (130 % 8) := by
  intro rows out
  have htransposed := @transpose128RowsSimd_transposes rows 17 List.length_replicate
  exact ⟨htransposed.1, htransposed.2 127 (by decide) 130 (by decide)⟩

end Shachain2pc
