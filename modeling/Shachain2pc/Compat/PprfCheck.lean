import Shachain2pc.Compat.SmallFieldVole
import Shachain2pc.Compat.SoftSpoken
import Shachain2pc.Party.PublicReveal

/-!
# The check of the trees

Every leaf gives three blocks: one takes its place, two are checked. The sender sends the
sums of the checked blocks of each tree, and the digest of all of them. The receiver does
not know one leaf of each tree; it finds the two blocks of that leaf from the sums, in a
buffer which it uses for every tree, and compares the digests.
-/

namespace Shachain2pc

namespace SoftSpoken4State

variable (permute : Block → Block → Block)

/-- One of the three blocks of a leaf. -/
def pprfBlock (counter : UInt64) (leaf : Block) : Block := aesDm permute pprfCheckKey counter leaf

/-- The checked blocks of a leaf. -/
def pprfPair (leaf : Block) : List Block := [pprfBlock permute 1 leaf, pprfBlock permute 2 leaf]

/-- A leaf of a tree. -/
def treeLeaf (leaves : List Block) (i y : ℕ) : Block := leaves.getD (i * softspokenQ + y) Block.zero

/-- The leaves of a tree are next to each other. -/
theorem treeIndex_iff {i n y : ℕ} (hy : y < softspokenQ) :
    (n * softspokenQ ≤ i * softspokenQ + y ∧ i * softspokenQ + y < n * softspokenQ + softspokenQ) ↔
      i = n := by
  rw [show softspokenQ = 16 from rfl] at hy ⊢
  omega

/-- A leaf of a tree is in the table. -/
theorem treeIndex_lt {i n y : ℕ} (hi : i < n) (hy : y < softspokenQ) :
    i * softspokenQ + y < n * softspokenQ := by
  have hle : (i + 1) * softspokenQ ≤ n * softspokenQ := Nat.mul_le_mul_right _ hi
  rw [Nat.succ_mul] at hle
  omega

/-! ## The sender -/

/-- The first leaves of a tree. -/
theorem foldl_pprfSendLeaf (loop : PprfSend) {base m : ℕ} (hfit : base + m ≤ loop.leaves.length) :
    let result := (List.range m).foldl (pprfSendLeaf permute base) loop
    result.leaves.length = loop.leaves.length ∧ result.tBuf = loop.tBuf ∧
      (∀ j, result.leaves.getD j Block.zero =
        if base ≤ j ∧ j < base + m then pprfBlock permute 0 (loop.leaves.getD j Block.zero)
        else loop.leaves.getD j Block.zero) ∧
      (blockVec result.tx = blockVec loop.tx + ∑ y ∈ Finset.range m,
        blockVec (pprfBlock permute 1 (loop.leaves.getD (base + y) Block.zero))) ∧
      (blockVec result.ty = blockVec loop.ty + ∑ y ∈ Finset.range m,
        blockVec (pprfBlock permute 2 (loop.leaves.getD (base + y) Block.zero))) ∧
      result.hashed = loop.hashed ++
        (List.range m).flatMap fun y =>
          pprfPair permute (loop.leaves.getD (base + y) Block.zero) := by
  induction m with
  | zero => simp
  | succ m ih =>
    obtain ⟨hlength, htBuf, hleaves, htx, hty, hhashed⟩ := ih (by omega)
    rw [List.range_succ, List.foldl_append, List.foldl_cons, List.foldl_nil]
    generalize (List.range m).foldl (pprfSendLeaf permute base) loop = before at *
    have hleaf :
        before.leaves.getD (base + m) Block.zero = loop.leaves.getD (base + m) Block.zero := by
      rw [hleaves, if_neg (by omega)]
    simp only [pprfSendLeaf, hleaf]
    refine ⟨by rw [List.length_set, hlength], htBuf, fun j => ?_, ?_, ?_, ?_⟩
    · rw [getD_set (by omega), hleaves]
      by_cases hlast : j = base + m
      · rw [if_pos hlast, if_pos (by omega), hlast]
        rfl
      · by_cases hin : base ≤ j ∧ j < base + m
        · rw [if_neg hlast, if_pos hin, if_pos (by omega)]
        · rw [if_neg hlast, if_neg hin, if_neg (by omega)]
    · rw [blockVec_xor, htx, Finset.sum_range_succ, add_assoc]
      rfl
    · rw [blockVec_xor, hty, Finset.sum_range_succ, add_assoc]
      rfl
    · rw [hhashed, List.flatMap_append, List.flatMap_singleton, List.append_assoc]
      rfl

/-- What the check of some trees leaves behind on the sender's side. -/
structure SendChecked (leaves : List Block) (n : ℕ) (loop : PprfSend) : Prop where
  length : loop.leaves.length = leaves.length
  tBuf_length : loop.tBuf.length = softspokenN * 2
  leaf : ∀ j, loop.leaves.getD j Block.zero =
    if j < n * softspokenQ then pprfBlock permute 0 (leaves.getD j Block.zero)
    else leaves.getD j Block.zero
  sum : ∀ i < n,
    blockVec (loop.tBuf.getD (i * 2) Block.zero) =
      ∑ y ∈ Finset.range softspokenQ, blockVec (pprfBlock permute 1 (treeLeaf leaves i y)) ∧
    blockVec (loop.tBuf.getD (i * 2 + 1) Block.zero) =
      ∑ y ∈ Finset.range softspokenQ, blockVec (pprfBlock permute 2 (treeLeaf leaves i y))
  hashed : loop.hashed = (List.range n).flatMap fun i =>
    (List.range softspokenQ).flatMap fun y => pprfPair permute (treeLeaf leaves i y)

/-- One more tree of the sender. -/
theorem SendChecked.step {permute : Block → Block → Block} {leaves : List Block} {n : ℕ}
    {loop : PprfSend} (h : SendChecked permute leaves n loop) (hn : n < softspokenN)
    (hleaves : leaves.length = softspokenN * softspokenQ) :
    SendChecked permute leaves (n + 1) (pprfSendTree permute loop n) := by
  obtain ⟨hlength, htBufLength, hleaf, hsum, hhashed⟩ := h
  have hfit : n * softspokenQ + softspokenQ ≤ loop.leaves.length := by
    rw [hlength, hleaves, ← Nat.succ_mul]
    exact Nat.mul_le_mul_right _ hn
  obtain ⟨hlength', htBuf, hleaf', htx, hty, hhashed'⟩ :=
    foldl_pprfSendLeaf permute { loop with tx := Block.zero, ty := Block.zero } hfit
  rw [pprfSendTree]
  generalize (List.range softspokenQ).foldl _ _ = tree at *
  simp only at hlength' htBuf hleaf' htx hty hhashed' ⊢
  have hcount : tree.tBuf.length = softspokenN * 2 := htBuf ▸ htBufLength
  have hsame {y : ℕ} (hy : y < softspokenQ) :
      loop.leaves.getD (n * softspokenQ + y) Block.zero = treeLeaf leaves n y := by
    rw [hleaf, if_neg (by omega), treeLeaf]
  have htreeSum (counter : UInt64) :
      ∑ y ∈ Finset.range softspokenQ,
          blockVec (pprfBlock permute counter (loop.leaves.getD (n * softspokenQ + y) Block.zero)) =
        ∑ y ∈ Finset.range softspokenQ,
            blockVec (pprfBlock permute counter (treeLeaf leaves n y)) :=
    Finset.sum_congr rfl fun y hy => by rw [hsame (Finset.mem_range.mp hy)]
  rw [blockVec_zero, zero_add, htreeSum] at htx hty
  have hread (j : ℕ) : ((tree.tBuf.set (n * 2) tree.tx).set (n * 2 + 1) tree.ty).getD j Block.zero =
      if j = n * 2 + 1 then tree.ty else if j = n * 2 then tree.tx
      else loop.tBuf.getD j Block.zero := by
    rw [getD_set (by rw [List.length_set]; omega), getD_set (by omega), htBuf]
  refine ⟨by rw [hlength', hlength], by simp only [List.length_set]; omega, fun j => ?_,
    fun i hi => ?_, ?_⟩
  · rw [hleaf', hleaf, Nat.succ_mul]
    by_cases hlow : j < n * softspokenQ
    · rw [if_neg (by omega), if_pos hlow, if_pos (by omega)]
    · by_cases hin : j < n * softspokenQ + softspokenQ
      · rw [if_pos (by omega), if_neg hlow, if_pos hin]
      · rw [if_neg (by omega), if_neg hlow, if_neg hin]
  · rw [hread, hread]
    by_cases hlast : i = n
    · subst hlast
      rw [if_neg (by omega), if_pos rfl, if_pos rfl]
      exact ⟨htx, hty⟩
    · rw [if_neg (by omega), if_neg (by omega), if_neg (by omega), if_neg (by omega)]
      exact hsum i (by omega)
  · rw [hhashed', hhashed, List.range_succ, List.flatMap_append, List.flatMap_singleton]
    congr 1
    refine List.flatMap_congr fun y hy => ?_
    rw [hsame (List.mem_range.mp hy)]

/-- All trees of the sender. -/
theorem sendChecked {leaves : List Block} (hleaves : leaves.length = softspokenN * softspokenQ)
    {n : ℕ} (hn : n ≤ softspokenN) :
    SendChecked permute leaves n ((List.range n).foldl (pprfSendTree permute) {
      leaves := leaves
      tx := Block.zero
      ty := Block.zero
      tBuf := List.replicate (softspokenN * 2) Block.zero
      hashed := [] }) := by
  induction n with
  | zero =>
    refine ⟨rfl, List.length_replicate, fun j => ?_, fun i hi => absurd hi (Nat.not_lt_zero i), rfl⟩
    rw [if_neg (by omega)]
    rfl
  | succ n ih =>
    rw [List.range_succ, List.foldl_append]
    exact (ih (by omega)).step hn hleaves

/-! ## The receiver -/

/-- The sum of one of the blocks over the known leaves of a tree. -/
def pprfKnownSum (counter : UInt64) (alpha m : ℕ) (leaf : ℕ → Block) (init : Block) : Block :=
  (List.range m).foldl
    (fun acc y => if y = alpha then acc else blockXor acc (pprfBlock permute counter (leaf y))) init

/-- One more leaf. -/
theorem pprfKnownSum_succ (counter : UInt64) (alpha m : ℕ) (leaf : ℕ → Block) (init : Block) :
    pprfKnownSum permute counter alpha (m + 1) leaf init =
      if m = alpha then pprfKnownSum permute counter alpha m leaf init
      else blockXor (pprfKnownSum permute counter alpha m leaf init)
        (pprfBlock permute counter (leaf m)) := by
  rw [pprfKnownSum, List.range_succ, List.foldl_append]
  rfl

/-- The sum depends on the leaves of the tree only. -/
theorem pprfKnownSum_congr {counter : UInt64} {alpha m : ℕ} {leaf leaf' : ℕ → Block}
    (h : ∀ y < m, leaf y = leaf' y) (init : Block) :
    pprfKnownSum permute counter alpha m leaf init =
      pprfKnownSum permute counter alpha m leaf' init := by
  induction m with
  | zero => rfl
  | succ m ih =>
    rw [pprfKnownSum_succ, pprfKnownSum_succ, ih fun y hy => h y (by omega), h m (by omega)]

/-- The sum does not look at the unknown leaf. -/
theorem blockVec_pprfKnownSum (counter : UInt64) (alpha m : ℕ) (leaf : ℕ → Block) :
    blockVec (pprfKnownSum permute counter alpha m leaf Block.zero) =
      ∑ y ∈ Finset.range m, if y = alpha then 0 else blockVec
        (pprfBlock permute counter (leaf y)) := by
  induction m with
  | zero => exact blockVec_zero
  | succ m ih =>
    rw [pprfKnownSum_succ, Finset.sum_range_succ, ← ih]
    split
    · exact (add_zero _).symm
    · exact blockVec_xor _ _

/-- The first leaves of a tree. -/
theorem foldl_pprfRecvLeaf (loop : PprfRecv) {alpha base m : ℕ}
    (hfit : base + m ≤ loop.leaves.length) (hbuffer : m * 2 ≤ loop.sBuf.length) :
    let result := (List.range m).foldl (pprfRecvLeaf permute alpha base) loop
    let leaf (y : ℕ) := loop.leaves.getD (base + y) Block.zero
    result.leaves.length = loop.leaves.length ∧ result.sBuf.length = loop.sBuf.length ∧
      result.hashed = loop.hashed ∧
      (∀ j, result.leaves.getD j Block.zero =
        if base ≤ j ∧ j < base + m ∧ j ≠ base + alpha then
          pprfBlock permute 0 (loop.leaves.getD j Block.zero)
        else loop.leaves.getD j Block.zero) ∧
      (∀ y < m, y ≠ alpha → result.sBuf.getD (y * 2) Block.zero = pprfBlock permute 1 (leaf y) ∧
        result.sBuf.getD (y * 2 + 1) Block.zero = pprfBlock permute 2 (leaf y)) ∧
      result.tx = pprfKnownSum permute 1 alpha m leaf loop.tx ∧
      result.ty = pprfKnownSum permute 2 alpha m leaf loop.ty := by
  intro result leaf
  induction m with
  | zero =>
    refine ⟨rfl, rfl, rfl, fun j => ?_, fun y hy => absurd hy (Nat.not_lt_zero y), rfl, rfl⟩
    rw [if_neg (by omega)]
    rfl
  | succ m ih =>
    obtain ⟨hlength, hcount, hhashed, hleaves, hwritten, htx, hty⟩ := ih (by omega) (by omega)
    have hresult : result = pprfRecvLeaf permute alpha base
        ((List.range m).foldl (pprfRecvLeaf permute alpha base) loop) m := by
      simp only [result, List.range_succ, List.foldl_append, List.foldl_cons, List.foldl_nil]
    rw [hresult, pprfKnownSum_succ, pprfKnownSum_succ, ← htx, ← hty]
    generalize (List.range m).foldl (pprfRecvLeaf permute alpha base) loop = before at *
    have hleaf : before.leaves.getD (base + m) Block.zero = leaf m := by
      rw [hleaves, if_neg (by omega)]
    by_cases hskip : m = alpha
    · rw [pprfRecvLeaf, if_pos hskip, if_pos hskip, if_pos hskip]
      refine ⟨hlength, hcount, hhashed, fun j => ?_, fun y hy hne =>
        hwritten y (by omega) hne, rfl, rfl⟩
      rw [hleaves]
      by_cases hin : base ≤ j ∧ j < base + m ∧ j ≠ base + alpha
      · rw [if_pos hin, if_pos (by omega)]
      · rw [if_neg hin, if_neg (by omega)]
    · rw [pprfRecvLeaf, if_neg hskip, if_neg hskip, if_neg hskip]
      simp only [hleaf]
      refine ⟨by rw [List.length_set, hlength], by simp only [List.length_set, hcount], hhashed,
        fun j => ?_, fun y hy hne => ?_, rfl, rfl⟩
      · rw [getD_set (by omega), hleaves]
        by_cases hlast : j = base + m
        · rw [if_pos hlast, if_pos (by omega), hlast]
          rfl
        · by_cases hin : base ≤ j ∧ j < base + m ∧ j ≠ base + alpha
          · rw [if_neg hlast, if_pos hin, if_pos (by omega)]
          · rw [if_neg hlast, if_neg hin, if_neg (by omega)]
      · rw [getD_set (by rw [List.length_set]; omega), getD_set (by omega),
          getD_set (by rw [List.length_set]; omega), getD_set (by omega)]
        by_cases hlast : y = m
        · subst hlast
          rw [if_neg (by omega), if_pos rfl, if_pos rfl]
          exact ⟨rfl, rfl⟩
        · rw [if_neg (by omega), if_neg (by omega), if_neg (by omega), if_neg (by omega)]
          exact hwritten y (by omega) hne

/-- The checked blocks of a leaf as the receiver finds them: those of the unknown leaf are what the
sums leave over. -/
def recvPair (alphas : List ℕ) (tBuf leaves : List Block) (i y : ℕ) : Block × Block :=
  let alpha := alphas.getD i 0
  if y = alpha then
    (blockXor (tBuf.getD (i * 2) Block.zero)
        (pprfKnownSum permute 1 alpha softspokenQ (treeLeaf leaves i) Block.zero),
      blockXor (tBuf.getD (i * 2 + 1) Block.zero)
        (pprfKnownSum permute 2 alpha softspokenQ (treeLeaf leaves i) Block.zero))
  else (pprfBlock permute 1 (treeLeaf leaves i y), pprfBlock permute 2 (treeLeaf leaves i y))

/-- A list of pairs, one after the other. -/
theorem eq_flatMap_pairs {blocks : List Block} {n : ℕ} (hlength : blocks.length = n * 2)
    {pair : ℕ → Block × Block}
    (h : ∀ y < n, blocks.getD (y * 2) Block.zero = (pair y).1 ∧
      blocks.getD (y * 2 + 1) Block.zero = (pair y).2) :
    blocks = (List.range n).flatMap fun y => [(pair y).1, (pair y).2] := by
  induction n generalizing blocks with
  | zero => exact List.length_eq_zero_iff.mp (by omega)
  | succ n ih =>
    have hinit :
        blocks.take (n * 2) = (List.range n).flatMap fun y => [(pair y).1, (pair y).2] := by
      refine ih (by rw [List.length_take]; omega) fun y hy => ?_
      rw [List.getD_eq_getElem?_getD, List.getElem?_take_of_lt (by omega),
        List.getD_eq_getElem?_getD,
        List.getElem?_take_of_lt
          (by omega), ← List.getD_eq_getElem?_getD, ← List.getD_eq_getElem?_getD]
      exact h y (by omega)
    obtain ⟨hfst, hsnd⟩ := h n (by omega)
    rw [List.getD_eq_getElem _ _ (by omega)] at hfst hsnd
    rw [List.range_succ, List.flatMap_append, ← hinit, List.flatMap_singleton, ← hfst, ← hsnd]
    conv_lhs => rw [← List.take_append_drop (n * 2) blocks]
    congr 1
    rw [List.drop_eq_getElem_cons (by omega), List.drop_eq_getElem_cons (by omega),
      List.drop_eq_nil_of_le (by omega)]

/-- What the check of some trees leaves behind on the receiver's side. -/
structure RecvChecked (alphas : List ℕ) (tBuf leaves : List Block) (n : ℕ) (loop : PprfRecv) :
    Prop where
  length : loop.leaves.length = leaves.length
  sBuf_length : loop.sBuf.length = softspokenQ * 2
  leaf : ∀ i y, y < softspokenQ → treeLeaf loop.leaves i y =
    if i < n ∧ y ≠
      alphas.getD i 0 then pprfBlock permute 0 (treeLeaf leaves i y) else treeLeaf leaves i y
  hashed : loop.hashed = (List.range n).flatMap fun i => (List.range softspokenQ).flatMap fun y =>
    [(recvPair permute alphas tBuf leaves i y).1, (recvPair permute alphas tBuf leaves i y).2]

/-- One more tree of the receiver. The buffer holds no block of an earlier tree when it is
hashed. -/
theorem RecvChecked.step {permute : Block → Block → Block} {alphas : List ℕ}
    {tBuf leaves : List Block} {n : ℕ} {loop : PprfRecv}
    (h : RecvChecked permute alphas tBuf leaves n loop) (hn : n < softspokenN)
    (hleaves : leaves.length = softspokenN * softspokenQ) (halpha : alphas.getD n 0 < softspokenQ) :
    RecvChecked permute alphas tBuf leaves (n + 1) (pprfRecvTree permute alphas tBuf loop n) := by
  obtain ⟨hlength, hbufLength, hleaf, hhashed⟩ := h
  have hfit : n * softspokenQ + softspokenQ ≤ loop.leaves.length := by
    rw [hlength, hleaves, ← Nat.succ_mul]
    exact Nat.mul_le_mul_right _ hn
  generalize halphaN : alphas.getD n 0 = alpha at halpha
  obtain ⟨hlength', hcount, hhashed', hleaf', hwritten, htx, hty⟩ :=
    @foldl_pprfRecvLeaf permute { loop with tx := Block.zero, ty := Block.zero } alpha _ _ hfit
      (le_of_eq hbufLength.symm)
  rw [pprfRecvTree, halphaN]
  generalize (List.range softspokenQ).foldl _ _ = tree at *
  simp only at hlength' hcount hhashed' hleaf' hwritten htx hty ⊢
  have hsame {y : ℕ} (hy : y < softspokenQ) :
      loop.leaves.getD (n * softspokenQ + y) Block.zero = treeLeaf leaves n y :=
    (hleaf n y hy).trans (if_neg (by omega))
  rw [pprfKnownSum_congr permute fun y hy => hsame hy] at htx hty
  have hread (j : ℕ) :
      ((tree.sBuf.set (alpha * 2) (blockXor (tBuf.getD (n * 2) Block.zero) tree.tx)).set
        (alpha * 2 + 1)
          (blockXor (tBuf.getD (n * 2 + 1) Block.zero) tree.ty)).getD j Block.zero =
        if j = alpha * 2 + 1 then blockXor (tBuf.getD (n * 2 + 1) Block.zero) tree.ty
        else if j = alpha * 2 then blockXor (tBuf.getD (n * 2) Block.zero) tree.tx
        else tree.sBuf.getD j Block.zero := by
    rw [getD_set (by rw [List.length_set]; omega), getD_set (by omega)]
  refine ⟨by rw [hlength', hlength], by simp only [List.length_set]; omega, fun i y hy => ?_, ?_⟩
  · have hentry := hleaf' (i * softspokenQ + y)
    have hin := treeIndex_iff (i := i) (n := n) hy
    rw [treeLeaf, hentry]
    by_cases hlast : i = n
    · subst hlast
      by_cases hself : y = alpha
      · rw [if_neg (by omega), if_neg (by omega)]
        exact hsame hy
      · rw [if_pos (by omega), if_pos (by omega), hsame hy]
    · rw [if_neg (by omega)]
      refine (hleaf i y hy).trans ?_
      by_cases hearlier : i < n ∧ y ≠ alphas.getD i 0
      · rw [if_pos hearlier, if_pos ⟨by omega, hearlier.2⟩]
      · rw [if_neg hearlier, if_neg fun hnext => hearlier ⟨by omega, hnext.2⟩]
  · dsimp only
    rw [hhashed', hhashed, List.range_succ, List.flatMap_append, List.flatMap_singleton]
    congr 1
    refine eq_flatMap_pairs ?_ fun y hy => ?_
    · rw [List.length_set, List.length_set]
      omega
    rw [hread, hread, recvPair, halphaN]
    by_cases hself : y = alpha
    · subst hself
      rw [if_neg (by omega), if_pos rfl, if_pos rfl, if_pos rfl, htx, hty]
      exact ⟨rfl, rfl⟩
    · obtain ⟨hfst, hsnd⟩ := hwritten y hy hself
      rw [if_neg hself, if_neg (by omega), if_neg (by omega), if_neg (by omega),
        if_neg (by omega), hfst, hsnd, hsame hy]
      exact ⟨rfl, rfl⟩

/-- All trees of the receiver. -/
theorem recvChecked {alphas : List ℕ} (tBuf : List Block) {leaves : List Block}
    (hleaves : leaves.length = softspokenN * softspokenQ)
    (halphas : ∀ i < softspokenN, alphas.getD i 0 < softspokenQ) {n : ℕ} (hn : n ≤ softspokenN) :
    RecvChecked permute alphas tBuf leaves n
      ((List.range n).foldl (pprfRecvTree permute alphas tBuf) {
      leaves := leaves
      sBuf := List.replicate (softspokenQ * 2) Block.zero
      tx := Block.zero
      ty := Block.zero
      hashed := [] }) := by
  induction n with
  | zero =>
    refine ⟨rfl, List.length_replicate, fun i y hy => ?_, rfl⟩
    rw [if_neg (by omega)]
    rfl
  | succ n ih =>
    rw [List.range_succ, List.foldl_append]
    exact (ih (by omega)).step hn hleaves (halphas n hn)

/-! ## The two sides -/

/-- Leaf tables which agree off the punctured positions. -/
def AgreeOff (alphas : List ℕ) (known leaves : List Block) : Prop :=
  ∀ i < softspokenN, ∀ y < softspokenQ, y ≠ alphas.getD i 0 → treeLeaf known i y =
    treeLeaf leaves i y

/-- From the sender's sums the receiver finds the sender's blocks. -/
theorem recvPair_honest {alphas : List ℕ} {tBuf known leaves : List Block}
    (hagree : AgreeOff alphas known leaves)
    (halphas : ∀ i < softspokenN, alphas.getD i 0 < softspokenQ)
    (hsum : ∀ i < softspokenN, blockVec (tBuf.getD (i * 2) Block.zero) =
      ∑ y ∈ Finset.range softspokenQ, blockVec (pprfBlock permute 1 (treeLeaf leaves i y)) ∧
      blockVec (tBuf.getD (i * 2 + 1) Block.zero) = ∑ y ∈ Finset.range softspokenQ,
        blockVec (pprfBlock permute 2 (treeLeaf leaves i y)))
    {i y : ℕ} (hi : i < softspokenN) (hy : y < softspokenQ) :
    recvPair permute alphas tBuf known i y =
      (pprfBlock permute 1 (treeLeaf leaves i y), pprfBlock permute 2 (treeLeaf leaves i y)) := by
  have hmissing {sum : Block} {counter : UInt64} (h : blockVec sum =
      ∑ y ∈ Finset.range softspokenQ, blockVec (pprfBlock permute counter (treeLeaf leaves i y))) :
      blockXor sum (pprfKnownSum permute counter (alphas.getD i 0) softspokenQ (treeLeaf known i)
        Block.zero) = pprfBlock permute counter (treeLeaf leaves i (alphas.getD i 0)) := by
    apply blockVec_injective
    have hmem : alphas.getD i 0 ∈ Finset.range softspokenQ := Finset.mem_range.mpr (halphas i hi)
    rw [blockVec_xor, h, blockVec_pprfKnownSum, ← Finset.sum_add_distrib,
      Finset.sum_eq_single_of_mem _ hmem]
    · rw [if_pos rfl, add_zero]
    · intro y hy hne
      rw [if_neg hne, hagree i hi y (Finset.mem_range.mp hy) hne, blockVec_add_self]
  obtain ⟨htx, hty⟩ := hsum i hi
  rw [recvPair]
  by_cases hself : y = alphas.getD i 0
  · rw [if_pos hself, hmissing htx, hmissing hty, hself]
  · rw [if_neg hself, hagree i hi y hy hself]

/-- The blocks of a table of pairs, in the order in which they are hashed. -/
def tableBlocks (table : ℕ → ℕ → Block × Block) : List Block :=
  (List.range softspokenN).flatMap fun i =>
    (List.range softspokenQ).flatMap fun y => [(table i y).1, (table i y).2]

/-- Tables with the same pairs in range. -/
theorem tableBlocks_congr {table table' : ℕ → ℕ → Block × Block}
    (h : ∀ i < softspokenN, ∀ y < softspokenQ, table i y = table' i y) :
    tableBlocks table = tableBlocks table' := by
  refine List.flatMap_congr fun i hi => List.flatMap_congr fun y hy => ?_
  rw [h i (List.mem_range.mp hi) y (List.mem_range.mp hy)]

/-- A table which a receiver accepts: its pairs off the punctured positions are those of the known
leaves, and the pairs of each tree sum up to what was sent. -/
structure CheckedTable (alphas : List ℕ) (leaves tBuf : List Block)
    (table : ℕ → ℕ → Block × Block) :
    Prop where
  known : ∀ i < softspokenN, ∀ y < softspokenQ, y ≠ alphas.getD i 0 →
    table i y =
      (pprfBlock permute 1 (treeLeaf leaves i y), pprfBlock permute 2 (treeLeaf leaves i y))
  sum : ∀ i < softspokenN,
    ((List.range softspokenQ).map fun y => (table i y).1).foldl blockXor Block.zero =
      tBuf.getD (i * 2) Block.zero ∧
    ((List.range softspokenQ).map fun y => (table i y).2).foldl blockXor Block.zero =
      tBuf.getD (i * 2 + 1) Block.zero

/-- The value of a sum of blocks. -/
theorem blockVec_foldl_range (f : ℕ → Block) (n : ℕ) :
    blockVec (((List.range n).map f).foldl blockXor Block.zero) = ∑ y ∈ Finset.range n,
      blockVec (f y) := by
  induction n with
  | zero => exact blockVec_zero
  | succ n ih =>
    rw [List.range_succ, List.map_append, List.foldl_append, List.map_singleton, List.foldl_cons,
      List.foldl_nil, blockVec_xor, ih, Finset.sum_range_succ]

/-- The receiver's own table is one which it accepts. -/
theorem checkedTable_recvPair {alphas : List ℕ} (leaves tBuf : List Block)
    (halphas : ∀ i < softspokenN, alphas.getD i 0 < softspokenQ) :
    CheckedTable permute alphas leaves tBuf (recvPair permute alphas tBuf leaves) := by
  refine ⟨fun i hi y hy hne => if_neg hne, fun i hi => ?_⟩
  have hmem : alphas.getD i 0 ∈ Finset.range softspokenQ := Finset.mem_range.mpr (halphas i hi)
  have htotal (sum : Block) (counter : UInt64) :
      ∑ y ∈ Finset.range softspokenQ, blockVec (if y = alphas.getD i 0 then
        blockXor sum (pprfKnownSum permute counter (alphas.getD i 0) softspokenQ (treeLeaf leaves i)
          Block.zero)
        else pprfBlock permute counter (treeLeaf leaves i y)) = blockVec sum := by
    calc _ = ∑ y ∈ Finset.range softspokenQ, (if y = alphas.getD i 0 then
            blockVec (blockXor sum (pprfKnownSum permute counter (alphas.getD i 0) softspokenQ
              (treeLeaf leaves i) Block.zero)) else 0) +
          ∑ y ∈ Finset.range softspokenQ, (if y = alphas.getD i 0 then 0
            else blockVec (pprfBlock permute counter (treeLeaf leaves i y))) := by
          rw [← Finset.sum_add_distrib]
          refine Finset.sum_congr rfl fun y _ => ?_
          split
          · exact (add_zero _).symm
          · exact (zero_add _).symm
      _ = blockVec sum := by
          rw [Finset.sum_ite_eq', if_pos hmem, ← blockVec_pprfKnownSum, blockVec_xor, add_assoc,
            blockVec_add_self, add_zero]
  constructor
  · apply blockVec_injective
    rw [blockVec_foldl_range, ← htotal (tBuf.getD (i * 2) Block.zero) 1]
    refine Finset.sum_congr rfl fun y _ => ?_
    rw [recvPair]
    split <;> rfl
  · apply blockVec_injective
    rw [blockVec_foldl_range, ← htotal (tBuf.getD (i * 2 + 1) Block.zero) 2]
    refine Finset.sum_congr rfl fun y _ => ?_
    rw [recvPair]
    split <;> rfl

variable (sha256 : List UInt8 → Value32)

/-- A receiver which gets as far as comparing digests compares with that of its own table. -/
theorem pprfCheckRecvVerify_eq {s : SoftSpoken4State}
    (hleaves : s.leavesRecv.length = softspokenN * softspokenQ)
    (halphas : ∀ i < softspokenN, s.alphas.getD i 0 < softspokenQ) {tBuf : List Block}
    {theirDigest : List UInt8} (htBuf : tBuf.length = softspokenN * 2)
    (hdigest : theirDigest.length = 32) :
    let table := recvPair permute s.alphas tBuf s.leavesRecv
    let verified := s.pprfCheckRecvVerify permute sha256 tBuf theirDigest
    (verified.1 = .ok () ↔ (sha256 (macBytes (tableBlocks table))).bytes.toList = theirDigest) ∧
      ∀ i < softspokenN, ∀ y < softspokenQ, y ≠ s.alphas.getD i 0 →
        treeLeaf verified.2.leavesRecv i y = pprfBlock permute 0 (treeLeaf s.leavesRecv i y) := by
  intro table verified
  obtain ⟨-, -, hleaf, hhashed⟩ := recvChecked permute tBuf hleaves halphas le_rfl
  have hverified : verified = _ := if_neg (not_not_intro htBuf)
  rw [if_neg (not_not_intro hdigest)] at hverified
  rw [hverified]
  dsimp only
  rw [hhashed]
  constructor
  · split
    · next hne => exact ⟨fun h => absurd h (by decide), fun h => absurd h hne⟩
    · next heq => exact ⟨fun _ => not_not.mp heq, fun _ => rfl⟩
  · intro i hi y hy hne
    exact (hleaf i y hy).trans (if_pos ⟨hi, hne⟩)

/-- What a sender sends and keeps. -/
theorem pprfCheckSendPrepare_eq {s : SoftSpoken4State}
    (hleaves : s.leavesSend.length = softspokenN * softspokenQ) :
    ∃ loop, SendChecked permute s.leavesSend softspokenN loop ∧
      s.pprfCheckSendPrepare permute sha256 =
        ((loop.tBuf, sha256 (macBytes loop.hashed)), { s with leavesSend := loop.leaves }) :=
  ⟨_, sendChecked permute hleaves le_rfl, rfl⟩

/-- What an accepted buffer and digest look like. -/
theorem pprfCheckRecvVerify_lengths {s : SoftSpoken4State} {tBuf : List Block}
    {theirDigest : List UInt8}
    (h : (s.pprfCheckRecvVerify permute sha256 tBuf theirDigest).1 = .ok ()) :
    tBuf.length = softspokenN * 2 ∧ theirDigest.length = 32 := by
  rw [pprfCheckRecvVerify] at h
  split at h
  · cases h
  · next htBuf =>
    split at h
    · cases h
    · next hdigest => exact ⟨not_not.mp htBuf, not_not.mp hdigest⟩

/-- An honest sender is accepted, and the tables agree again off the punctured positions. -/
theorem pprfCheck_honest {sender receiver : SoftSpoken4State}
    (hsender : sender.leavesSend.length = softspokenN * softspokenQ)
    (hreceiver : receiver.leavesRecv.length = softspokenN * softspokenQ)
    (halphas : ∀ i < softspokenN, receiver.alphas.getD i 0 < softspokenQ)
    (hagree : AgreeOff receiver.alphas receiver.leavesRecv sender.leavesSend) :
    let prepared := sender.pprfCheckSendPrepare permute sha256
    let verified :=
      receiver.pprfCheckRecvVerify permute sha256 prepared.1.1 prepared.1.2.bytes.toList
    verified.1 = .ok () ∧ AgreeOff receiver.alphas verified.2.leavesRecv prepared.2.leavesSend := by
  obtain ⟨loop, ⟨-, htBuf, hleaf, hsum, hhashed⟩, heq⟩ :=
    pprfCheckSendPrepare_eq permute sha256 hsender
  rw [heq]
  dsimp only
  obtain ⟨haccept, hknown⟩ := pprfCheckRecvVerify_eq permute sha256 hreceiver halphas htBuf
    (@Vector.length_toList _ _ (sha256 (macBytes loop.hashed)).bytes)
  constructor
  · refine haccept.mpr ?_
    have htable : tableBlocks (recvPair permute receiver.alphas loop.tBuf receiver.leavesRecv) =
        loop.hashed := by
      rw [hhashed, tableBlocks_congr fun i hi y hy =>
        recvPair_honest permute hagree halphas hsum hi hy]
      rfl
    rw [htable]
  · intro i hi y hy hne
    refine (hknown i hi y hy hne).trans ?_
    rw [hagree i hi y hy hne]
    exact ((hleaf _).trans (if_pos (treeIndex_lt hi hy))).symm

/-- Concatenations of lists of the same lengths. -/
theorem flatMap_range_inj {α : Type} {n : ℕ} {f g : ℕ → List α}
    (hlength : ∀ i, (f i).length = (g i).length)
    (h : (List.range n).flatMap f = (List.range n).flatMap g) {i : ℕ} (hi : i < n) : f i = g i := by
  induction n with
  | zero => exact absurd hi (Nat.not_lt_zero i)
  | succ n ih =>
    rw [List.range_succ, List.flatMap_append, List.flatMap_append, List.flatMap_singleton,
      List.flatMap_singleton] at h
    obtain ⟨hinit, hlast⟩ := List.append_inj' h (hlength n)
    by_cases heq : i = n
    · rw [heq, hlast]
    · exact ih hinit (by omega)

/-- A table is determined by its blocks. -/
theorem tableBlocks_inj {table table' : ℕ → ℕ → Block × Block}
    (h : tableBlocks table = tableBlocks table') {i y : ℕ} (hi : i < softspokenN)
    (hy : y < softspokenQ) : table i y = table' i y := by
  have htree := flatMap_range_inj (fun i => by simp) h hi
  have hpair := flatMap_range_inj (fun y => by rfl) htree hy
  rw [List.cons.injEq, List.cons.injEq] at hpair
  exact Prod.ext hpair.1 hpair.2.1

/-- Every table has the same number of blocks. -/
theorem tableBlocks_length (table : ℕ → ℕ → Block × Block) :
    (tableBlocks table).length = softspokenN * (softspokenQ * 2) := by
  simp [tableBlocks]

/-- The check of the trees. An honest sender is accepted, and the tables agree again off the
punctured positions. Any digest which is accepted is that of a table which fits the known leaves and
the sums, and without a second preimage of the digest so is every table with it. -/
theorem pprfCheck_correct {receiver : SoftSpoken4State}
    (hreceiver : receiver.leavesRecv.length = softspokenN * softspokenQ)
    (halphas : ∀ i < softspokenN, receiver.alphas.getD i 0 < softspokenQ) :
    (∀ sender : SoftSpoken4State, sender.leavesSend.length = softspokenN * softspokenQ →
      AgreeOff receiver.alphas receiver.leavesRecv sender.leavesSend →
      let prepared := sender.pprfCheckSendPrepare permute sha256
      let verified :=
        receiver.pprfCheckRecvVerify permute sha256 prepared.1.1 prepared.1.2.bytes.toList
      verified.1 = .ok () ∧ AgreeOff receiver.alphas verified.2.leavesRecv prepared.2.leavesSend) ∧
    ∀ (tBuf : List Block) (theirDigest : List UInt8),
      (receiver.pprfCheckRecvVerify permute sha256 tBuf theirDigest).1 = .ok () →
      (∃ table, CheckedTable permute receiver.alphas receiver.leavesRecv tBuf table ∧
        (sha256 (macBytes (tableBlocks table))).bytes.toList = theirDigest) ∧
      ∀ table, (sha256 (macBytes (tableBlocks table))).bytes.toList = theirDigest →
        (∀ input, (sha256 input).bytes.toList = theirDigest → input =
          macBytes (tableBlocks table)) →
        CheckedTable permute receiver.alphas receiver.leavesRecv tBuf table := by
  refine ⟨fun sender hsender hagree =>
    pprfCheck_honest permute sha256 hsender hreceiver halphas hagree,
    fun tBuf theirDigest haccept => ?_⟩
  obtain ⟨htBuf, hdigest⟩ := pprfCheckRecvVerify_lengths permute sha256 haccept
  have hown := (pprfCheckRecvVerify_eq permute sha256 hreceiver halphas htBuf hdigest).1.mp haccept
  have hchecked := checkedTable_recvPair permute receiver.leavesRecv tBuf halphas
  refine ⟨⟨_, hchecked, hown⟩, fun table _ hfree => ?_⟩
  have hsame :
      tableBlocks (recvPair permute receiver.alphas tBuf receiver.leavesRecv) = tableBlocks table :=
    (macBytes_inj (by rw [tableBlocks_length, tableBlocks_length])).mp (hfree _ hown)
  obtain ⟨hknown, hsum⟩ := hchecked
  refine ⟨fun i hi y hy hne => ?_, fun i hi => ?_⟩
  · rw [← tableBlocks_inj hsame hi hy]
    exact hknown i hi y hy hne
  · have hrow (part : Block × Block → Block) :
        (List.range softspokenQ).map (fun y => part (table i y)) =
          (List.range softspokenQ).map fun y =>
          part (recvPair permute receiver.alphas tBuf receiver.leavesRecv i y) :=
      List.map_congr_left fun y hy => by rw [tableBlocks_inj hsame hi (List.mem_range.mp hy)]
    rw [hrow Prod.fst, hrow Prod.snd]
    exact hsum i hi

/-- A table of leaves which are all different. -/
def sampleLeaves : List Block :=
  (List.range (softspokenN * softspokenQ)).map fun k => Block.make 1 (UInt64.ofNat k)

/-- Positions at which trees are punctured. -/
def sampleAlphas : List ℕ := (List.range softspokenN).map fun i => (7 * i + 3) % softspokenQ

/-- The table without the leaves at these positions. -/
def samplePunctured : List Block :=
  (List.range (softspokenN * softspokenQ)).map fun k =>
    if k % softspokenQ = sampleAlphas.getD (k / softspokenQ) 0 then Block.zero
    else Block.make 1 (UInt64.ofNat k)

/-- The tables agree off the punctured positions. -/
theorem samplePunctured_agreeOff : AgreeOff sampleAlphas samplePunctured sampleLeaves := by
  intro i hi y hy hne
  have hget (f : ℕ → Block) {n k : ℕ} (hk : k < n) :
      ((List.range n).map f).getD k Block.zero = f k := by
    rw [List.getD_eq_getElem _ _ (by rwa [List.length_map, List.length_range]), List.getElem_map,
      List.getElem_range]
  have hk := treeIndex_lt hi hy
  have hmod : (i * softspokenQ + y) % softspokenQ = y := by
    rw [Nat.mul_add_mod_self_right, Nat.mod_eq_of_lt hy]
  have hdiv : (i * softspokenQ + y) / softspokenQ = i := by
    rw [Nat.mul_comm, Nat.mul_add_div (by decide), Nat.div_eq_of_lt hy, Nat.add_zero]
  rw [treeLeaf, treeLeaf, samplePunctured, sampleLeaves, hget _ hk, hget _ hk, hmod,
    hdiv, if_neg hne]

/-- Distinct leaves, and trees punctured at different positions, where the receiver has no leaf. -/
theorem pprfCheck_correct_punctured :
    let sender := { new .alice true Block.zero Block.zero with leavesSend := sampleLeaves }
    let receiver := { new .bob true Block.zero Block.zero with
      alphas := sampleAlphas, leavesRecv := samplePunctured }
    let prepared := sender.pprfCheckSendPrepare blockXor Value32.ofList
    let verified :=
      receiver.pprfCheckRecvVerify blockXor Value32.ofList prepared.1.1 prepared.1.2.bytes.toList
    verified.1 = .ok () ∧ AgreeOff sampleAlphas verified.2.leavesRecv prepared.2.leavesSend := by
  intro sender receiver
  have hsender : sender.leavesSend.length = softspokenN * softspokenQ := by
    simp only [sender, sampleLeaves, List.length_map, List.length_range]
  have hreceiver : receiver.leavesRecv.length = softspokenN * softspokenQ := by
    simp only [receiver, samplePunctured, List.length_map, List.length_range]
  have halphas : ∀ i < softspokenN, receiver.alphas.getD i 0 < softspokenQ := by decide +kernel
  have hagree : AgreeOff receiver.alphas receiver.leavesRecv sender.leavesSend := by
    simp only [receiver, sender]
    exact samplePunctured_agreeOff
  exact (@pprfCheck_correct blockXor Value32.ofList receiver hreceiver halphas).1 sender
    hsender hagree

end SoftSpoken4State

end Shachain2pc
