import Shachain2pc.Compat.CotCheck

/-!
# Setting up correlated OTs

The receiver grows one tree for each four bits of Delta and offers, for each level of a tree,
the sum of its left children and that sum with the tree's own offset. The sender chooses by
the bits of Delta, and so obtains every leaf of a tree but the one whose position those bits
give.
-/

namespace Shachain2pc

open PuncturedTree

/-- The messages of choices. -/
def chosen (choices : List Bool) (data0 data1 : List Block) : List Block :=
  List.zipWith (fun choice data => if choice then data.2 else data.1) choices (data0.zip data1)

/-! ## Consecutive parts -/

/-- A part of consecutive lists of one length. -/
theorem take_drop_flatMap_range {A : Type} {f : ℕ → List A} {n m i : ℕ}
    (hlength : ∀ i < n, (f i).length = m) (hi : i < n) :
    (((List.range n).flatMap f).drop (i * m)).take m = f i := by
  induction n with
  | zero => exact absurd hi (Nat.not_lt_zero i)
  | succ n ih =>
    have hbefore := length_flatMap_range fun i hi => hlength i (Nat.lt_succ_of_lt hi)
    rw [List.range_succ, List.flatMap_append, List.flatMap_singleton]
    rcases Nat.lt_succ_iff_lt_or_eq.mp hi with hlt | rfl
    · have hin : i * m + m ≤ n * m := by
        rw [← Nat.succ_mul]
        exact Nat.mul_le_mul_right _ hlt
      rw [List.drop_append_of_le_length (by omega), List.take_append_of_le_length (by
        rw [List.length_drop, hbefore]
        omega), ih (fun i hi => hlength i (by omega)) hlt]
    · rw [List.drop_left' hbefore]
      exact List.take_of_length_le (hlength i (Nat.lt_succ_self i)).le

/-- The messages of consecutive choices. -/
theorem chosen_flatMap {f : ℕ → List Bool} {g h : ℕ → List Block} {n m : ℕ}
    (hf : ∀ i < n, (f i).length = m) (hg : ∀ i < n, (g i).length = m)
    (hh : ∀ i < n, (h i).length = m) :
    chosen ((List.range n).flatMap f) ((List.range n).flatMap g) ((List.range n).flatMap h) =
      (List.range n).flatMap fun i => chosen (f i) (g i) (h i) := by
  induction n with
  | zero => rfl
  | succ n ih =>
    have hlt {i : ℕ} (hi : i < n) : i < n + 1 := Nat.lt_succ_of_lt hi
    have hzip : (((List.range n).flatMap g).zip ((List.range n).flatMap h)).length = n * m := by
      rw [List.length_zip, length_flatMap_range fun i hi => hg i (hlt hi),
        length_flatMap_range fun i hi => hh i (hlt hi), Nat.min_self]
    have hpairs : ((List.range n).flatMap g).length = ((List.range n).flatMap h).length := by
      rw [length_flatMap_range fun i hi => hg i (hlt hi), length_flatMap_range fun i hi =>
        hh i (hlt hi)]
    rw [List.range_succ]
    simp only [List.flatMap_append, List.flatMap_singleton]
    rw [← ih (fun i hi => hf i (hlt hi)) (fun i hi => hg i (hlt hi))
      (fun i hi => hh i (hlt hi)), chosen,
      List.zip_append hpairs,
      List.zipWith_append (by rw [hzip, length_flatMap_range fun i hi => hf i (hlt hi)])]
    rfl

/-! ## The positions -/

/-- A number made of bits. -/
theorem foldl_setBit (d : ℕ → Bool) (n : ℕ) :
    let result :=
      (List.range n).foldl (fun alpha bit => if d bit then alpha ||| (1 <<< bit) else alpha) 0
    result < 2 ^ n ∧ ∀ b < n, result.testBit b = d b := by
  induction n with
  | zero => exact ⟨Nat.one_pos, fun b hb => absurd hb (Nat.not_lt_zero b)⟩
  | succ n ih =>
    obtain ⟨hlt, hbits⟩ := ih
    have hgrow : 2 ^ n < 2 ^ (n + 1) := Nat.pow_lt_pow_right (by decide) (Nat.lt_succ_self n)
    rw [List.range_succ, List.foldl_append, List.foldl_cons, List.foldl_nil]
    generalize (List.range n).foldl _ 0 = before at *
    have hfresh : before.testBit n = false := Nat.testBit_lt_two_pow hlt
    by_cases hset : d n
    · rw [if_pos hset, Nat.one_shiftLeft]
      refine ⟨Nat.or_lt_two_pow (hlt.trans hgrow) hgrow, fun b hb => ?_⟩
      rw [Nat.testBit_or, Nat.testBit_two_pow]
      by_cases hlast : n = b
      · rw [decide_eq_true hlast, Bool.or_true, ← hlast, hset]
      · rw [decide_eq_false hlast, Bool.or_false, hbits b (by omega)]
    · rw [if_neg hset]
      refine ⟨hlt.trans hgrow, fun b hb => ?_⟩
      by_cases hlast : n = b
      · rw [← hlast, hfresh, Bool.eq_false_of_not_eq_true hset]
      · exact hbits b (by omega)

namespace SoftSpoken4State

variable {permute : Block → Block → Block} {s r : SoftSpoken4State}

/-- The position which four bits of Delta give. -/
def bootstrapAlpha (s : SoftSpoken4State) (i : ℕ) : ℕ :=
  (List.range softspokenK).foldl
    (fun alpha bit => if s.deltaBool.getD (i * softspokenK + bit) false then
      alpha ||| (1 <<< bit) else alpha) 0

/-- A position has four bits, those of Delta. -/
theorem bootstrapAlpha_spec (s : SoftSpoken4State) (i : ℕ) :
    s.bootstrapAlpha i < softspokenQ ∧
      ∀ b < softspokenK, (s.bootstrapAlpha i).testBit b = s.deltaBool.getD
        (i * softspokenK + b) false :=
  foldl_setBit (fun bit => s.deltaBool.getD (i * softspokenK + bit) false) softspokenK

/-- The choices of the base OTs. -/
def bootstrapChoices (s : SoftSpoken4State) : List Bool :=
  (List.range softspokenN).flatMap fun i =>
    (List.range softspokenK).map fun bit => !(s.bootstrapAlpha i).testBit bit

/-- The sender's choices and positions. -/
theorem bootstrapSendChoices_eq (s : SoftSpoken4State) :
    bootstrapSendChoices s =
      (s.bootstrapChoices, { s with alphas := (List.range softspokenN).map s.bootstrapAlpha }) := by
  rw [bootstrapChoices, bootstrapSendChoices, List.flatMap_map]
  rfl

/-! ## The trees -/

/-- The trees which are grown from a generator. -/
theorem bootstrapRecvTrees_spec (permute : Block → Block → Block) (n : ℕ) (prg : Prg) :
    (bootstrapRecvTrees permute n prg).1.length = n ∧
      ∀ tree ∈ (bootstrapRecvTrees permute n prg).1, ∃ root,
        cggmBuildSender permute softspokenK tree.2.2 root false = (tree.1, tree.2.1) := by
  induction n generalizing prg with
  | zero => exact ⟨rfl, fun tree htree => absurd htree List.not_mem_nil⟩
  | succ n ih =>
    obtain ⟨hlength, htrees⟩ := ih (prg.randomBlock permute 2).2
    simp only [bootstrapRecvTrees, List.length_cons, hlength, List.mem_cons, true_and]
    rintro tree (hfirst | hrest)
    · refine ⟨(prg.randomBlock permute 2).1.getD 1 Block.zero, ?_⟩
      rw [hfirst]
    · exact htrees tree hrest

/-- The trees of a receiver, as a function. -/
def bootstrapTree (permute : Block → Block → Block) (s : SoftSpoken4State) (i : ℕ) :
    List Block × List Block × Block :=
  (bootstrapRecvTrees permute softspokenN s.choicePrg).1.getD i ([], [], Block.zero)

/-- A list is the values of its positions. -/
theorem eq_map_getD {A : Type} {xs : List A} {n : ℕ} (hlength : xs.length = n) (d : A) :
    xs = (List.range n).map fun i => xs.getD i d := by
  refine List.ext_getElem (by simp [hlength]) fun i hi _ => ?_
  rw [List.getElem_map, List.getElem_range, List.getD_eq_getElem _ _ hi]

/-- A tree is built from a root. -/
theorem bootstrapTree_spec (permute : Block → Block → Block) (s : SoftSpoken4State) {i : ℕ}
    (hi : i < softspokenN) :
    ∃ root, cggmBuildSender permute softspokenK (bootstrapTree permute s i).2.2 root false =
      ((bootstrapTree permute s i).1, (bootstrapTree permute s i).2.1) := by
  obtain ⟨hlength, htrees⟩ := bootstrapRecvTrees_spec permute softspokenN s.choicePrg
  refine htrees _ ?_
  rw [bootstrapTree, List.getD_eq_getElem _ _ (by omega)]
  exact List.getElem_mem _

/-- A tree has sixteen leaves and four sums. -/
theorem bootstrapTree_length (permute : Block → Block → Block) (s : SoftSpoken4State) {i : ℕ}
    (hi : i < softspokenN) :
    (bootstrapTree permute s i).1.length = softspokenQ ∧ (bootstrapTree permute s i).2.1.length =
      softspokenK := by
  obtain ⟨root, htree⟩ := bootstrapTree_spec permute s hi
  have hlevel :=
    @cggm_puncturedLevel permute softspokenK 0 (by decide)
      (bootstrapTree permute s i).2.2 root false
    (softspokenK - 1) (by decide)
  obtain ⟨hsums, -, -⟩ :=
    @cggmSenderAt_sums permute softspokenK (bootstrapTree permute s i).2.2 root false
    (softspokenK - 1)
  have hleaves :
      (cggmBuildSender permute softspokenK (bootstrapTree permute s i).2.2 root false).1.length =
      softspokenQ := hlevel.length
  have hkeys :
      (cggmBuildSender permute softspokenK (bootstrapTree permute s i).2.2 root false).2.length =
      softspokenK := hsums
  rw [htree] at hleaves hkeys
  exact ⟨hleaves, hkeys⟩

/-- The sums which the receiver offers. -/
def bootstrapKeys (permute : Block → Block → Block) (s : SoftSpoken4State) :
    List Block × List Block :=
  ((List.range softspokenN).flatMap fun i => (bootstrapTree permute s i).2.1,
    (List.range softspokenN).flatMap fun i =>
      (bootstrapTree permute s i).2.1.map fun key => blockXor key (bootstrapTree permute s i).2.2)

/-- The receiver's sums and leaves. -/
theorem bootstrapRecvKeys_eq (permute : Block → Block → Block) (s : SoftSpoken4State) :
    ∃ prg, bootstrapRecvKeys permute s = (bootstrapKeys permute s, { s with
      choicePrg := prg
      leavesSend := (List.range softspokenN).flatMap fun i => (bootstrapTree permute s i).1 }) := by
  have htrees :=
    eq_map_getD (bootstrapRecvTrees_spec permute softspokenN s.choicePrg).1 ([], [], Block.zero)
  refine ⟨(bootstrapRecvTrees permute softspokenN s.choicePrg).2, ?_⟩
  rw [bootstrapRecvKeys, bootstrapKeys]
  simp only
  rw [htrees]
  simp only [List.flatMap_map]
  rfl

/-! ## What the sender obtains -/

/-- There are 128 base OTs. -/
theorem bootstrap_lengths (permute : Block → Block → Block) (s r : SoftSpoken4State) :
    s.bootstrapChoices.length = 128 ∧ (bootstrapKeys permute r).1.length = 128 ∧
      (bootstrapKeys permute r).2.length = 128 := by
  have hchoices (i : ℕ) : ((List.range softspokenK).map fun bit =>
      !(s.bootstrapAlpha i).testBit bit).length = softspokenK := by
    rw [List.length_map, List.length_range]
  have hkeys {i : ℕ} (hi : i < softspokenN) := (bootstrapTree_length permute r hi).2
  refine ⟨?_, ?_, ?_⟩
  · rw [bootstrapChoices, length_flatMap_range fun i _ => hchoices i]
    rfl
  · rw [bootstrapKeys, length_flatMap_range fun i hi => hkeys hi]
    rfl
  · rw [bootstrapKeys, length_flatMap_range fun i hi => (List.length_map _).trans (hkeys hi)]
    rfl

/-- The messages which a sender chooses from one tree are the keys of the punctured tree. -/
theorem chosen_tree (s r : SoftSpoken4State) {i : ℕ} (hi : i < softspokenN) :
    chosen ((List.range softspokenK).map fun bit => !(s.bootstrapAlpha i).testBit bit)
        (bootstrapTree permute r i).2.1
        ((bootstrapTree permute r i).2.1.map fun key =>
          blockXor key (bootstrapTree permute r i).2.2) =
      cggmReceiverKeys softspokenK (bitReverse softspokenK (s.bootstrapAlpha i))
        (bootstrapTree permute r i).2.2
        (bootstrapTree permute r i).2.1 := by
  have hkeys := (bootstrapTree_length permute r hi).2
  generalize (bootstrapTree permute r i).2.1 = keys at *
  refine List.ext_getElem (by simp [chosen, cggmReceiverKeys, hkeys]) fun b hb hb' => ?_
  have hlt : b < softspokenK := by simpa [cggmReceiverKeys] using hb'
  have hback : softspokenK - 1 - (softspokenK - 1 - b) = b := by omega
  simp only [chosen, cggmReceiverKeys, List.getElem_zipWith, List.getElem_zip, List.getElem_map,
    List.getElem_range]
  rw [testBit_bitReverse (by omega), hback, List.getD_eq_getElem _ _ (by omega)]
  cases (s.bootstrapAlpha i).testBit b <;> rfl

/-- The position of a tree as the code reverses it. -/
theorem cggmBitReverse_alpha (s : SoftSpoken4State) (i : ℕ) :
    (cggmBitReverse (UInt32.ofNat (s.bootstrapAlpha i)) softspokenK).toNat =
      bitReverse softspokenK (s.bootstrapAlpha i) := by
  have hlt : s.bootstrapAlpha i < 2 ^ 32 := (s.bootstrapAlpha_spec i).1.trans (by decide)
  rw [cggmBitReverse_toNat _ (by decide), UInt32.toNat_ofNat_of_lt' hlt]

/-- Reversing twice gives the position back. -/
theorem bitReverse_alpha (s : SoftSpoken4State) (i : ℕ) :
    bitReverse softspokenK (bitReverse softspokenK (s.bootstrapAlpha i)) = s.bootstrapAlpha i := by
  refine (eq_bitReverse (s.bootstrapAlpha_spec i).1 fun b hb => ?_).symm
  rw [testBit_bitReverse (by omega)]
  congr 1
  omega

/-- With the messages of its choices a sender knows every leaf of each tree but one. -/
theorem bootstrap_known (permute : Block → Block → Block) (s r : SoftSpoken4State) :
    let s' := { s with alphas := (List.range softspokenN).map s.bootstrapAlpha }
    s'.bootstrapSendApplyReceived permute (chosen s.bootstrapChoices (bootstrapKeys permute r).1
        (bootstrapKeys permute r).2) = .ok { s' with
      leavesRecv := (List.range softspokenN).flatMap fun i =>
        (bootstrapTree permute r i).1.set (s.bootstrapAlpha i) Block.zero } := by
  intro s'
  have hreceived :
      chosen s.bootstrapChoices (bootstrapKeys permute r).1 (bootstrapKeys permute r).2 =
      (List.range softspokenN).flatMap fun i => chosen
        ((List.range softspokenK).map fun bit => !(s.bootstrapAlpha i).testBit bit)
        (bootstrapTree permute r i).2.1
        ((bootstrapTree permute r i).2.1.map fun key =>
          blockXor key (bootstrapTree permute r i).2.2) := by
    have hkeys {i : ℕ} (hi : i < softspokenN) := (bootstrapTree_length permute r hi).2
    rw [bootstrapChoices, bootstrapKeys]
    dsimp only
    refine chosen_flatMap (m := softspokenK) (fun i _ => ?_) (fun i hi => hkeys hi) fun i hi => ?_
    · rw [List.length_map, List.length_range]
    · rw [List.length_map, hkeys hi]
  have hpart {i : ℕ} (hi : i < softspokenN) : (chosen ((List.range softspokenK).map fun bit =>
      !(s.bootstrapAlpha i).testBit bit) (bootstrapTree permute r i).2.1
      ((bootstrapTree permute r i).2.1.map fun key =>
        blockXor key (bootstrapTree permute r i).2.2)).length =
        softspokenK := by
    rw [chosen_tree s r hi]
    simp [cggmReceiverKeys]
  have htotal :
      (chosen s.bootstrapChoices (bootstrapKeys permute r).1 (bootstrapKeys permute r).2).length =
      softspokenN * softspokenK := by
    rw [hreceived]
    exact length_flatMap_range fun i hi => hpart hi
  rw [bootstrapSendApplyReceived, if_neg (not_not.mpr htotal)]
  refine congrArg Except.ok (congrArg (fun leaves => { s' with leavesRecv := leaves }) ?_)
  refine List.flatMap_congr fun i hmem => ?_
  have hi := List.mem_range.mp hmem
  have halpha : s'.alphas.getD i 0 = s.bootstrapAlpha i := by
    rw [List.getD_eq_getElem _ _ (by simpa [s'] using hi)]
    simp [s']
  obtain ⟨root, htree⟩ := bootstrapTree_spec permute r hi
  have heval :=
    @cggmEvalReceiver_eq permute softspokenK
      (bitReverse softspokenK (s.bootstrapAlpha i)) (by decide)
    (bootstrapTree permute r i).2.2 root false
  rw [htree, bitReverse_alpha] at heval
  simp only
  rw [halpha, cggmBitReverse_alpha, hreceived, take_drop_flatMap_range (fun i hi => hpart hi) hi,
    chosen_tree s r hi]
  exact heval

/-- The bits of Delta. -/
theorem blockToBools_getD (delta : Block) {k : ℕ} (hk : k < 128) :
    (blockToBools delta).getD k false = blockBit delta k := by
  rw [blockToBools, List.getD_eq_getElem _ _ (by simpa using hk), List.getElem_map,
    List.getElem_range]
  rfl

/-- The trees agree off the positions which the bits of Delta give. -/
theorem bootstrap_treesAgree (permute : Block → Block → Block) {s r : SoftSpoken4State}
    (hlsb : lsb (blockVec s.delta) = 1) (hbools : s.deltaBool = blockToBools s.delta) (prg : Prg) :
    TreesAgree
      { s with
        alphas := (List.range softspokenN).map s.bootstrapAlpha
        leavesRecv := (List.range softspokenN).flatMap fun i =>
          (bootstrapTree permute r i).1.set (s.bootstrapAlpha i) Block.zero }
      { r with
        choicePrg := prg
        leavesSend :=
            (List.range softspokenN).flatMap fun i => (bootstrapTree permute r i).1 } := by
  have halpha {i : ℕ} (hi : i < softspokenN) :
      ((List.range softspokenN).map s.bootstrapAlpha).getD i 0 = s.bootstrapAlpha i := by
    rw [List.getD_eq_getElem _ _ (by simpa using hi), List.getElem_map, List.getElem_range]
  have hknown {i : ℕ} (hi : i < softspokenN) :
      ((bootstrapTree permute r i).1.set (s.bootstrapAlpha i) Block.zero).length = softspokenQ := by
    rw [List.length_set, (bootstrapTree_length permute r hi).1]
  have hleaves {i : ℕ} (hi : i < softspokenN) := (bootstrapTree_length permute r hi).1
  refine ⟨hlsb, fun i hi => ?_, fun i hi b hb => ?_, ?_, ?_, fun i hi y hy hne => ?_⟩
  · rw [halpha hi]
    exact (s.bootstrapAlpha_spec i).1
  · have hindex : i * softspokenK + b < 128 := by
      change i < 32 at hi
      change b < 4 at hb
      change i * 4 + b < 128
      omega
    have hfin : (Fin.ofNat 128 (i * softspokenK + b)).val = i * softspokenK + b :=
      Nat.mod_eq_of_lt hindex
    rw [halpha hi, (s.bootstrapAlpha_spec i).2 b hb, hbools, blockToBools_getD _ hindex,
      blockVec_eq_blockBit, hfin]
  · dsimp only
    exact length_flatMap_range fun i hi => hknown hi
  · dsimp only
    exact length_flatMap_range fun i hi => hleaves hi
  · have hpos := (s.bootstrapAlpha_spec i).1
    rw [halpha hi] at hne
    rw [treeLeaf, treeLeaf, getD_flatMap_range (fun i hi => hknown hi) hi hy,
      getD_flatMap_range (fun i hi => hleaves hi) hi hy, getD_set (by rwa [hleaves hi]), if_neg hne]

/-! ## The check of the trees -/

variable (permute) (sha256 : List UInt8 → Value32)

/-- The check of the trees changes the leaves of the sender only. -/
theorem pprfCheckRecvVerify_state (h : TreesAgree s r) {tBuf : List Block}
    (htBuf : tBuf.length = softspokenN * 2) (digest : Value32) :
    ∃ leavesRecv, leavesRecv.length = softspokenN * softspokenQ ∧
      (s.pprfCheckRecvVerify permute sha256 tBuf digest.bytes.toList).2 =
      { s with leavesRecv := leavesRecv } := by
  have hreceived := recvChecked permute tBuf h.known h.alphas le_rfl
  have hdigest : digest.bytes.toList.length = 32 := Vector.length_toList
  refine ⟨_, hreceived.length.trans h.known, ?_⟩
  rw [pprfCheckRecvVerify, if_neg (not_not.mpr htBuf), if_neg (not_not.mpr hdigest)]

/-- The check of trees which agree is accepted, and the trees which it leaves agree. -/
theorem pprfCheck_treesAgree (h : TreesAgree s r) :
    ∃ tBuf digest leavesRecv leavesSend, tBuf.length = softspokenN * 2 ∧
      pprfCheckSendPrepare permute sha256 r =
        ((tBuf, digest), { r with leavesSend := leavesSend }) ∧
      s.pprfCheckRecvVerify permute sha256 tBuf digest.bytes.toList =
        (.ok (), { s with leavesRecv := leavesRecv }) ∧
      TreesAgree { s with leavesRecv := leavesRecv } { r with leavesSend := leavesSend } := by
  obtain ⟨loop, hsent, hprepare⟩ := pprfCheckSendPrepare_eq permute sha256 h.leaves
  obtain ⟨haccept, hagree⟩ := pprfCheck_honest permute sha256 h.leaves h.known h.alphas h.agree
  rw [hprepare] at haccept hagree
  dsimp only at haccept hagree
  obtain ⟨leavesRecv, hlength, hstate⟩ :=
    pprfCheckRecvVerify_state permute sha256 h hsent.tBuf_length
    (sha256 (macBytes loop.hashed))
  rw [hstate] at hagree
  refine ⟨loop.tBuf, sha256 (macBytes loop.hashed), leavesRecv, loop.leaves,
    hsent.tBuf_length, hprepare,
    Prod.ext haccept hstate, ?_⟩
  exact ⟨h.delta, h.alphas, h.choices, hlength, hsent.length.trans h.leaves, hagree⟩

end SoftSpoken4State

end Shachain2pc
