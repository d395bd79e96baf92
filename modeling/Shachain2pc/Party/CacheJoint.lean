import Shachain2pc.Party.CacheModes
import Shachain2pc.Party.StandaloneJoint

/-!
# Two parties with their caches

A node is the value of the trunk hashed along the bits of its position. Tiles take the nodes of
one level to those of the next, and the stack holds the nodes on one path. So whichever way a
range is derived, the leaf of an index carries the value along its low bits.
-/

namespace Shachain2pc

open JointRuns AuthenticatedBits
open Ag2pcSession (WiresPaired)
open Ag2pcTriplePool

/-! ## Positions -/

section Positions

variable {sha256 : Value32 → Value32} {trunk : Value32}

/-- The bits of a position below those of a shifted one. -/
theorem setBitsDesc_below {high low offset height : ℕ} (hlow : low < 2 ^ height) :
    setBitsDesc ((high * 2 ^ height + low) <<< offset) =
      setBitsDesc (high <<< (offset + height)) ++ setBitsDesc (low <<< offset) := by
  have hdesc : bitsDesc.Pairwise (· > ·) := by decide
  have hbit (bit : ℕ) : ((high * 2 ^ height + low) <<< offset).testBit bit =
      ((high <<< (offset + height)).testBit bit || (low <<< offset).testBit bit) := by
    simp only [Nat.testBit_shiftLeft, Nat.mul_comm high, Nat.testBit_two_pow_mul_add _ hlow]
    by_cases hoffset : offset ≤ bit
    · by_cases hheight : bit - offset < height
      · have hbelow : ¬offset + height ≤ bit := by omega
        simp [hoffset, hheight, hbelow]
      · have habove : offset + height ≤ bit := by omega
        have hclear : low.testBit (bit - offset) = false :=
          Nat.testBit_lt_two_pow
            (hlow.trans_le (Nat.pow_le_pow_right (by decide) (not_lt.mp hheight)))
        simp [hoffset, hheight, habove, hclear, Nat.sub_sub]
    · have hbelow : ¬offset + height ≤ bit := by omega
      simp [hoffset, hbelow]
  rw [setBitsDesc, setBitsDesc, setBitsDesc, ← filter_append_of_above hdesc]
  · exact List.filter_congr fun bit _ => hbit bit
  · intro above _ below _ hset hset'
    rw [Nat.testBit_shiftLeft, Bool.and_eq_true, decide_eq_true_eq] at hset hset'
    have hbelow : below - offset < height := by
      by_contra hge
      rw [Nat.testBit_lt_two_pow
        (hlow.trans_le (Nat.pow_le_pow_right (by decide) (not_lt.mp hge)))] at hset'
      exact Bool.false_ne_true hset'.2
    omega

/-- The node of a position, in a window of bits. -/
def nodeAt (sha256 : Value32 → Value32) (trunk : Value32) (offset position : ℕ) : Value32 :=
  hashBits sha256 trunk (setBitsDesc (position <<< offset))

/-- A leaf of a node's tile is a node of the level below. -/
theorem tileValue_nodeAt {position slot offset height : ℕ} (hslot : slot < 2 ^ height) :
    tileValue sha256 (nodeAt sha256 trunk (offset + height) position) offset slot =
      nodeAt sha256 trunk offset (position * 2 ^ height + slot) := by
  rw [tileValue, nodeAt, nodeAt, setBitsDesc_below hslot, hashBits_append]

/-- The nodes of a level. -/
def levelNodes (sha256 : Value32 → Value32) (trunk : Value32) (offset count : ℕ) : List Value32 :=
  (List.range count).map (nodeAt sha256 trunk offset)

/-- A product of numbers is counted by rows. -/
theorem map_range_mul {A : Type} (f : ℕ → A) (rows len : ℕ) :
    (List.range (rows * len)).map f =
      (List.range rows).flatMap fun row => (List.range len).map fun k => f (row * len + k) := by
  induction rows with
  | zero => simp
  | succ rows ih =>
    rw [Nat.succ_mul, List.range_add, List.map_append, ih, List.range_succ,
      List.flatMap_append, List.map_map]
    simp [Function.comp_def]

/-- The leaves of the tiles of a level are the nodes of the next. -/
theorem levelNodes_split (offset height count : ℕ) :
    ((levelNodes sha256 trunk (offset + height) count).flatMap fun root =>
      (List.range (2 ^ height)).map (tileValue sha256 root offset)) =
      levelNodes sha256 trunk offset (count * 2 ^ height) := by
  rw [levelNodes, levelNodes, map_range_mul, List.flatMap_map]
  refine List.flatMap_congr fun position _ => List.map_congr_left fun slot hslot => ?_
  exact tileValue_nodeAt (List.mem_range.mp hslot)

/-- The nodes on a path. -/
def pathNodes (sha256 : Value32 → Value32) (trunk : Value32) : List ℕ → List Value32
  | [] => [trunk]
  | bit :: bits => trunk :: pathNodes sha256 (hashBit sha256 trunk bit) bits

/-- The nodes on a path which is cut. -/
theorem pathNodes_take (bits : List ℕ) (keep : ℕ) :
    (pathNodes sha256 trunk bits).take (keep + 1) = pathNodes sha256 trunk (bits.take keep) := by
  induction bits generalizing trunk keep with
  | nil => simp [pathNodes]
  | cons bit rest ih =>
    cases keep with
    | zero => rfl
    | succ keep => rw [pathNodes, List.take_succ_cons, ih, List.take_succ_cons, pathNodes]

/-- The nodes on a path with a further bit. -/
theorem pathNodes_push (bits : List ℕ) (bit : ℕ) :
    pathNodes sha256 trunk (bits ++ [bit]) =
      pathNodes sha256 trunk bits ++ [hashBits sha256 (hashBits sha256 trunk bits) [bit]] := by
  induction bits generalizing trunk with
  | nil => rfl
  | cons first rest ih => rw [List.cons_append, pathNodes, ih, pathNodes, List.cons_append]; rfl

/-- A path of some bits has one node more. -/
theorem pathNodes_length (bits : List ℕ) :
    (pathNodes sha256 trunk bits).length = bits.length + 1 := by
  induction bits generalizing trunk with
  | nil => rfl
  | cons bit rest ih => rw [pathNodes, List.length_cons, ih, List.length_cons]

/-- The last node on a path. -/
theorem pathNodes_last (bits : List ℕ) :
    (pathNodes sha256 trunk bits)[bits.length]? = some (hashBits sha256 trunk bits) := by
  induction bits generalizing trunk with
  | nil => rfl
  | cons bit rest ih => rw [pathNodes, List.length_cons, List.getElem?_cons_succ, ih]; rfl

/-- Two paths agree up to where they part. -/
theorem commonPrefix_spec (bits target : List ℕ) :
    bits.take (commonPrefix bits target) = target.take (commonPrefix bits target) := by
  induction bits generalizing target with
  | nil => simp [commonPrefix]
  | cons bit rest ih =>
    cases target with
    | nil => simp [commonPrefix]
    | cons next later =>
      rw [commonPrefix]
      split
      · next heq => rw [List.take_succ_cons, List.take_succ_cons, ih, heq]
      · simp

end Positions

namespace PartySession

variable {sha256 : List UInt8 → Value32} {base : PartyBase (StreamEnd sha256)} {nonces : ℕ → Block}
  {deltaA deltaB : Block} {compress : Block64 → Value32} {value : Value32}

/-! ## Programs on a node -/

/-- The program of one bit. -/
theorem nodeProgram_step (h : Chunked compress base deltaA) {bit : ℕ} (hbit : bit < indexBits) :
    ∃ program, chunkFromSha base.sha [bit] false = .ok program ∧
      NodeProgram program fun value =>
        ⟨plainBits (hashBits (sha256Digest compress) value [bit]), true⟩ := by
  have hbits : ∀ b ∈ [bit], b < indexBits := by simpa using hbit
  have hspec (value : Value32) := chunkFromSha_spec h.gadget hbits (show 1 ≤ indexBits by decide)
    (.value value)
  obtain ⟨program, hprogram, hwellFormed, hwidth, -⟩ := hspec (Value32.ofList [])
  refine ⟨program, hprogram, hwellFormed, hwidth.trans (plainBits_length _), fun value => ?_⟩
  obtain ⟨program', hprogram', -, -, heval⟩ := hspec value
  rw [hprogram] at hprogram'
  cases hprogram'
  have hands : 0 < countAnds program.gates := by
    rw [chunkFromSha_ands hprogram]
    exact Nat.mul_pos Nat.one_pos h.ands
  simp only [Ag2pcProgram.plainOutputs, heval, hands, decide_true]

/-! ## Leaves -/

/-- A part of wires without labels. -/
theorem slice_strip {wires part : Ag2pcSecureWires} {start stop : ℕ}
    (h : wires.slice start stop = .ok part) :
    wires.stripLabelsForReveal.slice start stop = .ok part.stripLabelsForReveal := by
  unfold Ag2pcSecureWires.slice at h ⊢
  split at h
  · cases h
  · next hbounds =>
    cases h
    rw [if_neg
      (show ¬(stop < start ∨ wires.stripLabelsForReveal.lambda.length < stop) from hbounds)]
    simp [Ag2pcSecureWires.stripLabelsForReveal]

/-- A row of rows of one length. -/
theorem cut_flatMap {A B : Type} (f : A → List B) {len : ℕ} (hlen : ∀ a, (f a).length = len)
    {rows : List A} {k : ℕ} {a : A} (h : rows[k]? = some a) :
    ((rows.flatMap f).drop (k * len)).take len = f a := by
  induction rows generalizing k with
  | nil => cases h
  | cons first rest ih =>
    rw [List.flatMap_cons]
    cases k with
    | zero =>
      cases h
      rw [Nat.zero_mul, List.drop_zero, List.take_left' (hlen _)]
    | succ k =>
      rw [Nat.succ_mul, Nat.add_comm, ← hlen first, List.drop_append,
        List.drop_eq_nil_of_le (by omega), List.nil_append,
        Nat.add_sub_cancel_left, hlen first]
      exact ih h

/-- A leaf of a tile which both hold. -/
theorem tile_leaf {tile tile' : Ag2pcSecureWires} {bitOffset tileHeight slot : ℕ}
    (htile : WiresPaired deltaA deltaB (tileOutputs compress value bitOffset tileHeight) tile tile')
    (hslot : slot < 2 ^ tileHeight) :
    ∃ x y, tile.slice (slot * valueBits) ((slot + 1) * valueBits) = .ok x ∧
      tile'.slice (slot * valueBits) ((slot + 1) * valueBits) = .ok y ∧
      NodePaired deltaA deltaB (tileValue (sha256Digest compress) value bitOffset slot) x y := by
  have hlen (suffix : ℕ) :
      (plainBits (tileValue (sha256Digest compress) value bitOffset suffix)).length =
    valueBits :=
    plainBits_length _
  have hwidth : (slot + 1) * valueBits - slot * valueBits = valueBits := by
    rw [Nat.succ_mul, Nat.add_sub_cancel_left]
  have hstop :
      (slot + 1) * valueBits ≤ (tileOutputs compress value bitOffset tileHeight).bits.length := by
    rw [tileOutputs, List.length_flatMap]
    simp only [hlen, List.map_const', List.length_range, List.sum_replicate, smul_eq_mul]
    exact Nat.mul_le_mul_right _ hslot
  obtain ⟨hcut, hours, htheirs⟩ := htile.slice (Nat.mul_le_mul_right _ (Nat.le_succ slot)) hstop
  refine ⟨_, _, hours, htheirs, ?_⟩
  rw [hwidth] at hcut ⊢
  have hrow := cut_flatMap _ hlen (List.getElem?_range hslot)
  rw [PlainWires.cut, tileOutputs, hrow] at hcut
  exact hcut

/-- A leaf which can be cut. -/
theorem sliceLeaf_eq {S : Type} {tile part : Ag2pcSecureWires} {slot : ℕ}
    (h : tile.slice (slot * valueBits) ((slot + 1) * valueBits) = .ok part) :
    (sliceLeaf tile slot : PartyM S Ag2pcSecureWires) = pure part := by
  rw [sliceLeaf, h]
  rfl

/-! ## Levels of tiles -/

/-- Nodes which both hold. -/
inductive NodesPaired (deltaA deltaB : Block) :
    List Value32 → List Ag2pcSecureWires → List Ag2pcSecureWires → Prop where
  | nil : NodesPaired deltaA deltaB [] [] []
  | cons {value : Value32} {x y : Ag2pcSecureWires} {values : List Value32}
      {ours theirs : List Ag2pcSecureWires}
      (node : NodePaired deltaA deltaB value x y)
        (later : NodesPaired deltaA deltaB values ours theirs) :
      NodesPaired deltaA deltaB (value :: values) (x :: ours) (y :: theirs)

section Nodes

variable {values values' : List Value32} {ours theirs ours' theirs' : List Ag2pcSecureWires}

/-- Nodes and then others. -/
theorem NodesPaired.append (h : NodesPaired deltaA deltaB values ours theirs)
    (h' : NodesPaired deltaA deltaB values' ours' theirs') :
    NodesPaired deltaA deltaB (values ++ values') (ours ++ ours') (theirs ++ theirs') := by
  induction h with
  | nil => exact h'
  | cons node _ ih => exact .cons node ih

/-- The first of the nodes. -/
theorem NodesPaired.take (h : NodesPaired deltaA deltaB values ours theirs) (keep : ℕ) :
    NodesPaired deltaA deltaB (values.take keep) (ours.take keep) (theirs.take keep) := by
  induction h generalizing keep with
  | nil => simpa using NodesPaired.nil
  | cons node _ ih =>
    cases keep with
    | zero => exact .nil
    | succ keep => exact .cons node (ih keep)

/-- There are as many wires as nodes. -/
theorem NodesPaired.length (h : NodesPaired deltaA deltaB values ours theirs) :
    ours.length = values.length ∧ theirs.length = values.length := by
  induction h with
  | nil => exact ⟨rfl, rfl⟩
  | cons _ _ ih => exact ⟨congrArg (· + 1) ih.1, congrArg (· + 1) ih.2⟩

/-- A node by its position. -/
theorem NodesPaired.get (h : NodesPaired deltaA deltaB values ours theirs) {k : ℕ}
    (hk : values[k]? = some value) :
    ∃ x y, ours[k]? = some x ∧ theirs[k]? = some y ∧ NodePaired deltaA deltaB value x y := by
  induction h generalizing k with
  | nil => cases hk
  | cons node _ ih =>
    cases k with
    | zero =>
      cases hk
      exact ⟨_, _, rfl, rfl, node⟩
    | succ k => exact ih hk

/-- Leaves of a tile which both hold. -/
theorem sliceLeaves_eq {tile tile' : Ag2pcSecureWires} {bitOffset tileHeight : ℕ}
    (htile : WiresPaired deltaA deltaB (tileOutputs compress value bitOffset tileHeight) tile tile')
    {slots : List ℕ}
    (hslots : ∀ slot ∈ slots, slot < 2 ^ tileHeight) :
    ∃ xs ys,
      (sliceLeaves tile slots : PartyM (StreamEnd sha256) (List Ag2pcSecureWires)) = pure xs ∧
      (sliceLeaves tile' slots : PartyM (StreamEnd sha256) (List Ag2pcSecureWires)) = pure ys ∧
      NodesPaired deltaA deltaB
        (slots.map (tileValue (sha256Digest compress) value bitOffset)) xs ys := by
  induction slots with
  | nil => exact ⟨[], [], rfl, rfl, .nil⟩
  | cons slot rest ih =>
    obtain ⟨hslot, hrest⟩ := List.forall_mem_cons.mp hslots
    obtain ⟨x, y, hours, htheirs, hnode⟩ := tile_leaf htile hslot
    obtain ⟨xs, ys, hxs, hys, hnodes⟩ := ih hrest
    refine ⟨x :: xs, y :: ys, ?_, ?_, .cons hnode hnodes⟩
    · rw [sliceLeaves, sliceLeaf_eq hours, pure_bind, hxs, pure_bind]
    · rw [sliceLeaves, sliceLeaf_eq htheirs, pure_bind, hys, pure_bind]

/-- Both parties run the tiles of a level, and cut them into nodes. -/
theorem joint_splitTiles (h : Chunked compress base deltaA) {program : Ag2pcProgram}
    {bitOffset tileHeight : ℕ}
    (hprogram : NodeProgram program fun value => tileOutputs compress value bitOffset tileHeight)
    (hroots : NodesPaired deltaA deltaB values ours theirs) :
    Joint (PartiesPaired deltaA deltaB) (splitTiles base program tileHeight ours)
      (splitTiles (base.peer nonces) program tileHeight theirs)
      fun x alice y bob => NodesPaired deltaA deltaB (values.flatMap fun root =>
          (List.range (2 ^ tileHeight)).map
          (tileValue (sha256Digest compress) root bitOffset)) x y ∧
        PartiesPaired deltaA deltaB alice bob := by
  induction hroots with
  | nil => exact .pure fun _ _ hpaired => ⟨.nil, hpaired⟩
  | cons hroot _ ih =>
    refine (joint_runNode h hprogram hroot).bind fun tile tile' => Joint.assume fun htile => ?_
    obtain ⟨xs, ys, hxs, hys, hnodes⟩ :=
      sliceLeaves_eq htile fun slot hslot => List.mem_range.mp hslot
    rw [hxs, hys, pure_bind, pure_bind]
    refine ih.bind fun later later' => Joint.assume fun hlater => ?_
    exact .pure fun _ _ hpaired => ⟨hnodes.append hlater, hpaired⟩

/-- Tiles which both hold, without labels. -/
inductive TilesPaired (deltaA deltaB : Block) (outputs : Value32 → PlainWires) :
    List Value32 → List Ag2pcSecureWires → List Ag2pcSecureWires → Prop where
  | nil : TilesPaired deltaA deltaB outputs [] [] []
  | cons {value : Value32} {x y : Ag2pcSecureWires} {values : List Value32}
      {ours theirs : List Ag2pcSecureWires}
      (tile : WiresPaired deltaA deltaB (outputs value) x y)
      (later : TilesPaired deltaA deltaB outputs values ours theirs) :
      TilesPaired deltaA deltaB outputs (value :: values) (x.stripLabelsForReveal :: ours)
        (y.stripLabelsForReveal :: theirs)

/-- A tile by its position. -/
theorem TilesPaired.get {outputs : Value32 → PlainWires}
    (h : TilesPaired deltaA deltaB outputs values ours theirs)
    {k : ℕ} (hk : values[k]? = some value) :
    ∃ x y, ours[k]? = some x.stripLabelsForReveal ∧ theirs[k]? = some y.stripLabelsForReveal ∧
      WiresPaired deltaA deltaB (outputs value) x y := by
  induction h generalizing k with
  | nil => cases hk
  | cons tile _ ih =>
    cases k with
    | zero =>
      cases hk
      exact ⟨_, _, rfl, rfl, tile⟩
    | succ k => exact ih hk

/-- Both parties run the tiles of the bottom level. -/
theorem joint_bottomTiles (h : Chunked compress base deltaA) {program : Ag2pcProgram}
    {outputs : Value32 → PlainWires} (hprogram : NodeProgram program outputs)
    (hroots : NodesPaired deltaA deltaB values ours theirs) :
    Joint (PartiesPaired deltaA deltaB) (bottomTiles base program ours)
      (bottomTiles (base.peer nonces) program theirs)
      fun x alice y bob => TilesPaired deltaA deltaB outputs values x y ∧
        PartiesPaired deltaA deltaB alice bob := by
  induction hroots with
  | nil => exact .pure fun _ _ hpaired => ⟨.nil, hpaired⟩
  | cons hroot _ ih =>
    refine (joint_runNode h hprogram hroot).bind fun tile tile' => Joint.assume fun htile => ?_
    refine ih.bind fun later later' => Joint.assume fun hlater => ?_
    exact .pure fun _ _ hpaired => ⟨.cons htile hlater, hpaired⟩

end Nodes

/-- Both parties run all levels. At the bottom there are tiles for all nodes of their level. -/
theorem joint_runLevels (h : Chunked compress base deltaA) {trunk : Value32} {level : TileLevel}
    {rest : List TileLevel} {depth count : ℕ} (hcover : CoverBits 4 depth (level :: rest))
    (hdepth : depth ≤ indexBits) {roots roots' : List Ag2pcSecureWires}
    (hroots : NodesPaired deltaA deltaB (levelNodes (sha256Digest compress) trunk depth count)
      roots roots') :
    Joint (PartiesPaired deltaA deltaB) (runLevels base level rest roots)
      (runLevels (base.peer nonces) level rest roots')
      fun x alice y bob => (∃ tiles, x.1 = y.1 ∧ tiles * 2 ^ x.1 = count * 2 ^ depth ∧
          TilesPaired deltaA deltaB (fun value => tileOutputs compress value 0 x.1)
            (levelNodes (sha256Digest compress) trunk x.1 tiles) x.2 y.2) ∧
        PartiesPaired deltaA deltaB alice bob := by
  induction rest generalizing level depth count roots roots' with
  | nil =>
    obtain ⟨hbits, hpos, hheight, hzero⟩ := hcover
    obtain ⟨program, hprogram, hnode⟩ := nodeProgram_tile h hpos hheight (hbits.trans_le hdepth)
    have hoffset : level.bitOffset = 0 := hzero
    have hlevel : depth = level.height := by omega
    have hsha : (base.peer nonces).sha = base.sha := rfl
    rw [runLevels, runLevels, hsha, buildProgram_ok hprogram, pure_bind, pure_bind]
    refine (joint_bottomTiles h hnode hroots).bind fun tiles tiles' => Joint.assume fun htiles => ?_
    rw [hoffset, hlevel] at htiles
    exact .pure fun _ _ hpaired => ⟨⟨count, rfl, by rw [hlevel], htiles⟩, hpaired⟩
  | cons next rest ih =>
    obtain ⟨hbits, hpos, hheight, hrest⟩ := hcover
    obtain ⟨program, hprogram, hnode⟩ := nodeProgram_tile h hpos hheight (hbits.trans_le hdepth)
    have hsha : (base.peer nonces).sha = base.sha := rfl
    rw [runLevels, runLevels, hsha, buildProgram_ok hprogram, pure_bind, pure_bind]
    refine (joint_splitTiles h hnode hroots).bind fun nodes nodes' => Joint.assume fun hnodes => ?_
    rw [← hbits, levelNodes_split] at hnodes
    refine (ih hrest (by omega) hnodes).mono (fun _ _ hpaired => hpaired) fun x _ y _ hpost => ?_
    obtain ⟨⟨tiles, heights, hcount, htiles⟩, hpaired⟩ := hpost
    refine ⟨⟨tiles, heights, ?_, htiles⟩, hpaired⟩
    rw [hcount, ← hbits, Nat.mul_assoc, ← Nat.pow_add, Nat.add_comm]

/-! ## The stack -/

/-- Two stacks with the nodes on one path. -/
structure StackPaired (deltaA deltaB : Block) (compress : Block64 → Value32) (trunk : Value32)
    (path : List ℕ) (ours theirs : CacheStack) : Prop where
  bitsA : ours.bits = path
  bitsB : theirs.bits = path
  nodes : NodesPaired deltaA deltaB (pathNodes (sha256Digest compress) trunk path)
    ours.vals theirs.vals

section Stack

variable {trunk : Value32} {path : List ℕ} {stack stack' : CacheStack}

/-- The last nodes of two stacks. -/
theorem StackPaired.last (sha256 : List UInt8 → Value32)
    (h : StackPaired deltaA deltaB compress trunk path stack stack') :
    ∃ x y, (lastVal stack : PartyM (StreamEnd sha256) Ag2pcSecureWires) = pure x ∧
      (lastVal stack' : PartyM (StreamEnd sha256) Ag2pcSecureWires) = pure y ∧
      NodePaired deltaA deltaB (hashBits (sha256Digest compress) trunk path) x y := by
  obtain ⟨hcount, hcount'⟩ := h.nodes.length
  rw [pathNodes_length] at hcount hcount'
  obtain ⟨x, y, hx, hy, hnode⟩ := h.nodes.get (pathNodes_last path)
  refine ⟨x, y, ?_, ?_, hnode⟩
  · rw [lastVal, hcount]
    exact element_eq hx
  · rw [lastVal, hcount']
    exact element_eq hy

/-- Both parties add bits to their stacks. -/
theorem joint_pushBits (h : Chunked compress base deltaA) {oneStep : Ag2pcProgram}
    (hstep : NodeProgram oneStep fun value =>
      ⟨plainBits (hashBits (sha256Digest compress) value [0]), true⟩)
    {bits : List ℕ} (hbits : ∀ bit ∈ bits, bit < indexBits)
    (hstack : StackPaired deltaA deltaB compress trunk path stack stack') :
    Joint (PartiesPaired deltaA deltaB) (pushBits base oneStep bits stack)
      (pushBits (base.peer nonces) oneStep bits stack')
      fun x alice y bob => StackPaired deltaA deltaB compress trunk (path ++ bits) x y ∧
        PartiesPaired deltaA deltaB alice bob := by
  induction bits generalizing path stack stack' with
  | nil =>
    rw [List.append_nil]
    exact .pure fun _ _ hpaired => ⟨hstack, hpaired⟩
  | cons bit rest ih =>
    obtain ⟨hbit, hrest⟩ := List.forall_mem_cons.mp hbits
    obtain ⟨x, y, hx, hy, hlast⟩ := hstack.last sha256
    obtain ⟨program, hprogram, hnode⟩ : ∃ program, bitProgram base oneStep bit = pure program ∧
        NodeProgram program fun value =>
          ⟨plainBits (hashBits (sha256Digest compress) value [bit]), true⟩ := by
      by_cases hzero : bit = 0
      · subst hzero
        exact ⟨oneStep, if_pos rfl, hstep⟩
      · obtain ⟨program, hprogram, hnode⟩ := nodeProgram_step h hbit
        exact ⟨program, (if_neg hzero).trans (buildProgram_ok hprogram), hnode⟩
    have hprogram' : bitProgram (base.peer nonces) oneStep bit = pure program := hprogram
    rw [pushBits, pushBits, hprogram, hprogram', pure_bind, pure_bind, hx, hy, pure_bind, pure_bind]
    refine (joint_runNode h hnode hlast).bind fun next next' => Joint.assume fun hnext => ?_
    have hpushed : StackPaired deltaA deltaB compress trunk (path ++ [bit])
        ⟨stack.bits ++ [bit], stack.vals ++ [next]⟩
          ⟨stack'.bits ++ [bit], stack'.vals ++ [next']⟩ := by
      refine ⟨congrArg (· ++ [bit]) hstack.bitsA, congrArg (· ++ [bit]) hstack.bitsB, ?_⟩
      rw [pathNodes_push]
      exact hstack.nodes.append (.cons hnext .nil)
    rw [List.append_cons path bit rest]
    exact ih hrest hpushed

/-- Both parties move their stacks to a path. -/
theorem joint_alignCacheStack (h : Chunked compress base deltaA) {oneStep : Ag2pcProgram}
    (hstep : NodeProgram oneStep fun value =>
      ⟨plainBits (hashBits (sha256Digest compress) value [0]), true⟩)
    {target : List ℕ} (htarget : ∀ bit ∈ target, bit < indexBits)
    (hstack : StackPaired deltaA deltaB compress trunk path stack stack') :
    Joint (PartiesPaired deltaA deltaB) (alignCacheStack base oneStep stack target)
      (alignCacheStack (base.peer nonces) oneStep stack' target)
      fun x alice y bob => StackPaired deltaA deltaB compress trunk target x y ∧
        PartiesPaired deltaA deltaB alice bob := by
  unfold alignCacheStack
  rw [hstack.bitsA, hstack.bitsB]
  have hkept : StackPaired deltaA deltaB compress trunk (target.take (commonPrefix path target))
      ⟨path.take (commonPrefix path target), stack.vals.take (commonPrefix path target + 1)⟩
      ⟨path.take (commonPrefix path target), stack'.vals.take (commonPrefix path target + 1)⟩ := by
    refine ⟨commonPrefix_spec path target, commonPrefix_spec path target, ?_⟩
    rw [← commonPrefix_spec, ← pathNodes_take]
    exact hstack.nodes.take _
  refine (joint_pushBits h hstep
    (fun bit hbit => htarget bit (List.mem_of_mem_drop hbit)) hkept).mono
    (fun _ _ hpaired => hpaired) fun x _ y _ hpost => ?_
  rwa [List.take_append_drop] at hpost

/-- What two parties derived in the rounds which are done. -/
structure OutsPaired (deltaA deltaB : Block) (compress : Block64 → Value32) (trunk : Value32)
    (lowMask : ℕ) (done : CacheStep → Prop) (ours theirs : CacheOuts) : Prop where
  tiles : ∀ first, done (.tile first) → ∃ x y, ours.tiles.lookup first =
    some x.stripLabelsForReveal ∧
    theirs.tiles.lookup first = some y.stripLabelsForReveal ∧
    WiresPaired deltaA deltaB (tileOutputs compress (hashBits (sha256Digest compress) trunk
      (setBitsDesc ((first &&& lowMask) &&& notU64 tileMask))) 0 cacheTileHeight) x y
  others :
      ∀ first, ¬done (.tile first) → ours.tiles.lookup first = none ∧
      theirs.tiles.lookup first = none
  singles :
      ∀ index, done (.single index) → ∃ x y, ours.singles.lookup index =
        some x.stripLabelsForReveal ∧
    theirs.singles.lookup index = some y.stripLabelsForReveal ∧
    NodePaired deltaA deltaB
      (hashBits (sha256Digest compress) trunk (setBitsDesc (index &&& lowMask))) x y

variable {lowMask : ℕ} {done done' : CacheStep → Prop} {outs outs' : CacheOuts}

/-- No rounds. -/
theorem outsPaired_empty (deltaA deltaB : Block) (compress : Block64 → Value32) (trunk : Value32)
    (lowMask : ℕ) :
    OutsPaired deltaA deltaB compress trunk lowMask (fun _ => False) ⟨[], []⟩ ⟨[], []⟩ :=
  ⟨fun _ hdone => hdone.elim, fun _ _ => ⟨rfl, rfl⟩, fun _ hdone => hdone.elim⟩

/-- The same rounds, in other words. -/
theorem OutsPaired.congr (h : OutsPaired deltaA deltaB compress trunk lowMask done outs outs')
    (hsame : ∀ step, done step ↔ done' step) :
    OutsPaired deltaA deltaB compress trunk lowMask done' outs outs' :=
  ⟨fun first hdone => h.tiles first ((hsame _).mpr hdone),
    fun first hother => h.others first fun hdone => hother ((hsame _).mp hdone),
    fun index hdone => h.singles index ((hsame _).mpr hdone)⟩

/-- A further tile. -/
theorem OutsPaired.addTile (h : OutsPaired deltaA deltaB compress trunk lowMask done outs outs')
    {first : ℕ} {x y : Ag2pcSecureWires}
    (htile : WiresPaired deltaA deltaB
      (tileOutputs compress (hashBits (sha256Digest compress) trunk
        (setBitsDesc ((first &&& lowMask) &&& notU64 tileMask))) 0 cacheTileHeight) x y) :
    OutsPaired deltaA deltaB compress trunk lowMask (fun step => done step ∨ step = .tile first)
      { outs with tiles := (first, x.stripLabelsForReveal) :: outs.tiles }
      { outs' with tiles := (first, y.stripLabelsForReveal) :: outs'.tiles } where
  tiles other hdone := by
    by_cases hsame : other = first
    · subst hsame
      exact ⟨x, y, List.lookup_cons_self, List.lookup_cons_self, htile⟩
    · have hold := hdone.resolve_right fun heq => hsame (CacheStep.tile.inj heq)
      obtain ⟨x', y', hx, hy, hwires⟩ := h.tiles other hold
      refine ⟨x', y', ?_, ?_, hwires⟩
      · rw [List.lookup_cons, beq_eq_false_iff_ne.mpr hsame]
        exact hx
      · rw [List.lookup_cons, beq_eq_false_iff_ne.mpr hsame]
        exact hy
  others other hother := by
    have hne : other ≠ first := fun heq => hother (.inr (congrArg CacheStep.tile heq))
    rw [List.lookup_cons, List.lookup_cons, beq_eq_false_iff_ne.mpr hne]
    exact h.others other fun hdone => hother (.inl hdone)
  singles index hdone := h.singles index (hdone.resolve_right fun heq => by cases heq)

/-- A further node. -/
theorem OutsPaired.addSingle (h : OutsPaired deltaA deltaB compress trunk lowMask done outs outs')
    {index : ℕ} {x y : Ag2pcSecureWires}
    (hnode : NodePaired deltaA deltaB
      (hashBits (sha256Digest compress) trunk (setBitsDesc (index &&& lowMask))) x y) :
    OutsPaired deltaA deltaB compress trunk lowMask (fun step => done step ∨ step = .single index)
      { outs with singles := (index, x.stripLabelsForReveal) :: outs.singles }
      { outs' with singles := (index, y.stripLabelsForReveal) :: outs'.singles } where
  tiles first hdone := h.tiles first (hdone.resolve_right fun heq => by cases heq)
  others first hother := h.others first fun hdone => hother (.inl hdone)
  singles other hdone := by
    by_cases hsame : other = index
    · subst hsame
      exact ⟨x, y, List.lookup_cons_self, List.lookup_cons_self, hnode⟩
    · have hold := hdone.resolve_right fun heq => hsame (CacheStep.single.inj heq)
      obtain ⟨x', y', hx, hy, hwires⟩ := h.singles other hold
      refine ⟨x', y', ?_, ?_, hwires⟩
      · rw [List.lookup_cons, beq_eq_false_iff_ne.mpr hsame]
        exact hx
      · rw [List.lookup_cons, beq_eq_false_iff_ne.mpr hsame]
        exact hy

/-- Both parties go through the rounds. -/
theorem joint_runSteps (h : Chunked compress base deltaA) {oneStep : Ag2pcProgram}
    (hstep : NodeProgram oneStep fun value =>
      ⟨plainBits (hashBits (sha256Digest compress) value [0]), true⟩)
    {tiles : Option Ag2pcProgram} {steps : List CacheStep}
    (htiles : ∀ first, .tile first ∈ steps → ∃ program, tiles = some program ∧
      NodeProgram program fun value => tileOutputs compress value 0 cacheTileHeight)
    (hstack : StackPaired deltaA deltaB compress trunk path stack stack')
    (houts : OutsPaired deltaA deltaB compress trunk lowMask done outs outs') :
    Joint (PartiesPaired deltaA deltaB) (runSteps base lowMask tiles oneStep steps stack outs)
      (runSteps (base.peer nonces) lowMask tiles oneStep steps stack' outs')
      fun x alice y bob => OutsPaired deltaA deltaB compress trunk lowMask
        (fun step => done step ∨ step ∈ steps) x y ∧
        PartiesPaired deltaA deltaB alice bob := by
  induction steps generalizing path stack stack' outs outs' done with
  | nil => exact .pure fun _ _ hpaired => ⟨houts.congr fun step => by simp, hpaired⟩
  | cons step rest ih =>
    have hrest (first : ℕ) (hmem : .tile first ∈ rest) := htiles first (List.mem_cons_of_mem _ hmem)
    cases step with
    | tile first =>
      rw [runSteps, runSteps]
      refine (joint_alignCacheStack h hstep (setBitsDesc_path _).1 hstack).bind fun s s' =>
        Joint.assume fun hs => ?_
      obtain ⟨program, hprogram, hnode⟩ := htiles first List.mem_cons_self
      have hexpect :
          (expectProgram tiles : PartyM (StreamEnd sha256) Ag2pcProgram) = pure program := by
        rw [hprogram]
        rfl
      obtain ⟨x, y, hx, hy, hlast⟩ := hs.last sha256
      rw [hexpect, pure_bind, pure_bind, hx, hy, pure_bind, pure_bind]
      refine (joint_runNode h hnode hlast).bind fun tile tile' => Joint.assume fun htile => ?_
      refine (ih hrest hs (houts.addTile htile)).mono
          (fun _ _ hpaired => hpaired) fun _ _ _ _ hpost =>
        ⟨hpost.1.congr fun step => ?_, hpost.2⟩
      rw [List.mem_cons, or_assoc]
    | single index =>
      rw [runSteps, runSteps]
      refine (joint_alignCacheStack h hstep (setBitsDesc_path _).1 hstack).bind fun s s' =>
        Joint.assume fun hs => ?_
      obtain ⟨x, y, hx, hy, hlast⟩ := hs.last sha256
      rw [hx, hy, pure_bind, pure_bind]
      refine (ih hrest hs (houts.addSingle hlast)).mono
          (fun _ _ hpaired => hpaired) fun _ _ _ _ hpost =>
        ⟨hpost.1.congr fun step => ?_, hpost.2⟩
      rw [List.mem_cons, or_assoc]

end Stack

/-! ## The rounds -/

section Rounds

variable {canTile : Bool} {lo hi index : ℕ}

/-- The lowest bits of a number. -/
theorem and_tileMask (index : ℕ) : index &&& tileMask = index % 16 :=
  Nat.and_two_pow_sub_one_eq_mod index 4

/-- The base of an index is its tile's first one. -/
theorem tileBase_eq (hindex : index ≤ maxIndex) : tileBase index = 16 * (index / 16) := by
  refine Nat.eq_of_testBit_eq fun bit => ?_
  have hmask : tileMask.testBit bit = decide (bit < 4) := Nat.testBit_two_pow_sub_one 4 bit
  have hright : (16 * (index / 16)).testBit bit = (decide (4 ≤ bit) && index.testBit bit) := by
    rw [show (16 : ℕ) = 2 ^ 4 from rfl, Nat.testBit_two_pow_mul, Nat.testBit_div_two_pow]
    by_cases hbit : 4 ≤ bit
    · rw [Nat.sub_add_cancel hbit]
    · simp [hbit]
  rw [tileBase, Nat.testBit_and, hright]
  by_cases hbit : bit < 64
  · rw [testBit_notU64 hbit, hmask, Bool.and_comm]
    by_cases hlow : bit < 4
    · simp [hlow]
    · simp [hlow, not_lt.mp hlow]
  · rw [testBit_eq_false_of_le hindex (by unfold indexBits; omega)]
    simp

/-- Every index of a range is in a tile of the rounds or is a round of its own. -/
theorem cacheSteps_cover (canTile : Bool) (hi : ℕ) {lo count : ℕ} (hmax : lo + count ≤ maxIndex)
    (hlo : lo ≤ index)
    (hle : index ≤ lo + count) :
    .tile (tileBase index) ∈ cacheSteps canTile lo hi count ∨
    .single index ∈ cacheSteps canTile lo hi count := by
  induction count using Nat.strongRecOn with
  | ind count ih =>
    rw [cacheSteps]
    split
    · next hfull =>
      have hlast := hfull.2.1
      have hbase := tileBase_eq hmax
      have hindex := tileBase_eq (hle.trans hmax)
      rw [and_tileMask] at hlast
      have hends : (lo + count) % 16 = 15 := hlast
      by_cases hin : tileBase (lo + count) ≤ index
      · -- The index is one of this tile's.
        have hsame : tileBase index = tileBase (lo + count) := by omega
        exact .inl (hsame ▸ List.mem_cons_self)
      · have hge := hfull.2.2.1
        rw [if_neg (by omega)]
        have hbelow := ih (tileBase (lo + count) - 1 - lo) (by omega) (by omega) (by omega)
        exact hbelow.imp (List.mem_cons_of_mem _) (List.mem_cons_of_mem _)
    · by_cases htop : index = lo + count
      · exact .inr (htop ▸ List.mem_cons_self)
      · cases count with
        | zero => omega
        | succ below =>
          have hbelow := ih below (Nat.lt_succ_self below) (by omega) (by omega)
          exact hbelow.imp (List.mem_cons_of_mem _) (List.mem_cons_of_mem _)

/-- There are tiles only when they are allowed. -/
theorem cacheSteps_canTile {count first : ℕ} (h : .tile first ∈ cacheSteps canTile lo hi count) :
    canTile = true := by
  induction count using Nat.strongRecOn with
  | ind count ih =>
    rw [cacheSteps] at h
    split at h
    · next hfull => exact hfull.1
    · rcases List.mem_cons.mp h with heq | hmem
      · cases heq
      · cases count with
        | zero => cases hmem
        | succ below => exact ih below (Nat.lt_succ_self below) hmem

/-- The path of an index is that of its tile and then its place there. -/
theorem tile_path {depth : ℕ} (hdepth : 4 ≤ depth) (index : ℕ) :
    setBitsDesc ((tileBase index &&& (2 ^ depth - 1)) &&& notU64 tileMask) ++
      setBitsDesc ((index &&& tileMask) <<< 0) = setBitsDesc (index &&& (2 ^ depth - 1)) := by
  have hdesc : bitsDesc.Pairwise (· > ·) := by decide
  have hmask (bit : ℕ) : tileMask.testBit bit = decide (bit < 4) :=
    Nat.testBit_two_pow_sub_one 4 bit
  have hhigh {bit : ℕ} (hmem : bit ∈ bitsDesc) :
      ((tileBase index &&& (2 ^ depth - 1)) &&& notU64 tileMask).testBit bit =
        (index.testBit bit && decide (bit < depth) && !decide (bit < 4)) := by
    have hbit : bit < 64 := by
      rw [bitsDesc, List.mem_reverse, List.mem_range] at hmem
      unfold indexBits at hmem
      omega
    rw [tileBase, Nat.testBit_and, Nat.testBit_and, Nat.testBit_and, testBit_notU64 hbit, hmask,
      Nat.testBit_two_pow_sub_one]
    cases index.testBit bit <;> cases decide (bit < 4) <;> cases decide (bit < depth) <;> rfl
  have hlow (bit : ℕ) :
      ((index &&& tileMask) <<< 0).testBit bit = (index.testBit bit && decide (bit < 4)) := by
    rw [Nat.shiftLeft_zero, Nat.testBit_and, hmask]
  rw [setBitsDesc, setBitsDesc, setBitsDesc, ← filter_append_of_above hdesc]
  · refine List.filter_congr fun bit hmem => ?_
    rw [hhigh hmem, hlow, Nat.testBit_and, Nat.testBit_two_pow_sub_one]
    by_cases hbit : bit < 4
    · have hbelow : bit < depth := by omega
      simp [hbit, hbelow]
    · simp [hbit]
  · intro above hmem below _ hset hset'
    rw [hhigh hmem] at hset
    rw [hlow] at hset'
    simp only [Bool.and_eq_true, Bool.not_eq_true', decide_eq_true_eq,
      decide_eq_false_iff_not] at hset hset'
    omega

end Rounds

/-! ## Openings -/

section Openings

variable {lo hi : ℕ} {leafAt leafAt' : ℕ → PartyM (StreamEnd sha256) Ag2pcSecureWires}
  {node : ℕ → Value32}

/-- The leaves which two parties have for the indices of a range. -/
def LeavesPaired (deltaA deltaB : Block)
    (leafAt leafAt' : ℕ → PartyM (StreamEnd sha256) Ag2pcSecureWires) (node : ℕ → Value32)
    (lo hi : ℕ) : Prop :=
  ∀ index, lo ≤ index → index ≤ hi → ∃ x y agreed, leafAt index = pure x.stripLabelsForReveal ∧
    leafAt' index = pure y.stripLabelsForReveal ∧
    WiresPaired deltaA deltaB ⟨plainBits (node index), agreed⟩ x y

/-- Both parties open the leaves, from one above the first down. -/
theorem joint_revealDown {count : ℕ}
    (hleaves : LeavesPaired deltaA deltaB leafAt leafAt' node lo (lo + count))
    {results : List (Option Value32)} (hlength : count < results.length) :
    Joint (PartiesPaired deltaA deltaB) (revealDown base leafAt lo count results)
      (revealDown (base.peer nonces) leafAt' lo count results)
      fun x alice y bob => (x = (List.range (count + 1)).map (fun k => some (node (lo + k))) ++
        results.drop (count + 1) ∧
          y = (List.range (count + 1)).map (fun k => some (node (lo + k))) ++ results.drop
            (count + 1)) ∧
        PartiesPaired deltaA deltaB alice bob := by
  have hset {place : ℕ} (hplace : place < results.length) (value : Value32) :
      (results.set place (some value)).drop place = some value :: results.drop (place + 1) := by
    rw [List.drop_eq_getElem_cons (by rwa [List.length_set]), List.getElem_set_self,
      List.drop_set_of_lt (by omega)]
  induction count generalizing results with
  | zero =>
    obtain ⟨x, y, agreed, hx, hy, hwires⟩ := hleaves lo le_rfl le_rfl
    rw [revealDown, revealDown, hx, hy, pure_bind, pure_bind]
    refine (joint_revealValue hwires).bind fun value value' => Joint.assume ?_
    rintro ⟨rfl, rfl⟩
    have hfirst := hset hlength (node lo)
    rw [List.drop_zero] at hfirst
    refine .pure fun _ _ hpaired => ⟨⟨?_, ?_⟩, hpaired⟩
    · rw [hfirst]
      rfl
    · rw [hfirst]
      rfl
  | succ below ih =>
    obtain ⟨x, y, agreed, hx, hy, hwires⟩ :=
      hleaves (lo + (below + 1)) (Nat.le_add_right _ _) le_rfl
    rw [revealDown, revealDown, hx, hy, pure_bind, pure_bind]
    refine (joint_revealValue hwires).bind fun value value' => Joint.assume ?_
    rintro ⟨rfl, rfl⟩
    have hbelow :
        LeavesPaired deltaA deltaB leafAt leafAt' node lo (lo + below) := fun index hlo hle =>
      hleaves index hlo (by omega)
    have hnext : below < (results.set (below + 1) (some (node (lo + (below + 1))))).length := by
      rw [List.length_set]
      omega
    have hfilled : (List.range (below + 1)).map (fun k => some (node (lo + k))) ++
        (results.set (below + 1) (some (node (lo + (below + 1))))).drop (below + 1) =
        (List.range (below + 1 + 1)).map (fun k => some (node (lo + k))) ++
          results.drop (below + 1 + 1) := by
      rw [hset hlength, List.range_succ (n := below + 1), List.map_append, List.append_assoc]
      rfl
    rw [← hfilled]
    refine ih hbelow hnext fun hplace value => ?_
    rw [List.drop_eq_getElem_cons (by rwa [List.length_set]), List.getElem_set_self,
      List.drop_set_of_lt (by omega)]

/-- All values are there. -/
theorem collectResults_eq (node : ℕ → Value32) (missing : String) {indices : List ℕ}
    (hindices : ∀ index ∈ indices, lo ≤ index ∧ index ≤ hi) :
    collectResults lo
      ((List.range (hi - lo + 1)).map fun k => some (node (lo + k))) missing indices =
      .ok (indices.map fun index => (index, node index)) := by
  induction indices with
  | nil => rfl
  | cons index rest ih =>
    obtain ⟨⟨hlo, hle⟩, hrest⟩ := List.forall_mem_cons.mp hindices
    have hentry : ((List.range (hi - lo + 1)).map fun k => some (node (lo + k)))[index - lo]? =
        some (some (node index)) := by
      rw [List.getElem?_map, List.getElem?_range (by omega), Option.map_some,
        Nat.add_sub_cancel' hlo]
    rw [collectResults, if_neg (not_lt.mpr hlo), Rust.readSlot, hentry]
    simp only [bind, Except.bind, ih hrest, List.map_cons]

/-- Both parties open the values of a range, and end their sessions. -/
theorem joint_revealRange (hlohi : lo ≤ hi)
    (hleaves : LeavesPaired deltaA deltaB leafAt leafAt' node lo hi) (missing : String)
    {indices : List ℕ} (hindices : ∀ index ∈ indices, lo ≤ index ∧ index ≤ hi) :
    Joint (PartiesPaired deltaA deltaB) (revealRange base .alice leafAt lo hi indices missing)
      (revealRange (base.peer nonces) .bob leafAt' lo hi indices missing)
      fun x _ y _ => x = indices.map (fun index => (index, node index)) ∧
        y = indices.map fun index => (index, node index) := by
  have hall : LeavesPaired deltaA deltaB leafAt leafAt' node lo (lo + (hi - lo)) := by
    rwa [Nat.add_sub_cancel' hlohi]
  have hlength : hi - lo < (List.replicate (hi - lo + 1) (none : Option Value32)).length := by
    rw [List.length_replicate]
    exact Nat.lt_succ_self _
  rw [revealRange, revealRange]
  refine (joint_revealDown hall hlength).bind fun results results' => Joint.assume ?_
  rintro ⟨rfl, rfl⟩
  refine joint_flushMain.bind fun _ _ => ?_
  rw [List.drop_eq_nil_of_le (by rw [List.length_replicate]), List.append_nil,
    collectResults_eq node missing hindices]
  exact joint_finish.bind fun _ _ => .pure fun _ _ _ => ⟨rfl, rfl⟩

end Openings

/-! ## The leaves of a range -/

section Leaves

variable {trunk : Value32} {lo hi depth : ℕ}

/-- A leaf of a tile without labels. -/
theorem sliceLeaf_strip {S : Type} {tile part : Ag2pcSecureWires} {slot : ℕ}
    (h : tile.slice (slot * valueBits) ((slot + 1) * valueBits) = .ok part) :
    (sliceLeaf tile.stripLabelsForReveal slot : PartyM S Ag2pcSecureWires) =
      pure part.stripLabelsForReveal :=
  sliceLeaf_eq (slice_strip h)

/-- The leaves of the tiles of the bottom level. -/
theorem tileLeaf_paired (sha256 : List UInt8 → Value32) {height tiles : ℕ}
    {ours theirs : List Ag2pcSecureWires}
    (htiles : TilesPaired deltaA deltaB (fun value => tileOutputs compress value 0 height)
      (levelNodes (sha256Digest compress) trunk height tiles) ours theirs)
    (hcount : tiles * 2 ^ height = 1 * 2 ^ depth) (lo hi : ℕ) :
    LeavesPaired deltaA deltaB (tileLeaf (2 ^ depth - 1) height ours :
      ℕ → PartyM (StreamEnd sha256) Ag2pcSecureWires)
      (tileLeaf (2 ^ depth - 1) height theirs)
      (fun index =>
        hashBits (sha256Digest compress) trunk
          (setBitsDesc (index &&& (2 ^ depth - 1)))) lo hi := by
  intro index _ _
  obtain ⟨suffix, hsuffix⟩ : ∃ suffix, suffix = index &&& (2 ^ depth - 1) := ⟨_, rfl⟩
  have hlt : suffix < tiles * 2 ^ height := by
    rw [hcount, Nat.one_mul, hsuffix, Nat.and_two_pow_sub_one_eq_mod]
    exact Nat.mod_lt _ (Nat.two_pow_pos depth)
  have htile : suffix / 2 ^ height < tiles :=
    (Nat.div_lt_iff_lt_mul (Nat.two_pow_pos height)).mpr hlt
  have hslot : suffix % 2 ^ height < 2 ^ height := Nat.mod_lt _ (Nat.two_pow_pos height)
  have hnode : (levelNodes (sha256Digest compress) trunk height tiles)[suffix / 2 ^ height]? =
      some (nodeAt (sha256Digest compress) trunk height (suffix / 2 ^ height)) := by
    rw [levelNodes, List.getElem?_map, List.getElem?_range htile, Option.map_some]
  obtain ⟨x, y, hx, hy, hwires⟩ := htiles.get hnode
  obtain ⟨leaf, leaf', hours, htheirs, hpaired⟩ := tile_leaf hwires hslot
  have hvalue : tileValue (sha256Digest compress)
    (nodeAt (sha256Digest compress) trunk height (suffix / 2 ^ height)) 0
      (suffix % 2 ^ height) = hashBits (sha256Digest compress) trunk (setBitsDesc suffix) := by
    have hbelow :=
      @tileValue_nodeAt (sha256Digest compress) trunk (suffix / 2 ^ height) _ 0 height hslot
    rw [Nat.zero_add] at hbelow
    rw [hbelow, Nat.div_add_mod', nodeAt, Nat.shiftLeft_zero]
  rw [hvalue, hsuffix] at hpaired
  refine ⟨leaf, leaf', true, ?_, ?_, hpaired⟩
  · simp only [tileLeaf, ← hsuffix, Nat.shiftRight_eq_div_pow, hx, entryOr,
      onStandalone_ok, pure_bind, Nat.and_two_pow_sub_one_eq_mod]
    exact sliceLeaf_strip hours
  · simp only [tileLeaf, ← hsuffix, Nat.shiftRight_eq_div_pow, hy, entryOr,
      onStandalone_ok, pure_bind, Nat.and_two_pow_sub_one_eq_mod]
    exact sliceLeaf_strip htheirs

/-- The leaves of what the rounds derived. -/
theorem cachedLeaf_paired (sha256 : List UInt8 → Value32) {canTile : Bool} {outs outs' : CacheOuts}
    (hlohi : lo ≤ hi) (hhi : hi ≤ maxIndex) (hdepth : canTile = true → 4 ≤ depth)
    (houts : OutsPaired deltaA deltaB compress trunk (2 ^ depth - 1)
      (· ∈ cacheSteps canTile lo hi (hi - lo)) outs outs') :
    LeavesPaired deltaA deltaB (cachedLeaf outs : ℕ → PartyM (StreamEnd sha256) Ag2pcSecureWires)
      (cachedLeaf outs')
      (fun index =>
        hashBits (sha256Digest compress) trunk
          (setBitsDesc (index &&& (2 ^ depth - 1)))) lo hi := by
  intro index hlo hle
  have hcover :=
    cacheSteps_cover canTile hi (show lo + (hi - lo) ≤ maxIndex by omega) hlo (by omega)
  by_cases htile : .tile (tileBase index) ∈ cacheSteps canTile lo hi (hi - lo)
  · obtain ⟨x, y, hx, hy, hwires⟩ := houts.tiles _ htile
    have hslot : index &&& tileMask < 2 ^ cacheTileHeight := by
      rw [and_tileMask]
      exact Nat.mod_lt _ (by decide)
    obtain ⟨leaf, leaf', hours, htheirs, hpaired⟩ := tile_leaf hwires hslot
    rw [tileValue, ← hashBits_append, tile_path (hdepth (cacheSteps_canTile htile))] at hpaired
    refine ⟨leaf, leaf', true, ?_, ?_, hpaired⟩
    · rw [cachedLeaf, hx]
      exact sliceLeaf_strip hours
    · rw [cachedLeaf, hy]
      exact sliceLeaf_strip htheirs
  · obtain ⟨hnone, hnone'⟩ := houts.others _ htile
    obtain ⟨x, y, hx, hy, hnode⟩ := houts.singles _ (hcover.resolve_left htile)
    refine ⟨x, y, true, ?_, ?_, hnode⟩
    · rw [cachedLeaf, hnone, hx]
      rfl
    · rw [cachedLeaf, hnone', hy]
      rfl

end Leaves

/-! ## The derivation -/

/-- A fan-out which is accepted gives tiles of at most four levels. -/
theorem tileHeightForFanout_le {tileFanout tileHeight : ℕ}
    (h : tileHeightForFanout tileFanout = .ok tileHeight) :
    tileHeight ≤ 4 := by
  unfold tileHeightForFanout validateTileFanout at h
  split at h
  · cases h
  · next hpower =>
    split at h
    · cases h
    · next hfanout =>
      cases h
      have hvalue : tileFanout = 2 ^ trailingZeros tileFanout := by
        by_contra hne
        exact hpower (.inr hne)
      have hle : 2 ^ trailingZeros tileFanout ≤ 2 ^ 4 := hvalue ▸ not_lt.mp hfanout
      exact (Nat.pow_le_pow_iff_right (by decide)).mp hle

/-- What a range which is accepted has. -/
theorem checkCache_eq_ok {indices : List ℕ} {lo hi tileFanout : ℕ} {trunkChunkBlocks : ℤ}
    (hlo : indices.head? = some lo) (hhi : indices.getLast? = some hi)
    (h : checkCache indices trunkChunkBlocks tileFanout = .ok ()) :
    ∃ tileHeight groups, tileHeightForFanout tileFanout = .ok tileHeight ∧
      trunkGroups lo (rangeSplitMasks lo [lo, hi]).highMask trunkChunkBlocks
        ("shachain2pc: cache needs >=1 common high set bit (no shared trunk hash); " ++
          "use batch mode for this range") = .ok groups := by
  rw [checkCache, hlo, hhi] at h
  simp only at h
  cases hheight : tileHeightForFanout tileFanout with
  | error e =>
    rw [hheight] at h
    cases h
  | ok tileHeight =>
    cases hgroups : trunkGroups lo (rangeSplitMasks lo [lo, hi]).highMask trunkChunkBlocks
      ("shachain2pc: cache needs >=1 common high set bit (no shared trunk hash); " ++
        "use batch mode for this range") with
    | error e =>
      rw [hheight, hgroups] at h
      cases h
    | ok groups => exact ⟨tileHeight, groups, rfl, rfl⟩

/-- The levels of a range cover its bits, when there are any. -/
theorem recursiveLevels_cover (lo hi tileHeight : ℕ) (masks : SplitMasks) :
    recursiveLevels lo hi tileHeight masks = .ok [] ∨ ∃ level rest,
      recursiveLevels lo hi tileHeight masks = .ok (level :: rest) ∧
        CoverBits tileHeight masks.depth (level :: rest) := by
  unfold recursiveLevels
  split
  · next hwhole =>
    obtain ⟨level, rest, hlevels, hcover⟩ := planTileLevels_cover hwhole.1 hwhole.2.2
    refine .inr ⟨level, rest, ?_, hcover⟩
    rw [hlevels]
    rfl
  · exact .inl rfl

/-- The program for a whole tile, which is there when tiles are allowed. -/
theorem fullTileProgram_eq (h : Chunked compress base deltaA) (tileFanout : ℕ) :
    ∃ tiles, fullTileProgram base tileFanout = pure tiles ∧
    (2 ≤ tileFanout → ∃ program, tiles = some program ∧
      NodeProgram program fun value => tileOutputs compress value 0 cacheTileHeight) := by
  unfold fullTileProgram
  split
  · obtain ⟨program, hprogram, hnode⟩ :=
      nodeProgram_tile h (show 1 ≤ cacheTileHeight by decide) (by decide)
      (show 0 + cacheTileHeight ≤ indexBits by decide)
    refine ⟨some program, ?_, fun _ => ⟨program, rfl, hnode⟩⟩
    rw [buildProgram_ok hprogram, pure_bind]
  · next hfanout => exact ⟨none, rfl, fun hallowed => absurd hallowed hfanout⟩

/-- The first and the last of a range. -/
theorem rangeIndices_ends {lo hi : ℕ} (hlohi : lo ≤ hi) :
    (rangeIndices lo hi).head? = some lo ∧ (rangeIndices lo hi).getLast? = some hi := by
  rw [rangeIndices, List.head?_range', List.getLast?_range', if_neg (by omega), if_neg (by omega)]
  exact ⟨rfl, congrArg some (by omega)⟩

/-- Both parties derive the values of a range by their caches. -/
theorem joint_runDerivationCache (h : Chunked compress base deltaA) {lo hi : ℕ} (hlohi : lo ≤ hi)
    (hhi : hi ≤ maxIndex)
    (a b : Value32) {trunkChunkBlocks : ℤ} {tileFanout : ℕ}
    (haccepted : checkCache (rangeIndices lo hi) trunkChunkBlocks tileFanout = .ok ()) :
    Joint (PartiesFresh deltaA deltaB)
      (runDerivationCache base .alice (rangeIndices lo hi) a trunkChunkBlocks tileFanout)
      (runDerivationCache (base.peer nonces) .bob
        (rangeIndices lo hi) b trunkChunkBlocks tileFanout)
      fun x _ y _ =>
        x = (rangeIndices lo hi).map
          (fun index => (index, generateFromSeed (sha256Digest compress) (b.xor a) index)) ∧
        y = (rangeIndices lo hi).map
          fun index => (index, generateFromSeed (sha256Digest compress) (b.xor a) index) := by
  obtain ⟨hfirst, hlast⟩ := rangeIndices_ends hlohi
  obtain ⟨tileHeight, groups, hheight, hgroups⟩ := checkCache_eq_ok hfirst hlast haccepted
  obtain ⟨hflatten, hgrouped, hne⟩ := trunkGroups_eq_ok hgroups
  obtain ⟨hlow, -, hdepth, -⟩ := rangeSplitMasks_spec lo [lo, hi]
  have hwithin : ∀ index ∈ rangeIndices lo hi, lo ≤ index ∧ index ≤ hi := fun index hmem => by
    rw [rangeIndices, List.mem_range'_1] at hmem
    omega
  obtain ⟨trunk, htrunk⟩ : ∃ trunk, trunk = hashBits (sha256Digest compress) (b.xor a)
    (setBitsDesc (lo &&& (rangeSplitMasks lo [lo, hi]).highMask)) := ⟨_, rfl⟩
  have hnodes :
      (rangeIndices lo hi).map (fun index => (index, hashBits (sha256Digest compress) trunk
        (setBitsDesc (index &&& (2 ^ (rangeSplitMasks lo [lo, hi]).depth - 1))))) =
      (rangeIndices lo hi).map fun index =>
          (index, generateFromSeed (sha256Digest compress) (b.xor a) index) :=
    List.map_congr_left fun index hmem => by
      rw [htrunk, ← hlow, hashBits_between _ _ hhi (hwithin index hmem).1 (hwithin index hmem).2]
  rw [runDerivationCache, runDerivationCache]
  simp only [hfirst, hlast, hheight, hgroups, entryOr, onStandalone_ok, pure_bind]
  rcases recursiveLevels_cover lo hi tileHeight (rangeSplitMasks lo [lo, hi]) with
    hlevels | ⟨level, rest, hlevels, hcover⟩
  · -- The range is derived from its last index down.
    simp only [hlevels, onStandalone_ok, pure_bind]
    refine (joint_openSession h _ a b).bind fun seed seed' => Joint.assume fun hseed => ?_
    refine (joint_runTrunk h hflatten hgrouped hseed).bind fun x y => Joint.assume fun hwires => ?_
    rw [chunkOutputs_eq (hflatten ▸ hne), ← htrunk] at hwires
    obtain ⟨tiles, htiles, hfull⟩ := fullTileProgram_eq h tileFanout
    have htiles' : fullTileProgram (base.peer nonces) tileFanout = pure tiles := htiles
    obtain ⟨oneStep, honeStep, hstep⟩ := nodeProgram_step h (show 0 < indexBits by decide)
    have hsha : (base.peer nonces).sha = base.sha := rfl
    rw [htiles, htiles', hsha, buildProgram_ok honeStep, pure_bind, pure_bind, pure_bind, pure_bind]
    have hallowed {first : ℕ} (hmem : .tile first ∈ cacheSteps (decide (2 ≤ tileFanout ∧
        cacheTileHeight ≤ (rangeSplitMasks lo [lo, hi]).depth)) lo hi (hi - lo)) :=
      of_decide_eq_true (cacheSteps_canTile hmem)
    have hstack : StackPaired deltaA deltaB compress trunk [] ⟨[], [x]⟩ ⟨[], [y]⟩ :=
      ⟨rfl, rfl, .cons hwires .nil⟩
    refine (joint_runSteps h hstep (fun first hmem => hfull (hallowed hmem).1) hstack
      (outsPaired_empty ..)).bind fun outs outs' => Joint.assume fun houts => ?_
    rw [hlow] at houts
    have hleaves := cachedLeaf_paired sha256 hlohi hhi (fun hcan => (of_decide_eq_true hcan).2)
      (houts.congr fun step => Iff.of_eq (false_or _))
    exact (joint_revealRange hlohi hleaves _ hwithin).mono
        (fun _ _ hpaired => hpaired) fun _ _ _ _ hpost =>
      ⟨hpost.1.trans hnodes, hpost.2.trans hnodes⟩
  · -- The range is a whole subtree.
    simp only [hlevels, onStandalone_ok, pure_bind]
    refine (joint_openSession h _ a b).bind fun seed seed' => Joint.assume fun hseed => ?_
    refine (joint_runTrunk h hflatten hgrouped hseed).bind fun x y => Joint.assume fun hwires => ?_
    rw [chunkOutputs_eq (hflatten ▸ hne), ← htrunk] at hwires
    have hroot : NodesPaired deltaA deltaB
        (levelNodes (sha256Digest compress) trunk (rangeSplitMasks lo [lo, hi]).depth 1) [x]
          [y] := by
      have hzero : setBitsDesc (0 <<< (rangeSplitMasks lo [lo, hi]).depth) = [] := by
        rw [Nat.zero_shiftLeft]
        decide
      rw [levelNodes, List.range_one, List.map_singleton, nodeAt, hzero]
      exact .cons hwires .nil
    refine (joint_runLevels h (CoverBits.mono (tileHeightForFanout_le hheight) hcover)
      hdepth hroot).bind
      fun bottom bottom' => Joint.assume ?_
    rintro ⟨tiles, hbottom, hcount, htiles⟩
    have hleaves := tileLeaf_paired sha256 htiles hcount lo hi
    rw [← hbottom, hlow]
    exact (joint_revealRange hlohi hleaves _ hwithin).mono
        (fun _ _ hpaired => hpaired) fun _ _ _ _ hpost =>
      ⟨hpost.1.trans hnodes, hpost.2.trans hnodes⟩

end PartySession

section Derivations

variable {G : Type} [AddCommGroup G] {curve : P256 G} {r r' : ℕ} {seed seed' : Block}
  {alphas alphas' : ℕ → ℕ} {t t' : G} {compress : Block64 → Value32} {sha : Circuit}

/-- Two parties derive the values of a range by their caches: by levels of tiles when it is a whole
subtree, and else by tiles and single nodes below a stack. Both return, for each index in order,
what the seed which they share gives there. -/
theorem derivationCache_agrees (hserves : CswServes curve r seed alphas t)
    (hserves' : CswServes curve r' seed' alphas' t') (hgadget : DirectGadget compress sha)
    (hands : 0 < gadgetAnds sha) (permute : Block → Block → Block) (sha256 : List UInt8 → Value32)
    (bucketSize : ℕ → ℕ → ℕ) (nonces nonces' : ℕ → Block) (ssp : ℕ) (ours theirs : PartySeed)
    (a b : Value32) {lo hi : ℕ} (hlohi : lo ≤ hi) (hhi : hi ≤ maxIndex) {trunkChunkBlocks : ℤ}
    {tileFanout : ℕ}
    (haccepted : checkCache (rangeIndices lo hi) trunkChunkBlocks tileFanout = .ok ()) :
    let base := cswParty curve permute sha256 bucketSize r r' seed seed' alphas alphas' nonces sha
    PartiesComplete ssp ours theirs
      (PartySession.runDerivationCache base .alice
        (rangeIndices lo hi) a trunkChunkBlocks tileFanout)
      (PartySession.runDerivationCache (base.peer nonces') .bob
        (rangeIndices lo hi) b trunkChunkBlocks
        tileFanout)
      fun x y =>
        x = (rangeIndices lo hi).map
          (fun index => (index, generateFromSeed (sha256Digest compress) (b.xor a) index)) ∧
        y = (rangeIndices lo hi).map
          fun index => (index, generateFromSeed (sha256Digest compress) (b.xor a) index) :=
  partiesComplete_of_joint (PartySession.joint_runDerivationCache
    (cswParty_chunked hserves hserves' hgadget hands permute sha256 bucketSize nonces ours.delta)
      hlohi hhi
      a b haccepted)

/-- The two indices of a zero seed, by one tile of fan-out 2, and node by node below a stack when
a tile is larger than the range. -/
theorem derivationCache_agrees_five :
    let base := cswParty fiveCurve (fun _ block => block) Value32.ofList
      (fun _ _ => 3) 1 1 Block.zero Block.zero
      (fun _ => 2) (fun _ => 2) (fun _ => Block.zero) edgeGadget
    let drawn : PartySeed := ⟨Block.zero, ⟨Block.zero, Block.zero, Block.zero⟩, Block.zero⟩
    let agrees (tileFanout : ℕ) : Prop := PartiesComplete 40 drawn drawn
      (PartySession.runDerivationCache base .alice (rangeIndices 2 3) firstEdgeDigest 16 tileFanout)
      (PartySession.runDerivationCache (base.peer fun _ => Block.zero) .bob
        (rangeIndices 2 3) firstEdgeDigest
        16 tileFanout)
      fun x y => x = [(2, secondEdgeDigest), (3, thirdEdgeDigest)] ∧
        y = [(2, secondEdgeDigest), (3, thirdEdgeDigest)]
    agrees 2 ∧ agrees 16 := by
  rw [← edge_values]
  exact ⟨derivationCache_agrees fiveCurve_serves fiveCurve_serves
      (selectGadget_direct (by decide) secondEdgeDigest thirdEdgeDigest) (selectGadget_ands ..)
      _ _ _ _ _ _ _ _ _ _ (by decide) (by decide) (by decide +kernel),
    derivationCache_agrees fiveCurve_serves fiveCurve_serves
      (selectGadget_direct (by decide) secondEdgeDigest thirdEdgeDigest) (selectGadget_ands ..)
      _ _ _ _ _ _ _ _ _ _ (by decide) (by decide) (by decide +kernel)⟩

end Derivations

end Shachain2pc
