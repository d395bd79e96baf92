import Shachain2pc.Compat.DirectPrograms
import Shachain2pc.Party.CacheMask

/-!
# The leaves of a tile

The nodes of a tile are numbered by the bits below its root. A node comes from the one without
its lowest bit, which has one bit less, and the tile takes the nodes by their number of bits. So
a node has a value when it is needed, and each leaf is the root's value hashed along its bits.
-/

namespace Shachain2pc

open Rust

/-- The value of a node below a root, in a window of bits. -/
def tileValue (sha256 : Value32 → Value32) (root : Value32) (bitOffset suffix : ℕ) : Value32 :=
  hashBits sha256 root (setBitsDesc (suffix <<< bitOffset))

/-! ## The parent of a node -/

section Parent

variable {suffix bitOffset tileHeight : ℕ}

/-- The parent has the bits above the lowest one. -/
theorem testBit_parent (hne : suffix ≠ 0) (hlt : suffix < 2 ^ 64) (bit : ℕ) :
    (suffix &&& (suffix - 1)).testBit bit =
    (decide (trailingZeros suffix < bit) && suffix.testBit bit) := by
  obtain ⟨t, ht⟩ : ∃ t, t = trailingZeros suffix := ⟨_, rfl⟩
  obtain ⟨q, hq⟩ : ∃ q, q = suffix / 2 ^ (t + 1) := ⟨_, rfl⟩
  have hmod := mod_two_pow_trailingZeros hne hlt
  rw [← ht] at hmod
  have hsuffix : suffix = 2 ^ (t + 1) * q + 2 ^ t := by
    rw [← hmod, hq]
    exact (Nat.div_add_mod _ _).symm
  have hpos := Nat.two_pow_pos t
  have hlow : 2 ^ t < 2 ^ (t + 1) := Nat.pow_lt_pow_right (by decide) (Nat.lt_succ_self t)
  have hpred : suffix - 1 = 2 ^ (t + 1) * q + (2 ^ t - 1) := by omega
  rw [← ht, Nat.testBit_and, hpred, hsuffix, Nat.testBit_two_pow_mul_add _ hlow,
    Nat.testBit_two_pow_mul_add _ (by omega : 2 ^ t - 1 < 2 ^ (t + 1))]
  by_cases hbit : bit < t + 1
  · rw [if_pos hbit, if_pos hbit, Nat.testBit_two_pow, Nat.testBit_two_pow_sub_one,
      decide_eq_false (by omega : ¬t < bit), Bool.false_and]
    by_cases heq : t = bit
    · rw [decide_eq_false (by omega : ¬bit < t), Bool.and_false]
    · rw [decide_eq_false heq, Bool.false_and]
  · rw [if_neg hbit, if_neg hbit, Bool.and_self, decide_eq_true (by omega : t < bit), Bool.true_and]

/-- The parent has fewer bits. -/
theorem countOnes_parent (hne : suffix ≠ 0) (hlt : suffix < 2 ^ 64) :
    countOnes (suffix &&& (suffix - 1)) < countOnes suffix := by
  have hbits (bit : ℕ) :
      (suffix &&& (suffix - 1)).testBit bit = true → suffix.testBit bit = true := by
    rw [testBit_parent hne hlt, Bool.and_eq_true]
    exact fun h => h.2
  have hsub : ((List.range 64).filter ((suffix &&& (suffix - 1)).testBit ·)).Sublist
      ((List.range 64).filter (suffix.testBit ·)) :=
    List.monotone_filter_right _ fun bit => hbits bit
  refine lt_of_le_of_ne hsub.length_le fun hlength => ?_
  have hset := (trailingZeros_spec hne hlt).1
  have hmem : trailingZeros suffix ∈ (List.range 64).filter (suffix.testBit ·) := by
    refine List.mem_filter.mpr ⟨List.mem_range.mpr ?_, hset⟩
    by_contra hge
    rw [Nat.testBit_lt_two_pow
      (hlt.trans_le (Nat.pow_le_pow_right (by decide) (not_lt.mp hge)))] at hset
    cases hset
  rw [← hsub.eq_of_length hlength, List.mem_filter, testBit_parent hne hlt] at hmem
  simp at hmem

/-- A node of a tile has no more bits than the tile is high. -/
theorem countOnes_le (hlt : suffix < 2 ^ tileHeight) : countOnes suffix ≤ tileHeight := by
  have hsub : (List.range 64).filter (suffix.testBit ·) ⊆ List.range tileHeight := by
    intro bit hmem
    by_contra hge
    rw [List.mem_range, not_lt] at hge
    have hset := (List.mem_filter.mp hmem).2
    rw [Nat.testBit_lt_two_pow (hlt.trans_le (Nat.pow_le_pow_right (by decide) hge))] at hset
    cases hset
  have hle := ((List.nodup_range.filter _).subperm hsub).length_le
  rwa [List.length_range] at hle

/-- A node is its parent with one bit below. -/
theorem setBitsDesc_suffix (hne : suffix ≠ 0) (hlt : suffix < 2 ^ tileHeight)
    (hwindow : bitOffset + tileHeight ≤ indexBits) :
    bitOffset + trailingZeros suffix < indexBits ∧ setBitsDesc (suffix <<< bitOffset) =
      setBitsDesc ((suffix &&& (suffix - 1)) <<< bitOffset) ++
        [bitOffset + trailingZeros suffix] := by
  have hlt64 : suffix < 2 ^ 64 := hlt.trans_le (Nat.pow_le_pow_right (by decide)
    (by unfold indexBits at hwindow; omega))
  obtain ⟨hset, hbelow⟩ := trailingZeros_spec hne hlt64
  have hbit : trailingZeros suffix < tileHeight := by
    by_contra hge
    rw [Nat.testBit_lt_two_pow
      (hlt.trans_le (Nat.pow_le_pow_right (by decide) (not_lt.mp hge)))] at hset
    cases hset
  refine ⟨by omega, ?_⟩
  rw [← setBitsDesc_or_bit (by omega) fun high hhigh => ?_]
  · refine congrArg setBitsDesc (Nat.eq_of_testBit_eq fun bit => ?_)
    rw [Nat.testBit_or, Nat.one_shiftLeft, Nat.testBit_two_pow, Nat.testBit_shiftLeft,
      Nat.testBit_shiftLeft, testBit_parent hne hlt64]
    by_cases hoffset : bitOffset ≤ bit
    · rcases Nat.lt_trichotomy (bit - bitOffset) (trailingZeros suffix) with h | h | h
      · have hhigher : bitOffset + trailingZeros suffix ≠ bit := by omega
        simp [hbelow _ h, hhigher]
      · have hsame : bitOffset + trailingZeros suffix = bit := by omega
        simp [h, hset, hsame, hoffset]
      · have hother : bitOffset + trailingZeros suffix ≠ bit := by omega
        simp [h, hother]
    · have hother : bitOffset + trailingZeros suffix ≠ bit := by omega
      simp [hoffset, hother]
  · have htest := (List.mem_filter.mp hhigh).2
    rw [Nat.testBit_shiftLeft, testBit_parent hne hlt64, Bool.and_eq_true, Bool.and_eq_true,
      decide_eq_true_eq, decide_eq_true_eq] at htest
    omega

/-- The number of nodes below the root of a tile. -/
theorem length_tileSuffixes_le (tileHeight : ℕ) :
    (tileSuffixes tileHeight).length ≤ 2 ^ tileHeight - 1 := by
  have hrange (count : ℕ) : (List.range' 1 count).Nodup := List.nodup_range' 1
  have hnodup : (tileSuffixes tileHeight).Nodup := by
    rw [tileSuffixes, List.nodup_flatMap]
    refine ⟨fun depth _ => (hrange _).filter _, (hrange _).imp fun hne suffix hmem hmem' => ?_⟩
    have hdepth := of_decide_eq_true (List.mem_filter.mp hmem).2
    have hdepth' := of_decide_eq_true (List.mem_filter.mp hmem').2
    exact hne (hdepth.symm.trans hdepth')
  have hsub : tileSuffixes tileHeight ⊆ List.range' 1 (2 ^ tileHeight - 1) := by
    intro suffix hmem
    obtain ⟨depth, -, hmem⟩ := List.mem_flatMap.mp hmem
    exact (List.mem_filter.mp hmem).1
  have hle := (hnodup.subperm hsub).length_le
  rwa [List.length_range'] at hle

end Parent

namespace Ag2pcProgramBuilder

variable {x : List Bool} {b : Ag2pcProgramBuilder} {compress : Block64 → Value32} {gadget : Circuit}

/-! ## Nodes -/

/-- The nodes which have a value carry it. -/
structure NodesCarry (compress : Block64 → Value32) (root : Value32) (bitOffset tileHeight : ℕ)
    (x : List Bool) (b : Ag2pcProgramBuilder) (known : ℕ → Prop) (nodes : List (List ℕ)) :
    Prop where
  length : nodes.length = 2 ^ tileHeight
  carries :
      ∀ suffix < 2 ^ tileHeight, known suffix → List.Forall₂ (b.Carries x) (nodes.getD suffix [])
    (tileValue (sha256Digest compress) root bitOffset suffix).toBitsMsb

variable {root : Value32} {bitOffset tileHeight c0 c1 : ℕ} {known known' : ℕ → Prop}
  {nodes : List (List ℕ)}

/-- Fewer nodes. -/
theorem NodesCarry.mono (h : NodesCarry compress root bitOffset tileHeight x b known nodes)
    (hknown : ∀ suffix < 2 ^ tileHeight, known' suffix → known suffix) :
    NodesCarry compress root bitOffset tileHeight x b known' nodes :=
  ⟨h.length, fun suffix hlt hsuffix => h.carries suffix hlt (hknown suffix hlt hsuffix)⟩

/-- One edge gives a node its value, when its parent has one. -/
theorem tileStep_spec (hgadget : DirectGadget compress gadget) (hb : b.Good) (h0 : b.Carries x c0 0)
    (h1 : b.Carries x c1 1) (hnodes : NodesCarry compress root bitOffset tileHeight x b known nodes)
    (hwindow : bitOffset + tileHeight ≤ indexBits) {suffix : ℕ} (hne : suffix ≠ 0)
    (hlt : suffix < 2 ^ tileHeight) (hparent : known (suffix &&& (suffix - 1)))
    (hfit : b.next + (gadget.gates.length + 1) ≤ gateWireLimit) :
    Yields (tileStep gadget c0 c1 bitOffset (nodes, b) suffix) fun r =>
      b.Extends (gadget.gates.length + 1) r.2 ∧
        NodesCarry compress root bitOffset tileHeight x r.2
          (fun node => known node ∨ node = suffix) r.1 := by
  obtain ⟨hbit, hbits⟩ := setBitsDesc_suffix hne hlt hwindow
  have hle : suffix &&& (suffix - 1) < 2 ^ tileHeight := Nat.and_le_left.trans_lt hlt
  have hread : (readSlot nodes (suffix &&& (suffix - 1)) : Outcome ProgramError (List ℕ)) =
      .ok (nodes.getD (suffix &&& (suffix - 1)) []) := by
    rw [readSlot, List.getElem?_eq_getElem (hnodes.length ▸ hle),
      List.getD_eq_getElem _ _ (hnodes.length ▸ hle)]
  rw [tileStep, hread]
  refine (hashWires_spec hgadget hb h0 h1 (hnodes.carries _ hle hparent) hbit hfit).bind
    fun r hr => ?_
  obtain ⟨hext, hcar⟩ := hr
  have hwrite : (writeSlot nodes suffix r.1 : Outcome ProgramError (List (List ℕ))) =
      .ok (nodes.set suffix r.1) :=
    if_pos (hnodes.length ▸ hlt)
  change Yields (writeSlot nodes suffix r.1 >>= _) _
  rw [hwrite]
  refine .ok ⟨hext, ⟨List.length_set.trans hnodes.length, fun node hnode hknown => ?_⟩⟩
  by_cases heq : suffix = node
  · subst heq
    rw [List.getD_eq_getElem _ _ (by rw [List.length_set, hnodes.length]; exact hlt),
      List.getElem_set_self,
      tileValue,
      hbits, hashBits_append]
    exact hcar
  · rw [List.getD_eq_getElem?_getD, List.getElem?_set_ne heq, ← List.getD_eq_getElem?_getD]
    exact (hnodes.carries node hnode (hknown.resolve_right (Ne.symm heq))).imp fun _ _ h =>
      h.mono hext

/-- The edges to nodes of which the parents have values. -/
theorem tileSteps_spec (hgadget : DirectGadget compress gadget)
    (hwindow : bitOffset + tileHeight ≤ indexBits) (suffixes : List ℕ) (hb : b.Good)
    (h0 : b.Carries x c0 0) (h1 : b.Carries x c1 1)
    (hnodes : NodesCarry compress root bitOffset tileHeight x b known nodes)
    (hsuffixes : ∀ suffix ∈ suffixes, suffix ≠ 0 ∧ suffix < 2 ^ tileHeight ∧
      known (suffix &&& (suffix - 1)))
    (hfit : b.next + suffixes.length * (gadget.gates.length + 1) ≤ gateWireLimit) :
    Yields (suffixes.foldlM (tileStep gadget c0 c1 bitOffset) (nodes, b)) fun r =>
      b.Extends (suffixes.length * (gadget.gates.length + 1)) r.2 ∧
        NodesCarry compress root bitOffset tileHeight x r.2
          (fun node => known node ∨ node ∈ suffixes) r.1 := by
  induction suffixes generalizing b known nodes with
  | nil =>
    refine .ok
      ⟨by simpa using hb.extends, hnodes.mono fun suffix _ h => h.resolve_right List.not_mem_nil⟩
  | cons suffix rest ih =>
    obtain ⟨hne, hlt, hparent⟩ := hsuffixes suffix List.mem_cons_self
    rw [List.length_cons, Nat.succ_mul] at hfit ⊢
    rw [List.foldlM_cons]
    refine (tileStep_spec hgadget hb h0 h1 hnodes hwindow hne hlt hparent (by omega)).bind
      fun r hr => ?_
    obtain ⟨hext, hnext⟩ := hr
    refine (ih hext.good (h0.mono hext) (h1.mono hext) hnext (fun other hother => ?_)
      (by rw [hext.next_eq]; omega)).mono fun s hs => ?_
    · obtain ⟨hne', hlt', hparent'⟩ := hsuffixes other (List.mem_cons_of_mem _ hother)
      exact ⟨hne', hlt', .inl hparent'⟩
    · rw [Nat.add_comm (rest.length * _)]
      refine ⟨hext.trans hs.1, hs.2.mono fun node _ hnode => ?_⟩
      rcases hnode with hknown | hmem
      · exact .inl (.inl hknown)
      · rcases List.mem_cons.mp hmem with heq | hmem
        · exact .inl (.inr heq)
        · exact .inr hmem

/-- The nodes with at most a number of bits, by their number of bits. -/
def levelSuffixes (tileHeight depths : ℕ) : List ℕ :=
  (List.range' 1 depths).flatMap fun depth =>
    (List.range' 1 (2 ^ tileHeight - 1)).filter fun suffix => countOnes suffix = depth

/-- The edges of a tile, by the number of bits of their nodes. -/
theorem tileLevels_spec (hgadget : DirectGadget compress gadget)
    (hwindow : bitOffset + tileHeight ≤ indexBits) (depths : ℕ) (hb : b.Good)
    (h0 : b.Carries x c0 0) (h1 : b.Carries x c1 1)
    (hnodes : NodesCarry compress root bitOffset tileHeight x b (· = 0) nodes)
    (hfit : b.next + (levelSuffixes tileHeight depths).length * (gadget.gates.length + 1) ≤
      gateWireLimit) :
    Yields ((levelSuffixes tileHeight depths).foldlM (tileStep gadget c0 c1 bitOffset)
      (nodes, b)) fun r =>
      b.Extends ((levelSuffixes tileHeight depths).length * (gadget.gates.length + 1)) r.2 ∧
        NodesCarry compress root bitOffset tileHeight x r.2
          (fun node => countOnes node ≤ depths) r.1 := by
  have hheight : tileHeight ≤ 64 := by
    unfold indexBits at hwindow
    omega
  induction depths with
  | zero =>
    refine .ok ⟨by simpa [levelSuffixes] using hb.extends, hnodes.mono fun suffix hlt hzero => ?_⟩
    by_contra hne
    have hless := countOnes_parent hne (hlt.trans_le (Nat.pow_le_pow_right (by decide) hheight))
    omega
  | succ depths ih =>
    rw [levelSuffixes, List.range'_1_concat, List.flatMap_append,
      List.flatMap_singleton, ← levelSuffixes, List.length_append, Nat.add_mul] at hfit ⊢
    rw [List.foldlM_append]
    refine (ih (by omega)).bind fun r hr => ?_
    obtain ⟨hext, hlevel⟩ := hr
    refine (tileSteps_spec hgadget hwindow _ hext.good (h0.mono hext) (h1.mono hext) hlevel
      (fun suffix hmem => ?_)
      (by rw [hext.next_eq]; omega)).mono fun s hs => ?_
    · obtain ⟨hrange, hcount⟩ := List.mem_filter.mp hmem
      have hcount := of_decide_eq_true hcount
      obtain ⟨hpos, hlt⟩ := List.mem_range'_1.mp hrange
      have hne : suffix ≠ 0 := by omega
      have hlt : suffix < 2 ^ tileHeight := by
        have := Nat.two_pow_pos tileHeight
        omega
      have hless := countOnes_parent hne (hlt.trans_le (Nat.pow_le_pow_right (by decide) hheight))
      exact ⟨hne, hlt, by omega⟩
    · refine ⟨hext.trans hs.1, hs.2.mono fun node hlt hcount => ?_⟩
      rcases Nat.lt_or_ge depths (countOnes node) with hmore | hless
      · have hne : node ≠ 0 := by
          intro hzero
          rw [hzero, show countOnes 0 = 0 by decide] at hmore
          exact absurd hmore (Nat.not_lt_zero _)
        refine .inr (List.mem_filter.mpr ⟨List.mem_range'_1.mpr ⟨by omega, by omega⟩, ?_⟩)
        exact decide_eq_true (by omega)
      · exact .inl hless

/-- A tile ends with wires which carry the values of its leaves. -/
theorem tileGates_spec (hgadget : DirectGadget compress gadget)
    (hwindow : bitOffset + tileHeight ≤ indexBits)
    (hfit : valueBits + 2 + (2 ^ tileHeight - 1) * (gadget.gates.length + 1) + valueBits *
      2 ^ tileHeight ≤ gateWireLimit)
    (root : Value32) :
    Yields (tileGates gadget bitOffset tileHeight ⟨valueBits, []⟩) fun b =>
      b.Good ∧ b.numInputs = valueBits ∧ valueBits * 2 ^ tileHeight ≤ b.gates.length ∧
        List.Forall₂ (b.Carries (plainBits root))
          ((List.range (valueBits * 2 ^ tileHeight)).map (b.next - valueBits * 2 ^ tileHeight + ·))
          ((List.range (2 ^ tileHeight)).flatMap fun suffix =>
            (tileValue (sha256Digest compress) root bitOffset suffix).toBitsMsb) := by
  have hlength : (plainBits root).length = valueBits := plainBits_length root
  have hnew : next ⟨valueBits, []⟩ = valueBits := rfl
  have hpos := Nat.two_pow_pos tileHeight
  have hcount := Nat.mul_le_mul_right (gadget.gates.length + 1) (length_tileSuffixes_le tileHeight)
  have hgood : Good ⟨valueBits, []⟩ := new_good (by omega)
  -- The constant wires.
  have hx : plainBits root = [] ++ plainBits root ++ [] := (List.append_nil _).symm
  have hzero :
      Carries ⟨valueBits, []⟩ (plainBits root) 0 (bitByte ((plainBits root).getD 0 false)) := by
    have hinput := new_carries hx (k := 0) (by rw [hlength]; decide)
    rw [hlength] at hinput
    exact hinput
  obtain ⟨b0, hxor, hext0, hcar0⟩ := @xorW_spec _ hgood 0 0 hzero.lt_next hzero.lt_next (by omega)
  have hc0 := hcar0 _ _ _ hzero hzero
  rw [UInt8.xor_self] at hc0
  rw [tileGates, hxor]
  refine (invW_spec hext0.good hc0 (by rw [hext0.next_eq]; omega)).bind fun r1 hr1 => ?_
  obtain ⟨hext1, hc1⟩ := hr1
  have hext01 := hext0.trans hext1
  -- The nodes.
  have hvalue :
      List.Forall₂ (r1.2.Carries (plainBits root)) (List.range valueBits) root.toBitsMsb := by
    have hinputs := new_carries_value hx
    rw [hlength] at hinputs
    simpa using hinputs.imp fun _ _ h => h.mono hext01
  have hroot : NodesCarry compress root bitOffset tileHeight (plainBits root) r1.2 (· = 0)
      ((List.replicate (2 ^ tileHeight) []).set 0 (List.range valueBits)) := by
    refine ⟨by rw [List.length_set, List.length_replicate], fun suffix hlt hsuffix => ?_⟩
    subst hsuffix
    rw [List.getD_eq_getElem _ _ (by rw [List.length_set, List.length_replicate]; exact hpos),
      List.getElem_set_self,
      tileValue, Nat.zero_shiftLeft, show setBitsDesc 0 = [] by decide]
    exact hvalue
  refine (tileLevels_spec hgadget hwindow tileHeight hext1.good (hc0.mono hext1) hc1 hroot
    (by rw [hext01.next_eq]; change _ + (tileSuffixes tileHeight).length * _ ≤ _; omega)).bind
      fun r2 hr2 => ?_
  obtain ⟨leaves, b2⟩ := r2
  obtain ⟨hext2, hnodes⟩ := hr2
  have hext12 := hext1.trans hext2
  -- The leaves.
  have hleaves : List.Forall₂ (fun leaf suffix => List.Forall₂ (b2.Carries (plainBits root)) leaf
      (tileValue (sha256Digest compress) root bitOffset suffix).toBitsMsb) leaves
        (List.range (2 ^ tileHeight)) := by
    refine List.forall₂_iff_get.mpr
      ⟨hnodes.length.trans List.length_range.symm, fun suffix hlt hlt' => ?_⟩
    rw [List.get_eq_getElem, List.get_eq_getElem,
      List.getElem_range, ← List.getD_eq_getElem _ [] hlt]
    have hsuffix : suffix < 2 ^ tileHeight := hnodes.length ▸ hlt
    exact hnodes.carries suffix hsuffix (countOnes_le hsuffix)
  have htake : (leaves.take (2 ^ tileHeight)).flatMap (fun leaf => leaf.take valueBits) =
      leaves.flatten := by
    rw [List.take_of_length_le hnodes.length.le, List.flatten_eq_flatMap]
    refine List.flatMap_congr fun leaf hleaf => ?_
    obtain ⟨suffix, hlt, rfl⟩ := List.getElem_of_mem hleaf
    have hlen := (hleaves.get hlt (by rw [List.length_range]; exact hnodes.length ▸ hlt)).length_eq
    rw [List.get_eq_getElem] at hlen
    exact List.take_of_length_le (hlen.trans (Value32.toBitsMsb_length _)).le
  have hflat : List.Forall₂ (b2.Carries (plainBits root)) leaves.flatten
      ((List.range (2 ^ tileHeight)).flatMap fun suffix =>
        (tileValue (sha256Digest compress) root bitOffset suffix).toBitsMsb) := by
    rw [List.flatten_eq_flatMap]
    exact List.rel_flatMap hleaves fun _ _ h => h
  have hwires : leaves.flatten.length = valueBits * 2 ^ tileHeight := by
    rw [hflat.length_eq, List.length_flatMap, List.map_congr_left fun suffix _ =>
      Value32.toBitsMsb_length _,
      List.map_const', List.sum_replicate, List.length_range, smul_eq_mul, Nat.mul_comm]
    rfl
  -- The copies.
  simp only
  rw [← List.map_flatMap, htake]
  refine (copyWires_spec hext2.good hflat (hc0.mono hext12)
    (by rw [hext2.next_eq, hext01.next_eq, hwires, hnew]; change _ +
      (tileSuffixes tileHeight).length * _ + _ ≤ _; omega)).bind
      fun r3 hr3 => ?_
  rw [hwires] at hr3
  obtain ⟨hext3, hcopy⟩ := hr3
  have hext := (hext01.trans hext2).trans hext3
  refine .ok ⟨hext3.good, hext.numInputs, ?_, hcopy⟩
  have hgates := hext.next_eq
  rw [hnew, next, hext.numInputs] at hgates
  change valueBits + r3.2.gates.length = _ at hgates
  omega

end Ag2pcProgramBuilder

open Ag2pcProgramBuilder in
/-- A tile program returns the values of its leaves, each hashed from the root along its bits. -/
theorem tileFromSha_spec {compress : Block64 → Value32} {gadget : Circuit}
    (hgadget : DirectGadget compress gadget) {bitOffset tileHeight : ℕ} (hpos : 1 ≤ tileHeight)
    (hwindow : bitOffset + tileHeight ≤ indexBits)
    (hfit : valueBits + 2 + (2 ^ tileHeight - 1) * (gadget.gates.length + 1) + valueBits *
      2 ^ tileHeight ≤ gateWireLimit)
    (root : Value32) :
    Yields (tileFromSha gadget bitOffset tileHeight) fun program =>
      program.WellFormed ∧ program.numInputs = valueBits ∧
        program.evalPlain (plainBits root) = (List.range (2 ^ tileHeight)).flatMap fun suffix =>
          plainBits (tileValue (sha256Digest compress) root bitOffset suffix) := by
  have hvalid : validateShaGadget "BuildTileProgram" gadget = .ok () := by
    have hwidth : (checkedI32 (gadget.n1 + gadget.n2) : Outcome ProgramError ℤ) = .ok 512 := by
      rw [hgadget.width]
      exact checkedI32_ok (by decide) (by decide)
    rw [validateShaGadget, hwidth]
    exact if_neg (by rw [hgadget.outputs]; decide)
  have hsum : (checkedUsize (bitOffset + tileHeight) : Outcome ProgramError ℕ) =
      .ok (bitOffset + tileHeight) :=
    if_pos (by unfold indexBits at hwindow; omega)
  rw [tileFromSha, if_neg (by omega), hsum]
  simp only [bind, Except.bind]
  rw [if_neg (by omega), hvalid]
  refine (tileGates_spec hgadget hwindow hfit root).bind fun b hb => ?_
  obtain ⟨hgood, hinputs, hlen, hcarries⟩ := hb
  refine (finish_spec hgood (hinputs.trans (plainBits_length root).symm) hlen hcarries).mono
    fun program h => ?_
  refine ⟨h.1, h.2.1.trans (plainBits_length root), h.2.2.trans ?_⟩
  rw [List.map_flatMap]
  rfl

end Shachain2pc
