import Shachain2pc.Compat.CircuitConvertible
import Shachain2pc.Compat.GadgetFollows
import Shachain2pc.Circuit.ChunkCorrect

/-!
# The direct builders make the programs of the circuits

The program which `chunk_from_sha` or `tile_from_sha` builds is the one `from_circuit` makes
of the chunk or tile circuit. Of the gadget it is enough that it writes no wire twice and no
input: the direct builder itself checks that every wire is defined before it is read.
-/

namespace Shachain2pc

open Rust

/-- A gadget which writes no wire twice and no input. -/
structure SingleAssignment (gadget : Circuit) : Prop where
  numWire_le : gadget.numWire ≤ i32Max
  nodup : (gadget.gates.map fun g => asUsize g.out).Nodup
  writes : ∀ g ∈ gadget.gates, 512 ≤ asUsize g.out

variable {b : Ag2pcProgramBuilder} {c : Builder} {sha : Circuit}

/-- Corresponding slots hold corresponding values. -/
theorem readSlot_rel {A B E F : Type} {R : A → B → Prop} {xs : List A} {ys : List B}
    (h : List.Forall₂ R xs ys) {i : ℕ} {x : A} {y : B}
    (hx : (readSlot xs i : Outcome E A) = .ok x) (hy : (readSlot ys i : Outcome F B) = .ok y) :
    R x y := by
  induction h generalizing i with
  | nil => cases hx
  | cons hR _ ih =>
    cases i with
    | zero =>
      cases hx
      cases hy
      exact hR
    | succ i => exact ih hx hy

/-- Corresponding slots are overwritten with corresponding values. -/
theorem forall₂_set {A B : Type} {R : A → B → Prop} {xs : List A} {ys : List B}
    (h : List.Forall₂ R xs ys) (i : ℕ) {x : A} {y : B} (hR : R x y) :
    List.Forall₂ R (xs.set i x) (ys.set i y) := by
  induction h generalizing i with
  | nil => exact List.Forall₂.nil
  | cons hfirst hrest ih =>
    cases i with
    | zero => exact List.Forall₂.cons hR hrest
    | succ i => exact List.Forall₂.cons hfirst (ih i)

/-- The padding of a block corresponds. -/
theorem padWires_rel {w0 w1 : ℤ} {v0 v1 : ℕ} (h0 : Numbered b c w0 v0) (h1 : Numbered b c w1 v1) :
    List.Forall₂ (Numbered b c) (paddingWires w0 w1) (Ag2pcProgramBuilder.padWires v0 v1) := by
  rw [paddingWires, Ag2pcProgramBuilder.padWires, ag2pcPaddingBits, paddingBits,
    List.forall₂_map_left_iff, List.forall₂_map_right_iff, List.forall₂_same]
  intro bit _
  split
  · exact h1
  · exact h0

/-- Both builders make one edge. -/
theorem Follows.hashWires (h : Follows b c) (hsha : SingleAssignment sha)
    (hwidth : sha.n1 + sha.n2 = 512) (hn3 : sha.n3 = valueBits) {w0 w1 : ℤ} {v0 v1 : ℕ}
    (h0 : Numbered b c w0 v0) (h1 : Numbered b c w1 v1) {ws : List ℤ} {vs : List ℕ}
    (hws : List.Forall₂ (Numbered b c) ws vs) {bit : ℕ} {r : List ℕ × Ag2pcProgramBuilder}
    {s : List ℤ × Builder} (hp : Ag2pcProgramBuilder.hashWires sha v0 v1 (vs, b) bit = .ok r)
    (hc : c.hashWires sha w0 w1 ws bit = .ok s) :
    Advances b c r.2 s.2 ∧ List.Forall₂ (Numbered r.2 s.2) s.1 r.1 ∧ r.1.length = valueBits := by
  obtain ⟨v, hv, hp⟩ := bind_eq_ok hp
  obtain ⟨rinv, hpinv, hp⟩ := bind_eq_ok hp
  obtain ⟨w, hw, hc⟩ := bind_eq_ok hc
  obtain ⟨sinv, hcinv, hc⟩ := bind_eq_ok hc
  obtain ⟨hadv, hflip⟩ := h.invW (readSlot_rel hws hw hv) hpinv hcinv
  have hblock : List.Forall₂ (Numbered rinv.2 sinv.2)
      (ws.set (flipBitIndex bit) sinv.1 ++ paddingWires w0 w1)
      (vs.set (flipBitIndex bit) rinv.1 ++ Ag2pcProgramBuilder.padWires v0 v1) :=
    List.rel_append (forall₂_set (hadv.keeps_all hws) _ hflip)
      (padWires_rel (hadv.keeps _ _ h0) (hadv.keeps _ _ h1))
  have hwrites : ∀ g ∈ sha.gates,
      (ws.set (flipBitIndex bit) sinv.1 ++ paddingWires w0 w1).length ≤ asUsize g.out := by
    intro g hg
    have hge := hsha.writes g hg
    have hcount := (Ag2pcProgramBuilder.applyGadget_eq_ok hp).width
    simp only [ag2pcFlipBitIndex] at hcount
    rw [← hblock.length_eq, hwidth] at hcount
    omega
  obtain ⟨hadv', hout, hlen⟩ :=
    hadv.follows.applyGadget hsha.numWire_le hn3 hsha.nodup hwrites hblock hp hc
  exact ⟨hadv.trans hadv', hout, hlen⟩

/-- Both builders make the edges of a chunk. -/
theorem Follows.chunkSteps (h : Follows b c) (hsha : SingleAssignment sha)
    (hwidth : sha.n1 + sha.n2 = 512) (hn3 : sha.n3 = valueBits) {w0 w1 : ℤ} {v0 v1 : ℕ}
    (h0 : Numbered b c w0 v0) (h1 : Numbered b c w1 v1) {ws : List ℤ} {vs : List ℕ}
    (hws : List.Forall₂ (Numbered b c) ws vs) (hlen : vs.length = valueBits) {bits : List ℕ}
    {r : List ℕ × Ag2pcProgramBuilder} {s : List ℤ × Builder}
    (hp : bits.foldlM (Ag2pcProgramBuilder.hashWires sha v0 v1) (vs, b) = .ok r)
    (hc : bits.foldlM (Builder.chunkStep sha w0 w1) (ws, c) = .ok s) :
    Advances b c r.2 s.2 ∧ List.Forall₂ (Numbered r.2 s.2) s.1 r.1 ∧ r.1.length = valueBits := by
  induction bits generalizing b c ws vs with
  | nil =>
    cases hp
    cases hc
    exact ⟨h.refl, hws, hlen⟩
  | cons bit rest ih =>
    rw [List.foldlM_cons] at hp hc
    obtain ⟨r0, hp0, hp⟩ := bind_eq_ok hp
    obtain ⟨s0, hc0, hc⟩ := bind_eq_ok hc
    obtain ⟨hadv, hws', hlen'⟩ := h.hashWires hsha hwidth hn3 h0 h1 hws hp0 hc0
    obtain ⟨hadv', hws'', hlen''⟩ :=
      ih hadv.follows (hadv.keeps _ _ h0) (hadv.keeps _ _ h1) hws' hlen' hp hc
    exact ⟨hadv.trans hadv', hws'', hlen''⟩

/-- The last wires of both builders correspond. -/
structure Ends (b : Ag2pcProgramBuilder) (c : Builder) (count : ℕ) : Prop where
  follows : Follows b c
  last : ∀ k < count, Numbered b c (c.next - count + k) (b.next - count + k)
  room : count ≤ b.gates.length

/-- Both builders copy wires onto their last wires. -/
theorem Follows.copyOut (h : Follows b c) {w0 : ℤ} {v0 : ℕ} (h0 : Numbered b c w0 v0) {ws : List ℤ}
    {vs : List ℕ} (hws : List.Forall₂ (Numbered b c) ws vs) {r : List ℕ × Ag2pcProgramBuilder}
    {s : List ℤ × Builder} (hp : b.xorPairs (vs.map fun wire => (wire, v0)) = .ok r)
    (hc : c.xorPairs (ws.map fun wire => (wire, w0)) = .ok s) :
    Advances b c r.2 s.2 ∧ Ends r.2 s.2 vs.length := by
  have hpairs : List.Forall₂ (fun w v => Numbered b c w.1 v.1 ∧ Numbered b c w.2 v.2)
      (ws.map fun wire => (wire, w0)) (vs.map fun wire => (wire, v0)) := by
    rw [List.forall₂_map_left_iff, List.forall₂_map_right_iff]
    exact hws.imp fun _ _ hw => ⟨hw, h0⟩
  obtain ⟨hadv, hnew, hr, hs, hnext, hcounter⟩ := h.xorPairs hpairs hp hc
  rw [List.length_map] at hr hs hnext hcounter
  refine ⟨hadv, hadv.follows, fun k hk => ?_, ?_⟩
  · rw [hr, hs, List.forall₂_map_left_iff, List.forall₂_map_right_iff, List.forall₂_same] at hnew
    have hk := hnew k (List.mem_range.mpr hk)
    rw [hnext, hcounter, Nat.add_sub_cancel]
    simpa using hk
  · have hinputs := hadv.numInputs
    unfold Ag2pcProgramBuilder.next at hnext
    omega

/-- The last wires are wires of the circuit. -/
theorem Ends.count_le {count : ℕ} (h : Ends b c count) : (count : ℤ) ≤ c.next := by
  by_cases hzero : count = 0
  · have hle := h.follows.good.inputs_le
    omega
  · have hfirst := (h.last 0 (Nat.pos_of_ne_zero hzero)).nonneg
    simp only [Int.natCast_zero, add_zero] at hfirst
    omega

/-- The finished program is the one made of the finished circuit. -/
theorem Ends.fromCircuit_finish {count : ℕ} (h : Ends b c count) {n1 n2 n3 : ℤ} (hn1 : 0 ≤ n1)
    (hn2 : 0 ≤ n2) (hn3 : n3 = count) (hinputs : n1 + n2 = b.numInputs) (hpos : 0 < b.numInputs)
    (hsize : (c.finish n1 n2 n3).numWire < gateWireLimit) {p : Ag2pcProgram}
    (hp : b.finish count = .ok p) : fromCircuit (c.finish n1 n2 n3) = .ok p := by
  have hgood := h.follows.good
  have hle := hgood.inputs_le
  have hnext := hgood.asUsize_next
  have hfits := h.follows.next_le
  have hmax := hgood.next_le
  rw [List.length_replicate] at hle
  change c.next < gateWireLimit at hsize
  unfold Ag2pcProgramBuilder.finish at hp
  split at hp
  · cases hp
  rename_i hroom
  have hcount : count ≤ b.next := by
    unfold Ag2pcProgramBuilder.next
    omega
  have hcircuit := h.count_le
  have hcast : asUsize n3 = count := by
    rw [hn3]
    unfold i32Max at hmax
    exact asUsize_natCast (by omega)
  have hsum : asUsize n1 + asUsize n2 = b.numInputs := by
    unfold asUsize i32Max at *
    omega
  have hlast {k : ℕ} (hk : k < count) :
      programWire b.numInputs c.gates (asUsize c.next - count + k) = b.next - count + k ∧
        b.next - count + k < b.next := by
    have hnumbered := h.last k hk
    have hpos : asUsize (c.next - count + k) = asUsize c.next - count + k := by
      unfold asUsize i32Max at *
      omega
    rw [← hpos]
    exact ⟨hnumbered.number, hnumbered.lt⟩
  have hlength := h.follows.length
  have hconv : Convertible (c.finish n1 n2 n3) b.numInputs := by
    refine ⟨hn1, hn2, by rw [Builder.finish, hn3]; exact Int.natCast_nonneg _, ?_, hsum,
      ?_, ?_, ?_, ?_,
      ?_, h.follows.nonneg, hgood.inRange, h.follows.reads, fun k hk => ?_⟩
    · change 0 ≤ c.next
      omega
    · change 0 < asUsize c.next
      omega
    · change asUsize c.next < gateWireLimit
      omega
    · change b.numInputs ≤ asUsize c.next
      omega
    · change asUsize n3 ≤ asUsize c.next
      omega
    · change b.numInputs + c.gates.length ≤ _
      rw [← hlength]
      exact hfits
    · change k < asUsize n3 at hk
      change programWire b.numInputs c.gates (asUsize c.next - asUsize n3 + k) ≠ unmapped
      rw [hcast] at hk ⊢
      rw [(hlast hk).1]
      exact h.follows.ne_unmapped (hlast hk).2
  have houts : (List.range count).map (fun k => b.numInputs + b.gates.length - count + k) =
      (List.range count).map fun k =>
        programWire b.numInputs c.gates (asUsize c.next - count + k) :=
    List.map_congr_left fun k hk => (hlast (List.mem_range.mp hk)).1.symm
  rw [hconv.fromCircuit_eq, ← Except.ok.inj hp, houts, h.follows.gates, List.length_map, ← hcast]
  rfl

/-- The wires a chunk starts from correspond. -/
theorem Follows.startWires (h : Follows b c) {first : Bool}
    (hinputs : ∀ w < if first then 2 * valueBits else valueBits, Numbered b c w w)
    {r : List ℕ × Ag2pcProgramBuilder} {s : List ℤ × Builder} (hp : b.startWires first = .ok r)
    (hc : c.startWires first = .ok s) :
    Advances b c r.2 s.2 ∧ List.Forall₂ (Numbered r.2 s.2) s.1 r.1 ∧ r.1.length = valueBits := by
  cases first with
  | true =>
    have hpairs : List.Forall₂ (fun w v => Numbered b c w.1 v.1 ∧ Numbered b c w.2 v.2)
        Builder.sharePairs ((List.range valueBits).map fun i => (i, valueBits + i)) := by
      rw [Builder.sharePairs, List.forall₂_map_left_iff, List.forall₂_map_right_iff,
        List.forall₂_same]
      intro i hi
      have hi := List.mem_range.mp hi
      have hsecond := hinputs (valueBits + i) (by simp only [if_true]; omega)
      push_cast at hsecond
      exact ⟨hinputs i (by simp only [if_true]; omega), hsecond⟩
    obtain ⟨hadv, hws, hr, -⟩ := h.xorPairs hpairs hp hc
    exact ⟨hadv, hws, by simp [hr]⟩
  | false =>
    cases hp
    cases hc
    refine ⟨h.refl, ?_, by simp only [List.length_range]⟩
    rw [Builder.valueWires, List.forall₂_map_left_iff, List.forall₂_same]
    exact fun i hi => hinputs i (List.mem_range.mp hi)

/-- The gates of a chunk correspond. -/
theorem Follows.chunkGates (h : Follows b c) (hsha : SingleAssignment sha)
    (hwidth : sha.n1 + sha.n2 = 512) (hn3 : sha.n3 = valueBits) {first : Bool}
    (hinputs : ∀ w < if first then 2 * valueBits else valueBits, Numbered b c w w) {bits : List ℕ}
    {b' : Ag2pcProgramBuilder} {c' : Builder}
    (hp : Ag2pcProgramBuilder.chunkGates sha bits first b = .ok b')
    (hc : Builder.chunkGates sha bits first c = .ok c') :
    b'.numInputs = b.numInputs ∧ Ends b' c' valueBits := by
  obtain ⟨r0, hp0, hp⟩ := bind_eq_ok hp
  obtain ⟨r1, hp1, hp⟩ := bind_eq_ok hp
  obtain ⟨r2, hp2, hp⟩ := bind_eq_ok hp
  obtain ⟨r3, hp3, hp⟩ := bind_eq_ok hp
  obtain ⟨r4, hp4, hp⟩ := bind_eq_ok hp
  obtain ⟨s0, hc0, hc⟩ := bind_eq_ok hc
  obtain ⟨s1, hc1, hc⟩ := bind_eq_ok hc
  obtain ⟨s2, hc2, hc⟩ := bind_eq_ok hc
  obtain ⟨s3, hc3, hc⟩ := bind_eq_ok hc
  obtain ⟨s4, hc4, hc⟩ := bind_eq_ok hc
  cases hp
  cases hc
  have hzero : Numbered b c 0 0 := hinputs 0 (by cases first <;> decide)
  obtain ⟨hadv0, hw0, -⟩ := h.xorW hzero hzero hp0 hc0
  obtain ⟨hadv1, hw1⟩ := hadv0.follows.invW hw0 hp1 hc1
  have hadv01 := hadv0.trans hadv1
  obtain ⟨hadv2, hws2, hlen2⟩ :=
    hadv1.follows.startWires (fun w hw => hadv01.keeps _ _ (hinputs w hw)) hp2 hc2
  have hadv12 := hadv1.trans hadv2
  obtain ⟨hadv3, hws3, hlen3⟩ := hadv2.follows.chunkSteps hsha hwidth hn3 (hadv12.keeps _ _ hw0)
    (hadv2.keeps _ _ hw1) hws2 hlen2 hp3 hc3
  obtain ⟨hadv4, hends⟩ := hadv3.follows.copyOut ((hadv12.trans hadv3).keeps _ _ hw0)
    (List.forall₂_take valueBits hws3) hp4 hc4
  rw [List.length_take, hlen3, Nat.min_self] at hends
  exact ⟨((hadv01.trans hadv2).trans (hadv3.trans hadv4)).numInputs, hends⟩

/-- The direct chunk program is the program of the chunk circuit. -/
theorem chunkFromSha_eq_fromCircuit (hsha : SingleAssignment sha) {bits : List ℕ} {first : Bool}
    {p : Ag2pcProgram} {circuit : Circuit} (hp : chunkFromSha sha bits first = .ok p)
    (hc : buildChunkCircuit sha bits first = .ok circuit)
    (hsize : circuit.numWire < gateWireLimit) :
    fromCircuit circuit = .ok p := by
  obtain ⟨width, hwidth, hc⟩ := bind_eq_ok hc
  obtain ⟨rfl, -⟩ := checkedI32_eq_ok hwidth
  split at hc
  · cases hc
  rename_i hshape
  rw [not_or, not_not, not_not] at hshape
  split at hc
  · cases hc
  obtain ⟨c', hgates', hfinish'⟩ := bind_eq_ok hc
  cases hfinish'
  obtain ⟨-, -, hp⟩ := bind_eq_ok hp
  split at hp
  · cases hp
  obtain ⟨b', hgates, hfinish⟩ := bind_eq_ok hp
  have hnew : ((if first then 2 * valueBits else valueBits : ℕ) : ℤ) =
      if first then 2 * (valueBits : ℤ) else valueBits := by cases first <;> rfl
  rw [← hnew] at hgates'
  have hlimit : (if first then 2 * valueBits else valueBits) ≤ gateWireLimit := by
    cases first <;> decide
  obtain ⟨hinputs, hends⟩ := (Follows.new hlimit).chunkGates hsha hshape.1 hshape.2
    (fun w hw => Numbered.input hw hlimit) hgates hgates'
  refine hends.fromCircuit_finish (Int.natCast_nonneg _) ?_ rfl ?_ ?_ hsize hfinish
  · cases first <;> decide
  · rw [hinputs]
    cases first <;> rfl
  · rw [hinputs]
    cases first <;> decide

/-! ## Tiles -/

/-- The suffixes of a tile are its nonzero numbers. -/
theorem mem_tileSuffixes {tileHeight suffix : ℕ} (hheight : tileHeight ≤ indexBits)
    (hpos : 0 < suffix) (hlt : suffix < 2 ^ tileHeight) : suffix ∈ tileSuffixes tileHeight := by
  have hbits (bit : ℕ) (hbit : suffix.testBit bit = true) : bit < tileHeight := by
    by_contra hge
    rw [Nat.testBit_lt_two_pow (hlt.trans_le (Nat.pow_le_pow_right (by decide)
      (Nat.le_of_not_lt hge)))] at hbit
    cases hbit
  have hlow : 0 < countOnes suffix := by
    obtain ⟨bit, hbit⟩ := Nat.exists_testBit_of_ne_zero hpos.ne'
    have hlt64 := (hbits bit hbit).trans_le hheight
    unfold indexBits at hlt64
    exact List.length_pos_of_mem (List.mem_filter.mpr ⟨List.mem_range.mpr (by omega), hbit⟩)
  have hhigh : countOnes suffix ≤ tileHeight := by
    have hsub : (List.range 64).filter (suffix.testBit ·) ⊆ List.range tileHeight := fun bit hmem =>
      List.mem_range.mpr (hbits bit (List.mem_filter.mp hmem).2)
    have hle := (List.nodup_range.filter (suffix.testBit ·)).subperm hsub |>.length_le
    rw [List.length_range] at hle
    exact hle
  rw [tileSuffixes, List.mem_flatMap]
  refine ⟨countOnes suffix, List.mem_range'_1.mpr ⟨hlow, by omega⟩, List.mem_filter.mpr
    ⟨List.mem_range'_1.mpr ⟨hpos, by omega⟩, by simp⟩⟩

/-- Both builders make the edges of a tile, and every node they reach has the wires of a value. -/
theorem Follows.tileSteps (h : Follows b c) (hsha : SingleAssignment sha)
    (hwidth : sha.n1 + sha.n2 = 512) (hn3 : sha.n3 = valueBits) {w0 w1 : ℤ} {v0 v1 : ℕ}
    (h0 : Numbered b c w0 v0) (h1 : Numbered b c w1 v1) {nodes' : List (List ℤ)}
    {nodes : List (List ℕ)} (hnodes : List.Forall₂ (List.Forall₂ (Numbered b c)) nodes' nodes)
    {bitOffset : ℕ} {suffixes : List ℕ} {r : List (List ℕ) × Ag2pcProgramBuilder}
    {s : List (List ℤ) × Builder}
    (hp : suffixes.foldlM (Ag2pcProgramBuilder.tileStep sha v0 v1 bitOffset) (nodes, b) = .ok r)
    (hc : suffixes.foldlM (Builder.tileStep sha w0 w1 bitOffset) (nodes', c) = .ok s) :
    Advances b c r.2 s.2 ∧ List.Forall₂ (List.Forall₂ (Numbered r.2 s.2)) s.1 r.1 ∧
      r.1.length = nodes.length ∧ ∀ i, i ∈ suffixes ∨ (nodes.getD i []).length = valueBits →
        (r.1.getD i []).length = valueBits := by
  induction suffixes generalizing b c nodes nodes' with
  | nil =>
    cases hp
    cases hc
    exact ⟨h.refl, hnodes, rfl, fun i hi => hi.resolve_left List.not_mem_nil⟩
  | cons suffix rest ih =>
    rw [List.foldlM_cons] at hp hc
    obtain ⟨r0, hp0, hp⟩ := bind_eq_ok hp
    obtain ⟨s0, hc0, hc⟩ := bind_eq_ok hc
    obtain ⟨vs, hvs, hp0⟩ := bind_eq_ok hp0
    obtain ⟨r1, hp1, hp0⟩ := bind_eq_ok hp0
    obtain ⟨node, hnode, hp0⟩ := bind_eq_ok hp0
    obtain ⟨ws, hws, hc0⟩ := bind_eq_ok hc0
    obtain ⟨s1, hc1, hc0⟩ := bind_eq_ok hc0
    obtain ⟨node', hnode', hc0⟩ := bind_eq_ok hc0
    cases hp0
    cases hc0
    obtain ⟨hadv, hout, hlen⟩ :=
      h.hashWires hsha hwidth hn3 h0 h1 (readSlot_rel hnodes hws hvs) hp1 hc1
    obtain ⟨hlt, rfl⟩ := writeSlot_eq_ok hnode
    obtain ⟨-, rfl⟩ := writeSlot_eq_ok hnode'
    have hkeep := forall₂_set (hnodes.imp fun _ _ hw => hadv.keeps_all hw) suffix hout
    obtain ⟨hadv', hnodes', hlength, hvalues⟩ :=
      ih hadv.follows (hadv.keeps _ _ h0) (hadv.keeps _ _ h1) hkeep hp hc
    refine ⟨hadv.trans hadv', hnodes', hlength.trans List.length_set, fun i hi => hvalues i ?_⟩
    by_cases heq : suffix = i
    · subst heq
      right
      simpa [List.getD_eq_getElem?_getD, hlt] using hlen
    · rw [List.getD_eq_getElem?_getD, List.getElem?_set_ne heq, ← List.getD_eq_getElem?_getD]
      exact hi.imp_left fun hmem => (List.mem_cons.mp hmem).resolve_left (Ne.symm heq)

/-- The gates of a tile correspond. -/
theorem Follows.tileGates (h : Follows b c) (hsha : SingleAssignment sha)
    (hwidth : sha.n1 + sha.n2 = 512) (hn3 : sha.n3 = valueBits)
    (hinputs : ∀ w < valueBits, Numbered b c w w) {bitOffset tileHeight : ℕ}
    (hheight : tileHeight ≤ indexBits) {b' : Ag2pcProgramBuilder} {c' : Builder}
    (hp : Ag2pcProgramBuilder.tileGates sha bitOffset tileHeight b = .ok b')
    (hc : Builder.tileGates sha bitOffset tileHeight c = .ok c') :
    b'.numInputs = b.numInputs ∧ Ends b' c' (valueBits * 2 ^ tileHeight) := by
  obtain ⟨r0, hp0, hp⟩ := bind_eq_ok hp
  obtain ⟨r1, hp1, hp⟩ := bind_eq_ok hp
  obtain ⟨r2, hp2, hp⟩ := bind_eq_ok hp
  obtain ⟨r3, hp3, hp⟩ := bind_eq_ok hp
  obtain ⟨s0, hc0, hc⟩ := bind_eq_ok hc
  obtain ⟨s1, hc1, hc⟩ := bind_eq_ok hc
  obtain ⟨s2, hc2, hc⟩ := bind_eq_ok hc
  obtain ⟨s3, hc3, hc⟩ := bind_eq_ok hc
  cases hp
  cases hc
  have hzero : Numbered b c 0 0 := hinputs 0 (by decide)
  obtain ⟨hadv0, hw0, -⟩ := h.xorW hzero hzero hp0 hc0
  obtain ⟨hadv1, hw1⟩ := hadv0.follows.invW hw0 hp1 hc1
  have hadv01 := hadv0.trans hadv1
  -- The nodes.
  have hroot : List.Forall₂ (Numbered r1.2 s1.2) Builder.valueWires (List.range valueBits) := by
    rw [Builder.valueWires, List.forall₂_map_left_iff, List.forall₂_same]
    exact fun i hi => hadv01.keeps _ _ (hinputs i (List.mem_range.mp hi))
  have hempty : List.Forall₂ (List.Forall₂ (Numbered r1.2 s1.2))
      (List.replicate (2 ^ tileHeight) []) (List.replicate (2 ^ tileHeight) []) := by
    refine List.forall₂_iff_get.mpr ⟨by simp only [List.length_replicate], fun i hi hi' => ?_⟩
    simp only [List.get_eq_getElem, List.getElem_replicate]
    exact List.Forall₂.nil
  obtain ⟨hadv2, hnodes, hlength, hvalues⟩ := hadv1.follows.tileSteps hsha hwidth hn3
    (hadv1.keeps _ _ hw0) hw1 (forall₂_set hempty 0 hroot) hp2 hc2
  rw [List.length_set, List.length_replicate] at hlength
  have hleaf : ∀ leaf ∈ r2.1.take (2 ^ tileHeight), (leaf.take valueBits).length = valueBits := by
    intro leaf hmem
    obtain ⟨i, hi, rfl⟩ := List.getElem_of_mem (List.mem_of_mem_take hmem)
    have hnode : (r2.1.getD i []).length = valueBits := by
      refine hvalues i ?_
      rcases Nat.eq_zero_or_pos i with rfl | hpos
      · right
        simp
      · exact .inl (mem_tileSuffixes hheight hpos (hlength ▸ hi))
    rw [List.getD_eq_getElem _ _ hi] at hnode
    rw [List.length_take, hnode, Nat.min_self]
  -- The copies.
  have hwires : List.Forall₂ (Numbered r2.2 s2.2)
      ((s2.1.take (2 ^ tileHeight)).flatMap fun leaf => leaf.take valueBits)
      ((r2.1.take (2 ^ tileHeight)).flatMap fun leaf => leaf.take valueBits) :=
    List.rel_flatMap (List.forall₂_take _ hnodes) fun _ _ hleaf => List.forall₂_take valueBits hleaf
  have hcount : ((r2.1.take (2 ^ tileHeight)).flatMap fun leaf => leaf.take valueBits).length =
      valueBits * 2 ^ tileHeight := by
    rw [List.length_flatMap, List.map_congr_left hleaf, List.map_const', List.sum_replicate,
      List.length_take, hlength, Nat.min_self, smul_eq_mul, Nat.mul_comm]
  rw [← List.map_flatMap] at hp3 hc3
  obtain ⟨hadv3, hends⟩ :=
    hadv2.follows.copyOut ((hadv1.trans hadv2).keeps _ _ hw0) hwires hp3 hc3
  rw [hcount] at hends
  exact ⟨((hadv01.trans hadv2).trans hadv3).numInputs, hends⟩

/-- The direct tile program is the program of the tile circuit. -/
theorem tileFromSha_eq_fromCircuit (hsha : SingleAssignment sha) {bitOffset tileHeight : ℕ}
    {p : Ag2pcProgram} {circuit : Circuit} (hp : tileFromSha sha bitOffset tileHeight = .ok p)
    (hc : buildTileCircuit sha bitOffset tileHeight = .ok circuit)
    (hsize : circuit.numWire < gateWireLimit) : fromCircuit circuit = .ok p := by
  unfold buildTileCircuit at hc
  unfold tileFromSha at hp
  split at hc
  · cases hc
  rename_i hheight
  rw [if_neg hheight] at hp
  obtain ⟨window, -, hc⟩ := bind_eq_ok hc
  split at hc
  · cases hc
  obtain ⟨width, hwidth, hc⟩ := bind_eq_ok hc
  obtain ⟨rfl, -⟩ := checkedI32_eq_ok hwidth
  split at hc
  · cases hc
  rename_i hshape
  rw [not_or, not_not, not_not] at hshape
  obtain ⟨c', hgates', hfinish'⟩ := bind_eq_ok hc
  cases hfinish'
  obtain ⟨window', -, hp⟩ := bind_eq_ok hp
  split at hp
  · cases hp
  obtain ⟨-, -, hp⟩ := bind_eq_ok hp
  obtain ⟨b', hgates, hfinish⟩ := bind_eq_ok hp
  obtain ⟨hinputs, hends⟩ :=
    (Follows.new (n := valueBits) (by decide)).tileGates hsha hshape.1 hshape.2
    (fun w hw => Numbered.input hw (by decide)) (by omega) hgates hgates'
  have hn3 : wrapI32 (valueBits * 2 ^ tileHeight : ℕ) = (valueBits * 2 ^ tileHeight : ℕ) := by
    have hle := hends.count_le
    have hmax := hends.follows.good.next_le
    unfold wrapI32
    unfold i32Max at hmax
    omega
  refine hends.fromCircuit_finish (Int.natCast_nonneg _) le_rfl hn3 ?_ ?_ hsize hfinish
  · rw [hinputs]
    rfl
  · rw [hinputs]
    decide

/-- The direct builders make the programs which `from_circuit` makes of the circuits, for every
chunk and every tile that both accept. -/
theorem directPrograms_eq_fromCircuit (hsha : SingleAssignment sha) :
    (∀ bits first p circuit, chunkFromSha sha bits first = .ok p →
      buildChunkCircuit sha bits first = .ok circuit → circuit.numWire < gateWireLimit →
        fromCircuit circuit = .ok p) ∧
    ∀ bitOffset tileHeight p circuit, tileFromSha sha bitOffset tileHeight = .ok p →
      buildTileCircuit sha bitOffset tileHeight = .ok circuit → circuit.numWire < gateWireLimit →
        fromCircuit circuit = .ok p :=
  ⟨fun _ _ _ _ => chunkFromSha_eq_fromCircuit hsha, fun _ _ _ _ => tileFromSha_eq_fromCircuit hsha⟩

/-- A compression gadget writes no wire twice and no input. -/
theorem CompressionGadget.assignsOnce {compress : Block64 → Value32}
    (hgadget : CompressionGadget compress sha) : SingleAssignment sha :=
  ⟨hgadget.numWire_i32.2, hgadget.singleAssignment, hgadget.writes⟩

/-- Both builders accept a first chunk of one edge with a constant gadget, and their programs
agree. -/
theorem directPrograms_eq_constant :
    ∃ p circuit, chunkFromSha (constantGadget 770 ⟨.replicate 32 0⟩) [0] true = .ok p ∧
      buildChunkCircuit (constantGadget 770 ⟨.replicate 32 0⟩) [0] true = .ok circuit ∧
        fromCircuit circuit = .ok p := by
  have hgadget := constantGadget_direct ⟨.replicate 32 0⟩
  have hbits : ∀ bit ∈ [0], bit < indexBits := by decide
  obtain ⟨p, hp, -⟩ := chunkFromSha_spec hgadget hbits (by decide)
    (.shares ⟨.replicate 32 0⟩ ⟨.replicate 32 0⟩)
  obtain ⟨circuit, hc, hnumWire, -⟩ :=
    buildChunkCircuit_correct (n := 770) hgadget.toCompressionGadget rfl
    hbits (.shares ⟨.replicate 32 0⟩ ⟨.replicate 32 0⟩) (by decide)
  exact ⟨p, circuit, hp, hc,
    (directPrograms_eq_fromCircuit hgadget.toCompressionGadget.assignsOnce).1
    [0] true p circuit hp hc (hnumWire.trans_lt (by decide))⟩

end Shachain2pc
