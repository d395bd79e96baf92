import Shachain2pc.Compat.ProgramGadget

/-!
# Chunk programs

`chunk_from_sha` builds the program of a few derivation edges. The first chunk takes the
two shares of the seed and XORs them; every other chunk takes the wires of a value. After
the edges the program copies the value, so that its outputs are its last wires.
-/

namespace Shachain2pc

open Rust

/-- `ag2pc_padding_bits`. -/
def ag2pcPaddingBits : List UInt8 := bitsMsb paddingBytes

/-- `ag2pc_flip_bit_index`. -/
def ag2pcFlipBitIndex (bit : ℕ) : ℕ := flipBitIndex bit

/-- `validate_sha_gadget`. -/
def validateShaGadget (name : String) (sha : Circuit) : Outcome ProgramError Unit := do
  let width ← checkedI32 (sha.n1 + sha.n2)
  if width ≠ 512 ∨ sha.n3 ≠ valueBits then badProgram s!"{name}: gadget is not 512->256"
  else .ok ()

namespace Ag2pcProgramBuilder

/-- XOR pairs of wires onto consecutive fresh wires. -/
def xorPairs (b : Ag2pcProgramBuilder) : List (ℕ × ℕ) →
    Outcome ProgramError (List ℕ × Ag2pcProgramBuilder)
  | [] => .ok ([], b)
  | (in0, in1) :: rest => do
    let (out, b) ← b.xorW in0 in1
    let (outs, b) ← b.xorPairs rest
    .ok (out :: outs, b)

/-- The wires a chunk starts from. -/
def startWires (b : Ag2pcProgramBuilder) (first : Bool) :
    Outcome ProgramError (List ℕ × Ag2pcProgramBuilder) :=
  if first then b.xorPairs ((List.range valueBits).map fun i => (i, valueBits + i))
  else .ok (List.range valueBits, b)

/-- The constant wires which spell the padding block. -/
def padWires (c0 c1 : ℕ) : List ℕ := ag2pcPaddingBits.map fun bit => if bit ≠ 0 then c1 else c0

/-- One derivation edge: flip a bit of the value and hash it. -/
def hashWires (sha : Circuit) (c0 c1 : ℕ) (s : List ℕ × Ag2pcProgramBuilder) (bit : ℕ) :
    Outcome ProgramError (List ℕ × Ag2pcProgramBuilder) := do
  let wire ← readSlot s.1 (ag2pcFlipBitIndex bit)
  let (flipped, b) ← s.2.invW wire
  b.applyGadget sha (s.1.set (ag2pcFlipBitIndex bit) flipped ++ padWires c0 c1)

/-- The gates of a chunk. -/
def chunkGates (sha : Circuit) (chainBits : List ℕ) (first : Bool) (b : Ag2pcProgramBuilder) :
    Outcome ProgramError Ag2pcProgramBuilder := do
  let (c0, b) ← b.xorW 0 0
  let (c1, b) ← b.invW c0
  let s ← b.startWires first
  let (p, b) ← chainBits.foldlM (hashWires sha c0 c1) s
  let (_, b) ← b.xorPairs ((p.take valueBits).map fun wire => (wire, c0))
  .ok b

end Ag2pcProgramBuilder

open Ag2pcProgramBuilder in
/-- `Ag2pcProgram::chunk_from_sha`. -/
def chunkFromSha (sha : Circuit) (chainBits : List ℕ) (first : Bool) :
    Outcome ProgramError Ag2pcProgram := do
  validateShaGadget "BuildChunkProgram" sha
  if chainBits.any (indexBits ≤ ·) then
    badProgram "BuildChunkProgram: chain bit exceeds 48 bits"
  else do
    let b ← chunkGates sha chainBits first ⟨if first then 2 * valueBits else valueBits, []⟩
    b.finish valueBits

/-- The bits of a value, most significant bit of each byte first. -/
def plainBits (v : Value32) : List Bool := v.toBitsMsb.map (· != 0)

/-- The inputs of a chunk and the value it starts from. -/
inductive ChunkInput : Bool → List Bool → Value32 → Prop where
  | shares (a b : Value32) : ChunkInput true (plainBits a ++ plainBits b) (a.xor b)
  | value (v : Value32) : ChunkInput false (plainBits v) v

/-- Every value has 256 bits. -/
@[simp] theorem plainBits_length (v : Value32) : (plainBits v).length = 256 := by
  simp [plainBits]

/-- A single bit is the byte of its truth value. -/
theorem bitByte_bne {v : UInt8} (hv : v = 0 ∨ v = 1) : bitByte (v != 0) = v := by
  rcases hv with rfl | rfl <;> rfl

/-- The inputs of a chunk are two values or one. -/
theorem ChunkInput.length {first : Bool} {x : List Bool} {v : Value32} (h : ChunkInput first x v) :
    x.length = if first then 2 * valueBits else valueBits := by
  cases h with
  | shares a b => simp [valueBits]
  | value v => simp [valueBits]

namespace Ag2pcProgramBuilder

variable {x : List Bool} {b : Ag2pcProgramBuilder} {w : ℕ} {v : UInt8}

/-- An inverter on a numbered wire can be pushed, unless the program is full. -/
theorem invW_spec (hb : b.Good) (hw : b.Carries x w v) (hfit : b.next < gateWireLimit) :
    Yields (b.invW w) fun r => b.Extends 1 r.2 ∧ r.2.Carries x r.1 (v ^^^ 1) := by
  have hreads : ∀ u ∈ Ag2pcProgramGate.reads ⟨.inv, w, 0⟩, u < b.next := by
    intro u hu
    rcases (Ag2pcProgramGate.mem_reads _).mp hu with rfl | rfl
    · exact hw.lt_next
    · exact hw.lt_next
  obtain ⟨hpush, hextends⟩ := pushGate_spec hb hreads hfit
  exact ⟨_, hpush, hextends,
    show Carries ⟨_, b.gates ++ [⟨.inv, w, 0⟩]⟩ x _ _ from carries_push hw hw⟩

/-- XORed pairs are consecutive fresh wires carrying the pairwise XORs. -/
theorem xorPairs_spec (hb : b.Good) {pairs : List (ℕ × ℕ)} {left right : List UInt8}
    (hleft : List.Forall₂ (b.Carries x) (pairs.map Prod.fst) left)
    (hright : List.Forall₂ (b.Carries x) (pairs.map Prod.snd) right)
    (hfit : b.next + pairs.length ≤ gateWireLimit) :
    Yields (b.xorPairs pairs) fun r =>
      b.Extends pairs.length r.2 ∧ r.1 = (List.range pairs.length).map (b.next + ·) ∧
        List.Forall₂ (r.2.Carries x) r.1 (List.zipWith (· ^^^ ·) left right) := by
  induction pairs generalizing b left right with
  | nil =>
    simp only [List.map_nil, List.forall₂_nil_left_iff] at hleft
    rw [hleft]
    exact .ok ⟨hb.extends, rfl, List.Forall₂.nil⟩
  | cons pair rest ih =>
    simp only [List.map_cons, List.length_cons] at hleft hright hfit
    cases hleft with
    | cons h0 hleft =>
      cases hright with
      | cons h1 hright =>
        obtain ⟨b', hxor, hext, hcar⟩ := xorW_spec hb h0.lt_next h1.lt_next (by omega)
        have hnext := hext.next_eq
        obtain ⟨r, hrun, hext', houts, hcars⟩ := ih hext.good (hleft.imp fun _ _ h => h.mono hext)
          (hright.imp fun _ _ h => h.mono hext) (by omega)
        refine ⟨(b.next :: r.1, r.2), ?_, ?_, ?_, ?_⟩
        · rw [xorPairs, hxor]
          simp only [bind, Except.bind]
          rw [hrun]
        · rw [List.length_cons, Nat.add_comm]
          exact hext.trans hext'
        · rw [houts, hnext, List.length_cons, List.range_succ_eq_map, List.map_cons, List.map_map]
          refine congrArg (b.next :: ·) (List.map_congr_left fun k _ => ?_)
          simp only [Function.comp_apply]
          omega
        · exact List.Forall₂.cons ((hcar x _ _ h0 h1).mono hext') hcars

/-- The padding wires carry the padding bits. -/
theorem padWires_carry {c0 c1 : ℕ} (h0 : b.Carries x c0 0) (h1 : b.Carries x c1 1) :
    List.Forall₂ (b.Carries x) (padWires c0 c1) (bitsMsb sha256Padding) := by
  rw [padWires, ag2pcPaddingBits, paddingBytes_eq, List.forall₂_map_left_iff, List.forall₂_same]
  intro bit hbit
  rcases eq_zero_or_one_of_mem_bitsMsb hbit with rfl | rfl
  · exact h0
  · exact h1

variable {compress : Block64 → Value32} {gadget : Circuit}

/-- One edge extends the program by an inverter and a gadget, and hashes the value. -/
theorem hashWires_spec (hgadget : DirectGadget compress gadget) (hb : b.Good) {c0 c1 : ℕ}
    (h0 : b.Carries x c0 0) (h1 : b.Carries x c1 1) {p : List ℕ} {v : Value32}
    (hp : List.Forall₂ (b.Carries x) p v.toBitsMsb) {bit : ℕ} (hbit : bit < indexBits)
    (hfit : b.next + (gadget.gates.length + 1) ≤ gateWireLimit) :
    Yields (hashWires gadget c0 c1 (p, b) bit) fun r =>
      b.Extends (gadget.gates.length + 1) r.2 ∧
        List.Forall₂ (r.2.Carries x) r.1 (hashBit (sha256Digest compress) v bit).toBitsMsb := by
  have hplen : p.length = 256 := hp.length_eq.trans (by simp)
  have hidx : flipBitIndex bit < 256 := by
    unfold flipBitIndex
    unfold indexBits at hbit
    omega
  -- Flip one wire.
  have hread : (readSlot p (ag2pcFlipBitIndex bit) : Outcome ProgramError ℕ) =
      .ok p[flipBitIndex bit] := by
    simp [readSlot, ag2pcFlipBitIndex, hplen, hidx]
  have hwire := hp.get (i := flipBitIndex bit) (by omega) (by simpa using hidx)
  simp only [List.get_eq_getElem] at hwire
  rw [hashWires, hread]
  refine (invW_spec hb hwire (by omega)).bind fun r hr => ?_
  obtain ⟨hext, hcar⟩ := hr
  have hflip : List.Forall₂ (r.2.Carries x) (p.set (flipBitIndex bit) r.1)
      (v.flipBit bit).toBitsMsb := by
    rw [toBitsMsb_flipBit]
    apply List.forall₂_iff_get.mpr
    refine ⟨by simp [hplen], fun i hi hi' => ?_⟩
    simp only [List.get_eq_getElem, List.getElem_set, List.getElem_modify]
    by_cases hi0 : flipBitIndex bit = i
    · subst hi0
      simpa using hcar
    · have hi1 : i < p.length := by simpa using hi
      simp only [if_neg hi0]
      exact (hp.get hi1 (by simpa [hplen] using hi1)).mono hext
  -- Hash the block.
  have hvals : List.Forall₂ (r.2.Carries x) (p.set (flipBitIndex bit) r.1 ++ padWires c0 c1)
      (bitsMsb ((v.flipBit bit).bytes ++ sha256Padding)) := by
    rw [bitsMsb_append]
    exact List.rel_append hflip (padWires_carry (h0.mono hext) (h1.mono hext))
  refine (applyGadget_spec hgadget hext.good hvals (by rw [hext.next_eq]; omega)).mono fun s hs =>
    ?_
  obtain ⟨hext', hcars⟩ := hs
  rw [Nat.add_comm gadget.gates.length]
  exact ⟨hext.trans hext', hcars⟩

/-- The edges of a chunk hash along its bits. -/
theorem hashLoop_spec (hgadget : DirectGadget compress gadget) (bits : List ℕ)
    (hbits : ∀ bit ∈ bits, bit < indexBits) (hb : b.Good) {c0 c1 : ℕ} (h0 : b.Carries x c0 0)
    (h1 : b.Carries x c1 1) {p : List ℕ} {v : Value32}
    (hp : List.Forall₂ (b.Carries x) p v.toBitsMsb)
    (hfit : b.next + bits.length * (gadget.gates.length + 1) ≤ gateWireLimit) :
    Yields (bits.foldlM (hashWires gadget c0 c1) (p, b)) fun r =>
      b.Extends (bits.length * (gadget.gates.length + 1)) r.2 ∧
        List.Forall₂ (r.2.Carries x) r.1 (hashBits (sha256Digest compress) v bits).toBitsMsb := by
  induction bits generalizing b p v with
  | nil => exact .ok ⟨by simpa using hb.extends, hp⟩
  | cons bit rest ih =>
    rw [List.length_cons, Nat.succ_mul] at hfit ⊢
    rw [List.foldlM_cons]
    refine (hashWires_spec hgadget hb h0 h1 hp (hbits bit List.mem_cons_self)
      (by omega)).bind fun r hr => ?_
    obtain ⟨hext, hcar⟩ := hr
    refine (ih (fun bit' hbit' => hbits bit' (List.mem_cons_of_mem _ hbit')) hext.good
      (h0.mono hext) (h1.mono hext) hcar (by rw [hext.next_eq]; omega)).mono fun s hs => ?_
    rw [Nat.add_comm (rest.length * _)]
    exact ⟨hext.trans hs.1, hs.2⟩

/-- A fresh builder numbers its inputs, which carry the inputs. -/
theorem new_carries {pre mid post : List Bool} (hx : x = pre ++ mid ++ post) {k : ℕ}
    (hk : k < mid.length) :
    Carries ⟨x.length, []⟩ x (pre.length + k) (bitByte (mid.getD k false)) := by
  have hlen := congrArg List.length hx
  simp only [List.length_append] at hlen
  refine ⟨by simp only [next, List.length_nil]; omega, congrArg bitByte ?_⟩
  change x.getD (pre.length + k) false = _
  rw [hx, List.append_assoc, List.getD_append_right _ _ _ _ (Nat.le_add_right _ _),
    Nat.add_sub_cancel_left, List.getD_append _ _ _ _ hk]

/-- The wires of a value in a fresh builder. -/
theorem new_carries_value {pre post : List Bool} {v : Value32}
    (hx : x = pre ++ plainBits v ++ post) :
    List.Forall₂ (Carries ⟨x.length, []⟩ x) ((List.range valueBits).map (pre.length + ·))
      v.toBitsMsb := by
  apply List.forall₂_iff_get.mpr
  refine ⟨by simp [valueBits], fun k hk hk' => ?_⟩
  have hcar := new_carries hx (k := k) (by simpa using hk')
  have hbit : bitByte ((plainBits v).getD k false) = v.toBitsMsb[k] := by
    rw [plainBits, List.getD_eq_getElem _ _ (by simpa using hk'), List.getElem_map]
    exact bitByte_bne (eq_zero_or_one_of_mem_bitsMsb (List.getElem_mem _))
  rw [hbit] at hcar
  simpa using hcar

/-- A fresh builder is well formed. -/
theorem new_good {n : ℕ} (hn : n ≤ gateWireLimit) : Good ⟨n, []⟩ :=
  ⟨fun i gate h => absurd h (by simp), hn⟩

/-- The wires a chunk starts from carry its value. -/
theorem startWires_spec {first : Bool} {v : Value32} (hin : ChunkInput first x v) (hb : b.Good)
    {n : ℕ} (hext : Extends ⟨x.length, []⟩ n b) (hfit : b.next + valueBits ≤ gateWireLimit) :
    Yields (b.startWires first) fun r =>
      b.Extends (if first then valueBits else 0) r.2 ∧ List.Forall₂
        (r.2.Carries x) r.1 v.toBitsMsb := by
  cases hin with
  | shares a c =>
    have hleft : List.Forall₂ (b.Carries (plainBits a ++ plainBits c))
        (((List.range valueBits).map fun i => (i, valueBits + i)).map Prod.fst) a.toBitsMsb := by
      have hx : plainBits a ++ plainBits c = [] ++ plainBits a ++ plainBits c := rfl
      have hnew := new_carries_value hx
      simpa [Function.comp_def] using hnew.imp fun _ _ h => h.mono hext
    have hright : List.Forall₂ (b.Carries (plainBits a ++ plainBits c))
        (((List.range valueBits).map fun i => (i, valueBits + i)).map Prod.snd) c.toBitsMsb := by
      have hx : plainBits a ++ plainBits c = plainBits a ++ plainBits c ++ [] :=
        (List.append_nil _).symm
      have hnew := new_carries_value hx
      simpa [Function.comp_def, valueBits] using hnew.imp fun _ _ h => h.mono hext
    have hlen :
        ((List.range valueBits).map fun i => (i, valueBits + i)).length = valueBits := by simp
    refine (xorPairs_spec hb hleft hright (by rw [hlen]; exact hfit)).mono fun r hr => ?_
    rw [hlen] at hr
    rw [toBitsMsb_xor]
    exact ⟨hr.1, hr.2.2⟩
  | value v =>
    have hx : plainBits v = [] ++ plainBits v ++ [] := (List.append_nil _).symm
    have hvalue := new_carries_value hx
    refine .ok ⟨hb.extends, ?_⟩
    simpa using hvalue.imp fun _ _ h => h.mono hext

/-- XOR with a zero wire copies a value onto the last wires. -/
theorem copyWires_spec (hb : b.Good) {p : List ℕ} {vs : List UInt8}
    (hp : List.Forall₂ (b.Carries x) p vs) {c0 : ℕ} (h0 : b.Carries x c0 0)
    (hfit : b.next + p.length ≤ gateWireLimit) :
    Yields (b.xorPairs (p.map fun wire => (wire, c0))) fun r =>
      b.Extends p.length r.2 ∧
        List.Forall₂ (r.2.Carries x) ((List.range p.length).map (r.2.next - p.length + ·)) vs := by
  have hzero : List.Forall₂ (b.Carries x) ((p.map fun wire => (wire, c0)).map Prod.snd)
      (vs.map fun _ => 0) := by
    rw [List.map_map, List.forall₂_map_left_iff, List.forall₂_map_right_iff]
    exact hp.imp fun _ _ _ => h0
  have hvals : List.Forall₂ (b.Carries x) ((p.map fun wire => (wire, c0)).map Prod.fst) vs := by
    simpa [Function.comp_def] using hp
  refine (xorPairs_spec hb hvals hzero (by simpa using hfit)).mono fun r hr => ?_
  obtain ⟨hext, hout, hcar⟩ := hr
  rw [List.length_map] at hext hout
  rw [List.zipWith_map_right, List.zipWith_self] at hcar
  have hnext : r.2.next - p.length = b.next := by
    rw [hext.next_eq]
    omega
  rw [hnext, ← hout]
  exact ⟨hext, by simpa using hcar⟩

/-- A chunk ends with wires which carry the value hashed along its bits. -/
theorem chunkGates_spec (hgadget : DirectGadget compress gadget) {bits : List ℕ}
    (hbits : ∀ bit ∈ bits, bit < indexBits) (hcount : bits.length ≤ indexBits) {first : Bool}
    {v : Value32} (hin : ChunkInput first x v) :
    Yields (chunkGates gadget bits first ⟨x.length, []⟩) fun b =>
      b.Good ∧ b.numInputs = x.length ∧ valueBits ≤ b.gates.length ∧
        List.Forall₂ (b.Carries x) ((List.range valueBits).map (b.next - valueBits + ·))
          (hashBits (sha256Digest compress) v bits).toBitsMsb := by
  have hfits := hgadget.fits
  have hgates : bits.length * (gadget.gates.length + 1) ≤ indexBits * (gadget.gates.length + 1) :=
    Nat.mul_le_mul_right _ hcount
  have hlen : 0 < x.length ∧ x.length ≤ 512 := by
    rw [hin.length]
    split <;> decide
  have hgood : Good ⟨x.length, []⟩ := new_good (hlen.2.trans (by decide))
  have hnext : next ⟨x.length, []⟩ = x.length := rfl
  -- The constant wires.
  have hx : x = [] ++ x ++ [] := (List.append_nil _).symm
  have hzero : Carries ⟨x.length, []⟩ x 0 (bitByte (x.getD 0 false)) := new_carries hx hlen.1
  obtain ⟨b0, hxor, hext0, hcar0⟩ := @xorW_spec _ hgood 0 0 hlen.1 hlen.1
    (by rw [hnext]; unfold gateWireLimit; omega)
  have hc0 := hcar0 x _ _ hzero hzero
  rw [UInt8.xor_self] at hc0
  rw [chunkGates, hxor]
  refine (invW_spec hext0.good hc0
    (by rw [hext0.next_eq, hnext]; unfold gateWireLimit; omega)).bind fun r1 hr1 => ?_
  obtain ⟨hext1, hc1⟩ := hr1
  -- The value, hashed along the bits.
  have hext01 := hext0.trans hext1
  refine (startWires_spec hin hext1.good hext01
    (by rw [hext01.next_eq, hnext, valueBits]; unfold gateWireLimit; omega)).bind fun r2 hr2 => ?_
  obtain ⟨hext2, hvalue⟩ := hr2
  have hext12 := hext1.trans hext2
  have hnext2 : r2.2.next ≤ 770 := by
    rw [hext2.next_eq, hext01.next_eq, hnext]
    cases hin <;> simp [valueBits]
  refine (hashLoop_spec hgadget bits hbits hext2.good (hc0.mono hext12) (hc1.mono hext2) hvalue
    (by unfold gateWireLimit at *; omega)).bind fun r3 hr3 => ?_
  obtain ⟨hext3, hhash⟩ := hr3
  -- The copy onto the last wires.
  have hp : r3.1.length = valueBits := hhash.length_eq.trans (by simp [valueBits])
  change Yields (r3.2.xorPairs ((r3.1.take valueBits).map _) >>= _) _
  rw [List.take_of_length_le hp.le]
  refine (copyWires_spec hext3.good hhash ((hc0.mono hext12).mono hext3)
    (by rw [hext3.next_eq, hp, valueBits]; unfold gateWireLimit at *; omega)).bind fun r4 hr4 => ?_
  rw [hp] at hr4
  obtain ⟨hext4, hcopy⟩ := hr4
  have hext := (hext01.trans hext2).trans (hext3.trans hext4)
  refine .ok ⟨hext4.good, hext.numInputs, ?_, hcopy⟩
  have hcount' := hext.next_eq
  rw [hnext, next, hext.numInputs] at hcount'
  change x.length + r4.2.gates.length = _ at hcount'
  omega

/-- A finished program returns the values of its last wires. -/
theorem finish_spec (hb : b.Good) (hx : b.numInputs = x.length) {n : ℕ} (hn : n ≤ b.gates.length)
    {out : List UInt8}
    (hout : List.Forall₂ (b.Carries x) ((List.range n).map (b.next - n + ·)) out) :
    Yields (b.finish n) fun program =>
      program.WellFormed ∧ program.numInputs = x.length ∧
        program.evalPlain x = out.map (· != 0) := by
  refine ⟨⟨b.numInputs, b.next, (List.range n).map (b.next - n + ·), b.gates⟩,
    if_neg (by omega), ⟨rfl, hb.reads, fun w hw => ?_⟩, hx, ?_⟩
  · obtain ⟨k, hk, rfl⟩ := List.mem_map.mp hw
    have hk := List.mem_range.mp hk
    change _ < b.next
    have : n ≤ b.next := hn.trans (Nat.le_add_left _ _)
    omega
  · rw [← List.forall₂_eq_eq_eq, List.forall₂_map_right_iff, Ag2pcProgram.evalPlain,
      List.forall₂_map_left_iff]
    refine hout.imp fun w v hcar => ?_
    rw [← hcar.value_eq]
    change b.value x w = _
    cases b.value x w <;> rfl

end Ag2pcProgramBuilder

open Ag2pcProgramBuilder in
/-- A chunk program hashes the value it starts from along its bits. -/
theorem chunkFromSha_spec {compress : Block64 → Value32} {gadget : Circuit}
    (hgadget : DirectGadget compress gadget) {bits : List ℕ} (hbits : ∀ bit ∈ bits, bit < indexBits)
    (hcount : bits.length ≤ indexBits) {first : Bool} {x : List Bool} {v : Value32}
    (hin : ChunkInput first x v) :
    Yields (chunkFromSha gadget bits first) fun program =>
      program.WellFormed ∧ program.numInputs = x.length ∧
        program.evalPlain x = plainBits (hashBits (sha256Digest compress) v bits) := by
  have hwidth : (checkedI32 (gadget.n1 + gadget.n2) : Outcome ProgramError ℤ) = .ok 512 := by
    rw [hgadget.width]
    exact checkedI32_ok (by decide) (by decide)
  have hvalid : validateShaGadget "BuildChunkProgram" gadget = .ok () := by
    rw [validateShaGadget, hwidth]
    exact if_neg (by rw [hgadget.outputs]; decide)
  have hany : ¬ bits.any (indexBits ≤ ·) = true := by
    rw [List.any_eq_true]
    intro ⟨bit, hmem, hge⟩
    exact absurd (hbits bit hmem) (Nat.not_lt_of_le (of_decide_eq_true hge))
  rw [chunkFromSha, hvalid]
  simp only [bind, Except.bind]
  rw [if_neg hany, ← hin.length]
  refine (chunkGates_spec hgadget hbits hcount hin).bind fun b hb => ?_
  obtain ⟨hgood, hinputs, hlen, hcarries⟩ := hb
  exact finish_spec hgood hinputs hlen hcarries

end Shachain2pc
