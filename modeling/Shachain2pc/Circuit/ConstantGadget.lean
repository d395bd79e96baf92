import Shachain2pc.Circuit.Derivation

/-!
# Small gadgets

A gadget which runs a few gates and copies their wires to its outputs meets the assumptions on the
embedded gadget, at every wire count an `i32` can declare. With two constant wires it returns one
digest on each block, and with one AND gate on an input bit it returns one of two.
-/

namespace Shachain2pc

open StraightLine (Instr)
open Rust

/-- The gate which copies a wire to output `k`, when wire 512 holds zero. -/
def copyOutput (n : ℕ) (source : ℕ → ℤ) (k : ℕ) : Gate where
  typ := .xor
  in0 := 512
  in1 := source k
  out := (n - 256 + k : ℕ)

/-- A gadget of `n` wires which copies wires of its first gates to its outputs. -/
def copyGadget (n : ℕ) (head : List Gate) (source : ℕ → ℤ) : Circuit where
  numWire := n
  n1 := 512
  n2 := 0
  n3 := 256
  gates := head ++ (List.range 256).map (copyOutput n source)

/-- The first gates write distinct wires between the inputs and the outputs, wire 512 and the copied
ones among them, and read inputs and what they wrote. -/
structure CopyHead (n : ℕ) (head : List Gate) (source : ℕ → ℤ) : Prop where
  fits : (n : ℤ) ≤ i32Max
  bounds : ∀ g ∈ head, 512 ≤ asUsize g.out ∧ asUsize g.out + 256 < n
  nodup : (head.map fun g => asUsize g.out).Nodup
  reads : ReadsDefined 512 head
  zero : 512 ∈ head.map fun g => asUsize g.out
  copied : ∀ k < 256, asUsize (source k) ∈ head.map fun g => asUsize g.out

/-- A list tabulates its own entries. -/
private theorem map_getD_range {A : Type} (values : List A) (fallback : A) :
    (List.range values.length).map (fun k => values.getD k fallback) = values := by
  apply List.ext_getElem
  · simp
  · intro k _ hk
    simp [hk]

namespace CopyHead

variable {n : ℕ} {head : List Gate} {source : ℕ → ℤ}

/-- There is room for the outputs. -/
theorem room (h : CopyHead n head source) : 768 < n := by
  obtain ⟨g, hg, hout⟩ := List.mem_map.mp h.zero
  have := h.bounds g hg
  omega

/-- The copies write the last wires. -/
theorem asUsize_out (h : CopyHead n head source) {k : ℕ} (hk : k < 256) :
    asUsize (copyOutput n source k).out = n - 256 + k := by
  have hmax := h.fits
  have hmin := h.room
  exact asUsize_natCast (by unfold i32Max at hmax; omega)

/-- The copies read what the first gates wrote. -/
theorem mem_args (h : CopyHead n head source) {k : ℕ} (hk : k < 256) {w : ℕ}
    (hw : w ∈ (copyOutput n source k).instr.args) : w ∈ head.map fun g => asUsize g.out := by
  change w ∈ [512, asUsize (source k)] at hw
  rcases List.mem_cons.mp hw with rfl | hw
  · exact h.zero
  · rw [List.mem_singleton.mp hw]
    exact h.copied k hk

/-- Every gate writes a wire above the inputs. -/
theorem out_bounds (h : CopyHead n head source) {g : Gate}
    (hg : g ∈ (copyGadget n head source).gates) :
    512 ≤ asUsize g.out ∧ asUsize g.out < n := by
  rcases List.mem_append.mp hg with hhead | hcopy
  · have := h.bounds g hhead
    omega
  · obtain ⟨k, hk, rfl⟩ := List.mem_map.mp hcopy
    have hk := List.mem_range.mp hk
    have hmin := h.room
    rw [h.asUsize_out hk]
    omega

/-- The copies write distinct wires. -/
theorem nodup_copies (h : CopyHead n head source) :
    (((List.range 256).map (copyOutput n source)).map fun g => asUsize g.out).Nodup := by
  have houts : ((List.range 256).map (copyOutput n source)).map (fun g => asUsize g.out) =
      (List.range 256).map (n - 256 + ·) := by
    rw [List.map_map]
    exact List.map_congr_left fun k hk => h.asUsize_out (List.mem_range.mp hk)
  rw [houts]
  exact List.pairwise_map.mpr (List.nodup_range.imp fun hne heq => hne (Nat.add_left_cancel heq))

/-- Distinct gates write distinct wires. -/
theorem singleAssignment (h : CopyHead n head source) :
    ((copyGadget n head source).gates.map fun g => asUsize g.out).Nodup := by
  rw [copyGadget, List.map_append]
  refine List.nodup_append.mpr ⟨h.nodup, h.nodup_copies, fun w hhead w' hcopy heq => ?_⟩
  obtain ⟨g, hg, rfl⟩ := List.mem_map.mp hhead
  obtain ⟨g', hg', rfl⟩ := List.mem_map.mp hcopy
  obtain ⟨k, hk, rfl⟩ := List.mem_map.mp hg'
  have hbound := h.bounds g hg
  rw [h.asUsize_out (List.mem_range.mp hk)] at heq
  omega

/-- The gadget reads only inputs and what it wrote. -/
theorem readsDefined (h : CopyHead n head source) :
    ReadsDefined 512 (copyGadget n head source).gates := by
  intro i hi w hw
  have hgates :
      (copyGadget n head source).gates = head ++ (List.range 256).map (copyOutput n source) := rfl
  simp only [hgates] at hi hw ⊢
  by_cases hlt : i < head.length
  · rw [List.getElem_append_left hlt] at hw
    refine (h.reads i hlt w hw).imp_right fun hdefined => ?_
    obtain ⟨j, hj, hout⟩ := hdefined
    refine ⟨j, hj, ?_⟩
    rw [List.getElem_append_left (hj.trans hlt)]
    exact hout
  · rw [List.getElem_append_right (not_lt.mp hlt), List.getElem_map, List.getElem_range] at hw
    have hk : i - head.length < 256 := by
      rw [List.length_append, List.length_map, List.length_range] at hi
      omega
    obtain ⟨g, hg, hout⟩ := List.mem_map.mp (h.mem_args hk hw)
    obtain ⟨j, hj, rfl⟩ := List.getElem_of_mem hg
    refine .inr ⟨j, by omega, ?_⟩
    rw [List.getElem_append_left hj]
    exact hout

/-- Every wire the gadget touches is one of its `n` wires. -/
theorem inRange (h : CopyHead n head source) {g : Gate}
    (hg : g ∈ (copyGadget n head source).gates) :
    g.InRange n := by
  refine ⟨fun w hw => ?_, (h.out_bounds hg).2⟩
  obtain ⟨i, hi, rfl⟩ := List.getElem_of_mem hg
  rcases h.readsDefined i hi w hw with hin | ⟨j, hj, rfl⟩
  · exact hin.trans ((by decide : 512 < 768).trans h.room)
  · exact (h.out_bounds (List.getElem_mem _)).2

/-- An output carries the copied wire. -/
theorem meaning (h : CopyHead n head source) (x : List UInt8) {k : ℕ} (hk : k < 256) :
    gateMeaning (copyGadget n head source).gates x (n - 256 + k) =
      gateMeaning head x 512 ^^^ gateMeaning head x (asUsize (source k)) := by
  have hout {j : ℕ} (hj : j < 256) : (copyOutput n source j).instr.out = n - 256 + j :=
    h.asUsize_out hj
  rw [gateMeaning, copyGadget, List.map_append, StraightLine.exec_append, ← hout hk,
    StraightLine.exec_independent]
  · rfl
  · -- The copies read wires of the first gates, which they never write.
    intro reader hreader w hw writer hwriter
    rw [List.map_map] at hreader hwriter
    obtain ⟨i, hi, rfl⟩ := List.mem_map.mp hreader
    obtain ⟨j, hj, rfl⟩ := List.mem_map.mp hwriter
    obtain ⟨g, hg, rfl⟩ := List.mem_map.mp (h.mem_args (List.mem_range.mp hi) hw)
    have hbound := h.bounds g hg
    have hwrite := hout (List.mem_range.mp hj)
    rw [Function.comp_apply, hwrite]
    omega
  · simpa only [List.map_map, Function.comp_def, Gate.instr] using h.nodup_copies
  · exact List.mem_map_of_mem (List.mem_map_of_mem (List.mem_range.mpr hk))

/-- The gadget meets every assumption on the embedded gadget, for the digests it copies. -/
theorem compression (h : CopyHead n head source) {compress : Block64 → Value32}
    (hcopies : ∀ block, ∀ k < 256, gateMeaning head (bitsMsb block) 512 ^^^
      gateMeaning head (bitsMsb block) (asUsize (source k)) = (compress block).toBitsMsb.getD k 0) :
    CompressionGadget compress (copyGadget n head source) where
  width := rfl
  outputs := rfl
  numWire_i32 := ⟨by change -(2 ^ 31) ≤ (n : ℤ); omega, h.fits⟩
  singleAssignment := h.singleAssignment
  readsDefined := h.readsDefined
  writes _ hg := (h.out_bounds hg).1
  computes block := by
    have hlen : (bitsMsb block).length = 512 := by simp
    have hn3 : (copyGadget n head source).n3 = (256 : ℕ) := rfl
    have hmin := h.room
    rw [evalBristol_eq (copyGadget n head source) (bitsMsb block) rfl hn3 (by rw [hlen]; rfl) h.fits
      (by omega) (by omega) fun _ hg => h.inRange hg]
    have hmap : (List.range 256).map (fun k =>
        gateMeaning (copyGadget n head source).gates (bitsMsb block) (n - 256 + k)) =
        (List.range 256).map fun k => (compress block).toBitsMsb.getD k 0 :=
      List.map_congr_left fun k hk => by
        rw [h.meaning _ (List.mem_range.mp hk), hcopies block k (List.mem_range.mp hk)]
    have hbits := map_getD_range (compress block).toBitsMsb 0
    rw [Value32.toBitsMsb_length] at hbits
    rw [hmap, hbits]

end CopyHead

/-- The bits of a digest are zero or one. -/
theorem Value32.toBitsMsb_getD (digest : Value32) {k : ℕ} (hk : k < 256) :
    digest.toBitsMsb.getD k 0 = 0 ∨ digest.toBitsMsb.getD k 0 = 1 := by
  have hlt : k < digest.toBitsMsb.length := by simpa using hk
  rw [List.getD_eq_getElem _ _ hlt]
  exact eq_zero_or_one_of_mem_bitsMsb (List.getElem_mem hlt)

/-! ## One digest -/

/-- The wires 512 and 513 hold zero and one. -/
def constantHead : List Gate := [⟨.xor, 0, 0, 512⟩, ⟨.inv, 512, -1, 513⟩]

/-- The constant wire of a bit of a digest. -/
def constantSource (digest : Value32) (k : ℕ) : ℤ :=
  if digest.toBitsMsb.getD k 0 = 0 then 512 else 513

/-- A gadget of `n` wires which computes a constant digest. -/
def constantGadget (n : ℕ) (digest : Value32) : Circuit :=
  copyGadget n constantHead (constantSource digest)

/-- The constant wires can be copied. -/
theorem constantHead_copyHead {n : ℕ} (hmin : 770 ≤ n) (hmax : (n : ℤ) ≤ i32Max)
    (digest : Value32) :
    CopyHead n constantHead (constantSource digest) where
  fits := hmax
  bounds g hg := by
    rcases List.mem_cons.mp hg with rfl | hg
    · exact ⟨le_rfl, show 512 + 256 < n by omega⟩
    · rw [List.mem_singleton.mp hg]
      exact ⟨by decide, show 513 + 256 < n by omega⟩
  nodup := by decide
  reads := by
    intro i hi w hw
    match i with
    | 0 =>
      simp [constantHead, Gate.instr, asUsize] at hw
      omega
    | 1 =>
      simp [constantHead, Gate.instr, asUsize] at hw
      exact .inr ⟨0, by decide, by simpa [constantHead, asUsize] using hw.symm⟩
  zero := by decide
  copied k _ := by
    rw [constantSource]
    split <;> decide

/-- The constant gadget meets every assumption on the embedded gadget, at every wire count an
`i32` can declare. -/
theorem constantGadget_compression {n : ℕ} {digest : Value32} (hmin : 770 ≤ n)
    (hmax : (n : ℤ) ≤ i32Max) :
    CompressionGadget (fun _ => digest) (constantGadget n digest) :=
  (constantHead_copyHead hmin hmax digest).compression fun block k hk => by
    have hzero : gateMeaning constantHead (bitsMsb block) 512 = 0 := by
      simp [gateMeaning, constantHead, StraightLine.exec, Instr.exec, Instr.value,
        Gate.instr, asUsize]
    have hone : gateMeaning constantHead (bitsMsb block) 513 = 1 := by
      simp [gateMeaning, constantHead, StraightLine.exec, Instr.exec, Instr.value,
        Gate.instr, asUsize]
    rcases digest.toBitsMsb_getD hk with hbit | hbit
    · rw [constantSource, hbit, if_pos rfl, show asUsize 512 = 512 from rfl, hzero]
      rfl
    · rw [constantSource, hbit, if_neg (by decide), show asUsize 513 = 513 from rfl, hzero, hone]
      rfl

/-! ## One of two digests -/

/-- Beside the constant wires, wire 514 holds an input bit and 515 its negation. -/
def selectHead (position : ℕ) : List Gate :=
  [⟨.xor, 0, 0, 512⟩, ⟨.inv, 512, -1, 513⟩, ⟨.and, position, 513, 514⟩, ⟨.inv, 514, -1, 515⟩]

/-- The wire which holds a bit of the first digest where the input bit is zero, and of the second
where it is one. -/
def selectSource (first second : Value32) (k : ℕ) : ℤ :=
  if first.toBitsMsb.getD k 0 = 0 then if second.toBitsMsb.getD k 0 = 0 then 512 else 514
  else if second.toBitsMsb.getD k 0 = 0 then 515 else 513

/-- A gadget which computes one of two digests. -/
def selectGadget (position : ℕ) (first second : Value32) : Circuit :=
  copyGadget 772 (selectHead position) (selectSource first second)

/-- The digest which an input bit selects. -/
def selectDigest (position : ℕ) (first second : Value32) (block : Block64) : Value32 :=
  if (bitsMsb block).getD position 0 = 0 then first else second

variable {position : ℕ} {first second : Value32}

/-- The wires of the selecting gadget can be copied. -/
theorem selectHead_copyHead (hposition : position < 512) :
    CopyHead 772 (selectHead position) (selectSource first second) where
  fits := by decide
  bounds g hg := by
    have hcases : g.out = 512 ∨ g.out = 513 ∨ g.out = 514 ∨ g.out = 515 := by
      simp only [selectHead, List.mem_cons, List.not_mem_nil, or_false] at hg
      rcases hg with rfl | rfl | rfl | rfl <;> simp
    rcases hcases with h | h | h | h <;> rw [h] <;> decide
  nodup := show [asUsize 512, asUsize 513, asUsize 514, asUsize 515].Nodup by decide
  reads := by
    have hat : asUsize (position : ℤ) = position := asUsize_natCast (by omega)
    intro i hi w hw
    match i with
    | 0 =>
      simp [selectHead, Gate.instr, asUsize] at hw
      omega
    | 1 =>
      simp [selectHead, Gate.instr, asUsize] at hw
      exact .inr ⟨0, by decide, by simpa [selectHead, asUsize] using hw.symm⟩
    | 2 =>
      simp only [selectHead, Gate.instr, List.getElem_cons_succ, List.getElem_cons_zero,
        List.mem_cons, List.not_mem_nil, or_false, hat] at hw
      rcases hw with rfl | rfl
      · exact .inl hposition
      · exact .inr ⟨1, by decide, rfl⟩
    | 3 =>
      simp [selectHead, Gate.instr, asUsize] at hw
      exact .inr ⟨2, by decide, by simpa [selectHead, asUsize] using hw.symm⟩
  zero := show 512 ∈ [asUsize 512, asUsize 513, asUsize 514, asUsize 515] by decide
  copied k _ := by
    change _ ∈ [asUsize 512, asUsize 513, asUsize 514, asUsize 515]
    rw [selectSource]
    split <;> split <;> decide

/-- The wires which are copied. -/
theorem selectHead_meaning (hposition : position < 512) (block : Block64) :
    gateMeaning (selectHead position) (bitsMsb block) 512 = 0 ∧
    gateMeaning (selectHead position) (bitsMsb block) 513 = 1 ∧
    gateMeaning (selectHead position) (bitsMsb block) 514 = (bitsMsb block).getD position 0 ∧
    gateMeaning (selectHead position) (bitsMsb block) 515 =
      (bitsMsb block).getD position 0 ^^^ 1 := by
  have hat : asUsize (position : ℤ) = position := asUsize_natCast (by omega)
  have hlt : position < (bitsMsb block).length := by simpa using hposition
  have hbit : (bitsMsb block).getD position 0 &&& 1 = (bitsMsb block).getD position 0 := by
    rw [List.getD_eq_getElem _ _ hlt]
    exact and_one_of_mem_bitsMsb (List.getElem_mem hlt)
  have hne512 : position ≠ 512 := hposition.ne
  have hne513 : position ≠ 513 := by omega
  simp only [gateMeaning, selectHead, StraightLine.exec, List.map_cons, List.map_nil,
    List.foldl_cons, List.foldl_nil, Instr.exec, Instr.value, Gate.instr, hat]
  refine ⟨?_, ?_, ?_, ?_⟩
  · simp [asUsize]
  · simp [asUsize]
  · simpa [asUsize, hne512, hne513, inputEnv, UInt8.and_assoc] using hbit
  · simpa [asUsize, hne512, hne513, inputEnv, UInt8.and_assoc] using hbit

/-- The selecting gadget meets every assumption on the embedded gadget. -/
theorem selectGadget_compression (hposition : position < 512) :
    CompressionGadget (selectDigest position first second) (selectGadget position first second) :=
  (selectHead_copyHead hposition).compression fun block k hk => by
    obtain ⟨hzero, hone, hbit, hnot⟩ := selectHead_meaning hposition block
    have hlt : position < (bitsMsb block).length := by simpa using hposition
    have hinput : (bitsMsb block).getD position 0 = 0 ∨ (bitsMsb block).getD position 0 = 1 := by
      rw [List.getD_eq_getElem _ _ hlt]
      exact eq_zero_or_one_of_mem_bitsMsb (List.getElem_mem hlt)
    have hat :
        asUsize 512 = 512 ∧ asUsize 513 = 513 ∧ asUsize 514 = 514 ∧ asUsize 515 = 515 := by decide
    have hne : ((1 : UInt8) = 0) = False := by decide
    obtain ⟨h512, h513, h514, h515⟩ := hat
    rcases first.toBitsMsb_getD hk with hfirst | hfirst <;>
      rcases second.toBitsMsb_getD hk with hsecond | hsecond <;> rcases hinput with hin | hin <;>
      simp only [selectSource, selectDigest, hfirst, hsecond, hin, hne, if_true, if_false,
        h512, h513, h514, h515, hzero, hone, hbit, hnot, UInt8.zero_xor, UInt8.xor_self]

/-- The SHA-256 digest of the message `01 00 … 00`, the one block hashed for a zero seed and
index 1. -/
def firstEdgeDigest : Value32 where
  bytes := #v[
    0x01, 0xd0, 0xfa, 0xbd, 0x25, 0x1f, 0xcb, 0xbe,
    0x2b, 0x93, 0xb4, 0xb9, 0x27, 0xb2, 0x6a, 0xd2,
    0xa1, 0xa9, 0x90, 0x77, 0x15, 0x2e, 0x45, 0xde,
    0xd1, 0xe6, 0x78, 0xaf, 0xa4, 0x5d, 0xbe, 0xc5]

/-- The SHA-256 digest of the message `02 00 … 00`, the first block hashed for a zero seed and the
indices 2 and 3. -/
def secondEdgeDigest : Value32 where
  bytes := #v[
    0x57, 0x78, 0xf9, 0x85, 0xdb, 0x75, 0x4c, 0x66,
    0x28, 0x69, 0x1f, 0x56, 0xfa, 0xda, 0xe5, 0x0c,
    0x65, 0xfd, 0xdb, 0xe8, 0xeb, 0x2e, 0x93, 0x03,
    0x96, 0x33, 0xfe, 0xfa, 0x05, 0xd4, 0x5e, 0x31]

/-- The SHA-256 digest of that digest with its lowest bit flipped, the second block hashed for a
zero seed and index 3. -/
def thirdEdgeDigest : Value32 where
  bytes := #v[
    0xab, 0x4d, 0xec, 0x95, 0xe6, 0x95, 0xf3, 0xaf,
    0x71, 0x84, 0x91, 0xa0, 0xa8, 0x8d, 0x8e, 0xd5,
    0x52, 0x12, 0x39, 0x88, 0x70, 0xce, 0xbc, 0x02,
    0xfb, 0x55, 0x28, 0xfb, 0x37, 0x34, 0x8b, 0x3a]

/-- SHA-256 compression on the two blocks hashed for a zero seed and the indices 2 and 3: the second
bit of the message is zero in the first block only. -/
def edgeCompress : Block64 → Value32 := selectDigest 1 secondEdgeDigest thirdEdgeDigest

/-- The gadget which computes it. -/
def edgeGadget : Circuit := selectGadget 1 secondEdgeDigest thirdEdgeDigest

/-- What a zero seed gives at index 3. -/
theorem edge_value :
    generateFromSeed (sha256Digest edgeCompress) (firstEdgeDigest.xor firstEdgeDigest) 3 =
    thirdEdgeDigest := by
  decide +kernel

/-- What it gives on the range of the two indices. -/
theorem edge_values : [2, 3].map (fun index => (index, generateFromSeed (sha256Digest edgeCompress)
    (firstEdgeDigest.xor firstEdgeDigest) index)) =
      [(2, secondEdgeDigest), (3, thirdEdgeDigest)] := by
  decide +kernel

end Shachain2pc
