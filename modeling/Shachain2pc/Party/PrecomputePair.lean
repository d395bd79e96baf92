import Shachain2pc.Party.PrunedCache
import Shachain2pc.Compat.OutputLambda

/-!
# Live precompute sessions are correct

Two parties make the same calls on their sessions. When the 2PC session computes the
programs it is given, the wires of every cached node carry the shachain value of the node's
mask, the returned wires carry the value of the target, and the two parties always plan and
cache the same masks.
-/

namespace Shachain2pc

open Rust Calls

/-- The wires of the two parties carry plain bits, and both know the masked bits. -/
structure CarriesBits (deltaA deltaB : Block) (a b : Ag2pcSecureWires) (plain : List Bool) :
    Prop where
  valid : ValidWires deltaA deltaB a b plain
  agree : a.lambda = b.lambda

/-- A served request computes its program: from wires which carry the inputs it replies with wires
which carry the outputs. -/
def RunsPrograms (deltaA deltaB : Block) (serve : Serve) : Prop :=
  ∀ program x y x' y' plain, program.WellFormed → plain.length = program.numInputs →
    CarriesBits deltaA deltaB x y plain → serve (program, x) (program, y) x' y' →
    CarriesBits deltaA deltaB x' y' (program.evalPlain plain)

/-- Wires without labels which carry a value: each masked bit is the XOR of a bit of the value with
the share bits of the two parties, whose shares belong together. -/
structure CarriesValue (deltaA deltaB : Block) (a b : Ag2pcSecureWires) (value : Value32) :
    Prop where
  agree : a.lambda = b.lambda
  lambda : a.lambda.length = valueBits
  bundleA : a.wireBundle.length = valueBits
  bundleB : b.wireBundle.length = valueBits
  pair : ∀ w < valueBits, AuthenticatedPair deltaA deltaB (a.wireBundle.getD w default)
    (b.wireBundle.getD w default)
  masked : ∀ w < valueBits, a.lambda.getD w 0 = value.toBitsMsb.getD w 0 ^^^
    blockLsb (a.wireBundle.getD w default).mac ^^^ blockLsb (b.wireBundle.getD w default).mac

/-- The sessions of two parties after the same calls. -/
inductive PairRun (serve : Serve) (a b : PrecomputeSession) :
    List Index48 → PrecomputeSession → PrecomputeSession → Prop where
  | start : PairRun serve a b [] a b
  | target {targets : List Index48} {midA midB lastA lastB : PrecomputeSession} {index : Index48}
      {runs : List ((Ag2pcProgram × Ag2pcSecureWires) × Ag2pcProgram × Ag2pcSecureWires)}
      {wiresA wiresB : Ag2pcSecureWires} : PairRun serve a b targets midA midB →
        Together serve (midA.precomputeTarget index) (midB.precomputeTarget index) runs
          (wiresA, lastA) (wiresB, lastB) →
        PairRun serve a b (targets ++ [index]) lastA lastB

variable {deltaA deltaB : Block} {a b x y : Ag2pcSecureWires} {value : Value32}

/-- Stripped wires still carry their value. -/
theorem CarriesBits.strip (h : CarriesBits deltaA deltaB x y (plainBits value)) :
    CarriesValue deltaA deltaB x.stripLabelsForReveal y.stripLabelsForReveal value := by
  have hlen : (plainBits value).length = valueBits := plainBits_length value
  refine ⟨h.agree, h.valid.lambdaA.trans hlen, h.valid.bundleA.trans hlen,
    h.valid.bundleB.trans hlen,
    fun w hw => (h.valid.wires w (hlen ▸ hw)).pair, fun w hw => ?_⟩
  have hbits : w < value.toBitsMsb.length := by rwa [Value32.toBitsMsb_length]
  have hbit : bitByte ((plainBits value).getD w false) = value.toBitsMsb.getD w 0 := by
    rw [plainBits, List.getD_eq_getElem _ _ (by rwa [List.length_map]), List.getElem_map,
      List.getD_eq_getElem _ _ hbits]
    exact bitByte_bne (eq_zero_or_one_of_mem_bitsMsb (List.getElem_mem _))
  have hmasked := (h.valid.wires w (hlen ▸ hw)).masked
  rw [hbit, ← h.agree] at hmasked
  exact hmasked

/-- The parties hold a carried value jointly. -/
theorem CarriesValue.joint (h : CarriesValue deltaA deltaB a b value) :
    JointNode deltaA deltaB a b := by
  refine ⟨h.agree, h.lambda, h.bundleA.trans h.lambda.symm, verifyShareRelation_iff.mpr
    ⟨h.bundleA.trans h.bundleB.symm, fun i hi hi' => ?_⟩⟩
  have hpair := h.pair i (h.bundleA ▸ hi)
  rw [List.getD_eq_getElem _ _ hi, List.getD_eq_getElem _ _ hi'] at hpair
  exact ⟨hpair.macAlice, hpair.macBob⟩

/-- The shares of a masked bit cancel. -/
theorem xor_shares {v p q : UInt8} (hv : v &&& 1 = v) (hq : q &&& 1 = q) :
    (p ^^^ (v ^^^ p ^^^ q) ^^^ (q &&& 1)) &&& 1 = v := by
  have hxor : p ^^^ (v ^^^ p ^^^ q) ^^^ q = v := by
    rw [UInt8.xor_comm v p, UInt8.xor_assoc p v q, ← UInt8.xor_assoc p p, UInt8.xor_self,
      UInt8.zero_xor, UInt8.xor_assoc, UInt8.xor_self, UInt8.xor_zero]
  rw [hq, hxor, hv]

/-- Opening wires returns the value they carry. -/
theorem CarriesValue.opens (h : CarriesValue deltaA deltaB a b value)
    (sha256 : List UInt8 → Value32) :
    revealNodeFromPeerShare sha256 a deltaA (revealLocalShare sha256 b.wireBundle).shareBits
        (revealLocalShare sha256 b.wireBundle).macDigest = .ok ⟨value.toBitsMsb, value⟩ := by
  have hbits : openedBits a b = value.toBitsMsb := by
    refine List.ext_getElem (h.joint.openedBits_length.trans (by simp [valueBits]))
      fun w hw hw' => ?_
    have hlt : w < valueBits := h.joint.openedBits_length ▸ hw
    have hmasked := h.masked w hlt
    have hbit := and_one_of_mem_bitsMsb (List.getElem_mem hw')
    rw [List.getD_eq_getElem _ _ (h.lambda ▸ hlt), List.getD_eq_getElem _ _ hw',
      List.getD_eq_getElem _ _ (h.bundleA ▸ hlt),
      List.getD_eq_getElem _ _ (h.bundleB ▸ hlt)] at hmasked
    simp only [openedBits, List.getElem_zipWith, List.getElem_map, hmasked]
    exact xor_shares hbit (blockLsb_and_one _)
  have hvalue : Value32.fromBitsMsb (openedBits a b) = .ok value := by
    rw [hbits]
    exact fromBitsMsb_toBitsMsb value
  have hopened := @JointNode.opens_left sha256 _ _ _ _ h.joint _ hvalue
  rwa [hbits] at hopened

section sessions

variable {compress : Block64 → Value32} {sha : Circuit} {serve : Serve} {bob alice : Value32}
  {seedA seedB : Ag2pcSecureWires} {targets : List Index48} {sessionA sessionB : PrecomputeSession}

/-- The wires of a node carry the shachain value of its mask. -/
def CarriesNode (compress : Block64 → Value32) (deltaA deltaB : Block) (seed : Value32) (mask : ℕ)
    (x y : Ag2pcSecureWires) : Prop :=
  CarriesBits deltaA deltaB x y (plainBits (generateFromSeed (sha256Digest compress) seed mask))

/-- A chunk program carries on along its bits. -/
theorem RunsPrograms.chunk (hserve : RunsPrograms deltaA deltaB serve)
    (hgadget : DirectGadget compress sha) (bits : List ℕ) (hbits : ∀ bit ∈ bits, bit < indexBits)
    (hcount : bits.length ≤ indexBits) {first : Bool} {plain : List Bool} {v : Value32}
    (hin : ChunkInput first plain v) {program : Ag2pcProgram}
    (hprogram : chunkFromSha sha bits first = .ok program) {x' y' : Ag2pcSecureWires}
    (hcarries : CarriesBits deltaA deltaB x y plain)
    (hrun : serve (program, x) (program, y) x' y') :
    CarriesBits deltaA deltaB x' y' (plainBits (hashBits (sha256Digest compress) v bits)) := by
  obtain ⟨built, hbuilt, hwf, hinputs, heval⟩ := chunkFromSha_spec hgadget hbits hcount hin
  rw [Except.ok.inj (hbuilt.symm.trans hprogram)] at hwf hinputs heval
  rw [← heval]
  exact hserve program x y x' y' plain hwf hinputs.symm hcarries hrun

/-- Computed programs keep the wires of all nodes carrying their values. -/
theorem RunsPrograms.nodeRelation (hserve : RunsPrograms deltaA deltaB serve)
    (hgadget : DirectGadget compress sha)
    (hseed : CarriesBits deltaA deltaB seedA seedB (plainBits bob ++ plainBits alice)) :
    NodeRelation serve sha seedA seedB (CarriesNode compress deltaA deltaB (bob.xor alice)) where
  builds := hgadget.builds
  root program x y hprogram hrun := by
    have hnil : setBitsDesc 0 = [] := List.prefix_nil.mp (derives_zero (j := 0))
    rw [CarriesNode, generateFromSeed_eq, hnil]
    exact hserve.chunk hgadget [] (fun _ h => absurd h List.not_mem_nil) (Nat.zero_le _)
      (.shares bob alice) hprogram hseed hrun
  first bit program x y hbit hprogram hrun := by
    have hnil : setBitsDesc 0 = [] := List.prefix_nil.mp (derives_zero (j := 0))
    have hone : setBitsDesc (0 ||| 1 <<< bit) = setBitsDesc 0 ++ [bit] :=
      setBitsDesc_or_bit hbit fun high h => by rw [hnil] at h; cases h
    rw [Nat.zero_or, hnil] at hone
    rw [CarriesNode, generateFromSeed_eq, hone]
    exact hserve.chunk hgadget [bit] (by simpa using hbit) (show 1 ≤ indexBits by decide)
      (.shares bob alice) hprogram hseed hrun
  next mask bit program x y x' y' _ hbit hbelow hnode hprogram hrun := by
    rw [CarriesNode, generateFromSeed_eq, setBitsDesc_or_bit hbit hbelow, hashBits_append,
      ← generateFromSeed_eq]
    exact hserve.chunk hgadget [bit] (by simpa using hbit) (show 1 ≤ indexBits by decide) (.value _)
      hprogram hnode hrun

/-- The sessions of two parties stay related. -/
theorem PairRun.related {R : ℕ → Ag2pcSecureWires → Ag2pcSecureWires → Prop}
    (hR : NodeRelation serve sha seedA seedB R)
    (hrun : PairRun serve (.setup sha seedA) (.setup sha seedB) targets sessionA sessionB) :
    RelatedSessions sha seedA seedB R sessionA sessionB := by
  induction hrun with
  | start => exact setup_related sha seedA seedB R
  | target _ hcall ih => exact ((precomputeTarget_ensures hR ih _).of_together hcall).1

/-- After any calls of two parties on their sessions: each cached node is filed under its trailing
zeros at both and carries its value, the plans are equal, and the next call returns wires which
carry its target's value and runs the planned programs. -/
theorem precomputeSession_correct (hgadget : DirectGadget compress sha)
    (hserve : RunsPrograms deltaA deltaB serve)
    (hseed : CarriesBits deltaA deltaB seedA seedB (plainBits bob ++ plainBits alice))
    (hrun : PairRun serve (.setup sha seedA) (.setup sha seedB) targets sessionA sessionB) :
    (∀ key, Option.Rel (fun x y => x.1 = y.1 ∧ key = trailingZeros x.1 ∧
        CarriesNode compress deltaA deltaB (bob.xor alice) x.1 x.2 y.2)
        (sessionA.cache key) (sessionB.cache key)) ∧
      (∀ index, sessionA.plannedCheckedUnits index = sessionB.plannedCheckedUnits index) ∧
      (∀ index runs wiresA wiresB nextA nextB,
        Together serve (sessionA.precomputeTarget index) (sessionB.precomputeTarget index) runs
          (wiresA, nextA) (wiresB, nextB) →
        CarriesValue deltaA deltaB wiresA wiresB
          (generateFromSeed (sha256Digest compress) (bob.xor alice) index.get) ∧
        (index.get ≠ 0 → runs.length = sessionA.plannedCheckedUnits index ∧
          ∀ run ∈ runs, OneHash sha run.1.1 ∧ run.2.1 = run.1.1)) ∧
      ((∀ x y, ∃ x' y', serve x y x' y') → ∀ index, ∃ runs resultA resultB,
        Together serve (sessionA.precomputeTarget index) (sessionB.precomputeTarget index) runs
          resultA resultB) := by
  have hR := hserve.nodeRelation hgadget hseed
  have hrelated := hrun.related hR
  refine ⟨fun key => ?_, plannedCheckedUnits_eq hrelated,
    fun index runs wiresA wiresB nextA nextB hcall => ?_, fun htotal index => ?_⟩
  · have hkey := hrelated.caches key
    generalize sessionA.cache key = x at hkey ⊢
    generalize sessionB.cache key = y at hkey ⊢
    cases hkey with
    | none => exact .none
    | some hxy => exact .some ⟨hxy.1.mask_eq, hxy.2, hxy.1.wires⟩
  · obtain ⟨-, ⟨x, y, hnode, hA, hB⟩, hcount, -⟩ :=
      (precomputeTarget_ensures hR hrelated index).of_together hcall
    rw [show wiresA = x.stripLabelsForReveal from hA, show wiresB = y.stripLabelsForReveal from hB]
    exact ⟨hnode.strip, hcount⟩
  · exact (precomputeTarget_ensures hR hrelated index).exists_together htotal

end sessions

/-- The plain bits which the wires of two parties carry. -/
def openBits (x y : Ag2pcSecureWires) : List Bool :=
  (List.range y.lambda.length).map fun w => (y.lambda.getD w 0 ^^^
    blockLsb (x.wireBundle.getD w default).mac ^^^ blockLsb (y.wireBundle.getD w default).mac) != 0

/-- Wires with zero shares, whose masked bits are the plain bits. -/
def clearWires (deltaA : Block) (plain : List Bool) : Ag2pcSecureWires where
  lambda := plain.map bitByte
  wireBundle := plain.map fun _ => default
  label0 := plain.map fun _ => Block.zero
  evalLabel :=
    plain.map fun bit => blockXor Block.zero (blockAnd (selectBlock (bitByte bit)) deltaA)

/-- A service which computes programs in the clear. -/
def clearServe (deltaA : Block) : Serve := fun req req' x y =>
  x = clearWires deltaA (req.1.evalPlain (openBits req.2 req'.2)) ∧
    y = clearWires deltaA (req.1.evalPlain (openBits req.2 req'.2))

/-- Clear wires carry their bits. -/
theorem clearWires_carries {deltaA deltaB : Block}
    (hpair : AuthenticatedPair deltaA deltaB default default) (plain : List Bool) :
    CarriesBits deltaA deltaB (clearWires deltaA plain) (clearWires deltaA plain) plain := by
  refine ⟨⟨by simp [clearWires], by simp [clearWires], by simp [clearWires], by simp [clearWires],
    by simp [clearWires], by simp [clearWires], fun w hw => ?_⟩, rfl⟩
  have hzero : blockLsb (default : AShareBundle).mac = 0 := by decide +kernel
  have hget {B : Type} (f : Bool → B) (d : B) : (plain.map f).getD w d = f plain[w] := by
    rw [List.getD_eq_getElem _ _ (by rwa [List.length_map]), List.getElem_map]
  simp only [clearWires, hget, List.getD_eq_getElem _ _ hw]
  exact ⟨hpair, by rw [hzero, UInt8.xor_zero, UInt8.xor_zero], rfl⟩

/-- Carried bits are opened. -/
theorem CarriesBits.openBits_eq {plain : List Bool} (h : CarriesBits deltaA deltaB x y plain) :
    openBits x y = plain := by
  refine List.ext_getElem (by simpa [openBits] using h.valid.lambdaB) fun w hw hw' => ?_
  have hmasked := (h.valid.wires w hw').masked
  have hcancel (v p q : UInt8) : v ^^^ p ^^^ q ^^^ p ^^^ q = v := by
    rw [UInt8.xor_assoc (v ^^^ p) q p, UInt8.xor_comm q p, ← UInt8.xor_assoc, UInt8.xor_assoc v p p,
      UInt8.xor_self, UInt8.xor_zero, UInt8.xor_assoc, UInt8.xor_self, UInt8.xor_zero]
  rw [List.getD_eq_getElem _ _ hw'] at hmasked
  simp only [openBits, List.getElem_map, List.getElem_range, hmasked, hcancel]
  cases plain[w] <;> rfl

/-- The clear service computes its programs. -/
theorem clearServe_runsPrograms {deltaA deltaB : Block}
    (hpair : AuthenticatedPair deltaA deltaB default default) :
    RunsPrograms deltaA deltaB (clearServe deltaA) := by
  intro program x y x' y' plain _ _ hcarries hserve
  rw [hserve.1, hserve.2, hcarries.openBits_eq]
  exact clearWires_carries hpair _

/-- The cache after a first call keeps the masks on the path of its target. -/
theorem keeps_first {sha : Circuit} {serve : Serve} {seedA seedB : Ag2pcSecureWires}
    {R : ℕ → Ag2pcSecureWires → Ag2pcSecureWires → Prop} (hR : NodeRelation serve sha seedA seedB R)
    {index : Index48} (hne : index.get ≠ 0)
    {runs : List ((Ag2pcProgram × Ag2pcSecureWires) × Ag2pcProgram × Ag2pcSecureWires)}
    {resultA resultB : Ag2pcSecureWires × PrecomputeSession}
    (hcall : Together serve ((PrecomputeSession.setup sha seedA).precomputeTarget index)
      ((PrecomputeSession.setup sha seedB).precomputeTarget index) runs resultA resultB) :
    Keeps index.get (unboundedMasks [index]) resultA.2.cache.masks := by
  have hmasks :=
    ((precomputeTarget_ensures hR (setup_related sha seedA seedB R) index).of_together hcall).2.2.2
  rw [hmasks]
  exact (keeps_none.step (Nat.zero_le _) index.le_max hne rfl).1

/-- With a service in the clear, a call for the target 3 after one for the target 2 starts from the
node cached for 2: it runs one program, and returns wires which carry the value of its target. -/
theorem precomputeSession_correct_clear :
    let seed := clearWires (Block.make 0 3) (plainBits firstEdgeDigest ++ plainBits firstEdgeDigest)
    let session := PrecomputeSession.setup edgeGadget seed
    ∃ sessionA sessionB runs wiresA wiresB nextA nextB,
      PairRun (clearServe (Block.make 0 3)) session session [⟨2, by decide⟩] sessionA sessionB ∧
      Together (clearServe (Block.make 0 3)) (sessionA.precomputeTarget ⟨3, by decide⟩)
        (sessionB.precomputeTarget ⟨3, by decide⟩) runs (wiresA, nextA) (wiresB, nextB) ∧
      CarriesValue (Block.make 0 3) (Block.make 0 1) wiresA wiresB thirdEdgeDigest ∧
      runs.length = 1 := by
  have hpair :
      AuthenticatedPair (Block.make 0 3) (Block.make 0 1) default default := by decide +kernel
  have hserve := clearServe_runsPrograms hpair
  have hgadget : DirectGadget edgeCompress edgeGadget :=
    selectGadget_direct (by decide) secondEdgeDigest thirdEdgeDigest
  have hseed := clearWires_carries hpair (plainBits firstEdgeDigest ++ plainBits firstEdgeDigest)
  have htotal (x y : Ag2pcProgram × Ag2pcSecureWires) :
      ∃ x' y', clearServe (Block.make 0 3) x y x' y' :=
    ⟨_, _, rfl, rfl⟩
  intro seed session
  -- The first call, on an empty cache.
  obtain ⟨-, -, -, hfirst⟩ := precomputeSession_correct hgadget hserve hseed .start
  obtain ⟨firstRuns, ⟨firstA, sessionA⟩, ⟨firstB, sessionB⟩, htwo⟩ := hfirst htotal ⟨2, by decide⟩
  have hrun :
      PairRun (clearServe (Block.make 0 3)) session session [⟨2, by decide⟩] sessionA sessionB :=
    .target .start htwo
  -- The second call finds its parent.
  obtain ⟨-, -, hcall, hsecond⟩ := precomputeSession_correct hgadget hserve hseed hrun
  obtain ⟨runs, ⟨wiresA, nextA⟩, ⟨wiresB, nextB⟩, hthree⟩ := hsecond htotal ⟨3, by decide⟩
  obtain ⟨hvalue, hcount⟩ := hcall _ _ _ _ _ _ hthree
  have hkeeps := keeps_first (hserve.nodeRelation hgadget hseed) (by decide) htwo
  have hplanned : sessionA.plannedCheckedUnits ⟨3, by decide⟩ = 1 :=
    (hkeeps.plannedCheckedUnits_eq (by decide)).trans (by decide +kernel)
  rw [show generateFromSeed _ _ _ = _ from edge_value] at hvalue
  exact ⟨sessionA, sessionB, runs, wiresA, wiresB, nextA, nextB, hrun, hthree, hvalue,
    (hcount (by decide)).1.trans hplanned⟩

end Shachain2pc
