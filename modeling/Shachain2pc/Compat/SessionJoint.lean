import Shachain2pc.Compat.SessionRun
import Shachain2pc.Party.PublicReveal

/-!
# Steps of two sessions

Two sessions with paired pools hold wires together: equal masked bits, authenticated shares of
the masks, and a label for each masked bit. They keep this when they authenticate inputs and
when they run a program, and both open the plain bits.
-/

namespace Shachain2pc

open JointRuns AuthenticatedBits
open Ag2pcTriplePool

/-- The plain bits of wires, and whether they tell that the parties agree on the masked bits. Those
of a program without AND gates reach Alice as zeros, so there they agree only for some masks and are
not counted as agreed. -/
structure PlainWires where
  bits : List Bool
  agreed : Bool
  deriving DecidableEq, Repr

/-- What a program makes of plain bits. -/
def Ag2pcProgram.plainOutputs (program : Ag2pcProgram) (plain : List Bool) : PlainWires :=
  ⟨program.evalPlain plain, 0 < countAnds program.gates⟩

namespace Ag2pcSession

/-! ## Sessions on rounds -/

section Ports

variable {S L : Type} [Traffic L] [Port S L]

instance : Port (Ag2pcSession S) (Rounds L) where
  load todo done session := { session with pool := Port.load todo done session.pool }

/-- The streams of a session are those of its pool. -/
theorem within_pool :
    Within pool (fun pool (session : Ag2pcSession S) => { session with pool := pool })
    (fun rounds : Rounds L => rounds) where
  run _ todo done _ := ⟨todo, done, rfl, fun _ => rfl⟩

end Ports

variable {sha256 : List UInt8 → Value32} {base : PoolBase (StreamEnd sha256)}
  {deltaA deltaB : Block}

/-- Two sessions, the pools of which are paired. -/
def SessionPaired (deltaA deltaB : Block) (alice bob : Ag2pcSession (StreamEnd sha256)) : Prop :=
  PoolPaired CotReady deltaA deltaB alice.pool bob.pool

section Joint

variable {A B C D : Type}
  {post : A → Ag2pcSession (StreamEnd sha256) → B → Ag2pcSession (StreamEnd sha256) → Prop}

/-- Code on both pools. -/
theorem joint_onPool {prog : PoolM (StreamEnd sha256) A} {prog' : PoolM (StreamEnd sha256) B}
    {value : A → B → Prop}
    (h : Joint (PoolPaired CotReady deltaA deltaB) prog prog' fun a alice b bob => value a b ∧
      PoolPaired CotReady deltaA deltaB alice bob) :
    Joint (SessionPaired deltaA deltaB) (onPool prog) (onPool prog')
      fun a alice b bob => value a b ∧ SessionPaired deltaA deltaB alice bob := by
  intro alice bob hpaired
  obtain ⟨left, right, a, pool, b, pool', hmeets, hours, htheirs, hvalue, hpools⟩ := h _ _ hpaired
  exact ⟨left, right, a, { alice with pool := pool }, b, { bob with pool := pool' }, hmeets,
    hours.zoom within_pool,
    htheirs.zoom within_pool, hvalue, hpools⟩

/-- Code on both pools which returns nothing. -/
theorem joint_onPoolUnit {prog prog' : PoolM (StreamEnd sha256) Unit}
    (h : Joint (PoolPaired CotReady deltaA deltaB) prog prog'
      fun _ alice _ bob => PoolPaired CotReady deltaA deltaB alice bob) :
    Joint (SessionPaired deltaA deltaB) (onPool prog) (onPool prog')
      fun _ alice _ bob => SessionPaired deltaA deltaB alice bob := by
  have htrue : Joint (PoolPaired CotReady deltaA deltaB) prog prog'
      fun _ alice _ bob => True ∧ PoolPaired CotReady deltaA deltaB alice bob :=
    h.mono (fun _ _ h => h) fun _ _ _ _ h => ⟨trivial, h⟩
  exact (joint_onPool htrue).mono (fun _ _ h => h) fun _ _ _ _ h => h.2

/-- Both read the states of their pools. -/
theorem joint_poolState {next : Ag2pcTriplePoolState → SessionM (StreamEnd sha256) A}
    {next' : Ag2pcTriplePoolState → SessionM (StreamEnd sha256) B}
    (h : ∀ p q, StatesPaired deltaA deltaB p q →
      Joint (SessionPaired deltaA deltaB) (next p) (next' q) post) :
    Joint (SessionPaired deltaA deltaB) (do
      next (← get).pool.state) (do
      next' (← get).pool.state) post := by
  intro alice bob hpaired
  obtain ⟨left, right, a, alice', b, bob', hmeets, hours, htheirs, hpost⟩ :=
    h _ _ ⟨hpaired.honest, hpaired.offsetA, hpaired.offsetB, hpaired.ssp⟩ _ _ hpaired
  exact ⟨left, right, a, alice', b, bob', hmeets, .get hours fun _ _ => rfl,
    .get htheirs fun _ _ => rfl, hpost⟩

end Joint

/-- A result of the wire layer which is given. -/
theorem onCompat_ok {S A : Type} (a : A) : (onCompat (.ok a) : SessionM S A) = pure a := rfl

/-- Results of the wire layer which are given. -/
theorem joint_onCompat {A B : Type} {value : A → B → Prop} {result : Except CompatError A}
    {result' : Except CompatError B} {a : A} {b : B} (hours : result = .ok a)
    (htheirs : result' = .ok b) (h : value a b) :
    Joint (SessionPaired deltaA deltaB) (onCompat result) (onCompat result')
      fun x (alice : Ag2pcSession (StreamEnd sha256)) y bob => value x y ∧
      SessionPaired deltaA deltaB alice bob := by
  rw [hours, htheirs]
  exact .pure fun _ _ hpaired => ⟨h, hpaired⟩

/-! ## Wires of two parties -/

/-- Wires which two parties hold, with the plain bits. -/
structure WiresPaired (deltaA deltaB : Block) (plain : PlainWires) (a b : Ag2pcSecureWires) :
    Prop where
  valid : ValidWires deltaA deltaB a b plain.bits
  agree : plain.agreed = true → a.lambda = b.lambda

/-! ## Programs -/

section Programs

variable {program : Ag2pcProgram} {plain : List Bool} {inputs inputs' : Ag2pcSecureWires}
  {draw draw' : ℕ → List AShareBundle} {sigma sigma' : List AShareBundle}

/-- The run of two parties which draw batches and compute products. -/
def programRun (deltaA deltaB : Block) (program : Ag2pcProgram) (inputs inputs' : Ag2pcSecureWires)
    (draw draw' : ℕ → List AShareBundle) (sigma sigma' : List AShareBundle) (mitc : HalfGateHash) :
    HonestRun HalfGateHash :=
  ⟨program, deltaA, deltaB, inputs, inputs', draw, draw', sigma, sigma', mitc⟩

/-- What a run needs of the program and its inputs. -/
structure Runnable (deltaA deltaB : Block) (program : Ag2pcProgram) (plain : List Bool)
    (inputs inputs' : Ag2pcSecureWires) : Prop where
  wellFormed : program.WellFormed
  width : plain.length = program.numInputs
  inputs : WiresPaired deltaA deltaB ⟨plain, true⟩ inputs inputs'

/-- Batches and products which two parties hold together make a run valid. -/
theorem Runnable.valid (h : Runnable deltaA deltaB program plain inputs inputs')
    (hdelta0 : blockLsb deltaA = 1) (hdelta1 : blockLsb1 deltaA = 1)
    (hdraw : ∀ j, BatchPaired deltaA deltaB (draw j) (draw' j))
    (hsigma : SharesPaired deltaA deltaB sigma sigma') (mitc : HalfGateHash) :
    (programRun deltaA deltaB program inputs inputs' draw draw' sigma sigma' mitc).Valid plain where
  program := h.wellFormed
  width := h.width
  inputs := h.inputs.valid
  agree := h.inputs.agree rfl
  delta0 := hdelta0
  delta1 := hdelta1
  batchesA j := (hdraw j).1
  batchesB j := (hdraw j).2.length_eq ▸ (hdraw j).1
  drawn k := (hdraw (k / drawBatch)).2.anywhere (k % drawBatch)
  sigma k _ := hsigma.anywhere k

/-- The inputs of the AND gates which two parties collect. -/
theorem collected_paired {R : HonestRun HalfGateHash} (h : R.Shared) :
    (SharesPaired R.deltaA R.deltaB R.alice.repA R.bob.repA ∧
      SharesPaired R.deltaA R.deltaB R.alice.repB R.bob.repB) ∧
      R.alice.repA.length = countAnds R.program.gates ∧ R.alice.repB.length =
        countAnds R.program.gates := by
  have hpaired (f : GateStep → ℕ) (hf : ∀ step, f step = step.gate.in0 ∨ f step = step.gate.right) :
      SharesPaired R.deltaA R.deltaB (R.program.andSteps.map fun step => R.shareA (f step))
        (R.program.andSteps.map fun step => R.shareB (f step)) := by
    rw [SharesPaired, List.forall₂_map_left_iff, List.forall₂_map_right_iff, List.forall₂_same]
    intro step hmem
    have hstep := (List.mem_filter.mp hmem).1
    have hindex := (List.getElem?_eq_some_iff.mp (getElem?_of_mem_gateSteps hstep)).1
    have hread := h.program.reads _ _ (getElem?_of_mem_gateSteps hstep)
    have hlt0 := hread _ step.gate.right_mem.1
    have hlt1 := hread _ step.gate.right_mem.2
    refine h.pair ?_
    rcases hf step with hin | hin <;> rw [hin] <;> omega
  rw [h.alice_prepared.repA, h.alice_prepared.repB, h.bob_prepared.repA, h.bob_prepared.repB,
    List.length_map, List.length_map, Ag2pcProgram.andSteps, length_filter_gateSteps]
  exact ⟨⟨hpaired (fun step => step.gate.in0) fun _ => .inl rfl,
    hpaired (fun step => step.gate.right) fun _ => .inr rfl⟩,
    rfl, rfl⟩

/-- The bit which two parties share at a position. -/
theorem sharedBits_getD {xs ys : List AShareBundle} (hlength : xs.length = ys.length) (k : ℕ) :
    (sharedBits xs ys).getD k 0 = blockLsb (nth xs k).mac ^^^ blockLsb (nth ys k).mac := by
  by_cases hk : k < xs.length
  · rw [sharedBits_eq rfl hlength.symm, getD_map_range _ hk]
  · have hk' : ¬k < ys.length := hlength ▸ hk
    rw [nth, nth, List.getD_eq_default _ _ (not_lt.mp hk), List.getD_eq_default _ _ (not_lt.mp hk'),
      List.getD_eq_default _ _ (by rw [sharedBits, List.length_zipWith]; omega)]
    decide

/-- Products of the inputs which two parties collect are correct. -/
theorem correctSigma {R : HonestRun HalfGateHash} (h : R.Shared)
    (hsigma : SharesPaired R.deltaA R.deltaB R.sigmaA R.sigmaB)
    (hproducts : sharedBits R.sigmaA R.sigmaB = List.zipWith (· &&& ·)
      (sharedBits R.alice.repA R.bob.repA) (sharedBits R.alice.repB R.bob.repB)) :
    R.CorrectSigma := by
  intro k hk
  obtain ⟨⟨hA, hB⟩, hlengthA, hlengthB⟩ := collected_paired h
  have hbit := congrArg (fun bits => bits.getD k 0) hproducts
  have hkA : k < (sharedBits R.alice.repA R.bob.repA).length := by
    rwa [sharedBits_length hA.length_eq, hlengthA]
  have hkB : k < (sharedBits R.alice.repB R.bob.repB).length := by
    rwa [sharedBits_length hB.length_eq, hlengthB]
  have hzip : (List.zipWith (· &&& ·) (sharedBits R.alice.repA R.bob.repA)
      (sharedBits R.alice.repB R.bob.repB)).getD k 0 =
      (sharedBits R.alice.repA R.bob.repA).getD k 0 &&&
        (sharedBits R.alice.repB R.bob.repB).getD k 0 := by
    rw [List.getD_eq_getElem _ _ (by rw [List.length_zipWith]; omega), List.getElem_zipWith,
      List.getD_eq_getElem _ _ hkA, List.getD_eq_getElem _ _ hkB]
  rw [hzip, sharedBits_getD hsigma.length_eq, sharedBits_getD hA.length_eq,
    sharedBits_getD hB.length_eq] at hbit
  exact hbit

/-- Both derive the hash of half gates from the digests of their streams. -/
theorem joint_halfGateSeed :
    Joint (PoolPaired CotReady deltaA deltaB) (halfGateSeed base) (halfGateSeed base.peer)
      fun seed alice seed' bob => seed = seed' ∧ PoolPaired CotReady deltaA deltaB alice bob := by
  intro alice bob hpaired
  obtain ⟨main, sibling, hmain, hsibling, hmain', hsibling'⟩ := hpaired.digests
  obtain ⟨seed, hseed⟩ := digestSeed_ok base "AG2PC half-gate" (by decide +kernel) main sibling
  refine ⟨Traffic.none, Traffic.none, seed, alice, seed, bob, Traffic.meets_none, ?_,
    ?_, rfl, hpaired⟩
  · exact .get
        (.ofExcept (by rw [hmain]; rfl) (.ofExcept (by rw [hsibling]; rfl) (.local fun _ _ => by
      rw [show digestSeed base _ main sibling = _ from hseed]; rfl)))
      fun todo done => by simp only [Ag2pcTriplePool.getDigest, getDigest_streams todo done alice]
  · exact .get
        (.ofExcept (by rw [hmain']; rfl) (.ofExcept (by rw [hsibling']; rfl) (.local fun _ _ => by
      rw [show digestSeed base.peer _ main sibling = _ from hseed]; rfl)))
      fun todo done => by simp only [Ag2pcTriplePool.getDigest, getDigest_streams todo done bob]

/-- What a party does with inputs which it accepts. -/
theorem runWires_eq {S : Type} [TranscriptIo S] (base : PoolBase S) (pool : Ag2pcTriplePoolState)
    (nonce : Block) (hcheck : checkSecureWires pool.party inputs = .ok ())
    (hwidth : inputs.lambda.length = program.numInputs) :
    runWires base pool program inputs nonce = do
      let state ← onPool (slotMaskPass base program (Ag2pcRunState.livenessPass program
        (.new pool.party pool.delta inputs (HalfGateHash.new Block.zero))))
      let sigma ← onPool (computeInplace base state.repA state.repB nonce)
      let seed ← onPool (halfGateSeed base)
      let state ← onPool (halfGatePath base pool.party program
        { state.withSigma sigma with mitc := HalfGateHash.new seed })
      onPool (maybeFlushCotCheck base)
      return gatherOutputs state program := by
  rw [runWires, hcheck, if_neg (not_not.mpr hwidth)]
  rfl

/-- The wires which are gathered after a valid run. -/
theorem gathered_paired {R : HonestRun HalfGateHash} (H : TweakableHash HalfGateHash)
    (h : R.Valid plain) (hsigma : R.CorrectSigma) {x y : Ag2pcSecureWires}
    (hrun : R.run H sha256 = some (.ok (x, y))) :
    WiresPaired R.deltaA R.deltaB (R.program.plainOutputs plain) x y := by
  rw [h.run H sha256 hsigma] at hrun
  obtain ⟨rfl, rfl⟩ := Prod.mk.inj (Except.ok.inj (Option.some.inj hrun))
  refine ⟨h.outputs H (h.shared.products hsigma) _, fun hands => List.map_congr_left fun w _ => ?_⟩
  rw [HonestRun.gatheredMask, if_pos (of_decide_eq_true hands)]

/-- Both garble and evaluate on what they drew and computed. -/
theorem joint_garbled (h : base.abit1.Delivers) (h' : base.abit2.Delivers)
    (hdelta0 : blockLsb deltaA = 1) (hdelta1 : blockLsb1 deltaA = 1)
    (hrunnable : Runnable deltaA deltaB program plain inputs inputs')
    (hdraw : ∀ j, BatchPaired deltaA deltaB (draw j) (draw' j)) (nonce nonce' : Block) :
    let alice := slottedRun draw program .alice deltaA inputs (HalfGateHash.new Block.zero)
    let bob := slottedRun draw' program .bob deltaB inputs' (HalfGateHash.new Block.zero)
    Joint (SessionPaired deltaA deltaB) (do
      let sigma ← onPool (computeInplace base alice.repA alice.repB nonce)
      let seed ← onPool (halfGateSeed base)
      let state ← onPool (halfGatePath base .alice program
        { alice.withSigma sigma with mitc := HalfGateHash.new seed })
      onPool (maybeFlushCotCheck base)
      return gatherOutputs state program) (do
      let sigma ← onPool (computeInplace base.peer bob.repA bob.repB nonce')
      let seed ← onPool (halfGateSeed base.peer)
      let state ← onPool (halfGatePath base.peer .bob program
        { bob.withSigma sigma with mitc := HalfGateHash.new seed })
      onPool (maybeFlushCotCheck base.peer)
      return gatherOutputs state program)
      fun x alice y bob => WiresPaired deltaA deltaB (program.plainOutputs plain) x y ∧
        SessionPaired deltaA deltaB alice bob := by
  intro alice bob
  have hcollects :=
    (hrunnable.valid hdelta0 hdelta1 hdraw .nil (HalfGateHash.new Block.zero)).shared
  obtain ⟨⟨hA, hB⟩, hlengthA, hlengthB⟩ := collected_paired hcollects
  refine (joint_onPool
    (joint_computeInplace (hlengthA.trans hlengthB.symm) hA hB nonce nonce')).bind
    fun sigma sigma' => Joint.assume ?_
  rintro ⟨hsigma, hproducts⟩
  refine (joint_onPool joint_halfGateSeed).bind fun seed _ => Joint.assume ?_
  rintro rfl
  have hvalid := hrunnable.valid hdelta0 hdelta1 hdraw hsigma (HalfGateHash.new seed)
  have hours := hvalid.shared.alice_prepared
  have htheirs := hvalid.shared.bob_prepared
  have hcorrect := correctSigma hvalid.shared hsigma (by
    rw [hours.repA, hours.repB, htheirs.repA, htheirs.repB]
    rwa [hcollects.alice_prepared.repA, hcollects.alice_prepared.repB, hcollects.bob_prepared.repA,
      hcollects.bob_prepared.repB] at hproducts)
  rw [withSigma_withMitc, withSigma_withMitc]
  obtain ⟨a, b, hrun, hpath⟩ :=
    @joint_halfGatePath sha256 base deltaA deltaB _ plain hvalid hcorrect
  refine (joint_onPool hpath).bind fun x y => Joint.assume ?_
  rintro ⟨rfl, rfl⟩
  refine (joint_onPoolUnit (joint_maybeFlushCotCheck h h')).bind fun _ _ => ?_
  exact .pure fun _ _ hpaired => ⟨gathered_paired _ hvalid hcorrect hrun, hpaired⟩

/-- Both parties run a program. -/
theorem joint_runWires (h : base.abit1.Delivers) (h' : base.abit2.Delivers)
    (hdelta0 : blockLsb deltaA = 1) (hdelta1 : blockLsb1 deltaA = 1)
    (hrunnable : Runnable deltaA deltaB program plain inputs inputs') (nonce nonce' : Block)
    {p q : Ag2pcTriplePoolState} (hstates : StatesPaired deltaA deltaB p q) :
    Joint (SessionPaired deltaA deltaB) (runWires base p program inputs nonce)
      (runWires base.peer q program inputs' nonce')
      fun x alice y bob => WiresPaired deltaA deltaB (program.plainOutputs plain) x y ∧
        SessionPaired deltaA deltaB alice bob := by
  obtain ⟨⟨hlambda, hlambda', hbundle, hbundle', hlabels, hlabels', -⟩, hmasked⟩ := hrunnable.inputs
  have hagree := hmasked rfl
  have hwidth : inputs.lambda.length = program.numInputs := hlambda.trans hrunnable.width
  have hours : checkSecureWires p.party inputs = .ok () := by
    rw [hstates.honest.alice, checkSecureWires, if_neg (not_not.mpr (hbundle.trans hlambda.symm))]
    exact if_neg (not_not.mpr (hlabels.trans hlambda.symm))
  have htheirs : checkSecureWires q.party inputs' = .ok () := by
    rw [hstates.honest.bob, checkSecureWires, if_neg (not_not.mpr (hbundle'.trans hlambda'.symm))]
    exact if_neg (not_not.mpr (hlabels'.trans hlambda'.symm))
  rw [runWires_eq base p nonce hours hwidth,
    runWires_eq base.peer q nonce' htheirs (hagree ▸ hwidth),
    hstates.honest.alice, hstates.honest.bob, hstates.offsetA, hstates.offsetB]
  refine (joint_onPool (joint_slotMaskPass program _ _)).bind fun x y => Joint.assume ?_
  rintro ⟨draw, draw', hdraw, rfl, rfl⟩
  exact joint_garbled h h' hdelta0 hdelta1 hrunnable hdraw nonce nonce'

/-- Both parties run a program on wires which they hold. -/
theorem joint_runProgram (h : base.abit1.Delivers) (h' : base.abit2.Delivers)
    (hdelta0 : blockLsb deltaA = 1) (hdelta1 : blockLsb1 deltaA = 1)
    (hrunnable : Runnable deltaA deltaB program plain inputs inputs') (nonce nonce' : Block) :
    Joint (SessionPaired deltaA deltaB) (runProgram base program inputs nonce)
      (runProgram base.peer program inputs' nonce')
      fun x alice y bob => WiresPaired deltaA deltaB (program.plainOutputs plain) x y ∧
        SessionPaired deltaA deltaB alice bob :=
  joint_poolState fun _ _ hstates =>
    joint_runWires h h' hdelta0 hdelta1 hrunnable nonce nonce' hstates

end Programs

/-! ## Inputs -/

section Inputs

variable {owners : List Role} {bitsA bitsB : List (List UInt8)} {xs ys : List AShareBundle}
  {labels : List Block}

/-- What two parties pass for the same owners: vectors of equal lengths. -/
structure InputsFit (owners : List Role) (bitsA bitsB : List (List UInt8)) : Prop where
  owners : owners.length = bitsA.length
  lens : bitsA.map (·.length) = bitsB.map (·.length)
  total : bitsA.flatten.length < 2 ^ 64

/-- The run of two parties which draw shares and labels. -/
def inputRun (deltaA deltaB : Block) (owners : List Role) (bitsA bitsB : List (List UInt8))
    (xs ys : List AShareBundle) (labels : List Block) : InputRun :=
  ⟨deltaA, deltaB, owners, bitsA, bitsB, fun _ => xs, fun _ => ys, fun _ => labels⟩

/-- Shares which two parties draw make the run valid. -/
theorem InputsFit.valid (h : InputsFit owners bitsA bitsB)
    (hlength : xs.length = bitsA.flatten.length) (hshares : SharesPaired deltaA deltaB xs ys)
    (hlabels : labels.length = bitsA.flatten.length) :
    (inputRun deltaA deltaB owners bitsA bitsB xs ys labels).Valid where
  owners := h.owners
  lens := h.lens
  total := h.total
  drawA := hlength
  drawB := hshares.length_eq ▸ hlength
  labels := hlabels
  drawn w _ := hshares.anywhere w

/-- Wires which two parties hold, one after the other. -/
structure HeldPaired (deltaA deltaB : Block) (plains : List PlainWires)
    (ours theirs : List Ag2pcSecureWires) :
    Prop where
  countA : ours.length = plains.length
  countB : theirs.length = plains.length
  wires : ∀ (k : ℕ) plain, plains[k]? = some plain → ∃ a b, ours[k]? = some a ∧
    theirs[k]? = some b ∧
    WiresPaired deltaA deltaB plain a b

/-- The bits of the owners, which the parties agree on. -/
def plainOwners (owners : List Role) (bitsA bitsB : List (List UInt8)) : List PlainWires :=
  (ownerBits owners bitsA bitsB).map (⟨·, true⟩)

/-- The slices of the owners are held together. -/
theorem held_cuts {R : InputRun} (h : R.Valid) :
    HeldPaired R.deltaA R.deltaB (R.plain.map (⟨·, true⟩)) (R.cuts R.wiresA) (R.cuts R.wiresB) := by
  have hslices := h.authenticated
  have hplain := congrArg List.length h.plain_lens
  rw [List.length_map, List.length_map, ← h.owners] at hplain
  have hcount : (R.plain.map (PlainWires.mk · true)).length = R.owners.length :=
    (List.length_map _).trans hplain
  refine ⟨hslices.countA.trans hcount.symm, hslices.countB.trans hcount.symm, fun k plain hk => ?_⟩
  rw [List.getElem?_map] at hk
  obtain ⟨bits, hbits, rfl⟩ := Option.map_eq_some_iff.mp hk
  obtain ⟨a, b, ha, hb, hvalid, hagree⟩ := hslices.slices k bits hbits
  exact ⟨a, b, ha, hb, hvalid, fun _ => hagree⟩

/-- Alice draws labels, and Bob does not. -/
theorem joint_drawLabels (permute : Block → Block → Block) (total : ℕ) :
    Joint (SessionPaired deltaA deltaB) (drawLabels permute total)
      (pure [] : SessionM (StreamEnd sha256) (List Block))
      fun labels (alice : Ag2pcSession (StreamEnd sha256)) none bob =>
        (labels.length = total ∧ none = ([] : List Block)) ∧
        SessionPaired deltaA deltaB alice bob := by
  intro alice bob hpaired
  refine ⟨Traffic.none, Traffic.none, (alice.prg.randomBlock permute total).1,
    { alice with prg := (alice.prg.randomBlock permute total).2 }, [], bob,
    Traffic.meets_none, .local fun _ _ => rfl, .pure [] bob, ⟨?_, rfl⟩, hpaired⟩
  simp [Prg.randomBlock]

/-- Both exchange what opens the masked bits. -/
theorem joint_exchangeInputOpen {share share' : RevealNodeShare} {packed packed' : List UInt8}
    {total len len' : ℕ} (htotal : share.shareBits.length = total)
    (htotal' : share'.shareBits.length = total) (hlen : packed'.length = len)
    (hlen' : packed.length = len') :
    Joint (PoolPaired CotReady deltaA deltaB) (exchangeInputOpen share packed total len)
      (exchangeInputOpen share' packed' total len')
      fun x (alice : Ag2pcTriplePool (StreamEnd sha256)) y bob =>
        (x = (share'.shareBits, share'.macDigest, packed') ∧ y =
          (share.shareBits, share.macDigest, packed)) ∧
          PoolPaired CotReady deltaA deltaB alice bob := by
  have hopposite (messages : List (List UInt8)) :
      (messages.map (Event.received : List UInt8 → Event UInt8)).map Event.opposite =
        messages.map .sent := by
    rw [List.map_map]
    rfl
  refine joint_exchange (exchanges_recvInputOpen htotal' hlen) ?_
    (exchanges_recvInputOpen htotal hlen') ?_
  · rw [hopposite]
    exact exchanges_sendInputOpen share' packed'
  · rw [hopposite]
    exact exchanges_sendInputOpen share packed

/-- Alice sends the labels of the masked bits, and Bob receives them. -/
theorem joint_exchangeLabels {p q : Ag2pcTriplePoolState} (hstates : StatesPaired deltaA deltaB p q)
    {total : ℕ} {lambda : List UInt8} (hlambda : lambda.length = total)
    (hlabels : labels.length = total) :
    Joint (SessionPaired deltaA deltaB) (exchangeLabels p total lambda xs labels)
      (exchangeLabels q total lambda ys [])
      fun x (alice : Ag2pcSession (StreamEnd sha256)) y bob =>
        (x = ⟨lambda, xs, labels, []⟩ ∧ y = ⟨lambda, ys, [], List.zipWith
          (fun label0 lambda => blockXor label0 (blockAnd (selectBlock lambda) deltaA))
            labels lambda⟩) ∧
          SessionPaired deltaA deltaB alice bob := by
  obtain ⟨sent, hsent⟩ : ∃ sent, sent = List.zipWith
    (fun label0 lambda => blockXor label0 (blockAnd (selectBlock lambda) deltaA)) labels lambda :=
      ⟨_, rfl⟩
  have hlength : sent.length = total := by simp [hsent, hlambda, hlabels]
  unfold exchangeLabels
  simp only [hstates.honest.alice, hstates.honest.bob, hstates.offsetA]
  rw [← hsent]
  refine (joint_onPool (joint_main (exchanges_sendBlocks sent) (exchanges_recvBlocks hlength)
    (Crossing.opposite _))).bind fun x y => Joint.assume ?_
  rintro ⟨-, rfl⟩
  exact .pure fun _ _ h => ⟨⟨rfl, rfl⟩, h⟩

/-- What a party does with vectors which it accepts. -/
theorem authenticateInputs_eq {S : Type} [TranscriptIo S] (base : PoolBase S)
    (pool : Ag2pcTriplePoolState) {bitsPerOwner : List (List UInt8)} {offsets : List ℕ} {total : ℕ}
    (howners : owners.length = bitsPerOwner.length)
    (hoffsets : inputOffsets (bitsPerOwner.map (·.length)) 0 = .ok (offsets, total))
    (htotal : total ≠ 0) :
    authenticateInputs base pool owners bitsPerOwner = (do
      let wireBundle ← onPool (draw base total)
      let label0 ← match pool.party with
        | .alice => drawLabels base.permute total
        | .bob => pure []
      let owner := ownerOfWire owners bitsPerOwner
      let own := ownXBits pool.party owners bitsPerOwner offsets total
      let peerIndices := peerIdxList pool.party owner
      let (peerShare, peerDigest, peerX) ← onPool
        (exchangeInputOpen (revealLocalShare base.sha256 wireBundle)
        (ownXPacked pool.party owner own) total peerIndices.length)
      let lambda ← onCompat
        (finalizeInputOpen base.sha256 wireBundle own peerIndices peerShare peerDigest
          peerX pool.delta)
      let wires ← exchangeLabels pool total lambda wireBundle label0
      onCompat (ownerSlices wires (bitsPerOwner.map (·.length)) offsets)) := by
  rw [authenticateInputs, if_neg (not_not.mpr howners), hoffsets]
  exact if_neg htotal

/-- What a party does with vectors of no bits. -/
theorem authenticateInputs_empty {S : Type} [TranscriptIo S] (base : PoolBase S)
    (pool : Ag2pcTriplePoolState) {bitsPerOwner : List (List UInt8)} {offsets : List ℕ}
    (howners : owners.length = bitsPerOwner.length)
    (hoffsets : inputOffsets (bitsPerOwner.map (·.length)) 0 = .ok (offsets, 0)) :
    authenticateInputs base pool owners bitsPerOwner =
      pure (List.replicate owners.length ⟨[], [], [], []⟩) := by
  rw [authenticateInputs, if_neg (not_not.mpr howners), hoffsets]
  rfl

/-- The offsets of vectors of the same lengths. -/
theorem InputsFit.inputOffsets_eq (h : InputsFit owners bitsA bitsB) {bits : List (List UInt8)}
    (hbits : bits.map (·.length) = bitsA.map (·.length)) :
    inputOffsets (bits.map (·.length)) 0 =
      .ok ((List.range bitsA.length).map fun k => (bitsA.take k).flatten.length,
      bitsA.flatten.length) := by
  have hoffsets := Shachain2pc.inputOffsets_eq bitsA 0 (by rw [Nat.zero_add]; exact h.total)
  simp only [Nat.zero_add] at hoffsets
  rw [hbits]
  exact hoffsets

/-- Both parties authenticate inputs. -/
theorem joint_authenticateInputs (h : InputsFit owners bitsA bitsB) {p q : Ag2pcTriplePoolState}
    (hstates : StatesPaired deltaA deltaB p q) :
    Joint (SessionPaired deltaA deltaB) (authenticateInputs base p owners bitsA)
      (authenticateInputs base.peer q owners bitsB)
      fun x alice y bob => HeldPaired deltaA deltaB (plainOwners owners bitsA bitsB) x y ∧
        SessionPaired deltaA deltaB alice bob := by
  have howners' : owners.length = bitsB.length := by
    have hlength := congrArg List.length h.lens
    rw [List.length_map, List.length_map] at hlength
    exact h.owners.trans hlength
  have hoursOffsets := h.inputOffsets_eq rfl
  have htheirOffsets := h.inputOffsets_eq h.lens.symm
  by_cases hzero : bitsA.flatten.length = 0
  · have hvalid :=
      @InputsFit.valid deltaA deltaB owners bitsA bitsB [] [] [] h hzero.symm .nil hzero.symm
    have hheld := held_cuts hvalid
    rw [hvalid.cuts_empty hzero, hvalid.cuts_empty hzero] at hheld
    rw [hzero] at hoursOffsets htheirOffsets
    rw [authenticateInputs_empty base p h.owners hoursOffsets,
      authenticateInputs_empty base.peer q howners' htheirOffsets]
    exact .pure fun _ _ hpaired => ⟨hheld, hpaired⟩
  rw [authenticateInputs_eq base p h.owners hoursOffsets hzero,
    authenticateInputs_eq base.peer q howners' htheirOffsets hzero]
  simp only [hstates.honest.alice, hstates.honest.bob, hstates.offsetA, hstates.offsetB]
  refine (joint_onPool (joint_draw _)).bind fun xs ys => Joint.assume ?_
  rintro ⟨hlength, hshares⟩
  refine (joint_drawLabels base.permute _).bind fun labels _ => Joint.assume ?_
  rintro ⟨hlabels, rfl⟩
  have hvalid := h.valid hlength hshares hlabels
  have hown :
      ownXBits .alice owners bitsA
        ((List.range bitsA.length).map fun k => (bitsA.take k).flatten.length)
      bitsA.flatten.length = partyBits .alice owners bitsA := hvalid.ownXBits_alice
  have hown' :
      ownXBits .bob owners bitsB
        ((List.range bitsA.length).map fun k => (bitsA.take k).flatten.length)
      bitsA.flatten.length = partyBits .bob owners bitsB := hvalid.ownXBits_bob
  have hbits : (revealLocalShare base.sha256 xs).shareBits.length = bitsA.flatten.length := by
    rw [revealLocalShare, List.length_map, hlength]
  have hbits' : (revealLocalShare base.sha256 ys).shareBits.length = bitsA.flatten.length := by
    rw [revealLocalShare, List.length_map, ← hshares.length_eq, hlength]
  rw [hown, hown', ownerOfWire_congr owners h.lens.symm]
  refine (joint_onPool (joint_exchangeInputOpen hbits hbits' (ownXPacked_length (by decide) _ _)
    (ownXPacked_length (by decide) _ _))).bind fun x y => ?_
  obtain ⟨share, digest, packed⟩ := x
  obtain ⟨share', digest', packed'⟩ := y
  refine Joint.assume ?_
  rintro ⟨hreceived, hreceived'⟩
  cases hreceived
  cases hreceived'
  have hopened : finalizeInputOpen base.sha256 xs (partyBits .alice owners bitsA)
    (peerIdxList .alice (ownerOfWire owners bitsA)) (revealLocalShare base.sha256 ys).shareBits
    (revealLocalShare base.sha256 ys).macDigest
    (ownXPacked .bob (ownerOfWire owners bitsA) (partyBits .bob owners bitsB)) deltaA = _ :=
      hvalid.opens_alice
  have hopened' : finalizeInputOpen base.sha256 ys (partyBits .bob owners bitsB)
    (peerIdxList .bob (ownerOfWire owners bitsA)) (revealLocalShare base.sha256 xs).shareBits
    (revealLocalShare base.sha256 xs).macDigest
    (ownXPacked .alice (ownerOfWire owners bitsA) (partyBits .alice owners bitsA)) deltaB = _ :=
      hvalid.opens_bob
  have hpeer : base.peer.sha256 = base.sha256 := rfl
  simp only [hpeer, hopened, hopened', onCompat_ok, pure_bind]
  refine (joint_exchangeLabels hstates hvalid.lambda_length hlabels).bind fun x y => Joint.assume ?_
  rintro ⟨rfl, rfl⟩
  have hours := @InputRun.Valid.ownerSlices_eq _ hvalid (InputRun.wiresA _) hvalid.lambda_length
  have htheirs := @InputRun.Valid.ownerSlices_eq _ hvalid (InputRun.wiresB _) hvalid.lambda_length
  rw [← h.lens]
  exact joint_onCompat hours htheirs (held_cuts hvalid)

/-- Both parties authenticate inputs, and count the calls. -/
theorem joint_processInputs (h : InputsFit owners bitsA bitsB) :
    Joint (SessionPaired deltaA deltaB) (processInputs base owners bitsA)
      (processInputs base.peer owners bitsB)
      fun x alice y bob => HeldPaired deltaA deltaB (plainOwners owners bitsA bitsB) x y ∧
        SessionPaired deltaA deltaB alice bob := by
  have hcount : Joint (SessionPaired deltaA deltaB)
      (modify fun session => { session with processInputCalls := session.processInputCalls + 1 } :
        SessionM (StreamEnd sha256) Unit)
      (modify fun session => { session with processInputCalls := session.processInputCalls + 1 } :
        SessionM (StreamEnd sha256) Unit)
      fun _ alice _ bob => SessionPaired deltaA deltaB alice bob := fun alice bob hpaired =>
    ⟨Traffic.none, Traffic.none, (),
      { alice with processInputCalls := alice.processInputCalls + 1 }, (),
      { bob with processInputCalls := bob.processInputCalls + 1 }, Traffic.meets_none,
      .local fun _ _ => rfl,
      .local fun _ _ => rfl, hpaired⟩
  exact hcount.bind fun _ _ => joint_poolState fun _ _ hstates => joint_authenticateInputs h hstates

end Inputs

/-! ## Openings -/

section Openings

variable {plain : List Bool} {ours theirs : Ag2pcSecureWires}

/-- Wires which two parties hold are shared, when Alice has the masked bits. -/
theorem WiresPaired.shared (h : WiresPaired deltaA deltaB ⟨plain, true⟩ ours theirs) :
    SharedNode deltaA deltaB ours theirs where
  lambda := h.agree rfl
  length := h.valid.bundleA.trans h.valid.lambdaA.symm
  relation := by
    refine verifyShareRelation_iff.mpr
      ⟨h.valid.bundleA.trans h.valid.bundleB.symm, fun i hi hi' => ?_⟩
    have hpair := (h.valid.wires i (h.valid.bundleA ▸ hi)).pair
    rw [List.getD_eq_getElem _ _ hi, List.getD_eq_getElem _ _ hi'] at hpair
    exact ⟨hpair.macAlice, hpair.macBob⟩

/-- The bits which the masked bits and both shares give are the plain bits. -/
theorem WiresPaired.jointBits_eq (h : WiresPaired deltaA deltaB ⟨plain, true⟩ ours theirs) :
    jointBits ours theirs = plain.map bitByte ∧ jointBits theirs ours = plain.map bitByte := by
  have hcancel (x a b : UInt8) : x ^^^ a ^^^ b ^^^ a ^^^ b = x := by
    rw [UInt8.xor_assoc (x ^^^ a ^^^ b), UInt8.xor_assoc x, UInt8.xor_assoc, UInt8.xor_self,
      UInt8.xor_zero]
  have hmasked (i : ℕ) (hi : i < plain.length) := (h.valid.wires i hi).masked
  constructor
  · refine List.ext_getElem (by simp [jointBits, h.valid.lambdaA]) fun i hi hi' => ?_
    have hlt : i < plain.length := by simpa using hi'
    simp only [jointBits, List.getElem_map, List.getElem_range, h.agree rfl, hmasked i hlt, hcancel]
    rw [List.getD_eq_getElem _ _ hlt, bitByte_and_one]
  · refine List.ext_getElem (by simp [jointBits, h.valid.lambdaB]) fun i hi hi' => ?_
    have hlt : i < plain.length := by simpa using hi'
    simp only [jointBits, List.getElem_map, List.getElem_range, hmasked i hlt]
    rw [UInt8.xor_assoc _ (blockLsb _) (blockLsb _),
      UInt8.xor_comm (blockLsb (theirs.wireBundle.getD i default).mac),
      ← UInt8.xor_assoc, hcancel, List.getD_eq_getElem _ _ hlt, bitByte_and_one]

/-- The same wires, when Alice has Bob's masked bits. -/
theorem masked_paired (h : ValidWires deltaA deltaB ours theirs plain) :
    WiresPaired deltaA deltaB ⟨plain, true⟩ { ours with lambda := theirs.lambda } theirs :=
  ⟨{ h with lambdaA := h.lambdaB }, fun _ => rfl⟩

/-- Alice opens wires, with what Bob sends. -/
theorem joint_decodeToAlice (h : WiresPaired deltaA deltaB ⟨plain, true⟩ ours theirs)
    {p q : Ag2pcTriplePoolState} (hstates : StatesPaired deltaA deltaB p q) :
    Joint (SessionPaired deltaA deltaB) (decodeToParty base p ours .alice)
      (decodeToParty base.peer q theirs .alice)
      fun x alice y bob => (x = plain.map bitByte ∧ y = []) ∧
      SessionPaired deltaA deltaB alice bob := by
  have hlength :
      (revealLocalShare base.sha256 theirs.wireBundle).shareBits.length = ours.lambda.length := by
    rw [revealLocalShare, List.length_map, h.valid.bundleB, h.valid.lambdaA]
  have hbits : revealRecipientBits base.sha256 ours.lambda ours.wireBundle _ _ p.delta =
      .ok (plain.map bitByte) :=
    (hstates.offsetA ▸ h.shared.recipientBits).trans
      (congrArg Except.ok (h.shared.openedBits_eq.trans h.jointBits_eq.1))
  rw [decodeToParty, decodeToParty, if_neg (by rw [hstates.honest.alice]; decide),
    if_pos (by rw [hstates.honest.bob]; decide), hstates.honest.alice, hstates.honest.bob]
  refine (joint_onPool (joint_main (exchanges_recvShare hlength) (exchanges_sendShare _)
    (Crossing.opposite _))).bind fun x _ => ?_
  obtain ⟨share, digest⟩ := x
  refine Joint.assume ?_
  rintro ⟨hreceived, -⟩
  cases hreceived
  simp only [hbits, onCompat_ok]
  exact .pure fun _ _ hpaired => ⟨⟨rfl, rfl⟩, hpaired⟩

/-- Bob opens wires, with what Alice sends. -/
theorem joint_decodeToBob (h : ValidWires deltaA deltaB ours theirs plain)
    {p q : Ag2pcTriplePoolState} (hstates : StatesPaired deltaA deltaB p q) :
    Joint (SessionPaired deltaA deltaB) (decodeToParty base p ours .bob)
      (decodeToParty base.peer q theirs .bob)
      fun x alice y bob => (x = [] ∧ y = plain.map bitByte) ∧
      SessionPaired deltaA deltaB alice bob := by
  have hlength :
      (revealLocalShare base.sha256 ours.wireBundle).shareBits.length = theirs.lambda.length := by
    rw [revealLocalShare, List.length_map, h.bundleA, h.lambdaB]
  have hshared := (masked_paired h).shared.symm
  have hpeer : base.peer.sha256 = base.sha256 := rfl
  have hbits : revealRecipientBits base.sha256 theirs.lambda theirs.wireBundle _ _ q.delta =
      .ok (plain.map bitByte) :=
    (hstates.offsetB ▸ hshared.recipientBits).trans
      (congrArg Except.ok (hshared.openedBits_eq.trans (masked_paired h).jointBits_eq.2))
  rw [decodeToParty, decodeToParty, if_pos (by rw [hstates.honest.alice]; decide),
    if_neg (by rw [hstates.honest.bob]; decide), hstates.honest.alice, hstates.honest.bob]
  refine (joint_onPool (joint_main (exchanges_sendShare _) (exchanges_recvShare hlength)
    (Crossing.opposite _))).bind fun _ y => ?_
  obtain ⟨share, digest⟩ := y
  refine Joint.assume ?_
  rintro ⟨-, hreceived⟩
  cases hreceived
  simp only [hpeer, hbits, onCompat_ok]
  exact .pure fun _ _ hpaired => ⟨⟨rfl, rfl⟩, hpaired⟩

/-- Bob sends the bits which he opened, and Alice returns the same. -/
theorem joint_broadcastBits {p q : Ag2pcTriplePoolState} (hstates : StatesPaired deltaA deltaB p q)
    {bits : List UInt8} (hbits : ∀ b ∈ bits, b &&& 1 = b) {n : ℕ} (hlength : bits.length = n)
    (n' : ℕ) (none : List UInt8) :
    Joint (SessionPaired deltaA deltaB) (broadcastBits p n none) (broadcastBits q n' bits)
      fun x (alice : Ag2pcSession (StreamEnd sha256)) y bob =>
        (x = bits ∧ y = bits) ∧ SessionPaired deltaA deltaB alice bob := by
  unfold broadcastBits
  simp only [hstates.honest.alice, hstates.honest.bob]
  refine (joint_onPool (joint_main (exchanges_recvData hlength)
    ((exchanges_sendData bits).bindQuiet exchanges_flush) (Crossing.opposite _))).bind fun x _ =>
      Joint.assume ?_
  rintro ⟨rfl, -⟩
  refine .pure fun _ _ hpaired => ⟨⟨?_, rfl⟩, hpaired⟩
  exact (List.map_congr_left hbits).trans (List.map_id' _)

/-- What a party opens for a recipient. -/
def opened (recipient : Ag2pcRevealRecipient) (party : Role) (plain : List Bool) : List UInt8 :=
  match recipient with
  | .publicly => plain.map bitByte
  | .party role => if party = role then plain.map bitByte else []

/-- Both open wires. For Alice they agree on the masked bits. -/
theorem joint_decodeWires {held : PlainWires} (h : WiresPaired deltaA deltaB held ours theirs)
    {p q : Ag2pcTriplePoolState} (hstates : StatesPaired deltaA deltaB p q)
    {recipient : Ag2pcRevealRecipient} (hagreed : recipient = .party .alice → held.agreed = true) :
    Joint (SessionPaired deltaA deltaB) (decodeWires base p ours recipient)
      (decodeWires base.peer q theirs recipient)
      fun x alice y bob =>
        (x = opened recipient .alice held.bits ∧ y = opened recipient .bob held.bits) ∧
        SessionPaired deltaA deltaB alice bob := by
  have hours := h.valid.bundleA.trans h.valid.lambdaA.symm
  have htheirs := h.valid.bundleB.trans h.valid.lambdaB.symm
  cases recipient with
  | publicly =>
    rw [decodeWires, decodeWires, if_neg (not_not.mpr hours), if_neg (not_not.mpr htheirs)]
    refine (joint_decodeToBob h.valid hstates).bind fun x y => Joint.assume ?_
    rintro ⟨rfl, rfl⟩
    refine joint_broadcastBits hstates (fun b hb => ?_)
      ((List.length_map _).trans h.valid.lambdaA.symm) _ _
    obtain ⟨x, -, rfl⟩ := List.mem_map.mp hb
    exact bitByte_and_one x
  | party role =>
    rw [decodeWires, decodeWires, if_neg (not_not.mpr hours), if_neg (not_not.mpr htheirs)]
    cases role with
    | alice => exact joint_decodeToAlice ⟨h.valid, fun _ => h.agree (hagreed rfl)⟩ hstates
    | bob => exact joint_decodeToBob h.valid hstates

/-- Both open wires which they hold. -/
theorem joint_decode {held : PlainWires} (h : WiresPaired deltaA deltaB held ours theirs)
    {recipient : Ag2pcRevealRecipient} (hagreed : recipient = .party .alice → held.agreed = true) :
    Joint (SessionPaired deltaA deltaB) (decode base ours recipient)
      (decode base.peer theirs recipient)
      fun x alice y bob =>
        (x = opened recipient .alice held.bits ∧ y = opened recipient .bob held.bits) ∧
        SessionPaired deltaA deltaB alice bob :=
  joint_poolState fun _ _ hstates => joint_decodeWires h hstates hagreed

end Openings

end Ag2pcSession

end Shachain2pc
