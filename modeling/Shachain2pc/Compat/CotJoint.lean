import Shachain2pc.Compat.CotBootstrap
import Shachain2pc.Compat.StreamEnd

/-!
# Joint runs of correlated OTs

A sender and a receiver at the two ends of a stream make the same calls. Their trees agree off
the positions which the sender's Delta gives, they are at one counter of one session, and
their check sums are in relation. Every chunk keeps this, so every session ends with a check
which passes, and the COTs which the two deliver are correlated, one by one.

What the base OTs deliver is a hypothesis here.
-/

namespace Shachain2pc

open JointRuns
open OtState SoftSpoken4State

variable {sha256 : List UInt8 → Value32}

/-- The base OTs deliver the chosen messages: the sender of the extension is their receiver. -/
def OtBase.Delivers (base : OtBase (StreamEnd sha256)) : Prop :=
  ∀ choices data0 data1, choices.length = 128 → data0.length = 128 → data1.length = 128 →
    Joint StreamEnd.Mirrored (base.cswRecv choices) (base.cswSend data0 data1)
      fun received s _ t => received = chosen choices data0 data1 ∧ StreamEnd.Mirrored s t

/-- What the sender and the receiver of one stream have in common. -/
structure OtPaired (malicious : Bool) (delta : Block) (s r : OtState (StreamEnd sha256)) :
    Prop where
  sender : s.state.role = .alice
  receiver : r.state.role = .bob
  active : s.state.malicious = malicious
  malicious : s.state.malicious = r.state.malicious
  setup : s.state.setupDone = r.state.setupDone
  offset : s.state.delta = delta
  lsb : lsb (blockVec delta) = 1
  bools : s.state.deltaBool = blockToBools delta
  session : s.state.session = r.state.session
  counter : s.state.curSendB0 = r.state.curRecvB0
  current : s.state.curSendSession = r.state.curRecvSession
  mirrored : s.stream.Mirrored r.stream
  checked : Checked s.state r.state
  trees : s.state.setupDone → TreesAgree s.state r.state
  enabled : s.state.setupDone → s.state.malicious → TranscriptIo.fsEnabled s.stream

/-! ## Operations of an endpoint -/

section Operations

variable {S L : Type} [Traffic L] [Port S L] {s : OtState S}

/-- A local change of the state. -/
theorem runs_modify (f : OtState S → OtState S)
    (hf : ∀ todo done, f (Port.load (L := L) todo done s) = Port.load todo done (f s)) :
    Runs (modify f : OtM S Unit) s (Traffic.none : L) () (f s) :=
  .local fun todo done => congrArg (EStateM.Result.ok ()) (hf todo done)

/-- A change of the extension's state. -/
theorem runs_modifyState (f : SoftSpoken4State → SoftSpoken4State) :
    Runs (modifyState f) s (Traffic.none : L) () { s with state := f s.state } :=
  runs_modify _ fun _ _ => rfl

/-- An addition to the history. -/
theorem runs_record (f : CotHistory → CotHistory) :
    Runs (record f) s (Traffic.none : L) () { s with history := f s.history } :=
  runs_modify _ fun _ _ => rfl

/-- An operation on the state which succeeds. -/
theorem runs_tryState {A : Type} (error : OtError)
    {f : SoftSpoken4State → Except SoftSpokenStateError (A × SoftSpoken4State)} {a : A}
    {state : SoftSpoken4State} (h : f s.state = .ok (a, state)) :
    Runs (tryState error f) s (Traffic.none : L) a { s with state := state } := by
  refine .get (.ofExcept (a := (a, state)) (by rw [h]; rfl) ?_) fun _ _ => rfl
  exact (runs_modifyState fun _ => state).bindLocal (.pure a _)

/-- An operation which only changes the state. -/
theorem runs_tryUpdate (error : OtError)
    {f : SoftSpoken4State → Except SoftSpokenStateError SoftSpoken4State} {state : SoftSpoken4State}
    (h : f s.state = .ok state) :
    Runs (tryState error fun s => (f s).map fun s => ((), s)) s (Traffic.none : L) () { s with
      state := state } :=
  runs_tryState error (congrArg (Except.map fun s => ((), s)) h)

end Operations

section Blocks

variable {s : OtState (StreamEnd sha256)} {blocks : List Block}

/-- Blocks are sent. -/
theorem runs_sendBlock (blocks : List Block) :
    Runs (OtState.sendBlock blocks) s [.sent (macBytes blocks)] ()
      { s with stream := s.stream.send (macBytes blocks) } :=
  runs_onWire (StreamEnd.runs_sendData _ _)

/-- Blocks are received. -/
theorem runs_recvBlock {count : ℕ} (hcount : blocks.length = count) :
    Runs (OtState.recvBlock count) s [.received (macBytes blocks)] blocks
      { s with stream := s.stream.receive (macBytes blocks) } := by
  have hlen : (macBytes blocks).length = count * 16 := by
    rw [macBytes_length, hcount, Nat.mul_comm]
  have hread : blocksOfBytes ((macBytes blocks).length / 16) (macBytes blocks) = blocks := by
    rw [macBytes_length, Nat.mul_div_cancel_left _ (by decide), blocksOfBytes_macBytes]
  refine (runs_onWire (StreamEnd.runs_recvData hlen _)).bindQuiet ?_
  rw [hread]
  exact .pure _ _

/-- One block is received. -/
theorem runs_recvOneBlock (block : Block) :
    Runs OtState.recvOneBlock s [.received (macBytes [block])] block
      { s with stream := s.stream.receive (macBytes [block]) } :=
  (@runs_recvBlock _ s [block] 1 rfl).bindQuiet (.local fun _ _ => rfl)

end Blocks

/-! ## Setting up -/

section Bootstrap

variable {base : OtBase (StreamEnd sha256)} {s r : OtState (StreamEnd sha256)}

/-- The stream after the check of the trees was sent. -/
def sentCheck (tBuf : List Block) (digest : Value32) (stream : StreamEnd sha256) :
    StreamEnd sha256 :=
  (stream.send (macBytes tBuf)).send digest.bytes.toList

/-- The stream after the check of the trees was received. -/
def receivedCheck (tBuf : List Block) (digest : Value32) (stream : StreamEnd sha256) :
    StreamEnd sha256 :=
  (stream.receive (macBytes tBuf)).receive digest.bytes.toList

/-- The receiver sends the check of its trees. -/
theorem runs_pprfCheckSend {tBuf : List Block} {digest : Value32} {state : SoftSpoken4State}
    (h : pprfCheckSendPrepare base.permute base.sha256 s.state = ((tBuf, digest), state)) :
    Runs (SoftSpoken4.pprfCheckSend base) s [.sent (macBytes tBuf), .sent digest.bytes.toList] ()
      { s with state := state, stream := sentCheck tBuf digest s.stream } := by
  refine .get ?_ fun _ _ => rfl
  simp only [h]
  exact (runs_modifyState _).bindLocal ((runs_sendBlock tBuf).bind
    ((runs_onWire (StreamEnd.runs_sendData _ _)).bindQuiet (runs_onWire (StreamEnd.runs_flush _))))

/-- The sender checks its trees. -/
theorem runs_pprfCheckRecv {tBuf : List Block} {digest : Value32} {state : SoftSpoken4State}
    (htBuf : tBuf.length = softspokenN * 2)
    (h : s.state.pprfCheckRecvVerify base.permute base.sha256 tBuf digest.bytes.toList =
      (.ok (), state)) :
    Runs (SoftSpoken4.pprfCheckRecv base) s
      [.received (macBytes tBuf), .received digest.bytes.toList] ()
      { s with state := state, stream := receivedCheck tBuf digest s.stream } := by
  refine (runs_recvBlock htBuf).bind
    ((runs_onWire (StreamEnd.runs_recvData Vector.length_toList _)).bindQuiet ?_)
  refine .get ?_ fun _ _ => rfl
  simp only [h]
  exact (runs_modifyState _).bindLocal (.local fun _ _ => rfl)

/-- The stream with its transcript enabled. -/
def enabledStream (sendFirst : Bool) (stream : StreamEnd sha256) : StreamEnd sha256 :=
  if TranscriptIo.fsEnabled stream then stream else stream.enable sendFirst

/-- A transcript is enabled unless it was before. -/
theorem runs_enableTranscript (sendFirst : Bool) :
    Runs (SoftSpoken4.enableTranscript sendFirst) s Traffic.none ()
      { s with stream := enabledStream sendFirst s.stream } := by
  refine .get ?_ fun _ _ => rfl
  unfold enabledStream
  by_cases henabled : TranscriptIo.fsEnabled s.stream
  · rw [if_neg (not_not.mpr henabled), if_pos henabled]
    exact .pure () s
  · rw [if_pos henabled, if_neg henabled]
    exact runs_onWire (StreamEnd.runs_enableFs sendFirst henabled)

/-- Mirrored ends stay mirrored when both enable their transcripts. -/
theorem StreamEnd.Mirrored.enabledStream {s t : StreamEnd sha256} (h : s.Mirrored t)
    (sendFirst : Bool) :
    (Shachain2pc.enabledStream sendFirst s).Mirrored (Shachain2pc.enabledStream (!sendFirst) t) ∧
      TranscriptIo.fsEnabled (Shachain2pc.enabledStream sendFirst s) := by
  have hsame : TranscriptIo.fsEnabled s = TranscriptIo.fsEnabled t := by
    change s.fsSend.isSome = t.fsSend.isSome
    rw [h.both, h.received]
  unfold Shachain2pc.enabledStream
  rw [← hsame]
  by_cases henabled : TranscriptIo.fsEnabled s
  · rw [if_pos henabled, if_pos henabled]
    exact ⟨h, henabled⟩
  · rw [if_neg henabled, if_neg henabled]
    exact ⟨.enable sendFirst s t, rfl⟩

/-- The check of the trees, when the endpoints are malicious, is accepted and ends the setup. -/
theorem joint_checkTrees {malicious : Bool} {delta : Block} :
    Joint (fun s r => OtPaired malicious delta s r ∧ s.state.setupDone = false ∧
      TreesAgree s.state r.state)
      (do
        if (← get).state.malicious then
          SoftSpoken4.pprfCheckRecv base
          SoftSpoken4.enableTranscript true
        modifyState markSetupDone)
      (do
        if (← get).state.malicious then
          SoftSpoken4.pprfCheckSend base
          SoftSpoken4.enableTranscript false
        modifyState markSetupDone)
      fun _ s _ r => OtPaired malicious delta s r ∧ s.state.setupDone := by
  rintro s r ⟨h, hfresh, htrees⟩
  by_cases hmalicious : s.state.malicious
  · obtain ⟨tBuf, digest, leavesRecv, leavesSend, htBuf, hprepare, hverify, hagree⟩ :=
      pprfCheck_treesAgree base.permute base.sha256 htrees
    have hstream :=
      (((h.mirrored.toLeft (macBytes tBuf)).toLeft digest.bytes.toList).enabledStream true)
    refine ⟨[.received (macBytes tBuf), .received digest.bytes.toList],
      [.sent (macBytes tBuf), .sent digest.bytes.toList], (),
      { s with
        state := { s.state with leavesRecv := leavesRecv, setupDone := true }
        stream := enabledStream true (receivedCheck tBuf digest s.stream) }, (),
      { r with
        state := { r.state with leavesSend := leavesSend, setupDone := true }
        stream := enabledStream false (sentCheck tBuf digest r.stream) },
      (Crossing.done.sendToLeft).sendToLeft, ?_, ?_, ?_, ?_⟩
    · refine .get ?_ fun _ _ => rfl
      rw [if_pos hmalicious]
      exact (runs_pprfCheckRecv htBuf hverify).bindQuiet ((runs_enableTranscript true).bindLocal
        (runs_modifyState markSetupDone))
    · refine .get ?_ fun _ _ => rfl
      rw [if_pos (h.malicious ▸ hmalicious)]
      exact (runs_pprfCheckSend hprepare).bindQuiet ((runs_enableTranscript false).bindLocal
        (runs_modifyState markSetupDone))
    · exact {
        sender := h.sender
        receiver := h.receiver
        active := h.active
        malicious := h.malicious
        setup := rfl
        offset := h.offset
        lsb := h.lsb
        bools := h.bools
        session := h.session
        counter := h.counter
        current := h.current
        mirrored := hstream.1
        checked := h.checked
        trees := fun _ =>
          ⟨hagree.delta, hagree.alphas, hagree.choices, hagree.known, hagree.leaves, hagree.agree⟩
        enabled := fun _ _ => hstream.2 }
    · rfl
  · refine ⟨Traffic.none, Traffic.none, (), { s with state := s.state.markSetupDone }, (),
      { r with state := r.state.markSetupDone }, Traffic.meets_none, ?_, ?_, ?_, ?_⟩
    · refine .get ?_ fun _ _ => rfl
      rw [if_neg hmalicious]
      exact runs_modifyState _
    · refine .get ?_ fun _ _ => rfl
      rw [if_neg (h.malicious ▸ hmalicious)]
      exact runs_modifyState _
    · exact { h with
        setup := rfl
        trees := fun _ =>
          ⟨htrees.delta, htrees.alphas, htrees.choices, htrees.known, htrees.leaves, htrees.agree⟩
        enabled := fun _ hset => absurd hset hmalicious }
    · rfl

/-- Setting up is a run of the base OTs, and of the check of the trees when the endpoints are
malicious. -/
theorem joint_bootstrap {malicious : Bool} {delta : Block} (hbase : base.Delivers) :
    Joint (fun s r => OtPaired malicious delta s r ∧ s.state.setupDone = false)
      (SoftSpoken4.bootstrapSend base)
      (SoftSpoken4.bootstrapRecv base) fun _ s _ r => OtPaired malicious delta s r ∧
      s.state.setupDone := by
  rintro s r ⟨h, hfresh⟩
  obtain ⟨hchoices, hkeys0, hkeys1⟩ := bootstrap_lengths base.permute s.state r.state
  obtain ⟨left, right, received, stream, ⟨⟩, stream', hmeets, hrecv, hsend, rfl, hmirrored⟩ :=
    hbase s.state.bootstrapChoices (bootstrapKeys base.permute r.state).1
      (bootstrapKeys base.permute r.state).2
      hchoices hkeys0 hkeys1 _ _ h.mirrored
  obtain ⟨prg, hkeys⟩ := bootstrapRecvKeys_eq base.permute r.state
  have hknown := bootstrap_known base.permute s.state r.state
  have htrees := bootstrap_treesAgree base.permute (s := s.state) (r := r.state) (h.offset ▸ h.lsb)
    (h.offset ▸ h.bools) prg
  have hpaired : OtPaired malicious delta
      { s with
        state := { s.state with
          alphas := (List.range softspokenN).map s.state.bootstrapAlpha
          leavesRecv := (List.range softspokenN).flatMap fun i =>
            (bootstrapTree base.permute r.state i).1.set (s.state.bootstrapAlpha i) Block.zero }
        stream := stream }
      { r with
        state := { r.state with
          choicePrg := prg
          leavesSend :=
            (List.range softspokenN).flatMap fun i => (bootstrapTree base.permute r.state i).1 }
        stream := stream' } := {
    sender := h.sender
    receiver := h.receiver
    active := h.active
    malicious := h.malicious
    setup := h.setup
    offset := h.offset
    lsb := h.lsb
    bools := h.bools
    session := h.session
    counter := h.counter
    current := h.current
    mirrored := hmirrored
    checked := h.checked
    trees := fun _ => htrees
    enabled := fun hset => absurd hset (Bool.eq_false_iff.mp hfresh) }
  obtain ⟨left', right', ⟨⟩, s', ⟨⟩, r', hmeets', hsend', hrecv', hpost⟩ :=
    @joint_checkTrees _ base malicious delta _ _ ⟨hpaired, hfresh, htrees⟩
  refine ⟨left ++ left', right ++ right', (), s', (), r', Traffic.meets_append hmeets hmeets',
    ?_, ?_, hpost⟩
  · refine .get ?_ fun _ _ => rfl
    rw [bootstrapSendChoices_eq]
    have hreceived : Runs (onStream (base.cswRecv s.state.bootstrapChoices)) { s with
        state := { s.state with
            alphas := (List.range softspokenN).map s.state.bootstrapAlpha } } left _ _ :=
      runs_onStream hrecv
    refine (runs_modifyState _).bindLocal
      (hreceived.bind (Runs.bindLocal (runs_tryUpdate _ ?_) hsend'))
    exact hknown
  · refine .get ?_ fun _ _ => rfl
    rw [hkeys]
    have hoffered : Runs (onStream (base.cswSend (bootstrapKeys base.permute r.state).1
        (bootstrapKeys base.permute r.state).2)) { r with
        state := { r.state with
          choicePrg := prg
          leavesSend :=
            (List.range softspokenN).flatMap fun i => (bootstrapTree base.permute r.state i).1 } }
        right _ _ := runs_onStream hsend
    exact (runs_modifyState _).bindLocal (hoffered.bind hrecv')

end Bootstrap

/-! ## Sessions -/

section Sessions

variable {base : OtBase (StreamEnd sha256)} {malicious : Bool} {delta : Block}
  {s r : OtState (StreamEnd sha256)}

/-- A session which both begin. -/
theorem OtPaired.begin (h : OtPaired malicious delta s r) :
    OtPaired malicious delta { s with
      state := s.state.beginSendSession, history := s.history.begin }
      { r with state := r.state.beginRecvSession, history := r.history.begin } where
  sender := h.sender
  receiver := h.receiver
  active := h.active
  malicious := h.malicious
  setup := h.setup
  offset := h.offset
  lsb := h.lsb
  bools := h.bools
  session := congrArg (· + 1) h.session
  counter := rfl
  current := h.session
  mirrored := h.mirrored
  checked := by
    have hchecked := checked_iff.mp h.checked
    refine checked_iff.mpr ?_
    simp only [beginSendSession, beginRecvSession, ← h.malicious]
    by_cases hmalicious : s.state.malicious
    · simp only [if_pos hmalicious, gfElem_zero, zero_mul, add_zero]
    · simp only [if_neg hmalicious, hchecked]
  trees hsetup :=
    have htrees := h.trees hsetup
    ⟨htrees.delta, htrees.alphas, htrees.choices, htrees.known, htrees.leaves, htrees.agree⟩
  enabled := h.enabled

/-- A sender does the sender's part. -/
theorem OtPaired.runs_sender {A : Type} {prog other : OtM (StreamEnd sha256) A}
    {events : List (Event UInt8)} {a : A} {s' : OtState (StreamEnd sha256)}
    (h : OtPaired malicious delta s r) (hrun : Runs prog s events a s') :
    Runs (do if (← get).state.role = .alice then prog else other) s events a s' := by
  refine .get ?_ fun _ _ => rfl
  rw [if_pos h.sender]
  exact hrun

/-- A receiver does the receiver's part. -/
theorem OtPaired.runs_receiver {A : Type} {prog other : OtM (StreamEnd sha256) A}
    {events : List (Event UInt8)} {a : A} {r' : OtState (StreamEnd sha256)}
    (h : OtPaired malicious delta s r) (hrun : Runs prog r events a r') :
    Runs (do if (← get).state.role = .alice then other else prog) r events a r' := by
  have hbob : r.state.role ≠ .alice := by
    rw [h.receiver]
    decide
  refine .get ?_ fun _ _ => rfl
  rw [if_neg hbob]
  exact hrun

/-- Endpoints which are set up begin a session, after setting up when they were not. -/
theorem joint_beginSession (hbase : base.Delivers) :
    Joint (OtPaired malicious delta) (SoftSpoken4.beginSession base) (SoftSpoken4.beginSession base)
      fun _ s _ r => OtPaired malicious delta s r ∧ s.state.setupDone := by
  rintro s r h
  by_cases hsetup : s.state.setupDone
  · refine ⟨Traffic.none, Traffic.none, (), _, (), _, Traffic.meets_none,
      h.runs_sender (.get ?_ fun _ _ => rfl),
      h.runs_receiver (.get ?_ fun _ _ => rfl), h.begin, hsetup⟩
    · rw [if_neg (not_not.mpr hsetup)]
      exact (runs_modifyState _).bindLocal (runs_record _)
    · rw [if_neg (not_not.mpr (h.setup ▸ hsetup))]
      exact (runs_modifyState _).bindLocal (runs_record _)
  · obtain ⟨left, right, ⟨⟩, s', ⟨⟩, r', hmeets, hsend, hrecv, hpaired, hready⟩ :=
      joint_bootstrap hbase s r ⟨h, Bool.eq_false_iff.mpr hsetup⟩
    refine ⟨left, right, (), _, (), _, hmeets, h.runs_sender (.get ?_ fun _ _ => rfl),
      h.runs_receiver (.get ?_ fun _ _ => rfl), hpaired.begin, hready⟩
    · rw [if_pos hsetup]
      exact hsend.bindQuiet ((runs_modifyState _).bindLocal (runs_record _))
    · rw [if_pos (h.setup ▸ hsetup)]
      exact hrecv.bindQuiet ((runs_modifyState _).bindLocal (runs_record _))

/-- Both ends derive one seed, or none. -/
theorem OtPaired.seed (h : OtPaired malicious delta s r) (hsetup : s.state.setupDone) :
    ∃ seed, Runs SoftSpoken4.transcriptSeed s Traffic.none seed s ∧
      Runs SoftSpoken4.transcriptSeed r Traffic.none seed r := by
  by_cases hmalicious : s.state.malicious
  · obtain ⟨digest, hours, htheirs⟩ := h.mirrored.digest (h.enabled hsetup hmalicious)
    have hrun {t : OtState (StreamEnd sha256)} (hmalicious : t.state.malicious)
        (hdigest : TranscriptIo.getDigest t.stream = .ok digest) :
        Runs SoftSpoken4.transcriptSeed t Traffic.none (some digest) t := by
      refine .get ?_ fun _ _ => rfl
      rw [if_pos hmalicious, hdigest]
      exact .pure _ _
    exact ⟨some digest, hrun hmalicious hours, hrun (h.malicious ▸ hmalicious) htheirs⟩
  · have hrun {t : OtState (StreamEnd sha256)} (hmalicious : ¬t.state.malicious) :
        Runs SoftSpoken4.transcriptSeed t Traffic.none none t := by
      refine .get ?_ fun _ _ => rfl
      rw [if_neg hmalicious]
      exact .pure _ _
    exact ⟨none, hrun hmalicious, hrun (h.malicious ▸ hmalicious)⟩

/-- The endpoints are at one counter of one session. -/
theorem OtPaired.inStep (h : OtPaired malicious delta s r) (hsetup : s.state.setupDone) :
    InStep s.state r.state :=
  ⟨h.trees hsetup, h.counter, h.current⟩

/-- COTs which the two endpoints deliver, one by one. -/
def Delivered (delta : Block) (n : ℕ) (q t : List Block) : Prop :=
  q.length = n ∧ List.Forall₂ (Correlated delta) q t

/-- Lists which are related at each position. -/
theorem forall₂_getD {A B : Type} {rel : A → B → Prop} {xs : List A} {ys : List B} (a : A) (b : B)
    (hlength : xs.length = ys.length) (h : ∀ i < xs.length, rel (xs.getD i a) (ys.getD i b)) :
    List.Forall₂ rel xs ys := by
  refine List.forall₂_iff_get.mpr ⟨hlength, fun i hi hi' => ?_⟩
  have hat := h i hi
  rw [List.getD_eq_getElem _ _ hi, List.getD_eq_getElem _ _ hi'] at hat
  exact hat

/-- The COTs of a chunk. -/
theorem OtPaired.delivered (h : OtPaired malicious delta s r) (hsetup : s.state.setupDone)
    (permute : Block → Block → Block) (bs : ℕ) :
    Delivered delta (bs * 128) (sendOut permute s.state r.state bs)
      (recvChunk permute r.state bs).out := by
  have hchunk := @InStep.correlatedChunk permute _ _ bs (h.inStep hsetup)
  rw [h.offset] at hchunk
  refine ⟨hchunk.lengthQ, forall₂_getD _ _ (hchunk.lengthQ.trans hchunk.lengthT.symm) fun c hc =>
    hchunk.cots c (hchunk.lengthQ ▸ hc)⟩

/-- What the sender is left with after a chunk. -/
def sentChunk (permute : Block → Block → Block) (s r : SoftSpoken4State) (seed : Option Block)
    (bs : ℕ) :
    SoftSpoken4State :=
  let s' := match seed with
    | some seed => s.combineSendChunk permute seed (sendOut permute s r bs) bs
    | none => s
  { s' with curSendB0 := s'.curSendB0 + UInt64.ofNat bs }

/-- A chunk leaves a sender set up. -/
theorem sentChunk_setupDone (permute : Block → Block → Block) (s r : SoftSpoken4State)
    (seed : Option Block) (bs : ℕ) : (sentChunk permute s r seed bs).setupDone = s.setupDone := by
  cases seed <;> rfl

/-- The sender finishes a chunk with the corrections of the receiver. -/
theorem sendChunkFinish_eq (permute : Block → Block → Block) (s r : SoftSpoken4State)
    (seed : Option Block) (bs : ℕ) :
    s.sendChunkFinish permute ((List.range softspokenN).flatMap (sendTree permute s bs))
        (recvChunk permute r bs).dBufs seed bs =
      .ok (sendOut permute s r bs, sentChunk permute s r seed bs) := by
  rw [sendChunkFinish, if_neg (not_not.mpr (recvChunk_dBufs permute r bs).1)]
  cases seed <;> rfl

/-- What the receiver is left with after a chunk. -/
def receivedChunk (permute : Block → Block → Block) (r : SoftSpoken4State) (seed : Option Block)
    (bs : ℕ) :
    SoftSpoken4State :=
  r.recvChunkFinish permute seed (recvChunk permute r bs).out (recvChunk permute r bs).uCanonical bs

/-- Bytes cross to the sender. -/
theorem OtPaired.toLeft (h : OtPaired malicious delta s r) (message : List UInt8)
    (history history' : CotHistory) :
    OtPaired malicious delta ⟨s.state, s.stream.receive message, history⟩
      ⟨r.state, r.stream.send message, history'⟩ :=
  { h with mirrored := h.mirrored.toLeft message }

/-- Endpoints after a chunk. -/
theorem OtPaired.chunk (h : OtPaired malicious delta s r) (hsetup : s.state.setupDone)
    (permute : Block → Block → Block) (seed : Option Block) (bs : ℕ)
    (history history' : CotHistory) :
    OtPaired malicious delta ⟨sentChunk permute s.state r.state seed bs, s.stream, history⟩
      ⟨receivedChunk permute r.state seed bs, r.stream, history'⟩ := by
  have hchunk := @InStep.correlatedChunk permute _ _ bs (h.inStep hsetup)
  have hcounter : s.state.curSendB0 + UInt64.ofNat bs = r.state.curRecvB0 + UInt64.ofNat bs :=
    congrArg (· + UInt64.ofNat bs) h.counter
  have htrees := h.trees hsetup
  cases seed with
  | none => exact { h with
      counter := hcounter
      trees := fun _ =>
        ⟨htrees.delta, htrees.alphas, htrees.choices, htrees.known, htrees.leaves, htrees.agree⟩ }
  | some seed => exact {
      sender := h.sender
      receiver := h.receiver
      active := h.active
      malicious := h.malicious
      setup := h.setup
      offset := h.offset
      lsb := h.lsb
      bools := h.bools
      session := h.session
      counter := hcounter
      current := h.current
      mirrored := h.mirrored
      checked := h.checked.combine hchunk seed
      trees := fun _ =>
        ⟨htrees.delta, htrees.alphas, htrees.choices, htrees.known, htrees.leaves, htrees.agree⟩
      enabled := h.enabled }

/-- A chunk: the receiver sends its corrections, and the COTs are correlated. -/
theorem joint_chunk (bs : ℕ) :
    Joint (fun s r => OtPaired malicious delta s r ∧ s.state.setupDone)
      (SoftSpoken4.sendChunkPipeline base bs) (SoftSpoken4.recvChunkPipeline base bs)
      fun q s t r => Delivered delta (bs * 128) q t ∧ OtPaired malicious delta s r ∧
      s.state.setupDone := by
  rintro s r ⟨h, hsetup⟩
  obtain ⟨hlength, -⟩ := recvChunk_dBufs base.permute r.state bs
  have htrees := h.trees hsetup
  let ours := s.history.evaluate (sfvoleTweaks s.state.curSendSession s.state.curSendB0 bs)
  let theirs := r.history.evaluate (sfvoleTweaks r.state.curRecvSession r.state.curRecvB0 bs)
  have hcrossed := h.toLeft (macBytes (recvChunk base.permute r.state bs).dBufs) ours theirs
  obtain ⟨seed, hours, htheirs⟩ := hcrossed.seed hsetup
  refine ⟨[.received (macBytes (recvChunk base.permute r.state bs).dBufs)],
    [.sent (macBytes (recvChunk base.permute r.state bs).dBufs)], _, _, _, _,
    Crossing.done.sendToLeft,
    .get ?_ fun _ _ => rfl, .get ?_ fun _ _ => rfl, h.delivered hsetup base.permute bs,
    hcrossed.chunk hsetup base.permute seed bs
      (ours.generate (sendOut base.permute s.state r.state bs))
      (theirs.generate (recvChunk base.permute r.state bs).out),
      (sentChunk_setupDone ..).trans hsetup⟩
  · refine .ofExcept (sendChunkPrepare_eq htrees.known bs) ?_
    refine (runs_record _).bindLocal ((runs_recvBlock hlength).bindQuiet (hours.bindLocal ?_))
    refine (runs_tryState _ (sendChunkFinish_eq base.permute s.state r.state seed bs)).bindLocal ?_
    exact (runs_record _).bindLocal (.pure _ _)
  · refine .ofExcept (recvChunkPrepare_eq htrees.leaves bs) ?_
    refine (runs_record _).bindLocal ((runs_sendBlock _).bindQuiet (htheirs.bindLocal ?_))
    exact (runs_modifyState _).bindLocal ((runs_record _).bindLocal (.pure _ _))

/-- A chunk of both endpoints. -/
theorem joint_nextChunk (bs : ℕ) :
    Joint (fun s r => OtPaired malicious delta s r ∧ s.state.setupDone)
      (SoftSpoken4.nextChunk base bs) (SoftSpoken4.nextChunk base bs)
      fun q s t r => Delivered delta (bs * 128) q t ∧ OtPaired malicious delta s r ∧
      s.state.setupDone := by
  rintro s r ⟨h, hsetup⟩
  obtain ⟨left, right, q, s', t, r', hmeets, hsend, hrecv, hpost⟩ :=
    @joint_chunk _ base malicious delta bs s r ⟨h, hsetup⟩
  exact ⟨left, right, q, s', t, r', hmeets, h.runs_sender hsend, h.runs_receiver hrecv, hpost⟩

/-- The sums of the receiver pass the sender's check. -/
theorem Checked.verify {s r : SoftSpoken4State} (h : Checked s r) :
    s.verifySendCheck r.checkX r.checkT = .ok () :=
  if_neg (not_not.mpr h)

/-- A session ends with a check which passes. -/
theorem joint_endSession :
    Joint (fun s r => OtPaired malicious delta s r ∧ s.state.setupDone)
      (SoftSpoken4.endSession base)
      (SoftSpoken4.endSession base) fun _ s _ r => OtPaired malicious delta s r ∧
      s.state.setupDone := by
  rintro s r ⟨h, hsetup⟩
  by_cases hmalicious : s.state.malicious
  · obtain ⟨left, right, q, s', t, r', hmeets, hsend, hrecv, -, hpaired, hready⟩ :=
      joint_chunk 1 s r ⟨h, hsetup⟩
    have hcrossed := (hpaired.toLeft (macBytes [r'.state.checkX]) s'.history r'.history).toLeft
      (macBytes [r'.state.checkT]) s'.history r'.history
    refine ⟨left ++
      [.received (macBytes [r'.state.checkX]), .received (macBytes [r'.state.checkT])],
      right ++
        [.sent (macBytes [r'.state.checkX]), .sent (macBytes [r'.state.checkT])], (), _, (), _,
      Traffic.meets_append hmeets Crossing.done.sendToLeft.sendToLeft,
        h.runs_sender (.get ?_ fun _ _ => rfl),
      h.runs_receiver (.get ?_ fun _ _ => rfl), hcrossed, hready⟩
    · rw [if_pos hmalicious]
      refine hsend.bind
        ((runs_recvOneBlock _).bind ((runs_recvOneBlock _).bindQuiet (.get ?_ fun _ _ => rfl)))
      rw [hpaired.checked.verify]
      exact .pure _ _
    · rw [if_pos (h.malicious ▸ hmalicious)]
      refine hrecv.bind (.get ?_ fun _ _ => rfl)
      exact (runs_sendBlock _).bind
        ((runs_sendBlock _).bindQuiet (runs_onWire (StreamEnd.runs_flush _)))
  · refine ⟨Traffic.none, Traffic.none, (), s, (), r, Traffic.meets_none,
      h.runs_sender (.get ?_ fun _ _ => rfl),
      h.runs_receiver (.get ?_ fun _ _ => rfl), h, hsetup⟩
    · rw [if_neg hmalicious]
      exact .pure () s
    · rw [if_neg (h.malicious ▸ hmalicious)]
      exact runs_onWire (StreamEnd.runs_flush _)

end Sessions

end Shachain2pc
