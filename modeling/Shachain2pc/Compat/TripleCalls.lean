import Shachain2pc.Compat.TripleCompute

/-!
# Calls of two triple pools

Two pools which get the same calls complete all of them. The shares which they hold are
authenticated towards each other after every call: those which were drawn have any bits, and
those which were computed have the products of the bits of their inputs, which are sums of
shares that the parties held before.
-/

namespace Shachain2pc

open JointRuns AuthenticatedBits
open Ag2pcShareSlices Ag2pcTriplePoolState

namespace Ag2pcTriplePool

variable {sha256 : List UInt8 → Value32} {base : PoolBase (StreamEnd sha256)}
  {deltaA deltaB : Block}

/-! ## Setting up -/

/-- Endpoints of streams on which no transcript is enabled. -/
def CotFresh (delta : Block) (e e' : CotEndpoint (StreamEnd sha256)) : Prop :=
  CotPaired true delta e e' ∧ ¬TranscriptIo.fsEnabled e.ot.stream ∧
    ¬TranscriptIo.fsEnabled e'.ot.stream

/-- An endpoint whose transcript is enabled. -/
def enabled (sendFirst : Bool) (e : CotEndpoint (StreamEnd sha256)) :
    CotEndpoint (StreamEnd sha256) :=
  ⟨{ e.ot with stream := e.ot.stream.enable sendFirst }, e.leftover⟩

/-- A transcript which is not enabled yet is enabled. -/
theorem runs_enableFs {sendFirst : Bool} {e : CotEndpoint (StreamEnd sha256)}
    (h : ¬TranscriptIo.fsEnabled e.ot.stream) :
    Runs (enableFs sendFirst) e (Traffic.none : List (Event UInt8)) () (enabled sendFirst e) := by
  refine .get ?_ fun _ _ => rfl
  rw [if_pos h]
  exact runs_onOt e.leftover (runs_onWire (StreamEnd.runs_enableFs sendFirst h))

/-- The transcripts of both ends are enabled in opposite orders. -/
theorem joint_enableFs {delta : Block} (sendFirst : Bool) :
    Joint (CotFresh delta) (enableFs sendFirst) (enableFs !sendFirst)
      fun _ (e : CotEndpoint (StreamEnd sha256)) _ e' => True ∧ CotPaired true delta e e' := by
  rintro e e' ⟨h, hnone, hnone'⟩
  refine ⟨[], [], (), enabled sendFirst e, (), enabled (!sendFirst) e', .done, runs_enableFs hnone,
    runs_enableFs hnone',
    trivial, ?_⟩
  exact { h with
    ot := { h.ot with
      mirrored := .enable sendFirst e.ot.stream e'.ot.stream
      enabled := fun _ _ => rfl } }

/-- Both begin a session, and flush. -/
theorem joint_beginFlush {ot : OtBase (StreamEnd sha256)} {delta : Block} (hbase : ot.Delivers) :
    Joint (CotPaired true delta) (beginFlush ot) (beginFlush ot)
      fun _ e _ e' => True ∧ CotReady delta e e' := by
  refine (joint_begin hbase).bind fun _ _ => ?_
  exact (joint_opposite exchanges_flush exchanges_flush).mono (fun _ _ h => h) fun _ _ _ _ h =>
    ⟨trivial, h.2⟩

/-- Both end a session, and flush. -/
theorem joint_endFlush {ot : OtBase (StreamEnd sha256)} {delta : Block} :
    Joint (CotReady delta) (endFlush ot) (endFlush ot) fun _ e _ e' => True ∧
    CotReady delta e e' := by
  refine joint_finish.bind fun _ _ => ?_
  exact (joint_opposite exchanges_flush exchanges_flush).mono (fun _ _ h => h) fun _ _ _ _ h =>
    ⟨trivial, h.2⟩

/-- Both sessions of both pools begin. -/
theorem joint_beginAbits (h : base.abit1.Delivers) (h' : base.abit2.Delivers) :
    Joint (PoolPaired (CotPaired true) deltaA deltaB) (beginAbits base) (beginAbits base.peer)
      fun _ alice _ bob => PoolPaired CotReady deltaA deltaB alice bob := by
  refine (joint_tryJoin (joint_beginFlush h) (joint_beginFlush h')).bind fun _ _ => ?_
  exact .pure fun _ _ hpaired => hpaired.2

/-- Both sessions of both pools end. -/
theorem joint_endAbits :
    Joint (PoolPaired CotReady deltaA deltaB) (endAbits base) (endAbits base.peer)
      fun _ alice _ bob => PoolPaired CotReady deltaA deltaB alice bob := by
  refine (joint_tryJoin joint_endFlush joint_endFlush).bind fun _ _ => ?_
  exact .pure fun _ _ hpaired => hpaired.2

/-- Code on one endpoint and then on the other. -/
theorem onBoth_eq {S A B : Type} (first : CotM S Unit) (second : CotM S A) (next : PoolM S B) :
    (do onAbit1 first; let _ ← onAbit2 second; next) = (do let _ ← tryJoin first second; next) := by
  simp only [tryJoin, bind_assoc, pure_bind]

/-- Two pools are set up. -/
theorem joint_setup (h : base.abit1.Delivers) (h' : base.abit2.Delivers) :
    Joint (PoolPaired CotFresh deltaA deltaB) (setup base) (setup base.peer)
      fun _ alice _ bob => PoolPaired CotReady deltaA deltaB alice bob := by
  have henabled : Joint (PoolPaired CotFresh deltaA deltaB)
      (do let _ ← tryJoin (enableFs true) (enableFs true); beginAbits base)
      (do let _ ← tryJoin (enableFs false) (enableFs false); beginAbits base.peer)
      fun _ (alice : Ag2pcTriplePool (StreamEnd sha256)) _ bob =>
        PoolPaired CotReady deltaA deltaB alice bob := by
    refine (joint_tryJoin (joint_enableFs true) (joint_enableFs false)).bind fun _ _ =>
      Joint.assume fun _ => ?_
    exact joint_beginAbits h h'
  intro alice bob hpaired
  obtain ⟨left, right, a, alice', b, bob', hmeets, hours, htheirs, hpost⟩ := henabled _ _ hpaired
  rw [← onBoth_eq] at hours htheirs
  refine ⟨left, right, a, alice', b, bob', hmeets, .get ?_ fun _ _ => rfl,
    .get ?_ fun _ _ => rfl, hpost⟩
  · rw [hpaired.honest.alice]
    exact hours
  · rw [hpaired.honest.bob]
    exact htheirs

/-! ## Checks -/

/-- The pools note that their COTs were checked. -/
theorem joint_markCotCheckFlushed
    {rel : Block → CotEndpoint (StreamEnd sha256) → CotEndpoint (StreamEnd sha256) → Prop} :
    Joint (PoolPaired rel deltaA deltaB) (modifyState markCotCheckFlushed)
      (modifyState markCotCheckFlushed)
      fun _ (alice : Ag2pcTriplePool (StreamEnd sha256)) _ bob =>
        PoolPaired rel deltaA deltaB alice bob := by
  intro alice bob h
  exact ⟨Traffic.none, Traffic.none, (), _, (), _, Traffic.meets_none, runs_modifyState _,
    runs_modifyState _,
    { h with
      honest :=
        ⟨h.honest.alice, h.honest.bob, h.honest.lsb_bob, h.honest.lsb1_alice, h.honest.lsb1_bob⟩
      minted := rfl }⟩

/-- What endpoints which are set up need for a session. -/
theorem PoolPaired.paired {alice bob : Ag2pcTriplePool (StreamEnd sha256)}
    (h : PoolPaired CotReady deltaA deltaB alice bob) :
    PoolPaired (CotPaired true) deltaA deltaB alice bob :=
  { h with first := h.first.1, second := h.second.1 }

/-- Both check the COTs which they have, and begin new sessions. -/
theorem joint_flushCotCheck (h : base.abit1.Delivers) (h' : base.abit2.Delivers) :
    Joint (PoolPaired CotReady deltaA deltaB) (flushCotCheck base) (flushCotCheck base.peer)
      fun _ alice _ bob => PoolPaired CotReady deltaA deltaB alice bob := by
  refine joint_markCotCheckFlushed.bind fun _ _ => joint_endAbits.bind fun _ _ => ?_
  exact (joint_beginAbits h h').mono (fun _ _ hpaired => hpaired.paired) fun _ _ _ _ hpost => hpost

/-- Both check the COTs when there are any: they agree on that. -/
theorem joint_maybeFlushCotCheck (h : base.abit1.Delivers) (h' : base.abit2.Delivers) :
    Joint (PoolPaired CotReady deltaA deltaB) (maybeFlushCotCheck base)
      (maybeFlushCotCheck base.peer)
      fun _ alice _ bob => PoolPaired CotReady deltaA deltaB alice bob := by
  intro alice bob hpaired
  by_cases hminted : alice.state.cotsMintedSinceCheck
  · obtain ⟨left, right, a, alice', b, bob', hmeets, hours, htheirs, hpost⟩ :=
      joint_flushCotCheck h h' _ _ hpaired
    refine ⟨left, right, a, alice', b, bob', hmeets, .get ?_ fun _ _ => rfl,
      .get ?_ fun _ _ => rfl, hpost⟩
    · rw [if_pos hminted]
      exact hours
    · rw [if_pos (hpaired.minted ▸ hminted)]
      exact htheirs
  · refine ⟨Traffic.none, Traffic.none, (), alice, (), bob, Traffic.meets_none,
      .get ?_ fun _ _ => rfl,
      .get ?_ fun _ _ => rfl, hpaired⟩
    · rw [if_neg hminted]
      exact .pure () alice
    · rw [if_neg (hpaired.minted ▸ hminted)]
      exact .pure () bob

/-- Endpoints stay ready when they give up what they hold back. -/
theorem joint_trimIdle {delta : Block} :
    Joint (CotReady delta) SoftSpoken4.trimIdleAllocations SoftSpoken4.trimIdleAllocations
      fun _ (e : CotEndpoint (StreamEnd sha256)) _ e' => True ∧ CotReady delta e e' :=
  fun _ _ h => ⟨[], [], (), _, (), _, .done, .local fun _ _ => rfl, .local fun _ _ => rfl, trivial,
    h.1.forget [] [], h.2⟩

/-- Both give up what their endpoints hold back. -/
theorem joint_trimIdleAllocations :
    Joint (PoolPaired CotReady deltaA deltaB) trimIdleAllocations trimIdleAllocations
      fun _ (alice : Ag2pcTriplePool (StreamEnd sha256)) _ bob =>
        PoolPaired CotReady deltaA deltaB alice bob := by
  have hboth : Joint (PoolPaired CotReady deltaA deltaB)
      (do let _ ← tryJoin SoftSpoken4.trimIdleAllocations SoftSpoken4.trimIdleAllocations; pure ())
      (do let _ ← tryJoin SoftSpoken4.trimIdleAllocations SoftSpoken4.trimIdleAllocations; pure ())
      fun _ (alice : Ag2pcTriplePool (StreamEnd sha256)) _ bob =>
        PoolPaired CotReady deltaA deltaB alice bob :=
    (joint_tryJoin joint_trimIdle joint_trimIdle).bind fun _ _ => .pure fun _ _ h => h.2
  rw [← onBoth_eq] at hboth
  simp only [bind_pure_unit] at hboth
  exact hboth

/-! ## Draws -/

/-- The shares which two parties draw. -/
theorem Drawn.shares {n : ℕ} {x y : List Block × List Block} (h : Drawn deltaA deltaB n x y) :
    SharesPaired deltaA deltaB (List.zipWith AShareBundle.mk x.1 x.2)
      (List.zipWith AShareBundle.mk y.1 y.2) := by
  have hmac := h.second.2.length_eq
  have hkey := h.first.2.length_eq
  have hfirst := h.first.1
  have hsecond := h.second.1
  refine List.forall₂_iff_get.mpr ⟨by simp only [List.length_zipWith]; omega, fun k hk hk' => ?_⟩
  rw [List.length_zipWith] at hk hk'
  simp only [List.get_eq_getElem, List.getElem_zipWith]
  rw [authenticatedPair_iff]
  have hauthenticated := h.authenticated (show k < n by omega)
  simp only [share, bundle] at hauthenticated
  rwa [List.getD_eq_getElem _ _ (by omega), List.getD_eq_getElem _ _ (by omega),
    List.getD_eq_getElem _ _ (by omega), List.getD_eq_getElem _ _ (by omega)] at hauthenticated

/-- Both draw shares. -/
theorem joint_draw (count : ℕ) :
    Joint (PoolPaired CotReady deltaA deltaB) (draw base count) (draw base.peer count)
      fun xs alice ys bob => (xs.length = count ∧ SharesPaired deltaA deltaB xs ys) ∧
        PoolPaired CotReady deltaA deltaB alice bob := by
  refine (joint_genCotShares count).bind fun x y => Joint.assume fun hdrawn => .pure fun _ _ h =>
    ⟨⟨?_, hdrawn.shares⟩, h⟩
  have hmac := hdrawn.second.2.length_eq
  have hfirst := hdrawn.first.1
  have hsecond := hdrawn.second.1
  rw [List.length_zipWith]
  omega

/-! ## Sums of shares -/

/-- No share. -/
def zeroShare : AShareBundle := ⟨Block.zero, Block.zero⟩

/-- The sum of the shares at some positions. -/
def sumAt (held : List AShareBundle) (positions : List ℕ) : AShareBundle :=
  positions.foldr (fun k sum => (nth held k).xor sum) zeroShare

/-- The sum of the bits at some positions. -/
def bitSumAt (bits : List UInt8) (positions : List ℕ) : UInt8 :=
  positions.foldr (fun k sum => bits.getD k 0 ^^^ sum) 0

section Sums

variable {xs ys : List AShareBundle}

/-- The lowest bit of a sum. -/
theorem blockLsb_xor (a b : Block) : blockLsb (blockXor a b) = blockLsb a ^^^ blockLsb b := by
  refine (bit_eq_iff (blockLsb_and_one _) (bit_xor (blockLsb_and_one _) (blockLsb_and_one _))).mpr
    ?_
  rw [bitAt_xor, bitAt_blockLsb, bitAt_blockLsb, bitAt_blockLsb, blockVec_xor, map_add]

/-- The share of a sum. -/
theorem share_xor (x y : AShareBundle) : (x.xor y).share = x.share.add y.share := by
  simp [AShareBundle.xor, AShareBundle.share, Share.add]

/-- No shares are authenticated. -/
theorem zeroShare_paired : AuthenticatedPair deltaA deltaB zeroShare zeroShare := by
  rw [authenticatedPair_iff]
  refine ⟨?_, ?_, ?_, ?_⟩ <;> simp [zeroShare, AShareBundle.share, blockVec_zero]

/-- The shares at any position are authenticated; there are none beyond the last. -/
theorem SharesPaired.anywhere (h : SharesPaired deltaA deltaB xs ys) (k : ℕ) :
    AuthenticatedPair deltaA deltaB (nth xs k) (nth ys k) := by
  by_cases hk : k < xs.length
  · exact authenticatedPair_iff.mpr (h.authenticated hk)
  · have hk' : ¬k < ys.length := h.length_eq ▸ hk
    rw [nth, nth, List.getD_eq_default _ _ (not_lt.mp hk), List.getD_eq_default _ _ (not_lt.mp hk')]
    exact zeroShare_paired

/-- Sums of authenticated shares are authenticated. -/
theorem SharesPaired.sum (h : SharesPaired deltaA deltaB xs ys) (positions : List ℕ) :
    AuthenticatedPair deltaA deltaB (sumAt xs positions) (sumAt ys positions) := by
  induction positions with
  | nil => exact zeroShare_paired
  | cons k rest ih =>
    rw [authenticatedPair_iff] at ih ⊢
    simp only [sumAt, List.foldr_cons, share_xor]
    exact (authenticatedPair_iff.mp (h.anywhere k)).add ih

/-- The bit of a sum is the sum of the bits. -/
theorem sharedBit_sumAt (hlength : xs.length = ys.length) (positions : List ℕ) :
    blockLsb (sumAt xs positions).mac ^^^ blockLsb (sumAt ys positions).mac =
      bitSumAt (sharedBits xs ys) positions := by
  have hbit (k : ℕ) :
      (sharedBits xs ys).getD k 0 = blockLsb (nth xs k).mac ^^^ blockLsb (nth ys k).mac := by
    by_cases hk : k < xs.length
    · rw [sharedBits_eq rfl hlength.symm, getD_map_range _ hk]
    · have hk' : ¬k < ys.length := hlength ▸ hk
      rw [nth, nth, List.getD_eq_default _ _ (not_lt.mp hk),
        List.getD_eq_default _ _ (not_lt.mp hk'),
        List.getD_eq_default _ _ (by rw [sharedBits, List.length_zipWith]; omega)]
      decide
  induction positions with
  | nil => exact (by decide : blockLsb zeroShare.mac ^^^ blockLsb zeroShare.mac = 0)
  | cons k rest ih =>
    simp only [sumAt, bitSumAt, List.foldr_cons] at ih ⊢
    rw [hbit, ← ih, AShareBundle.xor, AShareBundle.xor, blockLsb_xor, blockLsb_xor]
    grind

end Sums

/-! ## Calls -/

/-- What a user of a pool asks for; the inputs of a batch are sums of shares which it holds. -/
inductive PoolCall where
  | draw (count : ℕ)
  | compute (left right : List (List ℕ)) (nonce : Block)
  | flushCotCheck
  | maybeFlushCotCheck
  | trimIdleAllocations

/-- The shares which a call adds to those that are held. -/
def perform {S : Type} [TranscriptIo S] (base : PoolBase S) (held : List AShareBundle) :
    PoolCall → PoolM S (List AShareBundle)
  | .draw count => draw base count
  | .compute left right nonce =>
    computeInplace base (left.map (sumAt held)) (right.map (sumAt held)) nonce
  | .flushCotCheck => do
    flushCotCheck base
    return []
  | .maybeFlushCotCheck => do
    maybeFlushCotCheck base
    return []
  | .trimIdleAllocations => do
    trimIdleAllocations
    return []

/-- The shares which are held after calls. -/
def performAll {S : Type} [TranscriptIo S] (base : PoolBase S) :
    List PoolCall → List AShareBundle → PoolM S (List AShareBundle)
  | [], held => return held
  | call :: rest, held => do
    let new ← perform base held call
    performAll base rest (held ++ new)

/-- The bits which a call adds to those that are held. -/
def PoolCall.Adds (held : List UInt8) : PoolCall → List UInt8 → Prop
  | .draw count, new => new.length = count
  | .compute left right _, new =>
    new = List.zipWith (· &&& ·) (left.map (bitSumAt held)) (right.map (bitSumAt held))
  | _, new => new = []

/-- The bits which are held after calls. -/
def Holds : List PoolCall → List UInt8 → List UInt8 → Prop
  | [], held, after => after = held
  | call :: rest, held, after => ∃ new, call.Adds held new ∧ Holds rest (held ++ new) after

/-- A batch has as many left inputs as right ones. -/
def PoolCall.WellFormed : PoolCall → Prop
  | .compute left right _ => left.length = right.length
  | _ => True

/-- The bits of sums. -/
theorem sharedBits_sums {xs ys : List AShareBundle} (hlength : xs.length = ys.length)
    (sums : List (List ℕ)) :
    sharedBits (sums.map (sumAt xs)) (sums.map (sumAt ys)) =
      sums.map (bitSumAt (sharedBits xs ys)) := by
  rw [sharedBits, List.zipWith_map, List.zipWith_self]
  exact List.map_congr_left fun positions _ => sharedBit_sumAt hlength positions

/-- Sums of shares are paired. -/
theorem SharesPaired.sums {xs ys : List AShareBundle} (h : SharesPaired deltaA deltaB xs ys)
    (sums : List (List ℕ)) :
    SharesPaired deltaA deltaB (sums.map (sumAt xs)) (sums.map (sumAt ys)) := by
  rw [SharesPaired, List.forall₂_map_left_iff, List.forall₂_map_right_iff, List.forall₂_same]
  exact fun positions _ => h.sum positions

/-- The number of shared bits. -/
theorem sharedBits_length {xs ys : List AShareBundle} (hlength : xs.length = ys.length) :
    (sharedBits xs ys).length = xs.length := by
  rw [sharedBits, List.length_zipWith]
  omega

/-- A call which adds no shares. -/
theorem joint_addsNothing {prog prog' : PoolM (StreamEnd sha256) Unit}
    (h : Joint (PoolPaired CotReady deltaA deltaB) prog prog'
      fun _ alice _ bob => PoolPaired CotReady deltaA deltaB alice bob) :
    Joint (PoolPaired CotReady deltaA deltaB) (do prog; return []) (do prog'; return [])
      fun xs alice ys bob => (SharesPaired deltaA deltaB xs ys ∧ sharedBits xs ys = []) ∧
        PoolPaired CotReady deltaA deltaB alice bob :=
  h.bind fun _ _ => .pure fun _ _ hpaired => ⟨⟨.nil, rfl⟩, hpaired⟩

/-- A call of both parties. -/
theorem joint_perform (h : base.abit1.Delivers) (h' : base.abit2.Delivers) {call : PoolCall}
    (hcall : call.WellFormed) {ours theirs : List AShareBundle}
    (hheld : SharesPaired deltaA deltaB ours theirs) :
    Joint (PoolPaired CotReady deltaA deltaB) (perform base ours call)
      (perform base.peer theirs call)
      fun xs alice ys bob => (SharesPaired deltaA deltaB xs ys ∧
        call.Adds (sharedBits ours theirs) (sharedBits xs ys)) ∧
          PoolPaired CotReady deltaA deltaB alice bob := by
  cases call with
  | draw count =>
    refine (joint_draw count).mono (fun _ _ hpaired => hpaired) fun xs _ ys _ hpost =>
      ⟨⟨hpost.1.2, ?_⟩, hpost.2⟩
    exact (sharedBits_length hpost.1.2.length_eq).trans hpost.1.1
  | compute left right nonce =>
    refine (joint_computeInplace (by rwa [List.length_map, List.length_map]) (hheld.sums left)
      (hheld.sums right) nonce nonce).mono
      (fun _ _ hpaired => hpaired) fun xs _ ys _ hpost => ⟨⟨hpost.1.1, ?_⟩, hpost.2⟩
    rw [PoolCall.Adds, hpost.1.2, sharedBits_sums hheld.length_eq, sharedBits_sums hheld.length_eq]
  | flushCotCheck => exact joint_addsNothing (joint_flushCotCheck h h')
  | maybeFlushCotCheck => exact joint_addsNothing (joint_maybeFlushCotCheck h h')
  | trimIdleAllocations => exact joint_addsNothing joint_trimIdleAllocations

/-- Calls of both parties. -/
theorem joint_performAll (h : base.abit1.Delivers) (h' : base.abit2.Delivers)
    {calls : List PoolCall} (hcalls : ∀ call ∈ calls, call.WellFormed)
    {ours theirs : List AShareBundle} (hheld : SharesPaired deltaA deltaB ours theirs) :
    Joint (PoolPaired CotReady deltaA deltaB) (performAll base calls ours)
      (performAll base.peer calls theirs)
      fun xs alice ys bob => (SharesPaired deltaA deltaB xs ys ∧
        Holds calls (sharedBits ours theirs) (sharedBits xs ys)) ∧
          PoolPaired CotReady deltaA deltaB alice bob := by
  induction calls generalizing ours theirs with
  | nil => exact .pure fun _ _ hpaired => ⟨⟨hheld, rfl⟩, hpaired⟩
  | cons call rest ih =>
    refine (joint_perform h h' (hcalls call (List.mem_cons_self ..)) hheld).bind fun xs ys =>
      Joint.assume fun hnew => ?_
    have happend :
        sharedBits (ours ++ xs) (theirs ++ ys) = sharedBits ours theirs ++ sharedBits xs ys :=
      List.zipWith_append hheld.length_eq
    refine (ih (fun call hmem => hcalls call (List.mem_cons_of_mem _ hmem))
      (List.rel_append hheld hnew.1)).mono
      (fun _ _ hpaired => hpaired) fun zs _ ws _ hpost => ⟨⟨hpost.1.1, _, hnew.2, ?_⟩, hpost.2⟩
    rw [← happend]
    exact hpost.1.2

/-! ## Whole sessions -/

/-- A session of a pool: it is set up, serves calls, and ends. -/
def session {S : Type} [TranscriptIo S] (base : PoolBase S) (calls : List PoolCall) :
    PoolM S (List AShareBundle) := do
  setup base
  let held ← performAll base calls []
  finish base
  return held

/-- Both parties complete a session. -/
theorem joint_session (h : base.abit1.Delivers) (h' : base.abit2.Delivers) {calls : List PoolCall}
    (hcalls : ∀ call ∈ calls, call.WellFormed) :
    Joint (PoolPaired CotFresh deltaA deltaB) (session base calls) (session base.peer calls)
      fun xs _ ys _ => SharesPaired deltaA deltaB xs ys ∧ Holds calls [] (sharedBits xs ys) := by
  refine (joint_setup h h').bind fun _ _ => ?_
  refine (joint_performAll h h' hcalls .nil).bind fun xs ys => Joint.assume fun hheld => ?_
  refine (joint_markCotCheckFlushed.bind fun _ _ => joint_endAbits).bind fun _ _ => ?_
  exact .pure fun _ _ _ => hheld

/-- The first byte which each party uses: its lowest bits, and that it is kept when it is normalized
again. -/
theorem normalized_byte (first : UInt8) :
    ((first ||| 1 ||| 2) &&& 1 = 1 ∧ (first ||| 1 ||| 2) >>> 1 &&& 1 = 1 ∧
      (first ||| 1 ||| 2) ||| 1 ||| 2 = first ||| 1 ||| 2) ∧
    ((first ||| 1) &&& ~~~2) &&& 1 = 1 ∧ ((first ||| 1) &&& ~~~2) >>> 1 &&& 1 = 0 ∧
      (((first ||| 1) &&& ~~~2) ||| 1) &&& ~~~2 = (first ||| 1) &&& ~~~2 := by
  obtain ⟨bits⟩ := first
  simp only [← UInt8.toBitVec_inj, UInt8.toBitVec_or, UInt8.toBitVec_and, UInt8.toBitVec_not,
    UInt8.toBitVec_shiftRight]
  revert bits
  decide +kernel

/-- The Delta of either party has the lowest bit, and that of Alice the next one. -/
theorem normalizeAg2pcDelta_bits (party : Role) (delta : Block) :
    blockLsb (normalizeAg2pcDelta party delta) = 1 ∧
      blockLsb1 (normalizeAg2pcDelta party delta) = if party = .alice then 1 else 0 := by
  cases party with
  | alice =>
    have hfirst : (normalizeAg2pcDelta .alice delta)[0] = delta[0]?.getD 0 ||| 1 ||| 2 :=
      Vector.getElem_setIfInBounds_self ..
    have hbits := (normalized_byte (delta[0]?.getD 0)).1
    rw [← hfirst] at hbits
    exact ⟨hbits.1, hbits.2.1⟩
  | bob =>
    have hfirst : (normalizeAg2pcDelta .bob delta)[0] = (delta[0]?.getD 0 ||| 1) &&& ~~~2 :=
      Vector.getElem_setIfInBounds_self ..
    have hbits := (normalized_byte (delta[0]?.getD 0)).2
    rw [← hfirst] at hbits
    exact ⟨hbits.1, hbits.2.1⟩

/-- The same of the Deltas as vectors. -/
theorem normalizeAg2pcDelta_lsb (party : Role) (delta : Block) :
    lsb (blockVec (normalizeAg2pcDelta party delta)) = 1 ∧
      lsb1 (blockVec (normalizeAg2pcDelta party delta)) = if party = .alice then 1 else 0 := by
  obtain ⟨hlsb, hlsb1⟩ := normalizeAg2pcDelta_bits party delta
  rw [← bitAt_blockLsb, ← bitAt_blockLsb1, hlsb, hlsb1]
  cases party <;> decide

/-- The pool of a party, at its streams. -/
def started (party : Role) (ssp : ℕ) (delta : Block) (draws : PoolDraws)
    (streams : Ag2pcStreams (StreamEnd sha256)) :
    Ag2pcTriplePool (StreamEnd sha256) where
  state := .new party ssp (normalizeAg2pcDelta party delta)
  abit1 := SoftSpoken4.new .alice true (normalizeAg2pcDelta party delta) draws.choiceSeed1
    (match party with
      | .alice => streams.sibling
      | .bob => streams.main)
  abit2 := SoftSpoken4.new .bob true Block.zero draws.choiceSeed2
    (match party with
      | .alice => streams.main
      | .bob => streams.sibling)

/-- The Delta which was drawn is not used. -/
theorem new_eq (party : Role) (ssp : ℕ) (delta : Block) (draws : PoolDraws)
    (streams : Ag2pcStreams (StreamEnd sha256)) :
    new party ssp delta draws streams = .ok (started party ssp delta draws streams) := by
  cases party <;> rfl

/-- Two pools are paired when they start. -/
theorem started_paired (ssp : ℕ) (deltaA deltaB : Block) (drawsA drawsB : PoolDraws) :
    PoolPaired CotFresh (normalizeAg2pcDelta .alice deltaA) (normalizeAg2pcDelta .bob deltaB)
      (started .alice ssp deltaA drawsA ⟨StreamEnd.new, StreamEnd.new⟩)
      (started .bob ssp deltaB drawsB ⟨StreamEnd.new, (StreamEnd.new : StreamEnd sha256)⟩) where
  honest :=
    ⟨rfl, rfl, (normalizeAg2pcDelta_lsb .bob deltaB).1, (normalizeAg2pcDelta_lsb .alice deltaA).2,
    (normalizeAg2pcDelta_lsb .bob deltaB).2⟩
  offsetA := rfl
  offsetB := rfl
  ssp := rfl
  minted := rfl
  first :=
    ⟨.new true (normalizeAg2pcDelta_lsb .alice deltaA).1 .., Bool.false_ne_true, Bool.false_ne_true⟩
  second :=
    ⟨.new true (normalizeAg2pcDelta_lsb .bob deltaB).1 .., Bool.false_ne_true, Bool.false_ne_true⟩

/-- A pool received all that was on its way, and its streams saw the given rounds. -/
structure Drained (pool : Ag2pcTriplePool (StreamEnd sha256))
    (rounds : Rounds (List (Event UInt8))) : Prop where
  incoming1 : pool.abit1.ot.stream.incoming = []
  incoming2 : pool.abit2.ot.stream.incoming = []
  log1 : pool.abit1.ot.stream.log = rounds.first
  log2 : pool.abit2.ot.stream.log = rounds.second

/-- Two pools at the ends of two streams, with base OTs which serve, complete the same session of
any calls. In every round each receives on both streams what the other sends. The shares which they
hold are authenticated, and those which were computed share the products of the bits that their
inputs share. -/
theorem triplePools_multiply {G : Type} [AddCommGroup G] {curve : P256 G} {r r' : ℕ}
    {seed seed' : Block} {alphas alphas' : ℕ → ℕ} {t t' : G}
    (hserves : CswServes curve r seed alphas t) (hserves' : CswServes curve r' seed' alphas' t')
    (permute : Block → Block → Block) (sha256 : List UInt8 → Value32) (bucketSize : ℕ → ℕ → ℕ)
    (ssp : ℕ) (deltaA deltaB : Block) (drawsA drawsB : PoolDraws) {calls : List PoolCall}
    (hcalls : ∀ call ∈ calls, call.WellFormed) :
    let base : PoolBase (StreamEnd sha256) :=
      ⟨permute, sha256, .csw curve permute sha256 r seed alphas,
      .csw curve permute sha256 r' seed' alphas', bucketSize⟩
    ∃ (left right : Rounds (List (Event UInt8)))
      (poolA poolB alice bob : Ag2pcTriplePool (StreamEnd sha256))
      (ours theirs : List AShareBundle), Traffic.Meets left right ∧
      new .alice ssp deltaA drawsA ⟨.fed left.second, .fed left.first⟩ = .ok poolA ∧
      session base calls poolA = .ok ours alice ∧ Drained alice left ∧
      new .bob ssp deltaB drawsB ⟨.fed right.first, .fed right.second⟩ = .ok poolB ∧
      session base.peer calls poolB = .ok theirs bob ∧ Drained bob right ∧
      SharesPaired (normalizeAg2pcDelta .alice deltaA)
        (normalizeAg2pcDelta .bob deltaB) ours theirs ∧
      Holds calls [] (sharedBits ours theirs) := by
  intro base
  obtain ⟨left, right, ours, alice, theirs, bob, hmeets, hours, htheirs, hpaired, hholds⟩ :=
    @joint_session _ base _ _ (hserves.delivers permute)
      (hserves'.delivers permute) calls hcalls _ _
      (started_paired ssp deltaA deltaB drawsA drawsB)
  have hours' := hours Traffic.none Traffic.none
  have htheirs' := htheirs Traffic.none Traffic.none
  rw [Traffic.append_none, Traffic.none_append] at hours' htheirs'
  exact ⟨left, right, _, _, _, _, ours, theirs, hmeets, new_eq .., hours', ⟨rfl, rfl, rfl, rfl⟩,
    new_eq .., htheirs',
    ⟨rfl, rfl, rfl, rfl⟩, hpaired, hholds⟩

/-- A session which computes products of sums, on a small group. -/
theorem triplePools_multiply_five :
    let otBase : OtBase (StreamEnd Value32.ofList) :=
      .csw fiveCurve (fun _ block => block) Value32.ofList 1 Block.zero fun _ => 2
    let base : PoolBase (StreamEnd Value32.ofList) :=
      ⟨fun _ block => block, Value32.ofList, otBase, otBase, fun _ _ => 3⟩
    let calls := [.draw 4, .compute [[0, 1], [2]] [[3], [1, 2]] Block.zero, .maybeFlushCotCheck,
      .compute [[4, 0]] [[5]] Block.zero, .trimIdleAllocations]
    let draws : PoolDraws := ⟨Block.zero, Block.zero, Block.zero⟩
    ∃ (left right : Rounds (List (Event UInt8)))
      (poolA poolB alice bob : Ag2pcTriplePool (StreamEnd Value32.ofList))
      (ours theirs : List AShareBundle), Traffic.Meets left right ∧
      new .alice 40 Block.zero draws ⟨.fed left.second, .fed left.first⟩ = .ok poolA ∧
      session base calls poolA = .ok ours alice ∧ Drained alice left ∧
      new .bob 40 Block.zero draws ⟨.fed right.first, .fed right.second⟩ = .ok poolB ∧
      session base.peer calls poolB = .ok theirs bob ∧ Drained bob right ∧
      SharesPaired (normalizeAg2pcDelta .alice Block.zero)
        (normalizeAg2pcDelta .bob Block.zero) ours theirs ∧
      Holds calls [] (sharedBits ours theirs) :=
  triplePools_multiply fiveCurve_serves fiveCurve_serves _ _ _ _ _ _ _ _ (by
    simp [PoolCall.WellFormed])

end Ag2pcTriplePool

end Shachain2pc
