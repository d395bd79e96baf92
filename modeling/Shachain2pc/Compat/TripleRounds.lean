import Shachain2pc.Compat.CotCalls
import Shachain2pc.Compat.TripleLayers
import Shachain2pc.Compat.TriplePoolIo

/-!
# Rounds of two triple pools

The parties of a triple pool go through the same steps. In each step the first endpoint of one
party talks to the second of the other. The endpoints stay paired, so what the parties draw is
authenticated, and their transcripts stay mirrored, so both rotate the layers alike.
-/

namespace Shachain2pc

open JointRuns AuthenticatedBits
open Ag2pcShareSlices Ag2pcTriplePoolState

variable {sha256 : List UInt8 → Value32}

/-! ## Messages of an endpoint -/

/-- An endpoint after events at its stream. -/
def CotEndpoint.after (events : List (Event UInt8)) (e : CotEndpoint (StreamEnd sha256)) :
    CotEndpoint (StreamEnd sha256) :=
  { e with ot := { e.ot with stream := e.ot.stream.after events } }

instance : Evolves (CotEndpoint (StreamEnd sha256)) UInt8 where
  after := CotEndpoint.after
  after_nil _ := rfl
  after_append first later e := congrArg (fun stream : StreamEnd sha256 =>
    (⟨⟨e.ot.state, stream, e.ot.history⟩, e.leftover⟩ : CotEndpoint (StreamEnd sha256)))
    (Evolves.after_append first later e.ot.stream)

/-- Endpoints stay paired when each receives what the other sends. -/
theorem CotPaired.after {malicious : Bool} {delta : Block} {e e' : CotEndpoint (StreamEnd sha256)}
    {left right : List (Event UInt8)} (h : CotPaired malicious delta e e')
    (hmeets : Crossing [] [] left right) :
    CotPaired malicious delta (e.after left) (e'.after right) where
  ot :=
    { h.ot with
      mirrored := h.ot.mirrored.after hmeets
      enabled :=
        fun hsetup hactive => (StreamEnd.fsEnabled_after ..).trans (h.ot.enabled hsetup hactive) }
  fits := h.fits
  fits' := h.fits'
  leftover := h.leftover
  fresh := h.fresh

/-- The base of the other party. -/
def PoolBase.peer (base : PoolBase (StreamEnd sha256)) : PoolBase (StreamEnd sha256) :=
  { base with abit1 := base.abit2, abit2 := base.abit1 }

namespace Ag2pcTriplePool

section Messages

variable {A : Type} {events : List (Event UInt8)} {a : A} {message : List UInt8}

/-- A stream operation of an endpoint. -/
theorem exchanges_onStream {prog : EStateM WireError (StreamEnd sha256) A}
    (h : ∀ stream, Runs prog stream events a (stream.after events)) :
    Exchanges (onStream prog : CotM (StreamEnd sha256) A) events a :=
  fun e => runs_onOt e.leftover (runs_onWire (h e.ot.stream))

/-- Bytes are sent. -/
theorem exchanges_sendData (message : List UInt8) :
    Exchanges (onStream (TranscriptIo.sendData message) : CotM (StreamEnd sha256) Unit)
      [.sent message] () :=
  exchanges_onStream (StreamEnd.runs_sendData message)

/-- Bytes are received. -/
theorem exchanges_recvData {len : ℕ} (hlen : message.length = len) :
    Exchanges (onStream (TranscriptIo.recvData len) : CotM (StreamEnd sha256) (List UInt8))
      [.received message]
      message :=
  exchanges_onStream (StreamEnd.runs_recvData hlen)

/-- A stream is flushed. -/
theorem exchanges_flush :
    Exchanges (onStream TranscriptIo.flush : CotM (StreamEnd sha256) Unit) [] () :=
  exchanges_onStream StreamEnd.runs_flush

/-- Blocks are sent. -/
theorem exchanges_sendBlocks (blocks : List Block) :
    Exchanges (sendBlocks blocks : CotM (StreamEnd sha256) Unit) [.sent (macBytes blocks)] () :=
  (exchanges_sendData _).bindQuiet exchanges_flush

/-- Blocks are received. -/
theorem exchanges_recvBlocks {blocks : List Block} {len : ℕ} (hlen : blocks.length = len) :
    Exchanges (recvBlocks len : CotM (StreamEnd sha256) (List Block))
      [.received (macBytes blocks)] blocks :=
  fun e => runs_onOt e.leftover (runs_recvBlock hlen)

/-- One block is received. -/
theorem exchanges_recvOneBlock (block : Block) :
    Exchanges (SoftSpoken4.onOt OtState.recvOneBlock : CotM (StreamEnd sha256) Block)
      [.received (macBytes [block])] block :=
  fun e => runs_onOt e.leftover (runs_recvOneBlock block)

/-- Bits are sent. -/
theorem exchanges_sendBoolVector (bits : List UInt8) :
    Exchanges (sendBoolVector bits : CotM (StreamEnd sha256) Unit) [.sent (packBools bits)] () :=
  (exchanges_sendData _).bindQuiet exchanges_flush

/-- Bytes which are bits are received as they were sent. -/
theorem unpackBools_bits {bits : List UInt8} (hbits : ∀ b ∈ bits, b &&& 1 = b) :
    unpackBools (packBools bits) bits.length = bits := by
  rw [unpackBools_packBools]
  refine (List.map_congr_left fun b hb => ?_).trans (List.map_id bits)
  rcases bit_cases (hbits b hb) with rfl | rfl <;> rfl

/-- Bits are received. -/
theorem exchanges_recvBoolVector {bits : List UInt8} {len : ℕ} (hlen : bits.length = len)
    (hbits : ∀ b ∈ bits, b &&& 1 = b) :
    Exchanges (recvBoolVector len : CotM (StreamEnd sha256) (List UInt8))
      [.received (packBools bits)] bits := by
  subst hlen
  refine (exchanges_recvData (packBools_length bits)).bindQuiet ?_
  rw [unpackBools_bits hbits]
  exact .pure bits

/-- Two bit vectors are sent. -/
theorem exchanges_sendTwoBoolVectors (first second : List UInt8) :
    Exchanges (sendTwoBoolVectors first second : CotM (StreamEnd sha256) Unit)
      [.sent (packBools first), .sent (packBools second)] () :=
  (exchanges_sendData _).bind ((exchanges_sendData _).bindQuiet exchanges_flush)

/-- Two bit vectors are received. -/
theorem exchanges_recvTwoBoolVectors {first second : List UInt8} {len : ℕ}
    (hfirst : first.length = len) (hsecond : second.length = len) (hbits : ∀ b ∈ first, b &&& 1 = b)
    (hbits' : ∀ b ∈ second, b &&& 1 = b) :
    Exchanges (recvTwoBoolVectors len : CotM (StreamEnd sha256) (List UInt8 × List UInt8))
      [.received (packBools first), .received (packBools second)] (first, second) :=
  (exchanges_recvBoolVector hfirst hbits).bind
    ((exchanges_recvBoolVector hsecond hbits').bindQuiet (.pure _))

/-- What Alice sends and receives in an equality check of one digest. -/
def feqEvents (base : PoolBase (StreamEnd sha256)) (digest : List UInt8) (nonce : Block) :
    List (Event UInt8) :=
  [.sent (feqCommitment base digest nonce), .received digest, .sent digest,
    .sent (macBytes [nonce])]

/-- Alice finds her peer's digest equal. -/
theorem exchanges_feqCheckAlice (base : PoolBase (StreamEnd sha256)) {digest : List UInt8}
    (hlength : digest.length = 32) (nonce : Block) :
    Exchanges (feqCheckAlice base digest nonce) (feqEvents base digest nonce) () := by
  refine (exchanges_sendData _).bind
    ((exchanges_recvData hlength).bind ((exchanges_sendData _).bind ?_))
  refine (exchanges_sendData _).bindQuiet (exchanges_flush.bind ?_)
  simp only [ne_eq, not_true_eq_false, if_false]
  exact .pure ()

/-- Bob finds the commitment kept, and the digest equal to his. -/
theorem exchanges_feqCheckBob (base : PoolBase (StreamEnd sha256)) {digest : List UInt8}
    (hlength : digest.length = 32) (nonce : Block) :
    Exchanges (feqCheckBob base digest) ((feqEvents base digest nonce).map Event.opposite) () := by
  have hcommitment : (feqCommitment base digest nonce).length = 32 := Vector.length_toList
  refine (exchanges_recvData hcommitment).bind
    ((exchanges_sendData _).bind ((exchanges_recvData hlength).bind ?_))
  refine (exchanges_recvOneBlock nonce).bindQuiet ?_
  simp only [ne_eq, not_true_eq_false, or_self, if_false]
  exact .pure ()

end Messages

/-! ## Rounds -/

section Rounds

variable {S L A B : Type} [Traffic L] [Port S L] {pool : Ag2pcTriplePool S} {a : A} {b : B}
  {events events' : L}

instance : Port (Ag2pcTriplePool S) (Rounds L) where
  load todo done pool := { pool with
    abit1 := Port.load todo.first done.first pool.abit1
    abit2 := Port.load todo.second done.second pool.abit2 }

/-- The first endpoint uses the first stream of a round. -/
theorem within_abit1 : Within abit1 (fun e (pool : Ag2pcTriplePool S) => { pool with abit1 := e })
    (fun events : L => Rounds.one events Traffic.none) where
  run events todo done pool := by
    refine ⟨todo.first, done.first, rfl, fun e => ?_⟩
    have hsecond : Rounds.second (Rounds.one events Traffic.none ++ todo) = todo.second := by
      rw [Rounds.second_append, Rounds.second_one, Traffic.none_append]
    simp only [Port.load, Rounds.first_append, Rounds.second_append, Rounds.first_one,
      Rounds.second_one, hsecond, Traffic.append_none]

/-- The second endpoint uses the second stream of a round. -/
theorem within_abit2 : Within abit2 (fun e (pool : Ag2pcTriplePool S) => { pool with abit2 := e })
    (fun events : L => Rounds.one Traffic.none events) where
  run events todo done pool := by
    refine ⟨todo.second, done.second, rfl, fun e => ?_⟩
    have hfirst : Rounds.first (Rounds.one Traffic.none events ++ todo) = todo.first := by
      rw [Rounds.first_append, Rounds.first_one, Traffic.none_append]
    simp only [Port.load, Rounds.first_append, Rounds.second_append, Rounds.first_one,
      Rounds.second_one, hfirst, Traffic.append_none]

/-- Joined code takes one round. -/
theorem runs_tryJoin {first : CotM S A} {second : CotM S B} {e e' : CotEndpoint S}
    (h : Runs first pool.abit1 events a e) (h' : Runs second pool.abit2 events' b e') :
    Runs (tryJoin first second) pool (Rounds.one events events') (a, b) { pool with
      abit1 := e, abit2 := e' } := by
  intro todo done
  have hfirst : onAbit1 first (Port.load (Rounds.one events events' ++ todo) done pool) =
      .ok a { pool with
        abit1 := Port.load todo.first (done.first ++ events) e
        abit2 := Port.load (events' ++ todo.second) done.second pool.abit2 } := by
    have hrun : first (Port.load (Rounds.one events events' ++ todo) done pool).abit1 =
        .ok a (Port.load todo.first (done.first ++ events) e) := h todo.first done.first
    simp only [onAbit1, Triples.zoom, hrun]
    rfl
  have hsecond : onAbit2 second { pool with
      abit1 := Port.load todo.first (done.first ++ events) e
      abit2 := Port.load (events' ++ todo.second) done.second pool.abit2 } =
      .ok b { pool with
        abit1 := Port.load todo.first (done.first ++ events) e
        abit2 := Port.load todo.second (done.second ++ events') e' } := by
    simp only [onAbit2, Triples.zoom, h' todo.second done.second]
  rw [tryJoin, Triples.bind_ok hfirst, Triples.bind_ok hsecond]
  simp only [Port.load, Rounds.first_append, Rounds.second_append, Rounds.first_one,
    Rounds.second_one]
  rfl

/-- A change of the pool's state. -/
theorem runs_modifyState (f : Ag2pcTriplePoolState → Ag2pcTriplePoolState) :
    Runs (modifyState f) pool (Traffic.none : Rounds L) () { pool with state := f pool.state } :=
  .local fun _ _ => rfl

/-- An operation on shares which succeeds. -/
theorem runs_onShares {result : Except Ag2pcTriplePoolError A} {next : A → PoolM S B}
    {rounds : Rounds L} {pool' : Ag2pcTriplePool S} (hresult : result = .ok a)
    (h : Runs (next a) pool rounds b pool') :
    Runs (onShares result >>= next) pool rounds b pool' :=
  .ofExcept (by rw [hresult]; rfl) h

/-- An operation on shares which comes last. -/
theorem runs_onSharesLast {result : Except Ag2pcTriplePoolError A} (hresult : result = .ok a) :
    Runs (onShares result) pool (Traffic.none : Rounds L) a pool :=
  .local fun _ _ => by rw [hresult]; rfl

end Rounds

/-! ## Two pools -/

/-- Endpoints which are paired and set up. -/
def CotReady (delta : Block) (e e' : CotEndpoint (StreamEnd sha256)) : Prop :=
  CotPaired true delta e e' ∧ e.ot.state.setupDone

/-- Two pools, of which the first endpoint of each belongs to the second of the other. -/
structure PoolPaired
    (rel : Block → CotEndpoint (StreamEnd sha256) → CotEndpoint (StreamEnd sha256) → Prop)
    (deltaA deltaB : Block) (alice bob : Ag2pcTriplePool (StreamEnd sha256)) : Prop where
  honest : Honest alice.state bob.state
  offsetA : alice.state.delta = deltaA
  offsetB : bob.state.delta = deltaB
  ssp : alice.state.ssp = bob.state.ssp
  minted : alice.state.cotsMintedSinceCheck = bob.state.cotsMintedSinceCheck
  first : rel deltaA alice.abit1 bob.abit2
  second : rel deltaB bob.abit1 alice.abit2

section Joint

variable {A B C D : Type} {deltaA deltaB : Block}
  {rel rel' : Block → CotEndpoint (StreamEnd sha256) → CotEndpoint (StreamEnd sha256) → Prop}

/-- Both parties join code on their endpoints. -/
theorem joint_tryJoin {first : CotM (StreamEnd sha256) A} {second : CotM (StreamEnd sha256) B}
    {first' : CotM (StreamEnd sha256) C} {second' : CotM (StreamEnd sha256) D}
    {value : A → D → Prop} {value' : C → B → Prop}
    (h : Joint (rel deltaA) first second' fun a e d e' => value a d ∧ rel' deltaA e e')
    (h' : Joint (rel deltaB) first' second fun c e b e' => value' c b ∧ rel' deltaB e e') :
    Joint (PoolPaired rel deltaA deltaB) (tryJoin first second) (tryJoin first' second')
      fun x alice y bob => (value x.1 y.2 ∧ value' y.1 x.2) ∧
      PoolPaired rel' deltaA deltaB alice bob := by
  intro alice bob hpaired
  obtain ⟨left, right, a, e, d, e', hmeets, hrun, hrun', hvalue, hrel⟩ := h _ _ hpaired.first
  obtain ⟨left', right', c, f, b, f', hmeets', hrunC, hrunB, hvalue', hrel'⟩ :=
    h' _ _ hpaired.second
  exact ⟨_, _, _, _, _, _, Rounds.meets_one hmeets (Traffic.meets_symm hmeets'),
    runs_tryJoin hrun hrunB,
    runs_tryJoin hrunC hrun', ⟨hvalue, hvalue'⟩, { hpaired with first := hrel, second := hrel' }⟩

/-- Two programs at paired endpoints, each of which receives what the other sends. -/
theorem joint_crossing {prog : CotM (StreamEnd sha256) A} {prog' : CotM (StreamEnd sha256) B}
    {left right : List (Event UInt8)} {a : A} {b : B} {delta : Block} (h : Exchanges prog left a)
    (h' : Exchanges prog' right b) (hmeets : Crossing [] [] left right) :
    Joint (CotReady delta) prog prog' fun x e y e' => (x = a ∧ y = b) ∧ CotReady delta e e' :=
  fun e e' he => ⟨left, right, a, _, b, _, hmeets, h e, h' e', ⟨rfl, rfl⟩, he.1.after hmeets, he.2⟩

/-- Two programs which do opposite things at paired endpoints. -/
theorem joint_opposite {prog : CotM (StreamEnd sha256) A} {prog' : CotM (StreamEnd sha256) B}
    {events : List (Event UInt8)} {a : A} {b : B} {delta : Block} (h : Exchanges prog events a)
    (h' : Exchanges prog' (events.map Event.opposite) b) :
    Joint (CotReady delta) prog prog' fun x e y e' => (x = a ∧ y = b) ∧ CotReady delta e e' :=
  joint_crossing h h' (Crossing.opposite events)

/-- Code on the main stream, which is that of Alice's second endpoint and of Bob's first. -/
theorem joint_main {prog : CotM (StreamEnd sha256) A} {prog' : CotM (StreamEnd sha256) B}
    {left right : List (Event UInt8)} {a : A} {b : B} (h : Exchanges prog left a)
    (h' : Exchanges prog' right b) (hmeets : Crossing [] [] left right) :
    Joint (PoolPaired CotReady deltaA deltaB) (onAbit2 prog) (onAbit1 prog')
      fun x alice y bob => (x = a ∧ y = b) ∧ PoolPaired CotReady deltaA deltaB alice bob := by
  intro alice bob hpaired
  exact ⟨_, _, a, { alice with abit2 := alice.abit2.after left }, b,
    { bob with abit1 := bob.abit1.after right },
    Rounds.meets_one Traffic.meets_none hmeets, Runs.zoom within_abit2 (h alice.abit2),
    Runs.zoom within_abit1 (h' bob.abit1), ⟨rfl, rfl⟩,
    { hpaired with second := ⟨hpaired.second.1.after hmeets.symm, hpaired.second.2⟩ }⟩

/-- Each party receives what the other sends. -/
theorem joint_exchange {send send' : CotM (StreamEnd sha256) Unit}
    {recv : CotM (StreamEnd sha256) A} {recv' : CotM (StreamEnd sha256) B}
    {events events' : List (Event UInt8)} {a : A} {b : B} (hrecv : Exchanges recv events a)
    (hsend' : Exchanges send' (events.map Event.opposite) ()) (hrecv' : Exchanges recv' events' b)
    (hsend : Exchanges send (events'.map Event.opposite) ()) :
    Joint (PoolPaired CotReady deltaA deltaB) (exchange send recv) (exchange send' recv')
      fun x alice y bob => (x = a ∧ y = b) ∧ PoolPaired CotReady deltaA deltaB alice bob := by
  refine (joint_tryJoin (joint_opposite hrecv hsend') (joint_opposite hrecv' hsend)).bind fun x y =>
    ?_
  exact .pure fun _ _ h => ⟨⟨h.1.1.1, h.1.2.1⟩, h.2⟩

/-- Blocks are exchanged. -/
theorem joint_exchangeBlocks {ours theirs : List Block} {l : ℕ} (hours : ours.length = l)
    (htheirs : theirs.length = l) :
    Joint (PoolPaired CotReady deltaA deltaB) (exchangeBlocks ours l) (exchangeBlocks theirs l)
      fun x (alice : Ag2pcTriplePool (StreamEnd sha256)) y bob =>
        (x = theirs ∧ y = ours) ∧ PoolPaired CotReady deltaA deltaB alice bob :=
  joint_exchange (exchanges_recvBlocks htheirs) (exchanges_sendBlocks theirs)
    (exchanges_recvBlocks hours)
    (exchanges_sendBlocks ours)

/-- Bytes which are bits. -/
def Bits (l : ℕ) (bits : List UInt8) : Prop := bits.length = l ∧ ∀ b ∈ bits, b &&& 1 = b

/-- Bits are exchanged. -/
theorem joint_exchangeBoolVector {ours theirs : List UInt8} {l : ℕ} (hours : Bits l ours)
    (htheirs : Bits l theirs) :
    Joint (PoolPaired CotReady deltaA deltaB) (exchangeBoolVector ours l)
      (exchangeBoolVector theirs l)
      fun x (alice : Ag2pcTriplePool (StreamEnd sha256)) y bob =>
        (x = theirs ∧ y = ours) ∧ PoolPaired CotReady deltaA deltaB alice bob :=
  joint_exchange (exchanges_recvBoolVector htheirs.1 htheirs.2) (exchanges_sendBoolVector theirs)
    (exchanges_recvBoolVector hours.1 hours.2) (exchanges_sendBoolVector ours)

/-- Pairs of bit vectors are exchanged. -/
theorem joint_exchangeTwoBoolVectors {ours ours' theirs theirs' : List UInt8} {l : ℕ}
    (hours : Bits l ours) (hours' : Bits l ours') (htheirs : Bits l theirs)
    (htheirs' : Bits l theirs') :
    Joint (PoolPaired CotReady deltaA deltaB) (exchangeTwoBoolVectors ours ours' l)
      (exchangeTwoBoolVectors theirs theirs' l) fun x
      (alice : Ag2pcTriplePool (StreamEnd sha256)) y bob =>
        (x = (theirs, theirs') ∧ y = (ours, ours')) ∧ PoolPaired CotReady deltaA deltaB alice bob :=
  joint_exchange (exchanges_recvTwoBoolVectors htheirs.1 htheirs'.1 htheirs.2 htheirs'.2)
    (exchanges_sendTwoBoolVectors theirs theirs')
    (exchanges_recvTwoBoolVectors hours.1 hours'.1 hours.2 hours'.2)
      (exchanges_sendTwoBoolVectors ours ours')

/-! ## Drawn shares -/

variable {base : PoolBase (StreamEnd sha256)}

/-- MACs and keys which two parties draw. -/
structure Drawn (deltaA deltaB : Block) (n : ℕ) (alice bob : List Block × List Block) : Prop where
  first : Delivered deltaA n alice.2 bob.1
  second : Delivered deltaB n bob.2 alice.1

/-- Drawn shares are authenticated. -/
theorem Drawn.authenticated {n : ℕ} {x y : List Block × List Block} (h : Drawn deltaA deltaB n x y)
    {j : ℕ} (hj : j < n) :
    Authenticated lsb (blockVec deltaA) (blockVec deltaB) (Ag2pcShareSlices.share ⟨x.1, x.2⟩ j)
      (Ag2pcShareSlices.share ⟨y.1, y.2⟩ j) :=
  ⟨(h.second.getD hj).mac, (h.first.getD hj).mac, (h.first.getD hj).key, (h.second.getD hj).key⟩

/-- Both draw COTs, and flush. -/
theorem joint_nextNFlush {ot : OtBase (StreamEnd sha256)} {delta : Block} (n : ℕ) :
    Joint (CotReady delta) (nextNFlush ot n) (nextNFlush ot n)
      fun q e t e' => Delivered delta n q t ∧ CotReady delta e e' := by
  refine (joint_nextN n).bind fun q t => Joint.assume fun hdelivered => ?_
  refine (joint_opposite exchanges_flush exchanges_flush).bind fun _ _ => .pure fun _ _ h =>
    ⟨hdelivered, h.2⟩

/-- The pools note that COTs were minted. -/
theorem joint_markCotsMinted :
    Joint (PoolPaired rel deltaA deltaB) (modifyState markCotsMinted) (modifyState markCotsMinted)
      fun _ (alice : Ag2pcTriplePool (StreamEnd sha256)) _ bob =>
        PoolPaired rel deltaA deltaB alice bob := by
  intro alice bob h
  exact ⟨Traffic.none, Traffic.none, (), _, (), _, Traffic.meets_none, runs_modifyState _,
    runs_modifyState _,
    { h with
      honest :=
        ⟨h.honest.alice, h.honest.bob, h.honest.lsb_bob, h.honest.lsb1_alice, h.honest.lsb1_bob⟩
      minted := rfl }⟩

/-- The shares which two parties draw are authenticated. -/
theorem joint_genCotShares (n : ℕ) :
    Joint (PoolPaired CotReady deltaA deltaB) (genCotShares base n) (genCotShares base.peer n)
      fun x alice y bob => Drawn deltaA deltaB n x y ∧
      PoolPaired CotReady deltaA deltaB alice bob := by
  refine joint_markCotsMinted.bind fun _ _ => ?_
  refine (joint_tryJoin (joint_nextNFlush n) (joint_nextNFlush n)).bind fun x y => ?_
  exact .pure fun _ _ h => ⟨⟨h.1.1, h.1.2⟩, h.2⟩

end Joint

end Ag2pcTriplePool

end Shachain2pc
