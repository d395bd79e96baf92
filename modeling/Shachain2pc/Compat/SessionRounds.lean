import Shachain2pc.Compat.SessionIo
import Shachain2pc.Compat.TripleCalls

/-!
# Rounds of two sessions

Both parties of a session make the same calls. What a pass of one party sends in pieces, chunks
of tables or vectors of bits, the other receives in pieces of its own; the bytes are the same.
The passes on the streams leave what the passes of a run leave.
-/

namespace Shachain2pc

open JointRuns AuthenticatedBits
open Ag2pcTriplePool

variable {sha256 : List UInt8 → Value32}

namespace Ag2pcSession

/-! ## Messages -/

section Messages

variable {A : Type} {message : List UInt8}

/-- Blocks are received, as bytes. -/
theorem exchanges_recvBlockBytes {len : ℕ} (hlen : message.length = 16 * len) :
    Exchanges (recvBlocks len : CotM (StreamEnd sha256) (List Block)) [.received message]
      (blocksOfBytes len message) := by
  refine fun e =>
    runs_onOt e.leftover ((runs_onWire (StreamEnd.runs_recvData (by omega) _)).bindQuiet ?_)
  rw [hlen, Nat.mul_div_cancel_left _ (by decide)]
  exact .pure _ _

/-- The messages which open inputs. -/
def openMessages (share : RevealNodeShare) (packed : List UInt8) : List (List UInt8) :=
  share.shareBits :: share.macDigest.bytes.toList :: if packed.isEmpty then [] else [packed]

/-- Inputs are opened to the peer. -/
theorem exchanges_sendInputOpen (share : RevealNodeShare) (packed : List UInt8) :
    Exchanges (sendInputOpen share packed : CotM (StreamEnd sha256) Unit)
      ((openMessages share packed).map .sent) () := by
  unfold sendInputOpen openMessages
  by_cases hpacked : packed.isEmpty
  · simp only [hpacked, not_true_eq_false, if_false, if_true]
    exact (exchanges_sendData _).bind ((exchanges_sendData _).bindQuiet exchanges_flush)
  · simp only [hpacked, Bool.false_eq_true, not_false_eq_true, if_true, if_false]
    exact (exchanges_sendData _).bind
      ((exchanges_sendData _).bind ((exchanges_sendData _).bindQuiet exchanges_flush))

/-- The openings of the peer are received. -/
theorem exchanges_recvInputOpen {share : RevealNodeShare} {packed : List UInt8} {total len : ℕ}
    (htotal : share.shareBits.length = total) (hlen : packed.length = len) :
    Exchanges
      (recvInputOpen total len : CotM (StreamEnd sha256) (List UInt8 × Value32 × List UInt8))
      ((openMessages share packed).map .received) (share.shareBits, share.macDigest, packed) := by
  have hdigest : share.macDigest.bytes.toList.length = 32 := Vector.length_toList
  subst hlen
  unfold recvInputOpen openMessages
  cases packed with
  | nil =>
    refine (exchanges_recvData htotal).bind ((exchanges_recvData hdigest).bindQuiet ?_)
    rw [Value32.ofList_toList]
    exact .pure _
  | cons bit rest =>
    refine (exchanges_recvData htotal).bind ((exchanges_recvData hdigest).bind ?_)
    rw [if_neg (by simp), Value32.ofList_toList]
    exact (exchanges_recvData rfl).bindQuiet (.pure _)

/-- Share bits and a digest are sent. -/
theorem exchanges_sendShare (share : RevealNodeShare) :
    Exchanges (sendShare share : CotM (StreamEnd sha256) Unit)
      [.sent share.shareBits, .sent share.macDigest.bytes.toList] () :=
  (exchanges_sendData _).bind ((exchanges_sendData _).bindQuiet exchanges_flush)

/-- Share bits and a digest are received. -/
theorem exchanges_recvShare {share : RevealNodeShare} {n : ℕ} (hn : share.shareBits.length = n) :
    Exchanges (recvShare n : CotM (StreamEnd sha256) (List UInt8 × Value32))
      [.received share.shareBits, .received share.macDigest.bytes.toList]
      (share.shareBits, share.macDigest) := by
  refine (exchanges_recvData hn).bind ((exchanges_recvData Vector.length_toList).bindQuiet ?_)
  rw [Value32.ofList_toList]
  exact .pure _

end Messages

/-! ## The garbler -/

section passes

variable {M : Type} {H : TweakableHash M} {hash : List UInt8 → Value32} {program : Ag2pcProgram}

/-- A chunk is sent. -/
theorem exchanges_sendChunk (cursor : GarblerCursor M) :
    Exchanges (sendChunk cursor : CotM (StreamEnd sha256) (GarblerCursor M))
      ([macBytes cursor.chunkG, cursor.chunkB].map .sent) cursor.sendChunk :=
  ((exchanges_sendData _).bind ((exchanges_sendData _).bindQuiet exchanges_flush)).bindQuiet
    (.pure _)

/-- A gate of the garbler sends what it does in a run. -/
theorem exchanges_garblerGate (H : TweakableHash M) (i : ℕ) (gate : Ag2pcProgramGate)
    (cursor : GarblerCursor M) :
    ∃ messages : List (List UInt8), (cursor.gate H i gate).sent = cursor.sent ++ messages.flatten ∧
      Exchanges (garblerGate H i gate cursor : CotM (StreamEnd sha256) (GarblerCursor M))
        (messages.map .sent) (cursor.gate H i gate) := by
  unfold garblerGate GarblerCursor.gate
  cases gate.typ with
  | xor => exact ⟨[], (List.append_nil _).symm, .pure _⟩
  | inv => exact ⟨[], (List.append_nil _).symm, .pure _⟩
  | and =>
    simp only
    split
    · next hfull =>
      refine ⟨_, ?_, exchanges_sendChunk _⟩
      simp [GarblerCursor.sendChunk]
    · exact ⟨[], (List.append_nil _).symm, .pure _⟩

/-- The gates of the garbler send what they do in a run. -/
theorem exchanges_garblerGates (H : TweakableHash M) (i : ℕ) (gates : List Ag2pcProgramGate)
    (cursor : GarblerCursor M) :
    ∃ messages : List (List UInt8),
      (GarblerCursor.gates H i gates cursor).sent = cursor.sent ++ messages.flatten ∧
      Exchanges (garblerGates H i gates cursor : CotM (StreamEnd sha256) (GarblerCursor M))
        (messages.map .sent) (GarblerCursor.gates H i gates cursor) := by
  induction gates generalizing i cursor with
  | nil => exact ⟨[], (List.append_nil _).symm, .pure _⟩
  | cons gate rest ih =>
    obtain ⟨first, hfirst, hgate⟩ := @exchanges_garblerGate sha256 M H i gate cursor
    obtain ⟨later, hlater, hrest⟩ := ih (i + 1) (cursor.gate H i gate)
    refine ⟨first ++ later, ?_, ?_⟩
    · rw [GarblerCursor.gates, hlater, hfirst, List.flatten_append, List.append_assoc]
    · rw [List.map_append]
      exact hgate.bind hrest

/-- What happens at the garbler after the tables: masked bits come back, and an answer goes out. -/
def checkEvents (numAnds : ℕ) (bits answer : List UInt8) : List (Event UInt8) :=
  if 0 < numAnds then [.received (packBools bits), .sent answer] else []

/-- The garbler sends the tables of a run, and checks the masked bits which come back. -/
theorem exchanges_garblerPath {state sent checked : Ag2pcRunState M}
    {bytes bits answer : List UInt8} (hsend : garblerSend H program state = (sent, bytes))
    (hlength : bits.length = sent.numAnds) (hbits : ∀ b ∈ bits, b &&& 1 = b)
    (hcheck : garblerCheck hash program sent (packBools bits) = some (checked, answer)) :
    ∃ messages : List (List UInt8), messages.flatten = bytes ∧
      Exchanges (garblerPath H hash program state : CotM (StreamEnd sha256) (Ag2pcRunState M))
        (messages.map .sent ++ checkEvents sent.numAnds bits answer) checked := by
  obtain ⟨first, hfirst, hgates⟩ :=
    @exchanges_garblerGates sha256 M H 0 program.gates ⟨state, [], [], 0, []⟩
  obtain ⟨cursor, hcursor⟩ :
      ∃ cursor, cursor = GarblerCursor.gates H 0 program.gates ⟨state, [], [], 0, []⟩ :=
    ⟨_, rfl⟩
  rw [← hcursor] at hfirst hgates
  rw [List.nil_append] at hfirst
  obtain ⟨last, hlast⟩ :
      ∃ last, last = if cursor.chunkB.isEmpty then cursor else cursor.sendChunk := ⟨_, rfl⟩
  obtain ⟨later, hlater, hrest⟩ :
      ∃ later : List (List UInt8), last.sent = cursor.sent ++ later.flatten ∧
      Exchanges (sendLastChunk cursor : CotM (StreamEnd sha256) (GarblerCursor M))
        (later.map .sent) last := by
    unfold sendLastChunk
    by_cases hempty : cursor.chunkB.isEmpty
    · rw [hlast, if_pos hempty, if_pos hempty]
      exact ⟨[], (List.append_nil _).symm, .pure _⟩
    · rw [hlast, if_neg hempty, if_neg hempty]
      exact ⟨_, by simp [GarblerCursor.sendChunk], exchanges_sendChunk cursor⟩
  have hsent : (last.state, last.sent) = (sent, bytes) := by
    rw [← hsend, hlast, garblerSend, ← hcursor]
  obtain ⟨rfl, rfl⟩ := Prod.mk.inj hsent
  refine ⟨first ++ later, by rw [List.flatten_append, hlater, hfirst], ?_⟩
  rw [List.map_append, List.append_assoc]
  refine hgates.bind (hrest.bind ?_)
  unfold checkEvents garblerAnswer
  unfold garblerCheck at hcheck
  by_cases hands : 0 < last.state.numAnds
  · have hreceived := recvBoolVector_append hbits []
    rw [List.append_nil, hlength] at hreceived
    rw [if_pos hands, hreceived] at hcheck
    obtain ⟨rfl, rfl⟩ := Prod.mk.inj (Option.some.inj hcheck)
    rw [if_pos hands, if_pos hands]
    exact (exchanges_recvBoolVector hlength hbits).bind
      ((exchanges_sendData _).bindQuiet (exchanges_flush.bindQuiet (.pure _)))
  · rw [if_neg hands] at hcheck
    obtain ⟨rfl, -⟩ := Prod.mk.inj (Option.some.inj hcheck)
    rw [if_neg hands, if_neg hands]
    exact .pure _

/-! ## The evaluator -/

/-- A cursor at which everything was read. -/
def unread (cursor : EvaluatorCursor M) : EvaluatorCursor M := { cursor with stream := [] }

/-- What a receive takes and what it leaves. -/
theorem recvData_split {len : ℕ} {stream received rest : List UInt8}
    (h : recvData len stream = some (received, rest)) :
    stream = received ++ rest ∧ received.length = len := by
  unfold recvData at h
  split at h
  · next hle =>
    obtain ⟨rfl, rfl⟩ := Prod.mk.inj (Option.some.inj h)
    exact ⟨(List.take_append_drop ..).symm, List.length_take_of_le hle⟩
  · cases h

/-- A chunk which is received in a run is received from the stream. -/
theorem exchanges_recvChunk {cursor next : EvaluatorCursor M} (h : cursor.recvChunk = some next) :
    ∃ messages : List (List UInt8), cursor.stream = messages.flatten ++ next.stream ∧
      Exchanges (recvChunk (unread cursor) : CotM (StreamEnd sha256) (EvaluatorCursor M))
        (messages.map .received) (unread next) := by
  unfold EvaluatorCursor.recvChunk at h
  unfold recvChunk
  by_cases hpos : cursor.chunkPos = cursor.chunkB.length
  · rw [if_pos hpos] at h
    obtain ⟨n, hn⟩ :
        ∃ n, n = min (cursor.state.numAnds - cursor.andIndex) garbleChunkAnds := ⟨_, rfl⟩
    rw [← hn] at h
    obtain ⟨⟨g, rest⟩, hg, h⟩ := Option.bind_eq_some_iff.mp h
    obtain ⟨⟨b, rest'⟩, hb, h⟩ := Option.bind_eq_some_iff.mp h
    obtain rfl := Option.some.inj h
    obtain ⟨⟨bytes, left⟩, hbytes, hblocks⟩ := Option.map_eq_some_iff.mp hg
    obtain ⟨rfl, rfl⟩ := Prod.mk.inj hblocks
    obtain ⟨hstream, hlength⟩ := recvData_split hbytes
    obtain ⟨hleft, hlength'⟩ := recvData_split hb
    refine ⟨[bytes, b], ?_, ?_⟩
    · rw [hstream, show left = b ++ rest' from hleft]
      simp
    · have hchunk :
          Exchanges (recvGarbleChunk n : CotM (StreamEnd sha256) (List Block × List UInt8))
          [.received bytes, .received b] (blocksOfBytes (2 * n) bytes, b) :=
        (exchanges_recvBlockBytes hlength).bind ((exchanges_recvData hlength').bindQuiet (.pure _))
      rw [if_pos (show (unread cursor).chunkPos = (unread cursor).chunkB.length from hpos)]
      subst hn
      exact hchunk.bindQuiet (.pure _)
  · rw [if_neg hpos] at h
    obtain rfl := Option.some.inj h
    refine ⟨[], rfl, ?_⟩
    rw [if_neg (show ¬(unread cursor).chunkPos = (unread cursor).chunkB.length from hpos)]
    exact .pure _

/-- A gate of the evaluator receives what it reads in a run. -/
theorem exchanges_evaluatorGate {i : ℕ} {gate : Ag2pcProgramGate} {cursor next : EvaluatorCursor M}
    (h : cursor.gate H i gate = some next) :
    ∃ messages : List (List UInt8), cursor.stream = messages.flatten ++ next.stream ∧
      Exchanges
        (evaluatorGate H i gate (unread cursor) : CotM (StreamEnd sha256) (EvaluatorCursor M))
        (messages.map .received) (unread next) := by
  unfold EvaluatorCursor.gate at h
  unfold evaluatorGate
  cases htyp : gate.typ with
  | xor =>
    simp only [htyp] at h ⊢
    obtain rfl := Option.some.inj h
    exact ⟨[], rfl, .pure _⟩
  | inv =>
    simp only [htyp] at h ⊢
    obtain rfl := Option.some.inj h
    exact ⟨[], rfl, .pure _⟩
  | and =>
    simp only [htyp] at h ⊢
    obtain ⟨received, hreceived, h⟩ := Option.bind_eq_some_iff.mp h
    obtain rfl := Option.some.inj h
    obtain ⟨messages, hstream, hchunk⟩ := @exchanges_recvChunk sha256 M cursor received hreceived
    exact ⟨messages, hstream, hchunk.bindQuiet (.pure _)⟩

/-- The gates of the evaluator receive what they read in a run. -/
theorem exchanges_evaluatorGates {i : ℕ} {gates : List Ag2pcProgramGate}
    {cursor last : EvaluatorCursor M} (h : EvaluatorCursor.gates H i gates cursor = some last) :
    ∃ messages : List (List UInt8), cursor.stream = messages.flatten ++ last.stream ∧
      Exchanges
        (evaluatorGates H i gates (unread cursor) : CotM (StreamEnd sha256) (EvaluatorCursor M))
        (messages.map .received) (unread last) := by
  induction gates generalizing i cursor with
  | nil =>
    obtain rfl := Option.some.inj h
    exact ⟨[], rfl, .pure _⟩
  | cons gate rest ih =>
    obtain ⟨next, hnext, h⟩ := Option.bind_eq_some_iff.mp h
    obtain ⟨first, hfirst, hgate⟩ := @exchanges_evaluatorGate sha256 M H i gate cursor next hnext
    obtain ⟨later, hlater, hrest⟩ := ih h
    refine ⟨first ++ later, by rw [hfirst, hlater, List.flatten_append, List.append_assoc], ?_⟩
    rw [List.map_append]
    exact hgate.bind hrest

/-- The evaluator receives the tables of a run, returns the masked bits, and finds the answer as it
should be. -/
theorem exchanges_evaluatorPath {state last : Ag2pcRunState M} {cursor : EvaluatorCursor M}
    {bytes answer : List UInt8} (hanswer : 0 < cursor.state.numAnds → answer.length = 32)
    (hgates : EvaluatorCursor.gates H 0 program.gates
      ⟨state, [], [], 0, 0, [], bytes⟩ = some cursor)
    (hstream : cursor.stream = [])
    (hcompare : evaluatorCheck hash cursor answer = some (.ok last)) :
    ∃ messages : List (List UInt8), messages.flatten = bytes ∧
      Exchanges (evaluatorPath H hash program state : CotM (StreamEnd sha256) (Ag2pcRunState M))
        (messages.map .received ++
          (checkEvents cursor.state.numAnds cursor.state.lambdaAnd answer).map Event.opposite)
            last := by
  obtain ⟨messages, hbytes, hexchange⟩ :=
    @exchanges_evaluatorGates sha256 M H 0 program.gates _ _ hgates
  rw [hstream, List.append_nil] at hbytes
  refine ⟨messages, hbytes.symm, hexchange.bind ?_⟩
  unfold evaluatorCompare checkEvents
  unfold evaluatorCheck at hcompare
  by_cases hands : 0 < cursor.state.numAnds
  · have hlength := hanswer hands
    have hreceived := recvData_append answer []
    rw [List.append_nil, hlength] at hreceived
    rw [if_pos hands, hstream, List.nil_append, hreceived] at hcompare
    simp only [Option.bind_eq_bind, Option.bind_some] at hcompare
    by_cases hsame : (hash cursor.gamma).bytes.toList = answer
    · rw [if_neg (not_not.mpr hsame)] at hcompare
      obtain rfl := Except.ok.inj (Option.some.inj hcompare)
      rw [if_pos (show 0 < (unread cursor).state.numAnds from hands), if_pos hands]
      refine ((exchanges_sendData _).bindQuiet exchanges_flush).bind
        ((exchanges_recvData hlength).bindQuiet ?_)
      rw [if_neg (show ¬(hash (unread cursor).gamma).bytes.toList ≠ answer from not_not.mpr hsame)]
      exact .pure _
    · rw [if_pos hsame] at hcompare
      exact absurd (Option.some.inj hcompare) (by simp)
  · rw [if_neg hands] at hcompare
    obtain rfl := Except.ok.inj (Option.some.inj hcompare)
    rw [if_neg (show ¬0 < (unread cursor).state.numAnds from hands), if_neg hands]
    exact .pure _

end passes

end Ag2pcSession

end Shachain2pc
