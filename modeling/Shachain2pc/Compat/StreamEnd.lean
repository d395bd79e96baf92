import Shachain2pc.Compat.BaseOt
import Shachain2pc.Lib.JointRuns

/-!
# The ends of a stream with a transcript

An end hashes what it sends and what it receives once its transcript is enabled. Two ends are
mirrored when each has hashed the other's bytes and they put them in opposite orders, so both
have one digest. Mirrored ends stay mirrored while what one sends is received by the other.

The hash of the transcripts is a parameter.
-/

namespace Shachain2pc

open JointRuns
open Rust (Failure)

/-- One end of a stream: the bytes to come, what happened so far, and the running hashes. -/
structure StreamEnd (sha256 : List UInt8 → Value32) where
  incoming : List UInt8
  log : List (Event UInt8)
  fsSendFirst : Bool
  fsSend : Option (List UInt8)
  fsRecv : Option (List UInt8)

namespace StreamEnd

variable {sha256 : List UInt8 → Value32}

/-- An end at which nothing happened. -/
def new : StreamEnd sha256 := ⟨[], [], false, none, none⟩

/-- An end at which bytes are to come. -/
def fed (events : List (Event UInt8)) : StreamEnd sha256 :=
  ⟨receivedBy events, [], false, none, none⟩

/-- The transcript after bytes which are sent. -/
def send (message : List UInt8) (s : StreamEnd sha256) : StreamEnd sha256 :=
  { s with fsSend := absorb s.fsSend message }

/-- The transcript after bytes which are received. -/
def receive (message : List UInt8) (s : StreamEnd sha256) : StreamEnd sha256 :=
  { s with fsRecv := absorb s.fsRecv message }

/-- An enabled transcript. -/
def enable (sendFirst : Bool) (s : StreamEnd sha256) : StreamEnd sha256 :=
  { s with fsSendFirst := sendFirst, fsSend := some [], fsRecv := some [] }

/-- A receive fails when fewer bytes are to come; the hash absorbs the bytes which are returned. -/
instance : TranscriptIo (StreamEnd sha256) where
  sendData message := modify fun s => { s.send message with log := s.log ++ [.sent message] }
  recvData len := fun s =>
    match Shachain2pc.recvData len s.incoming with
    | some (message, rest) =>
      .ok message { s.receive message with incoming := rest, log := s.log ++ [.received message] }
    | none => .error .brokenPipe s
  flush := pure ()
  enableFs sendFirst := do
    if (← get).fsSend.isSome then throw .fsAlreadyEnabled
    modify (enable sendFirst)
  fsEnabled s := s.fsSend.isSome
  getDigest s := Shachain2pc.getDigest sha256 s.fsSendFirst s.fsSend s.fsRecv

instance : Port (StreamEnd sha256) (List (Event UInt8)) where
  load todo done s := { s with incoming := receivedBy todo, log := done }

/-- Two ends which hashed each other's bytes, in opposite orders. -/
structure Mirrored (s t : StreamEnd sha256) : Prop where
  sent : s.fsSend = t.fsRecv
  received : s.fsRecv = t.fsSend
  both : s.fsSend.isSome = s.fsRecv.isSome
  order : s.fsSend.isSome → s.fsSendFirst = !t.fsSendFirst

variable {s t : StreamEnd sha256}

/-- The ends may be exchanged. -/
theorem Mirrored.symm (h : Mirrored s t) : Mirrored t s where
  sent := h.received.symm
  received := h.sent.symm
  both := by rw [← h.received, ← h.sent, h.both]
  order henabled := by
    rw [← h.received, ← h.both] at henabled
    rw [h.order henabled, Bool.not_not]

/-- Two new ends are mirrored. -/
theorem Mirrored.new : (StreamEnd.new : StreamEnd sha256).Mirrored StreamEnd.new :=
  ⟨rfl, rfl, rfl, fun h => absurd h Bool.false_ne_true⟩

/-- A running hash stays enabled. -/
theorem absorb_isSome (hasher : Option (List UInt8)) (message : List UInt8) :
    (absorb hasher message).isSome = hasher.isSome := Option.isSome_map

/-- Bytes cross to the right end. -/
theorem Mirrored.toRight (h : Mirrored s t) (message : List UInt8) :
    Mirrored (s.send message) (t.receive message) where
  sent := congrArg (absorb · message) h.sent
  received := h.received
  both := (absorb_isSome ..).trans h.both
  order henabled := h.order (absorb_isSome .. ▸ henabled)

/-- Bytes cross to the left end. -/
theorem Mirrored.toLeft (h : Mirrored s t) (message : List UInt8) :
    Mirrored (s.receive message) (t.send message) := (h.symm.toRight message).symm

/-- The transcripts are enabled in opposite orders. -/
theorem Mirrored.enable (sendFirst : Bool) (s t : StreamEnd sha256) :
    Mirrored (s.enable sendFirst) (t.enable !sendFirst) :=
  ⟨rfl, rfl, rfl, fun _ => (Bool.not_not _).symm⟩

/-- Mirrored ends have one digest. -/
theorem Mirrored.digest (h : Mirrored s t) (henabled : TranscriptIo.fsEnabled s) :
    ∃ digest, TranscriptIo.getDigest s = .ok digest ∧ TranscriptIo.getDigest t = .ok digest := by
  have hsent : s.fsSend.isSome := henabled
  obtain ⟨ours, hours⟩ := Option.isSome_iff_exists.mp hsent
  obtain ⟨theirs, htheirs⟩ := Option.isSome_iff_exists.mp (h.both ▸ hsent)
  have horder : t.fsSendFirst = !s.fsSendFirst := by rw [h.order hsent, Bool.not_not]
  obtain ⟨digest, hdigest⟩ := getDigest_ok sha256 s.fsSendFirst ours theirs
  refine ⟨digest, ?_, ?_⟩
  · change getDigest sha256 s.fsSendFirst s.fsSend s.fsRecv = _
    rw [hours, htheirs, hdigest]
  · change getDigest sha256 t.fsSendFirst t.fsSend t.fsRecv = _
    rw [← h.sent, ← h.received, hours, htheirs, horder, ← hdigest]
    exact (getDigest_agree sha256 s.fsSendFirst ours theirs).symm

/-! ## Runs of the operations -/

/-- Bytes are sent. -/
theorem runs_sendData (message : List UInt8) (s : StreamEnd sha256) :
    Runs (TranscriptIo.sendData message) s [.sent message] () (s.send message) := fun _ _ => rfl

/-- The bytes to come are received. -/
theorem runs_recvData {message : List UInt8} {len : ℕ} (hlen : message.length = len)
    (s : StreamEnd sha256) :
    Runs (TranscriptIo.recvData len) s [.received message] message (s.receive message) := by
  intro todo done
  change (match Shachain2pc.recvData len (message ++ receivedBy todo) with
    | some (message, rest) => _
    | none => _) = _
  rw [← hlen, recvData_append]
  rfl

/-- Nothing happens when a stream is flushed. -/
theorem runs_flush (s : StreamEnd sha256) : Runs TranscriptIo.flush s Traffic.none () s :=
  .pure () s

/-- A transcript is enabled once. -/
theorem runs_enableFs (sendFirst : Bool) (hdisabled : ¬TranscriptIo.fsEnabled s) :
    Runs (TranscriptIo.enableFs sendFirst) s Traffic.none () (s.enable sendFirst) := by
  have hnone : s.fsSend.isSome = false := Bool.not_eq_true _ ▸ hdisabled
  refine .local fun todo done => ?_
  change (do if s.fsSend.isSome then throw .fsAlreadyEnabled
             modify (StreamEnd.enable sendFirst) : EStateM WireError (StreamEnd sha256) Unit)
    (Port.load todo done s) = _
  rw [hnone]
  rfl

end StreamEnd

/-! ## Endpoints -/

section Endpoints

variable {S L : Type} [Traffic L] [Port S L]

instance : Port (OtState S) L where
  load todo done s := { s with stream := Port.load todo done s.stream }

instance : Port (CotEndpoint S) L where
  load todo done e := { e with ot := Port.load todo done e.ot }

/-- The stream of an endpoint. -/
theorem within_stream :
    Within (L := L) OtState.stream (fun stream (s : OtState S) => { s with stream := stream })
    id where
  run _ todo done _ := ⟨todo, done, rfl, fun _ => rfl⟩

/-- An endpoint without its leftover. -/
theorem within_ot :
    Within (L := L) CotEndpoint.ot (fun ot (e : CotEndpoint S) => { e with ot := ot }) id where
  run _ todo done _ := ⟨todo, done, rfl, fun _ => rfl⟩

/-- A stream as a whole. -/
theorem within_self : Within (L := L) id (fun stream (_ : S) => stream) id where
  run _ todo done _ := ⟨todo, done, rfl, fun _ => rfl⟩

variable {A : Type} {prog : EStateM WireError S A} {stream : S} {events : L} {a : A}

/-- Code on the stream of an endpoint. -/
theorem runs_onStream {prog : EStateM (Failure OtError) S A} {s : OtState S}
    (h : Runs prog s.stream events a stream) :
    Runs (OtState.onStream prog) s events a { s with stream := stream } :=
  Runs.zoom within_stream h

/-- A stream operation of an endpoint. -/
theorem runs_onWire {s : OtState S} (h : Runs prog s.stream events a stream) :
    Runs (OtState.onWire prog) s events a { s with stream := stream } :=
  runs_onStream (Runs.zoom within_self h)

/-- A stream operation of the base OTs. -/
theorem runs_onIo {s : S} (h : Runs prog s events a stream) :
    Runs (BaseOt.onIo prog) s events a stream :=
  Runs.zoom within_self h

end Endpoints

/-! ## Exchanges -/

namespace StreamEnd

variable {sha256 : List UInt8 → Value32} {s t : StreamEnd sha256}

/-- An end after events. -/
def after (events : List (Event UInt8)) (s : StreamEnd sha256) : StreamEnd sha256 :=
  events.foldl (fun s event => match event with
    | .sent message => s.send message
    | .received message => s.receive message) s

/-- A transcript stays enabled. -/
theorem fsEnabled_after (events : List (Event UInt8)) (s : StreamEnd sha256) :
    TranscriptIo.fsEnabled (s.after events) = TranscriptIo.fsEnabled s := by
  induction events generalizing s with
  | nil => rfl
  | cons event rest ih =>
    cases event with
    | sent message => exact (ih (s.send message)).trans (absorb_isSome ..)
    | received message => exact ih (s.receive message)

/-- A transcript absorbs what is sent and what is received. -/
theorem after_eq (events : List (Event UInt8)) (s : StreamEnd sha256) :
    s.after events =
      { s with
        fsSend := absorb s.fsSend (sentBy events),
        fsRecv := absorb s.fsRecv (receivedBy events) } := by
  have hnil (hasher : Option (List UInt8)) : absorb hasher [] = hasher := by
    cases hasher <;> simp [absorb]
  have happend (hasher : Option (List UInt8)) (first later : List UInt8) :
      absorb (absorb hasher first) later = absorb hasher (first ++ later) := by
    cases hasher <;> simp [absorb]
  induction events generalizing s with
  | nil => simp [after, sentBy, receivedBy, hnil]
  | cons event rest ih =>
    cases event with
    | sent message =>
      have hrest := ih (s.send message)
      simp only [StreamEnd.send, happend] at hrest
      exact hrest
    | received message =>
      have hrest := ih (s.receive message)
      simp only [StreamEnd.receive, happend] at hrest
      exact hrest

/-- Mirrored ends stay mirrored when each receives what the other sends. -/
theorem Mirrored.after {left right : List (Event UInt8)} (h : Mirrored s t)
    (hmeets : Crossing [] [] left right) :
    Mirrored (s.after left) (t.after right) := by
  obtain ⟨hleft, hright⟩ := hmeets.delivers
  rw [List.nil_append] at hleft hright
  rw [after_eq, after_eq, hleft, hright]
  exact
    { sent := congrArg (absorb · (sentBy left)) h.sent
      received := congrArg (absorb · (sentBy right)) h.received
      both := by rw [absorb_isSome, absorb_isSome, h.both]
      order := fun henabled => h.order (absorb_isSome .. ▸ henabled) }

section Exchanges

variable {E F A B : Type} {prog : EStateM E (StreamEnd sha256) A}
  {prog' : EStateM F (StreamEnd sha256) B} {events : List (Event UInt8)} {a : A} {b : B}

instance : Evolves (StreamEnd sha256) UInt8 where
  after := after
  after_nil _ := rfl
  after_append _ _ _ := List.foldl_append

/-- Bytes are sent. -/
theorem exchanges_send (message : List UInt8) :
    Exchanges (BaseOt.onIo (TranscriptIo.sendData message) : BaseOt.BaseM (StreamEnd sha256) Unit)
      [.sent message] () :=
  fun s => runs_onIo (runs_sendData message s)

/-- Nothing happens when a stream is flushed. -/
theorem exchanges_flush :
    Exchanges (BaseOt.onIo TranscriptIo.flush : BaseOt.BaseM (StreamEnd sha256) Unit) [] () :=
  fun s => runs_onIo (runs_flush s)

/-- Bytes are received. -/
theorem exchanges_recv {message : List UInt8} {len : ℕ} (hlen : message.length = len) :
    Exchanges
      (BaseOt.onIo (TranscriptIo.recvData len) : BaseOt.BaseM (StreamEnd sha256) (List UInt8))
      [.received message] message :=
  fun s => runs_onIo (runs_recvData hlen s)

/-- Two programs which do opposite things have a joint run. -/
theorem exchanges_joint (h : Exchanges prog events a)
    (h' : Exchanges prog' (events.map Event.opposite) b) :
    Joint Mirrored prog prog' fun x s y t => x = a ∧ y = b ∧ Mirrored s t :=
  fun s t hst => ⟨events, _, a, _, b, _, Crossing.opposite events, h s, h' t, rfl, rfl,
    hst.after (Crossing.opposite events)⟩

end Exchanges

end StreamEnd

end Shachain2pc
