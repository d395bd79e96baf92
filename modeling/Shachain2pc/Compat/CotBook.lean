import Shachain2pc.Compat.SoftSpokenIo

/-!
# The bookkeeping of a correlated OT endpoint

What an endpoint does to its sessions, its counters and its history does not depend on the
blocks: a begin opens a session, a chunk uses up counters of the open one, and the end of a
malicious session costs one more block. An endpoint which is not set up generates nothing.
-/

namespace Shachain2pc

open Triples

/-- The counters and the history of an endpoint, and whether it has the leaves of a setup. -/
structure CotBook where
  role : Role
  malicious : Bool
  ready : Bool
  session : UInt64
  curSession : UInt64
  blockCounter : UInt64
  history : CotHistory
  deriving DecidableEq, Repr

namespace CotBook

/-- A session is begun. -/
def begin (b : CotBook) : CotBook :=
  { b with
    session := b.session + 1
    curSession := b.session
    blockCounter := 0
    history := b.history.begin }

/-- The tweaks of the next blocks are evaluated. -/
def evaluate (b : CotBook) (bs : ℕ) : CotBook :=
  { b with history := b.history.evaluate (sfvoleTweaks b.curSession b.blockCounter bs) }

/-- The counters of blocks are used up. -/
def useUp (b : CotBook) (bs : ℕ) : CotBook :=
  { b with blockCounter := b.blockCounter + UInt64.ofNat bs }

/-- COTs are generated. -/
def generate (b : CotBook) (out : List Block) : CotBook :=
  { b with history := b.history.generate out }

/-- A chunk. -/
def chunk (b : CotBook) (bs : ℕ) (out : List Block) : CotBook :=
  ((b.evaluate bs).useUp bs).generate out

/-- The tweaks of an endpoint which fails are those of the book, or also those of one chunk. -/
def Failed (b : CotBook) (history : CotHistory) : Prop :=
  history.sessions = b.history.sessions ∨
    ∃ bs, b.ready = true ∧ history.sessions = (b.evaluate bs).history.sessions

end CotBook

/-- The state of the extension for one role. -/
def SoftSpoken4State.leaves (s : SoftSpoken4State) : List Block :=
  if s.role = .alice then s.leavesRecv else s.leavesSend

/-- The book of a state. -/
def SoftSpoken4State.book (s : SoftSpoken4State) (history : CotHistory) : CotBook where
  role := s.role
  malicious := s.malicious
  ready := !s.leaves.isEmpty
  session := s.session
  curSession := if s.role = .alice then s.curSendSession else s.curRecvSession
  blockCounter := if s.role = .alice then s.curSendB0 else s.curRecvB0
  history := history

/-- The book of an endpoint. -/
def OtState.book {S : Type} (s : OtState S) : CotBook := s.state.book s.history

namespace SoftSpoken4State

variable {permute : Block → Block → Block} {s t : SoftSpoken4State} {bs : ℕ} {E : Type}

/-- A fallible map over a range which succeeds began with its first call. -/
theorem head_of_mapM_range {A : Type} {f : ℕ → Except E A} {n : ℕ} {results : List A}
    (h : (List.range (n + 1)).mapM f = .ok results) : ∃ first, f 0 = .ok first := by
  rw [List.range_succ_eq_map, List.mapM_cons] at h
  obtain ⟨first, hfirst, -⟩ := Rust.bind_eq_ok h
  exact ⟨first, hfirst⟩

/-- A slice of sixteen leaves is not read from none. -/
theorem ne_nil_of_readSlice {leaves slice : List Block} {start : ℕ}
    (h : (Rust.readSlice leaves start softspokenQ : Rust.Outcome E _) = .ok slice) :
    leaves ≠ [] := by
  have hle := (Rust.readSlice_eq_ok h).1
  intro hnil
  simp [hnil, softspokenQ, softspokenK] at hle

/-- A sender prepares a chunk from leaves. -/
theorem leavesRecv_of_sendChunkPrepare {planes : List Block}
    (h : (s.sendChunkPrepare permute bs : Rust.Outcome E _) = .ok planes) : s.leavesRecv ≠ [] := by
  obtain ⟨trees, htrees, -⟩ := Rust.bind_eq_ok h
  obtain ⟨first, hfirst⟩ := head_of_mapM_range htrees
  obtain ⟨leaves, hleaves, -⟩ := Rust.bind_eq_ok hfirst
  exact ne_nil_of_readSlice hleaves

/-- A receiver prepares a chunk of the right size from leaves. -/
theorem recvChunkPrepare_eq_ok {chunk : RecvChunk}
    (h : (s.recvChunkPrepare permute bs : Rust.Outcome E _) = .ok chunk) :
    s.leavesSend ≠ [] ∧ chunk.out.length = bs * 128 := by
  obtain ⟨trees, htrees, h⟩ := Rust.bind_eq_ok h
  obtain ⟨first, hfirst⟩ := head_of_mapM_range htrees
  obtain ⟨leaves, hleaves, -⟩ := Rust.bind_eq_ok hfirst
  refine ⟨ne_nil_of_readSlice hleaves, ?_⟩
  cases h
  exact transposeSoftspokenPlanes_length ..

/-- A sender's finished chunk has the right size, and uses up its counters. -/
theorem sendChunkFinish_book {planes dBufs out : List Block} {seed : Option Block}
    (h : s.sendChunkFinish permute planes dBufs seed bs = .ok (out, t)) (hrole : s.role = .alice)
    (history : CotHistory) :
    out.length = bs * 128 ∧ t.book history = (s.book history).useUp bs := by
  unfold sendChunkFinish at h
  split at h
  · cases h
  · simp only [Except.ok.injEq, Prod.mk.injEq] at h
    obtain ⟨rfl, rfl⟩ := h
    refine ⟨transposeSoftspokenPlanes_length .., ?_⟩
    cases seed <;> simp [book, leaves, combineSendChunk, CotBook.useUp, hrole]

/-- A receiver's finished chunk uses up its counters. -/
theorem recvChunkFinish_book (hrole : s.role ≠ .alice) (seed : Option Block)
    (out uCanonical : List Block) (history : CotHistory) :
    (s.recvChunkFinish permute seed out uCanonical bs).book history =
      (s.book history).useUp bs := by
  cases seed <;> simp [recvChunkFinish, book, leaves, combineRecvChunk, CotBook.useUp, hrole]

end SoftSpoken4State

namespace OtState

variable {S : Type} {b : CotBook} {fail : OtState S → Prop}

/-- Code on the stream keeps the book. -/
theorem onStream_book {A : Type} {prog : EStateM (Rust.Failure OtError) S A} {P : CotBook → Prop}
    (hfail : ∀ s : OtState S, P s.book → fail s) :
    Triple (fun s => P s.book) (onStream prog) (fun _ s => P s.book) fail :=
  Triple.zoom (p := fun _ => True) (q := fun _ _ => True) (r := fun _ => True)
    (fun stream _ => by cases prog stream <;> trivial) (fun _ _ => trivial)
    (fun _ _ _ hs _ => hs) (fun _ _ hs _ => hfail _ hs)

variable [TranscriptIo S]

/-- Sent blocks keep the book. -/
theorem sendBlock_book {blocks : List Block} {P : CotBook → Prop}
    (hfail : ∀ s : OtState S, P s.book → fail s) :
    Triple (fun s => P s.book) (sendBlock blocks) (fun _ s => P s.book) fail :=
  onStream_book hfail

/-- Received blocks keep the book. -/
theorem recvBlock_book {count : ℕ} {P : CotBook → Prop}
    (hfail : ∀ s : OtState S, P s.book → fail s) :
    Triple (fun s => P s.book) (OtState.recvBlock count) (fun _ s => P s.book) fail :=
  Triple.bind (onStream_book hfail) fun _ => Triple.pure fun _ hs => hs

/-- A received block keeps the book. -/
theorem recvOneBlock_book {P : CotBook → Prop} (hfail : ∀ s : OtState S, P s.book → fail s) :
    Triple (fun s => P s.book) recvOneBlock (fun _ s => P s.book) fail :=
  Triple.bind (recvBlock_book hfail) fun _ =>
    Triple.ofExcept (fun _ _ hs _ => hs) hfail

end OtState

namespace SoftSpoken4

open OtState SoftSpoken4State

variable {S : Type} [TranscriptIo S] {base : OtBase S} {b : CotBook}

/-- The seed of a check keeps the book. -/
theorem transcriptSeed_book {P : CotBook → Prop} {fail : OtState S → Prop}
    (hfail : ∀ s : OtState S, P s.book → fail s) :
    Triple (fun s => P s.book) transcriptSeed (fun _ s => P s.book) fail := by
  apply Triple.get_bind
  intro s hs
  split
  · apply Triple.ofExcept_bind
    · rintro _ rfl
      exact hfail _ hs
    · intro seed _
      apply Triple.pure
      rintro _ rfl
      exact hs
  · apply Triple.pure
    rintro _ rfl
    exact hs

/-- A sender's chunk. -/
theorem sendChunkPipeline_triple (hrole : b.role = .alice) (bs : ℕ) :
    Triple (fun s : OtState S => s.book = b) (sendChunkPipeline base bs)
      (fun out s => s.book = b.chunk bs out ∧ out.length = bs * 128 ∧ b.ready = true)
      (fun s => b.Failed s.history) := by
  apply Triple.get_bind
  rintro s rfl
  apply Triple.ofExcept_bind
  · rintro _ rfl
    exact .inl rfl
  intro planes hplanes
  have hrole' : s.state.role = .alice := hrole
  have hready : s.book.ready = true := by
    have hleaves := leavesRecv_of_sendChunkPrepare hplanes
    simp [OtState.book, SoftSpoken4State.book, leaves, hrole', hleaves]
  have hfailed : ∀ t : OtState S, t.book = s.book.evaluate bs → s.book.Failed t.history := by
    intro t ht
    exact .inr ⟨bs, hready, congrArg (fun book => book.history.sessions) ht⟩
  apply Triple.update_bind (q := fun t => t.book = s.book.evaluate bs)
  · rintro _ rfl
    simp [OtState.book, SoftSpoken4State.book, CotBook.evaluate, hrole']
  apply Triple.bind (recvBlock_book (P := (· = s.book.evaluate bs)) hfailed)
  intro dBufs
  apply Triple.bind (transcriptSeed_book (P := (· = s.book.evaluate bs)) hfailed)
  intro seed
  apply Triple.bind (q :=
    fun out t => out.length = bs * 128 ∧ t.book = (s.book.evaluate bs).useUp bs)
  · apply Triple.get_bind
    intro t ht
    apply Triple.ofExcept_bind
    · rintro _ rfl
      exact hfailed _ ht
    rintro ⟨out, state⟩ hfinish
    obtain ⟨hlength, hbook⟩ := sendChunkFinish_book (Rust.mapError_eq_ok hfinish)
      ((congrArg CotBook.role ht).trans hrole) t.history
    apply Triple.update_bind (q := fun u => u.book = (s.book.evaluate bs).useUp bs)
    · rintro _ rfl
      exact hbook.trans (congrArg (CotBook.useUp · bs) ht)
    · exact Triple.pure fun _ hu => ⟨hlength, hu⟩
  · intro out
    apply Triple.update_bind (q := fun t => out.length = bs * 128 ∧ t.book = s.book.chunk bs out)
    · rintro t ⟨hlength, ht⟩
      exact ⟨hlength, congrArg (CotBook.generate · out) ht⟩
    · exact Triple.pure fun _ ht => ⟨ht.2, ht.1, hready⟩

/-- A receiver's chunk. -/
theorem recvChunkPipeline_triple (hrole : b.role ≠ .alice) (bs : ℕ) :
    Triple (fun s : OtState S => s.book = b) (recvChunkPipeline base bs)
      (fun out s => s.book = b.chunk bs out ∧ out.length = bs * 128 ∧ b.ready = true)
      (fun s => b.Failed s.history) := by
  apply Triple.get_bind
  rintro s rfl
  apply Triple.ofExcept_bind
  · rintro _ rfl
    exact .inl rfl
  intro chunk hchunk
  obtain ⟨hleaves, hlength⟩ := recvChunkPrepare_eq_ok hchunk
  have hrole' : s.state.role ≠ .alice := hrole
  have hready : s.book.ready = true := by
    simp [OtState.book, SoftSpoken4State.book, leaves, hrole', hleaves]
  have hfailed : ∀ t : OtState S, t.book = s.book.evaluate bs → s.book.Failed t.history := by
    intro t ht
    exact .inr ⟨bs, hready, congrArg (fun book => book.history.sessions) ht⟩
  apply Triple.update_bind (q := fun t => t.book = s.book.evaluate bs)
  · rintro _ rfl
    simp [OtState.book, SoftSpoken4State.book, CotBook.evaluate, hrole']
  apply Triple.bind (sendBlock_book (P := (· = s.book.evaluate bs)) hfailed)
  intro _
  apply Triple.bind (transcriptSeed_book (P := (· = s.book.evaluate bs)) hfailed)
  intro seed
  apply Triple.update_bind (q := fun t => t.book = (s.book.evaluate bs).useUp bs)
  · intro t ht
    have hrole'' : t.state.role ≠ .alice := by
      have hsame : t.state.role = s.state.role := congrArg CotBook.role ht
      rwa [hsame]
    exact (recvChunkFinish_book hrole'' seed chunk.out chunk.uCanonical t.history).trans
      (congrArg (CotBook.useUp · bs) ht)
  apply Triple.update_bind (q := fun t => t.book = s.book.chunk bs chunk.out)
  · exact fun t ht => congrArg (CotBook.generate · chunk.out) ht
  · exact Triple.pure fun _ ht => ⟨ht, hlength, hready⟩

/-- A chunk. -/
theorem nextChunk_triple (b : CotBook) (bs : ℕ) :
    Triple (fun s : OtState S => s.book = b) (nextChunk base bs)
      (fun out s => s.book = b.chunk bs out ∧ out.length = bs * 128 ∧ b.ready = true)
      (fun s => b.Failed s.history) := by
  apply Triple.get_bind
  rintro s rfl
  have hpre (t : OtState S) (ht : t = s) : t.book = s.book := congrArg OtState.book ht
  split
  · next hrole =>
    exact (sendChunkPipeline_triple (b := s.book) hrole bs).mono hpre (fun _ _ h => h) fun _ h => h
  · next hrole =>
    exact (recvChunkPipeline_triple (b := s.book) hrole bs).mono hpre (fun _ _ h => h) fun _ h => h

end SoftSpoken4

/-! ## Setting up -/

/-- A book up to whether the endpoint is set up. -/
def CotBook.SameBut (b c : CotBook) : Prop := ∃ ready, c = { b with ready := ready }

namespace SoftSpoken4

open OtState SoftSpoken4State

variable {S : Type} {b : CotBook}

/-- Code which keeps the book up to whether the endpoint is set up. -/
def SetsUp {A : Type} (b : CotBook) (prog : OtM S A) : Prop :=
  Triple (fun s => b.SameBut s.book) prog (fun _ s => b.SameBut s.book) fun s => b.SameBut s.book

/-- Another state of the extension with the same book. -/
theorem sameBut_state {s : OtState S} (h : b.SameBut s.book) {state : SoftSpoken4State}
    {ready : Bool}
    (hstate : state.book s.history = { s.state.book s.history with ready := ready }) :
    b.SameBut { s with state := state }.book := by
  obtain ⟨ready', hready⟩ := h
  refine ⟨ready, ?_⟩
  change state.book s.history = _
  rw [hstate]
  exact congrArg (fun book : CotBook => { book with ready := ready }) hready

/-- Code on the stream. -/
theorem setsUp_onStream {A : Type} (prog : EStateM (Rust.Failure OtError) S A) :
    SetsUp b (onStream prog : OtM S A) :=
  onStream_book (P := b.SameBut) fun _ hs => hs

/-- The last step of a setup. -/
theorem setsUp_markSetupDone : SetsUp b (modifyState markSetupDone : OtM S Unit) :=
  Triple.update fun _ hs => sameBut_state hs rfl

/-- Setting up evaluates nothing. -/
theorem failed_of_sameBut {s : OtState S} (h : b.SameBut s.book) : b.Failed s.history := by
  obtain ⟨ready, hready⟩ := h
  exact .inl (congrArg (fun book => book.history.sessions) hready)

/-- A session is begun by its sender. -/
theorem begin_sender (hrole : b.role = .alice) :
    Triple (fun s : OtState S => b.SameBut s.book)
      (do modifyState beginSendSession; record CotHistory.begin)
      (fun _ s => ∃ ready, s.book = CotBook.begin { b with ready := ready })
      (fun s => b.Failed s.history) := by
  rintro s ⟨ready, hs⟩
  have hrole' : s.state.role = .alice := (congrArg CotBook.role hs).trans hrole
  refine ⟨ready, ?_⟩
  rw [← hs]
  simp [OtState.book, SoftSpoken4State.book, leaves, beginSendSession, CotBook.begin, hrole']

/-- A session is begun by its receiver. -/
theorem begin_receiver (hrole : b.role ≠ .alice) :
    Triple (fun s : OtState S => b.SameBut s.book)
      (do modifyState beginRecvSession; record CotHistory.begin)
      (fun _ s => ∃ ready, s.book = CotBook.begin { b with ready := ready })
      (fun s => b.Failed s.history) := by
  rintro s ⟨ready, hs⟩
  have hrole' : s.state.role ≠ .alice := by
    have hsame : s.state.role = b.role := congrArg CotBook.role hs
    rwa [hsame]
  refine ⟨ready, ?_⟩
  rw [← hs]
  simp [OtState.book, SoftSpoken4State.book, leaves, beginRecvSession, CotBook.begin, hrole']

variable [TranscriptIo S] {base : OtBase S}

/-- The transcript. -/
theorem setsUp_enableTranscript (sendFirst : Bool) :
    SetsUp b (enableTranscript sendFirst : OtM S Unit) := by
  apply Triple.get_bind
  intro s hs
  split
  · exact (setsUp_onStream _).mono (fun t ht => ht ▸ hs) (fun _ _ ht => ht) fun _ ht => ht
  · exact Triple.pure fun t ht => ht ▸ hs

/-- The check of the trees by their sender. -/
theorem setsUp_pprfCheckSend : SetsUp b (pprfCheckSend base) := by
  apply Triple.get_bind
  intro s hs
  apply Triple.update_bind (q := fun t => b.SameBut t.book)
  · rintro _ rfl
    exact sameBut_state hs rfl
  · apply (setsUp_onStream _).bind
    intro _
    apply (setsUp_onStream _).bind
    intro _
    exact setsUp_onStream _

/-- The check of the trees by their receiver. -/
theorem setsUp_pprfCheckRecv : SetsUp b (pprfCheckRecv base) := by
  apply Triple.bind (recvBlock_book (P := b.SameBut) fun _ hs => hs)
  intro tBuf
  apply (setsUp_onStream _).bind
  intro theirDigest
  apply Triple.get_bind
  intro s hs
  have hstate : b.SameBut { s with
      state :=
          (s.state.pprfCheckRecvVerify base.permute base.sha256 tBuf theirDigest).2 }.book := by
    unfold pprfCheckRecvVerify
    split
    · exact hs
    · split
      · exact hs
      · exact sameBut_state hs rfl
  apply Triple.update_bind (q := fun t => b.SameBut t.book)
  · rintro _ rfl
    exact hstate
  · exact Triple.ofExcept (fun _ _ ht _ => ht) fun _ ht => ht

/-- The setup of the sender. -/
theorem setsUp_bootstrapSend : SetsUp b (bootstrapSend base) := by
  apply Triple.get_bind
  intro s hs
  apply Triple.update_bind (q := fun t => b.SameBut t.book)
  · rintro _ rfl
    exact sameBut_state hs rfl
  apply (setsUp_onStream _).bind
  intro received
  apply Triple.bind (q := fun _ t => b.SameBut t.book)
  · apply Triple.get_bind
    intro t ht
    apply Triple.ofExcept_bind
    · rintro _ rfl
      exact ht
    rintro ⟨_, state⟩ hreceived
    have hstate : b.SameBut { t with state := state }.book := by
      obtain ⟨state', happly, hpair⟩ := Rust.map_eq_ok (Rust.mapError_eq_ok hreceived)
      cases hpair
      unfold bootstrapSendApplyReceived at happly
      split at happly
      · cases happly
      · cases happly
        exact sameBut_state ht rfl
    apply Triple.update_bind (q := fun u => b.SameBut u.book)
    · rintro _ rfl
      exact hstate
    · exact Triple.pure fun _ hu => hu
  intro _
  apply Triple.get_bind
  intro t ht
  split
  · apply Triple.bind
      (setsUp_pprfCheckRecv.mono (fun u hu => hu ▸ ht) (fun _ _ hu => hu) fun _ hu => hu)
    intro _
    apply (setsUp_enableTranscript true).bind
    intro _
    exact setsUp_markSetupDone
  · exact setsUp_markSetupDone.mono (fun u hu => hu ▸ ht) (fun _ _ hu => hu) fun _ hu => hu

/-- The setup of the receiver. -/
theorem setsUp_bootstrapRecv : SetsUp b (bootstrapRecv base) := by
  apply Triple.get_bind
  intro s hs
  apply Triple.update_bind (q := fun t => b.SameBut t.book)
  · rintro _ rfl
    exact sameBut_state hs rfl
  apply (setsUp_onStream _).bind
  intro _
  apply Triple.get_bind
  intro t ht
  split
  · apply Triple.bind
      (setsUp_pprfCheckSend.mono (fun u hu => hu ▸ ht) (fun _ _ hu => hu) fun _ hu => hu)
    intro _
    apply (setsUp_enableTranscript false).bind
    intro _
    exact setsUp_markSetupDone
  · exact setsUp_markSetupDone.mono (fun u hu => hu ▸ ht) (fun _ _ hu => hu) fun _ hu => hu

/-! ## Sessions -/

/-- The begin of a session, after a setup if there was none. -/
theorem beginSession_triple (b : CotBook) :
    Triple (fun s : OtState S => s.book = b) (beginSession base)
      (fun _ s => ∃ ready, s.book = CotBook.begin { b with ready := ready })
      (fun s => b.Failed s.history) := by
  have hsame (s : OtState S) (hs : s.book = b) : b.SameBut s.book := ⟨b.ready, hs⟩
  apply Triple.get_bind
  intro s hs
  split
  · next hrole =>
    have hbegin := begin_sender (S := S) ((congrArg CotBook.role hs).symm.trans hrole)
    apply Triple.get_bind
    rintro _ rfl
    split
    · apply Triple.bind
      · exact setsUp_bootstrapSend.mono (fun t ht => ht ▸ hsame _ hs) (fun _ _ ht => ht)
          fun _ ht => failed_of_sameBut ht
      · exact fun _ => hbegin
    · exact hbegin.mono (fun t ht => ht ▸ hsame _ hs) (fun _ _ ht => ht) fun _ ht => ht
  · next hrole =>
    have hrole' : b.role ≠ .alice := by
      rw [← hs]
      exact hrole
    have hbegin := begin_receiver (S := S) hrole'
    apply Triple.get_bind
    rintro _ rfl
    split
    · apply Triple.bind
      · exact setsUp_bootstrapRecv.mono (fun t ht => ht ▸ hsame _ hs) (fun _ _ ht => ht)
          fun _ ht => failed_of_sameBut ht
      · exact fun _ => hbegin
    · exact hbegin.mono (fun t ht => ht ▸ hsame _ hs) (fun _ _ ht => ht) fun _ ht => ht

/-- The book after a session is closed: a malicious one generates a chunk which is not delivered. -/
def closedBook (b : CotBook) (scratch : List Block) : CotBook :=
  if b.malicious then b.chunk 1 scratch else b

/-- What the end of a session leaves when it fails. -/
def CloseFailed (b : CotBook) (history : CotHistory) : Prop :=
  b.Failed history ∨ ∃ scratch, b.ready = true ∧ (b.chunk 1 scratch).Failed history

/-- The end of a session by its sender. -/
theorem sendEnd_triple (hrole : b.role = .alice) :
    Triple (fun s : OtState S => s.book = b) (sendEnd base)
      (fun _ s => ∃ scratch, s.book = closedBook b scratch ∧ (b.malicious = true → b.ready = true))
      (fun s => CloseFailed b s.history) := by
  apply Triple.get_bind
  intro s hs
  have hmalicious : s.state.malicious = b.malicious := congrArg CotBook.malicious hs
  rw [hmalicious]
  split
  · next hcheck =>
    apply Triple.bind (q := fun scratch t => t.book = b.chunk 1 scratch ∧ b.ready = true)
    · exact (sendChunkPipeline_triple hrole 1).mono (fun t ht => ht ▸ hs)
        (fun _ _ ht => ⟨ht.1, ht.2.2⟩)
        fun _ ht => .inl ht
    intro scratch
    have hfail (t : OtState S) (ht : t.book = b.chunk 1 scratch ∧ b.ready = true) :
        CloseFailed b t.history :=
          .inr ⟨scratch, ht.2, .inl (congrArg (fun book => book.history.sessions) ht.1)⟩
    apply Triple.bind
      (recvOneBlock_book (P := fun c => c = b.chunk 1 scratch ∧ b.ready = true) hfail)
    intro x
    apply Triple.bind
      (recvOneBlock_book (P := fun c => c = b.chunk 1 scratch ∧ b.ready = true) hfail)
    intro t
    apply Triple.get_bind
    rintro u hu
    apply Triple.ofExcept
    · rintro _ _ rfl _
      exact ⟨scratch, hu.1.trans (if_pos hcheck).symm, fun _ => hu.2⟩
    · rintro _ rfl
      exact hfail _ hu
  · next hcheck =>
    apply Triple.pure
    rintro _ rfl
    exact ⟨[], hs.trans (if_neg hcheck).symm, fun h => absurd h hcheck⟩

/-- The end of a session by its receiver. -/
theorem recvEnd_triple (hrole : b.role ≠ .alice) :
    Triple (fun s : OtState S => s.book = b) (recvEnd base)
      (fun _ s => ∃ scratch, s.book = closedBook b scratch ∧ (b.malicious = true → b.ready = true))
      (fun s => CloseFailed b s.history) := by
  apply Triple.get_bind
  intro s hs
  have hmalicious : s.state.malicious = b.malicious := congrArg CotBook.malicious hs
  rw [hmalicious]
  split
  · next hcheck =>
    apply Triple.bind (q := fun scratch t => t.book = b.chunk 1 scratch ∧ b.ready = true)
    · exact (recvChunkPipeline_triple hrole 1).mono (fun t ht => ht ▸ hs)
        (fun _ _ ht => ⟨ht.1, ht.2.2⟩)
        fun _ ht => .inl ht
    intro scratch
    have hfail (t : OtState S) (ht : t.book = b.chunk 1 scratch ∧ b.ready = true) :
        CloseFailed b t.history :=
          .inr ⟨scratch, ht.2, .inl (congrArg (fun book => book.history.sessions) ht.1)⟩
    apply Triple.get_bind
    intro t ht
    apply Triple.bind (q := fun _ u => u.book = b.chunk 1 scratch ∧ b.ready = true)
    · exact (sendBlock_book (P := fun c => c = b.chunk 1 scratch ∧ b.ready = true) hfail).mono
        (fun u hu => hu ▸ ht) (fun _ _ hu => hu) fun _ hu => hu
    intro _
    apply Triple.bind (sendBlock_book (P := fun c => c = b.chunk 1 scratch ∧ b.ready = true) hfail)
    intro _
    apply (onStream_book (P := fun c => c = b.chunk 1 scratch ∧ b.ready = true) hfail).mono
    · exact fun _ hu => hu
    · exact fun _ u hu => ⟨scratch, hu.1.trans (if_pos hcheck).symm, fun _ => hu.2⟩
    · exact fun _ hu => hu
  · next hcheck =>
    have hfail (t : OtState S) (ht : t.book = b) : CloseFailed b t.history :=
      .inl (.inl (congrArg (fun book => book.history.sessions) ht))
    apply (onStream_book (P := (· = b)) hfail).mono
    · exact fun t ht => ht ▸ hs
    · exact fun _ t ht => ⟨[], ht.trans (if_neg hcheck).symm, fun h => absurd h hcheck⟩
    · exact fun _ ht => ht

/-- The end of a session. -/
theorem endSession_triple (b : CotBook) :
    Triple (fun s : OtState S => s.book = b) (endSession base)
      (fun _ s => ∃ scratch, s.book = closedBook b scratch ∧ (b.malicious = true → b.ready = true))
      (fun s => CloseFailed b s.history) := by
  apply Triple.get_bind
  rintro s rfl
  have hpre (t : OtState S) (ht : t = s) : t.book = s.book := congrArg OtState.book ht
  split
  · next hrole =>
    exact (sendEnd_triple (b := s.book) hrole).mono hpre (fun _ _ h => h) fun _ h => h
  · next hrole =>
    exact (recvEnd_triple (b := s.book) hrole).mono hpre (fun _ _ h => h) fun _ h => h

end SoftSpoken4

end Shachain2pc
