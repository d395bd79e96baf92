import Shachain2pc.Compat.CotTweaks
import Shachain2pc.Lib.ChunkedStream

/-!
# The stream of COTs

A request takes the leftover first, then whole chunks, and keeps what it does not need of the
last one. Such requests are draws from a buffered source of chunks, so what they give together
depends only on how many COTs they ask for.
-/

namespace Shachain2pc

open Triples ChunkedStream

/-! ## The leftover -/

namespace Leftover

/-- The COTs which were generated and not delivered. -/
def remaining (l : Leftover) : List Block := (l.blocks.drop l.pos).take l.count

/-- The remaining COTs lie in the buffer. -/
def Fits (l : Leftover) : Prop := l.pos + l.count ≤ l.blocks.length

variable {l : Leftover}

/-- As many COTs remain as are counted. -/
theorem Fits.remaining_length (h : l.Fits) : l.remaining.length = l.count := by
  unfold Fits at h
  rw [remaining, List.length_take, List.length_drop]
  omega

/-- Nothing remains when nothing is counted. -/
theorem remaining_of_count (h : l.count = 0) : l.remaining = [] := by
  rw [remaining, h, List.take_zero]

/-- COTs are taken from the front. -/
theorem Fits.advance (h : l.Fits) {n : ℕ} (hn : n ≤ l.count) :
    ({ l with pos := l.pos + n, count := l.count - n } : Leftover).Fits ∧
      ({ l with pos := l.pos + n, count := l.count - n } : Leftover).remaining =
        l.remaining.drop n := by
  constructor
  · unfold Fits at h ⊢
    simp only
    omega
  · simp only [remaining, List.drop_take, List.drop_drop]

end Leftover

namespace SoftSpoken4

variable {S : Type}

/-- Draining takes from the front of what remains. -/
theorem drainLeftover_eq (e : CotEndpoint S) (h : e.leftover.Fits) (n : ℕ) :
    ∃ leftover : Leftover, drainLeftover n e = .ok (e.leftover.remaining.take n) { e with
      leftover := leftover } ∧
      leftover.Fits ∧ leftover.remaining = e.leftover.remaining.drop n := by
  by_cases hempty : e.leftover.count = 0 ∨ n = 0
  · refine ⟨e.leftover, ?_, h, ?_⟩
    · have htake : e.leftover.remaining.take n = [] := by
        rcases hempty with hcount | rfl
        · rw [Leftover.remaining_of_count hcount, List.take_nil]
        · exact List.take_zero
      rw [htake]
      change (if e.leftover.count = 0 ∨ n = 0 then _ else _ : CotM S (List Block)) e = _
      rw [if_pos hempty]
      rfl
    · rcases hempty with hcount | rfl
      · rw [Leftover.remaining_of_count hcount, List.drop_nil]
      · rfl
  · obtain ⟨hfits, hremaining⟩ := h.advance (Nat.min_le_right n e.leftover.count)
    refine ⟨_, ?_, hfits, ?_⟩
    · have hread : (Rust.readSlice e.leftover.blocks e.leftover.pos (min n e.leftover.count) :
          Except (Rust.Failure OtError) _) = .ok (e.leftover.remaining.take n) := by
        unfold Leftover.Fits at h
        rw [Rust.readSlice, if_pos (by omega), Leftover.remaining, List.take_take]
      change (if e.leftover.count = 0 ∨ n = 0 then _ else _ : CotM S (List Block)) e = _
      rw [if_neg hempty, hread]
      rfl
    · rw [hremaining]
      rcases le_total n e.leftover.count with hle | hle
      · rw [Nat.min_eq_left hle]
      · rw [Nat.min_eq_right hle, List.drop_of_length_le h.remaining_length.le,
          List.drop_of_length_le (h.remaining_length.le.trans hle)]

/-- Code which does not use the leftover and returns. -/
theorem onOt_ok {A : Type} {prog : OtM S A} {e : CotEndpoint S} {a : A} {ot : OtState S}
    (h : prog e.ot = .ok a ot) : onOt prog e = .ok a { e with ot := ot } := by
  simp only [onOt, zoom, h]

/-- Code which does not use the leftover and fails. -/
theorem onOt_error {A : Type} {prog : OtM S A} {e : CotEndpoint S} {ot : OtState S}
    {error : Rust.Failure OtError} (h : prog e.ot = .error error ot) :
    onOt prog e = .error error { e with ot := ot } := by
  simp only [onOt, zoom, h, id_eq]

variable [TranscriptIo S] {base : OtBase S}

/-! ## Requests -/

/-- Every chunk has the size which the requests count on. -/
theorem nextChunk_chunked : Chunked (nextChunk base softspokenChunkBlocks) softspokenChunkOts :=
  fun s _ _ hrun => ((nextChunk_triple s.book softspokenChunkBlocks).of_ok rfl hrun).2.1

/-- The size of a chunk. -/
theorem softspokenChunkOts_eq : softspokenChunkOts = 8192 := rfl

/-- The loop over whole chunks fetches as many as fit. -/
theorem nextWholeChunks_eq (base : OtBase S) (length got : ℕ) :
    nextWholeChunks base length got =
      fetch (nextChunk base softspokenChunkBlocks) ((length - got) / softspokenChunkOts) := by
  fun_induction nextWholeChunks base length got with
  | case1 got hle ih =>
    have hcount : (length - got) / softspokenChunkOts =
        (length - (got + softspokenChunkOts)) / softspokenChunkOts + 1 := by
      rw [softspokenChunkOts_eq] at *
      omega
    rw [hcount, fetch, ih]
  | case2 got hlt =>
    have hcount : (length - got) / softspokenChunkOts = 0 := by
      rw [softspokenChunkOts_eq] at *
      omega
    rw [hcount]
    rfl

/-- An endpoint and a buffered source of chunks. -/
structure Draws (e : CotEndpoint S) (b : Buffered (OtState S) Block) : Prop where
  fits : e.leftover.Fits
  source : e.ot = b.source
  buffer : e.leftover.remaining = b.buffer

/-- A request draws from the buffered source. -/
theorem nextN_related (base : OtBase S) (n : ℕ) : Related Draws (· = ·) (nextN base n)
    (draw (nextChunk base softspokenChunkBlocks) softspokenChunkOts n) := by
  rintro ⟨ot, leftover⟩ ⟨source, buffer⟩ ⟨hfits, rfl, hbuffer⟩
  obtain ⟨leftover', hdrain, hfits', hremaining⟩ := drainLeftover_eq ⟨ot, leftover⟩ hfits n
  simp only at hbuffer hdrain hremaining
  rw [hbuffer] at hdrain hremaining
  have hgot : (buffer.take n).length = min n buffer.length := List.length_take
  have hwhole := nextWholeChunks_eq base n (buffer.take n).length
  have hlack : n - (buffer.take n).length = n - buffer.length := by omega
  rw [hlack] at hwhole
  have hceil : (n - buffer.length) ⌈/⌉ softspokenChunkOts =
      (n - buffer.length) / softspokenChunkOts +
        if (n - buffer.length) % softspokenChunkOts = 0 then 0 else 1 := by
    rw [Nat.ceilDiv_eq_add_pred_div, softspokenChunkOts_eq]
    split <;> omega
  rw [nextN, bind_ok hdrain]
  cases hfetch : fetch (nextChunk base softspokenChunkBlocks)
      ((n - buffer.length) / softspokenChunkOts) ot with
  | error error mid =>
    have hleft : leftover'.remaining = [] := by
      rw [hremaining]
      apply List.drop_of_length_le
      by_contra hlt
      have hzero : (n - buffer.length) / softspokenChunkOts = 0 := by
        rw [softspokenChunkOts_eq]
        omega
      rw [hzero] at hfetch
      cases hfetch
    have hdraw :=
      fetch_add_error (if (n - buffer.length) % softspokenChunkOts = 0 then 0 else 1) hfetch
    rw [← hceil] at hdraw
    have honOt := onOt_error (e := ⟨ot, leftover'⟩) ((congrFun hwhole ot).trans hfetch)
    rw [bind_error honOt]
    simp only [draw, hdraw]
    exact .error ⟨hfits', rfl, hleft⟩
  | ok whole mid =>
    have hlength := fetch_length nextChunk_chunked hfetch
    have honOt := onOt_ok (e := ⟨ot, leftover'⟩) ((congrFun hwhole ot).trans hfetch)
    rw [bind_ok honOt]
    simp only [hgot]
    by_cases hexact : (n - buffer.length) % softspokenChunkOts = 0
    · rw [if_pos hexact, Nat.add_zero] at hceil
      have hsum : whole.length = n - buffer.length := by
        rw [hlength, Nat.div_mul_cancel (Nat.dvd_of_mod_eq_zero hexact)]
      rw [if_neg (by omega)]
      simp only [draw, hceil, hfetch]
      refine .ok ?_ ⟨hfits', rfl, ?_⟩
      · rw [List.take_append, ← hsum, List.take_length]
      · rw [hremaining, List.drop_append, ← hsum, List.drop_length, List.append_nil]
    · rw [if_neg hexact] at hceil
      have hsum : whole.length + (n - buffer.length) % softspokenChunkOts = n - buffer.length := by
        rw [hlength, Nat.mul_comm, Nat.div_add_mod]
      rw [if_pos (by omega)]
      cases hchunk : nextChunk base softspokenChunkBlocks mid with
      | error error last =>
        have honOt' := onOt_error (e := ⟨mid, leftover'⟩) hchunk
        rw [bind_error honOt']
        simp only [draw, hceil, fetch_succ_error hfetch hchunk]
        have hleft : leftover'.remaining = [] := by
          rw [hremaining]
          exact List.drop_of_length_le (by omega)
        exact .error ⟨hfits', rfl, hleft⟩
      | ok chunk last =>
        have honOt' := onOt_ok (e := ⟨mid, leftover'⟩) hchunk
        have hsize := nextChunk_chunked _ _ _ hchunk
        rw [bind_ok honOt']
        simp only [draw, hceil, fetch_succ_ok hfetch hchunk]
        have hlonger : (buffer ++ whole).length ≤ n := by
          rw [List.length_append]
          omega
        have hrest : n - (min n buffer.length + whole.length) = n - (buffer ++ whole).length := by
          rw [List.length_append]
          omega
        have hlast : n - (buffer ++ whole).length ≤ softspokenChunkOts := by
          have := Nat.mod_lt (n - buffer.length) (show 0 < softspokenChunkOts by decide)
          rw [List.length_append]
          omega
        have hbuffered : buffer.length ≤ n := by omega
        rw [hrest, ← List.append_assoc, List.take_append, List.drop_append,
          List.take_of_length_le hlonger, List.drop_of_length_le hlonger, List.nil_append,
          List.take_of_length_le hbuffered]
        generalize n - (buffer ++ whole).length = taken at hlast
        have htake : (chunk.drop taken).take (softspokenChunkOts - taken) = chunk.drop taken :=
          List.take_of_length_le (by rw [List.length_drop, hsize])
        exact .ok rfl ⟨(Nat.add_sub_of_le hlast).le.trans hsize.ge, rfl, htake⟩

/-- Requests one after the other are draws one after the other. -/
theorem nextNs_related (base : OtBase S) (lengths : List ℕ) :
    Related Draws (· = ·) (performAll base (lengths.map .nextN))
      (drawAll (nextChunk base softspokenChunkBlocks) softspokenChunkOts lengths) := by
  induction lengths with
  | nil => exact .pure rfl
  | cons n rest ih =>
    apply (nextN_related base n).bind
    rintro first _ rfl
    apply ih.bind
    rintro later _ rfl
    exact .pure rfl

/-- Endpoints which go on alike. -/
def SameStream (e e' : CotEndpoint S) : Prop :=
  e.ot = e'.ot ∧ e.leftover.remaining = e'.leftover.remaining

/-- Requests for equally many COTs give the same COTs, or fail alike. -/
theorem nextNs_total {e : CotEndpoint S} (h : e.leftover.Fits) {lengths lengths' : List ℕ}
    (htotal : lengths.foldr (· + ·) 0 = lengths'.foldr (· + ·) 0) :
    ResultRel SameStream (· = ·) (performAll base (lengths.map .nextN) e)
      (performAll base (lengths'.map .nextN) e) := by
  have hsize : 0 < softspokenChunkOts := by decide
  have hstart : Draws e ⟨e.ot, e.leftover.remaining⟩ := ⟨h, rfl, rfl⟩
  have hfirst := nextNs_related base lengths e _ hstart
  have hsecond := nextNs_related base lengths' e _ hstart
  rw [drawAll_eq hsize nextChunk_chunked] at hfirst hsecond
  rw [← htotal] at hsecond
  apply (hfirst.join hsecond).mono
  rintro s t ⟨b, hs, ht⟩
  exact ⟨hs.source.trans ht.source.symm, hs.buffer.trans ht.buffer.symm⟩

/-- What a request which returns does to the source and the leftover. -/
theorem nextN_ok {n : ℕ} {e e' : CotEndpoint S} {out : List Block} (h : e.leftover.Fits)
    (hrun : nextN base n e = .ok out e') :
    ∃ new, fetch (nextChunk base softspokenChunkBlocks)
      ((n - e.leftover.count) ⌈/⌉ softspokenChunkOts)
        e.ot = .ok new e'.ot ∧ e'.leftover.Fits ∧
      out ++ e'.leftover.remaining = e.leftover.remaining ++ new ∧ out.length = n := by
  have hrelated := nextN_related base n e ⟨e.ot, e.leftover.remaining⟩ ⟨h, rfl, rfl⟩
  rw [hrun] at hrelated
  generalize hdraw : draw (nextChunk base softspokenChunkBlocks) softspokenChunkOts n
    ⟨e.ot, e.leftover.remaining⟩ = result at hrelated
  cases hrelated with
  | ok hvalue hdraws =>
    obtain ⟨new, hfetch, hsplit⟩ := draw_eq_ok hdraw
    have hlength := draw_length (by decide) nextChunk_chunked hdraw
    rw [h.remaining_length, ← hdraws.source] at hfetch
    rw [← hdraws.buffer, ← hvalue] at hsplit
    exact ⟨new, hfetch, hdraws.fits, hsplit, hvalue ▸ hlength⟩

/-- Where a request fails, and that no leftover is lost track of. -/
theorem nextN_error {n : ℕ} {e e' : CotEndpoint S} {error : Rust.Failure OtError}
    (h : e.leftover.Fits) (hrun : nextN base n e = .error error e') :
    fetch (nextChunk base softspokenChunkBlocks) ((n - e.leftover.count) ⌈/⌉ softspokenChunkOts)
        e.ot = .error error e'.ot ∧ e'.leftover.Fits := by
  have hrelated := nextN_related base n e ⟨e.ot, e.leftover.remaining⟩ ⟨h, rfl, rfl⟩
  rw [hrun] at hrelated
  generalize hdraw : draw (nextChunk base softspokenChunkBlocks) softspokenChunkOts n
    ⟨e.ot, e.leftover.remaining⟩ = result at hrelated
  cases hrelated with
  | error hdraws =>
    unfold draw at hdraw
    rw [h.remaining_length] at hdraw
    cases hfetch : fetch (nextChunk base softspokenChunkBlocks)
        ((n - e.leftover.count) ⌈/⌉ softspokenChunkOts) e.ot with
    | ok new last => simp [hfetch] at hdraw
    | error error' last =>
      simp only [hfetch] at hdraw
      cases hdraw
      exact ⟨congrArg _ hdraws.source.symm, hdraws.fits⟩

end SoftSpoken4

/-! ## Calls -/

/-- What does not depend on the blocks: whether the endpoint is malicious, its counters, and how
many COTs are left over. -/
structure CotLedger where
  malicious : Bool
  session : UInt64
  curSession : UInt64
  blockCounter : UInt64
  leftoverCount : ℕ
  deriving DecidableEq, Repr

/-- The ledger of an endpoint. -/
def CotEndpoint.ledger {S : Type} (e : CotEndpoint S) : CotLedger :=
  ⟨e.ot.book.malicious, e.ot.book.session, e.ot.book.curSession, e.ot.book.blockCounter,
    e.leftover.count⟩

namespace CotLedger

/-- After a begin. -/
def begin (l : CotLedger) : CotLedger :=
  { l with
    session := l.session + 1, curSession := l.session, blockCounter := 0, leftoverCount := 0 }

/-- After a request. -/
def nextN (n : ℕ) (l : CotLedger) : CotLedger :=
  let chunks := (n - l.leftoverCount) ⌈/⌉ softspokenChunkOts
  { l with
    blockCounter := l.blockCounter + UInt64.ofNat (softspokenChunkBlocks * chunks)
    leftoverCount := l.leftoverCount + chunks * softspokenChunkOts - n }

/-- After an end. -/
def finish (l : CotLedger) : CotLedger :=
  { l with blockCounter := if l.malicious then l.blockCounter + 1 else l.blockCounter }

/-- After a drain. -/
def drain (n : ℕ) (l : CotLedger) : CotLedger := { l with leftoverCount := l.leftoverCount - n }

/-- After a call. -/
def after (l : CotLedger) : CotCall → CotLedger
  | .begin => l.begin
  | .nextN length => l.nextN length
  | .run length =>
    if length ≤ l.leftoverCount then l.drain length
    else ((l.drain length).begin.nextN (length - l.leftoverCount)).finish
  | .finish => l.finish
  | .trimIdleAllocations => { l with leftoverCount := 0 }

end CotLedger

namespace SoftSpoken4

variable {S : Type}

/-- What calls which return did: they delivered in order, and each COT at most once, what was left
over and what they generated. -/
structure Performed (e : CotEndpoint S) (out : List Block) (ledger : CotLedger)
    (e' : CotEndpoint S) :
    Prop where
  fits : e'.leftover.Fits
  ledger : e'.ledger = ledger
  delivers : ∃ new, e.ot.book.Run new e'.ot.book ∧
    (out ++ e'.leftover.remaining).Sublist (e.leftover.remaining ++ new)

/-- What calls leave when one of them fails. -/
structure Stopped (e e' : CotEndpoint S) : Prop where
  fits : e'.leftover.Fits
  fails : e.ot.book.FailsFrom e'.ot.history

/-- Code which delivers COTs and changes the ledger, after other calls. -/
def Performs {A : Type} (prog : CotM S A) (out : A → List Block) (after : CotLedger → CotLedger) :
    Prop :=
  ∀ e acc l,
    Triple (Performed e acc l) prog (fun a => Performed e (acc ++ out a) (after l)) (Stopped e)

/-- Nothing is done yet. -/
theorem Performed.refl {e : CotEndpoint S} (h : e.leftover.Fits) : Performed e [] e.ledger e :=
  ⟨h, rfl, [], .refl _, by simp⟩

/-- Calls after calls. -/
theorem Performed.trans {e e' e'' : CotEndpoint S} {out out' : List Block} {l l' : CotLedger}
    (h : Performed e out l e') (hlater : Performed e' out' l' e'') :
    Performed e (out ++ out') l' e'' := by
  obtain ⟨new, hrun, hsub⟩ := h.delivers
  obtain ⟨new', hrun', hsub'⟩ := hlater.delivers
  refine ⟨hlater.fits, hlater.ledger, new ++ new', hrun.trans hrun', ?_⟩
  calc out ++ out' ++ e''.leftover.remaining
      = out ++ (out' ++ e''.leftover.remaining) := List.append_assoc ..
    _ |>.Sublist (out ++ (e'.leftover.remaining ++ new')) := hsub'.append_left out
    _ = (out ++ e'.leftover.remaining) ++ new' := (List.append_assoc ..).symm
    _ |>.Sublist (e.leftover.remaining ++ new ++ new') := hsub.append_right new'
    _ = _ := List.append_assoc ..

/-- Where later calls fail, all calls fail. -/
theorem Performed.stopped {e e' e'' : CotEndpoint S} {out : List Block} {l : CotLedger}
    (h : Performed e out l e') (hlater : Stopped e' e'') : Stopped e e'' := by
  obtain ⟨new, hrun, -⟩ := h.delivers
  obtain ⟨new', c, hrun', hfailed⟩ := hlater.fails
  exact ⟨hlater.fits, new ++ new', c, hrun.trans hrun', hfailed⟩

/-- What code does from any endpoint it does after other calls. -/
theorem performs_of {A : Type} {prog : CotM S A} {out : A → List Block}
    {after : CotLedger → CotLedger} (h : ∀ e : CotEndpoint S, e.leftover.Fits →
      Triple (fun x => x = e) prog (fun a => Performed e (out a) (after e.ledger)) (Stopped e)) :
    Performs prog out after := by
  intro e acc l x hx
  have hresult := h x hx.fits x rfl
  cases hrun : prog x with
  | ok a y =>
    rw [hrun] at hresult
    rw [← hx.ledger]
    exact hx.trans hresult
  | error error y =>
    rw [hrun] at hresult
    exact hx.stopped hresult

/-- A part of the leftover is delivered. -/
theorem drainLeftover_performs (n : ℕ) (e : CotEndpoint S) (acc : List Block) (l : CotLedger) :
    Triple (Performed e acc l) (drainLeftover n)
      (fun drained x => Performed e (acc ++ drained) (l.drain n) x ∧
        drained.length = min n l.leftoverCount) (Stopped e) := by
  intro x hx
  obtain ⟨leftover, hdrain, hfits, hremaining⟩ := drainLeftover_eq x hx.fits n
  have hcount : x.leftover.count = l.leftoverCount := congrArg CotLedger.leftoverCount hx.ledger
  have hlength := hx.fits.remaining_length
  rw [hdrain]
  refine ⟨hx.trans ⟨hfits, ?_, [], .refl _, ?_⟩, ?_⟩
  · rw [← hx.ledger, CotLedger.drain, CotEndpoint.ledger, CotEndpoint.ledger, CotLedger.mk.injEq]
    refine ⟨rfl, rfl, rfl, rfl, ?_⟩
    rw [← hfits.remaining_length, hremaining, List.length_drop, hlength]
  · rw [hremaining, List.take_append_drop, List.append_nil]
  · rw [List.length_take, hlength, hcount]

/-- The leftover is given up. -/
theorem resetLeftover_performs :
    Performs (resetLeftover (S := S)) (fun _ => []) fun l => { l with leftoverCount := 0 } := by
  apply performs_of
  rintro e h _ rfl
  refine ⟨?_, rfl, [], .refl _, ?_⟩
  · exact Nat.zero_le _
  · simp [Leftover.remaining]

/-- The leftover is freed. -/
theorem trimIdleAllocations_performs :
    Performs (trimIdleAllocations (S := S)) (fun _ => []) fun l =>
      { l with leftoverCount := 0 } := by
  apply performs_of
  rintro e h _ rfl
  refine ⟨?_, rfl, [], .refl _, ?_⟩
  · exact Nat.zero_le _
  · simp [Leftover.remaining]

/-- Code which does not use the leftover. -/
theorem onOt_performs {prog : OtM S Unit} {after : CotLedger → CotLedger}
    (h : ∀ e : CotEndpoint S, Triple (fun s => s = e.ot) prog
      (fun _ s => (∃ new, e.ot.book.Run new s.book) ∧ ({ e with ot := s } : CotEndpoint S).ledger =
        after e.ledger) fun s => e.ot.book.FailsFrom s.history) :
    Performs (onOt prog) (fun _ => []) after := by
  apply performs_of
  intro e hfits x hx
  subst hx
  have hresult := h x x.ot rfl
  cases hrun : prog x.ot with
  | ok a s =>
    rw [hrun] at hresult
    rw [onOt_ok hrun]
    obtain ⟨⟨new, hsteps⟩, hledger⟩ := hresult
    exact ⟨hfits, hledger, new, hsteps, List.sublist_append_left _ _⟩
  | error error s =>
    rw [hrun] at hresult
    rw [onOt_error hrun]
    exact ⟨hfits, hresult⟩

/-- One call after another, the first of which delivers nothing. -/
theorem Performs.silent_bind {A : Type} {first : CotM S Unit} {later : CotM S A}
    {out : A → List Block} {after after' : CotLedger → CotLedger}
    (h : Performs first (fun _ => []) after) (h' : Performs later out after') :
    Performs (do first; later) out fun l => after' (after l) := by
  intro e acc l
  apply (h e acc l).bind
  intro _
  rw [List.append_nil]
  exact h' e acc (after l)

/-- A new endpoint has evaluated nothing. -/
theorem new_numbered (role : Role) (malicious : Bool) (delta choiceSeed : Block) (stream : S) :
    (new role malicious delta choiceSeed stream).ot.book.Numbered := by
  refine ⟨trivial, rfl, fun _ => ?_, fun _ _ hsessions => by cases hsessions⟩
  cases role <;> rfl

/-- The ledger of a new endpoint. -/
theorem new_ledger (role : Role) (malicious : Bool) (delta choiceSeed : Block) (stream : S) :
    (new role malicious delta choiceSeed stream).ledger = ⟨malicious, 0, 0, 0, 0⟩ := by
  cases role <;> rfl

variable [TranscriptIo S] {base : OtBase S}

/-- Chunks which are fetched. -/
theorem fetch_triple (b : CotBook) (k : ℕ) :
    Triple (fun s : OtState S => s.book = b) (fetch (nextChunk base softspokenChunkBlocks) k)
      (fun new s => b.Run new s.book ∧ s.book.malicious = b.malicious ∧ s.book.session = b.session ∧
        s.book.curSession = b.curSession ∧ s.book.blockCounter = b.blockCounter + UInt64.ofNat
          (softspokenChunkBlocks * k))
      (fun s => b.FailsFrom s.history) := by
  induction k generalizing b with
  | zero =>
    apply Triple.pure
    rintro s rfl
    exact ⟨.refl _, rfl, rfl, rfl, (UInt64.add_zero _).symm⟩
  | succ k ih =>
    rw [fetch]
    apply Triple.bind
    · exact (nextChunk_triple b softspokenChunkBlocks).mono (fun _ hs => hs) (fun _ _ hs => hs)
        fun s hs => ⟨[], b, .refl b, hs⟩
    intro first s hs
    have hstep : b.Run first (b.chunk softspokenChunkBlocks first) :=
      (CotBook.Step.chunk softspokenChunkBlocks first hs.2.2).run
    have htail : Triple (fun t : OtState S => t.book = b.chunk softspokenChunkBlocks first)
        (do
          let rest ← fetch (nextChunk base softspokenChunkBlocks) k
          return first ++ rest)
        (fun new t => b.Run new t.book ∧ t.book.malicious = b.malicious ∧
          t.book.session = b.session ∧
          t.book.curSession = b.curSession ∧ t.book.blockCounter = b.blockCounter +
            UInt64.ofNat (softspokenChunkBlocks * (k + 1)))
        (fun t => b.FailsFrom t.history) := by
      apply Triple.bind
      · apply (ih (b.chunk softspokenChunkBlocks first)).mono (fun _ ht => ht) (fun _ _ ht => ht)
        rintro t ⟨out, c, hrun, hfailed⟩
        exact ⟨first ++ out, c, hstep.trans hrun, hfailed⟩
      intro rest
      apply Triple.pure
      rintro t ⟨hrun, hmalicious, hsession, hcurrent, hcounter⟩
      refine ⟨hstep.trans hrun, hmalicious, hsession, hcurrent, ?_⟩
      rw [hcounter, Nat.mul_succ, Nat.add_comm, UInt64.ofNat_add, ← UInt64.add_assoc]
      rfl
    exact htail s hs.1

/-- A request. -/
theorem nextN_performs (n : ℕ) : Performs (nextN base n) (fun out => out) (CotLedger.nextN n) := by
  apply performs_of
  intro e hfits x hx
  subst hx
  cases hrun : nextN base n x with
  | ok out y =>
    obtain ⟨new, hfetch, hfits', hsplit, hlength⟩ := nextN_ok hfits hrun
    obtain ⟨hsteps, hmalicious, hsession, hcurrent, hcounter⟩ :=
      (fetch_triple x.ot.book _).of_ok rfl hfetch
    refine ⟨hfits', ?_, new, hsteps, ?_⟩
    · have hcount : y.leftover.count = x.leftover.count +
          (n - x.leftover.count) ⌈/⌉ softspokenChunkOts * softspokenChunkOts - n := by
        have hlengths := congrArg List.length hsplit
        rw [List.length_append, List.length_append, hlength, hfits'.remaining_length,
          hfits.remaining_length, fetch_length nextChunk_chunked hfetch] at hlengths
        omega
      rw [CotEndpoint.ledger, hmalicious, hsession, hcurrent, hcounter, hcount]
      rfl
    · rw [hsplit]
  | error error y =>
    obtain ⟨hfetch, hfits'⟩ := nextN_error hfits hrun
    exact ⟨hfits', (fetch_triple x.ot.book _).of_error rfl hfetch⟩

/-- The begin of a session, without the leftover. -/
theorem beginSession_performs : Performs (onOt (beginSession base)) (fun _ => [])
    fun l => { l with session := l.session + 1, curSession := l.session, blockCounter := 0 } := by
  apply onOt_performs
  intro e
  apply (beginSession_triple e.ot.book).mono
  · exact fun s hs => congrArg OtState.book hs
  · rintro _ s ⟨ready, hs⟩
    refine ⟨⟨[], ?_⟩, ?_⟩
    · rw [hs]
      exact (CotBook.Step.begin e.ot.book ready).run
    · rw [CotEndpoint.ledger, hs]
      rfl
  · exact fun s hs => ⟨[], _, .refl _, hs⟩

/-- The end of a session. -/
theorem endSession_performs :
    Performs (onOt (endSession base)) (fun _ => []) CotLedger.finish := by
  apply onOt_performs
  intro e
  apply (endSession_triple e.ot.book).mono
  · exact fun s hs => congrArg OtState.book hs
  · rintro _ s ⟨scratch, hs, hready⟩
    by_cases hmalicious : e.ot.book.malicious = true
    · rw [closedBook, if_pos hmalicious] at hs
      refine ⟨⟨scratch, ?_⟩, ?_⟩
      · rw [hs]
        exact (CotBook.Step.chunk 1 scratch (hready hmalicious)).run
      · have hsame : (e.ot.book.chunk 1 scratch).malicious = true := hmalicious
        simp only [CotEndpoint.ledger, CotLedger.finish, hs, hmalicious, hsame, if_true]
        rfl
    · rw [closedBook, if_neg hmalicious] at hs
      refine ⟨⟨[], ?_⟩, ?_⟩
      · rw [hs]
        exact .refl _
      · have hsame : ¬e.ledger.malicious = true := hmalicious
        rw [CotEndpoint.ledger, hs, CotLedger.finish, if_neg hsame]
        rfl
  · rintro s (hfailed | ⟨scratch, hready, hfailed⟩)
    · exact ⟨[], _, .refl _, hfailed⟩
    · exact ⟨scratch, _, (CotBook.Step.chunk 1 scratch hready).run, hfailed⟩

/-- `begin`. -/
theorem begin_performs : Performs (begin base) (fun _ => []) CotLedger.begin :=
  resetLeftover_performs.silent_bind beginSession_performs

/-- `run`. -/
theorem run_performs (n : ℕ) :
    Performs (run base n) (fun out => out) fun l => l.after (.run n) := by
  intro e acc l
  apply (drainLeftover_performs n e acc l).bind
  intro drained
  apply Triple.assume
  intro hlength
  simp only [CotLedger.after]
  by_cases henough : n ≤ l.leftoverCount
  · rw [if_pos (hlength.trans (Nat.min_eq_left henough)), if_pos henough]
    exact Triple.pure fun _ hx => hx
  · have hmin : drained.length = l.leftoverCount :=
      hlength.trans (Nat.min_eq_right (Nat.le_of_not_le henough))
    rw [if_neg (by omega), if_neg henough, hmin]
    apply (begin_performs e (acc ++ drained) _).bind
    intro _
    apply (nextN_performs _ e _ _).bind
    intro rest
    apply (endSession_performs e _ _).bind
    intro _
    apply Triple.pure
    intro y hy
    rwa [List.append_nil, List.append_nil, List.append_assoc] at hy

/-- A call. -/
theorem perform_performs (call : CotCall) :
    Performs (perform base call) (fun out => out) fun l => l.after call := by
  cases call with
  | begin =>
    intro e acc l
    exact (begin_performs e acc l).bind fun _ => Triple.pure fun _ hx => hx
  | nextN n => exact nextN_performs n
  | run n => exact run_performs n
  | finish =>
    intro e acc l
    exact (endSession_performs e acc l).bind fun _ => Triple.pure fun _ hx => hx
  | trimIdleAllocations =>
    intro e acc l
    exact (trimIdleAllocations_performs e acc l).bind fun _ => Triple.pure fun _ hx => hx

/-- Calls one after the other. -/
theorem performAll_performs (calls : List CotCall) :
    Performs (performAll base calls) (fun out => out) fun l => calls.foldl CotLedger.after l := by
  induction calls with
  | nil =>
    intro e acc l
    apply Triple.pure
    intro x hx
    rwa [List.append_nil]
  | cons call rest ih =>
    intro e acc l
    apply (perform_performs call e acc l).bind
    intro first
    apply (ih e _ _).bind
    intro later
    apply Triple.pure
    intro x hx
    rwa [List.append_assoc] at hx

/-! ## Runs -/

/-- Calls on a new endpoint. -/
theorem performAll_new (base : OtBase S) (role : Role) (malicious : Bool) (delta choiceSeed : Block)
    (stream : S) (calls : List CotCall) :
    Triple (fun x => x = new role malicious delta choiceSeed stream) (performAll base calls)
      (fun out => Performed (new role malicious delta choiceSeed stream) out
        (calls.foldl CotLedger.after ⟨malicious, 0, 0, 0, 0⟩))
      (Stopped (new role malicious delta choiceSeed stream)) := by
  have hfits : (new role malicious delta choiceSeed stream).leftover.Fits := le_refl 0
  apply (performAll_performs calls _ [] _).mono
  · rintro x rfl
    exact .refl hfits
  · intro out x hx
    rwa [new_ledger, List.nil_append] at hx
  · exact fun _ hx => hx

/-- COTs which are delivered in the order of the stream, each at its position. -/
theorem exists_positions {out generated : List Block} (h : out.Sublist generated) :
    ∃ cots : List (Block × ℕ), cots.map Prod.fst = out ∧ cots.Sublist generated.zipIdx := by
  have hpositions : out.Sublist (generated.zipIdx.map Prod.fst) := by
    rwa [List.zipIdx_map_fst]
  obtain ⟨cots, hsub, hout⟩ := List.sublist_map_iff.mp hpositions
  exact ⟨cots, hout.symm, hsub⟩

/-- Whatever was called, requests draw one stream: each gives as many COTs as it asks for, and what
they give depends only on how many they ask for together. No COT is delivered twice, no tweak is
evaluated twice while the numbers do not wrap around, and endpoints on which the same calls return
have the same counters and equally many COTs left over. -/
theorem cotDraws_oneStream (base : OtBase S) (role : Role) (malicious : Bool)
    (delta choiceSeed : Block) (stream : S) (calls : List CotCall) :
    (∀ lengths lengths' : List ℕ, lengths.foldr (· + ·) 0 = lengths'.foldr (· + ·) 0 →
      ResultRel SameStream (· = ·)
        (performAll base (lengths.map .nextN)
          (finalState (performAll base calls (new role malicious delta choiceSeed stream))))
        (performAll base (lengths'.map .nextN)
          (finalState (performAll base calls (new role malicious delta choiceSeed stream))))) ∧
    (∀ length out e, nextN base length
        (finalState (performAll base calls (new role malicious delta choiceSeed stream))) =
          .ok out e →
      out.length = length) ∧
    (∀ out e, performAll base calls (new role malicious delta choiceSeed stream) = .ok out e →
      ∃ cots : List (Block × ℕ), cots.map Prod.fst = out ∧
        cots.Sublist e.ot.history.generated.zipIdx) ∧
    (∀ e, finalState (performAll base calls (new role malicious delta choiceSeed stream)) = e →
      e.ot.history.sessions.length < 2 ^ 64 →
      (∀ session ∈ e.ot.history.sessions, session.length < 2 ^ 64) →
      e.ot.history.sessions.flatten.Nodup) ∧
    ∀ {S' : Type} [TranscriptIo S'] (base' : OtBase S') role' delta' choiceSeed' (stream' : S')
      out e out' e',
        performAll base calls (new role malicious delta choiceSeed stream) = .ok out e →
      performAll base' calls (new role' malicious delta' choiceSeed' stream') = .ok out' e' →
      e.ledger = e'.ledger := by
  have hcalls := performAll_new base role malicious delta choiceSeed stream calls
  have hfits : (finalState
      (performAll base calls (new role malicious delta choiceSeed stream))).leftover.Fits :=
    hcalls.of_finalState rfl (fun _ _ hx => hx.fits) fun _ hx => hx.fits
  refine ⟨fun lengths lengths' htotal => nextNs_total hfits htotal, fun length out e hnext => ?_,
    fun out e hrun => ?_, fun e he hsessions hblocks => ?_, ?_⟩
  · obtain ⟨-, -, -, -, hlength⟩ := nextN_ok hfits hnext
    exact hlength
  · obtain ⟨new, hsteps, hsub⟩ := (hcalls.of_ok rfl hrun).delivers
    have hgenerated : e.ot.history.generated = [] ++ new := hsteps.generated
    rw [hgenerated]
    exact exists_positions ((List.sublist_append_left _ _).trans hsub)
  · have hordered : CotBook.Ordered e.ot.history.sessions := by
      rw [← he]
      apply hcalls.of_finalState (q := fun x => CotBook.Ordered x.ot.history.sessions) rfl
      · intro _ x hx
        obtain ⟨new, hsteps, -⟩ := hx.delivers
        exact ((new_numbered role malicious delta choiceSeed stream).run hsteps).ordered
      · exact fun x hx => (new_numbered role malicious delta choiceSeed stream).failsFrom hx.fails
    exact hordered.nodup hsessions hblocks
  · intro S' _ base' role' delta' choiceSeed' stream' out e out' e' hrun hrun'
    have hcalls' := performAll_new base' role' malicious delta' choiceSeed' stream' calls
    exact (hcalls.of_ok rfl hrun).ledger.trans (hcalls'.of_ok rfl hrun').ledger.symm

end SoftSpoken4

end Shachain2pc
