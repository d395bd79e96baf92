import Shachain2pc.Compat.BaseOtJoint
import Shachain2pc.Compat.CotStream

/-!
# Calls of correlated OTs

Two endpoints which get the same calls, the first session before the first draw, complete all
of them. What they hold back is correlated as well, so it does not matter how the draws fall
on the chunks: everything which the two deliver is correlated, one by one.
-/

namespace Shachain2pc

open JointRuns
open OtState SoftSpoken4State SoftSpoken4

variable {sha256 : List UInt8 → Value32} {malicious : Bool} {delta : Block}

/-- What two endpoints have in common; the COTs which they hold back are correlated. -/
structure CotPaired (malicious : Bool) (delta : Block) (e e' : CotEndpoint (StreamEnd sha256)) :
    Prop where
  ot : OtPaired malicious delta e.ot e'.ot
  fits : e.leftover.Fits
  fits' : e'.leftover.Fits
  leftover : List.Forall₂ (Correlated delta) e.leftover.remaining e'.leftover.remaining
  fresh : ¬e.ot.state.setupDone → e.leftover.count = 0

/-- Delivered COTs are put together. -/
theorem Delivered.append {m n : ℕ} {q q' t t' : List Block} (h : Delivered delta m q t)
    (h' : Delivered delta n q' t') :
    Delivered delta (m + n) (q ++ q') (t ++ t') :=
  ⟨by rw [List.length_append, h.1, h'.1], List.rel_append h.2 h'.2⟩

/-- The first COTs. -/
theorem Delivered.take {m n : ℕ} {q t : List Block} (h : Delivered delta m q t) (hn : n ≤ m) :
    Delivered delta n (q.take n) (t.take n) :=
  ⟨by rw [List.length_take, h.1, Nat.min_eq_left hn], List.forall₂_take n h.2⟩

/-- No COTs. -/
theorem Delivered.nil : Delivered delta 0 [] [] := ⟨rfl, .nil⟩

/-- Delivered COTs are correlated at every position. -/
theorem Delivered.getD {n : ℕ} {q t : List Block} (h : Delivered delta n q t) {j : ℕ} (hj : j < n) :
    Correlated delta (q.getD j Block.zero) (t.getD j Block.zero) := by
  have hlength := h.2.length_eq
  have hq : j < q.length := h.1.symm ▸ hj
  rw [List.getD_eq_getElem _ _ hq, List.getD_eq_getElem _ _ (hlength ▸ hq)]
  exact (List.forall₂_iff_get.mp h.2).2 j hq (hlength ▸ hq)

/-! ## The leftover -/

section Leftover

variable {S L : Type} [Traffic L] [Port S L] {e : CotEndpoint S}

/-- Draining does not use the rest of an endpoint. -/
theorem drainLeftover_frame {n : ℕ} {ot : OtState S} {l l' : Leftover} {q : List Block}
    (h : drainLeftover n ⟨ot, l⟩ = .ok q ⟨ot, l'⟩) (ot' : OtState S) :
    drainLeftover n ⟨ot', l⟩ = .ok q ⟨ot', l'⟩ := by
  change (if l.count = 0 ∨ n = 0 then _ else _ : CotM S (List Block)) _ = _ at h
  change (if l.count = 0 ∨ n = 0 then _ else _ : CotM S (List Block)) _ = _
  by_cases hempty : l.count = 0 ∨ n = 0
  · rw [if_pos hempty] at h ⊢
    cases h
    rfl
  · rw [if_neg hempty] at h ⊢
    cases hread :
        (Rust.readSlice l.blocks l.pos (min n l.count) : Except (Rust.Failure OtError) _) with
    | error error =>
      rw [hread] at h
      cases h
    | ok drained =>
      rw [hread] at h
      cases h
      rfl

/-- Draining takes from the front of what remains. -/
theorem runs_drainLeftover (h : e.leftover.Fits) (n : ℕ) :
    ∃ l : Leftover, Runs (drainLeftover n) e (Traffic.none : L) (e.leftover.remaining.take n)
      { e with leftover := l } ∧
      l.Fits ∧ l.remaining = e.leftover.remaining.drop n := by
  obtain ⟨l, hdrain, hfits, hremaining⟩ := drainLeftover_eq e h n
  exact ⟨l, .local fun todo done => drainLeftover_frame hdrain _, hfits, hremaining⟩

/-- Code which does not use the leftover. -/
theorem runs_onOt {A : Type} {prog : OtM S A} {events : L} {a : A} {ot ot' : OtState S}
    (l : Leftover) (h : Runs prog ot events a ot') : Runs (onOt prog) ⟨ot, l⟩ events a ⟨ot', l⟩ :=
  Runs.zoom within_ot h

end Leftover

variable {base : OtBase (StreamEnd sha256)} {e e' : CotEndpoint (StreamEnd sha256)}

/-- Both endpoints drain correlated COTs. -/
theorem CotPaired.drain (h : CotPaired malicious delta e e') (n : ℕ) :
    ∃ q t l l', Runs (drainLeftover n) e (Traffic.none : List (Event UInt8)) q { e with
      leftover := l } ∧
      Runs (drainLeftover n) e' (Traffic.none : List (Event UInt8)) t { e' with leftover := l' } ∧
      q.length = min n e.leftover.count ∧ Delivered delta q.length q t ∧
      CotPaired malicious delta { e with leftover := l } { e' with leftover := l' } := by
  obtain ⟨l, hrun, hfits, hremaining⟩ := runs_drainLeftover (L := List (Event UInt8)) h.fits n
  obtain ⟨l', hrun', hfits', hremaining'⟩ := runs_drainLeftover (L := List (Event UInt8)) h.fits' n
  refine ⟨_, _, l, l', hrun, hrun', by rw [List.length_take, h.fits.remaining_length],
    ⟨rfl, List.forall₂_take n h.leftover⟩, h.ot, hfits, hfits', ?_, fun hfresh => ?_⟩
  · rw [hremaining, hremaining']
    exact List.forall₂_drop n h.leftover
  · have hcount := hfits.remaining_length
    rw [hremaining, Leftover.remaining_of_count (h.fresh hfresh), List.drop_nil] at hcount
    exact hcount.symm

/-! ## Requests -/

/-- Chunks, one after the other. -/
theorem joint_fetch (k : ℕ) :
    Joint (fun s r => OtPaired malicious delta s r ∧ s.state.setupDone)
      (ChunkedStream.fetch (nextChunk base softspokenChunkBlocks) k)
      (ChunkedStream.fetch (nextChunk base softspokenChunkBlocks) k)
      fun q s t r => Delivered delta (k * softspokenChunkOts) q t ∧ OtPaired malicious delta s r ∧
      s.state.setupDone := by
  induction k with
  | zero => exact .pure fun s r h => ⟨by rw [Nat.zero_mul]; exact .nil, h⟩
  | succ k ih =>
    refine (joint_nextChunk softspokenChunkBlocks).bind fun q t => Joint.assume fun hfirst => ?_
    refine ih.bind fun q' t' => Joint.assume fun hrest => ?_
    refine .pure fun s r h => ⟨?_, h⟩
    rw [Nat.succ_mul, Nat.add_comm]
    exact hfirst.append hrest

/-- Endpoints which went on. -/
theorem CotPaired.goOn (h : CotPaired malicious delta e e') {s r : OtState (StreamEnd sha256)}
    (hot : OtPaired malicious delta s r) (hsetup : s.state.setupDone) :
    CotPaired malicious delta { e with ot := s } { e' with ot := r } :=
  { h with ot := hot, fresh := fun hfresh => absurd hsetup hfresh }

/-- What a request leaves of its last chunk. -/
theorem CotPaired.keep {s r : OtState (StreamEnd sha256)} (hot : OtPaired malicious delta s r)
    (hsetup : s.state.setupDone) {chunk chunk' : List Block}
    (hchunk : Delivered delta softspokenChunkOts chunk chunk') {take : ℕ}
    (htake : take ≤ softspokenChunkOts) :
    CotPaired malicious delta ⟨s, chunk, take, softspokenChunkOts - take⟩
      ⟨r, chunk', take, softspokenChunkOts - take⟩ where
  ot := hot
  fits := (Nat.add_sub_of_le htake).le.trans hchunk.1.ge
  fits' := (Nat.add_sub_of_le htake).le.trans (hchunk.1.symm.trans hchunk.2.length_eq).le
  leftover := List.forall₂_take _ (List.forall₂_drop _ hchunk.2)
  fresh hfresh := absurd hsetup hfresh

section Requests

variable {n : ℕ} {q whole chunk : List Block} {l : Leftover} {s s' : OtState (StreamEnd sha256)}
  {events events' : List (Event UInt8)}

/-- A request which the leftover and whole chunks serve. -/
theorem runs_nextN_whole (hdrain : Runs (drainLeftover n) e Traffic.none q { e with leftover := l })
    (hwhole : Runs (nextWholeChunks base n q.length) e.ot events whole s)
    (hall : ¬q.length + whole.length < n) :
    Runs (nextN base n) e events (q ++ whole) ⟨s, l⟩ := by
  refine hdrain.bindLocal ((runs_onOt l hwhole).bindQuiet ?_)
  rw [if_neg hall]
  exact .pure _ _

/-- A request which needs a part of one more chunk. -/
theorem runs_nextN_part (hdrain : Runs (drainLeftover n) e Traffic.none q { e with leftover := l })
    (hwhole : Runs (nextWholeChunks base n q.length) e.ot events whole s)
    (hchunk : Runs (nextChunk base softspokenChunkBlocks) s events' chunk s')
    (hpart : q.length + whole.length < n) :
    Runs (nextN base n) e (events ++ events')
      (q ++ whole ++ chunk.take (n - (q.length + whole.length)))
      ⟨s', chunk, n - (q.length + whole.length),
        softspokenChunkOts - (n - (q.length + whole.length))⟩ := by
  refine hdrain.bindLocal ((runs_onOt l hwhole).bind ?_)
  rw [if_pos hpart]
  exact (runs_onOt l hchunk).bindQuiet (Runs.bindLocal (.local fun _ _ => rfl) (.pure _ _))

end Requests

/-- A request, of endpoints which are set up. -/
theorem joint_nextN (n : ℕ) :
    Joint (fun e e' => CotPaired malicious delta e e' ∧ e.ot.state.setupDone) (nextN base n)
      (nextN base n)
      fun q e t e' => Delivered delta n q t ∧ CotPaired malicious delta e e' ∧
      e.ot.state.setupDone := by
  rintro e e' ⟨h, hsetup⟩
  obtain ⟨q, t, l, l', hours, htheirs, hlength, hdrained, hpaired⟩ := h.drain n
  have hsame : q.length = t.length := hdrained.2.length_eq
  obtain ⟨left, right, whole, s, whole', r, hmeets, hsend, hrecv, hwhole, hot, hready⟩ :=
    @joint_fetch _ malicious delta base ((n - q.length) / softspokenChunkOts) _ _ ⟨h.ot, hsetup⟩
  have hsameWhole : whole.length = whole'.length := hwhole.2.length_eq
  have hsum : q.length + whole.length ≤ n ∧ n - (q.length + whole.length) ≤ softspokenChunkOts := by
    have hrest := Nat.div_add_mod (n - q.length) softspokenChunkOts
    have hsmall := Nat.mod_lt (n - q.length) (show 0 < softspokenChunkOts by decide)
    have hlong := hwhole.1
    rw [Nat.mul_comm] at hlong
    omega
  have hdelivered : Delivered delta (q.length + whole.length) (q ++ whole) (t ++ whole') :=
    hdrained.append ⟨rfl, hwhole.2⟩
  rw [← nextWholeChunks_eq] at hsend hrecv
  rw [hsame] at hrecv
  by_cases hmore : q.length + whole.length < n
  · obtain ⟨left', right', chunk, s', chunk', r', hmeets', hsend', hrecv', hchunk, hot', hready'⟩ :=
      @joint_nextChunk _ base malicious delta softspokenChunkBlocks _ _ ⟨hot, hready⟩
    have hsent := runs_nextN_part hours hsend hsend' hmore
    have hreceived := runs_nextN_part htheirs hrecv hrecv' (by omega)
    rw [← hsame, ← hsameWhole] at hreceived
    refine ⟨_, _, _, _, _, _, Traffic.meets_append hmeets hmeets', hsent, hreceived, ?_,
      CotPaired.keep hot' hready' hchunk hsum.2, hready'⟩
    have hall := hdelivered.append (hchunk.take hsum.2)
    rwa [Nat.add_sub_of_le hsum.1] at hall
  · have hall : q.length + whole.length = n := by omega
    rw [hall] at hdelivered
    exact ⟨left, right, _, _, _, _, hmeets, runs_nextN_whole hours hsend hmore,
      runs_nextN_whole htheirs hrecv (by omega), hdelivered, hpaired.goOn hot hready, hready⟩

/-! ## Calls -/

/-- Endpoints which forget what they hold back. -/
theorem CotPaired.forget (h : CotPaired malicious delta e e') (blocks blocks' : List Block) :
    CotPaired malicious delta { e with leftover := ⟨blocks, 0, 0⟩ } { e' with
      leftover := ⟨blocks', 0, 0⟩ } where
  ot := h.ot
  fits := Nat.zero_le _
  fits' := Nat.zero_le _
  leftover := .nil
  fresh _ := rfl

/-- Both begin a session. -/
theorem joint_begin (hbase : base.Delivers) :
    Joint (CotPaired malicious delta) (begin base) (begin base)
      fun _ e _ e' => CotPaired malicious delta e e' ∧ e.ot.state.setupDone := by
  intro e e' h
  obtain ⟨left, right, a, s, b, r, hmeets, hours, htheirs, hot, hsetup⟩ :=
    joint_beginSession hbase _ _ h.ot
  exact ⟨left, right, a, _, b, _, hmeets,
    Runs.bindLocal (.local fun _ _ => rfl) (runs_onOt _ hours),
    Runs.bindLocal (.local fun _ _ => rfl) (runs_onOt _ htheirs),
    (h.forget e.leftover.blocks e'.leftover.blocks).goOn hot hsetup, hsetup⟩

/-- Both end a session. -/
theorem joint_finish :
    Joint (fun e e' => CotPaired malicious delta e e' ∧ e.ot.state.setupDone)
      (onOt (endSession base)) (onOt (endSession base))
      fun _ e _ e' => CotPaired malicious delta e e' ∧ e.ot.state.setupDone := by
  rintro e e' ⟨h, hready⟩
  obtain ⟨left, right, a, s, b, r, hmeets, hours, htheirs, hot, hsetup⟩ :=
    joint_endSession _ _ ⟨h.ot, hready⟩
  exact ⟨left, right, a, _, b, _, hmeets, runs_onOt _ hours, runs_onOt _ htheirs,
    h.goOn hot hsetup, hsetup⟩

/-- A session of its own for what the leftover does not serve. -/
theorem joint_run (hbase : base.Delivers) (ready : Prop) (n : ℕ) :
    Joint (fun e e' => CotPaired malicious delta e e' ∧ (ready → e.ot.state.setupDone))
      (run base n) (run base n)
      fun q e t e' => Delivered delta n q t ∧ CotPaired malicious delta e e' ∧
      (ready ∨ n ≠ 0 → e.ot.state.setupDone) := by
  rintro e e' ⟨h, hready⟩
  obtain ⟨q, t, l, l', hours, htheirs, hlength, hdrained, hpaired⟩ := h.drain n
  have hsame : q.length = t.length := hdrained.2.length_eq
  by_cases hall : q.length = n
  · refine ⟨Traffic.none, Traffic.none, q, _, t, _, Traffic.meets_none, hours.bindLocal ?_,
      htheirs.bindLocal ?_,
      hall ▸ hdrained, hpaired, fun hset => hset.elim hready fun hn => ?_⟩
    · rw [if_pos hall]
      exact .pure _ _
    · rw [if_pos (hsame.symm.trans hall)]
      exact .pure _ _
    · by_contra hfresh
      have hcount := h.fresh hfresh
      omega
  · have hsession : Joint (CotPaired malicious delta) (do
        begin base
        let rest ← nextN base (n - q.length)
        onOt (endSession base)
        return q ++ rest) (do
        begin base
        let rest ← nextN base (n - q.length)
        onOt (endSession base)
        return t ++ rest) fun q e t e' => Delivered delta n q t ∧ CotPaired malicious delta e e' ∧
            e.ot.state.setupDone := by
      refine (joint_begin hbase).bind fun _ _ => (joint_nextN _).bind fun rest rest' =>
        Joint.assume fun hrest => ?_
      refine joint_finish.bind fun _ _ => .pure fun _ _ hst => ⟨?_, hst⟩
      have hboth := hdrained.append hrest
      rwa [Nat.add_sub_cancel' (by omega)] at hboth
    obtain ⟨left, right, q', e₁, t', e₁', hmeets, hsend, hrecv, hboth, hpaired', hsetup⟩ :=
      hsession _ _ hpaired
    refine ⟨left, right, q', e₁, t', e₁', hmeets, hours.bindLocal ?_, htheirs.bindLocal ?_,
      hboth, hpaired',
      fun _ => hsetup⟩
    · rw [if_neg hall]
      exact hsend
    · rw [if_neg (hsame ▸ hall), ← hsame]
      exact hrecv

/-- Calls which need an earlier setup. -/
def CotCall.needsSetup : CotCall → Bool
  | .nextN _ => true
  | .finish => true
  | _ => false

/-- Calls after which the endpoint is set up. -/
def CotCall.setsUp : CotCall → Bool
  | .begin => true
  | .run length => length != 0
  | _ => false

/-- How many COTs a call delivers. -/
def CotCall.requested : CotCall → ℕ
  | .nextN length => length
  | .run length => length
  | _ => 0

/-- No call needs a setup before one which sets up. -/
def setUpFirst : Bool → List CotCall → Bool
  | _, [] => true
  | ready, call :: rest => (!call.needsSetup || ready) && setUpFirst (ready || call.setsUp) rest

/-- A call of both endpoints. -/
theorem joint_perform (hbase : base.Delivers) {ready : Bool} (call : CotCall)
    (hcall : call.needsSetup → ready) :
    Joint (fun e e' => CotPaired malicious delta e e' ∧ (ready → e.ot.state.setupDone))
      (perform base call) (perform base call)
      fun q e t e' => Delivered delta call.requested q t ∧ CotPaired malicious delta e e' ∧
        (ready || call.setsUp → e.ot.state.setupDone) := by
  cases call with
  | begin =>
    have hbegin :
        Joint (CotPaired malicious delta) (perform base .begin)
          (perform base .begin) fun q e t e' =>
        Delivered delta 0 q t ∧ CotPaired malicious delta e e' ∧ e.ot.state.setupDone :=
      (joint_begin hbase).bind fun _ _ => .pure fun _ _ hst => ⟨.nil, hst⟩
    exact hbegin.mono (fun _ _ hst => hst.1) fun _ _ _ _ hpost =>
      ⟨hpost.1, hpost.2.1, fun _ => hpost.2.2⟩
  | nextN length =>
    exact (joint_nextN length).mono (fun _ _ hst => ⟨hst.1, hst.2 (hcall rfl)⟩)
      fun _ _ _ _ hpost => ⟨hpost.1, hpost.2.1, fun _ => hpost.2.2⟩
  | run length =>
    refine (joint_run hbase ready length).mono (fun _ _ hst => hst) fun _ _ _ _ hpost =>
      ⟨hpost.1, hpost.2.1,
        fun hset => hpost.2.2 ((Bool.or_eq_true_iff.mp hset).imp_right bne_iff_ne.mp)⟩
  | finish =>
    have hfinish : Joint (fun e e' => CotPaired malicious delta e e' ∧ e.ot.state.setupDone)
      (perform base .finish)
        (perform base .finish) fun q e t e' =>
          Delivered delta 0 q t ∧ CotPaired malicious delta e e' ∧ e.ot.state.setupDone :=
      joint_finish.bind fun _ _ => .pure fun _ _ hst => ⟨.nil, hst⟩
    exact hfinish.mono (fun _ _ hst => ⟨hst.1, hst.2 (hcall rfl)⟩)
      fun _ _ _ _ hpost => ⟨hpost.1, hpost.2.1, fun _ => hpost.2.2⟩
  | trimIdleAllocations =>
    intro e e' h
    exact ⟨Traffic.none, Traffic.none, [], _, [], _, Traffic.meets_none, .local fun _ _ => rfl,
      .local fun _ _ => rfl,
      .nil, h.1.forget [] [], fun hset => h.2 (Bool.or_false ready ▸ hset)⟩

/-- Calls of both endpoints. -/
theorem joint_performAll (hbase : base.Delivers) {ready : Bool} {calls : List CotCall}
    (hcalls : setUpFirst ready calls) :
    Joint (fun e e' => CotPaired malicious delta e e' ∧ (ready → e.ot.state.setupDone))
      (performAll base calls) (performAll base calls) fun q e t e' =>
        Delivered delta (calls.map CotCall.requested).sum q t ∧ CotPaired malicious delta e e' := by
  induction calls generalizing ready with
  | nil => exact .pure fun _ _ hst => ⟨.nil, hst.1⟩
  | cons call rest ih =>
    rw [setUpFirst, Bool.and_eq_true, Bool.or_eq_true, Bool.not_eq_true'] at hcalls
    have hcall : call.needsSetup → ready :=
      fun hneeds => hcalls.1.resolve_left (Bool.eq_false_iff.not.mpr (not_not.mpr hneeds))
    refine (joint_perform hbase call hcall).bind fun q t => Joint.assume fun hfirst => ?_
    refine (ih hcalls.2).bind fun q' t' => Joint.assume fun hlater => .pure fun _ _ hst => ⟨?_, hst⟩
    exact hfirst.append hlater

/-- New endpoints, of which the sender has a Delta with its lowest bit set. -/
theorem CotPaired.new (malicious : Bool) {delta : Block} (hlsb : lsb (blockVec delta) = 1)
    (delta' choiceSeed choiceSeed' : Block) :
    CotPaired malicious delta (SoftSpoken4.new .alice malicious delta choiceSeed StreamEnd.new)
      (SoftSpoken4.new .bob malicious delta' choiceSeed' (StreamEnd.new : StreamEnd sha256)) where
  ot := {
    sender := rfl
    receiver := rfl
    active := rfl
    malicious := rfl
    setup := rfl
    offset := rfl
    lsb := hlsb
    bools := rfl
    session := rfl
    counter := rfl
    current := rfl
    mirrored := .new
    checked := by
      refine checked_iff.mpr ?_
      change gfElem Block.zero = gfElem Block.zero + gfElem Block.zero * _
      rw [gfElem_zero, zero_mul, add_zero]
    trees := fun hset => absurd hset Bool.false_ne_true
    enabled := fun hset => absurd hset Bool.false_ne_true }
  fits := Nat.zero_le _
  fits' := Nat.zero_le _
  leftover := .nil
  fresh _ := rfl

/-- Two endpoints at the ends of a stream, with base OTs which serve, complete the same calls when
the first session comes before the first draw: each receives what the other sends, and what they
deliver is correlated. -/
theorem cotEndpoints_correlated {G : Type} [AddCommGroup G] {curve : P256 G} {r : ℕ} {seed : Block}
    {alphas : ℕ → ℕ} {t : G} (hserves : CswServes curve r seed alphas t)
    (permute : Block → Block → Block) (sha256 : List UInt8 → Value32) (malicious : Bool)
    {delta : Block} (hlsb : lsb (blockVec delta) = 1) (delta' choiceSeed choiceSeed' : Block)
    {calls : List CotCall} (hcalls : setUpFirst false calls) :
    ∃ left right sent sender received receiver, Crossing [] [] left right ∧
      performAll (.csw curve permute sha256 r seed alphas) calls
        (new .alice malicious delta choiceSeed (.fed left)) =
        .ok sent sender ∧ sender.ot.stream.incoming = [] ∧ sender.ot.stream.log = left ∧
      performAll (.csw curve permute sha256 r seed alphas) calls
        (new .bob malicious delta' choiceSeed' (.fed right)) =
        .ok received receiver ∧ receiver.ot.stream.incoming = [] ∧ receiver.ot.stream.log = right ∧
      sent.length = (calls.map CotCall.requested).sum ∧ List.Forall₂
        (Correlated delta) sent received := by
  obtain ⟨left, right, sent, sender, received, receiver, hmeets, hours, htheirs,
      hdelivered, hpaired⟩ :=
    joint_performAll (hserves.delivers permute) hcalls _ _
      ⟨CotPaired.new malicious hlsb delta' choiceSeed choiceSeed',
        fun hset => absurd hset Bool.false_ne_true⟩
  have hsent := hours [] []
  have hreceived := htheirs [] []
  rw [List.append_nil] at hsent hreceived
  exact ⟨left, right, sent, _, received, _, hmeets, hsent, rfl, rfl, hreceived, rfl,
    rfl, hdelivered⟩

/-- Sessions of both kinds, on a small group. -/
theorem cotEndpoints_correlated_five :
    let base := OtBase.csw fiveCurve (fun _ block => block) Value32.ofList 1 Block.zero fun _ => 2
    let calls := [.begin, .nextN 3, .finish, .run 9000, .trimIdleAllocations]
    ∃ left right sent sender received receiver, Crossing [] [] left right ∧
      performAll base calls (new .alice true (Block.make 0 1) Block.zero (.fed left)) =
        .ok sent sender ∧
      sender.ot.stream.incoming = [] ∧ sender.ot.stream.log = left ∧
      performAll base calls (new .bob true Block.zero Block.zero (.fed right)) =
        .ok received receiver ∧
      receiver.ot.stream.incoming = [] ∧ receiver.ot.stream.log = right ∧
      sent.length = (calls.map CotCall.requested).sum ∧
      List.Forall₂ (Correlated (Block.make 0 1)) sent received :=
  cotEndpoints_correlated fiveCurve_serves _ _ true (by decide) _ _ _ (by decide)

end Shachain2pc
