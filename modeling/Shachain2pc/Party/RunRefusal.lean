import Shachain2pc.Lib.FailedRuns
import Shachain2pc.Party.RunPartyJoint

/-!
# A party whose peer runs something else

In every mode a party exchanges digests before anything else. When the bytes which it receives are
not its own digest, it stops with a circuit mismatch. Up to there it sent its digest only, and
nothing depends on its share of the seed.
-/

namespace Shachain2pc

open JointRuns
open Ag2pcTriplePool

namespace PartySession

/-! ## The digest comes first -/

section Opens

variable {S : Type} [TranscriptIo S] (base : PartyBase S) (role : Role)
  {compress : Block64 → Value32} {run : StandaloneRun}

/-- A range is opened by the mode which is selected. -/
theorem opens_runRange {env : StandaloneEnv} {lo hi : ℕ} {mode : RequestedMode}
    (haccepted : selectRangeRun env (rangeIndices lo hi) mode = .ok run) :
    ∃ next, ∀ share, runRange base role env (rangeIndices lo hi) share mode =
      openSession base role run share >>= next := by
  cases mode with
  | full =>
    rw [selectRangeRun] at haccepted
    split at haccepted
    · cases haccepted
    · next hne =>
      cases haccepted
      obtain ⟨first, rest, hcons⟩ := List.exists_cons_of_ne_nil hne
      have hfirst : (rangeIndices lo hi).head? = some first := by rw [hcons, List.head?_cons]
      apply Exists.intro
      intro share
      rw [runRange, runDerivationBatch]
      simp only [hfirst, entryOr, onStandalone_ok, pure_bind]
      rfl
  | chunked => cases haccepted
  | tree =>
    obtain ⟨_, hcheck, hrun⟩ := Rust.bind_eq_ok haccepted
    cases hrun
    obtain ⟨first, groups, hfirst, hgroups⟩ := checkTree_eq_ok hcheck
    -- The rest of the mode is read off its code.
    apply Exists.intro
    intro share
    rw [runRange, runDerivationTree]
    simp only [hfirst, hgroups, onStandalone_ok, pure_bind]
    rfl
  | cache =>
    obtain ⟨tileFanout, hfanout, hnext⟩ := Rust.bind_eq_ok haccepted
    obtain ⟨_, hcheck, hrun⟩ := Rust.bind_eq_ok hnext
    cases hrun
    obtain ⟨hfirst, hlast⟩ := rangeIndices_ends (le_of_checkCache hcheck)
    obtain ⟨tileHeight, groups, hheight, hgroups⟩ := checkCache_eq_ok hfirst hlast hcheck
    obtain ⟨levels, hlevels⟩ : ∃ levels,
        recursiveLevels lo hi tileHeight (rangeSplitMasks lo [lo, hi]) = .ok levels := by
      rcases recursiveLevels_cover lo hi tileHeight (rangeSplitMasks lo [lo, hi]) with hlevels |
        ⟨level, rest, hlevels, -⟩
      · exact ⟨_, hlevels⟩
      · exact ⟨_, hlevels⟩
    apply Exists.intro
    intro share
    rw [runRange, hfanout, onStandalone_ok, pure_bind, runDerivationCache]
    simp only [hfirst, hlast, hheight, hgroups, hlevels, entryOr, onStandalone_ok, pure_bind]
    rfl

/-- One index is opened by the mode which is selected. -/
theorem opens_runSingle (hgadget : DirectGadget compress base.sha)
    (hwires : derivationWires base.sha maxIndex < gateWireLimit) {env : StandaloneEnv}
    {index : Index48} {mode : RequestedMode}
    (haccepted : selectSingleRun env index.get mode = .ok run) :
    ∃ next, ∀ share, runSingle base role env index share mode =
      openSession base role run share >>= next := by
  cases mode with
  | full =>
    cases haccepted
    obtain ⟨program, hbuilt, -⟩ := indexProgram_eq base hgadget hwires index.le_max
    apply Exists.intro
    intro share
    rw [runSingle, runDerivationFull, hbuilt, pure_bind]
  | chunked =>
    cases hblocks : chunkBlocksFromEnv env with
    | none =>
      rw [selectSingleRun, hblocks] at haccepted
      cases haccepted
    | some blocksPerChunk =>
      rw [selectSingleRun, hblocks] at haccepted
      obtain ⟨groups, hgroups, hrun⟩ := Rust.bind_eq_ok haccepted
      cases hrun
      apply Exists.intro
      intro share
      rw [runSingle, hblocks, entryOr, onStandalone_ok, pure_bind, runDerivationChunked, hgroups,
        onStandalone_ok, pure_bind]
  | tree => cases haccepted
  | cache => cases haccepted

/-- A request which is accepted is opened by its run. -/
theorem opens_runParty (hgadget : DirectGadget compress base.sha)
    (hwires : derivationWires base.sha maxIndex < gateWireLimit) {request : StandaloneRequest}
    (haccepted : request.run = .ok run) :
    ∃ next, ∀ share, runParty base role request share =
      openSession base role run share >>= next := by
  obtain ⟨_, hallowed, hselect⟩ := Rust.bind_eq_ok haccepted
  cases hspec : request.indexSpec with
  | single index =>
    rw [hspec] at hselect
    obtain ⟨later, hlater⟩ := opens_runSingle base role hgadget hwires hselect
    refine ⟨fun wires => later wires >>= fun value => pure (.single value), fun share => ?_⟩
    rw [runParty, hallowed, onStandalone_ok, pure_bind, hspec]
    change runSingle base role request.env index share _ >>= _ = _
    rw [hlater share, bind_assoc]
  | range lo hi =>
    rw [hspec] at hselect
    obtain ⟨later, hlater⟩ := opens_runRange base role hselect
    refine ⟨fun wires => later wires >>= fun values => pure (.range values), fun share => ?_⟩
    rw [runParty, hallowed, onStandalone_ok, pure_bind, hspec]
    change runRange base role request.env _ share _ >>= _ = _
    rw [hlater share, bind_assoc]

end Opens

/-! ## Another digest -/

section Refusal

variable {sha256 : List UInt8 → Value32} {base : PartyBase (StreamEnd sha256)} {A : Type}

/-- What happens on the main stream, which is the second one of Alice and the first one of Bob. -/
def mainTraffic (role : Role) (events : List (Event UInt8)) : Rounds (List (Event UInt8)) :=
  match role with
  | .alice => Rounds.one [] events
  | .bob => Rounds.one events []

/-- Code on the main stream. -/
theorem runs_onMain (role : Role) {prog : CotM (StreamEnd sha256) A} {events : List (Event UInt8)}
    {a : A} (h : Exchanges prog events a) (party : PartySession (StreamEnd sha256)) :
    ∃ party', Runs (onSession (Ag2pcSession.onMain role prog)) party
      (mainTraffic role events) a party' := by
  cases role with
  | alice =>
    exact ⟨_,
      Runs.zoom within_session (Runs.zoom Ag2pcSession.within_pool (Runs.zoom within_abit2 (h _)))⟩
  | bob =>
    exact ⟨_,
      Runs.zoom within_session (Runs.zoom Ag2pcSession.within_pool (Runs.zoom within_abit1 (h _)))⟩

/-- The exchange of two digests, in the order of a role. -/
def digestTraffic (role : Role) (ours theirs : Value32) : Rounds (List (Event UInt8)) :=
  match role with
  | .alice =>
    mainTraffic .alice [.sent ours.bytes.toList] ++
      mainTraffic .alice [.received theirs.bytes.toList]
  | .bob =>
    mainTraffic .bob [.received theirs.bytes.toList] ++ mainTraffic .bob [.sent ours.bytes.toList]

/-- Another digest is refused. -/
theorem fails_exchangeDigest (role : Role) {digest peer : Value32} (hne : peer ≠ digest)
    (party : PartySession (StreamEnd sha256)) :
    ∃ party', Fails (exchangeDigest role digest) party (digestTraffic role digest peer)
      (.error (.standalone .circuitMismatch)) party' := by
  have hrefused (party : PartySession (StreamEnd sha256)) :
      Fails (onStandalone (exchangeCircuitDigest digest peer)) party
        (Traffic.none : Rounds (List (Event UInt8)))
        (.error (.standalone .circuitMismatch)) party := by
    rw [exchangeCircuitDigest, if_neg hne]
    exact .throw _ _
  cases role with
  | alice =>
    obtain ⟨sent, hsent⟩ := runs_onMain .alice (exchanges_sendDigest digest) party
    obtain ⟨received, hreceived⟩ := runs_onMain .alice (exchanges_recvDigest peer) sent
    have hfails :
        Fails (exchangeDigest .alice digest) party
          (mainTraffic .alice [.sent digest.bytes.toList] ++
        (mainTraffic .alice [.received peer.bytes.toList] ++ Traffic.none)) _ received :=
      hsent.bindFails (hreceived.bindFails (hrefused received))
    rw [Traffic.append_none] at hfails
    exact ⟨received, hfails⟩
  | bob =>
    obtain ⟨received, hreceived⟩ := runs_onMain .bob (exchanges_recvDigest peer) party
    obtain ⟨sent, hsent⟩ := runs_onMain .bob (exchanges_sendDigest digest) received
    have hfails :
        Fails (exchangeDigest .bob digest) party (mainTraffic .bob [.received peer.bytes.toList] ++
        (mainTraffic .bob [.sent digest.bytes.toList] ++ Traffic.none)) _ sent :=
      hreceived.bindFails (hsent.bindFails (hrefused sent))
    rw [Traffic.append_none] at hfails
    exact ⟨sent, hfails⟩

end Refusal

end PartySession

/-- A party which receives another digest than its own stops with a circuit mismatch, whatever comes
later. It sent its digest only, and the state in which it stops does not depend on its share. -/
theorem runParty_refuses {sha256 : List UInt8 → Value32} {base : PartyBase (StreamEnd sha256)}
    {compress : Block64 → Value32} (hgadget : DirectGadget compress base.sha)
    (hwires : derivationWires base.sha maxIndex < gateWireLimit) {request : StandaloneRequest}
    {run : StandaloneRun} (haccepted : request.run = .ok run) (role : Role) {peer : Value32}
    (hne : peer ≠ run.digest base.pool.sha256 base.sha) (party : PartySession (StreamEnd sha256)) :
    ∃ stopped, ∀ share, Fails (PartySession.runParty base role request share) party
      (PartySession.digestTraffic role (run.digest base.pool.sha256 base.sha) peer)
      (.error (.standalone .circuitMismatch)) stopped := by
  obtain ⟨next, hopens⟩ := PartySession.opens_runParty base role hgadget hwires haccepted
  obtain ⟨stopped, hfails⟩ := PartySession.fails_exchangeDigest role hne party
  refine ⟨stopped, fun share => ?_⟩
  rw [hopens share, PartySession.openSession, bind_assoc]
  exact hfails.bind _

/-- Bob, whose peer sends another digest than that of the batch of one index. -/
theorem runParty_refuses_five :
    let base : PartyBase (StreamEnd Value32.ofList) :=
      cswParty fiveCurve (fun _ block => block) Value32.ofList
      (fun _ _ => 3) 1 1 Block.zero Block.zero (fun _ => 2) (fun _ => 2) (fun _ => Block.zero)
      edgeGadget
    let request : StandaloneRequest := ⟨.single ⟨5, by decide⟩, false, ⟨none, none, none, none⟩⟩
    let party : PartySession (StreamEnd Value32.ofList) :=
      ⟨Ag2pcSession.begun .bob 40 Block.zero ⟨Block.zero, Block.zero, Block.zero⟩ Block.zero
        ⟨.new, .new⟩, 0⟩
    let ours := (⟨.batch, [5]⟩ : StandaloneRun).digest base.pool.sha256 base.sha
    ∃ stopped, ∀ share, Fails (PartySession.runParty base .bob request share) party
      (PartySession.digestTraffic .bob ours (ours.xor firstEdgeDigest))
        (.error (.standalone .circuitMismatch))
      stopped :=
  runParty_refuses (selectGadget_direct (by decide) secondEdgeDigest thirdEdgeDigest)
    (by decide +kernel)
    (show StandaloneRequest.run _ = .ok ⟨.batch, [5]⟩ by decide +kernel) .bob (by decide +kernel) _

end Shachain2pc
