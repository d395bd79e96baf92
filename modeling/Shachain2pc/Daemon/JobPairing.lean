import Shachain2pc.Daemon.Sessions
import Shachain2pc.Lib.Runs

/-!
# Pairing the streams of a session

Alice opens a session by a request for its main stream and, once Bob accepted it, a request
for its sibling, both with the descriptor of the opening. Requests arrive late or not at
all, openings stop at any point, and Alice restarts with a job counter of zero. Bob starts a
session from the two streams he has under one job id, and both were opened together. Whether
he accepts an opening depends on what earlier ones left under its job id.
-/

namespace Shachain2pc

open Runs (run Along)

/-- Where the request for a stream is. -/
inductive StreamRequest where
  | unsent
  | inFlight
  | accepted
  | refused (error : DaemonError)
  | lost
  deriving DecidableEq, Repr

/-- An opening of a session; `active` until the call that opens it stops. -/
structure JobOpening where
  descriptor : GrpcJobDescriptor
  active : Bool
  main : StreamRequest
  sibling : StreamRequest
  deriving DecidableEq, Repr

/-- Alice's memory and openings, and Bob's streams and the sessions he started. A stream is named by
its opening. -/
structure JobPairing where
  inner : Inner
  openings : List JobOpening
  grpcJobs : GrpcJobs ℕ
  sessions : List (ReadyJob ℕ)

inductive PairingLabel where
  | openMain (channelIndex : ℕ) (peer : PeerFrontierConfig)
  | openSibling (opening : ℕ)
  | deliverMain (opening : ℕ)
  | deliverSibling (opening : ℕ)
  | loseMain (opening : ℕ)
  | loseSibling (opening : ℕ)
  | stop (opening : ℕ)
  | restart (inner : Inner)
  | memory (inner : Inner)

/-- Bob has the main stream of the opening, and never got its sibling. -/
def JobOpening.halfOpen (opening : JobOpening) : Bool :=
  opening.main = .accepted ∧ opening.sibling ≠ .accepted

namespace JobPairing

/-- No session was opened. -/
def start (inner : Inner) : JobPairing := ⟨inner, [], fun _ => none, []⟩

/-- Change an opening. -/
def modify (s : JobPairing) (k : ℕ) (f : JobOpening → JobOpening) : JobPairing :=
  { s with openings := s.openings.modify k f }

/-- The state of a request that Bob answered. -/
def answered : Except DaemonError (Option (ReadyJob ℕ)) → StreamRequest
  | .ok _ => .accepted
  | .error error => .refused error

/-- Bob registers a stream of an opening, and starts a session when it has both. -/
def register (s : JobPairing) (k channel : ℕ) (descriptor : GrpcJobDescriptor)
    (f : StreamRequest → JobOpening → JobOpening) : JobPairing :=
  let result := s.grpcJobs.register descriptor channel k
  { s with
    openings := s.openings.modify k (f (answered result.2))
    grpcJobs := result.1
    sessions := match result.2 with
      | .ok (some job) => s.sessions ++ [job]
      | _ => s.sessions }

/-- One step of Alice, Bob, or the network. -/
def step (sha256 : List UInt8 → Value32) (s : JobPairing) : PairingLabel → Option JobPairing
  | .openMain c peer => match precomputeSessionDescriptor sha256 s.inner c peer with
    | .ok result => some { s with
        inner := result.1
        openings := s.openings ++ [⟨result.2, true, .inFlight, .unsent⟩] }
    | .error _ => some s
  | .openSibling k => s.openings[k]?.bind fun opening =>
    if opening.active = true ∧ opening.main = .accepted ∧ opening.sibling = .unsent then
      some (s.modify k fun o => { o with sibling := .inFlight })
    else none
  | .deliverMain k => s.openings[k]?.bind fun opening =>
    if opening.main = .inFlight then
      some (s.register k 1 opening.descriptor fun request o => { o with main := request })
    else none
  | .deliverSibling k => s.openings[k]?.bind fun opening =>
    if opening.sibling = .inFlight then
      some (s.register k 2 opening.descriptor fun request o => { o with sibling := request })
    else none
  | .loseMain k => s.openings[k]?.bind fun opening =>
    if opening.main = .inFlight then some (s.modify k fun o => { o with main := .lost }) else none
  | .loseSibling k => s.openings[k]?.bind fun opening =>
    if opening.sibling = .inFlight then some (s.modify k fun o => { o with sibling := .lost })
    else none
  | .stop k => some (s.modify k fun o => { o with active := false })
  | .restart inner => some { s with
      inner := { inner with nextJobId := 0 }
      openings := s.openings.map fun o => { o with active := false } }
  | .memory inner => some { s with inner := inner }

/-- When the main stream of an opening reaches Bob, no half-open opening has its job id. -/
def Unclaimed (s : JobPairing) : PairingLabel → Prop
  | .deliverMain k => ∀ opening ∈ s.openings[k]?, ∀ other ∈ s.openings,
    other.halfOpen = true → other.descriptor.jobId ≠ opening.descriptor.jobId
  | _ => True

end JobPairing

end Shachain2pc
