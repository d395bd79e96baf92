import Shachain2pc.Daemon.RevealGate

/-!
# Two daemons which reveal together

The reveal tasks of both daemons, with the `RevealCached` exchanges on the network between
them. A request or its response may be lost at any point; the caller then gets a transport
error. Joint computations succeed only when both daemons have a call in the same one. The
steps of the daemons and the network interleave in any order.
-/

namespace Shachain2pc

open Runs (run)

/-- Where a request or its response is: on its way, with a handler of the peer, on its way back, or
at its end. -/
inductive ExchangePhase where
  | sent
  | handled (handler : ℕ)
  | answered (result : Except DaemonError RevealCachedResponse)
  | over
  deriving DecidableEq

/-- One `RevealCached` request of a call. -/
structure Exchange where
  caller : Role
  id : ℕ
  request : RevealCachedRequest
  phase : ExchangePhase
  deriving DecidableEq

structure RevealPair where
  daemons : Role → RevealState
  exchanges : List Exchange

/-- A step of one daemon, an event of the network, a call which reads the peer's frontier, or a
joint computation of a call of each daemon. -/
inductive PairLabel where
  | task (role : Role) (label : RevealLabel)
  | deliver (n : ℕ)
  | lose (n : ℕ) (message : String)
  | answer (n : ℕ)
  | receive (n : ℕ)
  | frontier (role : Role) (id : ℕ) (written : Bool)
  | compute (id : Role → ℕ) (input : Role → RevealInput)

/-- Two daemons with no reveal task. -/
def RevealPair.start (inner : Role → Inner) : RevealPair where
  daemons role := .start (inner role)
  exchanges := []

/-- The inputs which need nothing of the peer: failed computations and frontier requests are among
them. -/
def RevealInput.isLocal : RevealInput → Bool
  | .response _ | .frontier (.ok (some _)) _ | .opened (.ok _) | .root (.ok _) _ => false
  | _ => true

/-- The steps a daemon takes on its own. -/
def RevealLabel.isLocal : RevealLabel → Bool
  | .step _ input => input.isLocal
  | .incoming _ => false
  | _ => true

/-- The requests that a step of a daemon sends. -/
def RevealState.sends (hashes : Hashes) (s : RevealState) (role : Role) :
    RevealLabel → List Exchange
  | .step id input => match s.calls[id]? with
    | none => []
    | some call =>
      match revealStep hashes s.inner s.pending s.nextChannel call.key call.pc input with
      | none => []
      | some effect => match effect.opening with
        | some (.request request) => [⟨role, id, request, .sent⟩]
        | _ => []
  | _ => []

/-- A daemon takes a step; the requests it sends are on their way. -/
def RevealPair.daemonStep (hashes : Hashes) (s : RevealPair) (role : Role) (label : RevealLabel) :
    Option RevealPair :=
  ((s.daemons role).step hashes label).map fun daemon =>
    { daemons := Function.update s.daemons role daemon
      exchanges := s.exchanges ++ (s.daemons role).sends hashes role label }

/-- Move an exchange. -/
def RevealPair.setExchange (s : RevealPair) (n : ℕ) (exchange : Exchange) (phase : ExchangePhase) :
    RevealPair :=
  { s with exchanges := s.exchanges.set n { exchange with phase := phase } }

/-- The joint computation a call takes part in. -/
inductive Computation where
  | node (channelIndex index : ℕ)
  | root (channelIndex : ℕ)
  | full (channelIndex index : ℕ)
  deriving DecidableEq

/-- The computation a call waits for. -/
def RevealCall.computation (call : RevealCall) : Option Computation :=
  match call.pc with
  | .persisted _ => some (.node call.key.channelIndex call.key.requestedIndex)
  | .rootJob => some (.root call.key.channelIndex)
  | .fullDerivation => some (.full call.key.channelIndex call.key.requestedIndex)
  | _ => none

/-- The computation that a call of a daemon waits for. -/
def RevealPair.computation (s : RevealPair) (role : Role) (id : ℕ) : Option Computation :=
  (s.daemons role).calls[id]?.bind (·.computation)

/-- One step of the two daemons and the network. -/
def RevealPair.step (hashes : Hashes) (s : RevealPair) : PairLabel → Option RevealPair
  | .task role label => if label.isLocal then s.daemonStep hashes role label else none
  | .deliver n => s.exchanges[n]?.bind fun exchange => match exchange.phase with
    | .sent => (s.setExchange n exchange
        (.handled (s.daemons exchange.caller.other).handlers.length)).daemonStep hashes
          exchange.caller.other (.incoming exchange.request)
    | _ => none
  | .lose n message => s.exchanges[n]?.bind fun exchange => match exchange.phase with
    | .over => none
    | _ => (s.setExchange n exchange .over).daemonStep hashes exchange.caller
        (.step exchange.id (.response (.error (.tonicStatus .unavailable message))))
  | .answer n => s.exchanges[n]?.bind fun exchange => match exchange.phase with
    | .handled id => (s.daemons exchange.caller.other).handlers[id]?.bind fun handler =>
      match handler.pc with
      | .done result => some (s.setExchange n exchange (.answered (result.mapError toStatus)))
      | _ => none
    | _ => none
  | .receive n => s.exchanges[n]?.bind fun exchange => match exchange.phase with
    | .answered result => (s.setExchange n exchange .over).daemonStep hashes exchange.caller
        (.step exchange.id (.response result))
    | _ => none
  | .frontier role id written => (s.daemons role).calls[id]?.bind fun call =>
    let peer := (s.daemons role.other).inner
    s.daemonStep hashes role (.step id (.frontier
      (.ok (some (getFrontier peer call.key.channelIndex peer.effectiveWorkers))) written))
  | .compute id input =>
    if s.computation .alice (id .alice) ≠ none ∧
        s.computation .alice (id .alice) = s.computation .bob (id .bob) then
      (s.daemonStep hashes .alice (.step (id .alice) (input .alice))).bind fun t =>
        t.daemonStep hashes .bob (.step (id .bob) (input .bob))
    else none

/-- Fresh calls of both daemons. -/
def RevealPair.callBoth (s : RevealPair) (key : RevealRequestKey) : RevealPair :=
  { s with daemons := fun role =>
      { s.daemons role with calls := (s.daemons role).calls ++ [⟨key, .fresh⟩] } }

end Shachain2pc
