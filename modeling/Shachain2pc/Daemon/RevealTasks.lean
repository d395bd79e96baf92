import Shachain2pc.Daemon.Reveal
import Shachain2pc.Lib.Runs

/-!
# Reveal calls and peer requests on one daemon

Reveal calls of local clients and `RevealCached` requests of the peer run as tasks over one
memory and one map of pending authorizations, in any order. A request waits for the
authorization with its key, takes it, checks the request against its own node and channel,
opens the node, stores the secret, and only then answers with its share.

A run keeps a history of what was registered, taken, sent, and returned. Other tasks of the
daemon may change the memory between any two steps.
-/

namespace Shachain2pc

open Runs (run)

/-- What a oneshot channel holds. -/
inductive Mailbox where
  | empty
  | delivered (result : Except DaemonError Value32)
  | closed
  deriving DecidableEq

structure RevealCall where
  key : RevealRequestKey
  pc : RevealPc
  deriving DecidableEq

/-- Where the handler of a peer's request awaits. -/
inductive HandlerPc where
  | waiting
  | took (channel : ℕ)
  | loaded (channel : ℕ) (node : Ag2pcSecureWires)
  | opened (channel : ℕ) (context : RevealNodeContext) (response : RevealCachedResponse)
    (value : Value32)
  | done (result : Except DaemonError RevealCachedResponse)
  | dropped
  deriving DecidableEq

structure RevealHandler where
  request : RevealCachedRequest
  pc : HandlerPc
  deriving DecidableEq

/-- What happened in a run: a call returned a secret, sent an opening to the peer, or registered an
authorization, and a handler took one, compared the request with the channel, or answered with its
share. -/
inductive RevealEvent where
  | returned (key : RevealRequestKey) (inner : Inner) (response : RevealResponse)
  | sent (key : RevealRequestKey) (opening : Opening)
  | registered (key : RevealRequestKey) (channel : ℕ)
  | consumed (handler : ℕ) (key : RevealRequestKey) (channel : ℕ) (owned : Bool)
  | compared (handler : ℕ) (inner : Inner) (request : RevealCachedRequest)
    (context : RevealNodeContext)
  | released (handler : ℕ) (request : RevealCachedRequest) (context : RevealNodeContext)
    (response : RevealCachedResponse)

/-- One daemon's reveal tasks, with the history of the run, latest event first. `displaced` lists
the channels whose sender was dropped by a call they do not belong to. -/
structure RevealState where
  inner : Inner
  pending : PendingReveals
  mailbox : ℕ → Mailbox
  nextChannel : ℕ
  calls : List RevealCall
  handlers : List RevealHandler
  displaced : List ℕ
  log : List RevealEvent

inductive RevealLabel where
  | call (key : RevealRequestKey)
  | step (id : ℕ) (input : RevealInput)
  | incoming (request : RevealCachedRequest)
  | take (id : ℕ)
  | authorizationTimer (id : ℕ)
  | work (id : ℕ) (written : Bool)
  | dropHandler (id : ℕ)
  | memory (inner : Inner)

/-- A daemon with no reveal task. -/
def RevealState.start (inner : Inner) : RevealState where
  inner := inner
  pending := fun _ => none
  mailbox := fun _ => .empty
  nextChannel := 0
  calls := []
  handlers := []
  displaced := []
  log := []

/-- The channel a call waits on, or has waited on and not yet removed. -/
def RevealPc.channel : RevealPc → Option ℕ
  | .waiting _ channel | .timedOut _ channel => some channel
  | _ => none

/-- The channel a handler has taken and not yet answered. -/
def HandlerPc.channel : HandlerPc → Option ℕ
  | .took channel | .loaded channel _ | .opened channel _ _ _ => some channel
  | _ => none

/-- The input is what the channel of a waiting call can deliver. -/
def RevealState.admits (s : RevealState) (pc : RevealPc) (input : RevealInput) : Bool :=
  match pc, input with
  | .waiting _ channel, .authorized result => s.mailbox channel == .delivered result
  | .waiting _ channel, .senderDropped => s.mailbox channel == .closed
  | .waiting _ channel, .timer => s.mailbox channel == .empty
  | _, _ => true

/-- Send on a oneshot channel, or drop its sender. -/
def RevealState.answer (s : RevealState) (channel : ℕ) (mailbox : Mailbox) : RevealState :=
  { s with mailbox := Function.update s.mailbox channel mailbox }

/-- The events of a call's step, which registers on a new channel. -/
def callEvents (call : RevealCall) (inner : Inner) (channel : ℕ) (effect : RevealEffect) :
    List RevealEvent :=
  (match effect.pc with
    | .done (.ok response) => [.returned call.key inner response]
    | _ => []) ++
  (match effect.opening with
    | some opening => [.sent call.key opening]
    | none => []) ++
  (if effect.registered then [.registered call.key channel] else [])

/-- The state after a call's step. -/
def RevealState.afterCall (s : RevealState) (id : ℕ) (call : RevealCall) (effect : RevealEffect) :
    RevealState :=
  { s with
    inner := effect.inner
    pending := effect.pending
    mailbox := match effect.closed with
      | some channel => Function.update s.mailbox channel .closed
      | none => s.mailbox
    nextChannel := s.nextChannel + 1
    calls := s.calls.set id { call with pc := effect.pc }
    displaced := match effect.closed with
      | some channel => if call.pc.channel = some channel then s.displaced
        else channel :: s.displaced
      | none => s.displaced
    log := callEvents call s.inner s.nextChannel effect ++ s.log }

/-- Move a handler. -/
def RevealState.setHandler (s : RevealState) (id : ℕ) (handler : RevealHandler) (pc : HandlerPc) :
    RevealState :=
  { s with handlers := s.handlers.set id { handler with pc := pc } }

/-- The checks of `complete_peer_cached_reveal` before it reads the context: the gate of the request
and the local node. -/
def checkCachedRequest (hashes : Hashes) (inner : Inner) (request : RevealCachedRequest) :
    Except DaemonError Ag2pcSecureWires :=
  match Index48.new request.key.requestedIndex with
  | .error error => .error (.parse error.message)
  | .ok index =>
    if index.get = 0 ∧ ¬ request.key.allowSeedReveal then
      .error (.refused "I=0 reveals the seed; pass allow_seed_reveal to proceed")
    else if request.key.requestedIndex ≠ request.key.expectedNextIndex then
      .error (.refused "requested index must match expected_next_index")
    else match parseMacDigest request.macDigest "RevealCached request" with
      | .error error => .error error
      | .ok _ => match loadNode hashes.sha256 inner request.key.channelIndex index.get with
        | none => .error (.notFound "cached reveal node is not stored")
        | some node => .ok node

/-- The second part of `complete_peer_cached_reveal`: the channel's parameters are compared, and the
node is opened with the peer's share. -/
def openCachedRequest (hashes : Hashes) (inner : Inner) (request : RevealCachedRequest)
    (node : Ag2pcSecureWires) :
    Except DaemonError (RevealNodeContext × RevealCachedResponse × Value32) := do
  let context ← revealNodeContext hashes inner request.key.channelIndex request.key.requestedIndex
  if request.sspTarget ≠ context.sspTarget ∨
      request.deltaLifetimeCheckedUnitsCap ≠ context.deltaLifetimeCheckedUnitsCap ∨
      request.publicBinding ≠ context.publicBinding then
    throw (.refused "cached reveal binding does not match local channel")
  let digest ← parseMacDigest request.macDigest "RevealCached request"
  let share ← (revealNodeLocalShare hashes.sha256 node).mapError .party
  let opened ← (revealNodeFromPeerShare hashes.sha256 node context.delta request.shareBits
    digest).mapError .party
  return (context, ⟨share.shareBits, share.macDigest.bytes.toList⟩, opened.value)

/-- A handler fails: the local call gets the text of the error. -/
def RevealState.failHandler (s : RevealState) (id : ℕ) (handler : RevealHandler) (channel : ℕ)
    (error : DaemonError) : RevealState :=
  (s.setHandler id handler (.done (.error error))).answer channel
    (.delivered (.error (.refused error.message)))

/-- The last part of `complete_peer_cached_reveal` and of `handle_peer_cached_reveal`: the secret is
stored, the local call gets it, and the peer the share. -/
def RevealState.finishHandler (hashes : Hashes) (s : RevealState) (id : ℕ) (handler : RevealHandler)
    (channel : ℕ) (context : RevealNodeContext) (response : RevealCachedResponse) (value : Value32)
    (written : Bool) : RevealState :=
  match Index48.new handler.request.key.requestedIndex with
  | .error error => s.failHandler id handler channel (.parse error.message)
  | .ok index => match s.inner.storeKnownSecret hashes.sha256 handler.request.key.channelIndex index
      handler.request.key.expectedNextIndex value with
    | .error error => s.failHandler id handler channel error
    | .ok (inner, _) =>
      if written then
        let answered := (s.setHandler id handler (.done (.ok response))).answer channel
          (.delivered (.ok value))
        { answered with
          inner := inner
          log := .released id handler.request context response :: s.log }
      else { s with inner := inner }.failHandler id handler channel writerStopped

/-- One step of `handle_peer_cached_reveal` after it has taken the authorization. -/
def RevealState.work (hashes : Hashes) (s : RevealState) (id : ℕ) (handler : RevealHandler)
    (written : Bool) : Option RevealState :=
  match handler.pc with
  | .took channel => some (match checkCachedRequest hashes s.inner handler.request with
    | .error error => s.failHandler id handler channel error
    | .ok node => s.setHandler id handler (.loaded channel node))
  | .loaded channel node => some (match openCachedRequest hashes s.inner handler.request node with
    | .error error => s.failHandler id handler channel error
    | .ok (context, response, value) =>
      { s.setHandler id handler (.opened channel context response value) with
        log := .compared id s.inner handler.request context :: s.log })
  | .opened channel context response value =>
    some (s.finishHandler hashes id handler channel context response value written)
  | _ => none

/-- The authorization is registered by a call which has not returned and was not dropped. -/
def RevealState.owned (s : RevealState) (key : RevealRequestKey) (channel : ℕ) : Bool :=
  s.calls.any fun call => call.key = key ∧ call.pc.channel = some channel

/-- One step of the daemon's reveal tasks. -/
def RevealState.step (hashes : Hashes) (s : RevealState) : RevealLabel → Option RevealState
  | .call key => some { s with calls := s.calls ++ [⟨key, .fresh⟩] }
  | .step id input => s.calls[id]?.bind fun call =>
    if s.admits call.pc input then
      (revealStep hashes s.inner s.pending s.nextChannel call.key call.pc input).map
        (s.afterCall id call)
    else none
  | .incoming request => some { s with handlers := s.handlers ++ [⟨request, .waiting⟩] }
  | .take id => s.handlers[id]?.bind fun handler =>
    if handler.pc = .waiting then
      (s.pending handler.request.key).map fun channel =>
        { s.setHandler id handler (.took channel) with
          pending := Function.update s.pending handler.request.key none
          log := .consumed id handler.request.key channel
            (s.owned handler.request.key channel) :: s.log }
    else none
  | .authorizationTimer id => s.handlers[id]?.bind fun handler =>
    if handler.pc = .waiting then
      some (s.setHandler id handler
        (.done (.error (.refused "cached reveal needs matching local authorization"))))
    else none
  | .work id written => s.handlers[id]?.bind fun handler => s.work hashes id handler written
  | .dropHandler id => s.handlers[id]?.bind fun handler => match handler.pc with
    | .done _ | .dropped => none
    | _ => some (match handler.pc.channel with
      | some channel => (s.setHandler id handler .dropped).answer channel .closed
      | none => s.setHandler id handler .dropped)
  | .memory inner => some { s with inner := inner }

end Shachain2pc
