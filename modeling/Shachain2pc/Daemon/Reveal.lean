import Shachain2pc.Daemon.Channels
import Shachain2pc.Daemon.Keys

/-!
# Revealing a secret

A reveal call answers from the known secrets, opens a cached node with the peer, or derives
the secret in full. To open a node at index other than zero, Alice sends her share and Bob
registers a pending authorization and waits until Alice's request has consumed it.

The call is a task: it runs from one await to the next, and other tasks may run between.
`RevealPc` says where a call awaits, and `RevealInput` what ends the wait. Results of
multi-party computations, the peer's answers, timers, and cancellation by the client are
inputs.
-/

namespace Shachain2pc

/-- The arguments of a reveal, which also key the pending authorizations. -/
structure RevealRequestKey where
  channelIndex : ℕ
  requestedIndex : ℕ
  expectedNextIndex : ℕ
  allowSeedReveal : Bool
  deriving DecidableEq, Repr

structure RevealResponse where
  channelIndex : ℕ
  index : ℕ
  secret : Value32
  fromCache : Bool
  source : String
  deriving DecidableEq, Repr

structure RevealCachedRequest where
  key : RevealRequestKey
  shareBits : List UInt8
  macDigest : List UInt8
  sspTarget : ℕ
  deltaLifetimeCheckedUnitsCap : ℕ
  publicBinding : Value32
  deriving DecidableEq, Repr

structure RevealCachedResponse where
  shareBits : List UInt8
  macDigest : List UInt8
  deriving DecidableEq, Repr

/-- What `reveal_node_context` reads of a channel. -/
structure RevealNodeContext where
  delta : Block
  sspTarget : ℕ
  deltaLifetimeCheckedUnitsCap : ℕ
  publicBinding : Value32
  deriving DecidableEq, Repr

/-- The hash functions of the daemon. -/
structure Hashes where
  sha256 : List UInt8 → Value32
  hmacSha256 : List UInt8 → List UInt8 → Value32

/-- SHA-256 of a value, as the derivation of secrets uses it. -/
def Hashes.onValue (hashes : Hashes) (v : Value32) : Value32 := hashes.sha256 v.bytes.toList

/-- The text of an error. Only errors of the daemon and the party crate are turned into texts by
the modelled code. -/
def DaemonError.message : DaemonError → String
  | .crypto message | .parse message | .notFound message | .refused message => message
  | .party error => error.message
  | .tonicStatus _ message | .panicked message => message

/-- `to_status`. -/
def toStatus : DaemonError → DaemonError
  | .notFound message => .tonicStatus .notFound message
  | .refused message | .parse message => .tonicStatus .invalidArgument message
  | other => .tonicStatus .internal other.message

/-- `str::contains`. -/
def textContains (text pattern : String) : Bool :=
  text.toList.tails.any (pattern.toList.isPrefixOf ·)

/-- `is_cached_reveal_cache_miss`. -/
def isCachedRevealCacheMiss : DaemonError → Bool
  | .notFound message => textContains message "cached reveal node is not stored"
  | .refused message => textContains message "cached reveal node is not stored" ||
      textContains message "timed out waiting for peer cached reveal"
  | .tonicStatus code message => (code == .notFound || code == .invalidArgument) &&
      textContains message "cached reveal node is not stored"
  | _ => false

/-- `parse_mac_digest`. -/
def parseMacDigest (bytes : List UInt8) (context : String) : Except DaemonError Value32 :=
  if bytes.length ≠ 32 then .error (.parse s!"{context} MAC digest must be 32 bytes")
  else .ok (.ofList bytes)

/-- `reveal_node_context`. -/
def revealNodeContext (hashes : Hashes) (inner : Inner) (channelIndex mask : ℕ) :
    Except DaemonError RevealNodeContext :=
  match inner.db.channels[channelIndex]? with
  | none => .error (.notFound "channel is not enabled")
  | some channel =>
    if ¬ channel.enabled then .error (.refused "channel is disabled")
    else .ok
      { delta := channelDelta hashes.hmacSha256 inner.masterSecret channelIndex inner.cfg.role
        sspTarget := channel.sspTarget
        deltaLifetimeCheckedUnitsCap := channel.deltaLifetimeCheckedUnitsCap
        publicBinding := (channel.bindings hashes.sha256 inner.cfg.role channelIndex mask).1 }

/-- The check with which `job_context` and `run_full_derivation` start a computation. -/
def checkEnabled (inner : Inner) (channelIndex : ℕ) : Except DaemonError Unit :=
  match inner.db.channels[channelIndex]? with
  | none => .error (.notFound "channel is not enabled")
  | some channel => if ¬ channel.enabled then .error (.refused "channel is disabled") else .ok ()

/-- The error of a send to a writer which has stopped. -/
def writerStopped : DaemonError := .crypto "DB writer stopped"

/-- The calls of `reveal_cached_node`: before the reconciliation, after it, and on the root. -/
inductive Attempt where
  | first
  | second
  | root (fromCache : Bool)
  deriving DecidableEq, Repr

/-- Where a reveal call awaits. A call which waits for the peer names the oneshot channel it
registered. -/
inductive RevealPc where
  | fresh
  | loadFirst
  | cached (attempt : Attempt) (node : Ag2pcSecureWires)
  | requested (attempt : Attempt) (node : Ag2pcSecureWires) (delta : Block)
  | waiting (attempt : Attempt) (channel : ℕ)
  | timedOut (attempt : Attempt) (channel : ℕ)
  | persisted (attempt : Attempt)
  | reconcile
  | loadSecond
  | ensureRoot
  | rootJob
  | fullDerivation
  | store (secret : Value32) (fromCache : Bool) (source : String)
  | done (result : Except DaemonError RevealResponse)
  | dropped
  deriving DecidableEq

/-- What ends a wait: the lock is granted, or something arrives. `written` says whether the
writer still takes the mutations of the critical section. -/
inductive RevealInput where
  | lock
  | written (written : Bool)
  | response (result : Except DaemonError RevealCachedResponse)
  | authorized (result : Except DaemonError Value32)
  | senderDropped
  | timer
  | frontier (result : Except DaemonError (Option GetFrontierResponse)) (written : Bool)
  | opened (result : Except DaemonError Value32)
  | root (result : Except DaemonError Ag2pcSecureWires) (written : Bool)
  | drop
  deriving DecidableEq

/-- The pending authorizations, by the oneshot channel each one answers on. -/
abbrev PendingReveals := RevealRequestKey → Option ℕ

/-- What a call sends to the peer that can open a secret. -/
inductive Opening where
  | request (request : RevealCachedRequest)
  | persistedNode
  | fullDerivation
  deriving DecidableEq

/-- What a step of a call leaves: its next wait, the memory, the pending authorizations and
whether it registered one, the oneshot channel whose sender it dropped, and what it sent. -/
structure RevealEffect where
  pc : RevealPc
  inner : Inner
  pending : PendingReveals
  registered : Bool
  closed : Option ℕ
  opening : Option Opening

/-- The effect of a step which only moves the call. -/
def RevealEffect.goto (inner : Inner) (pending : PendingReveals) (pc : RevealPc) : RevealEffect :=
  ⟨pc, inner, pending, false, none, none⟩

/-- Where a failed cached open continues: a cache miss of the first attempt is reconciled. -/
def afterCachedError (attempt : Attempt) (error : DaemonError) : RevealPc :=
  if attempt = .first ∧ isCachedRevealCacheMiss error then .reconcile else .done (.error error)

/-- Where a successful cached open continues. -/
def afterCachedOpen (attempt : Attempt) (secret : Value32) : RevealPc :=
  match attempt with
  | .first | .second => .store secret true "frontier"
  | .root true => .store secret true "frontier"
  | .root false => .store secret false "seed_root"

/-- Where a cached open continues. -/
def afterCached (attempt : Attempt) : Except DaemonError Value32 → RevealPc
  | .ok secret => afterCachedOpen attempt secret
  | .error error => afterCachedError attempt error

/-- The checks of `reveal` before it loads a node. -/
def revealGate (hashes : Hashes) (inner : Inner) (key : RevealRequestKey) : RevealPc :=
  match Index48.new key.requestedIndex with
  | .error error => .done (.error (.parse error.message))
  | .ok index =>
    if index.get = 0 ∧ ¬ key.allowSeedReveal then
      .done (.error (.refused "I=0 reveals the seed; pass allow_seed_reveal to proceed"))
    else match deriveKnown hashes.onValue inner.db key.channelIndex index with
      | some secret => .done (.ok ⟨key.channelIndex, index.get, secret, true, "known"⟩)
      | none =>
        if key.requestedIndex ≠ key.expectedNextIndex then
          .done (.error (.refused
            "requested index must match expected_next_index unless locally derivable"))
        else .loadFirst

/-- `reveal_persisted_node`, up to its await: the start of a computation which opens the node. -/
def revealPersistedNode (inner : Inner) (pending : PendingReveals) (channelIndex : ℕ)
    (attempt : Attempt) : RevealEffect :=
  match checkEnabled inner channelIndex with
  | .error error => .goto inner pending (afterCachedError attempt error)
  | .ok () => { RevealEffect.goto inner pending (.persisted attempt) with
      opening := some .persistedNode }

/-- `reveal_cached_node`, up to its await: the start of a computation, the request to the peer, or
the registration of a pending authorization on a new channel. -/
def revealCachedNode (hashes : Hashes) (inner : Inner) (pending : PendingReveals) (channel : ℕ)
    (key : RevealRequestKey) (attempt : Attempt) (node : Ag2pcSecureWires) : RevealEffect :=
  let goto := RevealEffect.goto inner pending
  if key.requestedIndex = 0 then revealPersistedNode inner pending key.channelIndex attempt
  else match inner.cfg.role, inner.cfg.peerUrl with
    | .alice, some _ =>
      match revealNodeContext hashes inner key.channelIndex key.requestedIndex with
      | .error error => goto (afterCachedError attempt error)
      | .ok context => match revealNodeLocalShare hashes.sha256 node with
        | .error error => goto (afterCachedError attempt (.party error))
        | .ok share => { goto (.requested attempt node context.delta) with
          opening := some (.request
            { key := key
              shareBits := share.shareBits
              macDigest := share.macDigest.bytes.toList
              sspTarget := context.sspTarget
              deltaLifetimeCheckedUnitsCap := context.deltaLifetimeCheckedUnitsCap
              publicBinding := context.publicBinding }) }
    | .bob, some _ =>
      match revealNodeLocalShare hashes.sha256 node with
      | .error error => goto (afterCachedError attempt (.party error))
      | .ok _ =>
        -- The entry is replaced before the duplicate is refused.
        let pending' := Function.update pending key (some channel)
        match pending key with
        | some old =>
          ⟨afterCachedError attempt (.refused "cached reveal is already pending"), inner,
            pending', true, some old, none⟩
        | none => ⟨.waiting attempt channel, inner, pending', true, none, none⟩
    | _, none => revealPersistedNode inner pending key.channelIndex attempt

/-- The answer of the peer to a `RevealCached` request, opened with the call's own node. -/
def openResponse (hashes : Hashes) (node : Ag2pcSecureWires) (delta : Block)
    (response : RevealCachedResponse) : Except DaemonError Value32 := do
  let digest ← parseMacDigest response.macDigest "RevealCached response"
  match revealNodeFromPeerShare hashes.sha256 node delta response.shareBits digest with
  | .error error => .error (.party error)
  | .ok opened => .ok opened.value

/-- The store of a revealed secret with which every opened call ends. -/
def storeAndRespond (hashes : Hashes) (inner : Inner) (pending : PendingReveals)
    (key : RevealRequestKey) (secret : Value32) (fromCache : Bool) (source : String)
    (written : Bool) : RevealEffect :=
  match Index48.new key.requestedIndex with
  | .error error => .goto inner pending (.done (.error (.parse error.message)))
  | .ok index =>
    match inner.storeKnownSecret hashes.sha256 key.channelIndex index key.expectedNextIndex
        secret with
    | .error error => .goto inner pending (.done (.error error))
    | .ok (inner, _) => .goto inner pending (.done (if written then
        .ok ⟨key.channelIndex, index.get, secret, fromCache, source⟩ else .error writerStopped))

/-- One step of `reveal`, from one await to the next; a registration uses the new channel. -/
def revealStep (hashes : Hashes) (inner : Inner) (pending : PendingReveals) (channel : ℕ)
    (key : RevealRequestKey) (pc : RevealPc) (input : RevealInput) : Option RevealEffect :=
  let goto := RevealEffect.goto inner pending
  match pc, input with
  | .done _, _ | .dropped, _ => none
  | _, .drop => some (goto .dropped)
  | .fresh, .lock => some (goto (revealGate hashes inner key))
  | .loadFirst, .lock =>
    some (goto (match loadNode hashes.sha256 inner key.channelIndex key.requestedIndex with
      | some node => .cached .first node
      | none => .reconcile))
  | .cached attempt node, .lock =>
    some (revealCachedNode hashes inner pending channel key attempt node)
  | .requested attempt node delta, .response result =>
    some (goto (afterCached attempt (result.bind (openResponse hashes node delta))))
  | .waiting attempt _, .authorized result => some (goto (afterCached attempt result))
  | .waiting attempt _, .senderDropped =>
    some (goto (afterCachedError attempt (.refused "cached reveal peer handler stopped")))
  | .waiting attempt channel, .timer => some (goto (.timedOut attempt channel))
  | .timedOut attempt _, .lock =>
    -- Whatever entry the key has by now is removed.
    some ⟨afterCachedError attempt (.refused "timed out waiting for peer cached reveal"), inner,
      Function.update pending key none, false, pending key, none⟩
  | .persisted attempt, .opened result => some (goto (afterCached attempt result))
  | .reconcile, .frontier result written => match result with
    | .error error => some (goto (.done (.error error)))
    | .ok response =>
      let result := reconcileWithPeer inner key.channelIndex response
      some (.goto result.1 pending (if written ∨ result.2 = [] then .loadSecond
        else .done (.error writerStopped)))
  | .loadSecond, .lock =>
    some (match loadNode hashes.sha256 inner key.channelIndex key.requestedIndex with
      | some node => goto (.cached .second node)
      | none =>
        if key.requestedIndex = 0 then goto .ensureRoot
        else match checkEnabled inner key.channelIndex with
          | .error error => goto (.done (.error error))
          | .ok () => { goto .fullDerivation with opening := some .fullDerivation })
  | .ensureRoot, .lock =>
    some (goto (match loadNode hashes.sha256 inner key.channelIndex 0 with
      | some node => .cached (.root true) node
      | none => match checkEnabled inner key.channelIndex with
        | .error error => .done (.error error)
        | .ok () => .rootJob))
  | .rootJob, .root result written => match result with
    | .error error => some (goto (.done (.error error)))
    | .ok wires => match storeNode hashes.sha256 inner key.channelIndex 0 wires with
      | .error error => some (goto (.done (.error error)))
      | .ok (inner, _) => some (.goto inner pending (if written then .cached (.root false) wires
          else .done (.error writerStopped)))
  | .fullDerivation, .opened result => match result with
    | .error error => some (goto (.done (.error error)))
    | .ok secret => some (goto (.store secret false "full_derivation"))
  | .store secret fromCache source, .written written =>
    some (storeAndRespond hashes inner pending key secret fromCache source written)
  | _, _ => none

end Shachain2pc
