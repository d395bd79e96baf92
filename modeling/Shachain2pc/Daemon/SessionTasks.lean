import Shachain2pc.Daemon.Sessions
import Shachain2pc.Lib.Runs

/-!
# The tasks of precompute sessions on one daemon

An incoming session is a task which the registration of its second stream spawns and then
enters, with its abort handle, under its channel. An outgoing session is set up by a call
and entered, with its command sender, under its channel; it runs while a sender is left and
no command failed. Disabling a channel removes both entries. Enabling, disabling, setups,
registrations and tasks run in any order; other critical sections change the memory between
any two steps.
-/

namespace Shachain2pc

open Std
open Runs (run Along)

/-- Where the task of an incoming session is. -/
inductive IncomingPhase where
  | starting
  | running
  | returned
  | finished
  | aborted
  deriving DecidableEq, Repr

/-- The task can take a step. -/
def IncomingPhase.alive : IncomingPhase → Bool
  | .starting | .running | .returned => true
  | .finished | .aborted => false

structure IncomingTask where
  descriptor : GrpcJobDescriptor
  phase : IncomingPhase
  deriving DecidableEq, Repr

structure OutgoingSession where
  channelIndex : ℕ
  failed : Bool
  deriving DecidableEq, Repr

/-- Where a call that uses a session for a channel awaits. -/
inductive SetupPc where
  | lookup
  | check
  | setup (descriptor : GrpcJobDescriptor)
  | holding (session : ℕ)
  | dropOutgoing (session : ℕ)
  | dropIncoming (session : ℕ)
  | done
  deriving DecidableEq, Repr

/-- The session whose sender a call holds. -/
def SetupPc.session : SetupPc → Option ℕ
  | .holding session | .dropOutgoing session | .dropIncoming session => some session
  | _ => none

structure SetupCall where
  channelIndex : ℕ
  peer : PeerFrontierConfig
  pc : SetupPc
  deriving DecidableEq, Repr

/-- Where `disable_channel` awaits after it released the lock. -/
inductive DisablePc where
  | writing
  | dropIncoming
  | done
  deriving DecidableEq, Repr

/-- A call of `disable_channel`; `superseded` tells that the channel was enabled since. -/
structure DisableCall where
  channelIndex : ℕ
  pc : DisablePc
  superseded : Bool
  deriving DecidableEq, Repr

/-- A registration which awaits after it spawned the task of a session, or after it entered it in
place of an older one. -/
inductive Registering where
  | spawned (task : ℕ)
  | entered (old : Option ℕ)
  deriving DecidableEq, Repr

/-- The sessions of one daemon, its calls and tasks. `quiet` tells that `disable_channel` returned
for a channel which was not enabled since it was disabled. -/
structure Sessions (Stream : Type) where
  inner : Inner
  grpcJobs : GrpcJobs Stream
  registering : Option Registering
  incomingPrecomputeSessions : ExtTreeMap ℕ ℕ
  precomputeSessions : ExtTreeMap ℕ ℕ
  tasks : List IncomingTask
  outgoing : List OutgoingSession
  calls : List SetupCall
  disabling : List DisableCall
  quiet : ℕ → Bool

inductive SessionLabel (Stream : Type) where
  | accept (descriptor : GrpcJobDescriptor) (channel : ℕ) (stream : Stream) (suspended : Bool)
  | enter
  | abortOld
  | dropRegistration
  | beginTask (task : ℕ)
  | returnTask (task : ℕ)
  | unregister (task : ℕ)
  | call (channelIndex : ℕ) (peer : PeerFrontierConfig)
  | lookup (call : ℕ)
  | check (call : ℕ)
  | setUp (call : ℕ)
  | failCommand (call : ℕ)
  | dropSession (call : ℕ)
  | release (call : ℕ)
  | disable (channelIndex : ℕ)
  | failWrite (disable : ℕ)
  | dropOutgoing (disable : ℕ)
  | returnDisable (disable : ℕ)
  | enable (req : EnableChannelRequest)
  | memory (inner : Inner)

namespace Sessions

variable {Stream : Type}

/-- A daemon with no session. -/
def start (inner : Inner) : Sessions Stream where
  inner := inner
  grpcJobs := fun _ => none
  registering := none
  incomingPrecomputeSessions := ∅
  precomputeSessions := ∅
  tasks := []
  outgoing := []
  calls := []
  disabling := []
  quiet := fun _ => false

/-- `live_session_count`. -/
def liveSessionCount (s : Sessions Stream) : ℕ :=
  s.precomputeSessions.size + s.incomingPrecomputeSessions.size

/-- The task of an incoming session of a channel is alive. -/
def incomingAlive (s : Sessions Stream) (task c : ℕ) : Bool :=
  s.tasks[task]?.any fun t => t.descriptor.channelIndex == c && t.phase.alive

/-- A call holds the sender of a session. -/
def held (s : Sessions Stream) (session : ℕ) : Bool :=
  s.calls.any fun call => call.pc.session == some session

/-- The task of an outgoing session of a channel is alive: no command failed, and a sender is
left. -/
def outgoingAlive (s : Sessions Stream) (session c : ℕ) : Bool :=
  s.outgoing[session]?.any (fun o => o.channelIndex == c && !o.failed) &&
    (s.precomputeSessions[c]? == some session || s.held session)

/-- Move an incoming task. -/
def setPhase (s : Sessions Stream) (task : ℕ) (phase : IncomingPhase) : Sessions Stream :=
  { s with tasks := s.tasks.modify task fun t => { t with phase := phase } }

/-- `AbortHandle::abort`: a task which is not finished takes no further step. -/
def abort (s : Sessions Stream) (task : ℕ) : Sessions Stream :=
  { s with tasks := s.tasks.modify task fun t =>
      { t with phase := if t.phase.alive then .aborted else t.phase } }

/-- Move a call. -/
def setCall (s : Sessions Stream) (k : ℕ) (pc : SetupPc) : Sessions Stream :=
  { s with calls := s.calls.modify k fun call => { call with pc := pc } }

/-- Move a call of `disable_channel`. -/
def setDisable (s : Sessions Stream) (k : ℕ) (pc : DisablePc) : Sessions Stream :=
  { s with disabling := s.disabling.modify k fun d => { d with pc := pc } }

/-- Spawn the task of a session whose streams have arrived. -/
def spawn (s : Sessions Stream) (job : ReadyJob Stream) : Sessions Stream :=
  { s with
    tasks := s.tasks ++ [⟨job.descriptor, .starting⟩]
    registering := some (.spawned s.tasks.length) }

/-- Enter the abort handle of a spawned task. -/
def enter (s : Sessions Stream) : Option (Sessions Stream) :=
  match s.registering with
  | some (.spawned task) => s.tasks[task]?.map fun t =>
    { s with
      incomingPrecomputeSessions :=
        s.incomingPrecomputeSessions.insert t.descriptor.channelIndex task
      registering := some (.entered s.incomingPrecomputeSessions[t.descriptor.channelIndex]?) }
  | _ => none

/-- Abort the session that the entered one replaced, and return. -/
def abortOld (s : Sessions Stream) : Option (Sessions Stream) :=
  match s.registering with
  | some (.entered old) => some { (old.elim s s.abort) with registering := none }
  | _ => none

/-- `register_incoming_job_stream`, which holds the lock of `grpc_jobs` until it returns. When it is
suspended, it is where it first awaits after it spawned a session. -/
def accept (s : Sessions Stream) (descriptor : GrpcJobDescriptor) (channel : ℕ) (stream : Stream)
    (suspended : Bool) : Option (Sessions Stream) :=
  if s.registering.isSome then none
  else
    let result := s.grpcJobs.register descriptor channel stream
    let s := { s with grpcJobs := result.1 }
    match result.2 with
    | .ok (some job) =>
      if suspended then some (s.spawn job) else (s.spawn job).enter.bind abortOld
    | _ => some s

/-- The entry of an outgoing session is dropped. -/
def dropOutgoing (s : Sessions Stream) (c : ℕ) : Sessions Stream :=
  { s with precomputeSessions := s.precomputeSessions.erase c }

/-- The entry of an incoming session is dropped, and its task aborted. -/
def dropIncoming (s : Sessions Stream) (c : ℕ) : Sessions Stream :=
  let s' := { s with incomingPrecomputeSessions := s.incomingPrecomputeSessions.erase c }
  s.incomingPrecomputeSessions[c]?.elim s' s'.abort

/-- The first critical section of `precompute_session_handle`. -/
def lookup (s : Sessions Stream) (k : ℕ) (call : SetupCall) : Sessions Stream :=
  match s.precomputeSessions[call.channelIndex]? with
  | some session =>
    if s.outgoing[session]?.any (fun o => !o.failed) then s.setCall k (.holding session)
    else (s.dropOutgoing call.channelIndex).setCall k .check
  | none => s.setCall k .check

/-- A set-up session is entered and spawned. -/
def setUp (s : Sessions Stream) (k : ℕ) (call : SetupCall) : Sessions Stream :=
  { s.setCall k (.holding s.outgoing.length) with
    outgoing := s.outgoing ++ [⟨call.channelIndex, false⟩]
    precomputeSessions := s.precomputeSessions.insert call.channelIndex s.outgoing.length }

/-- A command of a held session fails, and its task ends. -/
def failCommand (s : Sessions Stream) (k session : ℕ) : Sessions Stream :=
  { s.setCall k (.dropOutgoing session) with
    outgoing := s.outgoing.modify session fun o => { o with failed := true } }

/-- A step of a task, a call, or the memory. -/
def step (sha256 : List UInt8 → Value32) (s : Sessions Stream) :
    SessionLabel Stream → Option (Sessions Stream)
  | .accept descriptor channel stream suspended => s.accept descriptor channel stream suspended
  | .enter => s.enter
  | .abortOld => s.abortOld
  | .dropRegistration => match s.registering with
    | some (.spawned _) => some { s with registering := none }
    | _ => none
  | .beginTask task => s.tasks[task]?.bind fun t =>
    if t.phase = .starting then some <| s.setPhase task <|
      match beginIncomingPrecomputeSession sha256 s.inner t.descriptor with
      | .ok () => .running
      | .error _ => .returned
    else none
  | .returnTask task => s.tasks[task]?.bind fun t =>
    if t.phase = .running then some (s.setPhase task .returned) else none
  | .unregister task => s.tasks[task]?.bind fun t =>
    if t.phase = .returned then
      some { s.setPhase task .finished with
        incomingPrecomputeSessions := s.incomingPrecomputeSessions.erase t.descriptor.channelIndex }
    else none
  | .call c peer => some { s with calls := s.calls ++ [⟨c, peer, .lookup⟩] }
  | .lookup k => s.calls[k]?.bind fun call =>
    if call.pc = .lookup then some (s.lookup k call) else none
  | .check k => s.calls[k]?.bind fun call =>
    if call.pc = .check then
      match precomputeSessionDescriptor sha256 s.inner call.channelIndex call.peer with
      | .ok result => some { s.setCall k (.setup result.2) with inner := result.1 }
      | .error _ => some (s.setCall k .done)
    else none
  | .setUp k => s.calls[k]?.bind fun call => match call.pc with
    | .setup _ => some (s.setUp k call)
    | _ => none
  | .failCommand k => s.calls[k]?.bind fun call => match call.pc with
    | .holding session => some (s.failCommand k session)
    | _ => none
  | .dropSession k => s.calls[k]?.bind fun call => match call.pc with
    | .dropOutgoing session =>
      some ((s.dropOutgoing call.channelIndex).setCall k (.dropIncoming session))
    | .dropIncoming _ => some ((s.dropIncoming call.channelIndex).setCall k .done)
    | _ => none
  | .release k => some (s.setCall k .done)
  | .disable c => match disableChannel s.inner c with
    | .ok result =>
      some { s with inner := result.1, disabling := s.disabling ++ [⟨c, .writing, false⟩] }
    | .error _ => some s
  | .failWrite k => s.disabling[k]?.bind fun d =>
    if d.pc = .writing then some (s.setDisable k .done) else none
  | .dropOutgoing k => s.disabling[k]?.bind fun d =>
    if d.pc = .writing then some ((s.dropOutgoing d.channelIndex).setDisable k .dropIncoming)
    else none
  | .returnDisable k => s.disabling[k]?.bind fun d =>
    if d.pc = .dropIncoming then
      some { (s.dropIncoming d.channelIndex).setDisable k .done with
        quiet := if d.superseded then s.quiet else Function.update s.quiet d.channelIndex true }
    else none
  | .enable req =>
    some { s with
      inner := (enableChannel s.inner req).1
      disabling := s.disabling.map fun d =>
        if d.channelIndex = req.channelIndex then { d with superseded := true } else d
      quiet := Function.update s.quiet req.channelIndex false }
  | .memory inner => some { s with inner := inner }

/-- The incoming sessions that are alive. -/
def aliveTasks (s : Sessions Stream) : List ℕ :=
  (List.range s.tasks.length).filter fun task => s.tasks[task]?.any (·.phase.alive)

/-- The outgoing sessions that are alive. -/
def aliveSessions (s : Sessions Stream) : List ℕ :=
  (List.range s.outgoing.length).filter fun session =>
    s.outgoing[session]?.any fun o => s.outgoingAlive session o.channelIndex

/-- The entries are those of the sessions that are alive, which `live_session_count` counts, and no
session of a channel is alive once it was disabled and until it is enabled. -/
structure Tracked (s : Sessions Stream) : Prop where
  incoming : ∀ task c, s.incomingAlive task c = true ↔ s.incomingPrecomputeSessions[c]? = some task
  outgoing : ∀ session c, s.outgoingAlive session c = true ↔ s.precomputeSessions[c]? = some session
  count : s.liveSessionCount = s.aliveSessions.length + s.aliveTasks.length
  quiet : ∀ c, s.quiet c = true →
    (∀ task, s.incomingAlive task c = false) ∧ ∀ session, s.outgoingAlive session c = false

end Sessions

end Shachain2pc
