import Shachain2pc.Types.Bytes
import Shachain2pc.Daemon.Table
import Mathlib.Algebra.Group.Nat.Defs

/-!
# The state behind the daemon's lock

The configuration, the channel records, and the active jobs are read and written under one
lock. The bindings a frontier node is stored under are hashes of public parameters of the
channel; the local one also names the role.
-/

namespace Shachain2pc

open Std

structure DaemonConfig where
  role : Role
  peerUrl : Option String
  workers : ℕ
  precompute : ℕ
  deriving DecidableEq, Repr

structure JobRecord where
  channelIndex : ℕ
  kind : String
  state : String
  plannedCheckedUnits : ℕ
  deriving DecidableEq, Repr

/-- `Inner`, without the control cookie. -/
structure Inner where
  cfg : DaemonConfig
  masterSecret : List UInt8
  db : PlainDb
  activeJobs : ExtTreeMap String JobRecord
  nextJobId : ℕ

/-- The bytes of an ASCII text. -/
def asciiBytes (text : String) : List UInt8 := text.toList.map fun c => UInt8.ofNat c.toNat

/-- `PROTOCOL_VERSION`. -/
def protocolVersion : ℕ := 1

/-- `public_binding`. -/
def publicBinding (sha256 : List UInt8 → Value32) (channelIndex mask sspTarget cap : ℕ) : Value32 :=
  sha256 (asciiBytes "shachain2pc frontier public binding v1" ++ leBytes 8 channelIndex ++
    leBytes 8 mask ++ leBytes 4 sspTarget ++ leBytes 8 cap ++ leBytes 4 protocolVersion)

/-- The local binding that `binding_pair` returns beside a public one. -/
def localBinding (sha256 : List UInt8 → Value32) (role : Role) (publicBinding : Value32) :
    Value32 :=
  sha256 (asciiBytes "shachain2pc frontier local binding v1" ++ publicBinding.bytes.toList ++
    [role.partyId])

/-- The bindings of a node of a channel. -/
def ChannelRecord.bindings (sha256 : List UInt8 → Value32) (channel : ChannelRecord) (role : Role)
    (channelIndex mask : ℕ) : Value32 × Value32 :=
  let binding := publicBinding sha256 channelIndex mask channel.sspTarget
    channel.deltaLifetimeCheckedUnitsCap
  (binding, localBinding sha256 role binding)

/-- `binding_pair`, which expects the channel to exist. -/
def bindingPair (sha256 : List UInt8 → Value32) (inner : Inner) (channelIndex mask : ℕ) :
    Except DaemonError (Value32 × Value32) :=
  match inner.db.channels[channelIndex]? with
  | none => .error (.panicked "channel exists for binding")
  | some channel => .ok (channel.bindings sha256 inner.cfg.role channelIndex mask)

/-- `from_secure_wires`. -/
def SerializableWires.fromSecureWires (wires : Ag2pcSecureWires) : SerializableWires where
  lambda := wires.lambda
  mac := wires.wireBundle.map (·.mac)
  key := wires.wireBundle.map (·.key)

/-- `to_secure_wires`. -/
def SerializableWires.toSecureWires (wires : SerializableWires) : Ag2pcSecureWires where
  lambda := wires.lambda
  wireBundle := List.zipWith AShareBundle.mk wires.mac wires.key
  label0 := []
  evalLabel := []

/-- The record stored for a node under given bindings. -/
def WireRecord.ofWires (bindings : Value32 × Value32) (wires : Ag2pcSecureWires) : WireRecord where
  publicBinding := bindings.1
  localBinding := bindings.2
  wires := .fromSecureWires wires

/-- The record was stored under the given bindings. -/
def WireRecord.BoundBy (record : WireRecord) (bindings : Value32 × Value32) : Prop :=
  record.publicBinding = bindings.1 ∧ record.localBinding = bindings.2

instance (record : WireRecord) (bindings : Value32 × Value32) :
    Decidable (record.BoundBy bindings) := inferInstanceAs (Decidable (_ ∧ _))

/-- `load_node`: a node stored under other bindings is not returned. -/
def loadNode (sha256 : List UInt8 → Value32) (inner : Inner) (channelIndex mask : ℕ) :
    Option Ag2pcSecureWires :=
  match inner.db.channels[channelIndex]? with
  | none => none
  | some channel => match channel.frontierNodes[mask]? with
    | none => none
    | some record =>
      if record.BoundBy (channel.bindings sha256 inner.cfg.role channelIndex mask) then
        some record.wires.toSecureWires
      else none

/-- Some active job works on the channel. -/
def Inner.hasActiveJob (inner : Inner) (channelIndex : ℕ) : Bool :=
  inner.activeJobs.toList.any fun job => job.2.channelIndex == channelIndex

/-- The checked units reserved by the active jobs of a channel. -/
def Inner.reserved (inner : Inner) (channelIndex : ℕ) : ℕ :=
  (inner.activeJobs.toList.filter fun job => job.2.channelIndex == channelIndex).foldl
    (fun total job => total + job.2.plannedCheckedUnits) 0

/-- Store a channel record. -/
def Inner.setChannel (inner : Inner) (channelIndex : ℕ) (channel : ChannelRecord) : Inner :=
  { inner with db := inner.db.setChannel channelIndex channel }

/-- The bindings of an existing channel. -/
theorem bindingPair_of_channel {sha256 : List UInt8 → Value32} {inner : Inner} {c : ℕ}
    {channel : ChannelRecord} (hc : inner.db.channels[c]? = some channel) (mask : ℕ) :
    bindingPair sha256 inner c mask = .ok (channel.bindings sha256 inner.cfg.role c mask) := by
  rw [bindingPair, hc]

end Shachain2pc
