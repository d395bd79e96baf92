import Shachain2pc.Lib.DecimalMap
import Shachain2pc.Party.Reveal

/-!
# Channel records and their stored form

The daemon keeps one record per channel in memory and mirrors it into a table of small
records: the channel's scalars, each known secret, and each frontier node. Every operation
returns the mutations which bring the table up to date with the memory it has just
changed.

Hex strings are modelled by the bytes they encode, and map keys by the number whose
canonical decimal they are.
-/

namespace Shachain2pc

open Std

/-- The persisted part of the authenticated wires of one node. -/
structure SerializableWires where
  lambda : List UInt8
  mac : List Block
  key : List Block
  deriving DecidableEq, Repr

/-- A frontier node with the bindings it was stored under. -/
structure WireRecord where
  publicBinding : Value32
  localBinding : Value32
  wires : SerializableWires
  deriving DecidableEq, Repr

structure ChannelScalars where
  enabled : Bool
  lastObservedNextRevealIndex : Option ℕ
  precomputeTarget : ℕ
  sspTarget : ℕ
  deltaLifetimeCheckedUnitsCap : ℕ
  estimatedCheckedUnits : ℕ
  attemptedCheckedUnits : ℕ
  failedPrecomputeJobs : ℕ
  deriving DecidableEq, Repr

structure ChannelRecord where
  enabled : Bool
  lastObservedNextRevealIndex : Option ℕ
  precomputeTarget : ℕ
  sspTarget : ℕ
  deltaLifetimeCheckedUnitsCap : ℕ
  frontierNodes : DecimalMap WireRecord
  knownSecrets : DecimalMap Value32
  estimatedCheckedUnits : ℕ
  attemptedCheckedUnits : ℕ
  failedPrecomputeJobs : ℕ
  deriving DecidableEq

structure PlainDb where
  channels : DecimalMap ChannelRecord
  deriving DecidableEq

/-- `PlainDb::default`. -/
def PlainDb.default : PlainDb := ⟨∅⟩

/-- `u64::saturating_add`. -/
def saturatingAdd (a b : ℕ) : ℕ := min (a + b) (2 ^ 64 - 1)

/-- `DEFAULT_SSP_TARGET`. -/
def defaultSspTarget : ℕ := 40

/-- `DEFAULT_DELTA_CAP`. -/
def defaultDeltaCap : ℕ := 2 ^ 32

/-- `ChannelRecord::scalars`. -/
def ChannelRecord.scalars (channel : ChannelRecord) : ChannelScalars where
  enabled := channel.enabled
  lastObservedNextRevealIndex := channel.lastObservedNextRevealIndex
  precomputeTarget := channel.precomputeTarget
  sspTarget := channel.sspTarget
  deltaLifetimeCheckedUnitsCap := channel.deltaLifetimeCheckedUnitsCap
  estimatedCheckedUnits := channel.estimatedCheckedUnits
  attemptedCheckedUnits := channel.attemptedCheckedUnits
  failedPrecomputeJobs := channel.failedPrecomputeJobs

/-- `ChannelRecord::apply_scalars`. -/
def ChannelRecord.applyScalars (channel : ChannelRecord) (scalars : ChannelScalars) :
    ChannelRecord where
  enabled := scalars.enabled
  lastObservedNextRevealIndex := scalars.lastObservedNextRevealIndex
  precomputeTarget := scalars.precomputeTarget
  sspTarget := scalars.sspTarget
  deltaLifetimeCheckedUnitsCap := scalars.deltaLifetimeCheckedUnitsCap
  frontierNodes := channel.frontierNodes
  knownSecrets := channel.knownSecrets
  estimatedCheckedUnits := scalars.estimatedCheckedUnits
  attemptedCheckedUnits := scalars.attemptedCheckedUnits
  failedPrecomputeJobs := scalars.failedPrecomputeJobs

/-- `empty_channel_record`. -/
def emptyChannelRecord : ChannelRecord where
  enabled := false
  lastObservedNextRevealIndex := none
  precomputeTarget := 0
  sspTarget := defaultSspTarget
  deltaLifetimeCheckedUnitsCap := defaultDeltaCap
  frontierNodes := ∅
  knownSecrets := ∅
  estimatedCheckedUnits := 0
  attemptedCheckedUnits := 0
  failedPrecomputeJobs := 0

/-- The record type byte of a stored record. -/
inductive RecordType where
  | metadata
  | channel
  | secret
  | frontier
  deriving DecidableEq, Repr

/-- The address of a record before the keyed hash hides it. -/
structure LogicalKey where
  recordType : RecordType
  channelIndex : ℕ
  subId : ℕ
  deriving DecidableEq, Repr

/-- `LogicalKey::meta`. -/
def LogicalKey.metadata : LogicalKey := ⟨.metadata, 0, 0⟩

/-- `LogicalKey::channel`. -/
def LogicalKey.channel (channelIndex : ℕ) : LogicalKey := ⟨.channel, channelIndex, 0⟩

/-- `LogicalKey::secret`. -/
def LogicalKey.secret (channelIndex index : ℕ) : LogicalKey := ⟨.secret, channelIndex, index⟩

/-- `LogicalKey::frontier`. -/
def LogicalKey.frontier (channelIndex mask : ℕ) : LogicalKey := ⟨.frontier, channelIndex, mask⟩

inductive StoredPayload where
  | metadata (verifier : String)
  | channel (scalars : ChannelScalars)
  | secret (secret : Value32)
  | frontier (wire : WireRecord)
  deriving DecidableEq, Repr

structure StoredRecord where
  recordType : RecordType
  channelIndex : ℕ
  subId : ℕ
  payload : StoredPayload
  deriving DecidableEq, Repr

inductive Mutation where
  | upsert (key : LogicalKey) (record : StoredRecord)
  | delete (key : LogicalKey)
  deriving DecidableEq, Repr

/-- The record a mutation writes. -/
def Mutation.key : Mutation → LogicalKey
  | .upsert key _ => key
  | .delete key => key

/-- `upsert_channel_mutation`. -/
def upsertChannelMutation (channelIndex : ℕ) (channel : ChannelRecord) : Mutation :=
  .upsert (.channel channelIndex) ⟨.channel, channelIndex, 0, .channel channel.scalars⟩

/-- `upsert_secret_mutation`. -/
def upsertSecretMutation (channelIndex index : ℕ) (secret : Value32) : Mutation :=
  .upsert (.secret channelIndex index) ⟨.secret, channelIndex, index, .secret secret⟩

/-- `upsert_frontier_mutation`. -/
def upsertFrontierMutation (channelIndex mask : ℕ) (record : WireRecord) : Mutation :=
  .upsert (.frontier channelIndex mask) ⟨.frontier, channelIndex, mask, .frontier record⟩

/-- `delete_secret_mutation`. -/
def deleteSecretMutation (channelIndex index : ℕ) : Mutation :=
  .delete (.secret channelIndex index)

/-- `delete_frontier_mutation`. -/
def deleteFrontierMutation (channelIndex mask : ℕ) : Mutation :=
  .delete (.frontier channelIndex mask)

end Shachain2pc
