import Shachain2pc.Lib.Calls
import Shachain2pc.Lib.MaxByKey
import Shachain2pc.Compat.ChunkProgram
import Shachain2pc.Party.CacheMask

/-!
# A live precompute session

A session keeps the wires of the nodes it has computed in a cache with one entry for each
number of trailing zeros. A target starts from the best cached parent and makes one edge,
that is one program, for each bit which the parent lacks. The programs go to the 2PC
session, which is not modelled here: the session calls it as a service.
-/

namespace Shachain2pc

open Rust Calls MaxByKey

/-- `Ag2pcSecureWires::default`. -/
def Ag2pcSecureWires.default : Ag2pcSecureWires := ⟨[], [], [], []⟩

/-- `strip_labels_for_reveal`. -/
def Ag2pcSecureWires.stripLabelsForReveal (wires : Ag2pcSecureWires) : Ag2pcSecureWires :=
  { wires with label0 := [], evalLabel := [] }

/-- The wires of a node with its mask. -/
abbrev CachedNode := ℕ × Ag2pcSecureWires

/-- The cached nodes by the trailing zeros of their masks. -/
abbrev PrecomputeCache := ℕ → Option CachedNode

/-- The cached nodes, in the order of their keys; `trailing_zeros` is at most 64. -/
def PrecomputeCache.values (cache : PrecomputeCache) : List CachedNode :=
  (List.range 65).filterMap cache

/-- `prune_cache_for_target`. -/
def pruneCacheForTarget (cache : PrecomputeCache) (currentTarget : ℕ) : PrecomputeCache :=
  fun key => (cache key).filter fun node => retainCacheMaskForFuture node.1 currentTarget

/-- The node a target's path has reached; no wires are carried before the first edge. -/
structure PrecomputePath where
  mask : ℕ
  carried : Option Ag2pcSecureWires
  cache : PrecomputeCache

/-- What a session asks of the 2PC session: to run programs on wires. -/
abbrev ProgramCalls :=
  Calls (Ag2pcProgram × Ag2pcSecureWires) Ag2pcSecureWires (Failure ProgramError)

structure PrecomputeSession where
  sha : Circuit
  seedInputs : Ag2pcSecureWires
  cache : PrecomputeCache

namespace PrecomputeSession

/-- `setup_with_streams_and_circuit`, once the seed inputs are authenticated. -/
def setup (sha : Circuit) (seedInputs : Ag2pcSecureWires) : PrecomputeSession :=
  ⟨sha, seedInputs, fun _ => none⟩

/-- `best_parent`. -/
def bestParent (s : PrecomputeSession) (target : ℕ) : Option CachedNode :=
  maxByKey (fun node => countOnes node.1)
    (s.cache.values.filter fun node => canDeriveMask node.1 target)

/-- `missing_bits`. -/
def missingBits (s : PrecomputeSession) (target : ℕ) : List ℕ :=
  match s.bestParent target with
  | none => setBitsDesc target
  | some (parentMask, _) => setBitsDesc (target &&& notU64 parentMask)

/-- `planned_checked_units`. -/
def plannedCheckedUnits (s : PrecomputeSession) (index : Index48) : ℕ :=
  (s.missingBits index.get).length

/-- Where the path of a target starts: at the best parent, or at the seed. -/
def startPath (s : PrecomputeSession) (target : ℕ) : PrecomputePath :=
  match s.bestParent target with
  | some (mask, parent) => ⟨mask, some parent, s.cache⟩
  | none => ⟨0, none, s.cache⟩

/-- Run a chunk program. -/
def runChunk (sha : Circuit) (chainBits : List ℕ) (first : Bool) (input : Ag2pcSecureWires) :
    ProgramCalls Ag2pcSecureWires :=
  match chunkFromSha sha chainBits first with
  | .error e => .done (.error e)
  | .ok program => request (program, input)

/-- One iteration of the loop of `precompute_target`. -/
def extendPath (s : PrecomputeSession) (target : ℕ) (path : PrecomputePath) (bit : ℕ) :
    ProgramCalls PrecomputePath := do
  let child ← runChunk s.sha [bit] path.carried.isNone (path.carried.getD s.seedInputs)
  let mask := path.mask ||| 1 <<< bit
  return ⟨mask, some child,
    if retainCacheMaskForFuture mask target then
      Function.update path.cache (trailingZeros mask) (some (mask, child))
    else path.cache⟩

/-- The edges of a path, one after the other. -/
def extendAlong (s : PrecomputeSession) (target : ℕ) (path : PrecomputePath) :
    List ℕ → ProgramCalls PrecomputePath
  | [] => return path
  | bit :: rest => do
    let path ← s.extendPath target path bit
    s.extendAlong target path rest

/-- `precompute_target`. -/
def precomputeTarget (s : PrecomputeSession) (index : Index48) :
    ProgramCalls (Ag2pcSecureWires × PrecomputeSession) :=
  let target := index.get
  if target = 0 then do
    let root ← runChunk s.sha [] true s.seedInputs
    return (root.stripLabelsForReveal, s)
  else
    let start := s.startPath target
    if start.mask = target then
      return ((start.carried.getD .default).stripLabelsForReveal, s)
    else do
      let path ← s.extendAlong target start (setBitsDesc (target &&& notU64 start.mask))
      return ((path.carried.getD .default).stripLabelsForReveal,
        { s with cache := pruneCacheForTarget path.cache target })

end PrecomputeSession

end Shachain2pc
