/-
Shadow economics (`internal/v2/economics`), as far as the node's runtime
reaches into it: the monetary epoch state, the object it is stored as,
and the delta that replaces the state of one epoch by that of the next.

# What is abstract

`Telemetry` stands for the rest of the package: the collector of
finalized observations, the controller that evaluates an epoch, and
their checkpoint formats. The runtime calls these and looks at nothing
but what is listed there. Nothing is assumed about them, so what is
proved holds for the source's functions. Cloning a collector or an
engine before it is changed is passing a value.

# What a preview carries

The two functions that make a preview, `PreviewCloseEpoch` and
`RestoreShadowEpochPreview`, take its delta from
`shadowMonetaryTransition`. A `ShadowEpochPreview` holds the proof.
-/
import ZephyrChain.Execution.Engine
import Mathlib.Data.Finmap

namespace ZephyrChain.Economics

open Lib

def monetaryEpochStateVersion : UInt16 := 1
def basisPoints : UInt32 := 10000
/-- `ComputeFeedbackMonetaryBand`, the last feedback mode. -/
def computeFeedbackMonetaryBand : UInt8 := 2

structure MonetaryEpochState where
  version : UInt16
  network : NetworkID
  epoch : UInt64
  shadow : Bool
  totalSupply : UInt64
  circulatingSupply : UInt64
  stakedSupply : UInt64
  protocolReserve : UInt64
  zampBaseTargetBps : UInt32
  suggestedTargetBps : UInt32
  baseFee : UInt64
  aggregateHash : Hash
  computeIndexQ9 : UInt64
  computeIndexReliable : Bool
  computeScarcityMagnitudeBps : UInt32
  computeScarcityNegative : Bool
  computeScarcityReliable : Bool
  feedbackMode : UInt8
  shadowGrossMintTarget : UInt64
  shadowComputeIncentiveMint : UInt64
  inflationCorrectionMagnitudeBps : UInt32
  inflationCorrectionNegative : Bool
  previousStateHash : Hash
  deriving DecidableEq

namespace MonetaryEpochState

variable (C : Crypto) (s : MonetaryEpochState)

def validate : Except Error Unit :=
  refuse (s.version ≠ monetaryEpochStateVersion ∨ IsZero32 s.network ∨
    s.epoch = 0 ∨ s.shadow = false ∨ s.totalSupply = 0 ∨
    s.circulatingSupply = 0 ∨ s.totalSupply < s.circulatingSupply ∨
    s.circulatingSupply < s.stakedSupply ∨
    s.totalSupply < s.protocolReserve ∨
    basisPoints < s.zampBaseTargetBps ∨ basisPoints < s.suggestedTargetBps ∨
    IsZero32 s.aggregateHash ∨
    basisPoints < s.computeScarcityMagnitudeBps ∨
    computeFeedbackMonetaryBand < s.feedbackMode ∨
    basisPoints < s.inflationCorrectionMagnitudeBps) .monetaryState

/-- The bytes of `CanonicalBytes` once the state is valid. -/
def encode : Bytes :=
  Writer.u16 s.version ++ Writer.fixed s.network ++ Writer.u64 s.epoch ++
    Writer.bool s.shadow ++ Writer.u64 s.totalSupply ++
    Writer.u64 s.circulatingSupply ++ Writer.u64 s.stakedSupply ++
    Writer.u64 s.protocolReserve ++ Writer.u32 s.zampBaseTargetBps ++
    Writer.u32 s.suggestedTargetBps ++ Writer.u64 s.baseFee ++
    Writer.fixed s.aggregateHash ++ Writer.u64 s.computeIndexQ9 ++
    Writer.bool s.computeIndexReliable ++
    Writer.u32 s.computeScarcityMagnitudeBps ++
    Writer.bool s.computeScarcityNegative ++
    Writer.bool s.computeScarcityReliable ++ Writer.u8 s.feedbackMode ++
    Writer.u64 s.shadowGrossMintTarget ++
    Writer.u64 s.shadowComputeIncentiveMint ++
    Writer.u32 s.inflationCorrectionMagnitudeBps ++
    Writer.bool s.inflationCorrectionNegative ++
    Writer.fixed s.previousStateHash

def canonicalBytes : Except Error Bytes := do
  s.validate
  return s.encode

def read : Reader MonetaryEpochState := do
  let version ← Reader.u16
  let network ← Reader.fixed
  let epoch ← Reader.u64
  let shadow ← Reader.bool
  let totalSupply ← Reader.u64
  let circulatingSupply ← Reader.u64
  let stakedSupply ← Reader.u64
  let protocolReserve ← Reader.u64
  let zampBaseTargetBps ← Reader.u32
  let suggestedTargetBps ← Reader.u32
  let baseFee ← Reader.u64
  let aggregateHash ← Reader.fixed
  let computeIndexQ9 ← Reader.u64
  let computeIndexReliable ← Reader.bool
  let computeScarcityMagnitudeBps ← Reader.u32
  let computeScarcityNegative ← Reader.bool
  let computeScarcityReliable ← Reader.bool
  let feedbackMode ← Reader.u8
  let shadowGrossMintTarget ← Reader.u64
  let shadowComputeIncentiveMint ← Reader.u64
  let inflationCorrectionMagnitudeBps ← Reader.u32
  let inflationCorrectionNegative ← Reader.bool
  let previousStateHash ← Reader.fixed
  return ⟨version, network, epoch, shadow, totalSupply, circulatingSupply,
    stakedSupply, protocolReserve, zampBaseTargetBps, suggestedTargetBps,
    baseFee, aggregateHash, computeIndexQ9, computeIndexReliable,
    computeScarcityMagnitudeBps, computeScarcityNegative,
    computeScarcityReliable, feedbackMode, shadowGrossMintTarget,
    shadowComputeIncentiveMint, inflationCorrectionMagnitudeBps,
    inflationCorrectionNegative, previousStateHash⟩

def hash : Except Error Hash := do
  let raw ← s.canonicalBytes
  return domainHash C "zephyr/monetary-epoch-state/v2" raw

end MonetaryEpochState

def parseMonetaryEpochState (data : Bytes) :
    Except Error MonetaryEpochState := do
  let s ← parseWith .monetaryState MonetaryEpochState.read data
  failWith .monetaryState s.validate
  return s

-- ==== transitions

/-- The object on shard 0 that holds the monetary state of a network. -/
def monetaryStateObjectID (C : Crypto) (network : NetworkID) : ObjectID :=
  withShard (domainHash C "zephyr/system-object-id/v2"
    (Writer.fixed network ++ Writer.bytes (utf8 "monetary-epoch"))) 0

def MonetaryEpochState.object (C : Crypto) (s : MonetaryEpochState) :
    Except Error Object := do
  let raw ← s.canonicalBytes
  return ⟨monetaryStateObjectID C s.network, s.epoch, Bytes32.zero, .system,
    raw⟩

/-- The delta of an epoch: the state object of the epoch before it, if
there is one, makes way for that of `next`. -/
def shadowMonetaryTransition (C : Crypto) (previous : Option Object)
    (next : MonetaryEpochState) :
    Except Error (List ObjectID × List Object) := do
  next.validate
  let nextObject ← next.object C
  match previous with
  | none =>
    refuse (next.epoch ≠ 1 ∨ ¬ IsZero32 next.previousStateHash)
      .monetaryState
    return ([], [nextObject])
  | some previous =>
    refuse (previous.id ≠ nextObject.id ∨ previous.kind ≠ .system)
      .monetaryState
    let priorState ← failWith .monetaryState
      (parseMonetaryEpochState previous.data)
    refuse (priorState.network ≠ next.network ∨
      priorState.epoch + 1 ≠ next.epoch ∨
      previous.version ≠ priorState.epoch) .monetaryState
    let priorHash ← failWith .monetaryState (priorState.hash C)
    refuse (next.previousStateHash ≠ priorHash) .monetaryState
    return ([previous.id], [nextObject])

-- ==== the rest of it

structure MonetaryBalanceSnapshot where
  totalSupply : UInt64
  stakedSupply : UInt64
  protocolReserve : UInt64
  baseFee : UInt64
  deriving DecidableEq

/-- What the node reports of one shard's part of a finalized block. -/
structure FinalizedShardObservation where
  transactions : List Transaction
  results : List Execution.Result
  imports : List CrossShardReceipt
  exports : List CrossShardReceipt

/-- Observations by shard. -/
abbrev Observations := Finmap fun _ : UInt32 => FinalizedShardObservation

/-- The collector, the epoch controller and their checkpoints. -/
structure Telemetry where
  /-- `EpochCollector`. -/
  Collector : Type
  /-- `ShadowEpochEngine`. -/
  Engine : Type
  /-- Shard metrics and verified work of an epoch. -/
  Metrics : Type
  /-- What a preview holds besides state and delta. -/
  Evaluation : Type
  /-- `compute.WorkRegistry`. -/
  Registry : Type
  /-- `ShadowEpochEngineConfig`. -/
  Config : Type
  lastHeight : Collector → UInt64
  previewFinalizedBlock :
    Collector → UInt64 → Observations → Except Error Collector
  finalizeEpoch : Collector → Except Error Metrics
  /-- `AggregateEpochMetrics(metrics).BurnedFees`. -/
  burnedFees : Metrics → Except Error UInt64
  advanceEpoch : Collector → UInt64 → Except Error Collector
  previousState : Engine → Option MonetaryEpochState
  /-- `PreviewCloseEpoch` up to the state of the epoch. -/
  evaluateEpoch : Engine → Metrics → MonetaryBalanceSnapshot →
    Except Error (Evaluation × MonetaryEpochState)
  accept : Engine → Evaluation → MonetaryEpochState → Except Error Engine
  collectorCheckpoint : Collector → Except Error Bytes
  restoreCollector : Bytes → Registry → Except Error Collector
  engineCheckpoint : Engine → Except Error Bytes
  restoreEngine : Bytes → NetworkID → Config → Except Error Engine
  pendingCheckpoint : Evaluation → MonetaryEpochState → Except Error Bytes
  /-- `RestoreShadowEpochPreview` up to the delta. -/
  restorePending : Bytes → Engine →
    Except Error (Evaluation × MonetaryEpochState)

variable (C : Crypto) (T : Telemetry)

structure ShadowEpochPreview where
  evaluation : T.Evaluation
  state : MonetaryEpochState
  consumed : List ObjectID
  created : List Object
  transition : ∃ previous,
    shadowMonetaryTransition C previous state = .ok (consumed, created)

variable {T}

/-- The preview of an evaluated epoch that follows `previous`. -/
def previewOf (previous : Option MonetaryEpochState)
    (evaluated : T.Evaluation × MonetaryEpochState) :
    Except Error (ShadowEpochPreview C T) := do
  let previousObject ← previous.mapM (MonetaryEpochState.object C)
  match h : shadowMonetaryTransition C previousObject evaluated.2 with
  | .error e => throw e
  | .ok (consumed, created) =>
    return ⟨evaluated.1, evaluated.2, consumed, created, _, h⟩

/-- `ShadowEpochEngine.PreviewCloseEpoch`. -/
def previewCloseEpoch (engine : T.Engine) (metrics : T.Metrics)
    (balances : MonetaryBalanceSnapshot) :
    Except Error (ShadowEpochPreview C T) := do
  let evaluated ← T.evaluateEpoch engine metrics balances
  previewOf C (T.previousState engine) evaluated

/-- `RestoreShadowEpochPreview`. -/
def restoreShadowEpochPreview (data : Bytes) (engine : T.Engine) :
    Except Error (ShadowEpochPreview C T) := do
  let evaluated ← T.restorePending data engine
  let preview ← previewOf C (T.previousState engine) evaluated
  let _ ← failWith .shadowEpochEngine
    (T.accept engine preview.evaluation preview.state)
  return preview

end ZephyrChain.Economics
