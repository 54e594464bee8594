/-
Committing a certified candidate (`Runtime.Commit`,
`internal/v2/node/runtime.go` and commit_preflight.go).

# Two halves

`prepare` checks the candidate against the runtime, simulates every
shard, and evaluates the economics; nothing has changed when it fails.
The stages after it write: the journal, the history, the shards in
order, the journal again, the anchor. The first of them that fails puts
the runtime into recovery.

# Faults

`CommitFaults` says what the operating system does to each write. The
source joins errors; a commit that halts reports the recovery error
first and what caused it after that.

# Concurrency

The shards are verified on a pool of workers. `CommitReturns` says what
a call may return, for every interleaving.
-/
import ZephyrChain.Node.Runtime

namespace ZephyrChain.Node

open Lib
open WorldState (AppendFault)
open Consensus (ValidatorSet Certificate headerConsensusHash)
open Economics (Telemetry ShadowEpochPreview MonetaryBalanceSnapshot
  previewCloseEpoch)

variable {C : Crypto} {T : Telemetry}

-- ==== economics

variable (C T) in
/-- The economic state a commit leads to. -/
structure EconomicStep where
  collector : Option T.Collector
  engine : Option T.Engine
  pending : Option (ShadowEpochPreview C T)
  balances : MonetaryBalanceSnapshot

def economicCheckpointVersion : UInt16 := 1
def economicCheckpointMagic : Bytes := utf8 "ZEC2"

namespace Runtime

variable (r : Runtime C T)

/-- The collector after the block, if there is one. -/
def observeBlock (candidate : Candidate) :
    Except Error (Option T.Collector) :=
  match r.economicCollector with
  | none => .ok none
  | some collector => do
      refuse (candidate.economicObservations.keys.card ≠
        r.shardCount.toNat) .candidateState
      let observed ← T.previewFinalizedBlock collector
        candidate.header.height candidate.economicObservations
      return some observed

/-- The engine once the pending epoch is part of the chain. -/
def acceptPending : Except Error (Option T.Engine) :=
  match r.economicEngine, r.pendingEconomic with
  | some engine, some preview => do
      let accepted ← T.accept engine preview.evaluation preview.state
      return some accepted
  | some engine, none => .ok (some engine)
  | none, some _ => .error .runtimeConfig
  | none, none => .ok none

/-- The end of an epoch. -/
def closeEpoch (collector : Option T.Collector) (engine : T.Engine) :
    Except Error (EconomicStep C T) := do
  let observed ← require collector .runtimeConfig
  let metrics ← T.finalizeEpoch observed
  let burned ← failWith .runtimeConfig (T.burnedFees metrics)
  refuse (r.economicBalances.totalSupply < burned) .runtimeConfig
  let balances := { r.economicBalances with
    totalSupply := r.economicBalances.totalSupply - burned }
  let preview ← previewCloseEpoch C engine metrics balances
  let advanced ← T.advanceEpoch observed (preview.state.epoch + 1)
  return ⟨some advanced, some engine, some preview, balances⟩

/-- A block at the end of an epoch. -/
def endsEpoch (height : UInt64) : Prop :=
  0 < r.economicEpochLength ∧ height % r.economicEpochLength = 0

instance (height : UInt64) : Decidable (r.endsEpoch height) :=
  inferInstanceAs (Decidable (_ ∧ _))

/-- What the block does to collector, engine, pending epoch and
balances. A pending epoch is part of this block, so none is left unless
the block ends another one. -/
def previewEconomics (candidate : Candidate) :
    Except Error (EconomicStep C T) := do
  let collector ← r.observeBlock candidate
  let engine ← r.acceptPending
  match engine with
  | some engine =>
    if r.endsEpoch candidate.header.height then
      r.closeEpoch collector engine
    else return ⟨collector, some engine, none, r.economicBalances⟩
  | none => return ⟨collector, none, none, r.economicBalances⟩

/-- The optional parts of a checkpoint, each after a flag. -/
def encodeOptional (part : Option Bytes) : Bytes :=
  match part with
  | some raw => Writer.bool true ++ Writer.bytes raw
  | none => Writer.bool false

/-- `economicCheckpointBytesLocked`, of a runtime with a collector. -/
def economicCheckpoint (collector : T.Collector) :
    Except Error Bytes := do
  refuse (T.lastHeight collector ≠ r.height) .economicCheckpoint
  let collectorRaw ← T.collectorCheckpoint collector
  let engineRaw ← r.economicEngine.mapM T.engineCheckpoint
  refuse (r.pendingEconomic.isSome ∧ r.economicEngine.isNone)
    .economicCheckpoint
  let pendingRaw ← r.pendingEconomic.mapM fun preview =>
    T.pendingCheckpoint preview.evaluation preview.state
  let payload := Writer.u16 economicCheckpointVersion ++
    Writer.fixed r.network ++ Writer.fixed r.nativeToken ++
    Writer.fixed r.validatorRoot ++ Writer.u32 r.shardCount ++
    Writer.u64 r.height ++ Writer.fixed r.parentHash ++
    Writer.u64 r.economicEpochLength ++
    Writer.u64 r.economicBalances.totalSupply ++
    Writer.u64 r.economicBalances.stakedSupply ++
    Writer.u64 r.economicBalances.protocolReserve ++
    Writer.u64 r.economicBalances.baseFee ++ Writer.bytes collectorRaw ++
    encodeOptional engineRaw ++ encodeOptional pendingRaw
  refuse (payload.length = 0 ∨
    maxEconomicCheckpointBytes < payload.length) .economicCheckpoint
  return economicCheckpointMagic ++
    Writer.u32 (UInt32.ofNat payload.length) ++ payload ++
    Writer.fixed
      (domainHash C "zephyr/economic-runtime-checkpoint/v2" payload)

/-- The runtime a commit leads to, apart from stores and files. -/
def install (step : EconomicStep C T) (height : UInt64) (parent : Hash) :
    Runtime C T :=
  { r with
    economicCollector := step.collector
    economicEngine := step.engine
    pendingEconomic := step.pending
    economicBalances := step.balances
    height := height
    parentHash := parent }

/-- The economic checkpoint of the state after the block; empty without
a collector. -/
def postCommitEconomicCheckpoint (step : EconomicStep C T)
    (height : UInt64) (parent : Hash) : Except Error Bytes :=
  match step.collector with
  | none => .ok []
  | some collector =>
    (r.install step height parent).economicCheckpoint collector

-- ==== checks

/-- Header, certificate and pending epoch of a candidate. -/
def checkCandidate (candidate : Candidate) (certificate : Certificate)
    (validators : ValidatorSet) : Except Error Unit := do
  refuse (r.recoveryRequired = true) .runtimeRecoveryRequired
  refuse (candidate.header.height ≠ r.height + 1 ∨
    candidate.header.parentHash ≠ r.parentHash ∨
    candidate.header.network ≠ r.network) .candidateState
  let root ← failWith .candidateCert (validators.root C)
  refuse (root ≠ candidate.header.validatorRoot ∨ root ≠ r.validatorRoot)
    .candidateCert
  refuse (certificate.headerHash ≠ headerConsensusHash C candidate.header ∨
    certificate.height ≠ candidate.header.height ∨
    certificate.network ≠ r.network) .candidateCert
  validators.verifyCertificate C certificate
  match r.pendingEconomic with
  | some preview => do
      let expected ← failWith .candidateState (preview.state.hash C)
      refuse (candidate.economicPendingStateHash ≠ expected)
        .candidateState
  | none =>
    refuse (¬ IsZero32 candidate.economicPendingStateHash) .candidateState

/-- A shard outside the topology among the keys of a map. -/
def outside {α : Type} (m : ShardMap α) : Prop :=
  ∃ shard ∈ m.keys, r.shardCount ≤ shard

instance {α : Type} (m : ShardMap α) : Decidable (r.outside m) :=
  inferInstanceAs (Decidable (∃ shard ∈ m.keys, r.shardCount ≤ shard))

/-- The shape of a candidate: one commitment for each shard, nothing for
a shard that does not exist. -/
def checkTopology (candidate : Candidate) : Except Error Unit := do
  refuse (candidate.commitments.length ≠ r.shardCount.toNat)
    .candidateState
  refuse (r.outside candidate.receipts ∨ r.outside candidate.results ∨
    r.outside candidate.economicObservations ∨ r.outside candidate.deltas)
    .candidateState
  let root ← failWith .candidateState
    (commitmentRoot C candidate.commitments)
  refuse (root ≠ candidate.header.shardCommitmentRoot) .candidateState
  refuse (∃ c ∈ candidate.commitments, r.shardCount ≤ c.shardID)
    .candidateState
  refuse (¬ (candidate.commitments.map Commitment.shardID).Nodup)
    .candidateState

/-- One shard of a candidate against the state of the runtime; the leaf
of its data root. -/
def verifyShard (candidate : Candidate) (shard : UInt32) :
    Except Error Hash := do
  let commitment ← require (commitmentOf candidate.commitments shard)
    .candidateState
  let stateRoot ← match candidate.deltas.lookup shard with
    | some delta =>
      (r.states shard).simulate C delta.consumed delta.created
    | none => .ok ((r.states shard).root C)
  refuse (stateRoot ≠ commitment.stateRoot) .candidateState
  let root ← failWith .candidateState
    (receiptRoot C ((candidate.receipts.lookup shard).getD []))
  refuse (root ≠ commitment.receiptRoot) .candidateState
  return Merkle.leaf C "shard-data-root" commitment.dataRoot.toList

/-- `preflightCandidateState`, given what the loop over the shards
returned. -/
def preflight (candidate : Candidate)
    (verified : Except Error (List Hash)) : Except Error Unit := do
  r.checkTopology candidate
  let leaves ← verified
  refuse (Merkle.root C leaves ≠ candidate.header.dataRoot) .candidateState

/-- The shards a candidate changes, in order. -/
def changedShards (candidate : Candidate) : List UInt32 :=
  ((List.range r.shardCount.toNat).map UInt32.ofNat).filter
    fun shard => decide (shard ∈ candidate.deltas)

-- ==== intent

/-- The delta of a changed shard as the journal keeps it. -/
def journalDelta (candidate : Candidate) (shard : UInt32) :
    Except Error JournalShardDelta := do
  let commitment ← require (commitmentOf candidate.commitments shard)
    .globalCommitJournal
  let delta := (candidate.deltas.lookup shard).getD ⟨[], []⟩
  return ⟨shard, (r.states shard).root C, commitment.stateRoot,
    delta.consumed, delta.created⟩

/-- `buildGlobalCommitIntent`. Its checks on the header and the number
of commitments repeat those of `checkCandidate` and `checkTopology`. -/
def buildGlobalCommitIntent (candidate : Candidate)
    (certificate : Certificate) (economicCheckpoint : Bytes) :
    Except Error GlobalCommitIntent := do
  refuse (candidate.header.height ≠ r.height + 1 ∨
    candidate.header.parentHash ≠ r.parentHash ∨
    candidate.commitments.length ≠ r.shardCount.toNat) .globalCommitJournal
  let deltas ← (r.changedShards candidate).mapM (r.journalDelta candidate)
  let intent : GlobalCommitIntent :=
    { status := globalCommitPreparing
      network := r.network
      nativeToken := r.nativeToken
      validatorRoot := r.validatorRoot
      shardCount := r.shardCount
      preHeight := r.height
      preParentHash := r.parentHash
      header := candidate.header
      certificate := certificate
      commitments := candidate.commitments
      deltas := deltas
      economicCheckpoint := economicCheckpoint }
  intent.validate C
  return intent

end Runtime

variable (C T) in
/-- What a commit has decided before it writes anything. The intent is
made for a runtime with a journal. -/
structure Prepared where
  economic : EconomicStep C T
  finalized : GlobalHeader
  postParent : Hash
  intent : Option GlobalCommitIntent

namespace Runtime

variable (r : Runtime C T)

/-- The intent of a runtime that keeps a journal. -/
def prepareIntent (candidate : Candidate) (certificate : Certificate)
    (step : EconomicStep C T) (height : UInt64) (parent : Hash) :
    Except Error (Option GlobalCommitIntent) :=
  match r.journal with
  | none => .ok none
  | some _ => do
      let checkpoint ← r.postCommitEconomicCheckpoint step height parent
      let intent ← r.buildGlobalCommitIntent candidate certificate
        checkpoint
      return some intent

/-- Everything in front of the first write. -/
def prepare (candidate : Candidate) (certificate : Certificate)
    (validators : ValidatorSet) (verified : Except Error (List Hash)) :
    Except Error (Prepared C T) := do
  r.checkCandidate candidate certificate validators
  r.preflight candidate verified
  let step ← r.previewEconomics candidate
  let finalized :=
    { candidate.header with certificateHash := certificate.hash C }
  let postParent := headerConsensusHash C finalized
  let intent ← r.prepareIntent candidate certificate step finalized.height
    postParent
  return ⟨step, finalized, postParent, intent⟩

end Runtime

-- ==== stages

/-- What the operating system does to the writes of one commit. -/
structure CommitFaults where
  prepare : ReplaceFault
  history : WriteFault
  apply : UInt32 → AppendFault
  finish : ReplaceFault
  anchor : WriteFault

variable (C T) in
/-- A write of the commit: the runtime after it and its errors, none
when it went through. -/
abbrev Stage := Runtime C T → Runtime C T × List Error

/-- One stage, and the next if it went through. -/
def Stage.andThen (first second : Stage C T) : Stage C T := fun r =>
  match first r with
  | (r', []) => second r'
  | out => out

/-- The runtime needs recovery, for the errors given. -/
def halt (r : Runtime C T) (errors : List Error) :
    Runtime C T × List Error :=
  ({ r with recoveryRequired := true }, .runtimeRecoveryRequired :: errors)

/-- Replace the journal, if there is one. -/
def writeIntent (fault : ReplaceFault)
    (intent : Option GlobalCommitIntent) : Stage C T := fun r =>
  match r.journal, intent with
  | some file, some intent =>
    match writeGlobalCommitJournal C file fault intent with
    | (file, none) => ({ r with journal := some file }, [])
    | (file, some e) => halt { r with journal := some file } [e]
  | _, _ => (r, [])

/-- Append the intent to the history, if there is one. -/
def appendHistory (fault : WriteFault) (intent : Option GlobalCommitIntent)
    (validators : ValidatorSet) : Stage C T := fun r =>
  match r.history with
  | none => (r, [])
  | some history =>
    match intent with
    | none => halt r []
    | some intent =>
      match history.append C fault intent validators with
      | (history, none) => ({ r with history := some history }, [])
      | (history, some e) => halt { r with history := some history } [e]

/-- Apply the delta of one shard. -/
def applyShard (fault : AppendFault) (candidate : Candidate)
    (shard : UInt32) : Stage C T := fun r =>
  let delta := (candidate.deltas.lookup shard).getD ⟨[], []⟩
  match (r.states shard).apply C fault delta.consumed delta.created with
  | (store, root, error) =>
    let r := { r with states := Function.update r.states shard store }
    match error with
    | some e => halt r [e]
    | none =>
      if (commitmentOf candidate.commitments shard).map
          Commitment.stateRoot = some root then (r, [])
      else halt r [.candidateState]

/-- Apply the deltas of some shards, in order. -/
def applyShards (faults : UInt32 → AppendFault) (candidate : Candidate)
    (shards : List UInt32) : Stage C T :=
  shards.foldr
    (fun shard => Stage.andThen (applyShard (faults shard) candidate shard))
    fun r => (r, [])

/-- Advance the anchor, if there is one. -/
def advanceAnchor (fault : WriteFault) (height : UInt64) (hash : Hash) :
    Stage C T := fun r =>
  match r.anchorStore with
  | none => (r, [])
  | some anchor =>
    match anchor.advance C fault
      ⟨r.network, r.validatorRoot, height, hash⟩ with
    | (anchor, none) => ({ r with anchorStore := some anchor }, [])
    | (anchor, some e) =>
      halt { r with anchorStore := some anchor } [.finalityAnchor, e]

/-- The writes of a commit, in order. -/
def commitStages (faults : CommitFaults) (candidate : Candidate)
    (validators : ValidatorSet) (shards : List UInt32)
    (p : Prepared C T) : Stage C T :=
  (writeIntent faults.prepare p.intent).andThen <|
    (appendHistory faults.history p.intent validators).andThen <|
      (applyShards faults.apply candidate shards).andThen <|
        (writeIntent faults.finish (p.intent.map fun intent =>
          { intent with status := globalCommitCommitted })).andThen <|
          advanceAnchor faults.anchor p.finalized.height p.postParent

/-- `Runtime.Commit`, given what the loop over the shards returned: the
runtime after the call, and the finalized header or the errors. -/
def Runtime.commit (r : Runtime C T) (faults : CommitFaults)
    (candidate : Candidate) (certificate : Certificate)
    (validators : ValidatorSet) (verified : Except Error (List Hash)) :
    Runtime C T × Except (List Error) GlobalHeader :=
  match r.prepare candidate certificate validators verified with
  | .error e => (r, .error [e])
  | .ok p =>
    match commitStages faults candidate validators
      (r.changedShards candidate) p r with
    | (r', []) =>
      (r'.install p.economic p.finalized.height p.postParent,
        .ok p.finalized)
    | (r', errors) => (r', .error errors)

-- ==== the workers

/-- How many workers verify the shards. -/
def preflightWorkers (procs configured : Int) (shardCount : UInt32) : Nat :=
  let asked := if configured ≤ 0 then procs else configured
  let capped := if (shardCount.toNat : Int) < asked then
    (shardCount.toNat : Int) else asked
  if capped < 1 then 1 else capped.toNat

/-- `preflightShardSchedule`: the shards that change first. -/
def preflightShardSchedule (shardCount : UInt32)
    (deltas : ShardMap ShardDelta) : List Nat :=
  let shards := List.range shardCount.toNat
  let changed := fun shard : Nat =>
    decide (UInt32.ofNat shard ∈ deltas)
  shards.filter changed ++ shards.filter fun shard => !changed shard

/-- What a call of `Commit` may return, and the runtime after it. -/
def CommitReturns (r : Runtime C T) (procs : Int) (faults : CommitFaults)
    (candidate : Candidate) (certificate : Certificate)
    (validators : ValidatorSet)
    (out : Runtime C T × Except (List Error) GlobalHeader) : Prop :=
  ∃ verified : Except Error (List Hash),
    LoopReturns r.shardCount.toNat
      (preflightWorkers procs r.workers r.shardCount)
      (preflightWorkers procs r.workers r.shardCount)
      (preflightShardSchedule r.shardCount candidate.deltas)
      (fun shard => r.verifyShard candidate (UInt32.ofNat shard))
      verified ∧
    out = r.commit faults candidate certificate validators verified

end ZephyrChain.Node
