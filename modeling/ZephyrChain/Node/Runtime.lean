/-
The node's runtime (`internal/v2/node/runtime.go`): the stores of all
shards, the anchor of the chain, and the construction of a candidate
block from the transactions and receipt imports of every shard.

# Stores

A shard's store is in memory or on disk. Both implement the source's
`Simulator`, so the exit for a store that cannot simulate is left out.
`states` is read below `shardCount` only.

# Concurrency

The shards of a candidate are built on a pool of workers, and the
transactions of a shard on a pool of their own. `BuildReturns` says what
a call of `BuildCandidate` may return, for every number of workers,
every interleaving of their steps and every order of the loops over
maps; `buildShard` is one shard's part, given what its batch executor
returned.

# Economics

`Telemetry` is the economics package behind the runtime's calls. A
runtime without shadow economics has no collector, engine or pending
epoch.
-/
import ZephyrChain.Economics
import ZephyrChain.Execution.Parallel
import ZephyrChain.Node.History

namespace ZephyrChain.Node

open Lib
open WorldState (Memory Store AppendFault)
open Consensus (ValidatorSet Certificate headerConsensusHash)
open Economics (Telemetry ShadowEpochPreview MonetaryBalanceSnapshot
  FinalizedShardObservation Observations monetaryStateObjectID)
open Execution (Result BatchOrders BatchReturns)

variable (C : Crypto)

-- ==== stores

/-- A shard's store. -/
inductive Backend where
  | memory (m : Memory)
  | disk (s : Store)

namespace Backend

/-- The state in memory, which both kinds of stores answer from. -/
def mem : Backend → Memory
  | memory m => m
  | disk s => s.disk.mem

def root (b : Backend) : Hash := b.mem.root C

def getObject (b : Backend) (id : ObjectID) : Option Object :=
  b.mem.getObject id

def simulate (b : Backend) (consumed : List ObjectID)
    (created : List Object) : Except Error Hash :=
  match (b.mem.simulate C consumed created).2 with
  | (root, none) => .ok root
  | (_, some e) => .error e

/-- `Apply`: the store after the call, the root and the error. -/
def apply (b : Backend) (fault : AppendFault) (consumed : List ObjectID)
    (created : List Object) : Backend × Hash × Option Error :=
  match b with
  | memory m =>
    let out := m.apply C consumed created
    (memory out.1, out.2)
  | disk s =>
    let out := s.disk.apply C s.dir fault consumed created
    (disk ⟨out.1.1, out.1.2⟩, out.2)

end Backend

-- ==== blocks

/-- Go's `map[uint32]α`, keyed by shard. -/
abbrev ShardMap (α : Type) := Finmap fun _ : UInt32 => α

structure ReceiptImport where
  header : GlobalHeader
  certificate : Certificate
  validators : ValidatorSet
  commitment : Commitment
  commitmentProof : Merkle.Proof
  receipt : CrossShardReceipt
  receiptProof : Merkle.Proof
  deriving DecidableEq

structure ShardBatch where
  transactions : List Transaction
  imports : List ReceiptImport
  dataRoot : Hash

/-- Go's zero value, what a missing entry of a map of batches reads as. -/
def ShardBatch.empty : ShardBatch := ⟨[], [], Bytes32.zero⟩

/-- The batch of a shard. -/
def batchOf (batches : ShardMap ShardBatch) (shard : UInt32) : ShardBatch :=
  (batches.lookup shard).getD .empty

/-- A shard has something to execute or to import. -/
def ShardBatch.Active (b : ShardBatch) : Prop :=
  b.transactions ≠ [] ∨ b.imports ≠ []

instance (b : ShardBatch) : Decidable b.Active :=
  decidable_of_iff (b.transactions.isEmpty = false ∨ b.imports.isEmpty = false)
    (by simp [ShardBatch.Active])

structure ShardDelta where
  consumed : List ObjectID
  created : List Object
  deriving DecidableEq

/-- A delta that changes nothing. -/
def ShardDelta.IsEmpty (d : ShardDelta) : Prop :=
  d.consumed = [] ∧ d.created = []

instance (d : ShardDelta) : Decidable d.IsEmpty :=
  inferInstanceAs (Decidable (_ ∧ _))

structure Candidate where
  header : GlobalHeader
  commitments : List Commitment
  results : ShardMap (List Result)
  receipts : ShardMap (List CrossShardReceipt)
  deltas : ShardMap ShardDelta
  economicObservations : Observations
  economicPendingStateHash : Hash

structure Runtime (T : Telemetry) where
  network : NetworkID
  nativeToken : TokenID
  validatorRoot : Hash
  shardCount : UInt32
  states : UInt32 → Backend
  workers : Int
  height : UInt64
  parentHash : Hash
  economicCollector : Option T.Collector
  economicEngine : Option T.Engine
  economicEpochLength : UInt64
  economicBalances : MonetaryBalanceSnapshot
  pendingEconomic : Option (ShadowEpochPreview C T)
  /-- The journal's file, none while no journal is enabled. -/
  journal : Option JournalFile
  history : Option CertifiedHistory
  anchorStore : Option FinalityAnchorStore
  recoveryRequired : Bool

variable {T : Telemetry}

def newRuntime (network : NetworkID) (nativeToken : TokenID)
    (validatorRoot : Hash) (shardCount : UInt32) (states : UInt32 → Backend)
    (workers : Int) : Except Error (Runtime C T) := do
  refuse (IsZero32 network ∨ IsZero32 nativeToken ∨
    IsZero32 validatorRoot ∨ shardCount = 0) .runtimeConfig
  return {
    network := network
    nativeToken := nativeToken
    validatorRoot := validatorRoot
    shardCount := shardCount
    states := states
    workers := workers
    height := 0
    parentHash := Bytes32.zero
    economicCollector := none
    economicEngine := none
    economicEpochLength := 0
    economicBalances := ⟨0, 0, 0, 0⟩
    pendingEconomic := none
    journal := none
    history := none
    anchorStore := none
    recoveryRequired := false }

-- ==== one shard

/-- What building one shard produced. -/
structure ShardBuildOutput where
  results : List Result
  receipts : List CrossShardReceipt
  delta : ShardDelta
  commitment : Commitment
  dataLeaf : Hash
  observation : FinalizedShardObservation
  economicPendingStateHash : Hash
  hasTransactions : Bool
  hasDelta : Bool

namespace Runtime

variable {C} (r : Runtime C T)

/-- The engine a block of the runtime is executed with. -/
def engine (script : ZephyrChain.Runtime) (height : UInt64) :
    Execution.Engine :=
  ⟨r.network, r.nativeToken, r.shardCount, height, fun _ => none, script⟩

def validateReceiptImport (destinationShard : UInt32) (i : ReceiptImport) :
    Except Error Unit := do
  refuse (i.header.network ≠ r.network ∨ i.validators.network ≠ r.network ∨
    i.certificate.network ≠ r.network ∨
    i.receipt.destinationShard ≠ destinationShard ∨
    r.height < i.header.height ∨
    i.header.height ≠ i.receipt.sourceHeight) .receiptImport
  let validatorRoot ← failWith .receiptImport (i.validators.root C)
  refuse (validatorRoot ≠ i.header.validatorRoot) .receiptImport
  refuse (i.header.certificateHash ≠ i.certificate.hash C ∨
    i.certificate.headerHash ≠ headerConsensusHash C i.header ∨
    i.certificate.height ≠ i.header.height) .receiptImport
  failWith .receiptImport (i.validators.verifyCertificate C i.certificate)
  failWith .receiptImport (verifyFinalizedReceipt C i.header i.commitment
    i.commitmentProof i.receipt i.receiptProof)

/-- One import: the object of the receipt and its replay marker join what
the block creates, if neither exists. -/
def importStep (shard : UInt32) (created : List Object) (i : ReceiptImport) :
    Except Error (List Object) := do
  r.validateReceiptImport shard i
  let destinationObject ← failWith .receiptImport
    (i.receipt.destinationObject C)
  let marker ← failWith .receiptImport (receiptMarker C i.receipt)
  refuse (((r.states shard).getObject destinationObject.id).isSome)
    .receiptReplay
  refuse (((r.states shard).getObject marker.id).isSome) .receiptReplay
  return created ++ [destinationObject, marker]

/-- The results of a shard's transactions, once each of them is known to
be meant for the shard and its current root. -/
def shardResults (shard : UInt32) (transactions : List Transaction)
    (executed : Except Error (List Result)) : Except Error (List Result) :=
  if transactions = [] then .ok []
  else do
    refuse (∃ t ∈ transactions, t.shardID ≠ shard ∨
      t.stateRoot ≠ (r.states shard).root C) .candidateState
    executed

end Runtime

/-- The monetary object of a closed epoch joins the delta of shard 0. -/
def appendEconomicStateDelta (delta : ShardDelta)
    (preview : ShadowEpochPreview C T) : Except Error ShardDelta :=
  match preview.created with
  | [o] => do
      refuse (o.id ≠ monetaryStateObjectID C preview.state.network)
        .candidateState
      refuse (o.id ∈ delta.consumed) .candidateState
      refuse (∃ c ∈ delta.created, c.id = o.id) .candidateState
      return ⟨delta.consumed ++ preview.consumed,
        delta.created ++ preview.created⟩
  | _ => .error .candidateState

namespace Runtime

variable {C} (r : Runtime C T)

/-- Add the pending epoch to the delta of shard 0. The second result is
the hash of its state. -/
def withPendingEpoch (shard : UInt32) (delta : ShardDelta) :
    Except Error (ShardDelta × Hash) :=
  match r.pendingEconomic with
  | some preview =>
    if shard = 0 then do
      let stateHash ← preview.state.hash C
      let delta ← appendEconomicStateDelta C delta preview
      return (delta, stateHash)
    else .ok (delta, Bytes32.zero)
  | none => .ok (delta, Bytes32.zero)

/-- The root a delta leads to. -/
def rootAfter (shard : UInt32) (delta : ShardDelta) : Except Error Hash :=
  if delta.IsEmpty then .ok ((r.states shard).root C)
  else (r.states shard).simulate C delta.consumed delta.created

/-- The receipts of the outputs that leave a shard. -/
def outgoingReceipts (height : UInt64) (shard : UInt32) (root : Hash)
    (results : List Result) : List CrossShardReceipt :=
  results.flatMap fun result => result.outbound.map fun outbound =>
    outbound.receipt shard height result.txID root

/-- `buildShardCandidate`, given what the batch executor returns. -/
def buildShard (height : UInt64) (shard : UInt32) (batch : ShardBatch)
    (executed : Except Error (List Result)) :
    Except Error ShardBuildOutput := do
  let results ← r.shardResults shard batch.transactions executed
  let imported ← batch.imports.foldlM (r.importStep shard) []
  let extended ← r.withPendingEpoch shard
    ⟨results.flatMap Result.consumed,
      results.flatMap Result.created ++ imported⟩
  let newRoot ← r.rootAfter shard extended.1
  let receipts := outgoingReceipts height shard newRoot results
  let receiptRoot ← receiptRoot C receipts
  let dataRoot :=
    if IsZero32 batch.dataRoot then Merkle.root C [] else batch.dataRoot
  return {
    results := results
    receipts := receipts
    delta := extended.1
    commitment := ⟨shard, newRoot, receiptRoot, dataRoot⟩
    dataLeaf := Merkle.leaf C "shard-data-root" dataRoot.toList
    observation := ⟨batch.transactions, results,
      batch.imports.map ReceiptImport.receipt, receipts⟩
    economicPendingStateHash := extended.2
    hasTransactions := decide (batch.transactions ≠ [])
    hasDelta := decide (¬ extended.1.IsEmpty) }

-- ==== all shards

/-- The entries some of the outputs contribute to a map by shard. -/
def gather {α : Type} (outputs : List ShardBuildOutput)
    (entry : ShardBuildOutput → Option α) : ShardMap α :=
  outputs.foldl (fun m out =>
    match entry out with
    | some a => m.insert out.commitment.shardID a
    | none => m) ∅

/-- The candidate of the outputs of all shards. -/
def assemble (height : UInt64) (outputs : List ShardBuildOutput) :
    Except Error Candidate := do
  let commitments := outputs.map ShardBuildOutput.commitment
  let commitmentRoot ← commitmentRoot C commitments
  return {
    header := {
      version := 2
      network := r.network
      height := height
      parentHash := r.parentHash
      shardCommitmentRoot := commitmentRoot
      validatorRoot := r.validatorRoot
      nextValidatorRoot := r.validatorRoot
      dataRoot := Merkle.root C (outputs.map ShardBuildOutput.dataLeaf)
      certificateHash := Bytes32.zero }
    commitments := commitments
    results := gather outputs fun out =>
      if out.hasTransactions then some out.results else none
    receipts := gather outputs fun out => some out.receipts
    deltas := gather outputs fun out =>
      if out.hasDelta then some out.delta else none
    economicObservations := gather outputs fun out =>
      if r.economicCollector.isSome then some out.observation else none
    economicPendingStateHash :=
      (outputs.head?.map ShardBuildOutput.economicPendingStateHash).getD
        Bytes32.zero }

/-- `BuildCandidate` around the loop over the shards. -/
def finishBuild (height : UInt64) (batches : ShardMap ShardBatch)
    (built : Except Error (List ShardBuildOutput)) :
    Except Error Candidate := do
  refuse (r.recoveryRequired = true) .runtimeRecoveryRequired
  refuse (height ≠ r.height + 1 ∨ height = 0) .candidateHeight
  refuse (∃ shard ∈ batches.keys, r.shardCount ≤ shard) .candidateState
  let outputs ← built
  r.assemble height outputs

end Runtime

-- ==== the workers

/-- `candidateWorkerAllocation`: how many workers the shards get, and how
many the transactions of one shard. -/
def candidateWorkerAllocation (procs configured : Int) (shardCount : Nat) :
    Nat × Int :=
  let asked := if configured ≤ 0 then procs else configured
  let budget := if asked < 1 then 1 else asked
  let capped := if (shardCount : Int) < budget then (shardCount : Int)
    else budget
  let shardWorkers := if capped < 1 then 1 else capped
  let shared := budget / shardWorkers
  (shardWorkers.toNat, if shared < 1 then 1 else shared)

/-- The batches of a map that have something to do. -/
def activeShards (batches : ShardMap ShardBatch) : Finset UInt32 :=
  batches.keys.filter fun shard => (batchOf batches shard).Active

def candidateWorkerAllocationForBatches (procs configured : Int)
    (shardCount : UInt32) (batches : ShardMap ShardBatch) : Nat × Int :=
  let active := (activeShards batches).card
  candidateWorkerAllocation procs configured
    (if active = 0 then shardCount.toNat else active)

/-- The order in which the shards are handed to the workers: those with
something to do first. -/
def candidateShardSchedule (shardCount : UInt32)
    (batches : ShardMap ShardBatch) : List Nat :=
  let shards := List.range shardCount.toNat
  let active := fun shard : Nat =>
    decide (batchOf batches (UInt32.ofNat shard)).Active
  shards.filter active ++ shards.filter fun shard => !active shard

/-- What one call may choose: the orders of the map loops of each shard's
batch, and the number of processors. -/
structure BuildChoices where
  orders : UInt32 → BatchOrders
  procs : Int

/-- What a call of `BuildCandidate` may return. The channel to the
workers has no buffer: its one place is the job being handed over. -/
def BuildReturns (script : ZephyrChain.Runtime) (r : Runtime C T)
    (choices : BuildChoices) (height : UInt64)
    (batches : ShardMap ShardBatch) (out : Except Error Candidate) : Prop :=
  ∃ (executed : UInt32 → Except Error (List Result))
    (built : Except Error (List ShardBuildOutput)),
    (∀ shard, BatchReturns C (r.engine script height) (choices.orders shard)
      choices.procs (candidateWorkerAllocationForBatches choices.procs
        r.workers r.shardCount batches).2
      (batchOf batches shard).transactions (executed shard)) ∧
    LoopReturns r.shardCount.toNat
      (candidateWorkerAllocationForBatches choices.procs r.workers
        r.shardCount batches).1 1
      (candidateShardSchedule r.shardCount batches)
      (fun shard => r.buildShard height (UInt32.ofNat shard)
        (batchOf batches (UInt32.ofNat shard))
        (executed (UInt32.ofNat shard))) built ∧
    out = r.finishBuild height batches built

end ZephyrChain.Node
