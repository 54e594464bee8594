/-
Compute operations (`internal/v2/execution`, extended_compute.go).

Collateral and escrow live in the compute objects and messages
themselves. An operation that consumes such an object puts its value into
`accountNativeValue` on the side of the inputs, and one that creates such
an object on the side of the outputs.

A settlement pays with coins the executor makes, in the order of the
accounts. Their sum must be the value that was locked in the job.
-/
import ZephyrChain.Execution.Engine
import ZephyrChain.Execution.Tokens
import ZephyrChain.Compute.Messages

namespace ZephyrChain.Execution

open Lib

variable (C : Crypto) (e : Engine) (t : Transaction)

def computeReceiptIndex : UInt32 := 0xC0000000

-- ==== offers and jobs

def executeComputeOffer (payload : Bytes) : Except Error Result := do
  let offer ← failWith .ownership (parseOffer payload)
  refuse (offer.provider ≠ t.sender ∨
    (0 < e.height ∧ offer.validUntilHeight < e.height)) .ownership
  let (created, outbound, consumed) ←
    accountNativeValue C e t [] 0 offer.collateral
  let offerObject ← newOfferObject C (t.id C) t.shardID offer
  return ⟨consumed, created ++ [offerObject], outbound, t.id C⟩

def executeComputeJob (payload : Bytes) : Except Error Result := do
  let job ← failWith .ownership (parseJob payload)
  refuse (job.owner ≠ t.sender ∨
    (0 < e.height ∧ job.deadlineHeight ≤ e.height)) .ownership
  let (created, outbound, consumed) ←
    accountNativeValue C e t [] 0 job.maxPrice
  let (jobObject, _) ← newJobObject C (t.id C) t.shardID job job.maxPrice
  return ⟨consumed, created ++ [jobObject], outbound, t.id C⟩

-- ==== messages

/-- A message to the shard of its job: an object there, or on its way. -/
def deliver (jobShard : UInt32) (spec : OutputSpec) :
    List Object × List OutboundOutput :=
  if jobShard = t.shardID then
    ([newObject C t computeReceiptIndex spec], [])
  else ([], [⟨jobShard, computeReceiptIndex, spec⟩])

/-- `mustOfferBytes`: no bytes for an invalid offer. -/
def mustOfferBytes (offer : Offer) : Bytes :=
  match offer.marshalBinary with
  | .ok raw => raw
  | .error _ => []

def executeComputeAccept (payload : Bytes) : Except Error Result := do
  let message ← failWith .ownership (parseAssignmentMessage payload)
  refuse (message.offer.provider ≠ t.sender ∨
    e.shardCount ≤ message.jobShard) .ownership
  let offer ← require (witnessByKind t .computeOffer) .ownership
  refuse (offer.owner ≠ t.sender ∨ offer.id ≠ message.offerID ∨
    offer.data ≠ mustOfferBytes message.offer) .ownership
  let (created, outbound, consumed) ← accountNativeValue C e t [offer.id]
    message.offer.collateral message.job.collateralRequired
  let spec ← message.output
  let (kept, sent) := deliver C t message.jobShard spec
  return ⟨consumed ++ [offer.id], created ++ kept, outbound ++ sent, t.id C⟩

/-- The output of a message whose error the source drops. -/
def resultOutput (message : ResultMessage) : OutputSpec :=
  match message.output with
  | .ok spec => spec
  | .error _ => ⟨Bytes32.zero, .unknown, []⟩

def executeComputeResult (payload : Bytes) : Except Error Result := do
  let message ← failWith .ownership (parseResultMessage payload)
  refuse (message.result.provider ≠ t.sender ∨
    e.shardCount ≤ message.jobShard) .ownership
  let (created, outbound, consumed) ← accountNativeValue C e t [] 0 0
  let (kept, sent) := deliver C t message.jobShard (resultOutput message)
  return ⟨consumed, created ++ kept, outbound ++ sent, t.id C⟩

-- ==== ingestion

/-- An object of the sender, of a given kind. -/
def ownedWitness (id : ObjectID) (kind : Kind) : Except Error Object := do
  let o ← require (witnessByID t id) .ownership
  refuse (o.kind ≠ kind ∨ o.owner ≠ t.sender) .ownership
  return o

def executeComputeIngestAssignment (payload : Bytes) :
    Except Error Result := do
  let ref ← parseIngestRef payload
  let jobObject ← ownedWitness t ref.jobObject .computeJob
  let messageObject ← ownedWitness t ref.messageObject .computeAssignment
  let record ← parseOnChainJob jobObject.data
  let message ←
    failWith .computeMessage (parseAssignmentMessage messageObject.data)
  refuse (message.jobShard ≠ t.shardID) .computeMessage
  failWith .computeMessage (message.validateForRecord record)
  let (updated, _, _) ←
    assignOnChain record message.offerID message.offer e.height
  let updatedRaw ← updated.marshalBinary
  let (created, outbound, consumed) ← accountNativeValue C e t
    [jobObject.id, messageObject.id] record.job.collateralRequired
    record.job.collateralRequired
  return ⟨consumed ++ [jobObject.id, messageObject.id],
    created ++ [rewrite jobObject updatedRaw], outbound, t.id C⟩

/-- The bytes of a record, none when it cannot be written. -/
def recordBytes (record : OnChainJob) : Bytes :=
  match record.marshalBinary with
  | .ok raw => raw
  | .error _ => []

def executeComputeIngestResult (payload : Bytes) : Except Error Result := do
  let ref ← parseIngestRef payload
  let jobObject ← ownedWitness t ref.jobObject .computeJob
  let messageObject ← ownedWitness t ref.messageObject .computeResult
  let record ← parseOnChainJob jobObject.data
  let message ←
    failWith .computeMessage (parseResultMessage messageObject.data)
  refuse (message.jobID ≠ record.id ∨ message.jobOwner ≠ record.job.owner ∨
    message.jobShard ≠ t.shardID) .computeMessage
  let updated ← submitOnChainResult record message.result
  let (created, outbound, consumed) ← accountNativeValue C e t
    [jobObject.id, messageObject.id] 0 0
  return ⟨consumed ++ [jobObject.id, messageObject.id],
    created ++ [rewrite jobObject (recordBytes updated)], outbound, t.id C⟩

-- ==== settlement

/-- Escrow and the collateral of every assignment. -/
def jobLockedValue (record : OnChainJob) : Except Error UInt64 :=
  record.assignments.foldlM
    (fun locked _ => do
      refuse (Overflows locked record.job.collateralRequired) .overflow
      return locked + record.job.collateralRequired)
    record.escrow

/-- The amount each account receives. -/
def settlementAmounts (record : OnChainJob)
    (settlement : OnChainSettlement) : Except Error Amounts := do
  let paid := settlement.payments.entries.foldl
    (fun (m : Amounts) entry => m.add entry.1 entry.2) ∅
  let amounts ← settlement.collateralReturns.entries.foldlM
    (fun (m : Amounts) entry => do
      refuse (Overflows (m.get entry.1) entry.2) Error.overflow
      return m.add entry.1 entry.2)
    paid
  refuse (Overflows settlement.refund settlement.slashReward) .overflow
  let ownerAmount := settlement.refund + settlement.slashReward
  return if 0 < ownerAmount then amounts.add record.job.owner ownerAmount
    else amounts

/-- One payment of a settlement. -/
def payStep (amounts : Amounts) (s : Change) (payee : AccountID × Nat) :
    Except Error Change := do
  let (id, i) := payee
  let amount := amounts.get id
  refuse (Overflows s.total amount) .overflow
  let spec ← newCoinOutput id e.nativeToken amount
  let destination ← failWith .shard (e.router.shardForAccount id)
  return { s with total := s.total + amount }.place C t destination
    (computeReceiptIndex.toNat + 1 + i) spec

def settlementOutputs (record : OnChainJob)
    (settlement : OnChainSettlement) : Except Error Change := do
  let amounts ← settlementAmounts record settlement
  let ids := amounts.keys.insertionSort Bytes32.Before
  ids.zipIdx.foldlM (payStep C e t amounts) ⟨0, [], []⟩

/-- Pay out a settlement and leave its receipt: the common end of
finalizing and expiring. -/
def settle (jobObject : Object) (record : OnChainJob)
    (settlement : OnChainSettlement) (receipt : SettlementReceipt) :
    Except Error Result := do
  let locked ← jobLockedValue record
  let generated ← failWith .marketEscrow
    (settlementOutputs C e t record settlement)
  refuse (generated.total ≠ locked) .marketEscrow
  let (created, outbound, consumed) ← accountNativeValue C e t
    [jobObject.id] locked generated.total
  return {
    consumed := consumed ++ [jobObject.id]
    created := created ++ generated.created ++
      [newObject C t computeReceiptIndex
        ⟨Bytes32.zero, .system, receipt.marshalBinary⟩]
    outbound := outbound ++ generated.outbound
    txID := t.id C }

/-- No evidence besides the results themselves. -/
def noEvidence : VerificationEvidence := ⟨false, false, false, false, false⟩

/-- The settlement by agreement or by majority. -/
def settlementOf (record : OnChainJob) (majority : Bool) :
    Except Error (OnChainJob × OnChainSettlement) := do
  if majority then resolveReplicatedMajority record
  else
    refuse (record.job.verification ≠ .replicated) .marketVerification
    finalizeOnChain record noEvidence

def executeComputeFinalize (payload : Bytes) (majority : Bool) :
    Except Error Result := do
  let id ← parseJobRef payload
  let jobObject ← ownedWitness t id .computeJob
  let record ← failWith .ownership (parseOnChainJob jobObject.data)
  refuse (record.job.owner ≠ t.sender) .ownership
  let (_, settlement) ← settlementOf record majority
  settle C e t jobObject record settlement
    { jobID := record.id
      resultRoot := settlement.resultRoot
      payments := settlement.payments
      refund := settlement.refund
      slashed := settlement.slashedCollateral
      slashReward := settlement.slashReward
      expired := false }

def executeComputeExpire (payload : Bytes) : Except Error Result := do
  let id ← parseJobRef payload
  let jobObject ← ownedWitness t id .computeJob
  let record ← parseOnChainJob jobObject.data
  let (_, refund, collateral) ← expireOnChain record e.height
  settle C e t jobObject record
    { jobID := record.id
      resultRoot := Bytes32.zero
      payments := ∅
      refund
      collateralReturns := collateral
      slashedCollateral := ∅
      slashReward := 0 }
    { jobID := record.id
      resultRoot := Bytes32.zero
      payments := ∅
      refund
      slashed := ∅
      slashReward := 0
      expired := true }

def executeCompute (op : Operation) : Except Error Result :=
  if op.kind = Op.computeOffer then executeComputeOffer C e t op.payload
  else if op.kind = Op.computeJob then executeComputeJob C e t op.payload
  else if op.kind = Op.computeAccept then
    executeComputeAccept C e t op.payload
  else if op.kind = Op.computeResult then
    executeComputeResult C e t op.payload
  else if op.kind = Op.computeIngestAssignment then
    executeComputeIngestAssignment C e t op.payload
  else if op.kind = Op.computeIngestResult then
    executeComputeIngestResult C e t op.payload
  else if op.kind = Op.computeFinalize then
    executeComputeFinalize C e t op.payload false
  else if op.kind = Op.computeResolveReplicated then
    executeComputeFinalize C e t op.payload true
  else if op.kind = Op.computeExpire then
    executeComputeExpire C e t op.payload
  else throw .unsupportedOperation

end ZephyrChain.Execution
