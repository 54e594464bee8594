/-
The executor in a run that fixes the order of Go's map loops.

`range` over a Go map visits the entries in a new random order each time.
Four of the executor's loops do: over the input totals of a transfer,
over what a contract engine wrote, over the reported roots of a
replicated job, and over the amounts of a settlement. The functions here
are those of the executor with the order of these loops as a parameter;
with `MapOrder.stored` they are the same.

The accounts a settlement pays are sorted before they are paid, as are
the amounts of a settlement receipt, and the other loops over maps only
look for an entry that fails a check and report one error.
-/
import ZephyrChain.Execution.Execute
import ZephyrChain.Lib.MapOrder

namespace ZephyrChain.Execution

open Lib

variable (C : Crypto) (order : MapOrder) (e : Engine) (t : Transaction)

-- ==== transfers

def executeTransferIn : Except Error Result := do
  let inputs ← t.objects.foldlM (transferInputStep e t) ⟨∅, ∅, []⟩
  let outputs ← t.outputs.zipIdx.foldlM
    (transferOutputStep C e t inputs.definitions) ⟨∅, ⟨0, [], []⟩⟩
  let left ← (order.reorder 0 inputs.inputTotals).entries.foldlM
    (balanceStep e t inputs.definitions) outputs.outputTotals
  refuse (left.entries.length ≠ 0) .conservation
  return ⟨inputs.consumed, outputs.change.created, outputs.change.outbound,
    t.id C⟩

-- ==== contracts

/-- The writes of a contract in the order they are visited. -/
def reorderWrites (result : ContractResult) : ContractResult :=
  { result with writes := order.reorder 0 result.writes }

/-- A contract engine in such a run. -/
def reorderRuntime (runtime : Runtime) : Runtime :=
  { runtime with
    execute := fun request =>
      (runtime.execute request).map (reorderWrites order) }

/-- The executor's engines in such a run. -/
def Engine.reorder : Engine :=
  { e with
    contractRuntimes := fun name =>
      (e.contractRuntimes name).map (reorderRuntime order)
    scriptRuntime := reorderRuntime order e.scriptRuntime }

-- ==== settlements

def majorityRootIn (results : List ComputeResult) : Hash × Nat :=
  (order.reorder 0 (rootCounts results)).entries.foldl
    (fun best entry => if best.2 < entry.2 then (entry.1, entry.2) else best)
    (Bytes32.zero, 0)

def resolveReplicatedMajorityIn (record : OnChainJob) :
    Except Error (OnChainJob × OnChainSettlement) := do
  refuse (record.job.verification ≠ .replicated ∨
    record.results.length < 3 ∨
    record.results.length ≠ record.assignments.length) .marketVerification
  let majority := majorityRootIn order record.results
  refuse (majority.2 * 2 ≤ record.results.length) .marketVerification
  let totals ← record.assignments.foldlM (majorityStep record majority.1)
    ⟨0, 0, ∅, ∅, ∅⟩
  refuse (record.escrow < totals.paid) .marketEscrow
  return ({ record with status := .settled },
    { jobID := record.id
      resultRoot := majority.1
      payments := totals.payments
      refund := record.escrow - totals.paid
      collateralReturns := totals.collateralReturns
      slashedCollateral := totals.slashed
      slashReward := totals.slashReward })

def settlementOfIn (record : OnChainJob) (majority : Bool) :
    Except Error (OnChainJob × OnChainSettlement) := do
  if majority then resolveReplicatedMajorityIn order record
  else
    refuse (record.job.verification ≠ .replicated) .marketVerification
    finalizeOnChain record noEvidence

/-- The amounts of a settlement in the order they are visited. -/
def reorderAmounts (settlement : OnChainSettlement) : OnChainSettlement :=
  { settlement with
    payments := order.reorder 1 settlement.payments
    collateralReturns := order.reorder 2 settlement.collateralReturns }

def executeComputeFinalizeIn (payload : Bytes) (majority : Bool) :
    Except Error Result := do
  let id ← parseJobRef payload
  let jobObject ← ownedWitness t id .computeJob
  let record ← failWith .ownership (parseOnChainJob jobObject.data)
  refuse (record.job.owner ≠ t.sender) .ownership
  let (_, settlement) ← settlementOfIn order record majority
  settle C e t jobObject record (reorderAmounts order settlement)
    { jobID := record.id
      resultRoot := settlement.resultRoot
      payments := settlement.payments
      refund := settlement.refund
      slashed := settlement.slashedCollateral
      slashReward := settlement.slashReward
      expired := false }

def executeComputeExpireIn (payload : Bytes) : Except Error Result := do
  let id ← parseJobRef payload
  let jobObject ← ownedWitness t id .computeJob
  let record ← parseOnChainJob jobObject.data
  let (_, refund, collateral) ← expireOnChain record e.height
  settle C e t jobObject record
    (reorderAmounts order
      { jobID := record.id
        resultRoot := Bytes32.zero
        payments := ∅
        refund
        collateralReturns := collateral
        slashedCollateral := ∅
        slashReward := 0 })
    { jobID := record.id
      resultRoot := Bytes32.zero
      payments := ∅
      refund
      slashed := ∅
      slashReward := 0
      expired := true }

-- ==== transactions

def executeOperationIn (op : Operation) : Except Error Result :=
  if op.kind = Op.transfer then executeTransferIn C order e t
  else if op.kind = Op.contractCall then
    executeContractCall C (e.reorder order) t op.payload
  else if op.kind = Op.computeFinalize then
    executeComputeFinalizeIn C order e t op.payload false
  else if op.kind = Op.computeResolveReplicated then
    executeComputeFinalizeIn C order e t op.payload true
  else if op.kind = Op.computeExpire then
    executeComputeExpireIn C order e t op.payload
  else executeOperation C e t op

/-- `Engine.Execute` in such a run. -/
def executeIn : Except Error Result := do
  checkEnvelope C e t
  match t.operations with
  | [op] => executeOperationIn C order e.normalized t op
  | _ => throw .unsupportedOperation

-- ==== batches

def independentStepIn (root : Hash) (s : BatchSeen) (t : Transaction) :
    Except Error BatchSeen := do
  refuse (t.stateRoot ≠ root) .batchStateRoot
  refuse (t.id C ∈ s.transactions) .batchConflict
  let accesses ← transactionAccesses t
  let all ← (order.reorder s.transactions.length accesses).entries.foldlM
    mergeAccess s.accesses
  return ⟨t.id C :: s.transactions, all⟩

def validateIndependentBatchIn (transactions : List Transaction) :
    Except Error Unit := do
  match transactions with
  | [] => return
  | first :: _ =>
    let _ ← transactions.foldlM
      (independentStepIn C order first.stateRoot) ⟨[], ∅⟩

end ZephyrChain.Execution
