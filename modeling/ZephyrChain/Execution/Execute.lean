/-
The executor (`internal/v2/execution`, engine.go and parallel.go): one
transaction, a batch of independent transactions, and a batch applied to
a shard's state.

The source runs the transactions of a batch on parallel workers that
write into slots of their own and then looks for the first error in
order. That is what one worker in order returns, and it is the model.
-/
import ZephyrChain.Execution.Compute
import ZephyrChain.Execution.CrossLending
import ZephyrChain.WorldState.Memory

namespace ZephyrChain.Execution

open Lib

variable (C : Crypto)

-- ==== one transaction

def executeExtended (e : Engine) (t : Transaction) (op : Operation) :
    Except Error Result :=
  if op.kind = Op.deployContract then executeDeployContract C e t op.payload
  else if op.kind = Op.contractCall then executeContractCall C e t op.payload
  else if op.kind = Op.mintToken then executeMintToken C e t op.payload
  else if op.kind = Op.burnToken then executeBurnToken C e t op.payload
  else if op.kind ∈ [Op.computeOffer, Op.computeJob, Op.computeResult,
      Op.computeAccept, Op.computeIngestAssignment, Op.computeIngestResult,
      Op.computeFinalize, Op.computeResolveReplicated, Op.computeExpire] then
    executeCompute C e t op
  else if op.kind ∈ [Op.loanOffer, Op.loanCancel, Op.loanAccept,
      Op.loanRepay, Op.loanDefault] then
    executeLending C e t op
  else if op.kind ∈ [Op.deviceCredentialRegister, Op.deviceCredentialUpdate,
      Op.deviceCredentialRevoke] then
    executeDeviceCredential C e t op
  else if op.kind ∈ [Op.crossLoanOffer, Op.crossLoanAccept,
      Op.crossLoanRepay, Op.crossLoanSettle, Op.crossLoanDefault,
      Op.crossLoanExpire] then
    executeCrossShardLending C e t op
  else throw .unsupportedOperation

def executeOperation (e : Engine) (t : Transaction) (op : Operation) :
    Except Error Result :=
  if op.kind = Op.transfer then executeTransfer C e t
  else if op.kind = Op.createToken then executeCreateToken C e t op.payload
  else executeExtended C e t op

/-- An engine without a shard count has one shard. -/
def Engine.normalized (e : Engine) : Engine :=
  { e with shardCount := if e.shardCount = 0 then 1 else e.shardCount }

/-- The checks that do not depend on the operation. -/
def checkEnvelope (e : Engine) (t : Transaction) : Except Error Unit := do
  t.verifyForNetwork C e.network
  t.verifyWitnesses C
  let router := e.normalized.router
  let senderShard ← failWith .shard (router.shardForAccount t.sender)
  refuse (t.shardID ≠ senderShard) .shard
  forM t.inputs fun i => do
    let inputShard ← failWith .shard (router.shardForObject i.objectID)
    refuse (inputShard ≠ t.shardID) .shard

/-- `Engine.Execute`. -/
def execute (e : Engine) (t : Transaction) : Except Error Result := do
  checkEnvelope C e t
  match t.operations with
  | [op] => executeOperation C e.normalized t op
  | _ => throw .unsupportedOperation

-- ==== batches

inductive AccessMode where
  | read
  | write
  deriving DecidableEq

/-- A Go `map[types.ObjectID]accessMode`. -/
abbrev AccessModes := AList fun _ : ObjectID => AccessMode

/-- Mark an input as read or written; the object must be an input. -/
def AccessModes.mark (accesses : AccessModes) (id : ObjectID)
    (mode : AccessMode) : Except Error AccessModes := do
  refuse (id ∉ accesses) .batchConflict
  return accesses.insert id mode

def transactionAccesses (t : Transaction) : Except Error AccessModes := do
  let accesses := t.inputs.foldl
    (fun (m : AccessModes) i => m.insert i.objectID .write) ∅
  match t.operations with
  | [op] =>
    if op.kind = Op.transfer then
      (t.objects.filter fun o => o.kind = .tokenDefinition).foldlM
        (fun m o => m.mark o.id .read) accesses
    else if op.kind = Op.contractCall then do
      let call ← parseCall op.payload
      let accesses ← accesses.mark call.contractObject .read
      call.accesses.foldlM
        (fun m a => m.mark a.objectID (if a.write then .write else .read))
        accesses
    else pure accesses
  | _ => pure accesses

/-- Add one access to those of the batch. -/
def mergeAccess (all : AccessModes) (entry : Σ _ : ObjectID, AccessMode) :
    Except Error AccessModes :=
  match all.lookup entry.1 with
  | some prior => do
      refuse (prior = .write ∨ entry.2 = .write) .batchConflict
      return all
  | none => .ok (all.insert entry.1 entry.2)

structure BatchSeen where
  transactions : List Hash
  accesses : AccessModes

def independentStep (root : Hash) (s : BatchSeen) (t : Transaction) :
    Except Error BatchSeen := do
  refuse (t.stateRoot ≠ root) .batchStateRoot
  refuse (t.id C ∈ s.transactions) .batchConflict
  let accesses ← transactionAccesses t
  let all ← accesses.entries.foldlM mergeAccess s.accesses
  return ⟨t.id C :: s.transactions, all⟩

def validateIndependentBatch (transactions : List Transaction) :
    Except Error Unit := do
  match transactions with
  | [] => return
  | first :: _ =>
    let _ ← transactions.foldlM (independentStep C first.stateRoot) ⟨[], ∅⟩

/-- `BatchExecutor.ExecuteBatch`. -/
def executeBatch (e : Engine) (transactions : List Transaction) :
    Except Error (List Result) := do
  validateIndependentBatch C transactions
  transactions.mapM (execute C e)

/-- `BatchExecutor.ApplyBatch` on a shard's state: the new state and the
results, or the error that left the state as it was. -/
def applyBatch (e : Engine) (store : WorldState.Memory)
    (transactions : List Transaction) :
    Except Error (WorldState.Memory × List Result) :=
  match transactions with
  | [] => .ok (store, [])
  | first :: _ => do
      refuse (store.root C ≠ first.stateRoot) .batchStateRoot
      let results ← executeBatch C e transactions
      let applied := store.apply C (results.flatMap Result.consumed)
        (results.flatMap Result.created)
      match applied.2.2 with
      | none => return (applied.1, results)
      | some err => throw err

end ZephyrChain.Execution
