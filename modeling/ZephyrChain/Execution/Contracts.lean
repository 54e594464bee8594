/-
Contract and device-credential operations (`internal/v2/execution`,
extended_contract.go and extended_devicecredential.go).

Both kinds of operation move native coins for the fee only. A contract
call rewrites the state objects its engine wrote to; the guard around the
engine has checked that each was declared for writing.
-/
import ZephyrChain.Execution.Tokens
import ZephyrChain.DeviceCredential

namespace ZephyrChain.Execution

open Lib

variable (C : Crypto) (e : Engine) (t : Transaction)

-- ==== contracts

def contractObjectIndex : UInt32 := 0xA0000000

def contractStateIndex : UInt32 := 0xA0000001

def contractReceiptIndex : UInt32 := 0xA0000010

def contractRuntime (name : Bytes) : Option Runtime :=
  match e.contractRuntimes name with
  | some runtime => some runtime
  | none => if name = runtimeZephyrScriptV1 then some e.scriptRuntime else none

def executeDeployContract (payload : Bytes) : Except Error Result := do
  let deployment ← failWith .ownership (parseDeployment payload)
  refuse (deployment.upgradeAuthority ≠ t.sender) .ownership
  let runtime ← require (contractRuntime e deployment.runtime)
    .unsupportedOperation
  runtime.validateModule deployment.code
  let (created, consumed) ← feeOnlyOutputs C e t
  let contractID := contractIDFromTransaction C (t.id C) 0
  let storedRaw ← (StoredContract.mk contractID deployment).marshalBinary
  let stateObjects :=
    if 0 < deployment.initialState.length then
      [newObject C t contractStateIndex
        ⟨t.sender, .contractState, deployment.initialState⟩]
    else []
  return {
    consumed
    created := created ++
      newObject C t contractObjectIndex ⟨t.sender, .contract, storedRaw⟩ ::
        stateObjects
    outbound := []
    txID := t.id C }

/-- The current contents of the objects a call declares. -/
def readValues (accesses : List Access) :
    Except Error (AList fun _ : ObjectID => Bytes) :=
  accesses.foldlM
    (fun values access => do
      let o ← require (witnessByID t access.objectID) .ownership
      refuse (o.kind ≠ .contractState) .ownership
      return values.insert access.objectID o.data)
    ∅

/-- Go's zero value of an object, what a missing map entry reads as. -/
def zeroObject : Object := ⟨Bytes32.zero, 0, Bytes32.zero, .unknown, []⟩

/-- The objects the engine's writes turn into. -/
def writtenObjects (writes : AList fun _ : ObjectID => Bytes) :
    List Object :=
  writes.entries.map fun entry =>
    rewrite ((witnessByID t entry.1).getD zeroObject) entry.2

def executeContractCall (payload : Bytes) : Except Error Result := do
  let call ← parseCall payload
  let contract ← require (witnessByID t call.contractObject) .ownership
  refuse (contract.kind ≠ .contract) .ownership
  let stored ← parseStoredContract contract.data
  let runtime ← require (contractRuntime e stored.deployment.runtime)
    .unsupportedOperation
  let values ← readValues t call.accesses
  let result ← runtime.meteredExecute
    { contractID := stored.id
      runtime := stored.deployment.runtime
      code := stored.deployment.code
      entrypoint := call.entrypoint
      arguments := call.arguments
      accesses := call.accesses
      readValues := values
      fuelLimit := call.fuelLimit }
  let (created, consumed) ←
    feeOnlyOutputsExcluding C e t call.contractObject call.accesses
  let receipt : ContractReceipt :=
    { contractID := stored.id
      fuelUsed := result.fuelUsed
      returnHash :=
        domainHash C "zephyr/contract-return/v2" result.returnData
      eventRoot :=
        Merkle.root C (result.events.map (Merkle.leaf C "contract-event")) }
  return {
    consumed := consumed ++ result.writes.keys
    created := created ++ writtenObjects t result.writes ++
      [newObject C t contractReceiptIndex
        ⟨t.sender, .system, receipt.marshalBinary⟩]
    outbound := []
    txID := t.id C }

-- ==== credentials

/-- The shard of an account; the engine may have no shard count yet. -/
def ownerShard (owner : AccountID) : UInt32 :=
  accountShard owner (if e.shardCount = 0 then 1 else e.shardCount)

def deviceOwnerOnShard (owner : AccountID) (shard : UInt32) : Bool :=
  ownerShard e owner = shard

/-- A credential may not expire before the block that issues it. -/
def expiresTooEarly (spec : CredentialSpec) : Prop :=
  spec.expiresHeight ≠ 0 ∧ spec.expiresHeight ≤ e.height

instance (spec : CredentialSpec) : Decidable (expiresTooEarly e spec) :=
  inferInstanceAs (Decidable (_ ∧ _))

def executeDeviceCredentialRegister (payload : Bytes) :
    Except Error Result := do
  refuse (e.height = 0 ∨ deviceOwnerOnShard e t.sender t.shardID = false)
    .credential
  let spec ← failWith .credential (parseCredentialSpec C payload)
  refuse (expiresTooEarly e spec) .credential
  let (created, consumed) ← feeOnlyOutputs C e t
  let credential : Credential :=
    ⟨t.sender, spec.devicePublicKey, spec.capabilities, e.height,
      spec.expiresHeight, 1⟩
  let raw ← credential.marshalBinary C
  return {
    consumed
    created := created ++ [newObject C t credentialObjectIndex
      ⟨t.sender, .deviceCredential, raw⟩]
    outbound := []
    txID := t.id C }

/-- The sender's credential object an operation names. -/
def credentialWitness (id : ObjectID) :
    Except Error (Object × Credential) := do
  let o ← require (witnessByID t id) .credential
  refuse (o.kind ≠ .deviceCredential ∨ o.owner ≠ t.sender) .credential
  let current ← failWith .credential (parseCredential C o.data)
  refuse (current.owner ≠ t.sender) .credential
  return (o, current)

def executeDeviceCredentialUpdate (payload : Bytes) :
    Except Error Result := do
  refuse (e.height = 0 ∨ deviceOwnerOnShard e t.sender t.shardID = false)
    .credential
  let update ← failWith .credential (parseCredentialUpdate C payload)
  refuse (expiresTooEarly e update.spec) .credential
  let (o, current) ← credentialWitness C t update.objectID
  refuse (current.sequence = UInt64.ofNat (2 ^ 64 - 1)) .credential
  let (created, consumed) ← feeOnlyOutputsExcluding C e t o.id []
  let updated : Credential :=
    ⟨t.sender, update.spec.devicePublicKey, update.spec.capabilities,
      e.height, update.spec.expiresHeight, current.sequence + 1⟩
  let raw ← updated.marshalBinary C
  return {
    consumed := consumed ++ [o.id]
    created := created ++ [rewrite o raw]
    outbound := []
    txID := t.id C }

def executeDeviceCredentialRevoke (payload : Bytes) :
    Except Error Result := do
  let id ← failWith .credential (parseCredentialRef payload)
  refuse (deviceOwnerOnShard e t.sender t.shardID = false) .credential
  let (o, _) ← credentialWitness C t id
  let (created, consumed) ← feeOnlyOutputsExcluding C e t o.id []
  return ⟨consumed ++ [o.id], created, [], t.id C⟩

def executeDeviceCredential (op : Operation) : Except Error Result :=
  if op.kind = Op.deviceCredentialRegister then
    executeDeviceCredentialRegister C e t op.payload
  else if op.kind = Op.deviceCredentialUpdate then
    executeDeviceCredentialUpdate C e t op.payload
  else if op.kind = Op.deviceCredentialRevoke then
    executeDeviceCredentialRevoke C e t op.payload
  else throw .unsupportedOperation

end ZephyrChain.Execution
