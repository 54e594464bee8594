/-
Snapshots of the account ledger and the quorum proofs they are restored
with (`internal/ledger/snapshot_security.go`).

A snapshot has the fields of the persisted state. A validator signs the
hash, height and state root of its last block and the version of its
validator set; a store installs the snapshot when the signers hold a
quorum of a validator set it trusts.
-/
import ZephyrChain.Ledger.Consensus

namespace ZephyrChain.Ledger

open Lib

abbrev Snapshot := PersistedState

structure SnapshotProof where
  blockHash : Bytes
  chainID : Bytes
  domain : Bytes
  height : Nat
  payload : Bytes
  publicKey : Bytes
  signature : Bytes
  signer : Bytes
  stateCommitment : Bytes
  validatorSetVersion : UInt64
  deriving DecidableEq

def SnapshotProof.canonicalPayload (H : Host) (p : SnapshotProof) : Bytes :=
  H.marshalSnapshotProof
    { blockHash := p.blockHash
      chainID := trimSpace p.chainID
      domain := trimSpace p.domain
      height := p.height
      signer := p.signer
      stateCommitment := p.stateCommitment
      validatorSetVersion := p.validatorSetVersion }

/-- One transaction of a snapshot's block; the loop carries the
identifiers it has seen in all blocks. -/
def validateSnapshotTransaction (H : Host) (chainID : Bytes)
    (seen : List Bytes) (entry : Envelope × Bytes) :
    Except Error (List Bytes) := do
  failWith .invalidSnapshot (entry.1.validateForChain H chainID)
  refuse (entry.2 ≠ txID H entry.1) .invalidSnapshot
  refuse (txID H entry.1 ∈ seen) .invalidSnapshot
  return txID H entry.1 :: seen

/-- The loop over the blocks, behind `count` blocks of which the last has
the given hash. -/
def validateSnapshotBlocks (H : Host) (chainID : Bytes) (count : Nat)
    (previousHash : Bytes) (seen : List Bytes) :
    List Block → Except Error Unit
  | [] => .ok ()
  | block :: rest => do
      refuse (block.chainID ≠ chainID) .snapshotChainMismatch
      refuse (block.height ≠ count + 1 ∨ block.previousHash ≠ previousHash ∨
        block.stateRoot = []) .invalidSnapshot
      refuse (block.transactionCount ≠ block.transactions.length ∨
        block.transactionIDs.length ≠ block.transactions.length)
        .invalidSnapshot
      let seen ← (block.transactions.zip block.transactionIDs).foldlM
        (validateSnapshotTransaction H chainID) seen
      refuse (block.hash ≠ block.computeHash H) .invalidSnapshot
      validateSnapshotBlocks H chainID (count + 1) block.hash seen rest

def validateSnapshotCommittedState (H : Host) (snapshot : Snapshot)
    (chainID : Bytes) : Except Error Block := do
  failWith .snapshotChainMismatch (validateChainID H (trimSpace chainID))
  refuse (snapshot.chainID ≠ trimSpace chainID) .snapshotChainMismatch
  let latest ← require snapshot.blocks.getLast? .invalidSnapshot
  validateSnapshotBlocks H (trimSpace chainID) 0 [] [] snapshot.blocks
  let root ← failWith .invalidStateRoot
    (stateRootWithFundingIDs H (trimSpace chainID) snapshot.accounts
      snapshot.validatorSnapshot snapshot.appliedFundingIDs)
  refuse (root ≠ latest.stateRoot) .invalidStateRoot
  refuse (sumValidatorVotingPower snapshot.validatorSnapshot.validators =
    none) .votingPowerOverflow
  return latest

/-- The voting power the signer of a valid proof has in the trusted set. -/
def validateSnapshotProof (H : Host) (snapshot : Snapshot) (chainID : Bytes)
    (proof : SnapshotProof) (trusted : ValidatorSnapshot) :
    Except Error UInt64 := do
  let latest ← validateSnapshotCommittedState H snapshot chainID
  refuse (trimSpace proof.chainID ≠ trimSpace chainID) .snapshotChainMismatch
  refuse (proof.domain ≠ snapshotDomain ∨ proof.height ≠ latest.height ∨
    proof.blockHash ≠ latest.hash ∨
    proof.stateCommitment ≠ latest.stateRoot ∨
    proof.validatorSetVersion ≠ snapshot.validatorSnapshot.version)
    .snapshotProofInvalid
  refuse (proof.signer = [] ∨ proof.payload = [] ∨ proof.publicKey = [] ∨
    proof.signature = [] ∨ proof.payload ≠ proof.canonicalPayload H)
    .snapshotProofInvalid
  let address ← failWith .snapshotProofInvalid
    (deriveAddressFromPublicKey H proof.publicKey)
  refuse (address ≠ proof.signer) .snapshotProofInvalid
  failWith .snapshotProofInvalid
    (verifySignature H proof.publicKey proof.payload proof.signature)
  require (validatorVotingPower trusted proof.signer) .snapshotProofInvalid

/-- One iteration of the quorum loop: the signers counted and their
power. A proof that does not validate is passed over. -/
def countSnapshotProof (H : Host) (snapshot : Snapshot) (chainID : Bytes)
    (trusted : ValidatorSnapshot) (counted : List Bytes × UInt64)
    (proof : SnapshotProof) : Except Error (List Bytes × UInt64) :=
  if proof.signer ∈ counted.1 then .ok counted
  else
    match validateSnapshotProof H snapshot chainID proof trusted with
    | .error _ => .ok counted
    | .ok power => do
        let next ← require (addUint64 counted.2 power) .votingPowerOverflow
        return (proof.signer :: counted.1, next)

def validateSnapshotQuorum (H : Host) (snapshot : Snapshot) (chainID : Bytes)
    (proofs : List SnapshotProof) (trusted : ValidatorSnapshot) :
    Except Error Unit := do
  let total := totalVotingPower trusted
  refuse (total = 0 ∨ quorumVotingPower total = 0) .snapshotQuorumRequired
  let signed ← proofs.foldlM (countSnapshotProof H snapshot chainID trusted)
    ([], 0)
  refuse (signed.2 < quorumVotingPower total) .snapshotQuorumRequired

def committedIDsFromBlocks (blocks : List Block) : Finset Bytes :=
  (blocks.flatMap Block.transactionIDs).toFinset

/-- The state a store holds after it has installed a snapshot. -/
def installedState (snapshot : Snapshot) : PersistedState :=
  normalizeState { snapshot with
    mempool := []
    roundState := ⟨snapshot.blocks.length + 1, 0, 0⟩
    proposals := []
    votes := []
    commitCertificates := []
    committedTransactionIDs := committedIDsFromBlocks snapshot.blocks }

/-- `RestoreQuorumSnapshot` up to the write. The store's own chain
identifier is compared when the state is written. -/
def restoreQuorumSnapshot (H : Host) (store : PersistedState)
    (snapshot : Snapshot) (chainID : Bytes) (proofs : List SnapshotProof)
    (trusted : ValidatorSnapshot) : Except Error PersistedState := do
  validateSnapshotQuorum H snapshot chainID proofs trusted
  refuse (snapshot.chainID ≠ store.chainID) .stateChainMismatch
  return installedState snapshot

end ZephyrChain.Ledger
