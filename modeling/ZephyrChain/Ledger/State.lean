/-
The state of the account ledger and the functions that execute a block
on it (`internal/ledger`: `store.go`, `arithmetic.go`, `round_state.go`,
`state_commitment.go`, `proposal_state.go`, and `blockFromProposal` of
`certified_production.go`).

# The state

`PersistedState` is the source's record of the same name without the log
of consensus actions, the diagnostics and the peer incidents, which none
of the modelled functions reads. The account map is a `Finmap`. The two
identifier lists are kept sorted and without duplicates by the source, so
they are sets here, and the order comes back where they are committed.
What is left of `normalizeState` are the defaults of the election config
and the reset of a round that belongs to another height.

# The three executors

A block is executed by `produceBlockFromState` for the mempool, by
`importBlockIntoState` for a block of another node and by
`expectedStateRootFromState` for a proposal. The source writes the
transfer loop three times; its body is `transfer`, and each executor has
its own checks around it. `time.Now` is an argument.
-/
import ZephyrChain.Ledger.Messages
import Mathlib.Data.Finmap
import Mathlib.Data.List.Sort

namespace ZephyrChain.Ledger

open Lib

-- ==== validators

/-- `commissionRate` holds the 64 bits of the source's float. -/
structure Validator where
  rank : Int
  address : Bytes
  votingPower : UInt64
  selfStake : UInt64
  delegatedStake : UInt64
  commissionRate : UInt64
  deriving DecidableEq

structure ValidatorSnapshot where
  validators : List Validator
  electionConfig : ElectionConfig
  version : UInt64
  updatedAt : Option Time
  deriving DecidableEq

def normalizeElectionConfig (c : ElectionConfig) : ElectionConfig where
  maxValidators := if c.maxValidators ≤ 0 then 21 else c.maxValidators
  minSelfStake := if c.minSelfStake = 0 then 10000 else c.minSelfStake
  maxMissedBlocks := if c.maxMissedBlocks = 0 then 50 else c.maxMissedBlocks

def normalizeValidatorSnapshot (snapshot : ValidatorSnapshot) :
    ValidatorSnapshot :=
  if 0 < snapshot.version ∨ snapshot.validators ≠ [] ∨
      snapshot.updatedAt ≠ none then
    { snapshot with
      electionConfig := normalizeElectionConfig snapshot.electionConfig }
  else snapshot

/-- The member whose turn a height and round are; the index is computed
in 64 bits. -/
def proposerForHeightRound (validators : List Validator) (height : Nat)
    (round : UInt64) : Bytes :=
  if validators.length = 0 ∨ height = 0 then []
  else
    let index := (height - 1 + round.toNat) % 2 ^ 64 % validators.length
    (validators[index]?.map Validator.address).getD []

-- ==== arithmetic

def addUint64 (left right : UInt64) : Option UInt64 :=
  if Overflows left right then none else some (left + right)

def saturatingAddUint64 (left right : UInt64) : UInt64 :=
  (addUint64 left right).getD (UInt64.ofNat (2 ^ 64 - 1))

def nextUint64 (value : UInt64) : Option UInt64 :=
  if value = UInt64.ofNat (2 ^ 64 - 1) then none else some (value + 1)

def sumValidatorVotingPower (validators : List Validator) : Option UInt64 :=
  validators.foldlM (fun total v => addUint64 total v.votingPower) 0

def totalVotingPower (snapshot : ValidatorSnapshot) : UInt64 :=
  (sumValidatorVotingPower
    (normalizeValidatorSnapshot snapshot).validators).getD
      (UInt64.ofNat (2 ^ 64 - 1))

def quorumVotingPower (total : UInt64) : UInt64 :=
  if total = 0 then 0 else total / 3 * 2 + total % 3 * 2 / 3 + 1

/-- The power of the first entry with the address. -/
def validatorVotingPower (snapshot : ValidatorSnapshot) (address : Bytes) :
    Option UInt64 :=
  ((normalizeValidatorSnapshot snapshot).validators.find?
    fun v => v.address = address).map Validator.votingPower

-- ==== state

structure AccountState where
  address : Bytes
  balance : UInt64
  nonce : UInt64
  deriving DecidableEq

abbrev Accounts := Finmap fun _ : Bytes => AccountState

structure MempoolEntry where
  id : Bytes
  queuedAt : Time
  envelope : Envelope
  deriving DecidableEq

structure Block where
  chainID : Bytes
  height : Nat
  hash : Bytes
  previousHash : Bytes
  stateRoot : Bytes
  producedAt : Time
  transactionCount : Int
  transactionIDs : List Bytes
  transactions : List Envelope
  deriving DecidableEq

structure ConsensusRoundState where
  height : Nat
  round : UInt64
  startedAt : Time
  deriving DecidableEq

structure VoteRecord where
  vote : Vote
  votingPower : UInt64
  recordedAt : Time
  deriving DecidableEq

structure CommitCertificate where
  height : Nat
  round : UInt64
  blockHash : Bytes
  votingPower : UInt64
  quorumVotingPower : UInt64
  voterCount : Nat
  voters : List Bytes
  createdAt : Time
  deriving DecidableEq

structure PersistedState where
  chainID : Bytes
  accounts : Accounts
  mempool : List MempoolEntry
  blocks : List Block
  committedTransactionIDs : Finset Bytes
  appliedFundingIDs : Finset Bytes
  validatorSnapshot : ValidatorSnapshot
  roundState : ConsensusRoundState
  proposals : List Proposal
  votes : List VoteRecord
  commitCertificates : List CommitCertificate
  deriving DecidableEq

def normalizeConsensusRoundState (roundState : ConsensusRoundState)
    (blocks : List Block) : ConsensusRoundState :=
  if roundState.height ≠ blocks.length + 1 then ⟨blocks.length + 1, 0, 0⟩
  else roundState

def normalizeState (state : PersistedState) : PersistedState :=
  { state with
    validatorSnapshot := normalizeValidatorSnapshot state.validatorSnapshot
    roundState := normalizeConsensusRoundState state.roundState state.blocks }

/-- A read of the account map: a missing entry is the zero account. -/
def accountAt (accounts : Accounts) (address : Bytes) : AccountState :=
  { (accounts.lookup address).getD ⟨[], 0, 0⟩ with address := address }

-- ==== state root

/-- The floats `json.Marshal` accepts: neither infinite nor NaN. -/
def finiteFloat (bits : UInt64) : Bool := bits.toNat / 2 ^ 52 % 2 ^ 11 ≠ 2047

/-- `json.Marshal` of the committed state. -/
def marshalState (H : Host) (payload : CommittedStatePayload) :
    Except Error Bytes :=
  if payload.validators.all fun v => finiteFloat v.commissionRate then
    .ok (H.marshalState payload)
  else .error .json

/-- The order the committed validators are put in. -/
def committedBefore (v w : Validator) : Prop :=
  v.rank < w.rank ∨ (v.rank = w.rank ∧ v.address ≤ w.address)

instance : DecidableRel committedBefore := fun _ _ =>
  inferInstanceAs (Decidable (_ ∨ _))

/-- `sort.Strings` of a set: the list it is kept as does not matter. -/
def sortedStrings (strings : Finset Bytes) : List Bytes :=
  Quot.liftOn strings.val (List.insertionSort (· ≤ ·)) fun xs ys hperm =>
    List.Perm.eq_of_pairwise' (List.pairwise_insertionSort _ xs)
      (List.pairwise_insertionSort _ ys)
      ((List.perm_insertionSort _ xs).trans
        (hperm.trans (List.perm_insertionSort _ ys).symm))

def committedAccounts (accounts : Accounts) : List CommittedAccount :=
  (sortedStrings accounts.keys).map fun address =>
    ⟨address, (accountAt accounts address).balance,
      (accountAt accounts address).nonce⟩

def committedValidators (validators : List Validator) :
    List CommittedValidator :=
  (validators.insertionSort committedBefore).map fun v =>
    ⟨v.address, v.commissionRate, v.delegatedStake, v.rank, v.selfStake,
      v.votingPower⟩

/-- The key an account is stored under is its address. -/
def AddressKeyed (accounts : Accounts) : Prop :=
  ∀ address ∈ accounts.keys, ∀ account ∈ accounts.lookup address,
    account.address = [] ∨ account.address = address

instance (accounts : Accounts) : Decidable (AddressKeyed accounts) :=
  inferInstanceAs (Decidable (∀ address ∈ accounts.keys, _))

def stateRootWithFundingIDs (H : Host) (chainID : Bytes) (accounts : Accounts)
    (snapshot : ValidatorSnapshot) (appliedFundingIDs : Finset Bytes) :
    Except Error Bytes := do
  failWith .invalidStateRoot (validateChainID H (trimSpace chainID))
  refuse (¬ AddressKeyed accounts) .invalidStateRoot
  let normalized := normalizeValidatorSnapshot snapshot
  let payload ← marshalState H
    { accounts := committedAccounts accounts
      appliedFundingIDs := sortedStrings appliedFundingIDs
      chainID := trimSpace chainID
      domain := stateDomain
      electionConfig := normalized.electionConfig
      validatorSetVersion := normalized.version
      validators := committedValidators normalized.validators }
  return H.hexDigest payload

def stateRootFromState (H : Host) (chainID : Bytes) (state : PersistedState) :
    Except Error Bytes :=
  stateRootWithFundingIDs H chainID state.accounts
    (normalizeState state).validatorSnapshot state.appliedFundingIDs

-- ==== executors

/-- The body of the transfer loop. -/
def transfer (accounts : Accounts) (e : Envelope) : Except Error Accounts := do
  let sender := accountAt accounts e.fromAddress
  let expectedNonce ← require (nextUint64 sender.nonce) .blockInvariant
  refuse (sender.balance < e.amount ∨ expectedNonce ≠ e.nonce) .blockInvariant
  let accounts := accounts.insert e.fromAddress
    { sender with balance := sender.balance - e.amount, nonce := e.nonce }
  let receiver := accountAt accounts e.toAddress
  let receiverBalance ← require (addUint64 receiver.balance e.amount)
    .blockInvariant
  return accounts.insert e.toAddress
    { receiver with balance := receiverBalance }

/-- `blockHash`. -/
def Block.computeHash (H : Host) (b : Block) : Bytes :=
  blockHashOf H b.chainID b.height b.previousHash b.producedAt b.stateRoot
    b.transactionIDs

/-- A block whose hash is the one of its fields. -/
def sealedBlock (H : Host) (chainID : Bytes) (height : Nat)
    (previousHash stateRoot : Bytes) (producedAt : Time)
    (transactionIDs : List Bytes) (transactions : List Envelope) : Block where
  chainID := chainID
  height := height
  hash := blockHashOf H chainID height previousHash producedAt stateRoot
    transactionIDs
  previousHash := previousHash
  stateRoot := stateRoot
  producedAt := producedAt
  transactionCount := transactions.length
  transactionIDs := transactionIDs
  transactions := transactions

/-- How many entries of the mempool a block takes. -/
def selectedCount (maxTransactions : Int) (mempool : List MempoolEntry) : Nat :=
  if maxTransactions ≤ 0 ∨ (mempool.length : Int) < maxTransactions then
    mempool.length
  else maxTransactions.toNat

/-- The hash of the last block. -/
def latestHash (blocks : List Block) : Bytes :=
  (blocks.getLast?.map Block.hash).getD []

def produceBlockFromState (H : Host) (state : PersistedState)
    (maxTransactions : Int) (producedAt now : Time) (chainID : Bytes) :
    Except Error (PersistedState × Block) := do
  let state := normalizeState state
  refuse (state.mempool.length = 0) .noTransactionsToBlock
  let count := selectedCount maxTransactions state.mempool
  let selected := state.mempool.take count
  let height := (state.blocks.getLast?.map Block.height).getD 0 + 1
  let accounts ← selected.foldlM
    (fun accounts entry => transfer accounts entry.envelope) state.accounts
  let stateRoot ← stateRootFromState H chainID
    { state with accounts := accounts }
  let block := sealedBlock H chainID height (latestHash state.blocks) stateRoot
    (if producedAt = 0 then now else producedAt)
    (selected.map MempoolEntry.id) (selected.map MempoolEntry.envelope)
  return (normalizeState { state with
    accounts := accounts
    mempool := state.mempool.drop count
    blocks := state.blocks ++ [block]
    committedTransactionIDs := state.committedTransactionIDs ∪
      (selected.map MempoolEntry.id).toFinset }, block)

/-- One iteration of the import loop. -/
def importTransaction (H : Host) (chainID : Bytes) (committed : Finset Bytes)
    (accounts : Accounts) (entry : Envelope × Bytes) :
    Except Error Accounts := do
  failWith .invalidBlock (entry.1.validateForChain H chainID)
  refuse (entry.2 ≠ txID H entry.1) .invalidBlock
  refuse (txID H entry.1 ∈ committed) .blockConflict
  transfer accounts entry.1

/-- The part of the import that executes the next block. -/
def appendBlock (H : Host) (state : PersistedState) (block : Block)
    (chainID : Bytes) : Except Error PersistedState := do
  refuse (block.previousHash ≠ latestHash state.blocks) .blockOutOfSequence
  let accounts ← (block.transactions.zip block.transactionIDs).foldlM
    (importTransaction H chainID state.committedTransactionIDs) state.accounts
  let stateRoot ← failWith .blockInvariant
    (stateRootFromState H chainID { state with accounts := accounts })
  refuse (stateRoot ≠ block.stateRoot) .blockInvariant
  let transactionIDs := block.transactions.map (txID H)
  let sanitized := sealedBlock H chainID block.height block.previousHash
    stateRoot block.producedAt transactionIDs block.transactions
  refuse (block.hash ≠ sanitized.hash) .invalidBlock
  return normalizeState { state with
    accounts := accounts
    mempool := state.mempool.filter fun entry => entry.id ∉ transactionIDs
    blocks := state.blocks ++ [sanitized]
    committedTransactionIDs := state.committedTransactionIDs ∪
      transactionIDs.toFinset }

def importBlockIntoState (H : Host) (state : PersistedState) (block : Block)
    (chainID : Bytes) : Except Error PersistedState := do
  let state := normalizeState state
  refuse (block.chainID ≠ chainID ∨ block.stateRoot = []) .invalidBlock
  refuse (block.height = 0) .invalidBlock
  refuse (block.transactionCount ≠ block.transactions.length ∨
    block.transactionIDs.length ≠ block.transactions.length) .invalidBlock
  if block.height ≤ state.blocks.length then
    -- the height is taken: the same block is no news, another one a conflict
    refuse ((state.blocks[block.height - 1]?.map Block.hash).getD [] ≠
      block.hash) .blockConflict
    return state
  else
    refuse (block.height ≠ state.blocks.length + 1) .blockOutOfSequence
    appendBlock H state block chainID

/-- One iteration of the loop of `expectedStateRootFromState`. -/
def expectTransaction (H : Host) (chainID : Bytes) (accounts : Accounts)
    (e : Envelope) : Except Error Accounts := do
  failWith .blockInvariant (e.validateForChain H chainID)
  transfer accounts e

def expectedStateRootFromState (H : Host) (state : PersistedState)
    (chainID : Bytes) (transactions : List Envelope) : Except Error Bytes := do
  let state := normalizeState state
  let accounts ← transactions.foldlM (expectTransaction H chainID)
    state.accounts
  stateRootFromState H chainID { state with accounts := accounts }

def blockFromProposal (H : Host) (p : Proposal) : Block :=
  sealedBlock H p.chainID p.height p.previousHash p.stateRoot p.producedAt
    p.transactionIDs p.transactions

end ZephyrChain.Ledger
