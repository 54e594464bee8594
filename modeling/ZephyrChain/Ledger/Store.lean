/-
The store of the account ledger (`internal/ledger/store.go` and the round
operations of `consensus_queries.go`): one operation after the other
under a lock, each written to the state file before it takes effect.

# Operations

Every operation computes a next state from the current one, writes it,
and installs it. `Operation.next` is the first part; `none` stands for a
call that succeeds without writing. The lists of consensus actions that
some operations also append to are left out of the state.

# The file

`Node` is the store with its state file. Replacing the file is atomic: a
write puts the whole state there, or fails and leaves the file as it was.
The file is JSON, which changes a string that is not valid UTF-8;
`reread` is what comes back of a state that has been written.
-/
import ZephyrChain.Ledger.Snapshot

namespace ZephyrChain.Ledger

open Lib

-- ==== opening

/-- The state of a store without a file. -/
def emptyState (chainID : Bytes) : PersistedState where
  chainID := chainID
  accounts := ∅
  mempool := []
  blocks := []
  committedTransactionIDs := ∅
  appliedFundingIDs := ∅
  validatorSnapshot := ⟨[], ⟨0, 0, 0⟩, 0, none⟩
  roundState := ⟨1, 0, 0⟩
  proposals := []
  votes := []
  commitCertificates := []

/-- `NewStoreWithChainID` on an empty directory. -/
def newStoreWithChainID (H : Host) (chainID : Bytes) :
    Except Error PersistedState := do
  validateChainID H (configuredChainID chainID)
  return emptyState (configuredChainID chainID)

/-- `load` of a state file. -/
def load (chainID : Bytes) (file : PersistedState) :
    Except Error PersistedState := do
  refuse (file.chainID = [] ∨ file.chainID ≠ chainID) .stateChainMismatch
  refuse (∃ block ∈ file.blocks, block.chainID ≠ chainID) .stateChainMismatch
  return normalizeState file

-- ==== accounts

/-- Nothing is written when the request has already been applied. -/
def creditWithID (s : PersistedState) (requestID address : Bytes)
    (amount : UInt64) : Except Error (Option PersistedState) :=
  if requestID ≠ [] ∧ requestID ∈ s.appliedFundingIDs then .ok none
  else do
    let account := accountAt s.accounts address
    let nextBalance ← require (addUint64 account.balance amount)
      .balanceOverflow
    return some { s with
      accounts := s.accounts.insert address
        { account with balance := nextBalance }
      appliedFundingIDs :=
        if requestID ≠ [] then insert requestID s.appliedFundingIDs
        else s.appliedFundingIDs }

structure PendingState where
  nextNonce : UInt64
  reservedBalance : UInt64
  pendingCount : Nat
  nonceExhausted : Bool
  deriving DecidableEq

/-- One iteration of `rebuildPendingState`, for an entry of the sender. -/
def PendingState.queue (pending : PendingState) (e : Envelope) :
    PendingState where
  nextNonce := (nextUint64 e.nonce).getD e.nonce
  reservedBalance := saturatingAddUint64 pending.reservedBalance e.amount
  pendingCount := pending.pendingCount + 1
  nonceExhausted := (nextUint64 e.nonce).isNone

/-- What `rebuildPendingState` holds for one sender. -/
def pendingState (mempool : List MempoolEntry) (address : Bytes) :
    PendingState :=
  (mempool.filter fun entry => entry.envelope.fromAddress = address).foldl
    (fun pending entry => pending.queue entry.envelope) ⟨0, 0, 0, false⟩

/-- The part of the balance the pending entries have not reserved. -/
def availableBalance (balance : UInt64) (pending : PendingState) : UInt64 :=
  if balance < pending.reservedBalance then 0
  else balance - pending.reservedBalance

def accept (H : Host) (s : PersistedState) (envelope : Envelope) (now : Time) :
    Except Error PersistedState := do
  let id := txID H envelope
  refuse (id ∈ s.committedTransactionIDs) .duplicateTransaction
  refuse (∃ entry ∈ s.mempool, entry.id = id) .duplicateTransaction
  let pending := pendingState s.mempool envelope.fromAddress
  let account := accountAt s.accounts envelope.fromAddress
  let expectedNonce ← require (nextUint64 account.nonce) .nonceExhausted
  refuse (0 < pending.pendingCount ∧ pending.nonceExhausted = true)
    .nonceExhausted
  let expectedNonce :=
    if 0 < pending.pendingCount then pending.nextNonce else expectedNonce
  refuse (envelope.nonce ≠ expectedNonce) .invalidNonce
  refuse (availableBalance account.balance pending < envelope.amount)
    .insufficientBalance
  return { s with
    accounts := s.accounts.insert envelope.fromAddress account
    mempool := s.mempool ++ [⟨id, now, envelope⟩] }

-- ==== blocks

def buildNextBlock (H : Host) (s : PersistedState) (maxTransactions : Int)
    (producedAt now : Time) : Except Error Block := do
  let produced ← produceBlockFromState H s maxTransactions producedAt now
    s.chainID
  return produced.2

def produceBlockWithOptions (H : Host) (s : PersistedState)
    (maxTransactions : Int) (producedAt now : Time) (requireConsensus : Bool) :
    Except Error PersistedState :=
  if requireConsensus then do
    let produced ← produceCertifiedBlockFromState H s producedAt s.chainID
    let proposal ← failWith .consensusProposalRequired
      (proposalForProduction s producedAt true)
    refuse (proposal.blockHash ≠ produced.2.hash) .consensusProposalRequired
    return produced.1
  else do
    let produced ← produceBlockFromState H s maxTransactions producedAt now
      s.chainID
    return produced.1

def importBlockWithOptions (H : Host) (s : PersistedState) (block : Block)
    (requireConsensus : Bool) : Except Error PersistedState := do
  let nextState ← importBlockIntoState H s block s.chainID
  if requireConsensus then
    validateBlockConsensus s block true
  return nextState

def importBlockWithEvidence (H : Host) (s : PersistedState) (block : Block)
    (evidence : CertifiedBlockEvidence) (now : Time) :
    Except Error PersistedState := do
  refuse (s.validatorSnapshot.validators.length = 0) .noValidatorSet
  let nextState ← importBlockIntoState H s block s.chainID
  let evidenceState ← attachCertifiedBlockEvidence H s block evidence now
    s.chainID
  return { nextState with
    proposals := evidenceState.proposals
    votes := evidenceState.votes
    commitCertificates := evidenceState.commitCertificates }

-- ==== consensus

def setValidators (s : PersistedState) (validators : List Validator)
    (config : ElectionConfig) (now : Time) : Except Error PersistedState := do
  refuse (sumValidatorVotingPower validators = none) .votingPowerOverflow
  return { s with
    validatorSnapshot := normalizeValidatorSnapshot
      { validators := validators
        electionConfig := normalizeElectionConfig config
        version := s.validatorSnapshot.version + 1
        updatedAt := some now }
    roundState := ⟨s.blocks.length + 1, 0, 0⟩
    proposals := []
    votes := []
    commitCertificates := [] }

def recordProposal (H : Host) (s : PersistedState) (proposal : Proposal)
    (now : Time) : Except Error PersistedState := do
  proposal.validateForChain H s.chainID
  recordProposalIntoState H s proposal now s.chainID

def recordVote (H : Host) (s : PersistedState) (vote : Vote) (now : Time) :
    Except Error (PersistedState × VoteTally × Option CommitCertificate) := do
  vote.validateForChain H s.chainID
  recordVoteIntoState H s vote now

/-- Nothing is written when the round has already started. -/
def ensureRoundStarted (s : PersistedState) (start now : Time) :
    Except Error (Option PersistedState) := do
  refuse (s.validatorSnapshot.validators.length = 0) .noValidatorSet
  if s.roundState.startedAt ≠ 0 then return none
  else return some { s with
    roundState := { s.roundState with
      startedAt := if start = 0 then now else start } }

/-- The round is counted in 64 bits. -/
def advanceRound (s : PersistedState) (start now : Time) :
    Except Error PersistedState := do
  refuse (s.validatorSnapshot.validators.length = 0) .noValidatorSet
  return { s with
    roundState := { s.roundState with
      round := s.roundState.round + 1
      startedAt := if start = 0 then now else start } }

-- ==== operations

/-- The operations that may change a store. -/
inductive Operation where
  | creditWithID (requestID address : Bytes) (amount : UInt64)
  | accept (envelope : Envelope)
  | produceBlock (maxTransactions : Int) (producedAt : Time)
      (requireConsensus : Bool)
  | importBlock (block : Block) (requireConsensus : Bool)
  | importBlockWithEvidence (block : Block) (evidence : CertifiedBlockEvidence)
  | setValidators (validators : List Validator) (config : ElectionConfig)
  | recordProposal (proposal : Proposal)
  | recordVote (vote : Vote)
  | ensureRoundStarted (start : Time)
  | advanceRound (start : Time)
  | restoreQuorumSnapshot (snapshot : Snapshot) (chainID : Bytes)
      (proofs : List SnapshotProof) (trusted : ValidatorSnapshot)

/-- The state an operation writes, if it writes one. -/
def Operation.next (H : Host) (s : PersistedState) (now : Time) :
    Operation → Except Error (Option PersistedState)
  | .creditWithID requestID address amount =>
    Ledger.creditWithID s requestID address amount
  | .accept envelope => some <$> Ledger.accept H s envelope now
  | .produceBlock maxTransactions producedAt requireConsensus =>
    some <$> produceBlockWithOptions H s maxTransactions producedAt now
      requireConsensus
  | .importBlock block requireConsensus =>
    some <$> importBlockWithOptions H s block requireConsensus
  | .importBlockWithEvidence block evidence =>
    some <$> Ledger.importBlockWithEvidence H s block evidence now
  | .setValidators validators config =>
    some <$> Ledger.setValidators s validators config now
  | .recordProposal proposal => some <$> Ledger.recordProposal H s proposal now
  | .recordVote vote =>
    (fun recorded => some recorded.1) <$> Ledger.recordVote H s vote now
  | .ensureRoundStarted start => Ledger.ensureRoundStarted s start now
  | .advanceRound start => some <$> Ledger.advanceRound s start now
  | .restoreQuorumSnapshot snapshot chainID proofs trusted =>
    some <$> Ledger.restoreQuorumSnapshot H s snapshot chainID proofs trusted

-- ==== node

/-- A store and its state file. -/
structure Node where
  store : PersistedState
  file : PersistedState

/-- What a node is asked to do. `writes` says whether the state file can
be replaced. -/
inductive Call where
  | operation (op : Operation) (now : Time) (writes : Bool)
  | reopen

/-- A call on a node, with the error it returns. The state is written to
the file before it is installed. -/
def Node.call (H : Host) (reread : PersistedState → PersistedState)
    (n : Node) : Call → Node × Option Error
  | .operation op now writes =>
    match op.next H n.store now with
    | .error e => (n, some e)
    | .ok none => (n, none)
    | .ok (some state) =>
      if writes then (⟨normalizeState state, normalizeState state⟩, none)
      else (n, some .io)
  | .reopen =>
    match load n.store.chainID (reread n.file) with
    | .error e => (n, some e)
    | .ok store => ({ n with store := store }, none)

end ZephyrChain.Ledger
