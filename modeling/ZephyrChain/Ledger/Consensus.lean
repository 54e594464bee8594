/-
Proposals, votes and certificates of the account ledger
(`internal/ledger`: `consensus_state.go`, `consensus_lookup.go`,
`certified_import.go`, `certified_production.go` and
`validateBlockConsensus` of `store.go`).

A store keeps the proposals and votes it has accepted. A vote that brings
the power behind one block hash of a height and round to the quorum makes
a certificate, and so does a block that arrives with enough signed votes.
The paths that require consensus append only a block with a certificate.
-/
import ZephyrChain.Ledger.State

namespace ZephyrChain.Ledger

open Lib

-- ==== lookups

def hasProposal (proposals : List Proposal) (height : Nat) (round : UInt64)
    (blockHash : Bytes) : Bool :=
  proposals.any fun p =>
    p.height = height ∧ p.round = round ∧ p.blockHash = blockHash

def findProposal (proposals : List Proposal) (height : Nat)
    (round : UInt64) : Option Proposal :=
  proposals.find? fun p => p.height = height ∧ p.round = round

def latestProposalForHeight (proposals : List Proposal) (height : Nat) :
    Option Proposal :=
  proposals.reverse.find? fun p => p.height = height

def proposalsForHeight (proposals : List Proposal) (height : Nat) :
    List Proposal :=
  proposals.filter fun p => p.height = height

def findVoteByValidator (votes : List VoteRecord) (height : Nat)
    (round : UInt64) (voter : Bytes) : Option Vote :=
  (votes.find? fun r => r.vote.height = height ∧ r.vote.round = round ∧
    r.vote.voter = voter).map VoteRecord.vote

def hasVoteFromValidator (votes : List VoteRecord) (height : Nat)
    (round : UInt64) (voter : Bytes) : Bool :=
  votes.any fun r => r.vote.height = height ∧ r.vote.round = round ∧
    r.vote.voter = voter

def findCertificate (certificates : List CommitCertificate) (height : Nat)
    (round : UInt64) (blockHash : Bytes) : Option CommitCertificate :=
  certificates.find? fun c =>
    c.height = height ∧ c.round = round ∧ c.blockHash = blockHash

/-- `matchProposalForBlock` on one proposal. -/
def Proposal.matchesBlock (p : Proposal) (block : Block) : Prop :=
  p.height = block.height ∧ p.blockHash = block.hash ∧
    p.previousHash = block.previousHash ∧ p.producedAt = block.producedAt ∧
    p.transactionIDs = block.transactionIDs ∧
    p.transactions = block.transactions

instance (p : Proposal) (block : Block) : Decidable (p.matchesBlock block) :=
  inferInstanceAs (Decidable (_ ∧ _))

def matchProposalForBlock (proposals : List Proposal) (block : Block) :
    Option Proposal :=
  proposals.find? fun p => p.matchesBlock block

def matchCertificateForBlock (certificates : List CommitCertificate)
    (block : Block) : Option CommitCertificate :=
  certificates.find? fun c =>
    c.height = block.height ∧ c.blockHash = block.hash

def previousHashForHeight (blocks : List Block) (height : Nat) : Bytes :=
  if height ≤ 1 ∨ blocks.length = 0 then [] else latestHash blocks

-- ==== tallies

structure VoteTally where
  height : Nat
  round : UInt64
  blockHash : Bytes
  voteCount : Nat
  votingPower : UInt64
  quorumReached : Bool
  deriving DecidableEq

/-- The stored votes for one block hash of a height and round. -/
def votesForBlock (votes : List VoteRecord) (height : Nat) (round : UInt64)
    (blockHash : Bytes) : List VoteRecord :=
  votes.filter fun r => r.vote.height = height ∧ r.vote.round = round ∧
    r.vote.blockHash = blockHash

def tallyForVotes (votes : List VoteRecord) (height : Nat) (round : UInt64)
    (blockHash : Bytes) (quorum : UInt64) : VoteTally :=
  let counted := votesForBlock votes height round blockHash
  let power := counted.foldl
    (fun power r => saturatingAddUint64 power r.votingPower) 0
  { height := height
    round := round
    blockHash := blockHash
    voteCount := counted.length
    votingPower := power
    quorumReached := quorum ≤ power ∧ 0 < quorum }

def votersForBlock (votes : List VoteRecord) (height : Nat) (round : UInt64)
    (blockHash : Bytes) : List Bytes :=
  ((votesForBlock votes height round blockHash).map
    fun r => r.vote.voter).insertionSort (· ≤ ·)

-- ==== proposals

/-- The common body of `alignRoundStateWithProposal` and
`alignRoundStateWithVote`: a message of an older round is refused, one of
a later round moves the store to it. -/
def alignRoundState (state : PersistedState) (round : UInt64)
    (observedAt : Time) : Except Error PersistedState :=
  if round < state.roundState.round then .error .consensusRoundMismatch
  else if state.roundState.round < round then
    .ok { state with
      roundState := { state.roundState with
        round := round, startedAt := observedAt } }
  else if state.roundState.startedAt = 0 then
    .ok { state with
      roundState := { state.roundState with startedAt := observedAt } }
  else .ok state

def alignRoundStateWithProposal (state : PersistedState) (proposal : Proposal)
    (observedAt : Time) : Except Error PersistedState :=
  alignRoundState state proposal.round observedAt

def alignRoundStateWithVote (state : PersistedState) (vote : Vote)
    (observedAt : Time) : Except Error PersistedState :=
  alignRoundState state vote.round observedAt

/-- The loop of `recordProposalIntoState` over the stored proposals. -/
def storeProposal (proposal : Proposal) :
    List Proposal → Except Error (List Proposal)
  | [] => .ok [proposal]
  | existing :: rest =>
    if existing.height ≠ proposal.height ∨
        existing.round ≠ proposal.round then do
      let stored ← storeProposal proposal rest
      return existing :: stored
    else if existing.blockHash = proposal.blockHash ∧
        existing.proposer = proposal.proposer then
      if existing.transactionIDs ≠ proposal.transactionIDs ∨
          existing.transactions ≠ proposal.transactions then
        .ok (proposal :: rest)
      else .ok (existing :: rest)
    else .error .conflictingProposal

/-- A proposal without a time gets the time it was seen. -/
def Proposal.observed (proposal : Proposal) (now : Time) : Proposal :=
  if proposal.proposedAt = 0 then { proposal with proposedAt := now }
  else proposal

def recordProposalIntoState (H : Host) (state : PersistedState)
    (proposal : Proposal) (now : Time) (chainID : Bytes) :
    Except Error PersistedState := do
  let state := normalizeState state
  let proposal := proposal.observed now
  proposal.validateStatic H
  refuse (state.validatorSnapshot.validators.length = 0) .noValidatorSet
  refuse (proposal.height ≠ state.blocks.length + 1) .consensusHeightMismatch
  refuse (proposal.previousHash ≠
    previousHashForHeight state.blocks proposal.height) .consensusPreviousHash
  refuse (validatorVotingPower state.validatorSnapshot proposal.proposer =
    none) .validatorNotActive
  let state ← alignRoundStateWithProposal state proposal now
  let expected := proposerForHeightRound state.validatorSnapshot.validators
    proposal.height proposal.round
  refuse (expected ≠ [] ∧ proposal.proposer ≠ expected) .unexpectedProposer
  let expectedRoot ← failWith .consensusTemplateMismatch
    (expectedStateRootFromState H state chainID proposal.transactions)
  refuse (proposal.stateRoot ≠ expectedRoot) .consensusTemplateMismatch
  let proposals ← storeProposal proposal state.proposals
  return normalizeState { state with proposals := proposals }

-- ==== votes

/-- A vote without a time gets the time it was seen. -/
def Vote.observed (vote : Vote) (now : Time) : Vote :=
  if vote.votedAt = 0 then { vote with votedAt := now } else vote

/-- The quorum of the current validator set. -/
def PersistedState.quorum (state : PersistedState) : UInt64 :=
  quorumVotingPower (totalVotingPower state.validatorSnapshot)

/-- Store a vote of a validator that has not voted at its height and
round, and certify the block when the vote completes a quorum. -/
def appendVote (state : PersistedState) (vote : Vote) (votingPower : UInt64)
    (now : Time) : PersistedState × VoteTally × Option CommitCertificate :=
  let votes := state.votes ++ [⟨vote, votingPower, now⟩]
  let tally := tallyForVotes votes vote.height vote.round vote.blockHash
    state.quorum
  let certificate := findCertificate state.commitCertificates vote.height
    vote.round vote.blockHash
  if certificate = none ∧ tally.quorumReached = true then
    let voters := votersForBlock votes vote.height vote.round vote.blockHash
    let created : CommitCertificate :=
      { height := vote.height
        round := vote.round
        blockHash := vote.blockHash
        votingPower := tally.votingPower
        quorumVotingPower := state.quorum
        voterCount := voters.length
        voters := voters
        createdAt := now }
    (normalizeState { state with
      votes := votes
      commitCertificates := state.commitCertificates ++ [created] },
      tally, some created)
  else (normalizeState { state with votes := votes }, tally, certificate)

def recordVoteIntoState (H : Host) (state : PersistedState) (vote : Vote)
    (now : Time) :
    Except Error (PersistedState × VoteTally × Option CommitCertificate) := do
  let state := normalizeState state
  let vote := vote.observed now
  vote.validateStatic H
  refuse (state.validatorSnapshot.validators.length = 0) .noValidatorSet
  refuse (vote.height ≠ state.blocks.length + 1) .consensusHeightMismatch
  let state ← alignRoundStateWithVote state vote now
  let votingPower ← require
    (validatorVotingPower state.validatorSnapshot vote.voter)
    .validatorNotActive
  refuse (¬ hasProposal state.proposals vote.height vote.round vote.blockHash)
    .unknownProposal
  match findVoteByValidator state.votes vote.height vote.round vote.voter with
  | some existing => do
      refuse (existing.blockHash ≠ vote.blockHash) .conflictingVote
      return (state,
        tallyForVotes state.votes vote.height vote.round vote.blockHash
          state.quorum,
        findCertificate state.commitCertificates vote.height vote.round
          vote.blockHash)
  | none => return appendVote state vote votingPower now

-- ==== evidence

/-- Signed artifacts that come with a block. -/
structure CertifiedBlockEvidence where
  proposal : Proposal
  votes : List Vote
  deriving DecidableEq

/-- What the two counting loops of `attachCertifiedBlockEvidence` carry:
the voters counted, their power, the votes to be stored, and the voters
of the votes that came with the block. -/
structure SignedVotes where
  voters : List Bytes
  power : UInt64
  validated : List VoteRecord
  provided : List Bytes

/-- A vote for the height, round and block hash of the proposal. -/
def Vote.supports (vote : Vote) (proposal : Proposal) : Prop :=
  vote.height = proposal.height ∧ vote.round = proposal.round ∧
    vote.blockHash = proposal.blockHash

instance (vote : Vote) (proposal : Proposal) :
    Decidable (vote.supports proposal) :=
  inferInstanceAs (Decidable (_ ∧ _))

/-- One iteration of the loop over the stored votes. -/
def countStoredVote (H : Host) (state : PersistedState) (proposal : Proposal)
    (chainID : Bytes) (counted : SignedVotes) (record : VoteRecord) :
    Except Error SignedVotes :=
  if ¬ record.vote.supports proposal ∨ record.vote.voter ∈ counted.voters then
    .ok counted
  else do
    failWith .certifiedEvidenceInvalid (record.vote.validateForChain H chainID)
    let power ← require
      (validatorVotingPower state.validatorSnapshot record.vote.voter)
      .certifiedEvidenceInvalid
    let nextPower ← require (addUint64 counted.power power)
      .votingPowerOverflow
    return { counted with
      voters := counted.voters ++ [record.vote.voter]
      power := nextPower }

/-- One iteration of the loop over the votes that came with the block. -/
def countProvidedVote (H : Host) (state : PersistedState)
    (proposal : Proposal) (chainID : Bytes) (now : Time)
    (counted : SignedVotes) (vote : Vote) : Except Error SignedVotes := do
  refuse (vote.voter ∈ counted.provided) .certifiedEvidenceInvalid
  let counted := { counted with provided := counted.provided ++ [vote.voter] }
  failWith .certifiedEvidenceInvalid (vote.validateForChain H chainID)
  refuse (¬ vote.supports proposal) .certifiedEvidenceInvalid
  let power ← require (validatorVotingPower state.validatorSnapshot vote.voter)
    .certifiedEvidenceInvalid
  refuse (∃ existing ∈ findVoteByValidator state.votes vote.height vote.round
    vote.voter, existing.blockHash ≠ vote.blockHash) .conflictingVote
  if vote.voter ∈ counted.voters then return counted
  else
    let nextPower ← require (addUint64 counted.power power)
      .votingPowerOverflow
    return { counted with
      voters := counted.voters ++ [vote.voter]
      power := nextPower
      validated := counted.validated ++ [⟨vote, power, now⟩] }

/-- The stored votes with the validated ones of voters that have none. -/
def mergeVotes (votes validated : List VoteRecord) : List VoteRecord :=
  validated.foldl (fun votes record =>
    if findVoteByValidator votes record.vote.height record.vote.round
        record.vote.voter = none then votes ++ [record] else votes) votes

/-- The checks of `attachCertifiedBlockEvidence` on the proposal. -/
def checkEvidenceProposal (H : Host) (state : PersistedState) (block : Block)
    (proposal : Proposal) (chainID : Bytes) : Except Error Unit := do
  failWith .certifiedEvidenceInvalid (proposal.validateForChain H chainID)
  refuse (proposal.height ≠ block.height ∨ proposal.blockHash ≠ block.hash ∨
    proposal.stateRoot ≠ block.stateRoot) .certifiedEvidenceInvalid
  refuse (matchProposalForBlock [proposal] block = none)
    .certifiedEvidenceInvalid
  refuse (validatorVotingPower state.validatorSnapshot proposal.proposer =
    none) .certifiedEvidenceInvalid
  let expected := proposerForHeightRound state.validatorSnapshot.validators
    block.height proposal.round
  refuse (expected = [] ∨ proposal.proposer ≠ expected)
    .certifiedEvidenceInvalid
  refuse (∃ existing ∈ state.proposals, existing.height = proposal.height ∧
    existing.round = proposal.round ∧
    (existing.blockHash ≠ proposal.blockHash ∨
      existing.proposer ≠ proposal.proposer)) .conflictingProposal

/-- The state with the proposal, the votes and the certificate. -/
def storeEvidence (state : PersistedState) (proposal : Proposal)
    (counted : SignedVotes) (now : Time) : PersistedState :=
  let proposals :=
    if ∃ existing ∈ state.proposals, existing.height = proposal.height ∧
        existing.round = proposal.round ∧
        existing.blockHash = proposal.blockHash ∧
        existing.proposer = proposal.proposer then state.proposals
    else state.proposals ++ [proposal]
  let voters := counted.voters.insertionSort (· ≤ ·)
  let certificates :=
    if findCertificate state.commitCertificates proposal.height proposal.round
        proposal.blockHash = none then
      state.commitCertificates ++
        [{ height := proposal.height
           round := proposal.round
           blockHash := proposal.blockHash
           votingPower := counted.power
           quorumVotingPower := state.quorum
           voterCount := voters.length
           voters := voters
           createdAt := now }]
    else state.commitCertificates
  normalizeState { state with
    proposals := proposals
    votes := mergeVotes state.votes counted.validated
    commitCertificates := certificates }

def attachCertifiedBlockEvidence (H : Host) (state : PersistedState)
    (block : Block) (evidence : CertifiedBlockEvidence) (now : Time)
    (chainID : Bytes) : Except Error PersistedState := do
  let state := normalizeState state
  let proposal := evidence.proposal
  checkEvidenceProposal H state block proposal chainID
  refuse (state.quorum = 0) .certifiedEvidenceQuorum
  let stored ← state.votes.foldlM (countStoredVote H state proposal chainID)
    ⟨[], 0, [], []⟩
  let counted ← evidence.votes.foldlM
    (countProvidedVote H state proposal chainID now) stored
  refuse (counted.power < state.quorum) .certifiedEvidenceQuorum
  return storeEvidence state proposal counted now

-- ==== requiring consensus

def validateBlockConsensus (state : PersistedState) (block : Block)
    (requireCertificate : Bool) : Except Error Unit := do
  let state := normalizeState state
  refuse (state.validatorSnapshot.validators.length = 0) .noValidatorSet
  let heightProposals := proposalsForHeight state.proposals block.height
  refuse (heightProposals.length = 0) .consensusProposalRequired
  let proposal ← require (matchProposalForBlock heightProposals block)
    .consensusTemplateMismatch
  refuse (proposal.previousHash ≠ block.previousHash) .consensusPreviousHash
  let expected := proposerForHeightRound state.validatorSnapshot.validators
    block.height proposal.round
  refuse (expected ≠ [] ∧ proposal.proposer ≠ expected) .unexpectedProposer
  refuse (requireCertificate = true ∧
    matchCertificateForBlock state.commitCertificates block = none)
    .consensusCertificateRequired

/-- A proposal for the next block, of the given time if there is one. -/
def Proposal.isCandidate (p : Proposal) (nextHeight : Nat)
    (producedAt : Time) : Prop :=
  p.height = nextHeight ∧ (producedAt = 0 ∨ p.producedAt = producedAt)

instance (p : Proposal) (nextHeight : Nat) (producedAt : Time) :
    Decidable (p.isCandidate nextHeight producedAt) :=
  inferInstanceAs (Decidable (_ ∧ _))

/-- The newest stored proposal that can be produced. When there is none,
the error says what was missing. -/
def proposalForProduction (state : PersistedState) (producedAt : Time)
    (requireCertificate : Bool) : Except Error Proposal :=
  let nextHeight := state.blocks.length + 1
  let matchedHeight := state.proposals.any fun p => p.height = nextHeight
  let matchedProducedAt :=
    state.proposals.any fun p => p.isCandidate nextHeight producedAt
  match state.proposals.reverse.find? fun p =>
      p.isCandidate nextHeight producedAt ∧ p.transactions.length ≠ 0 ∧
      p.transactions.length = p.transactionIDs.length ∧
      (requireCertificate = false ∨ findCertificate state.commitCertificates
        p.height p.round p.blockHash ≠ none) with
  | some proposal => .ok proposal
  | none =>
    if matchedProducedAt && requireCertificate then
      .error .consensusCertificateRequired
    else if matchedHeight && producedAt ≠ 0 then
      .error .consensusTemplateMismatch
    else if matchedHeight && requireCertificate then
      .error .consensusCertificateRequired
    else .error .consensusProposalRequired

def produceCertifiedBlockFromState (H : Host) (state : PersistedState)
    (producedAt : Time) (chainID : Bytes) :
    Except Error (PersistedState × Block) := do
  let state := normalizeState state
  let proposal ← proposalForProduction state producedAt true
  refuse (proposal.chainID ≠ chainID) .invalidBlock
  let block := blockFromProposal H proposal
  validateBlockConsensus state block true
  let nextState ← importBlockIntoState H state block chainID
  return (nextState, block)

end ZephyrChain.Ledger
