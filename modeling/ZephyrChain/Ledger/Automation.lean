/-
The consensus automation of a validator
(`internal/api/consensus_automation.go`, `SignProposal` and `SignVote` of
`transport_identity.go`, `consensusFromState` of `ledger/store.go`).

A server drives its store on a timer: it advances a round that has timed
out, proposes when it is its turn, and votes for the proposal of the
current round. Requests of other nodes reach the same store in between.

# Interleavings

`maybeAutomateVote` takes the store's lock four times: it reads the view,
looks for the proposal, asks whether it has voted, and records its signed
vote. `VoteStage` says how far it is, so that a request can come between
any two of them. The decisions to advance and to propose are read at one
moment; a request can do whatever they do, so nothing is lost by it.

# What is observed

A vote is handed to `broadcastVote` when it has been recorded. The
server keeps these votes; whether they arrive is not its concern. What
`tx.SignPayload` returns is an input, since signatures are randomized.
-/
import ZephyrChain.Ledger.Store

namespace ZephyrChain.Ledger

open Lib

-- ==== config

/-- The fields of the server's configuration the automation reads. The
signer has the configured address and the chain of the configuration
(`newTransportIdentitySigner`). -/
structure Config where
  chainID : Bytes
  validatorAddress : Bytes
  publicKey : Bytes
  consensusRoundTimeout : Int
  enableBlockProduction : Bool
  maxTransactionsPerBlock : Int

structure ConsensusView where
  nextHeight : Nat
  currentRound : UInt64
  validatorCount : Nat
  nextProposer : Bytes
  deriving DecidableEq

def consensusFromState (state : PersistedState) : ConsensusView :=
  let state := normalizeState state
  { nextHeight := state.blocks.length + 1
    currentRound := state.roundState.round
    validatorCount := state.validatorSnapshot.validators.length
    nextProposer := proposerForHeightRound state.validatorSnapshot.validators
      (state.blocks.length + 1) state.roundState.round }

-- ==== signing

def signProposal (H : Host) (config : Config)
    (signPayload : Bytes → Except Error Bytes) (proposal : Proposal)
    (now clock : Time) : Except Error Proposal := do
  let now := if now = 0 then clock else now
  let proposal := { proposal with
    chainID := config.chainID
    domain := consensusProposalDomain
    proposer := config.validatorAddress
    publicKey := config.publicKey
    proposedAt :=
      if proposal.proposedAt = 0 then now else proposal.proposedAt }
  let proposal := { proposal with payload := proposal.canonicalPayload H }
  let signature ← signPayload proposal.payload
  return { proposal with signature := signature }

def signVote (H : Host) (config : Config)
    (signPayload : Bytes → Except Error Bytes) (vote : Vote)
    (now clock : Time) : Except Error Vote := do
  let now := if now = 0 then clock else now
  let vote := { vote with
    chainID := config.chainID
    domain := consensusVoteDomain
    voter := config.validatorAddress
    publicKey := config.publicKey
    votedAt := if vote.votedAt = 0 then now else vote.votedAt }
  let vote := { vote with payload := vote.canonicalPayload H }
  let signature ← signPayload vote.payload
  return { vote with signature := signature }

-- ==== rounds

/-- Whether the automation advances the round. A round without a
certificate is given up after the timeout when there is work to do. -/
def maybeAdvanceConsensusRound (config : Config) (s : PersistedState)
    (now : Time) : Option Operation :=
  let view := consensusFromState s
  let proposal := findProposal s.proposals view.nextHeight view.currentRound
  if config.consensusRoundTimeout ≤ 0 then none
  else if view.validatorCount = 0 then none
  else if s.roundState.startedAt = 0 then none
  else if now < s.roundState.startedAt + config.consensusRoundTimeout then none
  else if ∃ p ∈ proposal, findCertificate s.commitCertificates p.height p.round
      p.blockHash ≠ none then none
  else if proposal ≠ none ∨ 0 < s.mempool.length ∨
      latestProposalForHeight s.proposals view.nextHeight ≠ none then
    some (.advanceRound now)
  else none

-- ==== proposals

/-- A proposal before it is signed. -/
def proposalTemplate (height : Nat) (round : UInt64)
    (blockHash previousHash stateRoot : Bytes) (producedAt : Time)
    (transactionIDs : List Bytes) (transactions : List Envelope) :
    Proposal where
  chainID := []
  domain := []
  height := height
  round := round
  blockHash := blockHash
  previousHash := previousHash
  stateRoot := stateRoot
  producedAt := producedAt
  transactionIDs := transactionIDs
  transactions := transactions
  proposer := []
  payload := []
  publicKey := []
  signature := []
  proposedAt := 0

/-- The proposal the automation records and broadcasts. The newest
proposal of an earlier round is proposed again; without one, the mempool
gives a new block. -/
def maybeAutomateProposal (H : Host) (config : Config)
    (signPayload : Bytes → Except Error Bytes) (s : PersistedState)
    (now clock : Time) : Except Error (Option Proposal) :=
  let view := consensusFromState s
  if ¬ config.enableBlockProduction then .ok none
  else if view.validatorCount = 0 ∨ view.nextProposer = [] ∨
      view.nextProposer ≠ config.validatorAddress then .ok none
  else if findProposal s.proposals view.nextHeight view.currentRound ≠
      none then .ok none
  else do
    let previous := (latestProposalForHeight s.proposals
      view.nextHeight).filter fun p => p.round < view.currentRound
    let template ← match previous with
      | some p => pure (proposalTemplate view.nextHeight view.currentRound
          p.blockHash p.previousHash p.stateRoot p.producedAt p.transactionIDs
          p.transactions)
      | none => do
          let block ← buildNextBlock H s config.maxTransactionsPerBlock now
            clock
          pure (proposalTemplate view.nextHeight view.currentRound block.hash
            block.previousHash block.stateRoot block.producedAt
            block.transactionIDs block.transactions)
    let signed ← signProposal H config signPayload template now clock
    return some signed

-- ==== votes

/-- How far `maybeAutomateVote` is. -/
inductive VoteStage where
  | idle
  | viewed (view : ConsensusView)
  | found (proposal : Proposal)
  | signed (vote : Vote)
  deriving DecidableEq

/-- A vote before it is signed. -/
def voteTemplate (p : Proposal) : Vote where
  chainID := []
  domain := []
  height := p.height
  round := p.round
  blockHash := p.blockHash
  voter := []
  payload := []
  publicKey := []
  signature := []
  votedAt := 0

/-- The reading part of `maybeAutomateVote`, one access to the store at a
time. A return without a vote ends in `idle`. -/
def maybeAutomateVoteRead (H : Host) (config : Config)
    (signPayload : Bytes → Except Error Bytes) (s : PersistedState)
    (now clock : Time) : VoteStage → VoteStage
  | .idle =>
    let view := consensusFromState s
    if view.validatorCount = 0 then .idle else .viewed view
  | .viewed view =>
    ((findProposal s.proposals view.nextHeight view.currentRound).map
      VoteStage.found).getD .idle
  | .found p =>
    if hasVoteFromValidator s.votes p.height p.round
        config.validatorAddress then .idle
    else
      (((signVote H config signPayload (voteTemplate p) now
        clock).toOption).map VoteStage.signed).getD .idle
  | .signed vote => .signed vote

-- ==== server

/-- A node with its automation and the votes that have been broadcast. -/
structure Server where
  node : Node
  stage : VoteStage
  broadcast : List Vote

/-- What a server can do: an operation for a request, a restart, and the
steps of its automation. -/
inductive ServerStep where
  | request (op : Operation) (now : Time) (writes : Bool)
  | restart
  | advance (now : Time) (writes : Bool)
  | propose (signPayload : Bytes → Except Error Bytes) (now : Time)
      (writes : Bool)
  | vote (signPayload : Bytes → Except Error Bytes) (now : Time)
      (writes : Bool)

/-- The last part of `maybeAutomateVote`: record the vote, and broadcast
it if that has succeeded. -/
def Server.recordAndBroadcast (H : Host)
    (reread : PersistedState → PersistedState) (σ : Server) (v : Vote)
    (now : Time) (writes : Bool) : Server :=
  let called := σ.node.call H reread (.operation (.recordVote v) now writes)
  { node := called.1
    stage := .idle
    broadcast := if called.2 = none then σ.broadcast ++ [v] else σ.broadcast }

def Server.step (H : Host) (reread : PersistedState → PersistedState)
    (config : Config) (σ : Server) : ServerStep → Server
  | .request op now writes =>
    { σ with node := (σ.node.call H reread (.operation op now writes)).1 }
  | .restart =>
    { σ with node := (σ.node.call H reread .reopen).1, stage := .idle }
  | .advance now writes =>
    match maybeAdvanceConsensusRound config σ.node.store now with
    | none => σ
    | some op =>
      { σ with node := (σ.node.call H reread (.operation op now writes)).1 }
  | .propose signPayload now writes =>
    match maybeAutomateProposal H config signPayload σ.node.store now now with
    | .ok (some p) =>
      { σ with
        node := (σ.node.call H reread
          (.operation (.recordProposal p) now writes)).1 }
    | _ => σ
  | .vote signPayload now writes =>
    match σ.stage with
    | .signed v => σ.recordAndBroadcast H reread v now writes
    | stage =>
      { σ with
        stage := maybeAutomateVoteRead H config signPayload σ.node.store
          now now stage }

end ZephyrChain.Ledger
