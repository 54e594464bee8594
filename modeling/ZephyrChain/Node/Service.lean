/-
The consensus service of a node (`internal/v2/node/service.go`): the
queues of pending transactions and receipt imports, the votes it has
signed, and the two ways a block is finalized.

# What is left open

The service calls the runtime and the network. What those return is an
argument here: the candidate a build returned, the outcome of a commit,
the votes that came back from the peers. In `CommitsBlock`, builds and
commits return what `BuildReturns` and `CommitReturns` allow. Signing,
the peers themselves and the wire format of the messages are left out.

# The lock

Every call holds the service's lock from start to end, except `Propose`,
which lets go of it while it collects votes: `finishPropose` is what it
does from then on, and any other step may come before it.
-/
import ZephyrChain.Consensus.SigningGuard
import ZephyrChain.Node.Commit

namespace ZephyrChain.Node

open Lib
open Consensus (ValidatorSet Certificate Proposal Vote DurableSigningGuard
  headerConsensusHash)
open Economics (Telemetry)

structure VoteSlot where
  height : UInt64
  round : UInt64
  deriving DecidableEq

/-- What a light client is served. -/
structure Snapshot where
  header : GlobalHeader
  certificate : Certificate
  commitments : List Commitment
  validators : ValidatorSet

/-- A proposal with its block; the certificate comes with a commit. -/
structure ConsensusMessage where
  proposal : Proposal
  block : ShardMap ShardBatch
  certificate : Option Certificate

structure Service (C : Crypto) (T : Telemetry) where
  runtime : Runtime C T
  validators : ValidatorSet
  /-- The public key of the node's key, none without one. -/
  key : Option Bytes
  /-- The guard with its journal file. -/
  signingGuard : Option (DurableSigningGuard × Consensus.JournalFile)
  mempool : UInt32 → List Transaction
  mempoolInputs : ObjectID → Option Hash
  imports : UInt32 → List ReceiptImport
  votes : VoteSlot → Option Vote
  latest : Option Snapshot

variable {C : Crypto} {T : Telemetry}

namespace Service

variable (s : Service C T)

-- ==== the queues

/-- An object that a pending transaction other than `txID` names as an
input. -/
def Claimed (txID : Hash) (id : ObjectID) : Prop :=
  ∃ existing ∈ s.mempoolInputs id, existing ≠ txID

instance (txID : Hash) (id : ObjectID) : Decidable (s.Claimed txID id) :=
  inferInstanceAs (Decidable (∃ existing ∈ s.mempoolInputs id, _))

/-- The transaction joins the mempool of its shard. -/
def enqueue (t : Transaction) : Service C T :=
  { s with
    mempoolInputs := t.inputs.foldl
      (fun m i => Function.update m i.objectID (some (t.id C)))
      s.mempoolInputs
    mempool := Function.update s.mempool t.shardID
      (s.mempool t.shardID ++ [t]) }

def submit (script : ZephyrChain.Runtime) (t : Transaction) :
    Except Error (Service C T) := do
  refuse (t.network ≠ s.runtime.network ∨ s.runtime.shardCount ≤ t.shardID)
    .candidateState
  refuse (t.stateRoot ≠ (s.runtime.states t.shardID).root C) .candidateState
  let _ ← Execution.execute C
    (s.runtime.engine script (s.runtime.height + 1)) t
  refuse (∃ i ∈ t.inputs, s.Claimed (t.id C) i.objectID) .mempoolConflict
  if t.id C ∈ (s.mempool t.shardID).map (Transaction.id C) then return s
  else return s.enqueue t

/-- `clearCommittedStateLocked`: the mempool is emptied, and with it the
queue of imports of every shard the block imports into. -/
def clearCommittedState (block : ShardMap ShardBatch) : Service C T :=
  { s with
    mempool := fun _ => []
    mempoolInputs := fun _ => none
    imports := fun shard =>
      if (batchOf block shard).imports = [] then s.imports shard else []
    votes := fun slot =>
      if slot.height ≤ s.runtime.height then none else s.votes slot }

def recordFinalized (header : GlobalHeader) (certificate : Certificate)
    (commitments : List Commitment) : Service C T :=
  { s with
    latest := some ⟨header, certificate, commitments, s.validators⟩ }

-- ==== messages

/-- What a message that was refused, or that is not the next block, is
answered with. -/
inductive CommitCheck where
  | known
  | next (candidate : Candidate) (certificate : Certificate)

/-- The checks of `handleCommitLocked`. -/
def checkCommit (m : ConsensusMessage) (built : Except Error Candidate) :
    Except Error CommitCheck := do
  let certificate ← require m.certificate .candidateCert
  failWith .candidateCert (s.validators.verifyProposal C m.proposal)
  let target := headerConsensusHash C m.proposal.header
  refuse (certificate.headerHash ≠ target ∨
    certificate.height ≠ m.proposal.header.height ∨
    certificate.round ≠ m.proposal.round) .candidateCert
  failWith .candidateCert (s.validators.verifyCertificate C certificate)
  if m.proposal.header.height ≤ s.runtime.height then do
    refuse (m.proposal.header.height ≠ s.runtime.height ∨
      (s.latest.map fun l => headerConsensusHash C l.header) ≠ some target)
      .candidateHeight
    return .known
  else do
    refuse (m.proposal.header.height ≠ s.runtime.height + 1)
      .candidateHeight
    let candidate ← failWith .proposalState built
    refuse (candidate.header.canonicalBytes ≠
      m.proposal.header.canonicalBytes) .proposalState
    return .next candidate certificate

/-- What follows a commit that went through: the snapshot is kept and the
queues are cleared. -/
def finalized (r : Runtime C T) (header : GlobalHeader)
    (certificate : Certificate) (candidate : Candidate)
    (block : ShardMap ShardBatch) : Service C T :=
  (({ s with runtime := r }).recordFinalized header certificate
    candidate.commitments).clearCommittedState block

/-- `handleCommitLocked`: `committed` is what the runtime's commit
returns for a candidate and its certificate. -/
def handleCommit (m : ConsensusMessage) (built : Except Error Candidate)
    (committed : Candidate → Certificate →
      Runtime C T × Except (List Error) GlobalHeader) :
    Service C T × Except (List Error) Unit :=
  match s.checkCommit m built with
  | .error e => (s, .error [e])
  | .ok .known => (s, .ok ())
  | .ok (.next candidate certificate) =>
    match committed candidate certificate with
    | (r, .error errors) => ({ s with runtime := r }, .error errors)
    | (r, .ok header) =>
      (s.finalized r header certificate candidate m.block, .ok ())

-- ==== proposing

/-- `Propose` from the votes that came in: certify, commit and clear. -/
def finishPropose (p : Proposal) (block : ShardMap ShardBatch)
    (candidate : Candidate) (votes : List Vote)
    (committed : Candidate → Certificate →
      Runtime C T × Except (List Error) GlobalHeader) :
    Service C T × Except (List Error) Unit :=
  match s.validators.buildCertificate C p votes with
  | .error _ => (s, .error [.noQuorum])
  | .ok certificate =>
    match committed candidate certificate with
    | (r, .error errors) => ({ s with runtime := r }, .error errors)
    | (r, .ok header) =>
      (s.finalized r header certificate candidate block, .ok ())

end Service

-- ==== commits

/-- What the commit of the service's runtime may return. -/
def Service.Commits (s : Service C T)
    (committed : Candidate → Certificate →
      Runtime C T × Except (List Error) GlobalHeader) : Prop :=
  ∀ candidate certificate, ∃ procs faults,
    CommitReturns s.runtime procs faults candidate certificate s.validators
      (committed candidate certificate)

/-- A service commits a block: one it is told of, or one it has proposed
and collected the votes for. -/
inductive Service.CommitsBlock (script : ZephyrChain.Runtime)
    (s : Service C T) (block : ShardMap ShardBatch) :
    Service C T → Prop
  | message (m : ConsensusMessage) (built : Except Error Candidate)
      (committed : Candidate → Certificate →
        Runtime C T × Except (List Error) GlobalHeader)
      {s' : Service C T} (hblock : m.block = block)
      (hnext : s.runtime.height < m.proposal.header.height)
      (hbuilt : ∃ choices, BuildReturns C script s.runtime choices
        m.proposal.header.height m.block built)
      (hcommits : s.Commits committed)
      (h : s.handleCommit m built committed = (s', .ok ())) :
      s.CommitsBlock script block s'
  | proposed (p : Proposal) (candidate : Candidate) (votes : List Vote)
      (committed : Candidate → Certificate →
        Runtime C T × Except (List Error) GlobalHeader)
      {s' : Service C T} (hcommits : s.Commits committed)
      (h : s.finishPropose p block candidate votes committed =
        (s', .ok ())) :
      s.CommitsBlock script block s'

end ZephyrChain.Node
