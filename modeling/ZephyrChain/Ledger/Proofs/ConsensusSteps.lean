/-
What an operation of the store can do to the proposals, votes and
certificates it holds.

`next_consensusStep` says it once for all operations: they stay as they
are, a proposal or a vote is recorded, a block arrives with its evidence,
or everything is cleared because the validators have changed. The
invariants of the consensus part are proved from these five cases.
-/
import ZephyrChain.Ledger.Proofs.Snapshot
import ZephyrChain.Ledger.Proofs.Runs

namespace ZephyrChain.Ledger

open Lib

-- ==== the consensus part

/-- Two states with the same members, proposals, votes and certificates. -/
structure SameConsensus (s t : PersistedState) : Prop where
  chainID : t.chainID = s.chainID
  validators : t.validatorSnapshot.validators = s.validatorSnapshot.validators
  proposals : t.proposals = s.proposals
  votes : t.votes = s.votes
  certificates : t.commitCertificates = s.commitCertificates

theorem sameConsensus_normalizeState (s : PersistedState) :
    SameConsensus s (normalizeState s) :=
  ⟨rfl, normalizeValidatorSnapshot_validators _, rfl, rfl, rfl⟩

theorem sameConsensus_extended (s : PersistedState) (accounts : Accounts)
    (mempool : List MempoolEntry) (b : Block) :
    SameConsensus s (extended s accounts mempool b) := by
  refine ⟨rfl, ?_, rfl, rfl, rfl⟩
  simp only [extended, normalizeState_validatorSnapshot,
    normalizeValidatorSnapshot_validators]

variable {H : Host} {b : Block} {chainID : Bytes}

theorem importBlockIntoState_sameConsensus {s t : PersistedState}
    (h : importBlockIntoState H s b chainID = .ok t) :
    SameConsensus s t := by
  obtain ⟨-, ⟨-, -, rfl⟩ | ⟨accounts, himports⟩⟩ :=
    importBlockIntoState_eq_ok.1 h
  · exact sameConsensus_normalizeState s
  · rw [himports.state]
    exact sameConsensus_extended s accounts _ b

-- ==== messages

/-- A message of the next height and of the current or a later round
moves the store to its round. -/
structure MessageStep (s t : PersistedState) (height : Nat) (round : UInt64) :
    Prop where
  ledger : SameLedger s t
  validators : t.validatorSnapshot.validators = s.validatorSnapshot.validators
  height : height = s.blocks.length + 1
  later : (normalizeState s).roundState.round ≤ round
  position : ∃ startedAt, t.roundState = ⟨s.blocks.length + 1, round, startedAt⟩

theorem normalizeState_roundHeight (s : PersistedState) :
    (normalizeState s).roundState.height = s.blocks.length + 1 := by
  show (normalizeConsensusRoundState s.roundState s.blocks).height = _
  unfold normalizeConsensusRoundState
  split
  case isTrue => rfl
  case isFalse h => exact not_not.1 h

theorem normalizeConsensusRoundState_next (blocks : List Block)
    (round : UInt64) (startedAt : Time) :
    normalizeConsensusRoundState ⟨blocks.length + 1, round, startedAt⟩ blocks =
      ⟨blocks.length + 1, round, startedAt⟩ :=
  if_neg (not_not.2 rfl)

/-- The state a message has been aligned with. -/
def alignedState (s : PersistedState) (round : UInt64) (startedAt : Time) :
    PersistedState :=
  { normalizeState s with
    roundState := ⟨s.blocks.length + 1, round, startedAt⟩ }

theorem alignRoundState_normalizeState {s t : PersistedState} {round : UInt64}
    {observedAt : Time}
    (h : alignRoundState (normalizeState s) round observedAt = .ok t) :
    (normalizeState s).roundState.round ≤ round ∧
      ∃ startedAt, t = alignedState s round startedAt := by
  obtain ⟨hlater, startedAt, rfl⟩ := alignRoundState_eq_ok h
  refine ⟨hlater, startedAt, ?_⟩
  rw [normalizeState_roundHeight]
  rfl

/-- A state built on the aligned one. -/
theorem messageStep_of_aligned {s t : PersistedState} {round : UInt64}
    {startedAt : Time} (hlater : (normalizeState s).roundState.round ≤ round)
    (hledger : SameLedger s t)
    (hvalidators : t.validatorSnapshot.validators =
      s.validatorSnapshot.validators)
    (hround : t.roundState = ⟨s.blocks.length + 1, round, startedAt⟩) :
    MessageStep s t (s.blocks.length + 1) round :=
  ⟨hledger, hvalidators, rfl, hlater, startedAt, hround⟩

-- ==== proposals

structure RecordedProposal (H : Host) (s t : PersistedState) (p : Proposal) :
    Prop where
  message : MessageStep s t p.height p.round
  valid : p.validateForChain H s.chainID = .ok ()
  scheduled : proposerForHeightRound s.validatorSnapshot.validators p.height
      p.round ≠ [] →
    p.proposer = proposerForHeightRound s.validatorSnapshot.validators
      p.height p.round
  stored : storeProposal p s.proposals = .ok t.proposals
  votes : t.votes = s.votes
  certificates : t.commitCertificates = s.commitCertificates

variable {p : Proposal}

theorem Proposal.validateForChain_eq_ok :
    p.validateForChain H chainID = .ok () ↔
      p.validateStatic H = .ok () ∧
        validateChainID H (trimSpace chainID) = .ok () ∧
        trimSpace p.chainID = trimSpace chainID := by
  simp only [Proposal.validateForChain, ok_iff, not_not]

theorem Vote.validateForChain_eq_ok {v : Vote} :
    v.validateForChain H chainID = .ok () ↔
      v.validateStatic H = .ok () ∧
        validateChainID H (trimSpace chainID) = .ok () ∧
        trimSpace v.chainID = trimSpace chainID := by
  simp only [Vote.validateForChain, ok_iff, not_not]

theorem Proposal.observed_chainID (p : Proposal) (now : Time) :
    (p.observed now).chainID = p.chainID := by
  unfold Proposal.observed
  split
  · rfl
  · rfl

theorem Vote.observed_chainID (v : Vote) (now : Time) :
    (v.observed now).chainID = v.chainID := by
  unfold Vote.observed
  split
  · rfl
  · rfl

variable {H : Host} {s t : PersistedState} {now : Time}

theorem recordProposal_recorded (h : recordProposal H s p now = .ok t) :
    RecordedProposal H s t (p.observed now) := by
  simp only [recordProposal, recordProposalIntoState,
    alignRoundStateWithProposal, ok_iff, not_not, not_and] at h
  obtain ⟨hchain, hstatic, -, hheight, -, -, aligned, haligned, hscheduled, -,
    -, -, proposals, hstored, rfl⟩ := h
  obtain ⟨hlater, startedAt, rfl⟩ := alignRoundState_normalizeState haligned
  have hheight : (p.observed now).height = s.blocks.length + 1 := hheight
  refine ⟨?_, ?_, ?_, hstored, rfl, rfl⟩
  · rw [hheight]
    refine messageStep_of_aligned hlater ⟨rfl, rfl, rfl, rfl, rfl, rfl⟩ ?_
      (normalizeConsensusRoundState_next s.blocks _ startedAt)
    simp [alignedState]
  · obtain ⟨-, hvalid, hsame⟩ := Proposal.validateForChain_eq_ok.1 hchain
    refine Proposal.validateForChain_eq_ok.2 ⟨hstatic, hvalid, ?_⟩
    rw [Proposal.observed_chainID]
    exact hsame
  · simpa [alignedState] using hscheduled

-- ==== votes

/-- A certificate that a vote has completed. -/
structure CompletedCertificate (s t : PersistedState) (v : Vote)
    (c : CommitCertificate) : Prop where
  height : c.height = v.height
  round : c.round = v.round
  blockHash : c.blockHash = v.blockHash
  voters : c.voters = votersForBlock t.votes v.height v.round v.blockHash
  quorum : (tallyForVotes t.votes v.height v.round v.blockHash
    s.quorum).quorumReached = true

structure RecordedVote (H : Host) (s t : PersistedState) (v : Vote)
    (power : UInt64) (now : Time) : Prop where
  message : MessageStep s t v.height v.round
  valid : v.validateForChain H s.chainID = .ok ()
  member : validatorVotingPower s.validatorSnapshot v.voter = some power
  proposal : hasProposal s.proposals v.height v.round v.blockHash = true
  fresh : findVoteByValidator s.votes v.height v.round v.voter = none
  proposals : t.proposals = s.proposals
  votes : t.votes = s.votes ++ [⟨v, power, now⟩]
  certificates : t.commitCertificates = s.commitCertificates ∨
    ∃ c, t.commitCertificates = s.commitCertificates ++ [c] ∧
      CompletedCertificate s t v c

theorem validatorVotingPower_normalize (v : ValidatorSnapshot)
    (address : Bytes) :
    validatorVotingPower (normalizeValidatorSnapshot v) address =
      validatorVotingPower v address := by
  simp only [validatorVotingPower, normalizeValidatorSnapshot_idem]

theorem alignedState_quorum (s : PersistedState) (round : UInt64)
    (startedAt : Time) : (alignedState s round startedAt).quorum = s.quorum := by
  simp only [PersistedState.quorum, alignedState,
    normalizeState_validatorSnapshot, totalVotingPower,
    normalizeValidatorSnapshot_idem]

/-- The certificate of `appendVote`. -/
theorem appendVote_certificates (s : PersistedState) (v : Vote)
    (power : UInt64) (now : Time) :
    (appendVote s v power now).1.commitCertificates = s.commitCertificates ∨
      ∃ c, (appendVote s v power now).1.commitCertificates =
          s.commitCertificates ++ [c] ∧
        CompletedCertificate s (appendVote s v power now).1 v c := by
  unfold appendVote
  dsimp only
  split
  case isTrue h => exact .inr ⟨_, rfl, ⟨rfl, rfl, rfl, rfl, h.2⟩⟩
  case isFalse => exact .inl rfl

theorem appendVote_votes (s : PersistedState) (v : Vote) (power : UInt64)
    (now : Time) :
    (appendVote s v power now).1.votes = s.votes ++ [⟨v, power, now⟩] ∧
      (appendVote s v power now).1.proposals = s.proposals ∧
      (appendVote s v power now).1.validatorSnapshot =
        normalizeValidatorSnapshot s.validatorSnapshot ∧
      (appendVote s v power now).1.roundState =
        normalizeConsensusRoundState s.roundState s.blocks := by
  unfold appendVote
  dsimp only
  split
  · exact ⟨rfl, rfl, rfl, rfl⟩
  · exact ⟨rfl, rfl, rfl, rfl⟩

/-- A recorded vote was there already, or it is a new one. -/
theorem recordVote_recorded {v : Vote}
    {result : PersistedState × VoteTally × Option CommitCertificate}
    (h : recordVote H s v now = .ok result) :
    MessageStep s result.1 (v.observed now).height (v.observed now).round ∧
      (SameConsensus s result.1 ∨
        ∃ power, RecordedVote H s result.1 (v.observed now) power now) := by
  simp only [recordVote, ok_iff] at h
  obtain ⟨hchain, h⟩ := h
  obtain ⟨aligned, power, haligned, hpower, hstatic, hheight, hproposal,
    hcases⟩ := recordVoteIntoState_cases h
  obtain ⟨hlater, startedAt, rfl⟩ := alignRoundState_normalizeState haligned
  have hvalidators : (alignedState s (v.observed now).round
      startedAt).validatorSnapshot.validators =
      s.validatorSnapshot.validators := by
    simp [alignedState]
  rcases hcases with ⟨existing, -, -, hresult⟩ | ⟨hfresh, hresult⟩
  · rw [hresult, hheight]
    exact ⟨messageStep_of_aligned hlater ⟨rfl, rfl, rfl, rfl, rfl, rfl⟩
      hvalidators rfl, .inl ⟨rfl, hvalidators, rfl, rfl, rfl⟩⟩
  · obtain ⟨hvotes, hproposals, hsnapshot, hround⟩ := appendVote_votes
      (alignedState s (v.observed now).round startedAt) (v.observed now)
      power now
    have hledger := appendVote_sameLedger
      (alignedState s (v.observed now).round startedAt) (v.observed now)
      power now
    have hcertificates := appendVote_certificates
      (alignedState s (v.observed now).round startedAt) (v.observed now)
      power now
    rw [← hresult] at hvotes hproposals hsnapshot hround hledger hcertificates
    have hmessage : MessageStep s result.1 (v.observed now).height
        (v.observed now).round := by
      rw [hheight]
      refine messageStep_of_aligned hlater ?_ ?_ (hround.trans
        (normalizeConsensusRoundState_next s.blocks _ startedAt))
      · have hbase : SameLedger s (alignedState s (v.observed now).round
            startedAt) := ⟨rfl, rfl, rfl, rfl, rfl, rfl⟩
        exact hbase.trans hledger
      · rw [hsnapshot, normalizeValidatorSnapshot_validators, hvalidators]
    refine ⟨hmessage, .inr ⟨power, hmessage, ?_, ?_, hproposal, hfresh,
      hproposals, hvotes, ?_⟩⟩
    · obtain ⟨-, hvalid, hsame⟩ := Vote.validateForChain_eq_ok.1 hchain
      refine Vote.validateForChain_eq_ok.2 ⟨hstatic, hvalid, ?_⟩
      rw [Vote.observed_chainID]
      exact hsame
    · rw [← hpower]
      exact (validatorVotingPower_normalize _ _).symm
    · rcases hcertificates with hsame | ⟨c, hadded, hc⟩
      · exact .inl hsame
      · refine .inr ⟨c, hadded, hc.height, hc.round, hc.blockHash, hc.voters, ?_⟩
        have hquorum := hc.quorum
        rw [alignedState_quorum] at hquorum
        exact hquorum

-- ==== evidence

/-- The proposal that comes with a block. -/
structure EvidenceProposal (H : Host) (s : PersistedState) (b : Block)
    (p : Proposal) : Prop where
  valid : p.validateForChain H s.chainID = .ok ()
  height : p.height = b.height
  blockHash : p.blockHash = b.hash
  scheduled : p.proposer = proposerForHeightRound
    s.validatorSnapshot.validators p.height p.round
  named : p.proposer ≠ []

structure ImportedEvidence (H : Host) (s t : PersistedState) (b : Block)
    (evidence : CertifiedBlockEvidence) (now : Time) : Prop where
  imported : ∃ next, importBlockIntoState H s b s.chainID = .ok next ∧
    SameLedger next t ∧ t.roundState = next.roundState ∧
    t.validatorSnapshot.validators = next.validatorSnapshot.validators
  proposal : EvidenceProposal H s b evidence.proposal
  counted : ∃ stored counted,
    s.votes.foldlM (countStoredVote H (normalizeState s) evidence.proposal
        s.chainID) ⟨[], 0, [], []⟩ = .ok stored ∧
      evidence.votes.foldlM (countProvidedVote H (normalizeState s)
        evidence.proposal s.chainID now) stored = .ok counted ∧
      s.quorum ≠ 0 ∧ s.quorum ≤ counted.power ∧
      t.proposals = (storeEvidence s evidence.proposal counted now).proposals ∧
      t.votes = mergeVotes s.votes counted.validated ∧
      t.commitCertificates =
        (storeEvidence s evidence.proposal counted now).commitCertificates

theorem normalizeState_quorum (s : PersistedState) :
    (normalizeState s).quorum = s.quorum := by
  simp only [PersistedState.quorum, normalizeState_validatorSnapshot,
    totalVotingPower, normalizeValidatorSnapshot_idem]

theorem checkEvidenceProposal_eq_ok
    (h : checkEvidenceProposal H (normalizeState s) b p s.chainID = .ok ()) :
    EvidenceProposal H s b p := by
  simp only [checkEvidenceProposal, ok_iff, not_or, not_not] at h
  obtain ⟨hvalid, ⟨hheight, hhash, -⟩, -, -, ⟨hnamed, hscheduled⟩, -⟩ := h
  rw [normalizeState_validatorSnapshot,
    normalizeValidatorSnapshot_validators] at hnamed hscheduled
  refine ⟨hvalid, hheight, hhash, ?_, ?_⟩
  · rw [hheight]
    exact hscheduled
  · rw [hscheduled]
    exact hnamed

theorem importBlockWithEvidence_imported
    {evidence : CertifiedBlockEvidence}
    (h : importBlockWithEvidence H s b evidence now = .ok t) :
    ImportedEvidence H s t b evidence now := by
  simp only [importBlockWithEvidence, attachCertifiedBlockEvidence, ok_iff,
    UInt64.not_lt] at h
  obtain ⟨-, next, himport, evidenceState, ⟨hproposal, hquorum, stored,
    hstored, counted, hcounted, hreached, rfl⟩, rfl⟩ := h
  rw [normalizeState_quorum] at hquorum hreached
  refine ⟨⟨next, himport, ⟨rfl, rfl, rfl, rfl, rfl, rfl⟩, rfl, rfl⟩,
    checkEvidenceProposal_eq_ok hproposal, stored, counted, hstored, hcounted,
    hquorum, hreached, rfl, rfl, ?_⟩
  simp only [storeEvidence, normalizeState_commitCertificates,
    normalizeState_quorum]

-- ==== steps

/-- The votes an operation brings. -/
def Operation.votes (now : Time) : Operation → List Vote
  | .recordVote v => [v.observed now]
  | .importBlockWithEvidence _ evidence => evidence.votes
  | _ => []

/-- The operations that change the validators. -/
def Operation.Clears : Operation → Prop
  | .setValidators _ _ => True
  | .restoreQuorumSnapshot _ _ _ _ => True
  | _ => False

/-- What an operation can do to the consensus part of the state. -/
inductive ConsensusStep (H : Host) (now : Time) (op : Operation)
    (s t : PersistedState) : Prop
  | same : SameConsensus s t → ConsensusStep H now op s t
  | proposed (p : Proposal) : RecordedProposal H s t p →
      ConsensusStep H now op s t
  | voted (v : Vote) (power : UInt64) : v ∈ op.votes now →
      RecordedVote H s t v power now → ConsensusStep H now op s t
  | certified (b : Block) (evidence : CertifiedBlockEvidence) :
      evidence.votes = op.votes now →
      ImportedEvidence H s t b evidence now → ConsensusStep H now op s t
  | cleared : op.Clears →
      exactTotal t.validatorSnapshot.validators < 2 ^ 64 →
      t.proposals = [] → t.votes = [] → t.commitCertificates = [] →
      ConsensusStep H now op s t

theorem creditWithID_sameConsensus {requestID address : Bytes}
    {amount : UInt64}
    (h : creditWithID s requestID address amount = .ok (some t)) :
    SameConsensus s t := by
  obtain ⟨-, -, rfl⟩ := creditWithID_eq_ok.1 h
  exact ⟨rfl, rfl, rfl, rfl, rfl⟩

theorem produceBlockWithOptions_sameConsensus {maxTransactions : Int}
    {producedAt : Time} {requireConsensus : Bool}
    (h : produceBlockWithOptions H s maxTransactions producedAt now
      requireConsensus = .ok t) : SameConsensus s t := by
  rcases produceBlockWithOptions_cases h with ⟨b, hb⟩ | ⟨b, hb⟩
  · obtain ⟨-, accounts, root, -, -, -, rfl⟩ :=
      produceBlockFromState_eq_ok.1 hb
    exact sameConsensus_extended s accounts _ b
  · exact importBlockIntoState_sameConsensus hb

theorem restoreQuorumSnapshot_cleared {snapshot : Snapshot}
    {proofs : List SnapshotProof} {trusted : ValidatorSnapshot}
    (h : restoreQuorumSnapshot H s snapshot chainID proofs trusted = .ok t) :
    ConsensusStep H now (.restoreQuorumSnapshot snapshot chainID proofs trusted)
      s t := by
  simp only [restoreQuorumSnapshot, ok_iff] at h
  obtain ⟨hquorum, -, rfl⟩ := h
  obtain ⟨latest, hstate⟩ := validateSnapshotQuorum_state hquorum
  obtain ⟨-, -, -, -, hsum⟩ := validateSnapshotCommittedState_eq_ok hstate
  refine .cleared trivial ?_ rfl rfl rfl
  rw [installedState, normalizeState_validatorSnapshot,
    normalizeValidatorSnapshot_validators]
  exact hsum

theorem setValidators_cleared {validators : List Validator}
    {config : ElectionConfig}
    (h : setValidators s validators config now = .ok t) :
    ConsensusStep H now (.setValidators validators config) s t := by
  simp only [setValidators, ok_iff] at h
  obtain ⟨hsum, rfl⟩ := h
  refine .cleared trivial ?_ rfl rfl rfl
  rw [normalizeValidatorSnapshot_validators]
  exact sumValidatorVotingPower_ne_none.1 hsum

theorem next_consensusStep {op : Operation}
    (h : op.next H s now = .ok (some t)) : ConsensusStep H now op s t := by
  cases op with
  | creditWithID requestID address amount =>
    exact .same (creditWithID_sameConsensus h)
  | ensureRoundStarted start =>
    exact ensureRoundStarted_eq_some h ▸ .same ⟨rfl, rfl, rfl, rfl, rfl⟩
  | accept e =>
    have hnext := map_some_eq_ok.1 h
    obtain ⟨-, -, -, rfl⟩ := accept_eq_ok.1 hnext
    exact .same ⟨rfl, rfl, rfl, rfl, rfl⟩
  | produceBlock maxTransactions producedAt requireConsensus =>
    have hnext := map_some_eq_ok.1 h
    exact .same (produceBlockWithOptions_sameConsensus hnext)
  | importBlock b requireConsensus =>
    have hnext := map_some_eq_ok.1 h
    exact .same (importBlockIntoState_sameConsensus
      (importBlockWithOptions_import hnext))
  | importBlockWithEvidence b evidence =>
    have hnext := map_some_eq_ok.1 h
    exact .certified b evidence rfl (importBlockWithEvidence_imported hnext)
  | setValidators validators config =>
    have hnext := map_some_eq_ok.1 h
    exact setValidators_cleared hnext
  | recordProposal p =>
    have hnext := map_some_eq_ok.1 h
    exact .proposed _ (recordProposal_recorded hnext)
  | recordVote v =>
    obtain ⟨result, hresult, heq⟩ := map_eq_ok.1 h
    cases heq
    obtain ⟨-, hsame | ⟨power, hvote⟩⟩ := recordVote_recorded hresult
    · exact .same hsame
    · exact .voted _ power (List.mem_singleton_self _) hvote
  | advanceRound start =>
    have hnext := map_some_eq_ok.1 h
    simp only [advanceRound, ok_iff] at hnext
    obtain ⟨-, rfl⟩ := hnext
    exact .same ⟨rfl, rfl, rfl, rfl, rfl⟩
  | restoreQuorumSnapshot snapshot chainID proofs trusted =>
    have hnext := map_some_eq_ok.1 h
    exact restoreQuorumSnapshot_cleared hnext

end ZephyrChain.Ledger
