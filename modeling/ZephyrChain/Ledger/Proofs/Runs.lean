/-
What an operation of the store can do to the ledger part of its state,
and the rule for runs.

`next_ledgerStep` says it once for all operations: the ledger part stays
as it is, an account is credited, a transaction is admitted, a block is
produced or imported, or a snapshot is restored. `Reachable` are the
nodes a store can be in after any calls, failing ones included, and after
reopenings of a file that JSON keeps as it is; `Reachable.invariant`
proves a property of all of them from the states the operations write.
-/
import ZephyrChain.Ledger.Proofs.Executors

namespace ZephyrChain.Ledger

open Lib

-- ==== the ledger part

/-- Two states with the same accounts, mempool and chain. -/
structure SameLedger (s s' : PersistedState) : Prop where
  chainID : s'.chainID = s.chainID
  accounts : s'.accounts = s.accounts
  mempool : s'.mempool = s.mempool
  blocks : s'.blocks = s.blocks
  committed : s'.committedTransactionIDs = s.committedTransactionIDs
  funding : s'.appliedFundingIDs = s.appliedFundingIDs

theorem SameLedger.refl (s : PersistedState) : SameLedger s s :=
  ⟨rfl, rfl, rfl, rfl, rfl, rfl⟩

theorem SameLedger.trans {s s' s'' : PersistedState} (h : SameLedger s s')
    (h' : SameLedger s' s'') : SameLedger s s'' :=
  ⟨h'.chainID.trans h.chainID, h'.accounts.trans h.accounts,
    h'.mempool.trans h.mempool, h'.blocks.trans h.blocks,
    h'.committed.trans h.committed, h'.funding.trans h.funding⟩

theorem sameLedger_normalizeState (s : PersistedState) :
    SameLedger s (normalizeState s) :=
  ⟨rfl, rfl, rfl, rfl, rfl, rfl⟩

-- ==== single operations

variable {H : Host} {s s' : PersistedState} {now : Time}

/-- The state after a credit. -/
def creditedState (s : PersistedState) (requestID address : Bytes)
    (amount : UInt64) : PersistedState :=
  { s with
    accounts := deposit s.accounts address amount
    appliedFundingIDs :=
      if requestID ≠ [] then insert requestID s.appliedFundingIDs
      else s.appliedFundingIDs }

theorem creditWithID_eq_ok {requestID address : Bytes} {amount : UInt64} :
    creditWithID s requestID address amount = .ok (some s') ↔
      ¬ (requestID ≠ [] ∧ requestID ∈ s.appliedFundingIDs) ∧
        balanceOf s.accounts address + amount.toNat < 2 ^ 64 ∧
        s' = creditedState s requestID address amount := by
  unfold creditWithID
  by_cases hdone : requestID ≠ [] ∧ requestID ∈ s.appliedFundingIDs
  · rw [if_pos hdone]
    simp [hdone]
  · rw [if_neg hdone]
    simp only [ok_iff, addUint64_eq_some, Option.some.injEq, hdone,
      not_false_eq_true, true_and]
    constructor
    · rintro ⟨balance, hbalance, hs⟩
      have hbalance : balance.toNat =
          balanceOf s.accounts address + amount.toNat := hbalance
      have hfits := hbalance ▸ balance.toNat_lt
      refine ⟨hfits, ?_⟩
      have hsum : balance =
          (accountAt s.accounts address).balance + amount := by
        apply UInt64.toNat_inj.1
        rw [toNat_add_of_fits (not_overflows_iff.2 hfits)]
        exact hbalance
      subst hsum
      exact hs.symm
    · rintro ⟨hfits, hs⟩
      exact ⟨_, toNat_add_of_fits (not_overflows_iff.2 hfits), hs.symm⟩

/-- The nonce and balance checks of an admission. -/
structure Admissible (s : PersistedState) (e : Envelope) : Prop where
  available : ∃ expected,
    nextUint64 (accountAt s.accounts e.fromAddress).nonce = some expected ∧
      e.nonce =
        if 0 < (pendingState s.mempool e.fromAddress).pendingCount then
          (pendingState s.mempool e.fromAddress).nextNonce else expected
  counted : ¬ (0 < (pendingState s.mempool e.fromAddress).pendingCount ∧
    (pendingState s.mempool e.fromAddress).nonceExhausted = true)
  funded : e.amount ≤ availableBalance
    (accountAt s.accounts e.fromAddress).balance
    (pendingState s.mempool e.fromAddress)

/-- The state after an admission. -/
def acceptedState (H : Host) (s : PersistedState) (e : Envelope)
    (now : Time) : PersistedState :=
  { s with
    accounts := s.accounts.insert e.fromAddress
      (accountAt s.accounts e.fromAddress)
    mempool := s.mempool ++ [⟨txID H e, now, e⟩] }

theorem accept_eq_ok {e : Envelope} :
    accept H s e now = .ok s' ↔
      txID H e ∉ s.committedTransactionIDs ∧
        (∀ entry ∈ s.mempool, entry.id ≠ txID H e) ∧
        Admissible s e ∧ s' = acceptedState H s e now := by
  simp only [accept, ok_iff, not_exists, not_and, not_not, UInt64.not_lt]
  constructor
  · rintro ⟨hfresh, hnew, expected, hnext, hcounted, hnonce, hfunded, hs⟩
    exact ⟨hfresh, hnew, ⟨⟨expected, hnext, hnonce⟩,
      fun h => hcounted h.1 h.2, hfunded⟩, hs.symm⟩
  · rintro ⟨hfresh, hnew, ⟨⟨expected, hnext, hnonce⟩, hcounted, hfunded⟩, hs⟩
    exact ⟨hfresh, hnew, expected, hnext, fun h h' => hcounted ⟨h, h'⟩,
      hnonce, hfunded, hs.symm⟩

theorem importBlockIntoState_normalizeState (s : PersistedState) (b : Block)
    (chainID : Bytes) :
    importBlockIntoState H (normalizeState s) b chainID =
      importBlockIntoState H s b chainID := by
  simp only [importBlockIntoState, normalizeState_idem]

variable {chainID : Bytes} {b : Block}

/-- Certified production imports the block of a stored proposal. -/
theorem produceCertifiedBlockFromState_import {producedAt : Time}
    (h : produceCertifiedBlockFromState H s producedAt chainID =
      .ok (s', b)) : importBlockIntoState H s b chainID = .ok s' := by
  simp only [produceCertifiedBlockFromState, ok_iff, Prod.mk.injEq,
    importBlockIntoState_normalizeState] at h
  obtain ⟨p, -, -, -, next, hnext, rfl, rfl⟩ := h
  exact hnext

theorem produceBlockWithOptions_cases {maxTransactions : Int}
    {producedAt : Time} {requireConsensus : Bool}
    (h : produceBlockWithOptions H s maxTransactions producedAt now
      requireConsensus = .ok s') :
    (∃ b, produceBlockFromState H s maxTransactions producedAt now s.chainID =
        .ok (s', b)) ∨
      ∃ b, importBlockIntoState H s b s.chainID = .ok s' := by
  cases requireConsensus with
  | false =>
    simp only [produceBlockWithOptions, Bool.false_eq_true, if_false,
      ok_iff] at h
    obtain ⟨⟨next, b⟩, hproduced, rfl⟩ := h
    exact .inl ⟨b, hproduced⟩
  | true =>
    simp only [produceBlockWithOptions, if_true, ok_iff] at h
    obtain ⟨⟨next, b⟩, hproduced, p, -, -, rfl⟩ := h
    exact .inr ⟨b, produceCertifiedBlockFromState_import hproduced⟩

theorem importBlockWithOptions_import {requireConsensus : Bool}
    (h : importBlockWithOptions H s b requireConsensus = .ok s') :
    importBlockIntoState H s b s.chainID = .ok s' := by
  simp only [importBlockWithOptions, bind_eq_ok] at h
  obtain ⟨next, hnext, h⟩ := h
  cases requireConsensus with
  | false =>
    simp only [Bool.false_eq_true, if_false, pure_eq_ok] at h
    exact h ▸ hnext
  | true =>
    simp only [if_true, ok_iff] at h
    exact h.2 ▸ hnext

theorem importBlockWithEvidence_import {evidence : CertifiedBlockEvidence}
    (h : importBlockWithEvidence H s b evidence now = .ok s') :
    ∃ next, importBlockIntoState H s b s.chainID = .ok next ∧
      SameLedger next s' := by
  simp only [importBlockWithEvidence, ok_iff] at h
  obtain ⟨-, next, hnext, evidenceState, -, rfl⟩ := h
  exact ⟨next, hnext, ⟨rfl, rfl, rfl, rfl, rfl, rfl⟩⟩

/-- A message moves the round of the store to its own, never back. -/
theorem alignRoundState_eq_ok {round : UInt64} {observedAt : Time}
    (h : alignRoundState s round observedAt = .ok s') :
    s.roundState.round ≤ round ∧ ∃ startedAt,
      s' = { s with
        roundState := ⟨s.roundState.height, round, startedAt⟩ } := by
  unfold alignRoundState at h
  split at h
  case isTrue => cases h
  case isFalse hold =>
    refine ⟨UInt64.not_lt.1 hold, ?_⟩
    split at h
    case isTrue hnew =>
      cases h
      exact ⟨observedAt, rfl⟩
    case isFalse hnew =>
      have hround : s.roundState.round = round :=
        UInt64.le_antisymm (UInt64.not_lt.1 hold) (UInt64.not_lt.1 hnew)
      split at h
      case isTrue =>
        cases h
        exact ⟨observedAt, by subst hround; rfl⟩
      case isFalse =>
        cases h
        exact ⟨s.roundState.startedAt, by subst hround; rfl⟩

theorem sameLedger_round (s : PersistedState) (r : ConsensusRoundState) :
    SameLedger s { s with roundState := r } :=
  ⟨rfl, rfl, rfl, rfl, rfl, rfl⟩

theorem recordProposal_sameLedger {p : Proposal}
    (h : recordProposal H s p now = .ok s') : SameLedger s s' := by
  simp only [recordProposal, recordProposalIntoState,
    alignRoundStateWithProposal, ok_iff] at h
  obtain ⟨-, -, -, -, -, -, aligned, haligned, -, root, -, -, proposals, -,
    rfl⟩ := h
  obtain ⟨-, startedAt, rfl⟩ := alignRoundState_eq_ok haligned
  exact ⟨rfl, rfl, rfl, rfl, rfl, rfl⟩

theorem appendVote_sameLedger (s : PersistedState) (v : Vote)
    (power : UInt64) (now : Time) :
    SameLedger s (appendVote s v power now).1 := by
  unfold appendVote
  dsimp only
  split
  · exact ⟨rfl, rfl, rfl, rfl, rfl, rfl⟩
  · exact ⟨rfl, rfl, rfl, rfl, rfl, rfl⟩

/-- A recorded vote was aligned with the round, and either it was there
already or it is appended. -/
theorem recordVoteIntoState_cases {v : Vote}
    {result : PersistedState × VoteTally × Option CommitCertificate}
    (h : recordVoteIntoState H s v now = .ok result) :
    ∃ aligned power, alignRoundStateWithVote (normalizeState s)
        (v.observed now) now = .ok aligned ∧
      validatorVotingPower aligned.validatorSnapshot (v.observed now).voter =
        some power ∧
      (v.observed now).validateStatic H = .ok () ∧
      (v.observed now).height = s.blocks.length + 1 ∧
      hasProposal aligned.proposals (v.observed now).height
        (v.observed now).round (v.observed now).blockHash = true ∧
      ((∃ existing, findVoteByValidator aligned.votes (v.observed now).height
            (v.observed now).round (v.observed now).voter = some existing ∧
          existing.blockHash = (v.observed now).blockHash ∧
          result.1 = aligned) ∨
        (findVoteByValidator aligned.votes (v.observed now).height
            (v.observed now).round (v.observed now).voter = none ∧
          result = appendVote aligned (v.observed now) power now)) := by
  simp only [recordVoteIntoState, ok_iff, not_not] at h
  obtain ⟨hvalid, -, hheight, aligned, haligned, power, hpower, hproposal, h⟩ :=
    h
  refine ⟨aligned, power, haligned, hpower, hvalid, hheight, hproposal, ?_⟩
  split at h
  next existing hexisting =>
    simp only [ok_iff, not_not] at h
    exact .inl ⟨existing, hexisting, h.1, h.2 ▸ rfl⟩
  next hnone =>
    simp only [pure_eq_ok] at h
    exact .inr ⟨hnone, h.symm⟩

theorem recordVote_sameLedger {v : Vote}
    {result : PersistedState × VoteTally × Option CommitCertificate}
    (h : recordVote H s v now = .ok result) : SameLedger s result.1 := by
  simp only [recordVote, ok_iff] at h
  obtain ⟨aligned, power, haligned, -, -, -, -, hcases⟩ :=
    recordVoteIntoState_cases h.2
  obtain ⟨-, startedAt, rfl⟩ := alignRoundState_eq_ok haligned
  have hbase := (sameLedger_normalizeState s).trans (sameLedger_round _
    ⟨(normalizeState s).roundState.height, (v.observed now).round, startedAt⟩)
  rcases hcases with ⟨existing, -, -, hresult⟩ | ⟨-, hresult⟩
  · exact hresult ▸ hbase
  · exact hresult ▸ hbase.trans (appendVote_sameLedger _ _ _ _)

-- ==== steps

/-- What an operation can do to the ledger part of the state. -/
inductive LedgerStep (H : Host) (s t : PersistedState) : Prop
  | same : SameLedger s t → LedgerStep H s t
  | credited (requestID address : Bytes) (amount : UInt64) :
      creditWithID s requestID address amount = .ok (some t) →
      LedgerStep H s t
  | accepted (e : Envelope) (now : Time) :
      accept H s e now = .ok t → LedgerStep H s t
  | produced (maxTransactions : Int) (producedAt now : Time) (b : Block) :
      produceBlockFromState H s maxTransactions producedAt now s.chainID =
        .ok (t, b) → LedgerStep H s t
  | imported (b : Block) (next : PersistedState) :
      importBlockIntoState H s b s.chainID = .ok next → SameLedger next t →
      LedgerStep H s t
  | restored (snapshot : Snapshot) (chainID : Bytes)
      (proofs : List SnapshotProof) (trusted : ValidatorSnapshot) :
      restoreQuorumSnapshot H s snapshot chainID proofs trusted = .ok t →
      LedgerStep H s t

theorem ensureRoundStarted_eq_some {start : Time}
    (h : ensureRoundStarted s start now = .ok (some s')) :
    s' = { s with roundState := { s.roundState with
      startedAt := if start = 0 then now else start } } := by
  simp only [ensureRoundStarted, ok_iff] at h
  obtain ⟨-, h⟩ := h
  split at h
  · cases h
  · cases h
    rfl

theorem next_ledgerStep {op : Operation}
    (h : op.next H s now = .ok (some s')) : LedgerStep H s s' := by
  cases op with
  | creditWithID requestID address amount =>
    exact .credited requestID address amount h
  | ensureRoundStarted start =>
    exact ensureRoundStarted_eq_some h ▸ .same (sameLedger_round s _)
  | accept e =>
    have hnext := map_some_eq_ok.1 h
    exact .accepted e now hnext
  | produceBlock maxTransactions producedAt requireConsensus =>
    have hnext := map_some_eq_ok.1 h
    rcases produceBlockWithOptions_cases hnext with ⟨b, hb⟩ | ⟨b, hb⟩
    · exact .produced maxTransactions producedAt now b hb
    · exact .imported b s' hb (.refl s')
  | importBlock b requireConsensus =>
    have hnext := map_some_eq_ok.1 h
    exact .imported b s' (importBlockWithOptions_import hnext) (.refl s')
  | importBlockWithEvidence b evidence =>
    have hnext := map_some_eq_ok.1 h
    obtain ⟨mid, hmid, hsame⟩ := importBlockWithEvidence_import hnext
    exact .imported b mid hmid hsame
  | setValidators validators config =>
    have hnext := map_some_eq_ok.1 h
    simp only [setValidators, ok_iff] at hnext
    obtain ⟨-, rfl⟩ := hnext
    exact .same ⟨rfl, rfl, rfl, rfl, rfl, rfl⟩
  | recordProposal p =>
    have hnext := map_some_eq_ok.1 h
    exact .same (recordProposal_sameLedger hnext)
  | recordVote v =>
    obtain ⟨result, hresult, heq⟩ := map_eq_ok.1 h
    cases heq
    exact .same (recordVote_sameLedger hresult)
  | advanceRound start =>
    have hnext := map_some_eq_ok.1 h
    simp only [advanceRound, ok_iff] at hnext
    obtain ⟨-, rfl⟩ := hnext
    exact .same (sameLedger_round s _)
  | restoreQuorumSnapshot snapshot chainID proofs trusted =>
    have hnext := map_some_eq_ok.1 h
    exact .restored snapshot chainID proofs trusted hnext

-- ==== runs

variable {reread : PersistedState → PersistedState}

/-- A call that does not reopen a file JSON has changed. -/
def Node.Rereads (reread : PersistedState → PersistedState) (n : Node)
    (c : Call) : Prop :=
  c = .reopen → reread n.file = n.file

/-- The nodes of a store opened on an empty directory, after any calls. -/
inductive Reachable (H : Host) (reread : PersistedState → PersistedState)
    (chainID : Bytes) : Node → Prop
  | opened {s : PersistedState} : newStoreWithChainID H chainID = .ok s →
      Reachable H reread chainID ⟨s, s⟩
  | call {n : Node} (c : Call) : Reachable H reread chainID n →
      n.Rereads reread c →
      Reachable H reread chainID (n.call H reread c).1

theorem normalizeState_emptyState (chainID : Bytes) :
    normalizeState (emptyState chainID) = emptyState chainID := by
  rfl

/-- A store is normalized and its file holds the same state. -/
structure Node.Stable (n : Node) : Prop where
  file : n.file = n.store
  normal : normalizeState n.store = n.store

theorem stable_open (chainID : Bytes) :
    Node.Stable ⟨emptyState chainID, emptyState chainID⟩ :=
  ⟨rfl, normalizeState_emptyState chainID⟩

variable {n : Node}

/-- A call on a stable node leaves it alone or writes the state of an
operation. Reopening changes nothing. -/
theorem call_cases (hstable : n.Stable) {c : Call}
    (hread : n.Rereads reread c) :
    (n.call H reread c).1 = n ∨ ∃ op now s', c = .operation op now true ∧
      op.next H n.store now = .ok (some s') ∧
      n.call H reread c = (⟨normalizeState s', normalizeState s'⟩, none) := by
  cases c with
  | reopen =>
    left
    simp only [Node.call]
    split
    · rfl
    · next store hload =>
        simp only [load, ok_iff] at hload
        obtain ⟨-, -, rfl⟩ := hload
        rw [hread rfl, hstable.file, hstable.normal]
        exact congrArg (Node.mk n.store) hstable.file.symm
  | operation op now writes =>
    simp only [Node.call]
    split
    · exact .inl rfl
    · exact .inl rfl
    · next s' hnext =>
        cases writes with
        | false => exact .inl rfl
        | true => exact .inr ⟨op, now, s', rfl, hnext, rfl⟩

/-- A call that returns an error leaves the node as it was. -/
theorem Node.call_error (n : Node) (c : Call)
    (h : (n.call H reread c).2 ≠ none) : (n.call H reread c).1 = n := by
  cases c with
  | reopen =>
    simp only [Node.call] at h ⊢
    split at h
    · rfl
    · exact absurd rfl h
  | operation op now writes =>
    simp only [Node.call] at h ⊢
    split at h
    · rfl
    · rfl
    · cases writes with
      | false => rfl
      | true => exact absurd rfl h

theorem stable_call (hstable : n.Stable) {c : Call}
    (hread : n.Rereads reread c) : (n.call H reread c).1.Stable := by
  rcases call_cases (H := H) hstable hread with heq | ⟨op, now, s', -, -, heq⟩
  · rw [heq]
    exact hstable
  · rw [heq]
    exact ⟨rfl, normalizeState_idem s'⟩

theorem newStoreWithChainID_eq_ok {s : PersistedState} :
    newStoreWithChainID H chainID = .ok s ↔
      validateChainID H (configuredChainID chainID) = .ok () ∧
        s = emptyState (configuredChainID chainID) := by
  simp only [newStoreWithChainID, ok_iff, eq_comm (a := s)]

theorem Reachable.stable (h : Reachable H reread chainID n) : n.Stable := by
  induction h with
  | opened hopen =>
    obtain ⟨-, rfl⟩ := newStoreWithChainID_eq_ok.1 hopen
    exact stable_open _
  | call c _ hread ih => exact stable_call ih hread

/-- What holds of an empty store and of every state an operation writes,
holds in every run. -/
theorem Reachable.invariant (P : PersistedState → Prop)
    (hopen : validateChainID H (configuredChainID chainID) = .ok () →
      P (emptyState (configuredChainID chainID)))
    (hstep : ∀ s s' op now, P s → Operation.next H s now op = .ok (some s') →
      P (normalizeState s')) (h : Reachable H reread chainID n) :
    P n.store := by
  induction h with
  | opened hnew =>
    obtain ⟨hvalid, rfl⟩ := newStoreWithChainID_eq_ok.1 hnew
    exact hopen hvalid
  | call c hn hread ih =>
    rcases call_cases (H := H) hn.stable hread with heq | ⟨op, now, s', -, hs, heq⟩
    · rw [heq]
      exact ih
    · rw [heq]
      exact hstep _ s' op now ih hs

end ZephyrChain.Ledger
