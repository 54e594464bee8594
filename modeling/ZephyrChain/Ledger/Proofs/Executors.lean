/-
The three executors of the account ledger read backwards, and the
operations of the store as steps on the ledger part of its state.

`produceBlockFromState_eq_ok`, `importBlockIntoState_eq_ok` and
`expectedStateRootFromState_eq_ok` reduce each executor to a run of
transfers, a state root and the checks around them. `next_cases` says
what an operation can do to accounts, mempool and blocks: nothing, a
credit, an admission, a produced block, an imported one, or a restored
snapshot.
-/
import ZephyrChain.Ledger.Proofs.Transfer

namespace ZephyrChain.Ledger

open Lib

-- ==== normalization

@[simp] theorem normalizeElectionConfig_idem (c : ElectionConfig) :
    normalizeElectionConfig (normalizeElectionConfig c) =
      normalizeElectionConfig c := by
  unfold normalizeElectionConfig
  congr 1
  · by_cases h : c.maxValidators ≤ 0 <;> simp [h]
  · by_cases h : c.minSelfStake = 0 <;> simp [h]
  · by_cases h : c.maxMissedBlocks = 0 <;> simp [h]

@[simp] theorem normalizeValidatorSnapshot_idem (v : ValidatorSnapshot) :
    normalizeValidatorSnapshot (normalizeValidatorSnapshot v) =
      normalizeValidatorSnapshot v := by
  by_cases h : 0 < v.version ∨ v.validators ≠ [] ∨ v.updatedAt ≠ none
  · simp [normalizeValidatorSnapshot, h]
  · simp [normalizeValidatorSnapshot, h]

@[simp] theorem normalizeValidatorSnapshot_validators (v : ValidatorSnapshot) :
    (normalizeValidatorSnapshot v).validators = v.validators := by
  unfold normalizeValidatorSnapshot
  split
  · rfl
  · rfl

@[simp] theorem normalizeValidatorSnapshot_version (v : ValidatorSnapshot) :
    (normalizeValidatorSnapshot v).version = v.version := by
  unfold normalizeValidatorSnapshot
  split
  · rfl
  · rfl

theorem normalizeConsensusRoundState_idem (r : ConsensusRoundState)
    (blocks : List Block) :
    normalizeConsensusRoundState (normalizeConsensusRoundState r blocks)
        blocks = normalizeConsensusRoundState r blocks := by
  by_cases h : r.height = blocks.length + 1
  · simp [normalizeConsensusRoundState, h]
  · simp [normalizeConsensusRoundState, h]

@[simp] theorem normalizeState_idem (s : PersistedState) :
    normalizeState (normalizeState s) = normalizeState s := by
  simp [normalizeState, normalizeConsensusRoundState_idem]

section normalizeState

variable (s : PersistedState)

@[simp] theorem normalizeState_chainID :
    (normalizeState s).chainID = s.chainID := rfl

@[simp] theorem normalizeState_accounts :
    (normalizeState s).accounts = s.accounts := rfl

@[simp] theorem normalizeState_mempool :
    (normalizeState s).mempool = s.mempool := rfl

@[simp] theorem normalizeState_blocks :
    (normalizeState s).blocks = s.blocks := rfl

@[simp] theorem normalizeState_committedTransactionIDs :
    (normalizeState s).committedTransactionIDs =
      s.committedTransactionIDs := rfl

@[simp] theorem normalizeState_appliedFundingIDs :
    (normalizeState s).appliedFundingIDs = s.appliedFundingIDs := rfl

@[simp] theorem normalizeState_validatorSnapshot :
    (normalizeState s).validatorSnapshot =
      normalizeValidatorSnapshot s.validatorSnapshot := rfl

@[simp] theorem normalizeState_proposals :
    (normalizeState s).proposals = s.proposals := rfl

@[simp] theorem normalizeState_votes :
    (normalizeState s).votes = s.votes := rfl

@[simp] theorem normalizeState_commitCertificates :
    (normalizeState s).commitCertificates = s.commitCertificates := rfl

end normalizeState

-- ==== executors

variable (H : Host)

/-- A transaction the executors take on a chain. -/
def Envelope.ValidFor (e : Envelope) (chainID : Bytes) : Prop :=
  e.validateForChain H chainID = .ok ()

/-- The root of a state with other accounts. -/
def executionRoot (chainID : Bytes) (s : PersistedState)
    (accounts : Accounts) : Except Error Bytes :=
  stateRootWithFundingIDs H chainID accounts
    (normalizeValidatorSnapshot s.validatorSnapshot) s.appliedFundingIDs

variable {accounts : Accounts}

theorem executionRoot_ne_nil {chainID : Bytes} {s : PersistedState}
    {root : Bytes} (h : executionRoot H chainID s accounts = .ok root) :
    root ≠ [] := by
  simp only [executionRoot, stateRootWithFundingIDs, ok_iff] at h
  obtain ⟨-, -, payload, -, rfl⟩ := h
  exact H.hexDigest_ne_nil payload

/-- The entries a produced block takes. -/
def selectedEntries (s : PersistedState) (maxTransactions : Int) :
    List MempoolEntry :=
  s.mempool.take (selectedCount maxTransactions s.mempool)

/-- The height of the last block. -/
def lastHeight (blocks : List Block) : Nat :=
  (blocks.getLast?.map Block.height).getD 0

/-- The block `produceBlockFromState` builds. -/
def producedBlock (s : PersistedState) (maxTransactions : Int)
    (producedAt now : Time) (chainID root : Bytes) : Block :=
  sealedBlock H chainID (lastHeight s.blocks + 1) (latestHash s.blocks) root
    (if producedAt = 0 then now else producedAt)
    ((selectedEntries s maxTransactions).map MempoolEntry.id)
    ((selectedEntries s maxTransactions).map MempoolEntry.envelope)

/-- The state with a block appended and a shorter mempool. -/
def extended (s : PersistedState) (accounts : Accounts)
    (mempool : List MempoolEntry) (b : Block) : PersistedState :=
  normalizeState { normalizeState s with
    accounts := accounts
    mempool := mempool
    blocks := s.blocks ++ [b]
    committedTransactionIDs :=
      s.committedTransactionIDs ∪ b.transactionIDs.toFinset }

variable {H}
variable {s s' : PersistedState} {b : Block} {chainID : Bytes}

theorem produceBlockFromState_eq_ok {maxTransactions : Int}
    {producedAt now : Time} :
    produceBlockFromState H s maxTransactions producedAt now chainID =
        .ok (s', b) ↔
      s.mempool ≠ [] ∧ ∃ accounts root,
        runTransfers s.accounts ((selectedEntries s maxTransactions).map
          MempoolEntry.envelope) = .ok accounts ∧
        executionRoot H chainID s accounts = .ok root ∧
        b = producedBlock H s maxTransactions producedAt now chainID root ∧
        s' = extended s accounts
          (s.mempool.drop (selectedCount maxTransactions s.mempool)) b := by
  simp only [produceBlockFromState, ok_iff, stateRootFromState,
    runTransfers, List.foldlM_map, Prod.mk.injEq]
  simp only [normalizeState_mempool, normalizeState_accounts,
    normalizeState_blocks, normalizeState_validatorSnapshot,
    normalizeState_appliedFundingIDs, normalizeValidatorSnapshot_idem,
    List.length_eq_zero_iff]
  refine and_congr_right fun _ => exists_congr fun accounts => ?_
  constructor
  · rintro ⟨hrun, root, hroot, hs, hb⟩
    subst hb
    exact ⟨root, hrun, hroot, rfl, hs.symm⟩
  · rintro ⟨root, hrun, hroot, hb, hs⟩
    subst hb
    exact ⟨hrun, root, hroot, hs.symm, rfl⟩

variable {txs : List Envelope}

/-- The import loop checks every transaction and runs the transfers. -/
theorem importLoop_eq_ok {committed : Finset Bytes} {ids : List Bytes}
    (hlen : ids.length = txs.length) {accounts' : Accounts} :
    (txs.zip ids).foldlM (importTransaction H chainID committed) accounts =
        .ok accounts' ↔
      ids = txs.map (txID H) ∧
        (∀ e ∈ txs, e.ValidFor H chainID ∧ txID H e ∉ committed) ∧
        runTransfers accounts txs = .ok accounts' := by
  induction txs generalizing ids accounts with
  | nil =>
    obtain rfl := List.length_eq_zero_iff.1 hlen
    simp [runTransfers]
  | cons e txs ih =>
    cases ids with
    | nil => cases hlen
    | cons id ids =>
      have htail : ids.length = txs.length := Nat.succ.inj hlen
      rw [runTransfers_cons, List.zip_cons_cons, List.foldlM_cons]
      simp only [importTransaction, ok_iff, not_not, transfer_eq_ok,
        ih htail, List.map_cons, List.cons.injEq, List.forall_mem_cons]
      constructor
      · rintro ⟨_, ⟨hvalid, hid, hfresh, htransfer, rfl⟩, hids, hall, hrun⟩
        exact ⟨⟨hid, hids⟩, ⟨⟨hvalid, hfresh⟩, hall⟩, htransfer, hrun⟩
      · rintro ⟨⟨hid, hids⟩, ⟨⟨hvalid, hfresh⟩, hall⟩, htransfer, hrun⟩
        exact ⟨_, ⟨hvalid, hid, hfresh, htransfer, rfl⟩, hids, hall, hrun⟩

theorem expectLoop_eq_ok {accounts' : Accounts} :
    txs.foldlM (expectTransaction H chainID) accounts = .ok accounts' ↔
      (∀ e ∈ txs, e.ValidFor H chainID) ∧
        runTransfers accounts txs = .ok accounts' := by
  induction txs generalizing accounts with
  | nil => simp [runTransfers]
  | cons e txs ih =>
    rw [runTransfers_cons, List.foldlM_cons]
    simp only [expectTransaction, ok_iff, transfer_eq_ok, ih,
      List.forall_mem_cons]
    constructor
    · rintro ⟨_, ⟨hvalid, htransfer, rfl⟩, hall, hrun⟩
      exact ⟨⟨hvalid, hall⟩, htransfer, hrun⟩
    · rintro ⟨⟨hvalid, hall⟩, htransfer, hrun⟩
      exact ⟨_, ⟨hvalid, htransfer, rfl⟩, hall, hrun⟩

theorem expectedStateRootFromState_eq_ok {root : Bytes} :
    expectedStateRootFromState H s chainID txs = .ok root ↔
      (∀ e ∈ txs, e.ValidFor H chainID) ∧ ∃ accounts,
        runTransfers s.accounts txs = .ok accounts ∧
        executionRoot H chainID s accounts = .ok root := by
  simp only [expectedStateRootFromState, bind_eq_ok, stateRootFromState,
    normalizeState_accounts, normalizeState_validatorSnapshot,
    normalizeState_appliedFundingIDs, normalizeValidatorSnapshot_idem,
    expectLoop_eq_ok]
  constructor
  · rintro ⟨accounts, ⟨hvalid, hrun⟩, hroot⟩
    exact ⟨hvalid, accounts, hrun, hroot⟩
  · rintro ⟨hvalid, accounts, hrun, hroot⟩
    exact ⟨accounts, ⟨hvalid, hrun⟩, hroot⟩

/-- The checks a block passes before it is compared with the chain. -/
structure BlockShape (b : Block) (chainID : Bytes) : Prop where
  chain : b.chainID = chainID
  root : b.stateRoot ≠ []
  height : b.height ≠ 0
  count : b.transactionCount = b.transactions.length
  ids : b.transactionIDs.length = b.transactions.length

/-- The next block of a chain is imported. -/
structure Imports (H : Host) (s s' : PersistedState) (b : Block)
    (chainID : Bytes) (accounts : Accounts) : Prop where
  height : b.height = s.blocks.length + 1
  link : b.previousHash = latestHash s.blocks
  ids : b.transactionIDs = b.transactions.map (txID H)
  fresh : ∀ e ∈ b.transactions,
    e.ValidFor H chainID ∧ txID H e ∉ s.committedTransactionIDs
  run : runTransfers s.accounts b.transactions = .ok accounts
  root : executionRoot H chainID s accounts = .ok b.stateRoot
  hash : b.hash = b.computeHash H
  state : s' = extended s accounts
    (s.mempool.filter fun entry => entry.id ∉ b.transactionIDs) b

theorem sealedBlock_eq {b : Block} (hshape : BlockShape b chainID)
    (hhash : b.hash = b.computeHash H) :
    sealedBlock H chainID b.height b.previousHash b.stateRoot b.producedAt
      b.transactionIDs b.transactions = b := by
  obtain ⟨rfl, -, -, hcount, -⟩ := hshape
  cases b
  simp only [Block.computeHash] at hhash hcount
  simp only [sealedBlock, hhash, hcount]

theorem appendBlock_eq_ok (hshape : BlockShape b chainID)
    (hheight : b.height = s.blocks.length + 1) :
    appendBlock H (normalizeState s) b chainID = .ok s' ↔
      ∃ accounts, Imports H s s' b chainID accounts := by
  simp only [appendBlock, ok_iff, not_not, stateRootFromState,
    importLoop_eq_ok hshape.ids]
  simp only [normalizeState_accounts, normalizeState_mempool,
    normalizeState_blocks, normalizeState_committedTransactionIDs,
    normalizeState_validatorSnapshot, normalizeState_appliedFundingIDs,
    normalizeValidatorSnapshot_idem]
  constructor
  · rintro ⟨hlink, accounts, ⟨hids, hfresh, hrun⟩, root, hroot, heq, hhash, hs⟩
    subst heq
    have hhash : b.hash = b.computeHash H := by
      rw [hhash, ← hids, ← hshape.chain]
      rfl
    refine ⟨accounts, hheight, hlink, hids, hfresh, hrun, hroot, hhash, ?_⟩
    rw [← hs, ← hids, sealedBlock_eq hshape hhash]
    rfl
  · rintro ⟨accounts, h⟩
    refine ⟨h.link, accounts, ⟨h.ids, h.fresh, h.run⟩, b.stateRoot, h.root, rfl,
      ?_, ?_⟩
    · rw [h.hash, ← h.ids, ← hshape.chain]
      rfl
    · rw [h.state, ← h.ids, sealedBlock_eq hshape h.hash]
      rfl

/-- An import finds a block it knows, or executes the next one. -/
theorem importBlockIntoState_eq_ok :
    importBlockIntoState H s b chainID = .ok s' ↔
      BlockShape b chainID ∧
        ((b.height ≤ s.blocks.length ∧
            (s.blocks[b.height - 1]?.map Block.hash).getD [] = b.hash ∧
            s' = normalizeState s) ∨
          ∃ accounts, Imports H s s' b chainID accounts) := by
  have hsplit : BlockShape b chainID ↔
      (b.chainID = chainID ∧ b.stateRoot ≠ []) ∧ b.height ≠ 0 ∧
        b.transactionCount = b.transactions.length ∧
        b.transactionIDs.length = b.transactions.length :=
    ⟨fun h => ⟨⟨h.chain, h.root⟩, h.height, h.count, h.ids⟩,
      fun h => ⟨h.1.1, h.1.2, h.2.1, h.2.2.1, h.2.2.2⟩⟩
  simp only [importBlockIntoState, ok_iff, not_or, not_not]
  by_cases hknown : b.height ≤ s.blocks.length
  · have hnot : ¬ ∃ accounts, Imports H s s' b chainID accounts := by
      rintro ⟨accounts, h⟩
      have := h.height
      omega
    rw [if_pos (show b.height ≤ (normalizeState s).blocks.length from hknown)]
    simp only [ok_iff, not_not]
    simp only [normalizeState_blocks, hknown, hnot, or_false, true_and, hsplit,
      and_assoc, eq_comm (a := normalizeState s), ne_eq]
  · rw [if_neg (show ¬ b.height ≤ (normalizeState s).blocks.length from
      hknown)]
    simp only [ok_iff, not_not]
    simp only [normalizeState_blocks, hknown, false_and, false_or]
    constructor
    · rintro ⟨⟨hc, hr⟩, hh, ⟨hn, hi⟩, hheight, happend⟩
      have hshape : BlockShape b chainID := ⟨hc, hr, hh, hn, hi⟩
      exact ⟨hshape, (appendBlock_eq_ok hshape hheight).1 happend⟩
    · rintro ⟨hshape, accounts, h⟩
      obtain ⟨hc, hr, hh, hn, hi⟩ := hshape
      exact ⟨⟨hc, hr⟩, hh, ⟨hn, hi⟩, h.height,
        (appendBlock_eq_ok ⟨hc, hr, hh, hn, hi⟩ h.height).2 ⟨accounts, h⟩⟩

end ZephyrChain.Ledger
