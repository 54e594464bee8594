/-
The executors agree. A block produced from the mempool of a reachable
store is accepted by every store with the same accounts and chain, which
ends with the producer's accounts and chain; a proposal with that block
is expected to have its state root and turns back into the block. And a
list of transactions a proposal may hold is a block every such store
imports.

The argument needs two facts of reachable stores (`Consistent`): the last
block's height is the number of blocks, since production counts from the
one and import from the other, and the mempool holds transactions under
their identifiers, none of them committed, since production takes the
identifiers from the mempool and import computes them.
-/
import ZephyrChain.Ledger.Proofs.Runs
import ZephyrChain.Ledger.Proofs.Snapshot
import ZephyrChain.Ledger.Sample

namespace ZephyrChain.Ledger

open Lib

-- ==== invariant

/-- What production and import rely on. -/
structure Consistent (H : Host) (s : PersistedState) : Prop where
  height : lastHeight s.blocks = s.blocks.length
  queued : ∀ entry ∈ s.mempool, entry.id = txID H entry.envelope
  fresh : ∀ entry ∈ s.mempool, entry.id ∉ s.committedTransactionIDs
  distinct : (s.mempool.map MempoolEntry.id).Nodup

variable {H : Host} {reread : PersistedState → PersistedState}
  {s s' : PersistedState} {now : Time} {chainID : Bytes}

@[simp] theorem lastHeight_append (blocks : List Block) (b : Block) :
    lastHeight (blocks ++ [b]) = b.height := by
  simp [lastHeight]

theorem Consistent.of_same (h : Consistent H s) (hsame : SameLedger s s') :
    Consistent H s' := by
  refine ⟨?_, ?_, ?_, ?_⟩
  · rw [hsame.blocks]
    exact h.height
  · rw [hsame.mempool]
    exact h.queued
  · rw [hsame.mempool, hsame.committed]
    exact h.fresh
  · rw [hsame.mempool]
    exact h.distinct

theorem Consistent.accepted {e : Envelope} (h : Consistent H s)
    (haccept : accept H s e now = .ok s') : Consistent H s' := by
  obtain ⟨hfresh, hnew, -, rfl⟩ := accept_eq_ok.1 haccept
  refine ⟨h.height, ?_, ?_, ?_⟩
  · exact forall_mem_concat h.queued rfl
  · exact forall_mem_concat h.fresh hfresh
  · show ((s.mempool ++ [_]).map MempoolEntry.id).Nodup
    rw [List.map_append, List.nodup_append]
    refine ⟨h.distinct, List.nodup_singleton _, ?_⟩
    intro id hid id' hid'
    obtain ⟨entry, hentry, rfl⟩ := List.mem_map.1 hid
    rw [List.mem_singleton.1 hid']
    exact hnew entry hentry

/-- A block takes entries out of the mempool; the others stay fresh when
it does not commit them. -/
theorem Consistent.extended (h : Consistent H s) {accounts : Accounts}
    {mempool : List MempoolEntry} {b : Block}
    (hheight : b.height = s.blocks.length + 1)
    (hsub : mempool.Sublist s.mempool)
    (hout : ∀ entry ∈ mempool, entry.id ∉ b.transactionIDs) :
    Consistent H (extended s accounts mempool b) := by
  refine ⟨?_, ?_, ?_, ?_⟩
  · show lastHeight (s.blocks ++ [b]) = (s.blocks ++ [b]).length
    rw [lastHeight_append, hheight, List.length_append, List.length_singleton]
  · exact fun entry hentry => h.queued entry (hsub.subset hentry)
  · intro entry hentry
    show entry.id ∉ s.committedTransactionIDs ∪ b.transactionIDs.toFinset
    rw [Finset.mem_union, List.mem_toFinset, not_or]
    exact ⟨h.fresh entry (hsub.subset hentry), hout entry hentry⟩
  · exact h.distinct.sublist (hsub.map MempoolEntry.id)

theorem Consistent.produced {maxTransactions : Int} {producedAt : Time}
    {b : Block} (h : Consistent H s)
    (hproduce : produceBlockFromState H s maxTransactions producedAt now
      chainID = .ok (s', b)) : Consistent H s' := by
  obtain ⟨-, accounts, root, -, -, rfl, rfl⟩ :=
    produceBlockFromState_eq_ok.1 hproduce
  refine h.extended ?_ (List.drop_sublist _ _) ?_
  · show lastHeight s.blocks + 1 = s.blocks.length + 1
    rw [h.height]
  · -- an entry behind the selected ones has another identifier
    intro entry hentry hselected
    have hsplit := h.distinct
    rw [← List.take_append_drop (selectedCount maxTransactions s.mempool)
      s.mempool, List.map_append, List.nodup_append] at hsplit
    exact hsplit.2.2 _ hselected _ (List.mem_map_of_mem hentry) rfl

theorem Consistent.imported {b : Block} (h : Consistent H s)
    (himport : importBlockIntoState H s b chainID = .ok s') :
    Consistent H s' := by
  obtain ⟨-, ⟨-, -, rfl⟩ | ⟨accounts, himports⟩⟩ :=
    importBlockIntoState_eq_ok.1 himport
  · exact h.of_same (sameLedger_normalizeState s)
  · rw [himports.state]
    refine h.extended himports.height List.filter_sublist ?_
    intro entry hentry
    exact of_decide_eq_true (List.mem_filter.1 hentry).2

/-- The blocks of a valid snapshot are numbered. -/
theorem validateSnapshotBlocks_height {count : Nat} {previousHash : Bytes}
    {seen : List Bytes} {blocks : List Block}
    (h : validateSnapshotBlocks H chainID count previousHash seen blocks =
      .ok ()) {latest : Block} (hlatest : latest ∈ blocks.getLast?) :
    latest.height = count + blocks.length := by
  induction blocks generalizing count previousHash seen with
  | nil => cases hlatest
  | cons b rest ih =>
    simp only [validateSnapshotBlocks, ok_iff, not_or, not_not] at h
    obtain ⟨-, ⟨hheight, -⟩, -, seen', -, -, hrest⟩ := h
    cases rest with
    | nil =>
      obtain rfl := Option.some.inj hlatest
      exact hheight
    | cons b' rest =>
      rw [List.getLast?_cons_cons] at hlatest
      rw [ih hrest hlatest, List.length_cons (a := b)]
      omega

theorem restoreQuorumSnapshot_consistent {snapshot : Snapshot}
    {proofs : List SnapshotProof} {trusted : ValidatorSnapshot}
    (h : restoreQuorumSnapshot H s snapshot chainID proofs trusted = .ok s') :
    Consistent H s' := by
  simp only [restoreQuorumSnapshot, ok_iff] at h
  obtain ⟨hquorum, -, rfl⟩ := h
  obtain ⟨latest, hstate⟩ := validateSnapshotQuorum_state hquorum
  obtain ⟨-, -, hblocks, -, -⟩ := validateSnapshotCommittedState_eq_ok hstate
  refine ⟨?_, fun entry hentry => ?_, fun entry hentry => ?_, List.nodup_nil⟩
  · show lastHeight snapshot.blocks = snapshot.blocks.length
    unfold lastHeight
    cases hlast : snapshot.blocks.getLast? with
    | none =>
      rw [List.getLast?_eq_none_iff.1 hlast]
      rfl
    | some latest =>
      have := validateSnapshotBlocks_height hblocks
        (Option.mem_def.2 hlast)
      rw [Nat.zero_add] at this
      exact this
  · cases hentry
  · cases hentry

theorem Consistent.step (h : Consistent H s) (hstep : LedgerStep H s s') :
    Consistent H s' := by
  cases hstep with
  | same hsame => exact h.of_same hsame
  | credited requestID address amount hcredit =>
    obtain ⟨-, -, rfl⟩ := creditWithID_eq_ok.1 hcredit
    exact ⟨h.height, h.queued, h.fresh, h.distinct⟩
  | accepted e now haccept => exact h.accepted haccept
  | produced maxTransactions producedAt now b hproduce =>
    exact h.produced hproduce
  | imported b next himport hsame => exact (h.imported himport).of_same hsame
  | restored snapshot chainID proofs trusted hrestore =>
    exact restoreQuorumSnapshot_consistent hrestore

theorem Reachable.consistent {n : Node} (h : Reachable H reread chainID n) :
    Consistent H n.store := by
  refine h.invariant (Consistent H) (fun _ => ?_) ?_
  · refine ⟨rfl, fun entry hentry => ?_, fun entry hentry => ?_,
      List.nodup_nil⟩
    · cases hentry
    · cases hentry
  · intro s s' op now hs hnext
    exact (hs.step (next_ledgerStep hnext)).of_same
      (sameLedger_normalizeState s')

-- ==== agreement

/-- The part of the state the executors of a block read and build on. -/
structure SameBase (s t : PersistedState) : Prop where
  accounts : t.accounts = s.accounts
  blocks : t.blocks = s.blocks
  committed : t.committedTransactionIDs = s.committedTransactionIDs
  funding : t.appliedFundingIDs = s.appliedFundingIDs
  validators : t.validatorSnapshot = s.validatorSnapshot

/-- A proposal with the fields of a block. -/
structure Proposal.BuiltFrom (p : Proposal) (b : Block) : Prop where
  chainID : p.chainID = b.chainID
  height : p.height = b.height
  blockHash : p.blockHash = b.hash
  previousHash : p.previousHash = b.previousHash
  stateRoot : p.stateRoot = b.stateRoot
  producedAt : p.producedAt = b.producedAt
  transactionIDs : p.transactionIDs = b.transactionIDs
  transactions : p.transactions = b.transactions

theorem SameBase.executionRoot_eq {t : PersistedState} (h : SameBase s t)
    (accounts : Accounts) :
    executionRoot H chainID t accounts = executionRoot H chainID s accounts := by
  rw [executionRoot, executionRoot, h.validators, h.funding]

/-- A block built on a state is imported by every state with the same
base. -/
theorem importBlockIntoState_sealedBlock {t : PersistedState}
    {txs : List Envelope} {accounts : Accounts} {root : Bytes}
    (hbase : SameBase s t)
    (hvalid : ∀ e ∈ txs, e.ValidFor H chainID ∧
      txID H e ∉ s.committedTransactionIDs)
    (hrun : runTransfers s.accounts txs = .ok accounts)
    (hroot : executionRoot H chainID s accounts = .ok root)
    (producedAt : Time) :
    importBlockIntoState H t
        (sealedBlock H chainID (s.blocks.length + 1) (latestHash s.blocks)
          root producedAt (txs.map (txID H)) txs) chainID =
      .ok (extended t accounts
        (t.mempool.filter fun entry => entry.id ∉ txs.map (txID H))
        (sealedBlock H chainID (s.blocks.length + 1) (latestHash s.blocks)
          root producedAt (txs.map (txID H)) txs)) := by
  refine importBlockIntoState_eq_ok.2 ⟨?_, .inr ⟨accounts, ?_⟩⟩
  · exact ⟨rfl, executionRoot_ne_nil H hroot, Nat.succ_ne_zero _, rfl,
      List.length_map _⟩
  · refine ⟨?_, ?_, rfl, ?_, ?_, ?_, rfl, rfl⟩
    · rw [hbase.blocks]
      rfl
    · rw [hbase.blocks]
      rfl
    · rw [hbase.committed]
      exact hvalid
    · rw [hbase.accounts]
      exact hrun
    · rw [hbase.executionRoot_eq]
      exact hroot

theorem blockFromProposal_sealedBlock {p : Proposal} {height : Nat}
    {previousHash root : Bytes} {producedAt : Time} {ids : List Bytes}
    {txs : List Envelope}
    (h : p.BuiltFrom (sealedBlock H chainID height previousHash root producedAt
      ids txs)) :
    blockFromProposal H p =
      sealedBlock H chainID height previousHash root producedAt ids txs := by
  rw [blockFromProposal, h.chainID, h.height, h.previousHash, h.stateRoot,
    h.producedAt, h.transactionIDs, h.transactions]
  rfl

/-- Production, import and the expected state root agree in every
reachable store, and import takes every list of transactions that has an
expected root. -/
theorem executors_agree {n : Node} (hreach : Reachable H reread chainID n)
    (hqueue : ∀ entry ∈ n.store.mempool,
      entry.envelope.ValidFor H n.store.chainID) :
    (∀ (maxTransactions : Int) (producedAt now : Time) (s₁ : PersistedState)
        (b : Block),
      produceBlockFromState H n.store maxTransactions producedAt now
          n.store.chainID = .ok (s₁, b) →
        (∀ t, SameBase n.store t → ∃ t₁,
          importBlockIntoState H t b n.store.chainID = .ok t₁ ∧
            t₁.accounts = s₁.accounts ∧ t₁.blocks = s₁.blocks ∧
            t₁.committedTransactionIDs = s₁.committedTransactionIDs) ∧
        expectedStateRootFromState H n.store n.store.chainID b.transactions =
          .ok b.stateRoot ∧
        ∀ p : Proposal, p.BuiltFrom b → blockFromProposal H p = b) ∧
    ∀ (txs : List Envelope) (root : Bytes) (producedAt : Time),
      (∀ e ∈ txs, e.ValidFor H n.store.chainID) →
      expectedStateRootFromState H n.store n.store.chainID txs = .ok root →
      (txs.map (txID H)).Nodup →
      (∀ e ∈ txs, txID H e ∉ n.store.committedTransactionIDs) →
      ∃ t₁, importBlockIntoState H n.store
        (sealedBlock H n.store.chainID (n.store.blocks.length + 1)
          (latestHash n.store.blocks) root producedAt (txs.map (txID H)) txs)
        n.store.chainID = .ok t₁ := by
  have hcons := hreach.consistent
  refine ⟨?_, ?_⟩
  · intro maxTransactions producedAt now s₁ b hproduce
    obtain ⟨-, accounts, root, hrun, hroot, rfl, rfl⟩ :=
      produceBlockFromState_eq_ok.1 hproduce
    have hselected : ∀ entry ∈ selectedEntries n.store maxTransactions,
        entry ∈ n.store.mempool := fun entry hentry =>
      List.mem_of_mem_take hentry
    have hvalid : ∀ e ∈ (selectedEntries n.store maxTransactions).map
        MempoolEntry.envelope, e.ValidFor H n.store.chainID ∧
          txID H e ∉ n.store.committedTransactionIDs := by
      intro e he
      obtain ⟨entry, hentry, rfl⟩ := List.mem_map.1 he
      refine ⟨hqueue entry (hselected entry hentry), ?_⟩
      rw [← hcons.queued entry (hselected entry hentry)]
      exact hcons.fresh entry (hselected entry hentry)
    -- the identifiers the mempool keeps are the ones import computes
    have hids : (selectedEntries n.store maxTransactions).map MempoolEntry.id =
        ((selectedEntries n.store maxTransactions).map
          MempoolEntry.envelope).map (txID H) := by
      rw [List.map_map]
      exact List.map_congr_left fun entry hentry =>
        hcons.queued entry (hselected entry hentry)
    have hblock : producedBlock H n.store maxTransactions producedAt now
        n.store.chainID root = sealedBlock H n.store.chainID
          (n.store.blocks.length + 1) (latestHash n.store.blocks) root
          (if producedAt = 0 then now else producedAt)
          (((selectedEntries n.store maxTransactions).map
            MempoolEntry.envelope).map (txID H))
          ((selectedEntries n.store maxTransactions).map
            MempoolEntry.envelope) := by
      rw [producedBlock, hids, hcons.height]
    refine ⟨?_, ?_, ?_⟩
    · intro t hbase
      rw [hblock]
      refine ⟨_, importBlockIntoState_sealedBlock hbase hvalid hrun hroot _,
        rfl, ?_, ?_⟩
      · show t.blocks ++ _ = n.store.blocks ++ _
        rw [hbase.blocks]
      · show t.committedTransactionIDs ∪ _ =
          n.store.committedTransactionIDs ∪ _
        rw [hbase.committed]
    · exact expectedStateRootFromState_eq_ok.2
        ⟨fun e he => (hvalid e he).1, accounts, hrun, hroot⟩
    · exact fun p hp => blockFromProposal_sealedBlock hp
  · intro txs root producedAt hvalid hexpected _ hfresh
    obtain ⟨-, accounts, hrun, hroot⟩ :=
      expectedStateRootFromState_eq_ok.1 hexpected
    exact ⟨_, importBlockIntoState_sealedBlock
      ⟨rfl, rfl, rfl, rfl, rfl⟩ (fun e he => ⟨hvalid e he, hfresh e he⟩) hrun
      hroot producedAt⟩

/-- A store with a credited account and a transaction of it. -/
def payingNode : Node :=
  (((Node.mk (emptyState sampleChain) (emptyState sampleChain)).call
    sampleHost id (.operation
      (.creditWithID (utf8 "r") (sampleAddress 1) 9) 4 true)).1.call
    sampleHost id (.operation (.accept (sampleEnvelope 1 2 3 1)) 4 true)).1

theorem payingNode_reachable :
    Reachable sampleHost id sampleChain payingNode := by
  have hopen : Reachable sampleHost id sampleChain
      ⟨emptyState sampleChain, emptyState sampleChain⟩ :=
    .opened (newStoreWithChainID_eq_ok.2 ⟨by decide +kernel, rfl⟩)
  exact (hopen.call _ fun _ => rfl).call _ fun _ => rfl

theorem payingNode_agrees : ∃ s₁ b,
    produceBlockFromState sampleHost payingNode.store 0 5 5
        payingNode.store.chainID = .ok (s₁, b) ∧
      expectedStateRootFromState sampleHost payingNode.store
        payingNode.store.chainID b.transactions = .ok b.stateRoot := by
  have hqueue : ∀ entry ∈ payingNode.store.mempool,
      entry.envelope.ValidFor sampleHost payingNode.store.chainID := by
    unfold Envelope.ValidFor
    decide +kernel
  have hok : (produceBlockFromState sampleHost payingNode.store 0 5 5
      payingNode.store.chainID).isOk = true := by
    decide +kernel
  obtain ⟨produced, hproduce⟩ := exists_of_isOk hok
  exact ⟨produced.1, produced.2, hproduce,
    ((executors_agree payingNode_reachable hqueue).1 0 5 5 produced.1
      produced.2 hproduce).2.1⟩

end ZephyrChain.Ledger
