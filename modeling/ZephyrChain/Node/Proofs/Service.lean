/-
What the import queues of a service lose.

A commit empties the import queue of every shard its block imports into,
whatever the queue held: an import that was queued while the block was
voted on, or that another proposer left out, is lost
(`commit_removes_imported_iff`).
-/
import ZephyrChain.Node.Proofs.Build
import ZephyrChain.Node.Service

namespace ZephyrChain.Node

open Lib
open Consensus (ValidatorSet Certificate Proposal Vote)
open Economics (Telemetry)
open Execution (sampleKey sampleSignature)
open WorldState (shallowCrypto)

variable {C : Crypto} {T : Telemetry} {s s' : Service C T}
  {script : ZephyrChain.Runtime} {block : ShardMap ShardBatch}

-- ==== imports

/-- The receipts a block imports into a shard. -/
def importedInto (block : ShardMap ShardBatch) (shard : UInt32) :
    List CrossShardReceipt :=
  (batchOf block shard).imports.map ReceiptImport.receipt

/-- A queue without the imports whose receipts a block has imported. -/
def withoutImported (block : ShardMap ShardBatch) (shard : UInt32)
    (queue : List ReceiptImport) : List ReceiptImport :=
  queue.filter fun i => i.receipt ∉ importedInto block shard

/-- A message for a later height is one to commit. -/
theorem checkCommit_next {m : ConsensusMessage}
    {built : Except Error Candidate} {check : Service.CommitCheck}
    (hnext : s.runtime.height < m.proposal.header.height)
    (h : s.checkCommit m built = .ok check) :
    ∃ candidate certificate, check = .next candidate certificate ∧
      m.certificate = some certificate ∧ built = .ok candidate := by
  simp only [Service.checkCommit, ok_iff] at h
  obtain ⟨certificate, hcertificate, _, _, _, h⟩ := h
  rw [if_neg (UInt64.not_le.2 hnext)] at h
  simp only [ok_iff] at h
  obtain ⟨_, candidate, hbuilt, _, rfl⟩ := h
  exact ⟨candidate, certificate, rfl, hcertificate, hbuilt⟩

/-- Every commit of a block ends in clearing the queues for it. -/
theorem Service.CommitsBlock.imports_eq
    (h : s.CommitsBlock script block s') :
    s'.imports = (s.clearCommittedState block).imports := by
  cases h with
  | message m built committed hblock hnext _ _ h =>
    unfold Service.handleCommit at h
    split at h
    case h_1 => cases h
    case h_2 hknown =>
      obtain ⟨_, _, hcheck, _⟩ := checkCommit_next hnext hknown
      cases hcheck
    case h_3 =>
      split at h
      case h_1 => cases h
      case h_2 =>
        cases h
        rw [← hblock]
        rfl
  | proposed p candidate votes committed _ h =>
    unfold Service.finishPropose at h
    split at h
    case h_1 => cases h
    case h_2 =>
      split at h
      case h_1 => cases h
      case h_2 =>
        cases h
        rfl

/-- The queue of a shard after clearing. -/
theorem clearCommittedState_imports (shard : UInt32) :
    (s.clearCommittedState block).imports shard =
        withoutImported block shard (s.imports shard) ↔
      ((batchOf block shard).imports ≠ [] → ∀ i ∈ s.imports shard,
        i.receipt ∈ importedInto block shard) := by
  show (if (batchOf block shard).imports = [] then s.imports shard
    else []) = _ ↔ _
  by_cases hnone : (batchOf block shard).imports = []
  · rw [if_pos hnone]
    refine iff_of_true ?_ fun hsome => absurd hnone hsome
    unfold withoutImported importedInto
    rw [hnone]
    simp
  · rw [if_neg hnone]
    unfold withoutImported
    rw [eq_comm, List.filter_eq_nil_iff]
    simp only [decide_eq_true_eq, not_not]
    exact ⟨fun h _ => h, fun h => h hnone⟩

/-- A commit removes exactly the imports of its block from the queues
when, in every shard the block imports into, nothing else is queued. -/
theorem commit_removes_imported_iff
    (h : s.CommitsBlock script block s') :
    (∀ shard, s'.imports shard =
        withoutImported block shard (s.imports shard)) ↔
      ∀ shard, (batchOf block shard).imports ≠ [] →
        ∀ i ∈ s.imports shard, i.receipt ∈ importedInto block shard := by
  rw [h.imports_eq]
  exact forall_congr' fun shard => clearCommittedState_imports shard

-- ==== a lost import

/-- One validator that holds all the power. -/
def soleValidators : ValidatorSet :=
  ⟨sampleNetwork, [⟨validatorIDFromPublicKey shallowCrypto sampleKey,
    sampleKey, 1⟩]⟩

/-- That validator's certificate for a header. -/
def soleCertificate (header : GlobalHeader) : Certificate :=
  let hash := Consensus.headerConsensusHash shallowCrypto header
  ⟨sampleNetwork, header.height, 0, hash,
    [⟨sampleNetwork, header.height, 0, hash,
      validatorIDFromPublicKey shallowCrypto sampleKey, sampleKey,
      sampleSignature⟩]⟩

def soleRoot : Hash :=
  Merkle.root shallowCrypto
    (soleValidators.sorted.map (ValidatorSet.leaf shallowCrypto))

/-- A receipt shard 1 has emitted for shard 0. -/
def sampleReceipt (height : UInt64) : CrossShardReceipt where
  sourceShard := 1
  destinationShard := 0
  sourceHeight := height
  transactionID := Vector.replicate 32 5
  outputIndex := UInt32.ofNat height.toNat
  output := ⟨Vector.replicate 32 6, .coin,
    Coin.marshalBinary ⟨Vector.replicate 32 2, 5, height⟩⟩
  sourceStateRoot := Vector.replicate 32 1

/-- The import of that receipt: it is all its shard has emitted, and the
commitment of the shard is the only one. -/
def sampleImport (height : UInt64) : ReceiptImport :=
  let receiptHash := Merkle.leaf shallowCrypto "cross-shard-receipt"
    (sampleReceipt height).encode
  let commitment : Commitment :=
    ⟨1, Vector.replicate 32 1, receiptHash, Vector.replicate 32 3⟩
  let header : GlobalHeader :=
    ⟨2, sampleNetwork, height, Bytes32.zero, commitment.hash shallowCrypto,
      soleRoot, soleRoot, Vector.replicate 32 3, Bytes32.zero⟩
  let certificate := soleCertificate header
  { header := { header with
      certificateHash := certificate.hash shallowCrypto }
    certificate := certificate
    validators := soleValidators
    commitment := commitment
    commitmentProof := ⟨0, 1, []⟩
    receipt := sampleReceipt height
    receiptProof := ⟨0, 1, []⟩ }

/-- Two empty shards at height 2. -/
def twoShardRuntime : Runtime shallowCrypto noTelemetry where
  network := sampleNetwork
  nativeToken := Vector.replicate 32 2
  validatorRoot := soleRoot
  shardCount := 2
  states := fun _ => .memory WorldState.newMemory
  workers := 1
  height := 2
  parentHash := Vector.replicate 32 1
  economicCollector := none
  economicEngine := none
  economicEpochLength := 0
  economicBalances := ⟨0, 0, 0, 0⟩
  pendingEconomic := none
  journal := none
  history := none
  anchorStore := none
  recoveryRequired := false

/-- The service of the validator, with two imports in the queue of
shard 0. -/
def queuedService : Service shallowCrypto noTelemetry where
  runtime := twoShardRuntime
  validators := soleValidators
  key := some sampleKey
  signingGuard := none
  mempool := fun _ => []
  mempoolInputs := fun _ => none
  imports := Function.update (fun _ => []) 0
    [sampleImport 1, sampleImport 2]
  votes := fun _ => none
  latest := none

/-- A block that imports the first of them. -/
def oneImportBlock : ShardMap ShardBatch :=
  Finmap.singleton 0 ⟨[], [sampleImport 1], Bytes32.zero⟩

def oneImportBuilt : Except Error Candidate :=
  twoShardRuntime.finishBuild 3 oneImportBlock
    ((List.range 2).mapM fun shard =>
      twoShardRuntime.buildShard 3 (UInt32.ofNat shard)
        (batchOf oneImportBlock (UInt32.ofNat shard)) (.ok []))

/-- The commit message for that block. -/
def oneImportMessage (header : GlobalHeader) : ConsensusMessage where
  proposal := ⟨header, 0, validatorIDFromPublicKey shallowCrypto sampleKey,
    sampleKey, sampleSignature⟩
  block := oneImportBlock
  certificate := some (soleCertificate header)

def oneImportCommitted (candidate : Candidate) (certificate : Certificate) :
    Runtime shallowCrypto noTelemetry ×
      Except (List Error) GlobalHeader :=
  twoShardRuntime.commit noFaults candidate certificate soleValidators
    (twoShardRuntime.verified candidate)

/-- The checks of the service and of the commit for that message. -/
def oneImportChecked : Except Error Unit := do
  let candidate ← oneImportBuilt
  let _ ← queuedService.checkCommit (oneImportMessage candidate.header)
    oneImportBuilt
  let _ ← twoShardRuntime.prepare candidate
    (soleCertificate candidate.header) soleValidators
    (twoShardRuntime.verified candidate)
  return ()

/-- The build of the block is one `BuildCandidate` may return. -/
theorem oneImportBuilt_returns (script : ZephyrChain.Runtime) :
    ∃ choices, BuildReturns shallowCrypto script twoShardRuntime choices 3
      oneImportBlock oneImportBuilt := by
  refine ⟨⟨fun _ => ⟨.stored, fun _ => .stored⟩, 1⟩,
    buildReturns_iff.2 ?_⟩
  have hempty : ∀ shard : UInt32,
      (batchOf oneImportBlock shard).transactions = [] := by
    intro shard
    unfold oneImportBlock batchOf
    by_cases hzero : shard = 0
    · rw [hzero, Finmap.lookup_singleton_eq]
      rfl
    · have hnone : oneImportBlock.lookup shard = none :=
        Finmap.lookup_eq_none.2 fun hmem =>
          hzero ((Finmap.mem_singleton _ _ _).1 hmem)
      unfold oneImportBlock at hnone
      rw [hnone]
      rfl
  simp only [hempty]
  rfl

theorem twoShardRuntime_volatile : twoShardRuntime.Volatile :=
  ⟨rfl, rfl, rfl, fun _ => ⟨WorldState.newMemory, rfl,
    WorldState.Reachable.new.mirrors⟩⟩

/-- The service commits the block. -/
theorem queuedService_commits (script : ZephyrChain.Runtime) :
    ∃ s', queuedService.CommitsBlock script oneImportBlock s' := by
  have hchecked : oneImportChecked = .ok () := by
    decide +kernel
  simp only [oneImportChecked, ok_iff] at hchecked
  obtain ⟨candidate, hbuilt, check, hcheck, p, hprepare, _⟩ := hchecked
  obtain ⟨choices, hreturns⟩ := oneImportBuilt_returns script
  have hheight : candidate.header.height = 3 := by
    rw [hbuilt] at hreturns
    obtain ⟨_, _, _, _, _, hassemble⟩ := buildReturns_ok hreturns
    exact (assemble_eq_ok hassemble).1
  have hnext : queuedService.runtime.height <
      (oneImportMessage candidate.header).proposal.header.height := by
    show (2 : UInt64) < candidate.header.height
    rw [hheight]
    decide
  obtain ⟨candidate', certificate, rfl, hcertificate, hbuilt'⟩ :=
    checkCommit_next hnext hcheck
  obtain rfl := Except.ok.inj (hbuilt.symm.trans hbuilt')
  obtain rfl := Option.some.inj hcertificate
  obtain ⟨r', hcommit⟩ :
      ∃ r', oneImportCommitted candidate (soleCertificate candidate.header) =
        (r', .ok p.finalized) :=
    commit_of_prepare twoShardRuntime_volatile hprepare
  refine ⟨queuedService.finalized r' p.finalized
    (soleCertificate candidate.header) candidate oneImportBlock,
    .message (oneImportMessage candidate.header) oneImportBuilt
    oneImportCommitted rfl hnext ⟨choices, ?_⟩ ?_ ?_⟩
  · rw [← hheight] at hreturns
    exact hreturns
  · intro c certificate
    exact ⟨1, noFaults, commitReturns_iff.2 rfl⟩
  · unfold Service.handleCommit
    rw [hcheck]
    simp only [hcommit]
    rfl

theorem commit_removes_imported_iff_queued :
    ∃ s', queuedService.CommitsBlock ⟨fun _ => .ok (),
        fun _ => .error .scriptRuntime⟩ oneImportBlock s' ∧
      ((∀ shard, s'.imports shard = withoutImported oneImportBlock shard
          (queuedService.imports shard)) ↔
        ∀ shard, (batchOf oneImportBlock shard).imports ≠ [] →
          ∀ i ∈ queuedService.imports shard,
            i.receipt ∈ importedInto oneImportBlock shard) := by
  obtain ⟨s', hs'⟩ := queuedService_commits
    ⟨fun _ => .ok (), fun _ => .error .scriptRuntime⟩
  exact ⟨s', hs', commit_removes_imported_iff hs'⟩

/-- The import that was not in the block is gone from the queue. -/
theorem queuedService_loses_import :
    ∃ s', queuedService.CommitsBlock ⟨fun _ => .ok (),
        fun _ => .error .scriptRuntime⟩ oneImportBlock s' ∧
      sampleImport 2 ∈ queuedService.imports 0 ∧
      (sampleImport 2).receipt ∉ importedInto oneImportBlock 0 ∧
      s'.imports 0 = [] := by
  obtain ⟨s', hs'⟩ := queuedService_commits
    ⟨fun _ => .ok (), fun _ => .error .scriptRuntime⟩
  refine ⟨s', hs', ?_, ?_, ?_⟩
  · exact List.mem_cons_of_mem _ List.mem_cons_self
  · decide
  · rw [hs'.imports_eq]
    rfl

end ZephyrChain.Node
