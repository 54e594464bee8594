/-
The signed expiry of a transaction.

`ValidateAtHeight` is the one function that compares the expiry with a
height, and nothing calls it: `Execute` verifies the network and the
witnesses only. So a build includes every transaction it is given, and
submission takes every transaction that executes. Neither lets an expired
one through just when none is handed to it.
-/
import ZephyrChain.Node.Proofs.Build
import ZephyrChain.Node.Proofs.Mempool

namespace ZephyrChain.Node

open Lib
open Economics (Telemetry)
open Execution (Result execute executeBatch batchOutcome batchOutcome_agrees
  execute_leaves idleRuntime sampleTransaction)
open WorldState (shallowCrypto)

variable {C : Crypto} {T : Telemetry} {s s' : Service C T}
  {script : ZephyrChain.Runtime} {t : Transaction}

/-- The expiry, if there is one, has not passed at a height. -/
def Unexpired (t : Transaction) (height : UInt64) : Prop :=
  t.validUntilHeight = 0 ∨ height ≤ t.validUntilHeight

instance (t : Transaction) (height : UInt64) :
    Decidable (Unexpired t height) :=
  inferInstanceAs (Decidable (_ ∨ _))

/-- A candidate has the result of a transaction. -/
def Candidate.Includes (C : Crypto) (candidate : Candidate)
    (shard : UInt32) (t : Transaction) : Prop :=
  ∃ results, candidate.results.lookup shard = some results ∧
    t.id C ∈ results.map Result.txID

-- ==== a build

/-- A batch that executes has a result for each transaction. -/
theorem txID_mem_batchOutcome {e : Execution.Engine}
    {orders : Execution.BatchOrders} {txs : List Transaction}
    {rs : List Result} (h : batchOutcome C e orders txs = .ok rs)
    (ht : t ∈ txs) : t.id C ∈ rs.map Result.txID := by
  obtain ⟨rs', hrs', hsame⟩ :=
    (agree_iff.1 (batchOutcome_agrees C e orders txs)).1 rs h
  simp only [executeBatch, ok_iff] at hrs'
  obtain ⟨i, hi⟩ := List.mem_iff_getElem?.1 ht
  obtain ⟨hlt, hget⟩ := List.getElem?_eq_some_iff.1 hi
  have hall := mapM_eq_ok hrs'.2
  have hlength := hall.length_eq
  have hlength' := hsame.length_eq
  have hrun := (List.forall₂_iff_get.1 hall).2 i hlt (by omega)
  have hresult := (List.forall₂_iff_get.1 hsame).2 i (by omega) (by omega)
  rw [List.get_eq_getElem, hget] at hrun
  obtain ⟨_, _, _, hfoot, _⟩ := execute_leaves hrun
  exact List.mem_map.2 ⟨_, List.get_mem _ _,
    hresult.txID.trans hfoot.txID⟩

/-- A candidate includes every transaction it was built from. -/
theorem includes_of_buildReturns {r : Runtime C T} {choices : BuildChoices}
    {height : UInt64} {batches : ShardMap ShardBatch}
    {candidate : Candidate}
    (h : BuildReturns C script r choices height batches (.ok candidate))
    {shard : UInt32} (ht : t ∈ (batchOf batches shard).transactions) :
    candidate.Includes C shard t := by
  obtain ⟨outputs, houtputs, hassemble⟩ := exists_outputs h
  have hinside : shard < r.shardCount := by
    refine houtputs.inside shard ?_
    by_contra hkey
    have hnone : batches.lookup shard = none :=
      Finmap.lookup_eq_none.2 fun hmem => hkey (Finmap.mem_keys.2 hmem)
    rw [batchOf, hnone] at ht
    cases ht
  obtain ⟨out, hout, hbuilt⟩ := houtputs.exists_output hinside
  have hsome := List.ne_nil_of_mem ht
  have hresults := hbuilt.results
  rw [Runtime.shardResults, if_neg hsome] at hresults
  simp only [ok_iff] at hresults
  refine ⟨out.results, ?_, txID_mem_batchOutcome hresults.2 ht⟩
  simp only [Runtime.assemble, ok_iff] at hassemble
  obtain ⟨_, _, rfl⟩ := hassemble
  rw [← hbuilt.shardID, lookup_gather houtputs.nodup hout,
    hbuilt.hasTransactions, if_pos (decide_eq_true hsome)]

-- ==== both

/-- What is admitted is what is submitted, unless it was pending. -/
theorem submit_admits (h : s.submit script t = .ok s')
    (height : UInt64) :
    (∀ shard u, u ∈ s'.mempool shard →
        u ∈ s.mempool shard ∨ Unexpired u height) ↔
      t.id C ∈ (s.mempool t.shardID).map (Transaction.id C) ∨
        Unexpired t height := by
  obtain ⟨_, _, hunchanged | ⟨hnew, rfl⟩⟩ := submit_eq_ok h
  · subst hunchanged
    refine ⟨fun _ => .inl ?_, fun _ shard u hu => .inl hu⟩
    by_contra hnew
    -- a transaction that is not pending is put into the mempool
    simp only [Service.submit, ok_iff] at h
    obtain ⟨_, _, _, _, _, h⟩ := h
    rw [if_neg hnew] at h
    have hqueue : s'.mempool t.shardID =
        (s'.enqueue t).mempool t.shardID := by
      rw [show s'.enqueue t = s' from Except.ok.inj h]
    rw [enqueue_mempool, if_pos rfl] at hqueue
    exact List.cons_ne_nil t [] (List.self_eq_append_right.1 hqueue)
  · constructor
    · intro hall
      have hin : t ∈ (s.enqueue t).mempool t.shardID := by
        rw [enqueue_mempool, if_pos rfl]
        exact List.mem_append_right _ List.mem_cons_self
      refine (hall _ t hin).imp (fun hold => ?_) id
      exact List.mem_map_of_mem hold
    · intro hcond shard u hu
      rw [enqueue_mempool] at hu
      split at hu
      case isFalse => exact .inl hu
      case isTrue hshard =>
        rcases List.mem_append.1 hu with hold | hlast
        · rw [hshard]
          exact .inl hold
        · obtain rfl := List.mem_singleton.1 hlast
          exact .inr (hcond.resolve_left hnew)

/-- A build includes no expired transaction just when it is given none,
and submission admits none just when the submitted one is pending already
or not expired. -/
theorem expiry_enforced_iff (C : Crypto) (T : Telemetry)
    (script : ZephyrChain.Runtime) :
    (∀ (r : Runtime C T) choices height batches candidate,
      BuildReturns C script r choices height batches (.ok candidate) →
      ((∀ shard t, t ∈ (batchOf batches shard).transactions →
          candidate.Includes C shard t → Unexpired t height) ↔
        ∀ shard t, t ∈ (batchOf batches shard).transactions →
          Unexpired t height)) ∧
    ∀ (s s' : Service C T) t, s.submit script t = .ok s' →
      ((∀ shard u, u ∈ s'.mempool shard →
          u ∈ s.mempool shard ∨ Unexpired u (s.runtime.height + 1)) ↔
        t.id C ∈ (s.mempool t.shardID).map (Transaction.id C) ∨
          Unexpired t (s.runtime.height + 1)) := by
  constructor
  · intro r choices height batches candidate h
    exact ⟨fun hall shard t ht =>
      hall shard t ht (includes_of_buildReturns h ht),
      fun hall shard t ht _ => hall shard t ht⟩
  · intro s s' t h
    exact submit_admits h _

-- ==== samples

/-- A transfer that moves nothing, signed to expire after block 1. -/
def staleTransfer : Transaction :=
  { sampleTransaction shallowCrypto ⟨Op.transfer, []⟩ with
    validUntilHeight := 1 }

/-- One empty shard at height 2. -/
def emptyService : Service shallowCrypto noTelemetry :=
  { queuedService with
    runtime := { twoShardRuntime with shardCount := 1 }
    imports := fun _ => [] }

def staleBlock : ShardMap ShardBatch :=
  Finmap.singleton 0 ⟨[staleTransfer], [], Bytes32.zero⟩

def storedOrders : BuildChoices := ⟨fun _ => ⟨.stored, fun _ => .stored⟩, 1⟩

/-- What the build of that block returns. -/
def staleBuilt : Except Error Candidate :=
  emptyService.runtime.finishBuild 3 staleBlock
    ((List.range emptyService.runtime.shardCount.toNat).mapM fun shard =>
      emptyService.runtime.buildShard 3 (UInt32.ofNat shard)
        (batchOf staleBlock (UInt32.ofNat shard))
        (batchOutcome shallowCrypto
          (emptyService.runtime.engine idleRuntime 3)
          (storedOrders.orders (UInt32.ofNat shard))
          (batchOf staleBlock (UInt32.ofNat shard)).transactions))

theorem staleBuilt_returns : BuildReturns shallowCrypto idleRuntime
    emptyService.runtime storedOrders 3 staleBlock staleBuilt := by
  rw [buildReturns_iff, staleBuilt]

theorem staleTransfer_succeeds : (execute shallowCrypto
    (emptyService.runtime.nextEngine idleRuntime) staleTransfer).isOk =
      true := by
  decide +kernel

theorem staleBuilt_succeeds : staleBuilt.isOk = true := by
  decide +kernel

/-- At height 3 a transfer that expired after height 1 is admitted and
included. -/
theorem staleTransfer_accepted :
    ¬ Unexpired staleTransfer 3 ∧ emptyService.runtime.height + 1 = 3 ∧
      emptyService.submit idleRuntime staleTransfer =
        .ok (emptyService.enqueue staleTransfer) ∧
      ∃ candidate, BuildReturns shallowCrypto idleRuntime
        emptyService.runtime storedOrders 3 staleBlock (.ok candidate) ∧
        candidate.Includes shallowCrypto 0 staleTransfer := by
  have hroot : (emptyService.runtime.states 0).root shallowCrypto =
      staleTransfer.stateRoot :=
    WorldState.Reachable.new.mirrors.root_shallowCrypto
  obtain ⟨candidate, hbuilt⟩ := exists_of_isOk staleBuilt_succeeds
  have hreturns := staleBuilt_returns
  rw [hbuilt] at hreturns
  refine ⟨by decide, by decide, ?_, candidate, hreturns, ?_⟩
  · refine submit_of_pending ⟨rfl, by decide, hroot.symm,
      exists_of_isOk staleTransfer_succeeds⟩ ?_ List.not_mem_nil
    rintro id _ ⟨txID, htxID, _⟩
    cases htxID
  · refine includes_of_buildReturns hreturns ?_
    unfold staleBlock batchOf
    rw [Finmap.lookup_singleton_eq]
    exact List.mem_cons_self

end ZephyrChain.Node
