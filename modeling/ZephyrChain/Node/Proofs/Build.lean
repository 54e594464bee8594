/-
One build of a candidate.

However the workers of a build interleave, the build returns what the
shards give one after the other (`buildReturns_iff`). One that went
through has built every shard and put the outputs together
(`buildReturns_ok`, `assemble_eq_ok`).
-/
import ZephyrChain.Node.Proofs.Commit
import ZephyrChain.Execution.Proofs.Parallel

namespace ZephyrChain.Node

open Lib
open WorldState (Memory AppendFault applyObjects validateDelta)
open Consensus (ValidatorSet Certificate)
open Economics (Telemetry)
open Execution (Result executeIn batchOutcome batchReturns_iff)

variable {C : Crypto} {T : Telemetry}

-- ==== a build

theorem candidateShardSchedule_perm (shardCount : UInt32)
    (batches : ShardMap ShardBatch) :
    (candidateShardSchedule shardCount batches).Perm
      (List.range shardCount.toNat) :=
  List.filter_append_perm _ _

variable {r : Runtime C T} {height : UInt64}

/-- However the workers interleave, a build returns what the shards give
one after the other. -/
theorem buildReturns_iff {script : ZephyrChain.Runtime}
    {choices : BuildChoices} {batches : ShardMap ShardBatch}
    {out : Except Error Candidate} :
    BuildReturns C script r choices height batches out ↔
      out = r.finishBuild height batches
        ((List.range r.shardCount.toNat).mapM fun shard =>
          r.buildShard height (UInt32.ofNat shard)
            (batchOf batches (UInt32.ofNat shard))
            (batchOutcome C (r.engine script height)
              (choices.orders (UInt32.ofNat shard))
              (batchOf batches (UInt32.ofNat shard)).transactions)) := by
  unfold BuildReturns
  simp only [batchReturns_iff,
    loopReturns_iff (candidateShardSchedule_perm _ _) Nat.one_pos]
  constructor
  · rintro ⟨executed, built, hexecuted, rfl, hout⟩
    simp only [hexecuted] at hout
    exact hout
  · intro hout
    exact ⟨_, _, fun _ => rfl, rfl, hout⟩

/-- A build that went through has built every shard. -/
theorem buildReturns_ok {script : ZephyrChain.Runtime}
    {choices : BuildChoices} {batches : ShardMap ShardBatch}
    {candidate : Candidate}
    (h : BuildReturns C script r choices height batches (.ok candidate)) :
    ∃ outputs, ((List.range r.shardCount.toNat).mapM fun shard =>
        r.buildShard height (UInt32.ofNat shard)
          (batchOf batches (UInt32.ofNat shard))
          (batchOutcome C (r.engine script height)
            (choices.orders (UInt32.ofNat shard))
            (batchOf batches (UInt32.ofNat shard)).transactions)) =
          .ok outputs ∧
      r.recoveryRequired = false ∧ height = r.height + 1 ∧ height ≠ 0 ∧
      r.assemble height outputs = .ok candidate := by
  have hfinish := (buildReturns_iff.1 h).symm
  simp only [Runtime.finishBuild, ok_iff, not_or, not_not,
    Bool.not_eq_true] at hfinish
  obtain ⟨hflag, ⟨hheight, hne⟩, _, outputs, houtputs, hassemble⟩ := hfinish
  exact ⟨outputs, houtputs, hflag, hheight, hne, hassemble⟩

theorem assemble_eq_ok {outputs : List ShardBuildOutput}
    {candidate : Candidate}
    (h : r.assemble height outputs = .ok candidate) :
    candidate.header.height = height ∧
      candidate.commitments = outputs.map ShardBuildOutput.commitment ∧
      candidate.deltas = Runtime.gather outputs (fun out =>
        if out.hasDelta then some out.delta else none) ∧
      candidate.receipts = Runtime.gather outputs
        (fun out => some out.receipts) ∧
      candidate.economicObservations = Runtime.gather outputs (fun out =>
        if r.economicCollector.isSome then some out.observation
        else none) := by
  simp only [Runtime.assemble, ok_iff] at h
  obtain ⟨root, _, rfl⟩ := h
  exact ⟨rfl, rfl, rfl, rfl, rfl⟩

-- ==== the outputs

/-- What building a shard amounts to. -/
structure ShardBuilt (r : Runtime C T) (shard : UInt32) (batch : ShardBatch)
    (executed : Except Error (List Result)) (out : ShardBuildOutput) :
    Prop where
  shardID : out.commitment.shardID = shard
  results : r.shardResults shard batch.transactions executed =
    .ok out.results
  root : r.rootAfter shard out.delta = .ok out.commitment.stateRoot
  receipts : receiptRoot C out.receipts = .ok out.commitment.receiptRoot
  dataLeaf : out.dataLeaf =
    Merkle.leaf C "shard-data-root" out.commitment.dataRoot.toList
  hasTransactions : out.hasTransactions = decide (batch.transactions ≠ [])
  hasDelta : out.hasDelta = decide (¬ out.delta.IsEmpty)
  pending : r.pendingEconomic = none →
    out.economicPendingStateHash = Bytes32.zero

variable {shard : UInt32}

theorem buildShard_eq_ok {batch : ShardBatch}
    {executed : Except Error (List Result)} {out : ShardBuildOutput}
    (h : r.buildShard height shard batch executed = .ok out) :
    ShardBuilt r shard batch executed out := by
  simp only [Runtime.buildShard, ok_iff] at h
  obtain ⟨results, hresults, _, _, _, hpending, _, hroot, _, hreceipts,
    rfl⟩ := h
  refine ⟨rfl, hresults, hroot, hreceipts, rfl, rfl, rfl, fun hnone => ?_⟩
  rw [Runtime.withPendingEpoch, hnone] at hpending
  cases hpending
  rfl

theorem commitmentOf_eq_some {cs : List Commitment}
    (hnodup : (cs.map Commitment.shardID).Nodup) {c : Commitment} :
    commitmentOf cs shard = some c ↔ c ∈ cs ∧ c.shardID = shard := by
  have hsome : ∀ {d}, commitmentOf cs shard = some d →
      d ∈ cs ∧ d.shardID = shard := fun h =>
    ⟨List.mem_of_find?_eq_some h, by simpa using List.find?_some h⟩
  refine ⟨hsome, ?_⟩
  rintro ⟨hc, hshard⟩
  obtain ⟨d, hd⟩ : ∃ d, commitmentOf cs shard = some d :=
    Option.isSome_iff_exists.1
      (List.find?_isSome.2 ⟨c, hc, by simpa using hshard⟩)
  obtain ⟨hin, hsame⟩ := hsome hd
  rw [hd, List.inj_on_of_nodup_map hnodup hin hc (hsame.trans hshard.symm)]

/-- The shards of a topology are those below its number. -/
theorem mem_topology {n : UInt32} :
    shard ∈ (List.range n.toNat).map UInt32.ofNat ↔ shard < n := by
  rw [List.mem_map]
  constructor
  · rintro ⟨k, hk, rfl⟩
    have hlt := List.mem_range.1 hk
    rwa [UInt32.lt_iff_toNat_lt,
      UInt32.toNat_ofNat_of_lt' (hlt.trans n.toNat_lt)]
  · intro hlt
    exact ⟨shard.toNat, List.mem_range.2 (UInt32.lt_iff_toNat_lt.1 hlt),
      UInt32.ofNat_toNat⟩

section Gather

variable {α : Type} {entry : ShardBuildOutput → Option α}
  {outputs : List ShardBuildOutput}

theorem gather_concat (outputs : List ShardBuildOutput)
    (last : ShardBuildOutput) (shard : UInt32) :
    (Runtime.gather (outputs ++ [last]) entry).lookup shard =
      if shard = last.commitment.shardID ∧ (entry last).isSome then
        entry last
      else (Runtime.gather outputs entry).lookup shard := by
  rw [Runtime.gather, List.foldl_append, ← Runtime.gather,
    List.foldl_cons, List.foldl_nil]
  cases entry last with
  | none => simp
  | some a =>
    by_cases hshard : shard = last.commitment.shardID
    · rw [hshard, if_pos ⟨rfl, rfl⟩]
      exact Finmap.lookup_insert _
    · rw [if_neg fun h => hshard h.1]
      exact Finmap.lookup_insert_of_ne _ hshard

/-- A shard without an output has no entry. -/
theorem lookup_gather_of_ne {shard : UInt32}
    (h : shard ∉ outputs.map fun out => out.commitment.shardID) :
    (Runtime.gather outputs entry).lookup shard = none := by
  induction outputs using List.reverseRecOn with
  | nil => rfl
  | append_singleton outputs last ih =>
    rw [List.map_append, List.mem_append, not_or] at h
    rw [gather_concat, if_neg fun heq => h.2 (by simp [heq.1]), ih h.1]

/-- The entry of a shard is the one its output contributes. -/
theorem lookup_gather
    (hnodup : (outputs.map fun out => out.commitment.shardID).Nodup)
    {out : ShardBuildOutput} (hout : out ∈ outputs) :
    (Runtime.gather outputs entry).lookup out.commitment.shardID =
      entry out := by
  induction outputs using List.reverseRecOn with
  | nil => cases hout
  | append_singleton outputs last ih =>
    rw [List.map_append, List.nodup_append] at hnodup
    obtain ⟨hnodup, _, hdisjoint⟩ := hnodup
    have hne : ∀ out ∈ outputs,
        out.commitment.shardID ≠ last.commitment.shardID := fun out hin =>
      hdisjoint _ (List.mem_map_of_mem hin) _ List.mem_cons_self
    rw [gather_concat]
    rcases List.mem_append.1 hout with hin | hlast
    · rw [if_neg fun h => hne out hin h.1, ih hnodup hin]
    · obtain rfl := List.mem_singleton.1 hlast
      split
      case isTrue => rfl
      case isFalse hsome =>
        have hnone : entry out = none := by simpa using hsome
        rw [hnone]
        refine lookup_gather_of_ne fun hmem => ?_
        obtain ⟨other, hother, heq⟩ := List.mem_map.1 hmem
        exact hne other hother heq

end Gather

/-- The outputs of a build, one for each shard in order. -/
structure Runtime.Outputs (script : ZephyrChain.Runtime) (r : Runtime C T)
    (orders : UInt32 → Execution.BatchOrders) (height : UInt64)
    (batches : ShardMap ShardBatch) (outputs : List ShardBuildOutput) :
    Prop where
  built : List.Forall₂ (fun (shard : Nat) out =>
    ShardBuilt r (UInt32.ofNat shard) (batchOf batches (UInt32.ofNat shard))
      (batchOutcome C (r.engine script height)
        (orders (UInt32.ofNat shard))
        (batchOf batches (UInt32.ofNat shard)).transactions) out)
    (List.range r.shardCount.toNat) outputs
  inside : ∀ shard ∈ batches.keys, shard < r.shardCount

section Outputs

variable {script : ZephyrChain.Runtime} {r : Runtime C T}
  {choices : BuildChoices} {orders : UInt32 → Execution.BatchOrders}
  {height : UInt64} {batches : ShardMap ShardBatch}
  {outputs : List ShardBuildOutput} {candidate : Candidate}

theorem exists_outputs
    (h : BuildReturns C script r choices height batches (.ok candidate)) :
    ∃ outputs, r.Outputs script choices.orders height batches outputs ∧
      r.assemble height outputs = .ok candidate := by
  have hfinish := (buildReturns_iff.1 h).symm
  simp only [Runtime.finishBuild, ok_iff] at hfinish
  obtain ⟨_, _, hkeys, outputs, houtputs, hassemble⟩ := hfinish
  refine ⟨outputs, ⟨(mapM_eq_ok houtputs).imp fun _ _ hout =>
    buildShard_eq_ok hout, fun shard hshard => ?_⟩, hassemble⟩
  by_contra hge
  exact hkeys ⟨shard, hshard, UInt32.not_lt.1 hge⟩

theorem Runtime.Outputs.shardIDs
    (h : r.Outputs script orders height batches outputs) :
    (outputs.map fun out => out.commitment.shardID) =
      (List.range r.shardCount.toNat).map UInt32.ofNat := by
  replace h := h.built
  generalize List.range r.shardCount.toNat = shards at h ⊢
  induction h with
  | nil => rfl
  | cons hout _ ih => rw [List.map_cons, List.map_cons, hout.shardID, ih]

theorem Runtime.Outputs.nodup
    (h : r.Outputs script orders height batches outputs) :
    (outputs.map fun out => out.commitment.shardID).Nodup := by
  rw [h.shardIDs]
  exact ofNat_nodup r.shardCount

/-- Every shard of the topology has its output. -/
theorem Runtime.Outputs.exists_output
    (h : r.Outputs script orders height batches outputs) {shard : UInt32}
    (hlt : shard < r.shardCount) :
    ∃ out ∈ outputs, ShardBuilt r shard (batchOf batches shard)
      (batchOutcome C (r.engine script height) (orders shard)
        (batchOf batches shard).transactions) out := by
  have hmem : shard.toNat ∈ List.range r.shardCount.toNat :=
    List.mem_range.2 (UInt32.lt_iff_toNat_lt.1 hlt)
  obtain ⟨out, hout, hbuilt⟩ := exists_of_forall₂ h.built.flip hmem
  rw [UInt32.ofNat_toNat] at hbuilt
  exact ⟨out, hout, hbuilt⟩

end Outputs

end ZephyrChain.Node
