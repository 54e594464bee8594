/-
What a commit does to the runtime, stage by stage.

# All or nothing

Whatever fails in front of the first write leaves the runtime as it was.
A stage that fails puts the runtime into recovery and says so, and a
runtime in recovery neither builds nor commits again.

# Memory only

Where nothing is written to disk no stage can fail: every changed shard
applies the delta that was verified, and the commit goes through.
-/
import ZephyrChain.Node.Commit
import ZephyrChain.Execution.Proofs.Execute

namespace ZephyrChain.Node

open Lib
open WorldState (AppendFault newMemory truncatingCrypto)
open Execution (sampleKey sampleSignature)
open Consensus (ValidatorSet Certificate headerConsensusHash)
open Economics (Telemetry)

variable {C : Crypto} {T : Telemetry}

-- ==== the workers

theorem preflightShardSchedule_perm (shardCount : UInt32)
    (deltas : ShardMap ShardDelta) :
    (preflightShardSchedule shardCount deltas).Perm
      (List.range shardCount.toNat) :=
  List.filter_append_perm _ _

theorem preflightWorkers_pos (procs configured : Int)
    (shardCount : UInt32) :
    0 < preflightWorkers procs configured shardCount := by
  have hclamp : ∀ n : Int, 0 < if n < 1 then 1 else n.toNat := by
    intro n
    split
    case isTrue => exact Nat.one_pos
    case isFalse => omega
  exact hclamp _

/-- What the loop over the shards returns. -/
def Runtime.verified (r : Runtime C T) (candidate : Candidate) :
    Except Error (List Hash) :=
  (List.range r.shardCount.toNat).mapM fun shard =>
    r.verifyShard candidate (UInt32.ofNat shard)

variable {r : Runtime C T} {candidate : Candidate}

/-- However the workers interleave, a commit returns the same. -/
theorem commitReturns_iff {procs : Int} {faults : CommitFaults}
    {certificate : Certificate} {validators : ValidatorSet}
    {out : Runtime C T × Except (List Error) GlobalHeader} :
    CommitReturns r procs faults candidate certificate validators out ↔
      out = r.commit faults candidate certificate validators
        (r.verified candidate) := by
  unfold CommitReturns
  simp only [loopReturns_iff (preflightShardSchedule_perm _ _)
    (preflightWorkers_pos _ _ _)]
  exact exists_eq_left

-- ==== halts

/-- An outcome without errors, or a runtime in recovery. -/
def Halted (out : Runtime C T × List Error) : Prop :=
  out.2 = [] ∨ .runtimeRecoveryRequired ∈ out.2 ∧
    out.1.recoveryRequired = true

/-- A stage that fails puts the runtime into recovery. -/
def Stage.Halts (s : Stage C T) : Prop := ∀ r, Halted (s r)

theorem halted_halt (r : Runtime C T) (errors : List Error) :
    Halted (halt r errors) :=
  .inr ⟨List.mem_cons_self, rfl⟩

theorem Stage.andThen_eq (first second : Stage C T) (r : Runtime C T) :
    first.andThen second r =
      if (first r).2 = [] then second (first r).1 else first r := by
  unfold andThen
  rcases first r with ⟨r', errors⟩
  cases errors with
  | nil => rfl
  | cons e es => rw [if_neg (List.cons_ne_nil e es)]

theorem Stage.Halts.andThen {first second : Stage C T}
    (h : first.Halts) (h' : second.Halts) :
    (first.andThen second).Halts := by
  intro r
  rw [Stage.andThen_eq]
  split
  case isTrue => exact h' _
  case isFalse => exact h _

theorem writeIntent_halts (fault : ReplaceFault)
    (intent : Option GlobalCommitIntent) :
    (writeIntent (C := C) (T := T) fault intent).Halts := by
  intro r
  unfold writeIntent
  split
  case h_2 => exact .inl rfl
  case h_1 =>
    split
    case h_1 => exact .inl rfl
    case h_2 => exact halted_halt _ _

theorem appendHistory_halts (fault : WriteFault)
    (intent : Option GlobalCommitIntent) (validators : ValidatorSet) :
    (appendHistory (C := C) (T := T) fault intent validators).Halts := by
  intro r
  unfold appendHistory
  split
  case h_1 => exact .inl rfl
  case h_2 =>
    split
    case h_1 => exact halted_halt _ _
    case h_2 =>
      split
      case h_1 => exact .inl rfl
      case h_2 => exact halted_halt _ _

theorem applyShard_halts (fault : AppendFault) (candidate : Candidate)
    (shard : UInt32) :
    (applyShard (C := C) (T := T) fault candidate shard).Halts := by
  intro r
  simp only [applyShard]
  split
  case h_1 => exact halted_halt _ _
  case h_2 =>
    split
    case isTrue => exact .inl rfl
    case isFalse => exact halted_halt _ _

theorem applyShards_halts (faults : UInt32 → AppendFault)
    (candidate : Candidate) (shards : List UInt32) :
    (applyShards (C := C) (T := T) faults candidate shards).Halts := by
  induction shards with
  | nil => exact fun r => .inl rfl
  | cons shard shards ih =>
    exact (applyShard_halts (faults shard) candidate shard).andThen ih

theorem advanceAnchor_halts (fault : WriteFault) (height : UInt64)
    (hash : Hash) :
    (advanceAnchor (C := C) (T := T) fault height hash).Halts := by
  intro r
  unfold advanceAnchor
  split
  case h_1 => exact .inl rfl
  case h_2 =>
    split
    case h_1 => exact .inl rfl
    case h_2 => exact halted_halt _ _

theorem commitStages_halts (faults : CommitFaults) (candidate : Candidate)
    (validators : ValidatorSet) (shards : List UInt32)
    (p : Prepared C T) :
    (commitStages faults candidate validators shards p).Halts :=
  (writeIntent_halts _ _).andThen <|
    (appendHistory_halts _ _ _).andThen <|
      (applyShards_halts _ _ _).andThen <|
        (writeIntent_halts _ _).andThen (advanceAnchor_halts _ _ _)

-- ==== all or nothing

section AllOrNothing

variable {r r' : Runtime C T} {faults : CommitFaults}
  {candidate : Candidate} {certificate : Certificate}
  {validators : ValidatorSet} {verified : Except Error (List Hash)}
  {errors : List Error}

/-- A commit that fails has changed nothing, or it has begun to write and
leaves the runtime in recovery. -/
theorem commit_eq_error
    (h : r.commit faults candidate certificate validators verified =
      (r', .error errors)) :
    (∃ e, r.prepare candidate certificate validators verified = .error e ∧
      r' = r ∧ errors = [e]) ∨
    (∃ p, r.prepare candidate certificate validators verified = .ok p ∧
      .runtimeRecoveryRequired ∈ errors ∧ r'.recoveryRequired = true) := by
  unfold Runtime.commit at h
  split at h
  case h_1 e hprepare =>
    cases h
    exact .inl ⟨e, hprepare, rfl, rfl⟩
  case h_2 p hprepare =>
    have hhalts := commitStages_halts faults candidate validators
      (r.changedShards candidate) p r
    split at h
    case h_1 => cases h
    case h_2 s es hne hstages =>
      cases h
      rw [hstages] at hhalts
      rcases hhalts with hnil | hhalts
      · exact absurd hnil hne
      · exact .inr ⟨p, hprepare, hhalts⟩

end AllOrNothing

-- ==== the shards

/-- The shards of a topology are distinct. -/
theorem ofNat_nodup (n : UInt32) :
    ((List.range n.toNat).map UInt32.ofNat).Nodup := by
  refine List.Nodup.map_on (fun a ha b hb heq => ?_) List.nodup_range
  have hlt : ∀ {k : Nat}, k ∈ List.range n.toNat → k < 2 ^ 32 := fun hk =>
    (List.mem_range.1 hk).trans n.toNat_lt
  have hnat := congrArg UInt32.toNat heq
  rwa [UInt32.toNat_ofNat_of_lt' (hlt ha),
    UInt32.toNat_ofNat_of_lt' (hlt hb)] at hnat

theorem changedShards_nodup (r : Runtime C T) (candidate : Candidate) :
    (r.changedShards candidate).Nodup :=
  (ofNat_nodup r.shardCount).filter _

-- ==== memory only

/-- A runtime that keeps everything in memory. -/
structure Runtime.Volatile (r : Runtime C T) : Prop where
  journal : r.journal = none
  history : r.history = none
  anchor : r.anchorStore = none
  states : ∀ shard, ∃ m, r.states shard = .memory m ∧
    WorldState.Mirrors C m

/-- What a store in memory answers to a delta it has simulated. -/
theorem apply_of_simulate {m : WorldState.Memory}
    (hm : WorldState.Mirrors C m) (fault : AppendFault)
    {consumed : List ObjectID} {created : List Object} {root : Hash}
    (h : (Backend.memory m).simulate C consumed created = .ok root) :
    ∃ store, (Backend.memory m).apply C fault consumed created =
      (store, root, none) := by
  have heq := WorldState.simulate_eq_apply hm.coherent consumed created
  unfold Backend.simulate at h
  split at h
  case h_1 root' hout =>
    cases h
    refine ⟨.memory (m.apply C consumed created).1, ?_⟩
    show (Backend.memory _, (m.apply C consumed created).2) = _
    rw [← heq]
    exact congrArg _ hout
  case h_2 => cases h

theorem Stage.andThen_of_nil {first second : Stage C T} {s : Runtime C T}
    (h : first r = (s, [])) : first.andThen second r = second s := by
  rw [Stage.andThen_eq, h, if_pos rfl]

/-- One shard that was verified applies its delta. -/
theorem applyShard_of_verified {s : Runtime C T} (fault : AppendFault)
    {shard : UInt32} {leaf : Hash} (hr : r.Volatile)
    (hstate : s.states shard = r.states shard)
    (hdelta : shard ∈ candidate.deltas)
    (h : r.verifyShard candidate shard = .ok leaf) :
    ∃ store, applyShard fault candidate shard s =
      ({ s with states := Function.update s.states shard store }, []) := by
  obtain ⟨m, hm, hmirrors⟩ := hr.states shard
  obtain ⟨delta, hlookup⟩ := Finmap.mem_iff.1 hdelta
  simp only [Runtime.verifyShard, hlookup, ok_iff, not_not] at h
  obtain ⟨commitment, hcommitment, root, hsimulate, hroot, _⟩ := h
  rw [hm] at hsimulate
  obtain ⟨store, hstore⟩ := apply_of_simulate hmirrors fault hsimulate
  refine ⟨store, ?_⟩
  unfold applyShard
  simp only [hlookup, Option.getD_some, hstate, hm, hstore, hcommitment,
    Option.map_some, hroot, if_true]

/-- So do the shards of a list, one after the other. -/
theorem applyShards_of_verified {s : Runtime C T}
    {faults : UInt32 → AppendFault} {shards : List UInt32}
    (hr : r.Volatile) (hnodup : shards.Nodup)
    (hstates : ∀ shard ∈ shards, s.states shard = r.states shard)
    (h : ∀ shard ∈ shards, shard ∈ candidate.deltas ∧
      ∃ leaf, r.verifyShard candidate shard = .ok leaf) :
    ∃ states, applyShards faults candidate shards s =
      ({ s with states := states }, []) := by
  induction shards generalizing s with
  | nil => exact ⟨s.states, rfl⟩
  | cons shard rest ih =>
    obtain ⟨hnew, hrest⟩ := List.nodup_cons.1 hnodup
    obtain ⟨hfirst, hothers⟩ := List.forall_mem_cons.1 h
    obtain ⟨hstate, hstates⟩ := List.forall_mem_cons.1 hstates
    obtain ⟨hdelta, leaf, hleaf⟩ := hfirst
    obtain ⟨store, happly⟩ :=
      applyShard_of_verified (faults shard) hr hstate hdelta hleaf
    have hkept : ∀ shard' ∈ rest,
        Function.update s.states shard store shard' =
          r.states shard' := by
      intro shard' hmem
      have hne : shard' ≠ shard := fun heq => hnew (heq ▸ hmem)
      rw [Function.update_of_ne hne]
      exact hstates shard' hmem
    obtain ⟨states, hloop⟩ := ih
      (s := { s with states := Function.update s.states shard store })
      hrest hkept hothers
    refine ⟨states, ?_⟩
    exact (Stage.andThen_of_nil happly).trans hloop

/-- In memory, a commit that was prepared goes through. -/
theorem commit_of_prepare {faults : CommitFaults}
    {certificate : Certificate} {validators : ValidatorSet}
    {p : Prepared C T} (hr : r.Volatile)
    (h : r.prepare candidate certificate validators (r.verified candidate) =
      .ok p) :
    ∃ r', r.commit faults candidate certificate validators
      (r.verified candidate) = (r', .ok p.finalized) := by
  have hprepare := h
  simp only [Runtime.prepare, Runtime.preflight, ok_iff] at hprepare
  obtain ⟨_, ⟨_, leaves, hverified, _⟩, _⟩ := hprepare
  have hshards : ∀ shard ∈ r.changedShards candidate,
      shard ∈ candidate.deltas ∧
        ∃ leaf, r.verifyShard candidate shard = .ok leaf := by
    intro shard hshard
    obtain ⟨hmem, hdelta⟩ := List.mem_filter.1 hshard
    obtain ⟨k, hk, rfl⟩ := List.mem_map.1 hmem
    refine ⟨of_decide_eq_true hdelta, ?_⟩
    obtain ⟨leaf, _, hleaf⟩ := exists_of_forall₂ (mapM_eq_ok hverified).flip hk
    exact ⟨leaf, hleaf⟩
  obtain ⟨states, happlied⟩ := applyShards_of_verified (s := r) hr
    (changedShards_nodup r candidate) (fun _ _ => rfl) hshards
  have hstages : commitStages faults candidate validators
      (r.changedShards candidate) p r = ({ r with states := states }, []) := by
    have hwrite : ∀ fault intent, ∀ s : Runtime C T, s.journal = none →
        writeIntent fault intent s = (s, []) := by
      intro fault intent s hnone
      unfold writeIntent
      rw [hnone]
    have hhistory : appendHistory faults.history p.intent validators r =
        (r, []) := by
      unfold appendHistory
      rw [hr.history]
    have hanchor : advanceAnchor faults.anchor p.finalized.height
        p.postParent { r with states := states } =
          ({ r with states := states }, []) := by
      unfold advanceAnchor
      rw [show ({ r with states := states } : Runtime C T).anchorStore =
        none from hr.anchor]
    unfold commitStages
    rw [Stage.andThen_of_nil (hwrite _ _ r hr.journal),
      Stage.andThen_of_nil hhistory, Stage.andThen_of_nil happlied,
      Stage.andThen_of_nil (hwrite _ _ { r with states := states }
        hr.journal), hanchor]
  refine ⟨({ r with states := states } : Runtime C T).install p.economic
    p.finalized.height p.postParent, ?_⟩
  unfold Runtime.commit
  rw [h]
  simp only [hstages]

/-- Economics that is switched off. -/
def noTelemetry : Telemetry where
  Collector := Empty
  Engine := Empty
  Metrics := Empty
  Evaluation := Empty
  Registry := Unit
  Config := Unit
  lastHeight := Empty.elim
  previewFinalizedBlock c _ _ := c.elim
  finalizeEpoch := Empty.elim
  burnedFees := Empty.elim
  advanceEpoch c _ := c.elim
  previousState := Empty.elim
  evaluateEpoch e _ _ := e.elim
  accept e _ _ := e.elim
  collectorCheckpoint := Empty.elim
  restoreCollector _ _ := .error .economicCheckpoint
  engineCheckpoint := Empty.elim
  restoreEngine _ _ _ := .error .economicCheckpoint
  pendingCheckpoint e _ := e.elim
  restorePending _ e := e.elim

/-- Nothing goes wrong in the operating system. -/
def noFaults : CommitFaults := ⟨.none, .none, fun _ => .none, .none, .none⟩

/-- The network of the samples. -/
def sampleNetwork : NetworkID := Vector.replicate 32 1

/-- One validator that holds all the power. -/
def sampleValidators : ValidatorSet :=
  ⟨sampleNetwork, [⟨validatorIDFromPublicKey truncatingCrypto sampleKey,
    sampleKey, 1⟩]⟩

/-- The certificate of that validator for a header. -/
def sampleCertificate (header : GlobalHeader) : Certificate :=
  let hash := headerConsensusHash truncatingCrypto header
  ⟨sampleNetwork, header.height, 0, hash,
    [⟨sampleNetwork, header.height, 0, hash,
      validatorIDFromPublicKey truncatingCrypto sampleKey, sampleKey,
      sampleSignature⟩]⟩

/-- A runtime at genesis with one empty shard. -/
def sampleRuntime : Runtime truncatingCrypto noTelemetry where
  network := sampleNetwork
  nativeToken := Vector.replicate 32 2
  validatorRoot := Merkle.root truncatingCrypto
    (sampleValidators.sorted.map (ValidatorSet.leaf truncatingCrypto))
  shardCount := 1
  states := fun _ => .memory newMemory
  workers := 1
  height := 0
  parentHash := Bytes32.zero
  economicCollector := none
  economicEngine := none
  economicEpochLength := 0
  economicBalances := ⟨0, 0, 0, 0⟩
  pendingEconomic := none
  journal := none
  history := none
  anchorStore := none
  recoveryRequired := false

/-- The candidate of a block with nothing in it. -/
def emptyCandidate (r : Runtime C T) : Except Error Candidate :=
  r.finishBuild (r.height + 1) ∅
    ((List.range r.shardCount.toNat).mapM fun shard =>
      r.buildShard (r.height + 1) (UInt32.ofNat shard) .empty (.ok []))

end ZephyrChain.Node
