/-
What the mempool of a service holds.

Submission refuses a transaction that shares any input with a pending
one. The batch check, for which the mempool is kept, refuses it only when
one of the two writes to the shared object. So the pending transactions
of a shard are always an independent batch (`Mempool.independent`), and
a transaction that only reads what others read is refused although it
would fit into it (`submit_conflict_iff`).

# Shards

The mempool keeps the claimed inputs of all shards in one map. Objects
carry their shard in their id and a transaction that executes has inputs
of its own shard only, so a claim never comes from another shard.
-/
import ZephyrChain.Execution.Proofs.Independence
import ZephyrChain.Execution.Proofs.Storable
import ZephyrChain.Node.Proofs.Service

namespace ZephyrChain.Node

open Lib
open Economics (Telemetry)
open Execution (AccessMode AccessModes Compatible transactionAccesses
  validateIndependentBatch execute sampleKey sampleTransaction idleRuntime)
open WorldState (shallowCrypto)

variable {C : Crypto} {T : Telemetry} {s s' : Service C T}
  {script : ZephyrChain.Runtime} {t : Transaction}

/-- The inputs of a transaction. -/
def inputIDs (t : Transaction) : List ObjectID :=
  t.inputs.map InputRef.objectID

/-- Nothing is pending, as in a new service or after a commit. -/
structure Service.Vacant (s : Service C T) : Prop where
  mempool : ∀ shard, s.mempool shard = []
  inputs : ∀ id, s.mempoolInputs id = none

/-- The states submissions lead to since nothing was pending. -/
inductive Admitted (script : ZephyrChain.Runtime) (s₀ : Service C T) :
    Service C T → Prop
  | start : s₀.Vacant → Admitted script s₀ s₀
  | submit {s s' : Service C T} (t : Transaction) :
      Admitted script s₀ s → s.submit script t = .ok s' →
      Admitted script s₀ s'

/-- The engine of the next block, on which submissions are tried. -/
def Runtime.nextEngine (script : ZephyrChain.Runtime) (r : Runtime C T) :
    Execution.Engine :=
  r.engine script (r.height + 1)

/-- A transaction that can be pending in a shard. -/
structure Pending (script : ZephyrChain.Runtime) (r : Runtime C T)
    (shard : UInt32) (p : Transaction) : Prop where
  shardID : p.shardID = shard
  inside : shard < r.shardCount
  root : p.stateRoot = (r.states shard).root C
  executes : ∃ result, execute C (r.nextEngine script) p = .ok result

/-- The invariant of the mempool: the claims are the inputs of the pending
transactions, and those of a shard are an independent batch. -/
structure Mempool (script : ZephyrChain.Runtime) (s : Service C T) :
    Prop where
  pending : ∀ shard, ∀ p ∈ s.mempool shard, Pending script s.runtime shard p
  claimed : ∀ id txID, s.mempoolInputs id = some txID →
    ∃ shard, ∃ p ∈ s.mempool shard, p.id C = txID ∧ id ∈ inputIDs p
  recorded : ∀ shard, ∀ p ∈ s.mempool shard, ∀ id ∈ inputIDs p,
    s.mempoolInputs id = some (p.id C)
  independent : ∀ shard,
    validateIndependentBatch C (s.mempool shard) = .ok ()

theorem mempool_of_vacant (h : s.Vacant) : Mempool script s := by
  refine ⟨fun shard p hp => ?_, fun id txID hid => ?_,
    fun shard p hp => ?_, fun shard => ?_⟩
  · rw [h.mempool shard] at hp
    cases hp
  · rw [h.inputs id] at hid
    cases hid
  · rw [h.mempool shard] at hp
    cases hp
  · rw [h.mempool shard]
    rfl

-- ==== one submission

variable {e : Execution.Engine} {r : Execution.Result}

/-- The inputs of a transaction that executes are in its shard. -/
theorem objectShard_of_execute (h : execute C e t = .ok r) {id : ObjectID}
    (hid : id ∈ inputIDs t) : objectShard id = t.shardID := by
  simp only [Execution.execute, Execution.checkEnvelope, ok_iff, forM_eq_ok,
    not_not] at h
  obtain ⟨⟨_, _, _, _, _, hinputs⟩, _⟩ := h
  obtain ⟨i, hi, rfl⟩ := List.mem_map.1 hid
  obtain ⟨shard, hshard, rfl⟩ := hinputs i hi
  simp only [Router.shardForObject, ok_iff] at hshard
  exact hshard.2.2

theorem network_of_execute (h : execute C e t = .ok r) :
    t.network = e.network := by
  simp only [Execution.execute, Execution.checkEnvelope,
    Transaction.verifyForNetwork, ok_iff, not_not] at h
  exact h.1.1.1

/-- The claims after a transaction has joined. -/
theorem enqueue_inputs (id : ObjectID) :
    (s.enqueue t).mempoolInputs id =
      if id ∈ inputIDs t then some (t.id C) else s.mempoolInputs id := by
  unfold Service.enqueue inputIDs
  simp only
  generalize s.mempoolInputs = claims
  induction t.inputs generalizing claims with
  | nil => rfl
  | cons i rest ih =>
    rw [List.foldl_cons, ih]
    by_cases hrest : id ∈ rest.map InputRef.objectID
    · simp [hrest]
    · by_cases hfirst : id = i.objectID
      · subst hfirst
        simp [hrest]
      · simp [hrest, hfirst]

theorem enqueue_mempool (shard : UInt32) :
    (s.enqueue t).mempool shard =
      if shard = t.shardID then s.mempool t.shardID ++ [t]
      else s.mempool shard := by
  show Function.update s.mempool t.shardID _ shard = _
  rw [Function.update_apply]

/-- What a successful submission is. -/
theorem submit_eq_ok (h : s.submit script t = .ok s') :
    Pending script s.runtime t.shardID t ∧
      (∀ id ∈ inputIDs t, ¬ s.Claimed (t.id C) id) ∧
      (s' = s ∨ (t.id C ∉ (s.mempool t.shardID).map (Transaction.id C) ∧
        s' = s.enqueue t)) := by
  simp only [Service.submit, ok_iff, not_or, not_not, UInt32.not_le] at h
  obtain ⟨⟨_, hinside⟩, hroot, r, hr, hfree, h⟩ := h
  refine ⟨⟨rfl, hinside, hroot, r, hr⟩, fun id hid hclaimed => ?_, ?_⟩
  · obtain ⟨i, hi, rfl⟩ := List.mem_map.1 hid
    exact hfree ⟨i, hi, hclaimed⟩
  · split at h
    case isTrue => exact .inl (Except.ok.inj h).symm
    case isFalse hnew => exact .inr ⟨hnew, (Except.ok.inj h).symm⟩

variable {p : Transaction}

/-- Two transactions with different ids that share no input. -/
theorem compatible_of_disjoint {r' : Execution.Result}
    (hp : execute C e p = .ok r) (ht : execute C e t = .ok r')
    (hid : p.id C ≠ t.id C) (h : ∀ id ∈ inputIDs p, id ∉ inputIDs t) :
    Compatible C p t := by
  obtain ⟨op, hop, _⟩ := Execution.execute_single hp
  obtain ⟨op', hop', _⟩ := Execution.execute_single ht
  refine ⟨hid, fun a a' id mode mode' ha ha' hmode hmode' => ?_⟩
  have hin := (Execution.mem_transactionAccesses_iff hop ha).1
    (Execution.mem_of_lookup hmode)
  have hin' := (Execution.mem_transactionAccesses_iff hop' ha').1
    (Execution.mem_of_lookup hmode')
  exact absurd hin' (h id hin)

/-- A pending transaction that shares an input claims it. -/
theorem Mempool.claims (hm : Mempool script s) {shard : UInt32}
    (hp : p ∈ s.mempool shard) (hne : p.id C ≠ t.id C) {id : ObjectID}
    (hid : id ∈ inputIDs p) : s.Claimed (t.id C) id :=
  ⟨p.id C, hm.recorded shard p hp id hid, hne⟩

/-- A submission keeps the invariant. -/
theorem Mempool.submit (hm : Mempool script s)
    (h : s.submit script t = .ok s') : Mempool script s' := by
  obtain ⟨hpending, hfree, rfl | ⟨hnew, rfl⟩⟩ := submit_eq_ok h
  · exact hm
  have hne : ∀ p ∈ s.mempool t.shardID, p.id C ≠ t.id C := fun p hp heq =>
    hnew (heq ▸ List.mem_map_of_mem hp)
  have hjoined : ∀ shard, ∀ p ∈ (s.enqueue t).mempool shard,
      p ∈ s.mempool shard ∨ (p = t ∧ shard = t.shardID) := by
    intro shard p hp
    rw [enqueue_mempool] at hp
    split at hp
    case isTrue heq =>
      subst heq
      rcases List.mem_append.1 hp with hold | hlast
      · exact .inl hold
      · exact .inr ⟨List.mem_singleton.1 hlast, rfl⟩
    case isFalse => exact .inl hp
  have hkept : ∀ shard, ∀ p ∈ s.mempool shard,
      p ∈ (s.enqueue t).mempool shard := by
    intro shard p hp
    rw [enqueue_mempool]
    split
    case isTrue heq => exact List.mem_append_left _ (heq ▸ hp)
    case isFalse => exact hp
  refine ⟨fun shard p hp => ?_, fun id txID hid => ?_,
    fun shard p hp id hid => ?_, fun shard => ?_⟩
  · rcases hjoined shard p hp with hold | ⟨rfl, rfl⟩
    · exact hm.pending shard p hold
    · exact hpending
  · rw [enqueue_inputs] at hid
    split at hid
    case isTrue hmine =>
      refine ⟨t.shardID, t, ?_, Option.some.inj hid, hmine⟩
      rw [enqueue_mempool, if_pos rfl]
      exact List.mem_append_right _ (List.mem_singleton_self t)
    case isFalse =>
      obtain ⟨shard, p, hp, hpid, hin⟩ := hm.claimed id txID hid
      exact ⟨shard, p, hkept shard p hp, hpid, hin⟩
  · rw [enqueue_inputs]
    rcases hjoined shard p hp with hold | ⟨rfl, _⟩
    · -- an input both name is claimed under one id
      split
      case isTrue hmine =>
        by_contra hdiffer
        refine hfree id hmine (hm.claims hold (fun heq => hdiffer ?_) hid)
        rw [heq]
      case isFalse => exact hm.recorded shard p hold id hid
    · rw [if_pos hid]
  · rw [enqueue_mempool]
    split
    case isFalse => exact hm.independent shard
    case isTrue =>
      obtain ⟨r, hr⟩ := hpending.executes
      obtain ⟨a, ha⟩ := Execution.transactionAccesses_total hr
      refine (Execution.validateIndependentBatch_concat
        (hm.independent t.shardID) (fun p hp => ?_) hnew ha).1
        fun p hp => ?_
      · rw [(hm.pending _ p hp).root, hpending.root]
      · obtain ⟨r', hr'⟩ := (hm.pending _ p hp).executes
        refine compatible_of_disjoint hr' hr (hne p hp) fun id hin hmine => ?_
        exact hfree id hmine (hm.claims hp (hne p hp) hin)

/-- The invariant holds in every state submissions lead to. -/
theorem Admitted.mempool {s₀ : Service C T}
    (h : Admitted script s₀ s) : Mempool script s := by
  induction h with
  | start hvacant => exact mempool_of_vacant hvacant
  | submit t _ hsubmit ih => exact ih.submit hsubmit

-- ==== the two checks

/-- A pending transaction of the shard shares an input. -/
def Overlaps (s : Service C T) (t : Transaction) : Prop :=
  ∃ p ∈ s.mempool t.shardID, ∃ id ∈ inputIDs p, id ∈ inputIDs t

/-- Two transactions share an input that one of them writes to. -/
def Contends (p t : Transaction) : Prop :=
  ∃ a a' id mode mode', transactionAccesses p = .ok a ∧
    transactionAccesses t = .ok a' ∧ a.lookup id = some mode ∧
    a'.lookup id = some mode' ∧ (mode = .write ∨ mode' = .write)

/-- Transactions with different ids contend or are compatible. -/
theorem not_compatible_iff (hid : p.id C ≠ t.id C) :
    ¬ Compatible C p t ↔ Contends p t := by
  constructor
  · intro hnot
    by_contra hfree
    refine hnot ⟨hid, fun a a' id mode mode' ha ha' hmode hmode' => ?_⟩
    cases mode with
    | write =>
      exact absurd ⟨a, a', id, _, mode', ha, ha', hmode, hmode', .inl rfl⟩
        hfree
    | read =>
      cases mode' with
      | write =>
        exact absurd ⟨a, a', id, _, _, ha, ha', hmode, hmode', .inr rfl⟩
          hfree
      | read => exact ⟨rfl, rfl⟩
  · rintro ⟨a, a', id, mode, mode', ha, ha', hmode, hmode', hwrite⟩ hcomp
    obtain ⟨rfl, rfl⟩ := hcomp.shared a a' id mode mode' ha ha' hmode hmode'
    rcases hwrite with hw | hw <;> cases hw

/-- Transactions that contend share an input. -/
theorem Contends.overlap {r' : Execution.Result}
    (hp : execute C e p = .ok r) (ht : execute C e t = .ok r')
    (h : Contends p t) : ∃ id ∈ inputIDs p, id ∈ inputIDs t := by
  obtain ⟨a, a', id, mode, mode', ha, ha', hmode, hmode', _⟩ := h
  obtain ⟨op, hop, _⟩ := Execution.execute_single hp
  obtain ⟨op', hop', _⟩ := Execution.execute_single ht
  exact ⟨id, (Execution.mem_transactionAccesses_iff hop ha).1
      (Execution.mem_of_lookup hmode),
    (Execution.mem_transactionAccesses_iff hop' ha').1
      (Execution.mem_of_lookup hmode')⟩

/-- When submission reports a conflict. -/
theorem Mempool.submit_conflict (hm : Mempool script s)
    {result : Execution.Result}
    (ht : execute C (s.runtime.nextEngine script) t = .ok result)
    (hnew : t.id C ∉ (s.mempool t.shardID).map (Transaction.id C)) :
    s.submit script t = .error .mempoolConflict ↔
      t.stateRoot = (s.runtime.states t.shardID).root C ∧ Overlaps s t := by
  have hnetwork : t.network = s.runtime.network := network_of_execute ht
  constructor
  · intro h
    by_cases hinside : s.runtime.shardCount ≤ t.shardID
    · rw [Service.submit, refuse_of _ (.inr hinside)] at h
      cases h
    rw [Service.submit, refuse_of_not _ (by simp [hnetwork, hinside]),
      ok_bind] at h
    by_cases hroot : t.stateRoot = (s.runtime.states t.shardID).root C
    · rw [refuse_of_not _ (not_not.2 hroot), ok_bind,
        show execute C (s.runtime.engine script (s.runtime.height + 1)) t = _
          from ht, ok_bind] at h
      by_cases hclaimed : ∃ i ∈ t.inputs, s.Claimed (t.id C) i.objectID
      · -- the claim is that of a pending transaction of the same shard
        obtain ⟨i, hi, txID, htxID, _⟩ := hclaimed
        obtain ⟨shard, p, hp, _, hin⟩ := hm.claimed _ txID htxID
        have hmine : i.objectID ∈ inputIDs t := List.mem_map_of_mem hi
        obtain ⟨_, hr⟩ := (hm.pending shard p hp).executes
        have hshard : shard = t.shardID := by
          rw [← (hm.pending shard p hp).shardID,
            ← objectShard_of_execute hr hin, objectShard_of_execute ht hmine]
        exact ⟨hroot, p, hshard ▸ hp, _, hin, hmine⟩
      · rw [refuse_of_not _ hclaimed, ok_bind, if_neg hnew] at h
        cases h
    · rw [refuse_of _ hroot] at h
      cases h
  · rintro ⟨hroot, p, hp, id, hin, hmine⟩
    have hinside : ¬ s.runtime.shardCount ≤ t.shardID :=
      UInt32.not_le.2 (hm.pending _ p hp).inside
    have hne : p.id C ≠ t.id C := fun heq =>
      hnew (heq ▸ List.mem_map_of_mem hp)
    obtain ⟨i, hi, rfl⟩ := List.mem_map.1 hmine
    rw [Service.submit, refuse_of_not _ (by simp [hnetwork, hinside]),
      ok_bind, refuse_of_not _ (not_not.2 hroot), ok_bind,
      show execute C (s.runtime.engine script (s.runtime.height + 1)) t = _
        from ht, ok_bind, refuse_of _ ⟨i, hi, hm.claims hp hne hin⟩]
    rfl

/-- When the batch check reports one. -/
theorem Mempool.batch_conflict (hm : Mempool script s)
    {result : Execution.Result}
    (ht : execute C (s.runtime.nextEngine script) t = .ok result)
    (hnew : t.id C ∉ (s.mempool t.shardID).map (Transaction.id C)) :
    validateIndependentBatch C (s.mempool t.shardID ++ [t]) =
        .error .batchConflict ↔
      t.stateRoot = (s.runtime.states t.shardID).root C ∧
      ∃ p ∈ s.mempool t.shardID, Contends p t := by
  have hne : ∀ p ∈ s.mempool t.shardID, p.id C ≠ t.id C := fun p hp heq =>
    hnew (heq ▸ List.mem_map_of_mem hp)
  have hroots := fun p hp => (hm.pending t.shardID p hp).root
  obtain ⟨a, ha⟩ := Execution.transactionAccesses_total ht
  by_cases hroot : t.stateRoot = (s.runtime.states t.shardID).root C
  · obtain ⟨hjoins, hconflicts⟩ := Execution.validateIndependentBatch_concat
      (hm.independent t.shardID)
      (fun p hp => (hroots p hp).trans hroot.symm) hnew ha
    by_cases hcontends : ∃ p ∈ s.mempool t.shardID, Contends p t
    · obtain ⟨p, hp, hpt⟩ := hcontends
      have hnot := (not_compatible_iff (hne p hp)).2 hpt
      exact iff_of_true (hconflicts ⟨p, hp, hnot⟩) ⟨hroot, p, hp, hpt⟩
    · have hall : ∀ p ∈ s.mempool t.shardID, Compatible C p t := by
        intro p hp
        by_contra hnot
        exact hcontends ⟨p, hp, (not_compatible_iff (hne p hp)).1 hnot⟩
      rw [hjoins hall]
      exact iff_of_false nofun fun h => hcontends h.2
  · refine iff_of_false (fun h => ?_) fun h => hroot h.1
    by_cases hsome : s.mempool t.shardID = []
    · -- alone in its batch
      rw [hsome] at h hnew
      rw [(Execution.validateIndependentBatch_concat rfl
        (List.forall_mem_nil _) hnew ha).1 (List.forall_mem_nil _)] at h
      cases h
    · rw [Execution.validateIndependentBatch_stale
        (hm.independent t.shardID) hsome hroots hroot] at h
      cases h

/-- In every state that submissions lead to, the two checks agree on a
transaction unless it shares inputs with pending ones and all of them are
only read; and the pending transactions of every shard are an independent
batch. -/
theorem submit_conflict_iff {s₀ : Service C T} (hs : Admitted script s₀ s) :
    (∀ (t : Transaction) (result : Execution.Result),
      execute C (s.runtime.nextEngine script) t = .ok result →
      t.id C ∉ (s.mempool t.shardID).map (Transaction.id C) →
      ((s.submit script t = .error .mempoolConflict ↔
          validateIndependentBatch C (s.mempool t.shardID ++ [t]) =
            .error .batchConflict) ↔
        (t.stateRoot = (s.runtime.states t.shardID).root C →
          Overlaps s t → ∃ p ∈ s.mempool t.shardID, Contends p t))) ∧
    ∀ shard, validateIndependentBatch C (s.mempool shard) = .ok () := by
  have hm := hs.mempool
  refine ⟨fun t result ht hnew => ?_, hm.independent⟩
  have hoverlap : (∃ p ∈ s.mempool t.shardID, Contends p t) →
      Overlaps s t := by
    rintro ⟨p, hp, hpt⟩
    obtain ⟨_, hr⟩ := (hm.pending _ p hp).executes
    exact ⟨p, hp, hpt.overlap hr ht⟩
  rw [hm.submit_conflict ht hnew, hm.batch_conflict ht hnew]
  constructor
  · intro hagree hroot hshared
    exact (hagree.1 ⟨hroot, hshared⟩).2
  · intro hcond
    exact ⟨fun ⟨hroot, hshared⟩ => ⟨hroot, hcond hroot hshared⟩,
      fun ⟨hroot, hcontends⟩ => ⟨hroot, hoverlap hcontends⟩⟩

-- ==== two readers of one token

/-- The definition of a token that can be transferred. -/
def sharedDefinition : Object where
  id := withShard (Vector.replicate 32 9) 0
  version := 1
  owner := Vector.replicate 32 9
  kind := .tokenDefinition
  data := Definition.encode
    ⟨Vector.replicate 32 9, [65], [65], 0, .fixed, 10, 10,
      Vector.replicate 32 9, false, true⟩

/-- Five units of that token. -/
def tokenCoin (n : UInt8) : Object where
  id := withShard (Vector.replicate 32 n) 0
  version := 1
  owner := accountIDFromPublicKey shallowCrypto sampleKey
  kind := .coin
  data := Coin.marshalBinary ⟨Vector.replicate 32 9, 5, 1⟩

/-- A transfer of that coin, which reads the definition. -/
def spendOf (n : UInt8) : Transaction :=
  { sampleTransaction shallowCrypto ⟨Op.transfer, []⟩ with
    inputs := [sharedDefinition, tokenCoin n].map fun o =>
      ⟨o.id, o.version, o.hash shallowCrypto⟩
    outputs := [⟨accountIDFromPublicKey shallowCrypto sampleKey, .coin,
      Coin.marshalBinary ⟨Vector.replicate 32 9, 5, 1⟩⟩]
    witnesses := [sharedDefinition, tokenCoin n].map fun o =>
      ⟨o, true, Bytes32.zero, []⟩ }

/-- One shard that holds the definition and two coins. -/
def tokenService : Service shallowCrypto noTelemetry :=
  { queuedService with
    runtime := { twoShardRuntime with
      shardCount := 1
      states := fun _ => .memory (WorldState.newMemory.apply shallowCrypto []
        [sharedDefinition, tokenCoin 1, tokenCoin 2]).1 }
    imports := fun _ => [] }

theorem tokenService_vacant : tokenService.Vacant :=
  ⟨fun _ => rfl, fun _ => rfl⟩

/-- Both transfers execute on the state of the service. -/
theorem spendOf_executes {n : UInt8} (hn : n = 1 ∨ n = 2) :
    ∃ r, execute shallowCrypto
      (tokenService.runtime.nextEngine idleRuntime) (spendOf n) = .ok r := by
  have hrun : ∀ n, n = 1 ∨ n = 2 → (do
      let r ← execute shallowCrypto
        (tokenService.runtime.nextEngine idleRuntime) (spendOf n)
      return r.consumed : Except Error (List ObjectID)) =
        .ok [(tokenCoin n).id] := by
    rintro n (rfl | rfl) <;> decide +kernel
  have h := hrun n hn
  simp only [ok_iff] at h
  obtain ⟨r, hr, _⟩ := h
  exact ⟨r, hr⟩

theorem tokenService_root : (tokenService.runtime.states 0).root
    shallowCrypto = (spendOf 1).stateRoot :=
  (WorldState.Reachable.new.apply [] _).mirrors.root_shallowCrypto

/-- A submission that passes all checks. -/
theorem submit_of_pending (h : Pending script s.runtime t.shardID t)
    (hfree : ∀ id ∈ inputIDs t, ¬ s.Claimed (t.id C) id)
    (hnew : t.id C ∉ (s.mempool t.shardID).map (Transaction.id C)) :
    s.submit script t = .ok (s.enqueue t) := by
  obtain ⟨r, hr⟩ := h.executes
  have hnetwork : t.network = s.runtime.network := network_of_execute hr
  have hclaimed : ¬ ∃ i ∈ t.inputs, s.Claimed (t.id C) i.objectID :=
    fun ⟨_, hi, hclaim⟩ => hfree _ (List.mem_map_of_mem hi) hclaim
  rw [Service.submit, refuse_of_not _ (by simp [hnetwork, h.inside]),
    ok_bind, refuse_of_not _ (not_not.2 h.root), ok_bind,
    show execute C (s.runtime.engine script (s.runtime.height + 1)) t = _
      from hr, ok_bind, refuse_of_not _ hclaimed, ok_bind, if_neg hnew]
  rfl

/-- The service with the first transfer pending. -/
theorem firstSpend_admitted : Admitted idleRuntime tokenService
    (tokenService.enqueue (spendOf 1)) := by
  refine .submit (spendOf 1) (.start tokenService_vacant)
    (submit_of_pending ⟨rfl, by decide, tokenService_root.symm,
      spendOf_executes (.inl rfl)⟩ ?_ List.not_mem_nil)
  rintro id _ ⟨txID, htxID, _⟩
  cases htxID

/-- The second transfer is another one, which shares the definition with
the first, and neither writes to it. -/
theorem secondSpend_shares :
    (spendOf 2).id shallowCrypto ∉
        ((tokenService.enqueue (spendOf 1)).mempool 0).map
          (Transaction.id shallowCrypto) ∧
      Overlaps (tokenService.enqueue (spendOf 1)) (spendOf 2) ∧
      validateIndependentBatch shallowCrypto
        ((tokenService.enqueue (spendOf 1)).mempool 0 ++ [spendOf 2]) =
          .ok () := by
  refine ⟨by decide +kernel, ⟨spendOf 1, ?_, sharedDefinition.id, ?_, ?_⟩,
    by decide +kernel⟩
  · exact List.mem_singleton_self _
  · exact List.mem_cons_self
  · exact List.mem_cons_self

/-- The checks disagree on the second of two transfers of one token. -/
theorem submit_conflict_iff_secondSpend :
    let s := tokenService.enqueue (spendOf 1)
    Admitted idleRuntime tokenService s ∧
      ¬ (s.submit idleRuntime (spendOf 2) = .error .mempoolConflict ↔
        validateIndependentBatch shallowCrypto (s.mempool 0 ++ [spendOf 2]) =
          .error .batchConflict) := by
  intro s
  obtain ⟨hnew, hshares, hbatch⟩ := secondSpend_shares
  obtain ⟨r, hr⟩ := spendOf_executes (.inr rfl)
  refine ⟨firstSpend_admitted, fun hagree => ?_⟩
  have hcond := ((submit_conflict_iff firstSpend_admitted).1 (spendOf 2) r hr
    hnew).1 hagree tokenService_root.symm hshares
  have hm := firstSpend_admitted.mempool
  have hconflict := (hm.batch_conflict hr hnew).2
    ⟨tokenService_root.symm, hcond⟩
  cases hbatch.symm.trans hconflict

/-- With the transfer of one coin pending, that of another coin of the
same token is refused, although the batch of both is independent. -/
theorem secondSpend_refused :
    ∃ s : Service shallowCrypto noTelemetry,
      Admitted idleRuntime tokenService s ∧
      (∃ r, execute shallowCrypto (s.runtime.nextEngine idleRuntime)
        (spendOf 2) = .ok r) ∧
      (spendOf 2).id shallowCrypto ∉
        (s.mempool 0).map (Transaction.id shallowCrypto) ∧
      s.submit idleRuntime (spendOf 2) = .error .mempoolConflict ∧
      validateIndependentBatch shallowCrypto (s.mempool 0 ++ [spendOf 2]) =
        .ok () := by
  obtain ⟨hnew, hshares, hbatch⟩ := secondSpend_shares
  obtain ⟨r, hr⟩ := spendOf_executes (.inr rfl)
  refine ⟨_, firstSpend_admitted, ⟨r, hr⟩, hnew, ?_, hbatch⟩
  exact (firstSpend_admitted.mempool.submit_conflict hr hnew).2
    ⟨tokenService_root.symm, hshares⟩

end ZephyrChain.Node
