/-
The life of a compute job.

# What holds

`Lifecycle` is what every record of a run keeps: providers assigned
once, prices within budget and escrow, results of assigned providers
only, a status that says how far the job has come, and the terms it was
created with. Each transition has one lemma (`Lifecycle.assign`,
`.submit`, …), the run follows by induction.

A settled job stays settled, and an expired one stays expired as long as
it is not resolved by majority (`lifecycle_unless_resolved`).

# Where it fails

`ResolveReplicatedMajority` is the one transition that does not look at
the status. It settles a job that has expired, after the escrow and the
collateral have been handed back (`expired_job_settles`).
-/
import ZephyrChain.Compute.OnChain

namespace ZephyrChain

open Lib

-- ==== vocabulary

/-- What a job has promised its providers. -/
def OnChainJob.promised (record : OnChainJob) : Nat :=
  (record.assignments.map fun a => a.price.toNat).sum

/-- A job that is over. -/
def JobStatus.Final (s : JobStatus) : Prop := s = .settled ∨ s = .expired

/-- The status of a job that is not over says what it waits for. -/
structure OnChainJob.Progress (record : OnChainJob) : Prop where
  pending : record.status = .pending ↔
    record.assignments.length < record.job.requiredAssignments
  assigned : record.status = .assigned ↔
    record.assignments.length = record.job.requiredAssignments ∧
      record.results.length < record.job.requiredAssignments
  awaiting : record.status = .awaitingVerification ↔
    record.results.length = record.job.requiredAssignments

/-- What holds of every record of a job created as `origin`. -/
structure Lifecycle (origin record : OnChainJob) : Prop where
  providers : (record.assignments.map Assignment.provider).Nodup
  budget : record.promised ≤ record.job.maxPrice.toNat
  escrow : record.promised ≤ record.escrow.toNat
  count : record.assignments.length ≤ record.job.requiredAssignments
  reporters : (record.results.map ComputeResult.provider).Nodup
  reported : ∀ r ∈ record.results, ∃ a ∈ record.assignments,
    a.provider = r.provider
  progress : record.status.Final ∨ record.Progress
  sameID : record.id = origin.id
  sameJob : record.job = origin.job
  sameEscrow : record.escrow = origin.escrow

theorem Job.requiredAssignments_pos {j : Job} (h : j.validate = .ok ()) :
    0 < j.requiredAssignments := by
  simp only [Job.validate, ok_iff] at h
  obtain ⟨-, hreplicas, -⟩ := h
  unfold Job.requiredAssignments
  split
  case isTrue hmode =>
    have hle : ¬ j.replicas < 2 := fun hlt => hreplicas ⟨hmode, hlt⟩
    rw [UInt16.lt_iff_toNat_lt] at hle
    have htwo : (2 : UInt16).toNat = 2 := rfl
    omega
  case isFalse => exact Nat.one_pos

variable {record : OnChainJob}

theorem lifecycle_newJobObject {C : Crypto} {txID : Hash} {shard : UInt32}
    {job : Job} {escrow : UInt64} {o : Object}
    (h : newJobObject C txID shard job escrow = .ok (o, record)) :
    Lifecycle record record := by
  simp only [newJobObject, ok_iff, Prod.mk.injEq] at h
  obtain ⟨raw, hraw, -, rfl⟩ := h
  simp only [OnChainJob.marshalBinary, OnChainJob.validate, ok_iff] at hraw
  obtain ⟨⟨-, hjob, -⟩, -⟩ := hraw
  have hpos := Job.requiredAssignments_pos hjob
  refine ⟨List.nodup_nil, Nat.zero_le _, Nat.zero_le _, Nat.zero_le _,
    List.nodup_nil, fun r hr => ?_, .inr ⟨?_, ?_, ?_⟩, rfl, rfl, rfl⟩
  · cases hr
  · exact ⟨fun _ => hpos, fun _ => rfl⟩
  · exact ⟨fun h => (JobStatus.noConfusion h),
      fun h => absurd h.1 (Nat.ne_of_lt hpos)⟩
  · exact ⟨fun h => (JobStatus.noConfusion h),
      fun h => absurd h (Nat.ne_of_lt hpos)⟩

-- ==== checked sums

variable {e : Error} {values : List UInt64}

theorem foldlM_checkedAdd :
    ∀ {start total : UInt64},
    values.foldlM (fun acc v => do
      refuse (Overflows acc v) e; return acc + v) start = .ok total →
    total.toNat = start.toNat + (values.map UInt64.toNat).sum := by
  induction values with
  | nil =>
    intro start total h
    simp only [List.foldlM_nil, pure_eq_ok] at h
    rw [h]
    simp
  | cons v values ih =>
    intro start total h
    simp only [List.foldlM_cons, ok_iff] at h
    obtain ⟨next, ⟨hfits, rfl⟩, h⟩ := h
    rw [ih h, toNat_add_of_fits hfits, List.map_cons, List.sum_cons]
    omega

/-- A checked sum is the exact sum. -/
theorem sumChecked_eq_ok {total : UInt64}
    (h : sumChecked e values = .ok total) :
    total.toNat = (values.map UInt64.toNat).sum := by
  have hsum := foldlM_checkedAdd h
  rwa [UInt64.toNat_zero, Nat.zero_add] at hsum

/-- And it is there whenever the exact sum fits. -/
theorem sumChecked_of_fits (h : (values.map UInt64.toNat).sum < 2 ^ 64) :
    ∃ total, sumChecked e values = .ok total := by
  suffices hgen : ∀ (vs : List UInt64) (start : UInt64),
      start.toNat + (vs.map UInt64.toNat).sum < 2 ^ 64 →
      ∃ total, vs.foldlM (fun acc v => do
        refuse (Overflows acc v) e; return acc + v) start = .ok total from
    hgen values 0 (by rwa [UInt64.toNat_zero, Nat.zero_add])
  intro vs
  induction vs with
  | nil => exact fun start _ => ⟨start, rfl⟩
  | cons v vs ih =>
    intro start hfits
    rw [List.map_cons, List.sum_cons] at hfits
    have hno : ¬ Overflows start v := not_overflows_iff.2 (by omega)
    obtain ⟨total, htotal⟩ := ih (start + v)
      (by rw [toNat_add_of_fits hno]; omega)
    refine ⟨total, ?_⟩
    rw [List.foldlM_cons, refuse_of_not _ hno]
    exact htotal

-- ==== transitions

namespace Lifecycle

variable {origin record next : OnChainJob}

/-- What an assignment checked, and the record it leaves. -/
theorem assign_eq_ok {offerID : Hash} {offer : Offer} {height : UInt64}
    {out : Assignment × UInt64}
    (h : assignOnChain record offerID offer height = .ok (next, out)) :
    ¬ record.status.Final ∧
    (∀ a ∈ record.assignments, a.provider ≠ offer.provider) ∧
    record.assignments.length < record.job.requiredAssignments ∧
    record.promised + offer.pricePerUnit.toNat ≤
      record.job.maxPrice.toNat ∧
    record.promised + offer.pricePerUnit.toNat ≤ record.escrow.toNat ∧
    next = { record with
      assignments := record.assignments ++
        [⟨offerID, offer.provider, offer.pricePerUnit⟩]
      status := if record.assignments.length + 1 =
        record.job.requiredAssignments then .assigned
        else record.status } := by
  simp only [assignOnChain, ok_iff, Prod.mk.injEq, List.length_append,
    List.length_singleton, not_or, not_exists, not_and, not_le] at h
  obtain ⟨⟨hsettled, hexpired, -⟩, -, hnew, hcount, committed, hsum,
    ⟨-, hfits, hbudget, hescrow⟩, rfl, -⟩ := h
  have htotal : committed.toNat = record.promised := by
    rw [sumChecked_eq_ok hsum, OnChainJob.promised, List.map_map]
    rfl
  rw [UInt64.lt_iff_toNat_lt, toNat_add_of_fits hfits, htotal] at hbudget
  rw [UInt64.lt_iff_toNat_lt, toNat_add_of_fits hfits, htotal] at hescrow
  refine ⟨?_, hnew, hcount, Nat.le_of_not_lt hbudget,
    Nat.le_of_not_lt hescrow, rfl⟩
  rintro (hs | hs)
  · exact hsettled hs
  · exact hexpired hs

theorem assign (hl : Lifecycle origin record) {offerID : Hash}
    {offer : Offer} {height : UInt64} {out : Assignment × UInt64}
    (h : assignOnChain record offerID offer height = .ok (next, out)) :
    Lifecycle origin next := by
  obtain ⟨hlive, hnew, hcount, hbudget, hescrow, rfl⟩ := assign_eq_ok h
  have hprogress := hl.progress.resolve_left hlive
  have hpending := hprogress.pending.2 hcount
  -- no provider has reported before all of them are assigned
  have hnone : record.results.length < record.job.requiredAssignments := by
    rcases Nat.lt_or_ge record.results.length
      record.job.requiredAssignments with hlt | hge
    · exact hlt
    · have hsub : (record.results.map ComputeResult.provider).length ≤
          (record.assignments.map Assignment.provider).length := by
        refine (List.subperm_of_subset hl.reporters ?_).length_le
        intro p hp
        obtain ⟨r, hr, rfl⟩ := List.mem_map.1 hp
        obtain ⟨a, ha, heq⟩ := hl.reported r hr
        exact List.mem_map.2 ⟨a, ha, heq⟩
      rw [List.length_map, List.length_map] at hsub
      omega
  have hpromised : ∀ (s : JobStatus) (a : Assignment),
      ({ record with
        assignments := record.assignments ++ [a]
        status := s } : OnChainJob).promised =
        record.promised + a.price.toNat := by
    intro s a
    simp [OnChainJob.promised]
  refine ⟨?_, ?_, ?_, ?_, hl.reporters, ?_, .inr ?_, hl.sameID, hl.sameJob,
    hl.sameEscrow⟩
  · rw [List.map_append, List.nodup_append]
    refine ⟨hl.providers, List.nodup_singleton _, ?_⟩
    rintro p hp q hq rfl
    obtain ⟨a, ha, rfl⟩ := List.mem_map.1 hp
    exact hnew a ha (List.mem_singleton.1 hq)
  · rw [hpromised]
    exact hbudget
  · rw [hpromised]
    exact hescrow
  · rw [List.length_append, List.length_singleton]
    exact hcount
  · intro r hr
    obtain ⟨a, ha, heq⟩ := hl.reported r hr
    exact ⟨a, List.mem_append_left _ ha, heq⟩
  · show OnChainJob.Progress _
    by_cases hlast : record.assignments.length + 1 =
        record.job.requiredAssignments
    · simp only [hlast, if_true]
      refine ⟨?_, ?_, ?_⟩
      · simp [hlast]
      · simp [hlast, hnone]
      · simp [Nat.ne_of_lt hnone]
    · simp only [hlast, if_false, hpending]
      refine ⟨?_, ?_, ?_⟩
      · simp only [List.length_append, List.length_singleton, true_iff]
        omega
      · simp [hlast]
      · simp [Nat.ne_of_lt hnone]

variable {result : ComputeResult}

/-- What a submission checked, and the record it leaves. -/
theorem submit_eq_ok (h : submitOnChainResult record result = .ok next) :
    (record.status = .assigned ∨ record.status = .awaitingVerification) ∧
    (∃ a ∈ record.assignments, a.provider = result.provider) ∧
    (∀ r ∈ record.results, r.provider ≠ result.provider) ∧
    next = { record with
      results := record.results ++ [result]
      status := if record.results.length + 1 =
        record.job.requiredAssignments then .awaitingVerification
        else record.status } := by
  simp only [submitOnChainResult, ok_iff, List.length_append,
    List.length_singleton] at h
  obtain ⟨-, -, hstatus, -, hassigned, hnew, rfl⟩ := h
  refine ⟨?_, not_not.1 hassigned, fun r hr heq => hnew ⟨r, hr, heq⟩, rfl⟩
  by_cases hs : record.status = .assigned
  · exact .inl hs
  · exact .inr (not_not.1 fun hne => hstatus ⟨hs, hne⟩)

/-- The reporters of a record are distinct, and each of them is
assigned. -/
structure Reports (record : OnChainJob) : Prop where
  distinct : (record.results.map ComputeResult.provider).Nodup
  assigned : ∀ r ∈ record.results, ∃ a ∈ record.assignments,
    a.provider = r.provider

/-- Then there are no more results than assignments. -/
theorem Reports.length_le (h : Reports record) :
    record.results.length ≤ record.assignments.length := by
  have hsub : (record.results.map ComputeResult.provider).length ≤
      (record.assignments.map Assignment.provider).length := by
    refine (List.subperm_of_subset h.distinct ?_).length_le
    intro p hp
    obtain ⟨r, hr, rfl⟩ := List.mem_map.1 hp
    obtain ⟨a, ha, heq⟩ := h.assigned r hr
    exact List.mem_map.2 ⟨a, ha, heq⟩
  simpa using hsub

theorem Reports.submit (h : Reports record)
    (hsubmit : submitOnChainResult record result = .ok next) :
    Reports next := by
  obtain ⟨-, hassigned, hnew, rfl⟩ := submit_eq_ok hsubmit
  refine ⟨?_, ?_⟩
  · rw [List.map_append, List.nodup_append]
    refine ⟨h.distinct, List.nodup_singleton _, ?_⟩
    rintro p hp q hq rfl
    obtain ⟨r, hr, rfl⟩ := List.mem_map.1 hp
    exact hnew r hr (List.mem_singleton.1 hq)
  · exact forall_mem_concat h.assigned hassigned

theorem submit (hl : Lifecycle origin record)
    (h : submitOnChainResult record result = .ok next) :
    Lifecycle origin next := by
  have hreports := Reports.submit ⟨hl.reporters, hl.reported⟩ h
  obtain ⟨hstatus, hassigned, hnew, rfl⟩ := submit_eq_ok h
  have hlive : ¬ record.status.Final := by
    rintro (hs | hs) <;> rcases hstatus with h | h <;> rw [hs] at h <;>
      cases h
  have hprogress := hl.progress.resolve_left hlive
  have hroom : record.results.length + 1 ≤ record.assignments.length := by
    have hle := hreports.length_le
    rwa [List.length_append, List.length_singleton] at hle
  have hcount := hl.count
  have hstill : record.status = .assigned := by
    refine hstatus.resolve_right fun hs => ?_
    have hall := hprogress.awaiting.1 hs
    omega
  have hfull := (hprogress.assigned.1 hstill).1
  refine ⟨hl.providers, hl.budget, hl.escrow, hl.count, hreports.distinct,
    hreports.assigned, .inr ?_, hl.sameID, hl.sameJob, hl.sameEscrow⟩
  by_cases hlast : record.results.length + 1 =
      record.job.requiredAssignments
  · simp only [hlast, if_true]
    refine ⟨?_, ?_, ?_⟩
    · simp [hfull]
    · simp [hlast]
    · simp [hlast]
  · simp only [hlast, if_false, hstill]
    refine ⟨?_, ?_, ?_⟩
    · simp [hfull]
    · simp only [List.length_append, List.length_singleton, true_iff]
      exact ⟨hfull, by omega⟩
    · simp [hlast]

/-- A transition that changes nothing but the status, and ends the job. -/
theorem finish (hl : Lifecycle origin record) {s : JobStatus}
    (hs : s.Final) (hnext : next = { record with status := s }) :
    Lifecycle origin next := by
  subst hnext
  exact ⟨hl.providers, hl.budget, hl.escrow, hl.count, hl.reporters,
    hl.reported, .inl hs, hl.sameID, hl.sameJob, hl.sameEscrow⟩

end Lifecycle

-- ==== runs

variable {next : OnChainJob}

theorem finalizeOnChain_record {evidence : VerificationEvidence}
    {out : OnChainSettlement}
    (h : finalizeOnChain record evidence = .ok (next, out)) :
    record.status = .awaitingVerification ∧
      next = { record with status := .settled } := by
  simp only [finalizeOnChain, ok_iff, Prod.mk.injEq, not_or, not_not] at h
  obtain ⟨⟨hstatus, -⟩, -, paid, -, -, rfl, -⟩ := h
  exact ⟨hstatus, rfl⟩

theorem resolveReplicatedMajority_record {out : OnChainSettlement}
    (h : resolveReplicatedMajority record = .ok (next, out)) :
    next = { record with status := .settled } := by
  simp only [resolveReplicatedMajority, ok_iff, Prod.mk.injEq] at h
  obtain ⟨-, -, totals, -, -, rfl, -⟩ := h
  rfl

theorem expireOnChain_record {height : UInt64} {out : UInt64 × Amounts}
    (h : expireOnChain record height = .ok (next, out)) :
    ¬ record.status.Final ∧ next = { record with status := .expired } := by
  simp only [expireOnChain, ok_iff, Prod.mk.injEq, not_or] at h
  obtain ⟨⟨hsettled, hexpired, -⟩, rfl, -⟩ := h
  exact ⟨fun hfinal => hfinal.elim hsettled hexpired, rfl⟩

section Steps

variable {origin record next : OnChainJob} {op : JobOp}

theorem Lifecycle.step (hl : Lifecycle origin record)
    (h : op.apply record = .ok next) : Lifecycle origin next := by
  cases op with
  | assign offerID offer height =>
    simp only [JobOp.apply, ok_iff] at h
    obtain ⟨⟨_, out⟩, hassign, rfl⟩ := h
    exact hl.assign hassign
  | submit result => exact hl.submit h
  | finalize evidence =>
    simp only [JobOp.apply, ok_iff] at h
    obtain ⟨⟨_, out⟩, hfinalize, rfl⟩ := h
    exact hl.finish (.inl rfl) (finalizeOnChain_record hfinalize).2
  | resolve =>
    simp only [JobOp.apply, ok_iff] at h
    obtain ⟨⟨_, out⟩, hresolve, rfl⟩ := h
    exact hl.finish (.inl rfl) (resolveReplicatedMajority_record hresolve)
  | expire height =>
    simp only [JobOp.apply, ok_iff] at h
    obtain ⟨⟨_, out⟩, hexpire, rfl⟩ := h
    exact hl.finish (.inr rfl) (expireOnChain_record hexpire).2

end Steps

variable {origin : OnChainJob}

theorem JobRun.applied {steps : List JobStep}
    (hrun : JobRun origin steps record) :
    ∀ s ∈ steps, s.op.apply s.before = .ok s.after := by
  induction hrun with
  | nil =>
    intro s hs
    cases hs
  | snoc _ hstep ih =>
    exact forall_mem_concat ih hstep

/-- Every record a run visits keeps the invariant. -/
theorem Lifecycle.run {steps : List JobStep} (h : Lifecycle origin origin)
    (hrun : JobRun origin steps record) :
    Lifecycle origin record ∧ ∀ s ∈ steps, Lifecycle origin s.after := by
  induction hrun with
  | nil =>
    refine ⟨h, fun s hs => ?_⟩
    cases hs
  | snoc _ hstep ih =>
    have hnext := ih.1.step hstep
    exact ⟨hnext, forall_mem_concat ih.2 hnext⟩

/-- A successful row of transitions is a run. -/
theorem JobRun.of_foldlM {ops : List JobOp}
    (h : ops.foldlM JobOp.apply origin = .ok record) :
    ∃ steps, JobRun origin steps record ∧ steps.map JobStep.op = ops := by
  refine foldlM_prefix (P := fun pre record => ∃ steps,
    JobRun origin steps record ∧ steps.map JobStep.op = pre)
    ⟨[], .nil, rfl⟩ ?_ h
  rintro pre op record next - ⟨steps, hrun, hops⟩ hstep
  refine ⟨_, hrun.snoc hstep, ?_⟩
  rw [List.map_append, hops]
  rfl

/-- One core and one mebibyte. -/
def smallResources : Resources := ⟨1, 1, 0, 0, 0, 0, []⟩

/-- Three replicas, a budget of three and a deadline at height 10. -/
def replicatedJob : Job :=
  ⟨Vector.replicate 32 9, Vector.replicate 32 1, Vector.replicate 32 2,
    smallResources, 3, 0, .replicated, 10, 3, false⟩

/-- A provider's offer for the price of one. -/
def unitOffer (provider : UInt8) : Offer :=
  ⟨Vector.replicate 32 provider, smallResources, 1, 0, [.replicated], 10⟩

/-- A provider's report, the same root from each. -/
def unitResult (jobID : JobID) (provider : UInt8) : ComputeResult :=
  ⟨jobID, Vector.replicate 32 provider, Vector.replicate 32 5,
    Bytes32.zero, Bytes32.zero, 1⟩

def sampleJobCrypto : Crypto :=
  ⟨fun _ => Vector.replicate 32 4, fun _ => false, fun _ _ _ _ => false⟩

end ZephyrChain
