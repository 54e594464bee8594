/-
The transitions of a job record, read backwards: what an assignment and a
result leave as they are, and what the value locked in a record is.
-/
import ZephyrChain.Execution.Proofs.Accounting
import ZephyrChain.Compute.Proofs.Codec

namespace ZephyrChain.Execution

open Lib

variable {C : Crypto} {e : Engine} {t : Transaction} {payload : Bytes}
  {r : Result} {native : TokenID} {data : Bytes}

-- ==== values

theorem jobLockedValue_eq_ok {record : OnChainJob} {locked : UInt64}
    (h : jobLockedValue record = .ok locked) :
    locked.toNat = lockedInJob record := by
  refine foldlM_prefix
    (P := fun pre (locked : UInt64) => locked.toNat = record.escrow.toNat +
      pre.length * record.job.collateralRequired.toNat) ?_ ?_ h
  · simp
  · intro pre a s s' _ hs hstep
    simp only [ok_iff] at hstep
    obtain ⟨hfits, rfl⟩ := hstep
    rw [toNat_add_of_fits hfits, hs, List.length_append,
      List.length_singleton, Nat.succ_mul]
    omega

-- ==== transitions

theorem assignOnChain_eq_ok {record updated : OnChainJob} {offerID : Hash}
    {offer : Offer} {height : UInt64} {rest : Assignment × UInt64}
    (h : assignOnChain record offerID offer height = .ok (updated, rest)) :
    updated.escrow = record.escrow ∧ updated.job = record.job ∧
      updated.assignments.length = record.assignments.length + 1 ∧
      updated.results = record.results := by
  simp only [assignOnChain, ok_iff] at h
  obtain ⟨_, _, _, _, committed, _, _, h⟩ := h
  cases h
  exact ⟨rfl, rfl, by simp, rfl⟩

theorem submitOnChainResult_eq_ok {record updated : OnChainJob}
    {result : ComputeResult}
    (h : submitOnChainResult record result = .ok updated) :
    updated.escrow = record.escrow ∧ updated.job = record.job ∧
      updated.assignments = record.assignments ∧
      updated.results.length = record.results.length + 1 ∧
      (record.validate = .ok () → updated.validate = .ok ()) := by
  simp only [submitOnChainResult, ok_iff] at h
  obtain ⟨hvalid, _, _, _, _, _, rfl⟩ := h
  refine ⟨rfl, rfl, rfl, by simp, fun hrecord => ?_⟩
  simp only [OnChainJob.validate, ok_iff, forM_eq_ok] at hrecord ⊢
  obtain ⟨hfields, hjob, hassignments, hresults⟩ := hrecord
  refine ⟨?_, hjob, hassignments, ?_⟩
  · simp only [not_or] at hfields ⊢
    refine ⟨hfields.1, hfields.2.1, ?_⟩
    split
    · decide
    · exact hfields.2.2
  · exact forall_mem_concat hresults (by assumption)

theorem ownedWitness_eq_ok {id : ObjectID} {kind : Kind} {o : Object}
    (h : ownedWitness t id kind = .ok o) :
    o ∈ t.objects ∧ o.kind = kind := by
  simp only [ownedWitness, ok_iff, not_or, not_not] at h
  obtain ⟨o', hfind, ⟨hk, _⟩, rfl⟩ := h
  exact ⟨(mem_of_witnessByID hfind).1, hk⟩

end ZephyrChain.Execution
