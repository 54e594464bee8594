/-
Contract and credential operations. What a contract call writes are
contract-state objects, since the objects a call declares are checked to
be such and the guard around the engine allows writes to declared objects
only.
-/
import ZephyrChain.Execution.Proofs.Accounting

namespace ZephyrChain.Execution

open Lib

variable {C : Crypto} {e : Engine} {t : Transaction} {payload : Bytes}
  {r : Result}

-- ==== contracts

/-- Every object a call declares is a contract state among the
witnesses. -/
theorem readValues_eq_ok {accesses : List Access}
    {values : AList fun _ : ObjectID => Bytes}
    (h : readValues t accesses = .ok values) :
    ∀ a ∈ accesses, ∃ o, witnessByID t a.objectID = some o ∧
      o.kind = .contractState := by
  refine foldlM_prefix
    (P := fun pre _ => ∀ a ∈ pre, ∃ o, witnessByID t a.objectID = some o ∧
      o.kind = .contractState) (by simp) ?_ h
  intro pre a s s' _ hpre hstep
  simp only [ok_iff, not_not] at hstep
  obtain ⟨o, ho, hk, _⟩ := hstep
  exact List.forall_mem_append.2
    ⟨hpre, List.forall_mem_singleton.2 ⟨o, ho, hk⟩⟩

/-- The engine wrote to declared objects only. -/
theorem meteredExecute_eq_ok {runtime : Runtime} {request : Request}
    {result : ContractResult}
    (h : runtime.meteredExecute request = .ok result) :
    ∀ id ∈ result.writes.keys, ⟨id, true⟩ ∈ request.accesses := by
  unfold Runtime.meteredExecute at h
  split at h
  all_goals
    simp only [ok_iff, not_exists, not_and, not_not] at h
    obtain ⟨_, h⟩ := h
  case isTrue =>
    obtain ⟨_, _, _, _, _, _, hdeclared, rfl⟩ := h
    exact hdeclared
  case isFalse =>
    obtain ⟨_, _, _, _, _, hdeclared, rfl⟩ := h
    exact hdeclared

/-- The witnesses that the writes replace. -/
def replacedObjects (t : Transaction)
    (writes : AList fun _ : ObjectID => Bytes) : List Object :=
  writes.entries.map fun entry => (witnessByID t entry.1).getD zeroObject

section Writes

variable {writes : AList fun _ : ObjectID => Bytes}

theorem mem_replacedObjects
    (h : ∀ id ∈ writes.keys, ∃ o, witnessByID t id = some o ∧
      o.kind = .contractState) :
    ∀ o ∈ replacedObjects t writes, o ∈ t.objects ∧
      o.kind = .contractState := by
  intro o ho
  obtain ⟨entry, hentry, rfl⟩ := List.mem_map.1 ho
  obtain ⟨w, hw, hk⟩ := h entry.1 (List.mem_map_of_mem hentry)
  rw [hw]
  exact ⟨(mem_of_witnessByID hw).1, hk⟩

theorem replacedObjects_ids
    (h : ∀ id ∈ writes.keys, ∃ o, witnessByID t id = some o ∧
      o.kind = .contractState) :
    (replacedObjects t writes).map Object.id = writes.keys := by
  unfold replacedObjects
  rw [List.map_map]
  refine List.map_congr_left fun entry hentry => ?_
  obtain ⟨w, hw, _⟩ := h entry.1 (List.mem_map_of_mem hentry)
  show ((witnessByID t entry.1).getD zeroObject).id = entry.1
  rw [hw]
  exact (mem_of_witnessByID hw).2

end Writes

-- ==== credentials

theorem credentialWitness_eq_ok {id : ObjectID} {o : Object}
    {current : Credential}
    (h : credentialWitness C t id = .ok (o, current)) :
    o ∈ t.objects ∧ o.kind = .deviceCredential := by
  simp only [credentialWitness, ok_iff, not_or, not_not] at h
  obtain ⟨o', hfind, ⟨hk, _⟩, _, _, _, h⟩ := h
  cases h
  exact ⟨(mem_of_witnessByID hfind).1, hk⟩

end ZephyrChain.Execution
