/-
The footprints of contract and credential operations.

# Where storing can fail

A deployment may carry four times the code an object can hold, and its
contract object holds all of it. The guard around a contract engine
checks which objects it writes and bounds what it returns, but not how
much it writes to an object.
-/
import ZephyrChain.Execution.Proofs.Footprint.Tokens

namespace ZephyrChain.Execution

open Lib

variable {C : Crypto} {e : Engine} {t : Transaction} {payload : Bytes}
  {r : Result}

-- ==== deployment

/-- The contract object of a deployment fits into an object. -/
def DeployFits (payload : Bytes) : Prop :=
  ∀ d, parseDeployment payload = .ok d →
    36 + d.encode.length ≤ maxObjectDataBytes.toNat

variable {d : Deployment}

theorem parseDeployment_eq_ok (h : parseDeployment payload = .ok d) :
    d.validate = .ok () := by
  simp only [parseDeployment, ok_iff] at h
  obtain ⟨_, _, hvalid, rfl⟩ := h
  exact hvalid

theorem StoredContract.length_marshalBinary {id : ContractID}
    {raw : Bytes} (h : (StoredContract.mk id d).marshalBinary = .ok raw) :
    raw.length = 36 + d.encode.length := by
  simp only [StoredContract.marshalBinary, Deployment.marshalBinary,
    ok_iff] at h
  obtain ⟨_, _, ⟨_, rfl⟩, rfl⟩ := h
  simp only [List.length_append, Writer.length_fixed, Writer.length_bytes]
  omega

/-- The state object of a deployment, if there is one. -/
theorem initialState_items (hd : d.validate = .ok ()) (hck : Checked C t) :
    ∃ items, (if 0 < d.initialState.length then
        [newObject C t contractStateIndex
          ⟨t.sender, .contractState, d.initialState⟩] else []) =
      items.map (Item.object C t) ∧ Adds items [contractStateIndex] := by
  simp only [Deployment.validate, ok_iff, not_or, not_lt] at hd
  obtain ⟨⟨_, _, _, hinitial, _⟩, _⟩ := hd
  split
  case isTrue =>
    refine ⟨[.fresh contractStateIndex _], rfl, .single ?_ _⟩
    exact validate_spec (by decide) hck.sender hinitial
  case isFalse => exact ⟨[], rfl, adds_nil.weaken⟩

theorem executeDeployContract_leaves (hck : Checked C t)
    (h : executeDeployContract C e t payload = .ok r) :
    Leaves C t r (DeployFits payload) := by
  simp only [executeDeployContract, feeOnlyOutputs, ok_iff, not_not] at h
  obtain ⟨d, hd, _, runtime, _, _, ⟨created, consumed⟩, hfee, raw, hraw,
    rfl⟩ := h
  obtain ⟨items, hstate, hitems⟩ :=
    initialState_items (parseDeployment_eq_ok hd) hck
  have hlen : raw.length = 36 + d.encode.length :=
    StoredContract.length_marshalBinary hraw
  have hfits : (∀ i ∈ .fresh contractObjectIndex
      ⟨t.sender, .contract, raw⟩ :: items, i.Fits) ↔ DeployFits payload := by
    rw [List.forall_mem_cons, and_iff_left hitems.fits]
    show OutputSpec.validate _ = .ok () ↔ _
    rw [OutputSpec.validate_eq_ok]
    constructor
    · rintro ⟨_, hraw, _⟩ d' hd'
      obtain rfl : d = d' := by simpa using hd.symm.trans hd'
      exact hlen ▸ hraw
    · intro hdeploy
      exact ⟨Kind.noConfusion, hlen ▸ hdeploy d hd, .inr hck.sender⟩
  have hsub : (items.filterMap Item.index).Sublist [contractStateIndex] :=
    hitems.indices
  have hb : Beside t [] (.fresh contractObjectIndex
      ⟨t.sender, .contract, raw⟩ :: items) [] := by
    have hindices := hsub.cons_cons contractObjectIndex
    have habove : Above [contractObjectIndex, contractStateIndex] := by
      decide
    refine ⟨habove.nodup.sublist hindices, fun i hi => ?_, ?_, ?_, by simp⟩
    · exact habove.high i (hindices.subset hi)
    · show ∀ w ∈ items.filterMap Item.base, _
      simp [hitems.bases]
    · show (items.filterMap Item.base).Nodup
      simp [hitems.bases]
  refine leaves_of_moves hck (moves_of_fee hck hfee) takes_nil hb hfits ?_
  simp [Item.object, hstate]

-- ==== calls

/-- The engine a call runs on, and what it is asked. -/
def callRequest (e : Engine) (t : Transaction) (payload : Bytes) :
    Except Error (Runtime × Request) := do
  let call ← parseCall payload
  let contract ← require (witnessByID t call.contractObject) .ownership
  refuse (contract.kind ≠ .contract) .ownership
  let stored ← parseStoredContract contract.data
  let runtime ← require (contractRuntime e stored.deployment.runtime)
    .unsupportedOperation
  let values ← readValues t call.accesses
  return (runtime,
    { contractID := stored.id
      runtime := stored.deployment.runtime
      code := stored.deployment.code
      entrypoint := call.entrypoint
      arguments := call.arguments
      accesses := call.accesses
      readValues := values
      fuelLimit := call.fuelLimit })

/-- Every object the engine writes to can have a next version, and the
engine writes no more to it than an object can hold. -/
def WritesFit (t : Transaction) (result : ContractResult) : Prop :=
  ∀ entry ∈ result.writes.entries,
    Renewable ((witnessByID t entry.1).getD zeroObject) ∧
      entry.2.length ≤ maxObjectDataBytes.toNat

/-- What the engine writes for this call fits. -/
def CallFits (e : Engine) (t : Transaction) (payload : Bytes) : Prop :=
  ∀ runtime request result, callRequest e t payload = .ok (runtime, request) →
    runtime.meteredExecute request = .ok result → WritesFit t result

/-- The next versions of what the engine wrote to. -/
def writtenItems (t : Transaction)
    (writes : AList fun _ : ObjectID => Bytes) : List Item :=
  writes.entries.map fun entry =>
    .next ((witnessByID t entry.1).getD zeroObject) entry.2

theorem writtenItems_objects
    (writes : AList fun _ : ObjectID => Bytes) :
    (writtenItems t writes).map (Item.object C t) =
      writtenObjects t writes := by
  unfold writtenItems writtenObjects
  rw [List.map_map]
  rfl

theorem writtenItems_bases (writes : AList fun _ : ObjectID => Bytes) :
    (writtenItems t writes).filterMap Item.base =
      replacedObjects t writes := by
  unfold writtenItems replacedObjects
  rw [List.filterMap_map]
  exact congrFun (List.filterMap_eq_map
    (f := fun entry : Σ _ : ObjectID, Bytes =>
      (witnessByID t entry.1).getD zeroObject)) _

theorem writtenItems_index (writes : AList fun _ : ObjectID => Bytes) :
    (writtenItems t writes).filterMap Item.index = [] := by
  unfold writtenItems
  rw [List.filterMap_map]
  exact List.filterMap_eq_nil_iff.2 fun _ _ => rfl

theorem writtenItems_fit {result : ContractResult}
    (h : ∀ id ∈ result.writes.keys, ∃ o, witnessByID t id = some o ∧
      o.kind = .contractState) :
    (∀ i ∈ writtenItems t result.writes, i.Fits) ↔ WritesFit t result := by
  unfold writtenItems WritesFit
  rw [List.forall_mem_map]
  refine forall₂_congr fun entry hentry => ?_
  obtain ⟨w, hw, hk⟩ := h entry.1 (List.mem_map_of_mem hentry)
  rw [hw, Option.getD_some]
  show (_ ∧ _ ∧ _) ↔ _
  rw [hk, or_iff_right (by decide), Renewable, and_assoc]

/-- What a successful call is: its engine answered, wrote to objects
declared for writing, and coins paid the fee. -/
structure Calls (C : Crypto) (e : Engine) (t : Transaction)
    (payload : Bytes) (r : Result) (call : Call)
    (result : ContractResult) : Prop where
  parsed : parseCall payload = .ok call
  contract : ∃ o, witnessByID t call.contractObject = some o ∧
    o.kind = .contract
  declared : ∀ a ∈ call.accesses, ∃ o, witnessByID t a.objectID = some o ∧
    o.kind = .contractState
  answered : ∃ runtime request,
    callRequest e t payload = .ok (runtime, request) ∧
      runtime.meteredExecute request = .ok result
  written : ∀ id ∈ result.writes.keys, ⟨id, true⟩ ∈ call.accesses
  shape : ∃ created consumed receipt,
    feeOnlyOutputsExcluding C e t call.contractObject call.accesses =
        .ok (created, consumed) ∧
      receipt.length ≤ 1048576 ∧
      r = ⟨consumed ++ result.writes.keys,
        created ++ writtenObjects t result.writes ++
          [newObject C t contractReceiptIndex
            ⟨t.sender, .system, receipt⟩], [], t.id C⟩

theorem executeContractCall_eq_ok
    (h : executeContractCall C e t payload = .ok r) :
    ∃ call result, Calls C e t payload r call result := by
  simp only [executeContractCall, ok_iff, not_not] at h
  obtain ⟨call, hcall, contract, hcontract, hkind, stored, hstored, runtime,
    hruntime, values, hvalues, result, hresult, ⟨created, consumed⟩, hfee,
    rfl⟩ := h
  refine ⟨call, result, hcall, ⟨contract, hcontract, hkind⟩,
    readValues_eq_ok hvalues, ⟨runtime, _, ?_, hresult⟩,
    meteredExecute_eq_ok hresult, created, consumed, _, hfee, ?_, rfl⟩
  · simp only [callRequest, ok_iff, not_not]
    exact ⟨call, hcall, contract, hcontract, hkind, stored, hstored, runtime,
      hruntime, values, hvalues, rfl⟩
  · simp [ContractReceipt.marshalBinary]

section Calls

variable {call : Call} {result : ContractResult}

theorem Calls.replaced (h : Calls C e t payload r call result) :
    ∀ id ∈ result.writes.keys, ∃ o, witnessByID t id = some o ∧
      o.kind = .contractState :=
  fun id hid => h.declared _ (h.written id hid)

theorem Calls.takes (h : Calls C e t payload r call result) :
    Takes t (replacedObjects t result.writes) := by
  have hreplaced := mem_replacedObjects h.replaced
  refine ⟨fun o ho => (hreplaced o ho).1, ?_, fun o ho => ?_⟩
  · refine List.Nodup.of_map Object.id ?_
    rw [replacedObjects_ids h.replaced]
    exact AList.keys_nodup _
  · rw [(hreplaced o ho).2]
    decide

/-- The engine answers a request in one way. -/
theorem Calls.fits_iff (h : Calls C e t payload r call result) :
    CallFits e t payload ↔ WritesFit t result := by
  obtain ⟨runtime, request, hrequest, hresult⟩ := h.answered
  refine ⟨fun hfit => hfit runtime request result hrequest hresult, ?_⟩
  intro hfit runtime' request' result' hrequest' hresult'
  obtain ⟨rfl, rfl⟩ := Prod.mk.inj
    (Except.ok.inj (hrequest.symm.trans hrequest'))
  obtain rfl := Except.ok.inj (hresult.symm.trans hresult')
  exact hfit

theorem Calls.leaves (hck : Checked C t)
    (h : Calls C e t payload r call result) :
    Leaves C t r (CallFits e t payload) := by
  obtain ⟨created, consumed, receipt, hfee, hshort, hr⟩ := h.shape
  have hspec : (OutputSpec.mk t.sender .system receipt).validate =
      .ok () := validate_spec (by decide) hck.sender hshort
  have hfits : (∀ i ∈ writtenItems t result.writes ++
      [.fresh contractReceiptIndex ⟨t.sender, .system, receipt⟩],
        i.Fits) ↔ CallFits e t payload := by
    rw [List.forall_mem_append, List.forall_mem_singleton,
      writtenItems_fit h.replaced, h.fits_iff]
    exact and_iff_left hspec
  have hb : Beside t (replacedObjects t result.writes)
      (writtenItems t result.writes ++
        [.fresh contractReceiptIndex ⟨t.sender, .system, receipt⟩]) [] := by
    refine ⟨?_, ?_, ?_, ?_, by simp⟩
    · rw [List.filterMap_append, writtenItems_index]
      exact List.nodup_singleton _
    · rw [List.filterMap_append, writtenItems_index]
      exact List.forall_mem_singleton.2 (by decide)
    · rw [List.filterMap_append, writtenItems_bases]
      exact fun w hw => (List.mem_append.1 hw).elim id (by simp [Item.base])
    · rw [List.filterMap_append, writtenItems_bases]
      show (_ ++ []).Nodup
      rw [List.append_nil]
      exact h.takes.nodup
  refine leaves_of_moves hck (moves_of_fee hck hfee) h.takes hb hfits ?_
  rw [hr, replacedObjects_ids h.replaced, List.map_append,
    writtenItems_objects, List.append_assoc]
  rfl

end Calls

theorem executeContractCall_leaves (hck : Checked C t)
    (h : executeContractCall C e t payload = .ok r) :
    Leaves C t r (CallFits e t payload) := by
  obtain ⟨call, result, hcalls⟩ := executeContractCall_eq_ok h
  exact hcalls.leaves hck

-- ==== credentials

theorem Credential.short {c : Credential} {raw : Bytes}
    (h : c.marshalBinary C = .ok raw) : raw.length ≤ 1048576 := by
  simp only [Credential.marshalBinary, Credential.validate, ok_iff,
    not_or] at h
  obtain ⟨⟨_, _, _, hkey, _⟩, rfl⟩ := h
  simp only [validPublicKey, Bool.not_eq_false, decide_eq_true_eq] at hkey
  simp [Credential.encode, hkey.1]

theorem executeDeviceCredentialRegister_leaves (hck : Checked C t)
    (h : executeDeviceCredentialRegister C e t payload = .ok r) :
    Leaves C t r True := by
  simp only [executeDeviceCredentialRegister, feeOnlyOutputs, ok_iff] at h
  obtain ⟨_, spec, _, _, ⟨created, consumed⟩, hfee, raw, hraw, rfl⟩ := h
  have hspec : (OutputSpec.mk t.sender .deviceCredential raw).validate =
      .ok () := validate_spec (by decide) hck.sender (Credential.short hraw)
  refine leaves_of_adds hck (moves_of_fee hck hfee) takes_nil
    (.single hspec credentialObjectIndex) (by decide) [] (by simp) ?_
  simp [Item.object]

/-- Only the credential an operation names is excluded from its coins. -/
theorem credential_only (hck : Checked C t) {o : Object}
    (hmem : o ∈ t.objects) :
    ∀ o' ∈ t.objects, o'.id ∈ nonCoin o.id [] →
      o'.kind = .deviceCredential → o' = o :=
  fun _ ho' hex _ => hck.eq_of_id hmem ho' (mem_nonCoin hex)

theorem executeDeviceCredentialUpdate_leaves (hck : Checked C t)
    (h : executeDeviceCredentialUpdate C e t payload = .ok r) :
    Leaves C t r
      (∀ o ∈ t.objects, o.kind = .deviceCredential → Renewable o) := by
  simp only [executeDeviceCredentialUpdate, ok_iff] at h
  obtain ⟨_, update, _, _, ⟨o, current⟩, ho, _, ⟨created, consumed⟩, hfee,
    raw, hraw, rfl⟩ := h
  obtain ⟨hmem, hk⟩ := credentialWitness_eq_ok ho
  exact leaves_of_renewal hck (moves_of_fee hck hfee)
    (.single hmem hk (by decide)) hk (credential_only hck hmem)
    (Credential.short hraw) adds_nil (by decide) rfl

theorem executeDeviceCredentialRevoke_leaves (hck : Checked C t)
    (h : executeDeviceCredentialRevoke C e t payload = .ok r) :
    Leaves C t r True := by
  simp only [executeDeviceCredentialRevoke, ok_iff] at h
  obtain ⟨id, _, _, ⟨o, current⟩, ho, ⟨created, consumed⟩, hfee, rfl⟩ := h
  obtain ⟨hmem, hk⟩ := credentialWitness_eq_ok ho
  refine leaves_of_adds hck (moves_of_fee hck hfee)
    (.single hmem hk (by decide)) adds_nil (by decide) [] (by simp) ?_
  simp

end ZephyrChain.Execution
