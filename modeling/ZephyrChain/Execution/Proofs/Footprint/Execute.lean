/-
The footprint of a transaction, and when the object store takes what it
leaves.

# What holds

Every operation uses up witnesses of its transaction, none of them
twice and none a system object, and leaves new objects at indices that
do not repeat, or next versions of what it used up. `Fits` is the
condition on an operation under which all of it can be stored.

# Where it fails

A deployment whose code does not fit into an object, an engine that
writes more than an object can hold, and a witness whose version number
is the last one, or which has no owner, though the operation makes its
next version. The operation succeeds and what it leaves cannot be
stored.
-/
import ZephyrChain.Execution.Proofs.Footprint.Compute
import ZephyrChain.Execution.Proofs.Footprint.Contracts

namespace ZephyrChain.Execution

open Lib

variable {C : Crypto} {e : Engine} {t : Transaction} {r : Result}
  {op : Operation}

/-- Every witness of a kind can have a next version. -/
def AllRenewable (t : Transaction) (kind : Kind) : Prop :=
  ∀ o ∈ t.objects, o.kind = kind → Renewable o

/-- What the operation leaves can be stored. -/
def Fits (e : Engine) (t : Transaction) (op : Operation) : Prop :=
  if op.kind = Op.deployContract then DeployFits op.payload
  else if op.kind = Op.contractCall then CallFits e t op.payload
  else if op.kind = Op.mintToken ∨ op.kind = Op.burnToken then
    AllRenewable t .tokenDefinition
  else if op.kind = Op.computeIngestAssignment ∨
      op.kind = Op.computeIngestResult then AllRenewable t .computeJob
  else if op.kind = Op.deviceCredentialUpdate then
    AllRenewable t .deviceCredential
  else True

/-- What the transaction leaves can be stored. -/
def Storable (e : Engine) (t : Transaction) : Prop :=
  ∀ op ∈ t.operations, Fits e t op

-- ==== per operation

/-- The operations whose results may not fit. -/
def conditional : List UInt16 :=
  [Op.deployContract, Op.contractCall, Op.mintToken, Op.burnToken,
    Op.computeIngestAssignment, Op.computeIngestResult,
    Op.deviceCredentialUpdate]

theorem fits_of_not_mem (h : op.kind ∉ conditional) : Fits e t op := by
  simp only [conditional, List.mem_cons, List.not_mem_nil, or_false,
    not_or] at h
  obtain ⟨hdeploy, hcall, hmint, hburn, hassign, hresult, hupdate⟩ := h
  rw [Fits, if_neg hdeploy, if_neg hcall, if_neg (not_or.2 ⟨hmint, hburn⟩),
    if_neg (not_or.2 ⟨hassign, hresult⟩), if_neg hupdate]
  trivial

/-- The footprint of an operation that always fits. -/
theorem Leaves.plain (h : Leaves C t r True) {kind : UInt16}
    (hk : op.kind = kind) (hkind : kind ∉ conditional) :
    Leaves C t r (Fits e t op) := by
  rwa [eq_true (fits_of_not_mem (hk ▸ hkind))]

theorem executeCompute_leaves (hck : Checked C t)
    (h : executeCompute C e t op = .ok r) : Leaves C t r (Fits e t op) := by
  unfold executeCompute at h
  split at h
  case isTrue hk =>
    exact (executeComputeOffer_leaves hck h).plain hk (by decide)
  split at h
  case isTrue hk =>
    exact (executeComputeJob_leaves hck h).plain hk (by decide)
  split at h
  case isTrue hk =>
    exact (executeComputeAccept_leaves hck h).plain hk (by decide)
  split at h
  case isTrue hk =>
    exact (executeComputeResult_leaves hck h).plain hk (by decide)
  split at h
  case isTrue hk =>
    rw [Fits, hk]
    exact executeComputeIngestAssignment_leaves hck h
  split at h
  case isTrue hk =>
    rw [Fits, hk]
    exact executeComputeIngestResult_leaves hck h
  split at h
  case isTrue hk =>
    exact (executeComputeFinalize_leaves hck h).plain hk (by decide)
  split at h
  case isTrue hk =>
    exact (executeComputeFinalize_leaves hck h).plain hk (by decide)
  split at h
  case isTrue hk =>
    exact (executeComputeExpire_leaves hck h).plain hk (by decide)
  case isFalse => cases h

theorem executeDeviceCredential_leaves (hck : Checked C t)
    (h : executeDeviceCredential C e t op = .ok r) :
    Leaves C t r (Fits e t op) := by
  unfold executeDeviceCredential at h
  split at h
  case isTrue hk =>
    exact (executeDeviceCredentialRegister_leaves hck h).plain hk (by decide)
  split at h
  case isTrue hk =>
    rw [Fits, hk]
    exact executeDeviceCredentialUpdate_leaves hck h
  split at h
  case isTrue hk =>
    exact (executeDeviceCredentialRevoke_leaves hck h).plain hk (by decide)
  case isFalse => cases h

theorem executeExtended_leaves (hck : Checked C t)
    (h : executeExtended C e t op = .ok r) : Leaves C t r (Fits e t op) := by
  unfold executeExtended at h
  split at h
  case isTrue hk =>
    rw [Fits, if_pos hk]
    exact executeDeployContract_leaves hck h
  split at h
  case isTrue hk =>
    rw [Fits, hk]
    exact executeContractCall_leaves hck h
  split at h
  case isTrue hk =>
    rw [Fits, hk]
    exact executeMintToken_leaves hck h
  split at h
  case isTrue hk =>
    rw [Fits, hk]
    exact executeBurnToken_leaves hck h
  split at h
  · exact executeCompute_leaves hck h
  split at h
  case isTrue hk =>
    have hplain : [Op.loanOffer, Op.loanCancel, Op.loanAccept, Op.loanRepay,
        Op.loanDefault].all (fun k => k ∉ conditional) = true := by
      decide
    exact ((executeLending_lends h).leaves hck).plain rfl
      (of_decide_eq_true (List.all_eq_true.1 hplain _ hk))
  split at h
  · exact executeDeviceCredential_leaves hck h
  split at h
  case isTrue hk =>
    have hplain : [Op.crossLoanOffer, Op.crossLoanAccept, Op.crossLoanRepay,
        Op.crossLoanSettle, Op.crossLoanDefault, Op.crossLoanExpire].all
          (fun k => k ∉ conditional) = true := by
      decide
    exact ((executeCrossShardLending_lends h).leaves hck).plain rfl
      (of_decide_eq_true (List.all_eq_true.1 hplain _ hk))
  case isFalse => cases h

/-- The footprint of a successful execution. -/
theorem execute_leaves (h : execute C e t = .ok r) :
    Checked C t ∧ Leaves C t r (Storable e t) := by
  simp only [execute, ok_iff] at h
  obtain ⟨henv, h⟩ := h
  have hck := checked_of_checkEnvelope henv
  refine ⟨hck, ?_⟩
  split at h
  case h_2 => cases h
  case h_1 op hop =>
    have hleaves : Leaves C t r (Fits e.normalized t op) := by
      unfold executeOperation at h
      split at h
      case isTrue hk =>
        exact (executeTransfer_leaves hck h).plain hk (by decide)
      split at h
      case isTrue hk =>
        exact (executeCreateToken_leaves hck h).plain hk (by decide)
      · exact executeExtended_leaves hck h
    rw [Storable, hop, List.forall_mem_singleton]
    exact hleaves

end ZephyrChain.Execution
