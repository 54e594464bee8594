/-
What a quorum of snapshot proofs says. The loop of
`validateSnapshotQuorum` counts each signer once and passes over proofs
that do not validate, so the signers it has counted are distinct members
of the trusted set who signed the last block of the snapshot
(`SignedSnapshot`), and the power it has counted is exactly theirs.
-/
import ZephyrChain.Ledger.Proofs.Power

namespace ZephyrChain.Ledger

open Lib

variable {H : Host} {snapshot : Snapshot} {chainID : Bytes}
  {trusted : ValidatorSnapshot}

/-- A proof with a valid signature of its signer under the hash, height
and state root of the snapshot's last block and its validator-set
version. -/
structure SignedSnapshot (H : Host) (snapshot : Snapshot) (chainID : Bytes)
    (proof : SnapshotProof) (latest : Block) : Prop where
  state : validateSnapshotCommittedState H snapshot chainID = .ok latest
  chain : trimSpace proof.chainID = trimSpace chainID
  domain : proof.domain = snapshotDomain
  height : proof.height = latest.height
  blockHash : proof.blockHash = latest.hash
  stateRoot : proof.stateCommitment = latest.stateRoot
  version : proof.validatorSetVersion = snapshot.validatorSnapshot.version
  filled : proof.signer ≠ [] ∧ proof.payload ≠ [] ∧ proof.publicKey ≠ [] ∧
    proof.signature ≠ []
  payload : proof.payload = proof.canonicalPayload H
  signer : deriveAddressFromPublicKey H proof.publicKey = .ok proof.signer
  signature : verifySignature H proof.publicKey proof.payload
    proof.signature = .ok ()

theorem validateSnapshotProof_eq_ok {proof : SnapshotProof} {power : UInt64} :
    validateSnapshotProof H snapshot chainID proof trusted = .ok power ↔
      validatorVotingPower trusted proof.signer = some power ∧
        ∃ latest, SignedSnapshot H snapshot chainID proof latest := by
  simp only [validateSnapshotProof, ok_iff, not_or, not_not]
  constructor
  · rintro ⟨latest, hstate, hchain, ⟨hdomain, hheight, hhash, hroot, hversion⟩,
      ⟨h1, h2, h3, h4, hpayload⟩, address, haddress, hsigner, hsignature,
      hpower⟩
    exact ⟨hpower, latest, hstate, hchain, hdomain, hheight, hhash, hroot,
      hversion, ⟨h1, h2, h3, h4⟩, hpayload, hsigner ▸ haddress, hsignature⟩
  · rintro ⟨hpower, latest, h⟩
    obtain ⟨h1, h2, h3, h4⟩ := h.filled
    exact ⟨latest, h.state, h.chain, ⟨h.domain, h.height, h.blockHash,
      h.stateRoot, h.version⟩, ⟨h1, h2, h3, h4, h.payload⟩, proof.signer,
      h.signer, rfl, h.signature, hpower⟩

/-- What the quorum loop has counted. -/
structure CountedSigners (H : Host) (snapshot : Snapshot) (chainID : Bytes)
    (proofs : List SnapshotProof) (trusted : ValidatorSnapshot)
    (counted : List Bytes × UInt64) : Prop where
  distinct : counted.1.Nodup
  power : counted.2.toNat = exactPower trusted counted.1
  signed : ∀ signer ∈ counted.1, ∃ proof ∈ proofs, proof.signer = signer ∧
    (∃ power, validatorVotingPower trusted signer = some power) ∧
    ∃ latest, SignedSnapshot H snapshot chainID proof latest

variable {proofs : List SnapshotProof}

theorem countSnapshotProof_counted
    {counted counted' : List Bytes × UInt64} {proof : SnapshotProof}
    (hmem : proof ∈ proofs)
    (hcounted : CountedSigners H snapshot chainID proofs trusted counted)
    (h : countSnapshotProof H snapshot chainID trusted counted proof =
      .ok counted') :
    CountedSigners H snapshot chainID proofs trusted counted' := by
  unfold countSnapshotProof at h
  split at h
  case isTrue =>
    cases h
    exact hcounted
  case isFalse hnew =>
    split at h
    next =>
      cases h
      exact hcounted
    next power hproof =>
      obtain ⟨hpower, hsigned⟩ := validateSnapshotProof_eq_ok.1 hproof
      simp only [ok_iff, addUint64_eq_some] at h
      obtain ⟨next, hnext, rfl⟩ := h
      refine ⟨List.nodup_cons.2 ⟨hnew, hcounted.distinct⟩, ?_, ?_⟩
      · show next.toNat = powerOf trusted proof.signer +
          exactPower trusted counted.1
        rw [hnext, hcounted.power, powerOf, hpower, Nat.add_comm]
        rfl
      · intro signer hsigner
        rcases List.mem_cons.1 hsigner with heq | hold
        · subst heq
          exact ⟨proof, hmem, rfl, ⟨power, hpower⟩, hsigned⟩
        · exact hcounted.signed signer hold

theorem validateSnapshotQuorum_eq_ok
    (h : validateSnapshotQuorum H snapshot chainID proofs trusted = .ok ()) :
    quorumVotingPower (totalVotingPower trusted) ≠ 0 ∧ ∃ counted,
      CountedSigners H snapshot chainID proofs trusted counted ∧
        (quorumVotingPower (totalVotingPower trusted)).toNat ≤
          exactPower trusted counted.1 := by
  simp only [validateSnapshotQuorum, ok_iff, not_or, UInt64.not_lt] at h
  obtain ⟨⟨-, hquorum⟩, counted, hloop, hle⟩ := h
  have hcounted : CountedSigners H snapshot chainID proofs trusted counted := by
    refine foldlM_prefix
      (fun _ counted =>
        CountedSigners H snapshot chainID proofs trusted counted)
      ⟨List.nodup_nil, rfl, fun signer hsigner => ?_⟩ ?_ hloop
    · cases hsigner
    · intro pre proof counted counted' hpre hcounted hstep
      have hmem : proof ∈ proofs :=
        hpre.subset (List.mem_append_right _ (List.mem_singleton_self proof))
      exact countSnapshotProof_counted hmem hcounted hstep
  refine ⟨hquorum, counted, hcounted, ?_⟩
  rw [← hcounted.power]
  exact UInt64.le_iff_toNat_le.1 hle

/-- A quorum has a signer, so the snapshot itself has been checked. -/
theorem validateSnapshotQuorum_state
    (h : validateSnapshotQuorum H snapshot chainID proofs trusted = .ok ()) :
    ∃ latest, validateSnapshotCommittedState H snapshot chainID =
      .ok latest := by
  obtain ⟨hquorum, counted, hcounted, hle⟩ := validateSnapshotQuorum_eq_ok h
  cases hsigners : counted.1 with
  | nil =>
    rw [hsigners] at hle
    have hzero := Nat.le_zero.1 hle
    exact absurd (UInt64.toNat_inj.1 hzero) hquorum
  | cons signer rest =>
    obtain ⟨_, _, _, _, latest, hsigned⟩ := hcounted.signed signer
      (hsigners ▸ List.mem_cons_self)
    exact ⟨latest, hsigned.state⟩

/-- The checks on the snapshot itself. -/
theorem validateSnapshotCommittedState_eq_ok {latest : Block}
    (h : validateSnapshotCommittedState H snapshot chainID = .ok latest) :
    snapshot.chainID = trimSpace chainID ∧
      snapshot.blocks.getLast? = some latest ∧
      validateSnapshotBlocks H (trimSpace chainID) 0 [] [] snapshot.blocks =
        .ok () ∧
      stateRootWithFundingIDs H (trimSpace chainID) snapshot.accounts
        snapshot.validatorSnapshot snapshot.appliedFundingIDs =
          .ok latest.stateRoot ∧
      exactTotal snapshot.validatorSnapshot.validators < 2 ^ 64 := by
  simp only [validateSnapshotCommittedState, ok_iff, not_not] at h
  obtain ⟨-, hchain, last, hlast, hblocks, root, hroot, rfl, hsum, rfl⟩ := h
  exact ⟨hchain, hlast, hblocks, hroot,
    sumValidatorVotingPower_ne_none.1 hsum⟩

end ZephyrChain.Ledger
