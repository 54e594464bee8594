/-
What a restored snapshot is bound to. The proofs of a quorum sign a block
hash, a height, a state root and a validator-set version; the rest of the
snapshot hangs on these through the chain of block hashes and the
committed state. Collisions are excluded for the records of the two
snapshots that are compared (`NoCollisions`), not for all.

# What is bound and what is not

Balances, nonces, funding identifiers, block hashes and committed
transaction identifiers are those of the signed block. The state root
commits the members sorted by rank and address, while the proposers take
turns in the order of the list, so the schedule is bound exactly when the
lists have the same order (`SameOrder`).

The signers' power is compared with a total that saturates, so it is more
than two thirds of the exact total when that fits in 64 bits. And a
restore does not look at the chain it replaces: the installed chain is
not shorter exactly when the snapshot has as many blocks
(`snapshots_binding`). Each of the three can be violated
(`restore_not_binding`).
-/
import ZephyrChain.Ledger.Proofs.Certificates

namespace ZephyrChain.Ledger

open Lib

-- ==== committed state

theorem mem_sortedStrings {strings : Finset Bytes} {x : Bytes} :
    x ∈ sortedStrings strings ↔ x ∈ strings := by
  obtain ⟨xs, hnodup⟩ := strings
  induction xs using Quot.inductionOn with
  | _ xs => exact List.mem_insertionSort _

theorem sortedStrings_inj {strings strings' : Finset Bytes}
    (h : sortedStrings strings = sortedStrings strings') :
    strings = strings' := by
  ext x
  rw [← mem_sortedStrings, h, mem_sortedStrings]

variable {accounts : Accounts}

theorem mem_committedAccounts {c : CommittedAccount} :
    c ∈ committedAccounts accounts ↔ c.address ∈ accounts.keys ∧
      c.balance = (accountAt accounts c.address).balance ∧
      c.nonce = (accountAt accounts c.address).nonce := by
  rw [committedAccounts, List.mem_map]
  constructor
  · intro ⟨address, haddress, heq⟩
    subst heq
    exact ⟨mem_sortedStrings.1 haddress, rfl, rfl⟩
  · intro ⟨haddress, hbalance, hnonce⟩
    refine ⟨c.address, mem_sortedStrings.2 haddress, ?_⟩
    rw [← hbalance, ← hnonce]

variable {a : Bytes}

theorem accountAt_of_notMem (h : a ∉ accounts.keys) :
    accountAt accounts a = ⟨a, 0, 0⟩ := by
  have hnone : accounts.lookup a = none :=
    Finmap.lookup_eq_none.2 fun hmem => h (Finmap.mem_keys.2 hmem)
  rw [accountAt, hnone]
  rfl

/-- Equal committed accounts have equal balances and nonces. -/
theorem committedAccounts_inj {accounts' : Accounts}
    (h : committedAccounts accounts = committedAccounts accounts')
    (a : Bytes) :
    (accountAt accounts a).balance = (accountAt accounts' a).balance ∧
      (accountAt accounts a).nonce = (accountAt accounts' a).nonce := by
  by_cases ha : a ∈ accounts.keys
  · have hmem : CommittedAccount.mk a (accountAt accounts a).balance
        (accountAt accounts a).nonce ∈ committedAccounts accounts' := by
      rw [← h]
      exact mem_committedAccounts.2 ⟨ha, rfl, rfl⟩
    exact (mem_committedAccounts.1 hmem).2
  · have ha' : a ∉ accounts'.keys := by
      intro ha'
      have hmem : CommittedAccount.mk a (accountAt accounts' a).balance
          (accountAt accounts' a).nonce ∈ committedAccounts accounts := by
        rw [h]
        exact mem_committedAccounts.2 ⟨ha', rfl, rfl⟩
      exact ha (mem_committedAccounts.1 hmem).1
    rw [accountAt_of_notMem ha, accountAt_of_notMem ha']
    exact ⟨rfl, rfl⟩

theorem length_committedValidators (validators : List Validator) :
    (committedValidators validators).length = validators.length := by
  rw [committedValidators, List.length_map, List.length_insertionSort]

/-- The record behind the state root of a snapshot. -/
def committedPayload (chainID : Bytes) (snapshot : Snapshot) :
    CommittedStatePayload where
  accounts := committedAccounts snapshot.accounts
  appliedFundingIDs := sortedStrings snapshot.appliedFundingIDs
  chainID := trimSpace chainID
  domain := stateDomain
  electionConfig :=
    (normalizeValidatorSnapshot snapshot.validatorSnapshot).electionConfig
  validatorSetVersion := snapshot.validatorSnapshot.version
  validators := committedValidators snapshot.validatorSnapshot.validators

/-- The record behind the hash of a block. -/
def Block.canonical (H : Host) (b : Block) : CanonicalBlock where
  chainID := trimSpace b.chainID
  domain := blockDomain
  height := b.height
  previousHash := b.previousHash
  producedAt := H.formatTime b.producedAt
  stateRoot := b.stateRoot
  transactionIDs := b.transactionIDs

theorem Block.computeHash_eq (H : Host) (b : Block) :
    b.computeHash H = H.hexDigest (H.marshalBlock (b.canonical H)) := rfl

theorem stateRootWithFundingIDs_payload {H : Host} {snapshot : Snapshot}
    {chainID root : Bytes}
    (h : stateRootWithFundingIDs H chainID snapshot.accounts
      snapshot.validatorSnapshot snapshot.appliedFundingIDs = .ok root) :
    root = H.hexDigest
      (H.marshalState (committedPayload chainID snapshot)) := by
  simp only [stateRootWithFundingIDs, marshalState, ok_iff] at h
  obtain ⟨-, -, payload, hpayload, rfl⟩ := h
  split at hpayload
  · rw [← Except.ok.inj hpayload]
    simp only [committedPayload, normalizeValidatorSnapshot_version,
      normalizeValidatorSnapshot_validators]
  · cases hpayload

-- ==== blocks

/-- Numbered blocks with their own hashes, each naming the one before. -/
def Linked (H : Host) (count : Nat) (blocks : List Block) : Prop :=
  ∀ i b, blocks[i]? = some b → b.height = count + i + 1 ∧
    b.hash = b.computeHash H ∧
    ∀ b', blocks[i + 1]? = some b' → b'.previousHash = b.hash

variable {H : Host} {A B : Snapshot} {chainID chainID' : Bytes}

theorem validateSnapshotBlocks_linked {count : Nat} {previousHash : Bytes}
    {seen : List Bytes} {blocks : List Block}
    (h : validateSnapshotBlocks H chainID count previousHash seen blocks =
      .ok ()) : Linked H count blocks := by
  induction blocks generalizing count previousHash seen with
  | nil =>
    intro i b hb
    cases hb
  | cons block rest ih =>
    simp only [validateSnapshotBlocks, ok_iff, not_or, not_not] at h
    obtain ⟨-, ⟨hheight, -, -⟩, -, seen', -, hhash, hrest⟩ := h
    intro i b hb
    cases i with
    | zero =>
      obtain rfl := Option.some.inj hb
      refine ⟨hheight, hhash, fun b' hb' => ?_⟩
      -- the next block was checked against this one's hash
      cases rest with
      | nil => cases hb'
      | cons next rest =>
        obtain rfl := Option.some.inj hb'
        simp only [validateSnapshotBlocks, ok_iff, not_or, not_not] at hrest
        exact hrest.2.1.2.1
    | succ i =>
      obtain ⟨hnumber, hown, hnext⟩ := ih hrest i b hb
      exact ⟨by omega, hown, hnext⟩

/-- The records of two snapshots that are hashed to the same digest are
the same. -/
structure NoCollisions (H : Host) (chainID chainID' : Bytes)
    (A B : Snapshot) : Prop where
  state : H.hexDigest (H.marshalState (committedPayload chainID A)) =
      H.hexDigest (H.marshalState (committedPayload chainID' B)) →
    committedPayload chainID A = committedPayload chainID' B
  blocks : ∀ b ∈ A.blocks, ∀ b' ∈ B.blocks,
    H.hexDigest (H.marshalBlock (b.canonical H)) =
        H.hexDigest (H.marshalBlock (b'.canonical H)) →
      b.canonical H = b'.canonical H

theorem Linked.canonical_eq (hA : Linked H 0 A.blocks)
    (hB : Linked H 0 B.blocks) (hcollision : NoCollisions H chainID chainID' A B)
    {i j : Nat} {b b' : Block} (hb : A.blocks[i]? = some b)
    (hb' : B.blocks[j]? = some b') (hhash : b.hash = b'.hash) :
    b.canonical H = b'.canonical H := by
  refine hcollision.blocks b (List.mem_of_getElem? hb) b'
    (List.mem_of_getElem? hb') ?_
  rw [← Block.computeHash_eq, ← Block.computeHash_eq, ← (hA i b hb).2.1,
    ← (hB j b' hb').2.1]
  exact hhash

/-- Chains of one length whose last blocks have one hash have one hash at
every height: from the last block down along the previous hashes. -/
theorem Linked.hash_eq (hA : Linked H 0 A.blocks) (hB : Linked H 0 B.blocks)
    (hcollision : NoCollisions H chainID chainID' A B)
    {d : Nat} : ∀ {i : Nat} {last last' : Block},
      A.blocks[i + d]? = some last → B.blocks[i + d]? = some last' →
      last.hash = last'.hash →
      ∀ {b b' : Block}, A.blocks[i]? = some b → B.blocks[i]? = some b' →
        b.hash = b'.hash := by
  induction d with
  | zero =>
    intro i last last' hlast hlast' hhash b b' hb hb'
    rw [Nat.add_zero, hb] at hlast
    rw [Nat.add_zero, hb'] at hlast'
    rw [Option.some.inj hlast, Option.some.inj hlast']
    exact hhash
  | succ d ih =>
    intro i last last' hlast hlast' hhash b b' hb hb'
    have hi : i + 1 < A.blocks.length := by
      have := (List.getElem?_eq_some_iff.1 hlast).1
      omega
    have hi' : i + 1 < B.blocks.length := by
      have := (List.getElem?_eq_some_iff.1 hlast').1
      omega
    have hnext := List.getElem?_eq_getElem hi
    have hnext' := List.getElem?_eq_getElem hi'
    have hshift : i + (d + 1) = i + 1 + d := by omega
    rw [hshift] at hlast hlast'
    have hsame := hA.canonical_eq hB hcollision hnext hnext'
      (ih hlast hlast' hhash hnext hnext')
    rw [← (hA i b hb).2.2 _ hnext, ← (hB i b' hb').2.2 _ hnext']
    exact congrArg CanonicalBlock.previousHash hsame

-- ==== accepted

/-- What the checks on an accepted snapshot say. -/
structure Accepted (H : Host) (chainID : Bytes) (snapshot : Snapshot)
    (latest : Block) : Prop where
  last : snapshot.blocks.getLast? = some latest
  linked : Linked H 0 snapshot.blocks
  root : latest.stateRoot = H.hexDigest
    (H.marshalState (committedPayload chainID snapshot))

theorem trimSpace_committedPayload (chainID : Bytes) (snapshot : Snapshot) :
    committedPayload (trimSpace chainID) snapshot =
      committedPayload chainID snapshot := by
  simp only [committedPayload, trimSpace_trimSpace]

variable {latest : Block}

theorem accepted_of_state
    (h : validateSnapshotCommittedState H A chainID = .ok latest) :
    Accepted H chainID A latest := by
  obtain ⟨-, hlast, hblocks, hroot, -⟩ :=
    validateSnapshotCommittedState_eq_ok h
  refine ⟨hlast, validateSnapshotBlocks_linked hblocks, ?_⟩
  rw [stateRootWithFundingIDs_payload hroot, trimSpace_committedPayload]

theorem Accepted.index (h : Accepted H chainID A latest) :
    ∃ n, A.blocks.length = n + 1 ∧ A.blocks[n]? = some latest := by
  have hne : A.blocks ≠ [] := by
    intro hnil
    have hlast := h.last
    rw [hnil] at hlast
    cases hlast
  have hlen := List.length_pos_iff.2 hne
  refine ⟨A.blocks.length - 1, by omega, ?_⟩
  rw [← List.getLast?_eq_getElem?]
  exact h.last

/-- What two accepted snapshots with one last hash have in common. -/
structure SameChain (H : Host) (A B : Snapshot) : Prop where
  length : A.blocks.length = B.blocks.length
  blocks : ∀ {i : Nat} {b b' : Block}, A.blocks[i]? = some b →
    B.blocks[i]? = some b' → b.hash = b'.hash ∧
      b.canonical H = b'.canonical H

theorem Accepted.sameChain {latest' : Block}
    (hA : Accepted H chainID A latest)
    (hB : Accepted H chainID' B latest')
    (hcollision : NoCollisions H chainID chainID' A B)
    (hhash : latest.hash = latest'.hash) : SameChain H A B := by
  obtain ⟨n, hn, hlast⟩ := hA.index
  obtain ⟨m, hm, hlast'⟩ := hB.index
  have hcanonical := hA.linked.canonical_eq hB.linked hcollision hlast hlast'
    hhash
  have hheight : latest.height = latest'.height :=
    congrArg CanonicalBlock.height hcanonical
  rw [(hA.linked n latest hlast).1, (hB.linked m latest' hlast').1] at hheight
  have hnm : n = m := by omega
  subst hnm
  refine ⟨by rw [hn, hm], fun {i b b'} hb hb' => ?_⟩
  have hi := (List.getElem?_eq_some_iff.1 hb).1
  have hsplit : i + (n - i) = n := by omega
  have hsame : b.hash = b'.hash := hA.linked.hash_eq hB.linked hcollision
    (hsplit.symm ▸ hlast) (hsplit.symm ▸ hlast') hhash hb hb'
  exact ⟨hsame, hA.linked.canonical_eq hB.linked hcollision hb hb' hsame⟩

theorem SameChain.map_eq {β : Type} (h : SameChain H A B) (f : Block → β)
    (hf : ∀ b b', b.hash = b'.hash → b.canonical H = b'.canonical H →
      f b = f b') : A.blocks.map f = B.blocks.map f := by
  refine List.ext_getElem (by simp [h.length]) fun i hi hi' => ?_
  rw [List.getElem_map, List.getElem_map]
  rw [List.length_map] at hi hi'
  obtain ⟨hhash, hcanonical⟩ := h.blocks (List.getElem?_eq_getElem hi)
    (List.getElem?_eq_getElem hi')
  exact hf _ _ hhash hcanonical

/-- The last block's state root commits one state. -/
theorem Accepted.samePayload {latest' : Block}
    (hA : Accepted H chainID A latest)
    (hB : Accepted H chainID' B latest')
    (hcollision : NoCollisions H chainID chainID' A B)
    (hhash : latest.hash = latest'.hash) :
    committedPayload chainID A = committedPayload chainID' B := by
  obtain ⟨n, -, hlast⟩ := hA.index
  obtain ⟨m, -, hlast'⟩ := hB.index
  have hcanonical := hA.linked.canonical_eq hB.linked hcollision hlast hlast'
    hhash
  have hroot : latest.stateRoot = latest'.stateRoot :=
    congrArg CanonicalBlock.stateRoot hcanonical
  rw [hA.root, hB.root] at hroot
  exact hcollision.state hroot

-- ==== schedule

/-- The members at every 64-bit index have the same addresses. -/
def SameOrder (validators validators' : List Validator) : Prop :=
  ∀ i < 2 ^ 64, validators[i]?.map Validator.address =
    validators'[i]?.map Validator.address

/-- Lists of one length give one schedule exactly when they have one
order. -/
theorem schedule_eq_iff {validators validators' : List Validator}
    (hlen : validators.length = validators'.length) :
    (∀ height round, proposerForHeightRound validators height round =
        proposerForHeightRound validators' height round) ↔
      SameOrder validators validators' := by
  constructor
  · intro h i hi
    by_cases hin : i < validators.length
    · have hturn := h (i + 1) 0
      have hne : ¬ (validators.length = 0 ∨ i + 1 = 0) := by omega
      have hindex : (i + 1 - 1 + (0 : UInt64).toNat) % 2 ^ 64 %
          validators.length = i := by
        rw [UInt64.toNat_zero, Nat.add_sub_cancel, Nat.add_zero,
          Nat.mod_eq_of_lt hi, Nat.mod_eq_of_lt hin]
      simp only [proposerForHeightRound, if_neg hne, ← hlen, hindex] at hturn
      rw [List.getElem?_eq_getElem hin,
        List.getElem?_eq_getElem (hlen ▸ hin)] at hturn ⊢
      exact congrArg some hturn
    · rw [List.getElem?_eq_none (Nat.not_lt.1 hin),
        List.getElem?_eq_none (hlen ▸ Nat.not_lt.1 hin)]
  · intro h height round
    unfold proposerForHeightRound
    rw [hlen]
    by_cases hempty : validators'.length = 0 ∨ height = 0
    · rw [if_pos hempty, if_pos hempty]
    · rw [if_neg hempty, if_neg hempty]
      dsimp only
      rw [h _ (Nat.lt_of_le_of_lt (Nat.mod_le _ _) (Nat.mod_lt _ (by decide)))]

-- ==== signers

/-- Distinct trusted members with more than two thirds of the exact power
have signed the last block and the validator-set version. -/
def QuorumSigned (H : Host) (snapshot : Snapshot) (chainID : Bytes)
    (proofs : List SnapshotProof) (trusted : ValidatorSnapshot) : Prop :=
  ∃ signers : List Bytes, signers.Nodup ∧
    (∀ a ∈ signers, (∃ v ∈ trusted.validators, v.address = a) ∧
      ∃ proof ∈ proofs, proof.signer = a ∧
        ∃ latest, SignedSnapshot H snapshot chainID proof latest) ∧
    2 * exactTotal trusted.validators < 3 * exactPower trusted signers

/-- The trusted members in whose names there is a valid proof. -/
def validSigners (H : Host) (snapshot : Snapshot) (chainID : Bytes)
    (proofs : List SnapshotProof) (trusted : ValidatorSnapshot) :
    List Bytes :=
  ((proofs.filter fun proof => (validateSnapshotProof H snapshot chainID proof
    trusted).isOk).map SnapshotProof.signer).dedup

variable {proofs : List SnapshotProof} {trusted : ValidatorSnapshot}
  {store store' t t' : PersistedState}

theorem validatorVotingPower_isSome
    (h : ∃ v ∈ trusted.validators, v.address = a) :
    ∃ power, validatorVotingPower trusted a = some power := by
  obtain ⟨v, hv, rfl⟩ := h
  rw [validatorVotingPower, normalizeValidatorSnapshot_validators]
  cases hfind : trusted.validators.find? fun w => w.address = v.address with
  | none =>
    have hnone := List.find?_eq_none.1 hfind v hv
    exact absurd (decide_eq_true rfl) hnone
  | some w => exact ⟨w.votingPower, rfl⟩

theorem mem_validSigners :
    a ∈ validSigners H A chainID proofs trusted ↔
      (∃ v ∈ trusted.validators, v.address = a) ∧
        ∃ proof ∈ proofs, proof.signer = a ∧
          ∃ latest, SignedSnapshot H A chainID proof latest := by
  rw [validSigners, List.mem_dedup, List.mem_map]
  constructor
  · intro ⟨proof, hproof, hsigner⟩
    obtain ⟨hmem, hok⟩ := List.mem_filter.1 hproof
    cases hvalid : validateSnapshotProof H A chainID proof trusted with
    | error e =>
      rw [hvalid] at hok
      cases hok
    | ok power =>
      obtain ⟨hpower, hsigned⟩ := validateSnapshotProof_eq_ok.1 hvalid
      refine ⟨?_, proof, hmem, hsigner, hsigned⟩
      rw [← hsigner]
      exact exists_of_validatorVotingPower hpower
  · intro ⟨hmember, proof, hproof, hsigner, hsigned⟩
    obtain ⟨power, hpower⟩ := validatorVotingPower_isSome hmember
    refine ⟨proof, List.mem_filter.2 ⟨hproof, ?_⟩, hsigner⟩
    rw [validateSnapshotProof_eq_ok.2 ⟨hsigner.symm ▸ hpower, hsigned⟩]
    rfl

theorem exactPower_mono (trusted : ValidatorSnapshot) {xs ys : List Bytes}
    (hx : xs.Nodup) (hy : ys.Nodup)
    (hsub : xs ⊆ ys) : exactPower trusted xs ≤ exactPower trusted ys := by
  rw [exactPower_eq_sum hx, exactPower_eq_sum hy]
  refine Finset.sum_le_sum_of_subset fun a ha => ?_
  exact List.mem_toFinset.2 (hsub (List.mem_toFinset.1 ha))

/-- The signers the quorum loop has counted. -/
theorem counted_of_quorum
    (h : validateSnapshotQuorum H A chainID proofs trusted = .ok ())
    (hfits : exactTotal trusted.validators < 2 ^ 64) :
    QuorumSigned H A chainID proofs trusted := by
  obtain ⟨hquorum, counted, hcounted, hreached⟩ :=
    validateSnapshotQuorum_eq_ok h
  refine ⟨counted.1, hcounted.distinct, fun a ha => ?_,
    quorum_exceeds hfits hquorum hreached⟩
  obtain ⟨proof, hproof, hsigner, ⟨power, hpower⟩, hsigned⟩ :=
    hcounted.signed a ha
  exact ⟨exists_of_validatorVotingPower hpower, proof, hproof, hsigner,
    hsigned⟩

theorem quorumSigned_iff
    (h : validateSnapshotQuorum H A chainID proofs trusted = .ok ()) :
    QuorumSigned H A chainID proofs trusted ↔
      exactTotal trusted.validators < 2 ^ 64 ∨
        2 * exactTotal trusted.validators < 3 * exactPower trusted
          (validSigners H A chainID proofs trusted) := by
  constructor
  · intro ⟨signers, hnodup, hsigned, hpower⟩
    right
    have hmono := exactPower_mono trusted hnodup
      (List.nodup_dedup _) fun a ha => mem_validSigners.2 (hsigned a ha)
    unfold validSigners
    omega
  · intro hcases
    rcases hcases with hfits | hpower
    · exact counted_of_quorum h hfits
    · exact ⟨_, List.nodup_dedup _, fun a ha => mem_validSigners.1 ha, hpower⟩

/-- When each signer has one proof, the quorums of two snapshots share a
proof, and both end in the block it names. -/
theorem latestHash_eq_of_quorums
    (hA : validateSnapshotQuorum H A chainID proofs trusted = .ok ())
    (hB : validateSnapshotQuorum H B chainID' proofs trusted = .ok ())
    (hfits : exactTotal trusted.validators < 2 ^ 64)
    (hdistinct : (proofs.map SnapshotProof.signer).Nodup) :
    latestHash A.blocks = latestHash B.blocks := by
  obtain ⟨xs, hx, hxs, hpower⟩ := counted_of_quorum hA hfits
  obtain ⟨ys, hy, hys, hpower'⟩ := counted_of_quorum hB hfits
  have hcommon := quorum_intersection hx hy hpower hpower'
  have hnonempty : (xs.toFinset ∩ ys.toFinset).Nonempty := by
    by_contra hempty
    rw [Finset.not_nonempty_iff_eq_empty.1 hempty, Finset.sum_empty] at hcommon
    omega
  obtain ⟨a, ha⟩ := hnonempty
  obtain ⟨hax, hay⟩ := Finset.mem_inter.1 ha
  obtain ⟨-, proof, hproof, hsigner, latest, hsigned⟩ :=
    hxs a (List.mem_toFinset.1 hax)
  obtain ⟨-, proof', hproof', hsigner', latest', hsigned'⟩ :=
    hys a (List.mem_toFinset.1 hay)
  obtain rfl : proof = proof' := List.inj_on_of_nodup_map hdistinct hproof
    hproof' (hsigner.trans hsigner'.symm)
  have hlast := (accepted_of_state hsigned.state).last
  have hlast' := (accepted_of_state hsigned'.state).last
  rw [latestHash, hlast, latestHash, hlast']
  exact hsigned.blockHash.symm.trans hsigned'.blockHash

-- ==== binding

/-- Two stores that agree on what a restored node relies on. -/
structure SameInstalled (t t' : PersistedState) : Prop where
  accounts : ∀ a,
    (accountAt t.accounts a).balance = (accountAt t'.accounts a).balance ∧
      (accountAt t.accounts a).nonce = (accountAt t'.accounts a).nonce
  funding : t.appliedFundingIDs = t'.appliedFundingIDs
  hashes : t.blocks.map Block.hash = t'.blocks.map Block.hash
  committed : t.committedTransactionIDs = t'.committedTransactionIDs
  proposers : ∀ height round,
    proposerForHeightRound t.validatorSnapshot.validators height round =
      proposerForHeightRound t'.validatorSnapshot.validators height round

theorem restoreQuorumSnapshot_eq_ok :
    restoreQuorumSnapshot H store A chainID proofs trusted = .ok t ↔
      validateSnapshotQuorum H A chainID proofs trusted = .ok () ∧
        A.chainID = store.chainID ∧ t = installedState A := by
  simp only [restoreQuorumSnapshot, ok_iff, not_not, eq_comm (a := t)]

theorem installedState_validators (snapshot : Snapshot) :
    (installedState snapshot).validatorSnapshot.validators =
      snapshot.validatorSnapshot.validators := by
  rw [installedState, normalizeState_validatorSnapshot,
    normalizeValidatorSnapshot_validators]

theorem latestHash_eq_getLast (blocks : List Block) :
    latestHash blocks = ((blocks.map Block.hash).getLast?).getD [] := by
  rw [latestHash, List.getLast?_map]

theorem Accepted.latestHash (h : Accepted H chainID A latest) :
    Ledger.latestHash A.blocks = latest.hash := by
  rw [Ledger.latestHash, h.last]
  rfl

theorem Accepted.sameInstalled_iff {latest' : Block}
    (hA : Accepted H chainID A latest)
    (hB : Accepted H chainID' B latest')
    (hcollision : NoCollisions H chainID chainID' A B) :
    SameInstalled (installedState A) (installedState B) ↔
      Ledger.latestHash A.blocks = Ledger.latestHash B.blocks ∧
        SameOrder A.validatorSnapshot.validators
          B.validatorSnapshot.validators := by
  -- in both directions the last blocks have one hash, and with it the
  -- committed states are one
  have hlength : Ledger.latestHash A.blocks = Ledger.latestHash B.blocks →
      A.validatorSnapshot.validators.length =
        B.validatorSnapshot.validators.length := by
    intro htip
    rw [hA.latestHash, hB.latestHash] at htip
    have hpayload := hA.samePayload hB hcollision htip
    have hvalidators := congrArg
      (fun p => p.validators.length) hpayload
    simp only [committedPayload, length_committedValidators] at hvalidators
    exact hvalidators
  constructor
  · intro h
    have htip : Ledger.latestHash A.blocks = Ledger.latestHash B.blocks := by
      rw [latestHash_eq_getLast, latestHash_eq_getLast]
      exact congrArg (fun hashes => hashes.getLast?.getD []) h.hashes
    refine ⟨htip, (schedule_eq_iff (hlength htip)).1 ?_⟩
    have hproposers := h.proposers
    rw [installedState_validators, installedState_validators] at hproposers
    exact hproposers
  · intro ⟨htip, horder⟩
    have hproposers := (schedule_eq_iff (hlength htip)).2 horder
    rw [hA.latestHash, hB.latestHash] at htip
    have hpayload := hA.samePayload hB hcollision htip
    have hchain := hA.sameChain hB hcollision htip
    refine ⟨committedAccounts_inj (congrArg CommittedStatePayload.accounts
      hpayload), sortedStrings_inj (congrArg
      CommittedStatePayload.appliedFundingIDs hpayload),
      hchain.map_eq Block.hash fun _ _ hhash _ => hhash, ?_, ?_⟩
    · have hids := hchain.map_eq Block.transactionIDs fun _ _ _ hcanonical =>
        congrArg CanonicalBlock.transactionIDs hcanonical
      show committedIDsFromBlocks A.blocks = committedIDsFromBlocks B.blocks
      rw [committedIDsFromBlocks, committedIDsFromBlocks, List.flatMap_def,
        List.flatMap_def, hids]
    · rw [installedState_validators, installedState_validators]
      exact hproposers

/-- When the three promises of a quorum snapshot hold. -/
theorem snapshots_binding
    (hA : restoreQuorumSnapshot H store A chainID proofs trusted = .ok t)
    (hB : restoreQuorumSnapshot H store' B chainID' proofs trusted = .ok t')
    (hcollision : NoCollisions H chainID chainID' A B) :
    (QuorumSigned H A chainID proofs trusted ↔
        exactTotal trusted.validators < 2 ^ 64 ∨
          2 * exactTotal trusted.validators < 3 * exactPower trusted
            (validSigners H A chainID proofs trusted)) ∧
      (store.blocks.length ≤ t.blocks.length ↔
        store.blocks.length ≤ A.blocks.length) ∧
      (SameInstalled t t' ↔
        latestHash A.blocks = latestHash B.blocks ∧
          SameOrder A.validatorSnapshot.validators
            B.validatorSnapshot.validators) ∧
      (exactTotal trusted.validators < 2 ^ 64 →
        (proofs.map SnapshotProof.signer).Nodup →
        latestHash A.blocks = latestHash B.blocks) := by
  obtain ⟨hquorum, -, rfl⟩ := restoreQuorumSnapshot_eq_ok.1 hA
  obtain ⟨hquorum', -, rfl⟩ := restoreQuorumSnapshot_eq_ok.1 hB
  obtain ⟨latest, hstate⟩ := validateSnapshotQuorum_state hquorum
  obtain ⟨latest', hstate'⟩ := validateSnapshotQuorum_state hquorum'
  exact ⟨quorumSigned_iff hquorum, Iff.rfl,
    (accepted_of_state hstate).sameInstalled_iff (accepted_of_state hstate')
      hcollision, latestHash_eq_of_quorums hquorum hquorum'⟩

-- ==== samples

/-- A proof of a snapshot without its payload. -/
def unsignedProof (signer : UInt8) (snapshot : Snapshot) :
    SnapshotProof where
  blockHash := latestHash snapshot.blocks
  chainID := sampleChain
  domain := snapshotDomain
  height := snapshot.blocks.length
  payload := []
  publicKey := [signer]
  signature := sampleSignature
  signer := sampleAddress signer
  stateCommitment := (snapshot.blocks.getLast?.map Block.stateRoot).getD []
  validatorSetVersion := snapshot.validatorSnapshot.version

def sampleProof (signer : UInt8) (snapshot : Snapshot) : SnapshotProof :=
  { unsignedProof signer snapshot with
    payload := (unsignedProof signer snapshot).canonicalPayload sampleHost }

/-- Members with the keys 2 and 3 and some power each. -/
def twoMembers (power : UInt64) : List Validator :=
  [⟨1, sampleAddress 2, power, 0, 0, 0⟩, ⟨2, sampleAddress 3, power, 0, 0, 0⟩]

def trustedMembers (validators : List Validator) : ValidatorSnapshot :=
  ⟨validators, ⟨0, 0, 0⟩, 1, none⟩

/-- A store with one block, and with a second one. -/
def oneBlock : Snapshot :=
  (sampleRun (openingOps (twoMembers 10) ++
    [.produceBlock 0 5 false])).store

def twoBlocks : PersistedState :=
  (sampleRun (openingOps (twoMembers 10) ++ [.produceBlock 0 5 false,
    .accept (sampleEnvelope 1 3 2 2), .produceBlock 0 6 false])).store

/-- The snapshot with its members in another order. -/
def reordered (snapshot : Snapshot) : Snapshot :=
  { snapshot with
    validatorSnapshot := { snapshot.validatorSnapshot with
      validators := snapshot.validatorSnapshot.validators.reverse } }

/-- Three members whose powers do not fit in 64 bits together. -/
def heavyMembers : List Validator :=
  twoMembers (UInt64.ofNat (2 ^ 64 - 1)) ++
    [⟨3, sampleAddress 4, UInt64.ofNat (2 ^ 64 - 1), 0, 0, 0⟩]

def bothProofs : List SnapshotProof :=
  [sampleProof 2 oneBlock, sampleProof 3 oneBlock]

theorem oneBlock_restores (store : PersistedState)
    (hchain : store.chainID = sampleChain) :
    restoreQuorumSnapshot sampleHost store oneBlock sampleChain bothProofs
      (trustedMembers (twoMembers 10)) = .ok (installedState oneBlock) :=
  restoreQuorumSnapshot_eq_ok.2 ⟨by decide +kernel,
    (show oneBlock.chainID = sampleChain by decide +kernel).trans hchain.symm,
    rfl⟩

theorem reordered_noCollisions :
    NoCollisions sampleHost sampleChain sampleChain oneBlock
      (reordered oneBlock) :=
  ⟨by decide +kernel, by decide +kernel⟩

theorem oneBlock_binding :
    QuorumSigned sampleHost oneBlock sampleChain bothProofs
      (trustedMembers (twoMembers 10)) := by
  have hsame : NoCollisions sampleHost sampleChain sampleChain oneBlock
      oneBlock := ⟨by decide +kernel, by decide +kernel⟩
  exact (snapshots_binding
    (oneBlock_restores (emptyState sampleChain) rfl)
    (oneBlock_restores (emptyState sampleChain) rfl) hsame).1.2
      (.inl (by decide +kernel))

/-- The members of a snapshot can be put in another order under the same
proofs, which changes the next proposer; a store with two blocks takes a
snapshot with one; and one of three equal members restores a snapshot
alone when the powers overflow. -/
theorem restore_not_binding :
    (restoreQuorumSnapshot sampleHost (emptyState sampleChain) oneBlock
          sampleChain bothProofs (trustedMembers (twoMembers 10)) =
        .ok (installedState oneBlock) ∧
      restoreQuorumSnapshot sampleHost (emptyState sampleChain)
          (reordered oneBlock) sampleChain bothProofs
          (trustedMembers (twoMembers 10)) =
        .ok (installedState (reordered oneBlock)) ∧
      NoCollisions sampleHost sampleChain sampleChain oneBlock
        (reordered oneBlock) ∧
      proposerForHeightRound
          (installedState oneBlock).validatorSnapshot.validators 2 0 ≠
        proposerForHeightRound
          (installedState (reordered oneBlock)).validatorSnapshot.validators
          2 0) ∧
    (restoreQuorumSnapshot sampleHost twoBlocks oneBlock sampleChain
          bothProofs (trustedMembers (twoMembers 10)) =
        .ok (installedState oneBlock) ∧
      (installedState oneBlock).blocks.length < twoBlocks.blocks.length) ∧
    restoreQuorumSnapshot sampleHost (emptyState sampleChain) oneBlock
        sampleChain [sampleProof 2 oneBlock] (trustedMembers heavyMembers) =
      .ok (installedState oneBlock) ∧
    ¬ QuorumSigned sampleHost oneBlock sampleChain [sampleProof 2 oneBlock]
      (trustedMembers heavyMembers) := by
  have hheavy : restoreQuorumSnapshot sampleHost (emptyState sampleChain)
      oneBlock sampleChain [sampleProof 2 oneBlock]
      (trustedMembers heavyMembers) = .ok (installedState oneBlock) :=
    restoreQuorumSnapshot_eq_ok.2 ⟨by decide +kernel, by decide +kernel, rfl⟩
  refine ⟨⟨oneBlock_restores _ rfl, ?_, reordered_noCollisions,
    by decide +kernel⟩, ⟨oneBlock_restores _ (by decide +kernel),
    by decide +kernel⟩, hheavy, ?_⟩
  · exact restoreQuorumSnapshot_eq_ok.2
      ⟨by decide +kernel, by decide +kernel, rfl⟩
  · rw [quorumSigned_iff (restoreQuorumSnapshot_eq_ok.1 hheavy).1]
    decide +kernel

end ZephyrChain.Ledger
