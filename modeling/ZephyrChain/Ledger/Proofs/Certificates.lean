/-
What a stored certificate stands for. In every run its voters are
distinct members of the current set, each has a stored vote for exactly
its height, round and block hash, and their exact power is more than two
thirds of the exact total (`CertificateSound`); two certificates of one
height and round name the same block, since their voters have a member in
common and a member has one stored vote per round.

# Where the invariant comes from

Certificates are made on two paths. A recorded vote counts the stored
votes with a saturating sum, which can only undercount; a block with
evidence counts stored and supplied votes with a guarded one and merges
the supplied votes into the store. Both keep one vote per voter, height
and round (`DistinctVotes`).

# The scheduled proposer

The paths that require consensus compare the proposer with the schedule
only when the scheduled address is not empty, while the path with
evidence refuses an empty one. So a block they append has a proposal of
its scheduled proposer when the members have addresses
(`certificates_mean_quorum`), and with an empty address in the list it
need not (`unscheduledBlock_appended`).
-/
import ZephyrChain.Ledger.Proofs.ConsensusSteps
import ZephyrChain.Ledger.Sample

namespace ZephyrChain.Ledger

open Lib

-- ==== distinct votes

/-- Two votes of one voter at one height and round. -/
def VoteRecord.SameSlot (r r' : VoteRecord) : Prop :=
  r.vote.height = r'.vote.height ∧ r.vote.round = r'.vote.round ∧
    r.vote.voter = r'.vote.voter

def DistinctVotes (votes : List VoteRecord) : Prop :=
  votes.Pairwise fun r r' => ¬ r.SameSlot r'

variable {r : VoteRecord}

theorem VoteRecord.SameSlot.symm {r' : VoteRecord} (h : r.SameSlot r') :
    r'.SameSlot r :=
  ⟨h.1.symm, h.2.1.symm, h.2.2.symm⟩

variable {votes : List VoteRecord}

theorem DistinctVotes.eq (h : DistinctVotes votes) {r' : VoteRecord}
    (hr : r ∈ votes) (hr' : r' ∈ votes) (hslot : r.SameSlot r') :
    r = r' := by
  by_contra hne
  have hsymm : Std.Symm fun r r' : VoteRecord => ¬ r.SameSlot r' :=
    ⟨fun _ _ hnot hslot => hnot hslot.symm⟩
  exact List.Pairwise.forall h hr hr' hne hslot

theorem findVoteByValidator_eq_none :
    findVoteByValidator votes r.vote.height r.vote.round r.vote.voter = none ↔
      ∀ r' ∈ votes, ¬ r'.SameSlot r := by
  simp only [findVoteByValidator, Option.map_eq_none_iff,
    List.find?_eq_none, decide_eq_true_iff, VoteRecord.SameSlot]

theorem DistinctVotes.find (h : DistinctVotes votes) (hr : r ∈ votes) :
    findVoteByValidator votes r.vote.height r.vote.round r.vote.voter =
      some r.vote := by
  cases hfind : votes.find? fun r' => r'.vote.height = r.vote.height ∧
      r'.vote.round = r.vote.round ∧ r'.vote.voter = r.vote.voter with
  | none =>
    have hnone := List.find?_eq_none.1 hfind r hr
    exact absurd (decide_eq_true ⟨rfl, rfl, rfl⟩) hnone
  | some r' =>
    have hfound := List.find?_some hfind
    have hslot := of_decide_eq_true hfound
    rw [findVoteByValidator, hfind,
      h.eq (List.mem_of_find?_eq_some hfind) hr hslot]
    rfl

theorem DistinctVotes.append (h : DistinctVotes votes)
    (hfresh : findVoteByValidator votes r.vote.height r.vote.round
      r.vote.voter = none) : DistinctVotes (votes ++ [r]) := by
  refine List.pairwise_append.2 ⟨h, List.pairwise_singleton _ _, ?_⟩
  intro r' hr' r'' hr''
  rw [List.mem_singleton.1 hr'']
  exact findVoteByValidator_eq_none.1 hfresh r' hr'

-- ==== merging

theorem mergeVotes_cons (votes : List VoteRecord) (r : VoteRecord)
    (rest : List VoteRecord) :
    mergeVotes votes (r :: rest) = mergeVotes
      (if findVoteByValidator votes r.vote.height r.vote.round
        r.vote.voter = none then votes ++ [r] else votes) rest := rfl

variable {validated : List VoteRecord}

theorem mem_mergeVotes (h : r ∈ mergeVotes votes validated) :
    r ∈ votes ∨ r ∈ validated := by
  induction validated generalizing votes with
  | nil => exact .inl h
  | cons r' rest ih =>
    rw [mergeVotes_cons] at h
    rcases ih h with hold | hrest
    · split at hold
      · rcases List.mem_append.1 hold with hold | hadded
        · exact .inl hold
        · exact .inr (List.mem_singleton.1 hadded ▸ List.mem_cons_self)
      · exact .inl hold
    · exact .inr (List.mem_cons_of_mem _ hrest)

theorem subset_mergeVotes (votes validated : List VoteRecord) :
    votes ⊆ mergeVotes votes validated := by
  induction validated generalizing votes with
  | nil => exact List.Subset.refl votes
  | cons r rest ih =>
    rw [mergeVotes_cons]
    refine List.Subset.trans ?_ (ih _)
    split
    · exact List.subset_append_left votes [r]
    · exact List.Subset.refl votes

theorem DistinctVotes.merge (h : DistinctVotes votes)
    (validated : List VoteRecord) :
    DistinctVotes (mergeVotes votes validated) := by
  induction validated generalizing votes with
  | nil => exact h
  | cons r rest ih =>
    rw [mergeVotes_cons]
    split
    case isTrue hfresh => exact ih (h.append hfresh)
    case isFalse => exact ih h

/-- A supplied vote is stored, or its voter had one in that round. -/
theorem mergeVotes_slot (votes : List VoteRecord) (h : r ∈ validated) :
    ∃ r' ∈ mergeVotes votes validated, r'.SameSlot r := by
  induction validated generalizing votes with
  | nil => cases h
  | cons r' rest ih =>
    rw [mergeVotes_cons]
    rcases List.mem_cons.1 h with rfl | hrest
    · by_cases hfresh : findVoteByValidator votes r.vote.height r.vote.round
          r.vote.voter = none
      · rw [if_pos hfresh]
        exact ⟨r, subset_mergeVotes _ rest (by simp), rfl, rfl, rfl⟩
      · rw [if_neg hfresh]
        rw [findVoteByValidator_eq_none] at hfresh
        push Not at hfresh
        obtain ⟨r', hr', hslot⟩ := hfresh
        exact ⟨r', subset_mergeVotes votes rest hr', hslot⟩
    · exact ih _ hrest

-- ==== soundness

/-- The proposals are signed, and by the scheduled proposer wherever the
schedule names one. -/
def ProposalsSound (H : Host) (s : PersistedState) : Prop :=
  ∀ p ∈ s.proposals, p.validateForChain H s.chainID = .ok () ∧
    (proposerForHeightRound s.validatorSnapshot.validators p.height
        p.round ≠ [] →
      p.proposer = proposerForHeightRound s.validatorSnapshot.validators
        p.height p.round)

/-- The votes are signed by members, one for a voter and round, and are
stored with the member's power. -/
structure VotesSound (H : Host) (s : PersistedState) : Prop where
  valid : ∀ r ∈ s.votes, r.vote.validateForChain H s.chainID = .ok ()
  member : ∀ r ∈ s.votes, validatorVotingPower s.validatorSnapshot
    r.vote.voter = some r.votingPower
  distinct : DistinctVotes s.votes

/-- A vote for the height, round and block hash of a certificate. -/
def Vote.certifies (v : Vote) (c : CommitCertificate) : Prop :=
  v.height = c.height ∧ v.round = c.round ∧ v.blockHash = c.blockHash

structure CertificateSound (H : Host) (s : PersistedState)
    (c : CommitCertificate) : Prop where
  distinct : c.voters.Nodup
  members : ∀ a ∈ c.voters,
    ∃ v ∈ s.validatorSnapshot.validators, v.address = a
  voted : ∀ a ∈ c.voters, ∃ r ∈ s.votes, r.vote.voter = a ∧
    r.vote.certifies c ∧ r.vote.validateForChain H s.chainID = .ok ()
  quorum : 2 * exactTotal s.validatorSnapshot.validators <
    3 * exactPower s.validatorSnapshot c.voters

/-- A stored proposal for the block of a certificate. -/
def CommitCertificate.Proposed (c : CommitCertificate)
    (proposals : List Proposal) : Prop :=
  ∃ p ∈ proposals, p.height = c.height ∧ p.round = c.round ∧
    p.blockHash = c.blockHash

structure Certified (H : Host) (s : PersistedState) : Prop where
  fits : exactTotal s.validatorSnapshot.validators < 2 ^ 64
  proposals : ProposalsSound H s
  votes : VotesSound H s
  certificates : ∀ c ∈ s.commitCertificates,
    CertificateSound H s c ∧ c.Proposed s.proposals

variable {H : Host} {s t : PersistedState} {now : Time}

theorem validatorVotingPower_congr {v w : ValidatorSnapshot}
    (h : w.validators = v.validators) (a : Bytes) :
    validatorVotingPower w a = validatorVotingPower v a := by
  simp only [validatorVotingPower, normalizeValidatorSnapshot_validators, h]

theorem exactPower_congr {v w : ValidatorSnapshot}
    (h : w.validators = v.validators) (addresses : List Bytes) :
    exactPower w addresses = exactPower v addresses := by
  unfold exactPower
  refine congrArg List.sum (List.map_congr_left fun a _ => ?_)
  rw [powerOf, powerOf, validatorVotingPower_congr h]

variable {a : Bytes}

theorem exists_of_validatorVotingPower {v : ValidatorSnapshot}
    {power : UInt64} (h : validatorVotingPower v a = some power) :
    ∃ w ∈ v.validators, w.address = a := by
  rw [validatorVotingPower, normalizeValidatorSnapshot_validators,
    Option.map_eq_some_iff] at h
  obtain ⟨w, hfind, -⟩ := h
  have hfound := List.find?_some hfind
  exact ⟨w, List.mem_of_find?_eq_some hfind, of_decide_eq_true hfound⟩

variable {c : CommitCertificate}

/-- More votes do not take the voters from a certificate. -/
theorem CertificateSound.mono (h : CertificateSound H s c)
    (hchain : t.chainID = s.chainID)
    (hvalidators : t.validatorSnapshot.validators =
      s.validatorSnapshot.validators) (hvotes : s.votes ⊆ t.votes) :
    CertificateSound H t c := by
  refine ⟨h.distinct, ?_, fun a ha => ?_, ?_⟩
  · rw [hvalidators]
    exact h.members
  · obtain ⟨r, hr, hvoter, hcertifies, hvalid⟩ := h.voted a ha
    exact ⟨r, hvotes hr, hvoter, hcertifies, hchain ▸ hvalid⟩
  · rw [hvalidators, exactPower_congr hvalidators]
    exact h.quorum

theorem VotesSound.of_eq (h : VotesSound H s) (hchain : t.chainID = s.chainID)
    (hvalidators : t.validatorSnapshot.validators =
      s.validatorSnapshot.validators) (hvotes : t.votes = s.votes) :
    VotesSound H t := by
  refine ⟨?_, ?_, hvotes ▸ h.distinct⟩
  · rw [hvotes, hchain]
    exact h.valid
  · intro r hr
    rw [validatorVotingPower_congr hvalidators]
    exact h.member r (hvotes ▸ hr)

theorem Certified.of_same (h : Certified H s) (hsame : SameConsensus s t) :
    Certified H t := by
  refine ⟨?_, ?_, h.votes.of_eq hsame.chainID hsame.validators hsame.votes,
    ?_⟩
  · rw [hsame.validators]
    exact h.fits
  · rw [ProposalsSound, hsame.proposals, hsame.chainID, hsame.validators]
    exact h.proposals
  · rw [hsame.certificates, hsame.proposals]
    intro c hc
    obtain ⟨hsound, hproposed⟩ := h.certificates c hc
    exact ⟨hsound.mono hsame.chainID hsame.validators
      (hsame.votes ▸ List.Subset.refl _), hproposed⟩

theorem certified_of_cleared
    (hfits : exactTotal t.validatorSnapshot.validators < 2 ^ 64)
    (hproposals : t.proposals = []) (hvotes : t.votes = [])
    (hcertificates : t.commitCertificates = []) : Certified H t := by
  refine ⟨hfits, ?_, ⟨?_, ?_, hvotes ▸ List.Pairwise.nil⟩, ?_⟩
  · rw [ProposalsSound, hproposals]
    intro p hp
    cases hp
  · rw [hvotes]
    intro r hr
    cases hr
  · rw [hvotes]
    intro r hr
    cases hr
  · rw [hcertificates]
    intro c hc
    cases hc

-- ==== proposals

variable {p : Proposal} {proposals : List Proposal}

/-- What a stored proposal leaves of the list. -/
theorem storeProposal_eq_ok {stored : List Proposal}
    (h : storeProposal p proposals = .ok stored) :
    (∀ q ∈ stored, q = p ∨ q ∈ proposals) ∧
      ∀ q ∈ proposals, ∃ q' ∈ stored, q'.height = q.height ∧
        q'.round = q.round ∧ q'.blockHash = q.blockHash := by
  induction proposals generalizing stored with
  | nil =>
    cases h
    exact ⟨fun q hq => .inl (List.mem_singleton.1 hq), fun q hq => by cases hq⟩
  | cons existing rest ih =>
    unfold storeProposal at h
    split at h
    case isTrue =>
      simp only [ok_iff] at h
      obtain ⟨tail, htail, rfl⟩ := h
      obtain ⟨hfrom, hkept⟩ := ih htail
      refine ⟨fun q hq => ?_, fun q hq => ?_⟩
      · rcases List.mem_cons.1 hq with rfl | hq
        · exact .inr List.mem_cons_self
        · exact (hfrom q hq).imp_right (List.mem_cons_of_mem _)
      · rcases List.mem_cons.1 hq with rfl | hq
        · exact ⟨q, List.mem_cons_self, rfl, rfl, rfl⟩
        · obtain ⟨q', hq', hsame⟩ := hkept q hq
          exact ⟨q', List.mem_cons_of_mem _ hq', hsame⟩
    case isFalse hslot =>
      split at h
      case isFalse => cases h
      case isTrue hsame =>
        simp only [not_or, not_not] at hslot
        split at h
        · -- the new copy takes the place of the old one
          cases h
          refine ⟨fun q hq => ?_, fun q hq => ?_⟩
          · rcases List.mem_cons.1 hq with rfl | hq
            · exact .inl rfl
            · exact .inr (List.mem_cons_of_mem _ hq)
          · rcases List.mem_cons.1 hq with rfl | hq
            · exact ⟨p, List.mem_cons_self, hslot.1.symm, hslot.2.symm,
                hsame.1.symm⟩
            · exact ⟨q, List.mem_cons_of_mem _ hq, rfl, rfl, rfl⟩
        · cases h
          exact ⟨fun q hq => .inr hq, fun q hq => ⟨q, hq, rfl, rfl, rfl⟩⟩

theorem CommitCertificate.Proposed.stored {stored : List Proposal}
    (h : c.Proposed proposals)
    (hstored : storeProposal p proposals = .ok stored) :
    c.Proposed stored := by
  obtain ⟨q, hq, hheight, hround, hhash⟩ := h
  obtain ⟨q', hq', hheight', hround', hhash'⟩ :=
    (storeProposal_eq_ok hstored).2 q hq
  exact ⟨q', hq', hheight'.trans hheight, hround'.trans hround,
    hhash'.trans hhash⟩

theorem Certified.proposed (h : Certified H s)
    (hp : RecordedProposal H s t p) : Certified H t := by
  have hchain := hp.message.ledger.chainID
  have hvalidators := hp.message.validators
  refine ⟨hvalidators ▸ h.fits, ?_, h.votes.of_eq hchain hvalidators hp.votes,
    ?_⟩
  · rw [ProposalsSound, hchain, hvalidators]
    intro q hq
    rcases (storeProposal_eq_ok hp.stored).1 q hq with rfl | hold
    · exact ⟨hp.valid, hp.scheduled⟩
    · exact h.proposals q hold
  · rw [hp.certificates]
    intro c hc
    obtain ⟨hsound, hproposed⟩ := h.certificates c hc
    exact ⟨hsound.mono hchain hvalidators (hp.votes ▸ List.Subset.refl _),
      hproposed.stored hp.stored⟩

-- ==== counting

theorem toNat_foldl_saturatingAdd {α : Type} (f : α → UInt64) (xs : List α)
    (start : UInt64) :
    (xs.foldl (fun power x => saturatingAddUint64 power (f x)) start).toNat ≤
      start.toNat + (xs.map fun x => (f x).toNat).sum := by
  induction xs generalizing start with
  | nil => exact Nat.le_add_right _ _
  | cons x xs ih =>
    refine (ih _).trans ?_
    rw [toNat_saturatingAddUint64, List.map_cons, List.sum_cons]
    omega

theorem VotesSound.power (h : VotesSound H s) {records : List VoteRecord}
    (hsub : records ⊆ s.votes) :
    (records.map fun r => r.votingPower.toNat).sum =
      exactPower s.validatorSnapshot (records.map fun r => r.vote.voter) := by
  rw [exactPower, List.map_map]
  refine congrArg List.sum (List.map_congr_left fun r hr => ?_)
  show _ = powerOf s.validatorSnapshot r.vote.voter
  rw [powerOf, h.member r (hsub hr), Option.getD_some]

theorem exactPower_insertionSort (v : ValidatorSnapshot)
    (addresses : List Bytes) :
    exactPower v (addresses.insertionSort (· ≤ ·)) = exactPower v addresses :=
  ((List.perm_insertionSort _ addresses).map _).sum_eq

theorem votesForBlock_subset (votes : List VoteRecord) (height : Nat)
    (round : UInt64) (blockHash : Bytes) :
    votesForBlock votes height round blockHash ⊆ votes :=
  List.filter_subset_self _

variable {height : Nat} {round : UInt64} {blockHash : Bytes}

theorem mem_votesForBlock :
    r ∈ votesForBlock votes height round blockHash ↔
      r ∈ votes ∧ r.vote.height = height ∧ r.vote.round = round ∧
        r.vote.blockHash = blockHash := by
  rw [votesForBlock, List.mem_filter, decide_eq_true_iff]

/-- The voters for one block are distinct: they voted in one round. -/
theorem DistinctVotes.voters (h : DistinctVotes votes) (height : Nat)
    (round : UInt64) (blockHash : Bytes) :
    (votersForBlock votes height round blockHash).Nodup := by
  refine (List.perm_insertionSort _ _).nodup_iff.2 (List.pairwise_map.2 ?_)
  have hsub : (votesForBlock votes height round blockHash).Pairwise
      fun r r' => ¬ r.SameSlot r' := h.sublist List.filter_sublist
  refine hsub.imp_of_mem ?_
  intro r r' hr hr' hnot heq
  obtain ⟨-, hheight, hround, -⟩ := mem_votesForBlock.1 hr
  obtain ⟨-, hheight', hround', -⟩ := mem_votesForBlock.1 hr'
  exact hnot ⟨hheight.trans hheight'.symm, hround.trans hround'.symm, heq⟩

theorem mem_votersForBlock :
    a ∈ votersForBlock votes height round blockHash ↔
      ∃ r ∈ votesForBlock votes height round blockHash, r.vote.voter = a := by
  rw [votersForBlock, List.mem_insertionSort, List.mem_map]

/-- A tally that reaches the quorum has more than two thirds of the exact
power: the saturating sum can only be too small. -/
theorem VotesSound.quorum (h : VotesSound H s)
    (hfits : exactTotal s.validatorSnapshot.validators < 2 ^ 64)
    (hreached : (tallyForVotes s.votes height round blockHash
      s.quorum).quorumReached = true) :
    2 * exactTotal s.validatorSnapshot.validators <
      3 * exactPower s.validatorSnapshot
        (votersForBlock s.votes height round blockHash) := by
  obtain ⟨hle, hpos⟩ := of_decide_eq_true hreached
  have hsum := toNat_foldl_saturatingAdd VoteRecord.votingPower
    (votesForBlock s.votes height round blockHash) 0
  rw [h.power (votesForBlock_subset _ _ _ _)] at hsum
  refine quorum_exceeds hfits (UInt64.pos_iff_ne_zero.1 hpos) ?_
  rw [votersForBlock, exactPower_insertionSort]
  refine (UInt64.le_iff_toNat_le.1 hle).trans (hsum.trans ?_)
  exact Nat.le_of_eq (Nat.zero_add _)

-- ==== voting

variable {v : Vote} {power : UInt64}

theorem VotesSound.voted (h : VotesSound H s)
    (hv : RecordedVote H s t v power now) : VotesSound H t := by
  have hchain := hv.message.ledger.chainID
  have hvalidators := hv.message.validators
  refine ⟨?_, ?_, ?_⟩
  · rw [hv.votes, hchain]
    exact forall_mem_concat h.valid hv.valid
  · rw [hv.votes]
    simp only [validatorVotingPower_congr hvalidators]
    exact forall_mem_concat h.member hv.member
  · rw [hv.votes]
    exact h.distinct.append (r := ⟨v, power, now⟩) hv.fresh

theorem hasProposal_iff :
    hasProposal proposals height round blockHash = true ↔
      ∃ p ∈ proposals, p.height = height ∧ p.round = round ∧
        p.blockHash = blockHash := by
  rw [hasProposal, List.any_eq_true]
  simp only [decide_eq_true_iff]

theorem PersistedState.quorum_congr
    (h : t.validatorSnapshot.validators = s.validatorSnapshot.validators) :
    t.quorum = s.quorum := by
  simp only [PersistedState.quorum, totalVotingPower,
    normalizeValidatorSnapshot_validators, h]

/-- What the stored votes say about a certificate whose voters are in
them. -/
theorem VotesSound.certificate (hvotes : VotesSound H t)
    (hvoter : ∀ a ∈ c.voters, ∃ r ∈ t.votes, r.vote.voter = a ∧
      r.vote.certifies c)
    (hdistinct : c.voters.Nodup)
    (hquorum : 2 * exactTotal t.validatorSnapshot.validators <
      3 * exactPower t.validatorSnapshot c.voters) :
    CertificateSound H t c := by
  refine ⟨hdistinct, fun a ha => ?_, fun a ha => ?_, hquorum⟩
  · obtain ⟨r, hr, rfl, -⟩ := hvoter a ha
    exact exists_of_validatorVotingPower (hvotes.member r hr)
  · obtain ⟨r, hr, hvoter, hcertifies⟩ := hvoter a ha
    exact ⟨r, hr, hvoter, hcertifies, hvotes.valid r hr⟩

theorem CompletedCertificate.sound (hc : CompletedCertificate s t v c)
    (hvotes : VotesSound H t)
    (hfits : exactTotal t.validatorSnapshot.validators < 2 ^ 64)
    (hquorum : t.quorum = s.quorum) : CertificateSound H t c := by
  refine hvotes.certificate (fun a ha => ?_) ?_ ?_
  · rw [hc.voters] at ha
    obtain ⟨r, hr, hvoter⟩ := mem_votersForBlock.1 ha
    obtain ⟨hmem, hheight, hround, hhash⟩ := mem_votesForBlock.1 hr
    exact ⟨r, hmem, hvoter, hheight.trans hc.height.symm,
      hround.trans hc.round.symm, hhash.trans hc.blockHash.symm⟩
  · rw [hc.voters]
    exact hvotes.distinct.voters _ _ _
  · rw [hc.voters]
    exact hvotes.quorum hfits (hquorum ▸ hc.quorum)

theorem Certified.voted (h : Certified H s)
    (hv : RecordedVote H s t v power now) : Certified H t := by
  have hchain := hv.message.ledger.chainID
  have hvalidators := hv.message.validators
  have hfits : exactTotal t.validatorSnapshot.validators < 2 ^ 64 :=
    hvalidators ▸ h.fits
  have hvotes := h.votes.voted hv
  have hold : ∀ c ∈ s.commitCertificates,
      CertificateSound H t c ∧ c.Proposed t.proposals := by
    intro c hc
    obtain ⟨hsound, hproposed⟩ := h.certificates c hc
    refine ⟨hsound.mono hchain hvalidators ?_, hv.proposals ▸ hproposed⟩
    rw [hv.votes]
    exact List.subset_append_left _ _
  refine ⟨hfits, ?_, hvotes, ?_⟩
  · rw [ProposalsSound, hv.proposals, hchain, hvalidators]
    exact h.proposals
  · rcases hv.certificates with hsame | ⟨c, hadded, hc⟩
    · rw [hsame]
      exact hold
    · rw [hadded]
      refine forall_mem_concat hold ?_
      refine ⟨hc.sound hvotes hfits (PersistedState.quorum_congr hvalidators),
        ?_⟩
      obtain ⟨p, hp, hheight, hround, hhash⟩ := hasProposal_iff.1 hv.proposal
      exact ⟨p, hv.proposals ▸ hp, hheight.trans hc.height.symm,
        hround.trans hc.round.symm, hhash.trans hc.blockHash.symm⟩

-- ==== evidence

/-- A vote that came with the block and is to be stored. -/
structure SuppliedVote (H : Host) (s : PersistedState) (p : Proposal)
    (supplied : List Vote) (r : VoteRecord) : Prop where
  supplied : r.vote ∈ supplied
  supports : r.vote.supports p
  valid : r.vote.validateForChain H s.chainID = .ok ()
  member : validatorVotingPower s.validatorSnapshot r.vote.voter =
    some r.votingPower
  agrees : ∀ existing ∈ findVoteByValidator s.votes r.vote.height
    r.vote.round r.vote.voter, existing.blockHash = r.vote.blockHash

/-- What the two counting loops keep. -/
structure CountedVotes (H : Host) (s : PersistedState) (p : Proposal)
    (supplied : List Vote) (counted : SignedVotes) : Prop where
  distinct : counted.voters.Nodup
  power : counted.power.toNat = exactPower s.validatorSnapshot counted.voters
  voted : ∀ a ∈ counted.voters,
    (∃ r ∈ s.votes, r.vote.voter = a ∧ r.vote.supports p) ∨
      ∃ r ∈ counted.validated, r.vote.voter = a
  validated : ∀ r ∈ counted.validated, SuppliedVote H s p supplied r

theorem exactPower_concat (v : ValidatorSnapshot) (addresses : List Bytes)
    (a : Bytes) :
    exactPower v (addresses ++ [a]) = exactPower v addresses + powerOf v a := by
  simp [exactPower]

theorem powerOf_of_some {v : ValidatorSnapshot}
    (h : validatorVotingPower v a = some power) :
    powerOf v a = power.toNat := by
  rw [powerOf, h, Option.getD_some]

variable {supplied : List Vote} {counted : SignedVotes}

/-- One more voter is counted. -/
theorem CountedVotes.count {total : UInt64}
    (h : CountedVotes H s p supplied counted) (hnew : a ∉ counted.voters)
    (hpower : validatorVotingPower s.validatorSnapshot a = some power)
    (htotal : total.toNat = counted.power.toNat + power.toNat)
    (hvalidated : counted.validated ⊆ validated)
    (hadded : ∀ r ∈ validated, SuppliedVote H s p supplied r)
    (hvoted : (∃ r ∈ s.votes, r.vote.voter = a ∧ r.vote.supports p) ∨
      ∃ r ∈ validated, r.vote.voter = a) (provided : List Bytes) :
    CountedVotes H s p supplied
      ⟨counted.voters ++ [a], total, validated, provided⟩ := by
  refine ⟨?_, ?_, fun b hb => ?_, hadded⟩
  · refine List.nodup_append.2 ⟨h.distinct, List.nodup_singleton a, ?_⟩
    intro b hb c hc heq
    rw [List.mem_singleton.1 hc] at heq
    exact hnew (heq ▸ hb)
  · rw [exactPower_concat, powerOf_of_some hpower, htotal, h.power]
  · rcases List.mem_append.1 hb with hb | hb
    · rcases h.voted b hb with hstored | ⟨r, hr, hvoter⟩
      · exact .inl hstored
      · exact .inr ⟨r, hvalidated hr, hvoter⟩
    · rw [List.mem_singleton.1 hb]
      exact hvoted

theorem countStoredVote_counted {counted' : SignedVotes}
    (hr : r ∈ s.votes) (hcounted : CountedVotes H s p supplied counted)
    (h : countStoredVote H (normalizeState s) p s.chainID counted r =
      .ok counted') : CountedVotes H s p supplied counted' := by
  unfold countStoredVote at h
  split at h
  case isTrue =>
    cases h
    exact hcounted
  case isFalse hnew =>
    simp only [not_or, not_not] at hnew
    simp only [ok_iff, addUint64_eq_some, normalizeState_validatorSnapshot,
      validatorVotingPower_normalize] at h
    obtain ⟨-, power, hpower, total, htotal, rfl⟩ := h
    exact hcounted.count hnew.2 hpower htotal (List.Subset.refl _)
      hcounted.validated (.inl ⟨r, hr, rfl, hnew.1⟩) counted.provided

theorem countProvidedVote_counted {counted' : SignedVotes}
    (hv : v ∈ supplied) (hcounted : CountedVotes H s p supplied counted)
    (h : countProvidedVote H (normalizeState s) p s.chainID now counted v =
      .ok counted') : CountedVotes H s p supplied counted' := by
  simp only [countProvidedVote, ok_iff, not_not] at h
  obtain ⟨-, hvalid, hsupports, power, hpower, hagrees, h⟩ := h
  rw [normalizeState_validatorSnapshot,
    validatorVotingPower_normalize] at hpower
  split at h
  case isTrue =>
    cases h
    exact ⟨hcounted.distinct, hcounted.power, hcounted.voted,
      hcounted.validated⟩
  case isFalse hnew =>
    simp only [ok_iff, addUint64_eq_some] at h
    obtain ⟨total, htotal, rfl⟩ := h
    refine hcounted.count hnew hpower htotal
      (List.subset_append_left _ _) ?_ (.inr ⟨⟨v, power, now⟩, by simp, rfl⟩) _
    refine forall_mem_concat hcounted.validated ?_
    refine ⟨hv, hsupports, hvalid, hpower, ?_⟩
    simp only [not_exists, not_and, not_not] at hagrees
    exact hagrees

variable {evidence : CertifiedBlockEvidence}

theorem countedVotes_of_loops {stored : SignedVotes}
    (hstored : s.votes.foldlM (countStoredVote H (normalizeState s)
      evidence.proposal s.chainID) ⟨[], 0, [], []⟩ = .ok stored)
    (hcounted : evidence.votes.foldlM (countProvidedVote H (normalizeState s)
      evidence.proposal s.chainID now) stored = .ok counted) :
    CountedVotes H s evidence.proposal evidence.votes counted := by
  have hstart : CountedVotes H s evidence.proposal evidence.votes
      ⟨[], 0, [], []⟩ :=
    ⟨List.nodup_nil, rfl, fun _ ha => absurd ha List.not_mem_nil,
      fun _ hr => absurd hr List.not_mem_nil⟩
  have hmid := foldlM_prefix
    (fun _ c => CountedVotes H s evidence.proposal evidence.votes c) hstart
    (fun pre r c c' hpre hc hstep => countStoredVote_counted
      (hpre.subset (by simp)) hc hstep) hstored
  exact foldlM_prefix
    (fun _ c => CountedVotes H s evidence.proposal evidence.votes c) hmid
    (fun pre v c c' hpre hc hstep => countProvidedVote_counted
      (hpre.subset (by simp)) hc hstep) hcounted

theorem SuppliedVote.slot_certifies {r' : VoteRecord}
    (h : SuppliedVote H s p supplied r)
    (hdistinct : DistinctVotes s.votes)
    (hvalidated : ∀ r ∈ validated, SuppliedVote H s p supplied r)
    (hr' : r' ∈ mergeVotes s.votes validated) (hslot : r'.SameSlot r) :
    r'.vote.supports p := by
  rcases mem_mergeVotes hr' with hold | hadded
  · -- the stored vote of that round was compared with the supplied one
    have hfind := hdistinct.find hold
    rw [hslot.1, hslot.2.1, hslot.2.2] at hfind
    have hhash := h.agrees r'.vote (Option.mem_def.2 hfind)
    exact ⟨hslot.1.trans h.supports.1, hslot.2.1.trans h.supports.2.1,
      hhash.trans h.supports.2.2⟩
  · exact (hvalidated r' hadded).supports

theorem VotesSound.merged (h : VotesSound H s)
    (hvalidated : ∀ r ∈ validated, SuppliedVote H s p supplied r)
    (hchain : t.chainID = s.chainID)
    (hvalidators : t.validatorSnapshot.validators =
      s.validatorSnapshot.validators)
    (hvotes : t.votes = mergeVotes s.votes validated) : VotesSound H t := by
  refine ⟨?_, ?_, hvotes ▸ h.distinct.merge validated⟩
  · rw [hvotes, hchain]
    intro r hr
    rcases mem_mergeVotes hr with hold | hadded
    · exact h.valid r hold
    · exact (hvalidated r hadded).valid
  · rw [hvotes]
    intro r hr
    rw [validatorVotingPower_congr hvalidators]
    rcases mem_mergeVotes hr with hold | hadded
    · exact h.member r hold
    · exact (hvalidated r hadded).member

/-- The voters counted for a block all have a stored vote for it. -/
theorem CountedVotes.stored (h : CountedVotes H s p supplied counted)
    (hdistinct : DistinctVotes s.votes) (ha : a ∈ counted.voters) :
    ∃ r ∈ mergeVotes s.votes counted.validated, r.vote.voter = a ∧
      r.vote.supports p := by
  rcases h.voted a ha with ⟨r, hr, hvoter, hsupports⟩ | ⟨r, hr, rfl⟩
  · exact ⟨r, subset_mergeVotes _ _ hr, hvoter, hsupports⟩
  · obtain ⟨r', hr', hslot⟩ := mergeVotes_slot s.votes hr
    exact ⟨r', hr', hslot.2.2, (h.validated r hr).slot_certifies hdistinct
      h.validated hr' hslot⟩

theorem CountedVotes.sound (h : CountedVotes H s p supplied counted)
    (hdistinct : DistinctVotes s.votes) (hvotes : VotesSound H t)
    (hfits : exactTotal s.validatorSnapshot.validators < 2 ^ 64)
    (hvalidators : t.validatorSnapshot.validators =
      s.validatorSnapshot.validators)
    (hmerged : t.votes = mergeVotes s.votes counted.validated)
    (hquorum : s.quorum ≠ 0) (hreached : s.quorum ≤ counted.power)
    (hslot : c.height = p.height ∧ c.round = p.round ∧
      c.blockHash = p.blockHash)
    (hvoters : c.voters = counted.voters.insertionSort (· ≤ ·)) :
    CertificateSound H t c := by
  refine hvotes.certificate (fun a ha => ?_) ?_ ?_
  · rw [hvoters, List.mem_insertionSort] at ha
    obtain ⟨r, hr, hvoter, hheight, hround, hhash⟩ := h.stored hdistinct ha
    exact ⟨r, hmerged ▸ hr, hvoter, hheight.trans hslot.1.symm,
      hround.trans hslot.2.1.symm, hhash.trans hslot.2.2.symm⟩
  · rw [hvoters]
    exact (List.perm_insertionSort _ _).nodup_iff.2 h.distinct
  · rw [hvoters, exactPower_insertionSort, hvalidators,
      exactPower_congr hvalidators, ← h.power]
    exact quorum_exceeds hfits hquorum (UInt64.le_iff_toNat_le.1 hreached)

/-- The certificate for the block is there after its evidence. -/
theorem storeEvidence_certificates (s : PersistedState) (p : Proposal)
    (counted : SignedVotes) (now : Time) :
    (∃ c ∈ (storeEvidence s p counted now).commitCertificates,
        c.height = p.height ∧ c.round = p.round ∧
          c.blockHash = p.blockHash) ∧
      ∀ c ∈ (storeEvidence s p counted now).commitCertificates,
        c ∈ s.commitCertificates ∨
          (c.height = p.height ∧ c.round = p.round ∧
            c.blockHash = p.blockHash) ∧
          c.voters = counted.voters.insertionSort (· ≤ ·) := by
  simp only [storeEvidence, normalizeState_commitCertificates]
  split
  case isTrue =>
    refine ⟨⟨_, List.mem_append_right _ (List.mem_singleton_self _),
      rfl, rfl, rfl⟩, ?_⟩
    exact forall_mem_concat (fun _ => .inl) (.inr ⟨⟨rfl, rfl, rfl⟩, rfl⟩)
  case isFalse hsome =>
    obtain ⟨c, hc⟩ := Option.ne_none_iff_exists'.1 hsome
    have hfound := List.find?_some hc
    exact ⟨⟨c, List.mem_of_find?_eq_some hc, of_decide_eq_true hfound⟩,
      fun c hc => .inl hc⟩

theorem storeEvidence_proposals (s : PersistedState) (p : Proposal)
    (counted : SignedVotes) (now : Time) :
    s.proposals ⊆ (storeEvidence s p counted now).proposals ∧
      (∀ q ∈ (storeEvidence s p counted now).proposals,
        q = p ∨ q ∈ s.proposals) ∧
      ∃ q ∈ (storeEvidence s p counted now).proposals,
        q.height = p.height ∧ q.round = p.round ∧
          q.blockHash = p.blockHash ∧ q.proposer = p.proposer := by
  simp only [storeEvidence, normalizeState_proposals]
  split
  case isTrue hexists =>
    exact ⟨List.Subset.refl _, fun q hq => .inr hq, hexists⟩
  case isFalse =>
    exact ⟨List.subset_append_left _ _,
      forall_mem_concat (fun _ => .inr) (.inl rfl),
      p, by simp, rfl, rfl, rfl, rfl⟩

variable {b : Block}

theorem ImportedEvidence.same (h : ImportedEvidence H s t b evidence now) :
    t.chainID = s.chainID ∧ t.validatorSnapshot.validators =
      s.validatorSnapshot.validators := by
  obtain ⟨next, himport, hledger, -, hvalidators⟩ := h.imported
  have hsame := importBlockIntoState_sameConsensus himport
  exact ⟨hledger.chainID.trans hsame.chainID,
    hvalidators.trans hsame.validators⟩

theorem Certified.certified (h : Certified H s)
    (he : ImportedEvidence H s t b evidence now) : Certified H t := by
  obtain ⟨hchain, hvalidators⟩ := he.same
  obtain ⟨stored, counted, hstored, hloop, hquorum, hreached, hproposals,
    hvotes, hcertificates⟩ := he.counted
  have hcounted := countedVotes_of_loops hstored hloop
  have hsound := h.votes.merged hcounted.validated hchain hvalidators hvotes
  obtain ⟨hkept, hfrom, p, hp, hheight, hround, hhash, -⟩ :=
    storeEvidence_proposals s evidence.proposal counted now
  refine ⟨hvalidators ▸ h.fits, ?_, hsound, ?_⟩
  · rw [ProposalsSound, hproposals, hchain, hvalidators]
    intro q hq
    rcases hfrom q hq with rfl | hold
    · exact ⟨he.proposal.valid, fun _ => he.proposal.scheduled⟩
    · exact h.proposals q hold
  · rw [hcertificates, hproposals]
    intro c hc
    rcases (storeEvidence_certificates s evidence.proposal counted now).2 c hc
      with hold | ⟨hslot, hvoters⟩
    · obtain ⟨hcsound, q, hq, hsame⟩ := h.certificates c hold
      refine ⟨hcsound.mono hchain hvalidators ?_, q, hkept hq, hsame⟩
      rw [hvotes]
      exact subset_mergeVotes _ _
    · exact ⟨hcounted.sound h.votes.distinct hsound h.fits hvalidators hvotes
        hquorum hreached hslot hvoters, p, hp, hheight.trans hslot.1.symm,
        hround.trans hslot.2.1.symm, hhash.trans hslot.2.2.symm⟩

-- ==== runs

theorem Certified.step {op : Operation} (h : Certified H s)
    (hstep : ConsensusStep H now op s t) : Certified H t := by
  cases hstep with
  | same hsame => exact h.of_same hsame
  | proposed p hp => exact h.proposed hp
  | voted v power _ hv => exact h.voted hv
  | certified b evidence _ he => exact h.certified he
  | cleared _ hfits hproposals hvotes hcertificates =>
    exact certified_of_cleared hfits hproposals hvotes hcertificates

variable {reread : PersistedState → PersistedState} {chainID : Bytes}
  {n : Node}

theorem Reachable.certified (h : Reachable H reread chainID n) :
    Certified H n.store := by
  refine h.invariant (Certified H) (fun _ => ?_) ?_
  · exact certified_of_cleared (show exactTotal [] < 2 ^ 64 by decide) rfl
      rfl rfl
  · intro s s' op now hs hnext
    exact (hs.step (next_consensusStep hnext)).of_same
      (sameConsensus_normalizeState s')

/-- Certificates of one height and round name one block: a voter they
have in common has one vote there. -/
theorem Certified.unique (h : Certified H s) {c' : CommitCertificate}
    (hc : c ∈ s.commitCertificates) (hc' : c' ∈ s.commitCertificates)
    (hheight : c.height = c'.height) (hround : c.round = c'.round) :
    c.blockHash = c'.blockHash := by
  obtain ⟨hsound, -⟩ := h.certificates c hc
  obtain ⟨hsound', -⟩ := h.certificates c' hc'
  have hcommon := quorum_intersection hsound.distinct hsound'.distinct
    hsound.quorum hsound'.quorum
  have hnonempty : (c.voters.toFinset ∩ c'.voters.toFinset).Nonempty := by
    by_contra hempty
    rw [Finset.not_nonempty_iff_eq_empty.1 hempty, Finset.sum_empty] at hcommon
    omega
  obtain ⟨a, ha⟩ := hnonempty
  obtain ⟨ha, ha'⟩ := Finset.mem_inter.1 ha
  obtain ⟨r, hr, hvoter, hcertifies, -⟩ :=
    hsound.voted a (List.mem_toFinset.1 ha)
  obtain ⟨r', hr', hvoter', hcertifies', -⟩ :=
    hsound'.voted a (List.mem_toFinset.1 ha')
  have hslot : r.SameSlot r' :=
    ⟨hcertifies.1.trans (hheight.trans hcertifies'.1.symm),
      hcertifies.2.1.trans (hround.trans hcertifies'.2.1.symm),
      hvoter.trans hvoter'.symm⟩
  rw [← hcertifies.2.2, ← hcertifies'.2.2, h.votes.distinct.eq hr hr' hslot]

-- ==== appended blocks

/-- The operations that append certified blocks only. -/
def Operation.RequiresConsensus : Operation → Prop
  | .produceBlock _ _ requireConsensus => requireConsensus = true
  | .importBlock _ requireConsensus => requireConsensus = true
  | .importBlockWithEvidence _ _ => True
  | _ => False

/-- A proposal signed by the scheduled proposer of its round. -/
def Proposal.Scheduled (H : Host) (s : PersistedState) (p : Proposal) : Prop :=
  p.validateForChain H s.chainID = .ok () ∧
    p.proposer = proposerForHeightRound s.validatorSnapshot.validators
      p.height p.round

/-- A certificate for a block and the proposal it certifies. -/
def BlockCertified (H : Host) (s : PersistedState) (b : Block) : Prop :=
  ∃ c ∈ s.commitCertificates, c.height = b.height ∧ c.blockHash = b.hash ∧
    CertificateSound H s c ∧ ∃ p ∈ s.proposals, p.height = c.height ∧
      p.round = c.round ∧ p.blockHash = c.blockHash ∧ p.Scheduled H s

/-- Every member has an address. -/
def Named (validators : List Validator) : Prop :=
  ∀ v ∈ validators, v.address ≠ []

theorem proposerForHeightRound_ne_nil {validators : List Validator}
    (hnamed : Named validators) (hne : validators.length ≠ 0)
    (hheight : height ≠ 0) :
    proposerForHeightRound validators height round ≠ [] := by
  have hindex : (height - 1 + round.toNat) % 2 ^ 64 % validators.length <
      validators.length := Nat.mod_lt _ (Nat.pos_of_ne_zero hne)
  unfold proposerForHeightRound
  rw [if_neg (not_or.2 ⟨hne, hheight⟩)]
  dsimp only
  rw [List.getElem?_eq_getElem hindex]
  exact hnamed _ (List.getElem_mem hindex)

theorem Proposal.validateForChain_height
    (h : p.validateForChain H chainID = .ok ()) : p.height ≠ 0 := by
  obtain ⟨hstatic, -⟩ := Proposal.validateForChain_eq_ok.1 h
  simp only [Proposal.validateStatic, ok_iff] at hstatic
  exact hstatic.2.2.2.1

/-- The certificate the consensus check has found. -/
theorem validateBlockConsensus_certificate
    (h : validateBlockConsensus s b true = .ok ()) :
    s.validatorSnapshot.validators.length ≠ 0 ∧
      ∃ c ∈ s.commitCertificates, c.height = b.height ∧
        c.blockHash = b.hash := by
  simp only [validateBlockConsensus, ok_iff, true_and] at h
  obtain ⟨hne, -, p, -, -, -, hsome⟩ := h
  simp only [normalizeState_validatorSnapshot,
    normalizeValidatorSnapshot_validators] at hne
  obtain ⟨c, hc⟩ := Option.ne_none_iff_exists'.1 hsome
  have hfound := List.find?_some hc
  exact ⟨hne, c, List.mem_of_find?_eq_some hc, of_decide_eq_true hfound⟩

theorem Certified.blockCertified (h : Certified H s)
    (hnamed : Named s.validatorSnapshot.validators)
    (hconsensus : validateBlockConsensus s b true = .ok ()) :
    BlockCertified H s b := by
  obtain ⟨hne, c, hc, hheight, hhash⟩ :=
    validateBlockConsensus_certificate hconsensus
  obtain ⟨hsound, p, hp, hpheight, hpround, hphash⟩ := h.certificates c hc
  obtain ⟨hvalid, hscheduled⟩ := h.proposals p hp
  exact ⟨c, hc, hheight, hhash, hsound, p, hp, hpheight, hpround, hphash,
    hvalid, hscheduled (proposerForHeightRound_ne_nil hnamed hne
      (Proposal.validateForChain_height hvalid))⟩

theorem BlockCertified.of_same (h : BlockCertified H s b)
    (hsame : SameConsensus s t) : BlockCertified H t b := by
  obtain ⟨c, hc, hheight, hhash, hsound, p, hp, hslot⟩ := h
  refine ⟨c, hsame.certificates ▸ hc, hheight, hhash,
    hsound.mono hsame.chainID hsame.validators
      (hsame.votes ▸ List.Subset.refl _), p, hsame.proposals ▸ hp, ?_⟩
  rw [Proposal.Scheduled, hsame.chainID, hsame.validators]
  exact hslot

/-- The block an import appends is the one it was given. -/
theorem importBlockIntoState_appended {b' : Block}
    (h : importBlockIntoState H s b chainID = .ok t)
    (happended : t.blocks = s.blocks ++ [b']) : b = b' := by
  obtain ⟨-, ⟨-, -, rfl⟩ | ⟨accounts, himports⟩⟩ :=
    importBlockIntoState_eq_ok.1 h
  · have hlen := congrArg List.length happended
    simp at hlen
  · rw [himports.state] at happended
    have hblocks : s.blocks ++ [b] = s.blocks ++ [b'] := happended
    exact (List.cons.inj (List.append_cancel_left hblocks)).1

theorem Certified.evidenceBlock (h : Certified H s)
    (he : ImportedEvidence H s t b evidence now) :
    BlockCertified H t b := by
  have hcertified := h.certified he
  obtain ⟨hchain, hvalidators⟩ := he.same
  obtain ⟨stored, counted, -, -, -, -, hproposals, -, hcertificates⟩ :=
    he.counted
  obtain ⟨⟨c, hc, hheight, hround, hhash⟩, -⟩ :=
    storeEvidence_certificates s evidence.proposal counted now
  obtain ⟨-, -, p, hp, hpheight, hpround, hphash, hproposer⟩ :=
    storeEvidence_proposals s evidence.proposal counted now
  rw [← hcertificates] at hc
  rw [← hproposals] at hp
  refine ⟨c, hc, hheight.trans he.proposal.height,
    hhash.trans he.proposal.blockHash, (hcertified.certificates c hc).1, p, hp,
    hpheight.trans hheight.symm, hpround.trans hround.symm,
    hphash.trans hhash.symm, (hcertified.proposals p hp).1, ?_⟩
  rw [hproposer, hpheight, hpround, hvalidators]
  exact he.proposal.scheduled

theorem produceCertifiedBlockFromState_consensus {producedAt : Time}
    (h : produceCertifiedBlockFromState H s producedAt chainID = .ok (t, b)) :
    validateBlockConsensus (normalizeState s) b true = .ok () := by
  simp only [produceCertifiedBlockFromState, ok_iff, Prod.mk.injEq] at h
  obtain ⟨p, -, -, hconsensus, next, -, -, rfl⟩ := h
  exact hconsensus

/-- A block that an operation requiring consensus appends is certified. -/
theorem Certified.appended {op : Operation} (h : Certified H s)
    (hnamed : Named s.validatorSnapshot.validators)
    (hop : op.RequiresConsensus) (hnext : op.next H s now = .ok (some t))
    (happended : t.blocks = s.blocks ++ [b]) :
    BlockCertified H t b ∧ t.validatorSnapshot.validators =
      s.validatorSnapshot.validators := by
  cases op with
  | produceBlock maxTransactions producedAt requireConsensus =>
    cases hop
    have hproduce := map_some_eq_ok.1 hnext
    have hsame := produceBlockWithOptions_sameConsensus hproduce
    simp only [produceBlockWithOptions, if_true, ok_iff] at hproduce
    obtain ⟨⟨next, b'⟩, hproduced, p, -, -, rfl⟩ := hproduce
    have himport := produceCertifiedBlockFromState_import hproduced
    obtain rfl := importBlockIntoState_appended himport happended
    have hnormal := sameConsensus_normalizeState s
    have hconsensus := produceCertifiedBlockFromState_consensus hproduced
    have hblock := (h.of_same hnormal).blockCertified
      (hnormal.validators ▸ hnamed) hconsensus
    refine ⟨hblock.of_same ⟨hsame.chainID, ?_, hsame.proposals, hsame.votes,
      hsame.certificates⟩, hsame.validators⟩
    exact hsame.validators.trans hnormal.validators.symm
  | importBlock b' requireConsensus =>
    cases hop
    have himport := map_some_eq_ok.1 hnext
    have hsame := importBlockIntoState_sameConsensus
      (importBlockWithOptions_import himport)
    obtain rfl := importBlockIntoState_appended
      (importBlockWithOptions_import himport) happended
    simp only [importBlockWithOptions, if_true, ok_iff] at himport
    obtain ⟨next, -, hconsensus, -⟩ := himport
    exact ⟨(h.blockCertified hnamed hconsensus).of_same hsame,
      hsame.validators⟩
  | importBlockWithEvidence b' evidence =>
    have himport := map_some_eq_ok.1 hnext
    have he := importBlockWithEvidence_imported himport
    obtain ⟨next, hblock, hledger, -⟩ := he.imported
    rw [hledger.blocks] at happended
    obtain rfl := importBlockIntoState_appended hblock happended
    exact ⟨h.evidenceBlock he, he.same.2⟩
  | creditWithID requestID address amount => cases hop
  | accept envelope => cases hop
  | setValidators validators config => cases hop
  | recordProposal proposal => cases hop
  | recordVote vote => cases hop
  | ensureRoundStarted start => cases hop
  | advanceRound start => cases hop
  | restoreQuorumSnapshot snapshot chainID proofs trusted => cases hop

/-- In every run the certificates of the store have a quorum behind them
and agree in each round. A block that is appended where consensus is
required has a certificate and a proposal of its scheduled proposer, if
the members have addresses. -/
theorem certificates_mean_quorum (h : Reachable H reread chainID n) :
    (∀ c ∈ n.store.commitCertificates, CertificateSound H n.store c) ∧
      (∀ c ∈ n.store.commitCertificates, ∀ c' ∈ n.store.commitCertificates,
        c.height = c'.height → c.round = c'.round →
        c.blockHash = c'.blockHash) ∧
      ∀ (op : Operation) (now : Time) (writes : Bool) (b : Block),
        op.RequiresConsensus → Named n.store.validatorSnapshot.validators →
        (n.call H reread (.operation op now writes)).1.store.blocks =
          n.store.blocks ++ [b] →
        BlockCertified H (n.call H reread (.operation op now writes)).1.store
            b ∧
          (n.call H reread (.operation op now
            writes)).1.store.validatorSnapshot.validators =
            n.store.validatorSnapshot.validators := by
  have hcertified := h.certified
  refine ⟨fun c hc => (hcertified.certificates c hc).1,
    fun c hc c' hc' => hcertified.unique hc hc', ?_⟩
  intro op now writes b hop hnamed happended
  rcases call_cases (H := H) (c := .operation op now writes) h.stable
      (fun hreopen => by cases hreopen) with
    heq | ⟨op', now', t, hsame, hnext, heq⟩
  · rw [heq] at happended
    have hlen := congrArg List.length happended
    simp at hlen
  · cases hsame
    rw [heq] at happended ⊢
    obtain ⟨hblock, hvalidators⟩ := hcertified.appended hnamed hop hnext
      happended
    exact ⟨hblock.of_same (sameConsensus_normalizeState t),
      (normalizeValidatorSnapshot_validators _).trans hvalidators⟩

-- ==== samples

theorem sampleRun_append (ops : List Operation) (op : Operation) :
    sampleRun (ops ++ [op]) =
      ((sampleRun ops).call sampleHost id (.operation op 4 true)).1 := by
  rw [sampleRun, List.foldl_append]
  rfl

theorem sampleChain_opens :
    newStoreWithChainID sampleHost sampleChain =
      .ok (emptyState sampleChain) :=
  newStoreWithChainID_eq_ok.2 ⟨by decide +kernel, rfl⟩

theorem sampleRun_reachable (ops : List Operation) :
    Reachable sampleHost id sampleChain (sampleRun ops) := by
  induction ops using List.reverseRecOn with
  | nil => exact .opened sampleChain_opens
  | append_singleton ops op ih =>
    rw [sampleRun_append]
    exact ih.call _ fun _ => rfl

/-- A credit, a payment in the mempool and a validator set. -/
def openingOps (validators : List Validator) : List Operation :=
  [.creditWithID (utf8 "r") (sampleAddress 1) 9,
    .accept (sampleEnvelope 1 3 3 1), .setValidators validators ⟨0, 0, 0⟩]

/-- The payment's block, proposed and voted for by one member. -/
def votedOps (validators : List Validator) (member : UInt8) :
    List Operation :=
  openingOps validators ++
    [.recordProposal (sampleProposal member 0
        (sampleBlock (sampleRun (openingOps validators)))),
      .recordVote (sampleVote member 0
        (sampleBlock (sampleRun (openingOps validators))))]

theorem votedOps_certified :
    BlockCertified sampleHost
      (sampleRun (votedOps [⟨1, sampleAddress 2, 10, 0, 0, 0⟩] 2 ++
        [.importBlock (sampleBlock (sampleRun (openingOps
          [⟨1, sampleAddress 2, 10, 0, 0, 0⟩]))) true])).store
      (sampleBlock (sampleRun (openingOps
        [⟨1, sampleAddress 2, 10, 0, 0, 0⟩]))) := by
  rw [sampleRun_append]
  refine ((certificates_mean_quorum (sampleRun_reachable _)).2.2 _ 4 true _
    ?_ ?_ ?_).1
  · exact rfl
  · unfold Named
    decide +kernel
  · decide +kernel

/-- Two members, the first without an address. -/
def namelessValidators : List Validator :=
  [⟨1, [], 0, 0, 0, 0⟩, ⟨2, sampleAddress 2, 10, 0, 0, 0⟩]

/-- The turn is that of the member without an address. The other member
proposes, certifies and the block is appended where consensus is
required, without any proposal of the scheduled proposer. -/
theorem unscheduledBlock_appended :
    (sampleRun (votedOps namelessValidators 2)).store.blocks = [] ∧
      (sampleRun (votedOps namelessValidators 2 ++
        [.importBlock (sampleBlock (sampleRun (openingOps
          namelessValidators))) true])).store.blocks =
        [sampleBlock (sampleRun (openingOps namelessValidators))] ∧
      (sampleRun (votedOps namelessValidators 2 ++
        [.importBlock (sampleBlock (sampleRun (openingOps
          namelessValidators))) true])).store.validatorSnapshot.validators =
        namelessValidators ∧
      (sampleRun (votedOps namelessValidators 2 ++
        [.importBlock (sampleBlock (sampleRun (openingOps
          namelessValidators))) true])).store.proposals.length = 1 ∧
      ∀ p ∈ (sampleRun (votedOps namelessValidators 2 ++
        [.importBlock (sampleBlock (sampleRun (openingOps
          namelessValidators))) true])).store.proposals,
        p.proposer ≠ proposerForHeightRound namelessValidators p.height
          p.round := by
  decide +kernel

end ZephyrChain.Ledger
