/-
A validator does not vote twice in a round. A vote is broadcast only when
the store has recorded it, and the store refuses a second vote of a voter
at a height and round that differs from the first. So the broadcast votes
agree as long as the store remembers those of its next height, which is
the invariant `Settled`: a broadcast vote is for a height below the next
one, or it is stored.

# When the store forgets

A new validator set and a restored snapshot clear the votes and put the
round back to 0, and the round counter wraps around at its end. `Steady`
asks that the round is not at its end, and that nothing is cleared that
matters: the chain grows, or the round is 0 and the validator has no vote
at the next height. In runs of such steps neither the position moves back
nor does the validator equivocate (`validator_never_equivocates`);
without the condition both happen (`clearedVotes_equivocate`).
-/
import ZephyrChain.Ledger.Automation
import ZephyrChain.Ledger.Proofs.Certificates
import Mathlib.Data.Prod.Lex

namespace ZephyrChain.Ledger

open Lib

-- ==== position

/-- The next height and the current round, ordered by height first. -/
def PersistedState.position (s : PersistedState) : Nat ×ₗ Nat :=
  toLex (s.blocks.length + 1, s.roundState.round.toNat)

theorem position_le_iff {s t : PersistedState} :
    s.position ≤ t.position ↔ s.blocks.length < t.blocks.length ∨
      (s.blocks.length = t.blocks.length ∧
        s.roundState.round ≤ t.roundState.round) := by
  rw [PersistedState.position, PersistedState.position, Prod.Lex.le_iff,
    UInt64.le_iff_toNat_le]
  simp

/-- The last round that can be counted. -/
def lastRound : UInt64 := UInt64.ofNat (2 ^ 64 - 1)

/-- The first round of the next height, without a vote of the address. -/
structure PersistedState.Unvoted (s : PersistedState) (address : Bytes) :
    Prop where
  round : s.roundState.round = 0
  votes : ∀ r ∈ s.votes, r.vote.height = s.blocks.length + 1 →
    r.vote.voter ≠ address

/-- The operations that make the store forget nothing of the validator at
the address. -/
def Operation.Steady (address : Bytes) (s : PersistedState) :
    Operation → Prop
  | .advanceRound _ => s.roundState.round ≠ lastRound
  | .setValidators _ _ => s.Unvoted address
  | .restoreQuorumSnapshot snapshot _ _ _ =>
    s.blocks.length < snapshot.blocks.length ∨
      (s.blocks.length = snapshot.blocks.length ∧ s.Unvoted address)
  | _ => True

/-- What a steady operation does to the position and the votes. -/
inductive PositionStep (address : Bytes) (s t : PersistedState) : Prop
  | grown : s.blocks.length < t.blocks.length → PositionStep address s t
  | kept : s.blocks.length = t.blocks.length →
      s.roundState.round ≤ t.roundState.round → s.votes ⊆ t.votes →
      PositionStep address s t
  | unvoted : s.blocks.length = t.blocks.length → s.Unvoted address →
      PositionStep address s t

variable {H : Host} {s t : PersistedState} {now : Time} {address : Bytes}

theorem PositionStep.position_le (h : PositionStep address s t) :
    s.position ≤ t.position := by
  rw [position_le_iff]
  cases h with
  | grown hlt => exact .inl hlt
  | kept hlen hround _ => exact .inr ⟨hlen, hround⟩
  | unvoted hlen hunvoted =>
    refine .inr ⟨hlen, ?_⟩
    rw [hunvoted.round]
    exact UInt64.le_iff_toNat_le.2 (Nat.zero_le _)

theorem roundHeight_of_normal (h : normalizeState s = s) :
    s.roundState.height = s.blocks.length + 1 := by
  have hheight := normalizeState_roundHeight s
  rwa [h] at hheight

/-- A state that keeps the blocks of a normal one and a later round of
its height. -/
theorem positionStep_of_round (hnormal : normalizeState s = s)
    (hblocks : t.blocks = s.blocks)
    (hheight : t.roundState.height = s.roundState.height)
    (hround : s.roundState.round ≤ t.roundState.round)
    (hvotes : s.votes ⊆ t.votes) :
    PositionStep address s (normalizeState t) := by
  have hkept : (normalizeState t).roundState = t.roundState := by
    refine if_neg (not_not.2 ?_)
    rw [hheight, hblocks]
    exact roundHeight_of_normal hnormal
  refine .kept ?_ ?_ hvotes
  · rw [normalizeState_blocks, hblocks]
  · rw [hkept]
    exact hround

theorem MessageStep.positionStep {height : Nat} {round : UInt64}
    (h : MessageStep s t height round) (hnormal : normalizeState s = s)
    (hvotes : s.votes ⊆ t.votes) :
    PositionStep address s (normalizeState t) := by
  obtain ⟨startedAt, hround⟩ := h.position
  have hlater := h.later
  rw [hnormal] at hlater
  refine positionStep_of_round hnormal h.ledger.blocks ?_ ?_ hvotes
  · rw [hround, roundHeight_of_normal hnormal]
  · rw [hround]
    exact hlater

variable {chainID : Bytes}

theorem importBlockIntoState_positionStep {b : Block}
    (h : importBlockIntoState H s b chainID = .ok t)
    (hnormal : normalizeState s = s) :
    t = s ∨ t.blocks.length = s.blocks.length + 1 := by
  obtain ⟨-, ⟨-, -, rfl⟩ | ⟨accounts, himports⟩⟩ :=
    importBlockIntoState_eq_ok.1 h
  · exact .inl hnormal
  · right
    rw [himports.state]
    show (s.blocks ++ [b]).length = _
    rw [List.length_append, List.length_singleton]

theorem positionStep_self (hnormal : normalizeState s = s) :
    PositionStep address s (normalizeState s) :=
  positionStep_of_round hnormal rfl rfl (UInt64.le_refl _)
    (List.Subset.refl _)

theorem positionStep_of_length (h : t.blocks.length = s.blocks.length + 1) :
    PositionStep address s (normalizeState t) := by
  refine .grown ?_
  rw [normalizeState_blocks, h]
  exact Nat.lt_succ_self _

theorem produceBlockWithOptions_positionStep {maxTransactions : Int}
    {producedAt : Time} {requireConsensus : Bool}
    (h : produceBlockWithOptions H s maxTransactions producedAt now
      requireConsensus = .ok t) (hnormal : normalizeState s = s) :
    PositionStep address s (normalizeState t) := by
  rcases produceBlockWithOptions_cases h with ⟨b, hb⟩ | ⟨b, hb⟩
  · obtain ⟨-, accounts, root, -, -, -, rfl⟩ :=
      produceBlockFromState_eq_ok.1 hb
    refine positionStep_of_length ?_
    show (s.blocks ++ [b]).length = _
    rw [List.length_append, List.length_singleton]
  · rcases importBlockIntoState_positionStep hb hnormal with rfl | hlen
    · exact positionStep_self hnormal
    · exact positionStep_of_length hlen

theorem ImportedEvidence.positionStep {b : Block}
    {evidence : CertifiedBlockEvidence}
    (h : ImportedEvidence H s t b evidence now)
    (hnormal : normalizeState s = s) :
    PositionStep address s (normalizeState t) := by
  obtain ⟨next, himport, hledger, hround, -⟩ := h.imported
  obtain ⟨stored, counted, -, -, -, -, -, hvotes, -⟩ := h.counted
  rcases importBlockIntoState_positionStep himport hnormal with rfl | hlen
  · refine positionStep_of_round hnormal hledger.blocks (by rw [hround]) ?_ ?_
    · rw [hround]
      exact UInt64.le_refl _
    · rw [hvotes]
      exact subset_mergeVotes _ _
  · refine positionStep_of_length ?_
    rw [hledger.blocks]
    exact hlen

theorem advanceRound_positionStep {start : Time}
    (h : advanceRound s start now = .ok t) (hnormal : normalizeState s = s)
    (hlast : s.roundState.round ≠ lastRound) :
    PositionStep address s (normalizeState t) := by
  simp only [advanceRound, ok_iff] at h
  obtain ⟨-, rfl⟩ := h
  refine positionStep_of_round hnormal rfl rfl ?_ (List.Subset.refl _)
  have hnext : nextUint64 s.roundState.round =
      some (s.roundState.round + 1) := if_neg hlast
  rw [nextUint64_eq_some] at hnext
  rw [UInt64.le_iff_toNat_le, hnext]
  exact Nat.le_succ _

theorem restoreQuorumSnapshot_blocks {snapshot : Snapshot}
    {proofs : List SnapshotProof} {trusted : ValidatorSnapshot}
    (h : restoreQuorumSnapshot H s snapshot chainID proofs trusted = .ok t) :
    t.blocks = snapshot.blocks := by
  simp only [restoreQuorumSnapshot, ok_iff] at h
  obtain ⟨-, -, rfl⟩ := h
  rfl

variable {op : Operation}

theorem next_positionStep (hnormal : normalizeState s = s)
    (hsteady : op.Steady address s) (h : op.next H s now = .ok (some t)) :
    PositionStep address s (normalizeState t) := by
  cases op with
  | creditWithID requestID account amount =>
    obtain ⟨-, -, rfl⟩ := creditWithID_eq_ok.1 h
    exact positionStep_of_round hnormal rfl rfl (UInt64.le_refl _)
      (List.Subset.refl _)
  | ensureRoundStarted start =>
    obtain rfl := ensureRoundStarted_eq_some h
    exact positionStep_of_round hnormal rfl rfl (UInt64.le_refl _)
      (List.Subset.refl _)
  | accept e =>
    have hnext := map_some_eq_ok.1 h
    obtain ⟨-, -, -, rfl⟩ := accept_eq_ok.1 hnext
    exact positionStep_of_round hnormal rfl rfl (UInt64.le_refl _)
      (List.Subset.refl _)
  | produceBlock maxTransactions producedAt requireConsensus =>
    have hnext := map_some_eq_ok.1 h
    exact produceBlockWithOptions_positionStep hnext hnormal
  | importBlock b requireConsensus =>
    have hnext := map_some_eq_ok.1 h
    rcases importBlockIntoState_positionStep
      (importBlockWithOptions_import hnext) hnormal with rfl | hlen
    · exact positionStep_self hnormal
    · exact positionStep_of_length hlen
  | importBlockWithEvidence b evidence =>
    have hnext := map_some_eq_ok.1 h
    exact (importBlockWithEvidence_imported hnext).positionStep hnormal
  | setValidators validators config =>
    have hnext := map_some_eq_ok.1 h
    simp only [setValidators, ok_iff] at hnext
    obtain ⟨-, rfl⟩ := hnext
    exact .unvoted rfl hsteady
  | recordProposal p =>
    have hnext := map_some_eq_ok.1 h
    have hp := recordProposal_recorded hnext
    exact hp.message.positionStep hnormal (hp.votes ▸ List.Subset.refl _)
  | recordVote v =>
    obtain ⟨result, hresult, heq⟩ := map_eq_ok.1 h
    cases heq
    obtain ⟨hmessage, hcases⟩ := recordVote_recorded hresult
    refine hmessage.positionStep hnormal ?_
    rcases hcases with hsame | ⟨power, hvote⟩
    · rw [hsame.votes]
      exact List.Subset.refl _
    · rw [hvote.votes]
      exact List.subset_append_left _ _
  | advanceRound start =>
    have hnext := map_some_eq_ok.1 h
    exact advanceRound_positionStep hnext hnormal hsteady
  | restoreQuorumSnapshot snapshot chainID proofs trusted =>
    have hnext := map_some_eq_ok.1 h
    have hblocks := restoreQuorumSnapshot_blocks hnext
    rcases hsteady with hlt | ⟨hlen, hunvoted⟩
    · refine .grown ?_
      rw [normalizeState_blocks, hblocks]
      exact hlt
    · refine .unvoted ?_ hunvoted
      rw [normalizeState_blocks, hblocks]
      exact hlen

-- ==== settled votes

/-- A vote of the address with the height, round and block hash of
another one is stored. -/
def StoredVote (address : Bytes) (s : PersistedState) (v : Vote) : Prop :=
  ∃ r ∈ s.votes, r.vote.voter = address ∧ r.vote.height = v.height ∧
    r.vote.round = v.round ∧ r.vote.blockHash = v.blockHash

/-- A vote the store cannot contradict any more. -/
def Settled (address : Bytes) (s : PersistedState) (v : Vote) : Prop :=
  v.height ≤ s.blocks.length ∨
    (v.height = s.blocks.length + 1 ∧ StoredVote address s v)

variable {v : Vote}

theorem Settled.step (h : Settled address s v)
    (hstep : PositionStep address s t) : Settled address t v := by
  rcases h with hold | ⟨hheight, r, hr, hvoter, hsame⟩
  · left
    cases hstep with
    | grown hlt => omega
    | kept hlen _ _ => omega
    | unvoted hlen _ => omega
  · cases hstep with
    | grown hlt =>
      left
      omega
    | kept hlen _ hvotes =>
      right
      exact ⟨by omega, r, hvotes hr, hvoter, hsame⟩
    | unvoted _ hunvoted =>
      exact absurd hvoter (hunvoted.votes r hr (hsame.1.trans hheight))

theorem Vote.observed_slot (v : Vote) (now : Time) :
    (v.observed now).height = v.height ∧ (v.observed now).round = v.round ∧
      (v.observed now).voter = v.voter ∧
      (v.observed now).blockHash = v.blockHash := by
  unfold Vote.observed
  split
  · exact ⟨rfl, rfl, rfl, rfl⟩
  · exact ⟨rfl, rfl, rfl, rfl⟩

theorem exists_of_findVoteByValidator {votes : List VoteRecord}
    {height : Nat} {round : UInt64} {voter : Bytes}
    (h : findVoteByValidator votes height round voter = some v) :
    ∃ r ∈ votes, r.vote = v ∧ v.height = height ∧ v.round = round ∧
      v.voter = voter := by
  obtain ⟨r, hfind, rfl⟩ := Option.map_eq_some_iff.1 h
  have hfound := List.find?_some hfind
  exact ⟨r, List.mem_of_find?_eq_some hfind, rfl, of_decide_eq_true hfound⟩

/-- A recorded vote is for the next height, it is stored, and it does not
contradict a vote that was there. -/
theorem recordVote_stored
    {result : PersistedState × VoteTally × Option CommitCertificate}
    (h : recordVote H s v now = .ok result)
    (hdistinct : DistinctVotes s.votes) :
    v.height = s.blocks.length + 1 ∧ StoredVote v.voter result.1 v ∧
      ∀ v', StoredVote v.voter s v' → v'.height = v.height →
        v'.round = v.round → v'.blockHash = v.blockHash := by
  obtain ⟨hheight, hround, hvoter, hhash⟩ := v.observed_slot now
  simp only [recordVote, ok_iff] at h
  obtain ⟨-, h⟩ := h
  obtain ⟨aligned, power, haligned, -, -, hnext, -, hcases⟩ :=
    recordVoteIntoState_cases h
  obtain ⟨-, startedAt, rfl⟩ := alignRoundState_normalizeState haligned
  have hvotes : (alignedState s (v.observed now).round startedAt).votes =
      s.votes := rfl
  rw [hvotes, hheight, hround, hvoter, hhash] at hcases
  refine ⟨hheight.symm.trans hnext, ?_, ?_⟩
  · rcases hcases with ⟨existing, hfind, hsame, hresult⟩ | ⟨-, hresult⟩
    · obtain ⟨r, hr, rfl, hslot⟩ := exists_of_findVoteByValidator hfind
      rw [hresult]
      exact ⟨r, hr, hslot.2.2, hslot.1, hslot.2.1, hsame⟩
    · obtain ⟨happended, -⟩ := appendVote_votes
        (alignedState s (v.observed now).round startedAt) (v.observed now)
        power now
      refine ⟨⟨v.observed now, power, now⟩, ?_, hvoter, hheight, hround, hhash⟩
      rw [hresult]
      show _ ∈ (appendVote (alignedState s v.round startedAt)
        (v.observed now) power now).1.votes
      rw [hround] at happended
      rw [happended]
      exact List.mem_append_right _ (List.mem_singleton_self _)
  · rintro v' ⟨r, hr, hrvoter, hrheight, hrround, hrhash⟩ hheight' hround'
    have hfind := hdistinct.find hr
    rw [hrvoter, hrheight, hrround, hheight', hround'] at hfind
    rcases hcases with ⟨existing, hexisting, hsame, -⟩ | ⟨hnone, -⟩
    · rw [hfind] at hexisting
      rw [← hrhash, Option.some.inj hexisting]
      exact hsame
    · rw [hfind] at hnone
      cases hnone

-- ==== runs

variable {reread : PersistedState → PersistedState} {config : Config}

/-- The steps of a server that make it forget nothing. -/
def Server.Steady (config : Config) (σ : Server) : ServerStep → Prop
  | .request op _ _ => op.Steady config.validatorAddress σ.node.store
  | .advance _ _ => σ.node.store.roundState.round ≠ lastRound
  | _ => True

/-- The runs of steady steps from one server to another, over files that
JSON keeps as they are. -/
inductive Server.Reaches (H : Host)
    (reread : PersistedState → PersistedState) (config : Config)
    (σ : Server) : Server → Prop
  | refl : Server.Reaches H reread config σ σ
  | step {τ : Server} (st : ServerStep) : Server.Reaches H reread config σ τ →
      τ.Steady config st → (st = .restart → reread τ.node.file = τ.node.file) →
      Server.Reaches H reread config σ (τ.step H reread config st)

/-- A server on an empty store. -/
def Server.opened (s : PersistedState) : Server := ⟨⟨s, s⟩, .idle, []⟩

structure ServerInv (H : Host) (reread : PersistedState → PersistedState)
    (chainID : Bytes) (config : Config) (σ : Server) : Prop where
  node : Reachable H reread chainID σ.node
  stage : ∀ v, σ.stage = .signed v → v.voter = config.validatorAddress
  settled : ∀ v ∈ σ.broadcast,
    Settled config.validatorAddress σ.node.store v
  agree : ∀ v ∈ σ.broadcast, ∀ v' ∈ σ.broadcast, v.height = v'.height →
    v.round = v'.round → v.blockHash = v'.blockHash

variable {writes : Bool}

/-- A steady call on a node. -/
theorem Reachable.positionStep {n : Node}
    (h : Reachable H reread chainID n)
    (hsteady : op.Steady address n.store) :
    PositionStep address n.store
      (n.call H reread (.operation op now writes)).1.store := by
  have hread : n.Rereads reread (.operation op now writes) :=
    fun hreopen => by cases hreopen
  rcases call_cases (H := H) h.stable hread with
    heq | ⟨op', now', t, hsame, hnext, heq⟩
  · rw [heq]
    exact .kept rfl (UInt64.le_refl _) (List.Subset.refl _)
  · cases hsame
    rw [heq]
    exact next_positionStep h.stable.normal hsteady hnext

variable {σ : Server}

theorem ServerInv.called (h : ServerInv H reread chainID config σ)
    (op : Operation) (now : Time) (writes : Bool)
    (hsteady : op.Steady config.validatorAddress σ.node.store) :
    ServerInv H reread chainID config
      { σ with node := (σ.node.call H reread (.operation op now writes)).1 } :=
  ⟨h.node.call _ (fun hreopen => by cases hreopen), h.stage,
    fun v hv => (h.settled v hv).step (h.node.positionStep hsteady), h.agree⟩

theorem signVote_voter {signPayload : Bytes → Except Error Bytes}
    {v' : Vote} {clock : Time}
    (h : signVote H config signPayload v now clock = .ok v') :
    v'.voter = config.validatorAddress := by
  simp only [signVote, ok_iff] at h
  obtain ⟨signature, -, rfl⟩ := h
  rfl

theorem maybeAutomateVoteRead_voter
    {signPayload : Bytes → Except Error Bytes} {clock : Time}
    {stage : VoteStage}
    (hstage : ∀ v, stage = .signed v → v.voter = config.validatorAddress)
    (h : maybeAutomateVoteRead H config signPayload s now clock stage =
      .signed v) : v.voter = config.validatorAddress := by
  cases stage with
  | idle =>
    simp only [maybeAutomateVoteRead] at h
    split at h <;> cases h
  | viewed view =>
    simp only [maybeAutomateVoteRead] at h
    cases hfind : findProposal s.proposals view.nextHeight
        view.currentRound with
    | none =>
      rw [hfind] at h
      cases h
    | some p =>
      rw [hfind] at h
      cases h
  | found p =>
    simp only [maybeAutomateVoteRead] at h
    split at h
    · cases h
    · cases hsign : signVote H config signPayload (voteTemplate p) now
          clock with
      | error e =>
        rw [hsign] at h
        cases h
      | ok v' =>
        rw [hsign] at h
        cases h
        exact signVote_voter hsign
  | signed v' => exact hstage v h

/-- The vote of a call that has recorded it. -/
theorem recordVote_of_call {n : Node}
    (h : (n.call H reread (.operation (.recordVote v) now writes)).2 = none) :
    ∃ result, recordVote H n.store v now = .ok result ∧
      (n.call H reread (.operation (.recordVote v) now writes)).1.store =
        normalizeState result.1 := by
  simp only [Node.call, Operation.next] at h ⊢
  cases hrecord : recordVote H n.store v now with
  | error e =>
    simp only [hrecord] at h
    cases h
  | ok result =>
    refine ⟨result, rfl, ?_⟩
    cases writes with
    | false =>
      simp only [hrecord] at h
      cases h
    | true => rfl

theorem ServerInv.recorded (h : ServerInv H reread chainID config σ)
    (hvoter : v.voter = config.validatorAddress) :
    ServerInv H reread chainID config
      (σ.recordAndBroadcast H reread v now writes) := by
  have hcalled := h.called (.recordVote v) now writes trivial
  unfold Server.recordAndBroadcast
  dsimp only
  by_cases hok :
      (σ.node.call H reread (.operation (.recordVote v) now writes)).2 = none
  swap
  · rw [if_neg hok]
    exact ⟨hcalled.node, (fun v hv => by cases hv), hcalled.settled, h.agree⟩
  rw [if_pos hok]
  obtain ⟨result, hrecord, hstore⟩ := recordVote_of_call hok
  obtain ⟨hheight, hstored, hagrees⟩ := recordVote_stored hrecord
    h.node.certified.votes.distinct
  rw [hvoter] at hstored hagrees
  -- a broadcast vote of the same round is stored, so it is for this block
  have hold : ∀ v' ∈ σ.broadcast, v'.height = v.height →
      v'.round = v.round → v'.blockHash = v.blockHash := by
    intro v' hv' hheight' hround'
    rcases h.settled v' hv' with hlow | ⟨-, hstored'⟩
    · omega
    · exact hagrees v' hstored' hheight' hround'
  refine ⟨hcalled.node, (fun v hv => by cases hv), ?_, ?_⟩
  · refine forall_mem_concat hcalled.settled ?_
    right
    show v.height = (σ.node.call H reread
      (.operation (.recordVote v) now writes)).1.store.blocks.length + 1 ∧ _
    rw [hstore]
    refine ⟨?_, hstored⟩
    rw [normalizeState_blocks, (recordVote_sameLedger hrecord).blocks]
    exact hheight
  · intro v₁ hv₁ v₂ hv₂ hheight' hround'
    rcases List.mem_append.1 hv₁ with hv₁ | hv₁
    · rcases List.mem_append.1 hv₂ with hv₂ | hv₂
      · exact h.agree v₁ hv₁ v₂ hv₂ hheight' hround'
      · rw [List.mem_singleton.1 hv₂] at hheight' hround' ⊢
        exact hold v₁ hv₁ hheight' hround'
    · rw [List.mem_singleton.1 hv₁] at hheight' hround' ⊢
      rcases List.mem_append.1 hv₂ with hv₂ | hv₂
      · exact (hold v₂ hv₂ hheight'.symm hround'.symm).symm
      · rw [List.mem_singleton.1 hv₂]

theorem maybeAdvanceConsensusRound_op
    (h : maybeAdvanceConsensusRound config s now = some op) :
    op = .advanceRound now := by
  unfold maybeAdvanceConsensusRound at h
  dsimp only at h
  repeat (split at h; · cases h)
  split at h
  · exact (Option.some.inj h).symm
  · cases h

/-- One steady step keeps the invariant and does not move the store
back. -/
theorem ServerInv.step (h : ServerInv H reread chainID config σ)
    {st : ServerStep} (hsteady : σ.Steady config st)
    (hread : st = .restart → reread σ.node.file = σ.node.file) :
    ServerInv H reread chainID config (σ.step H reread config st) ∧
      σ.node.store.position ≤ (σ.step H reread config st).node.store.position
      := by
  cases st with
  | request op now writes =>
    exact ⟨h.called op now writes hsteady, (h.node.positionStep hsteady).position_le⟩
  | restart =>
    have hrereads : σ.node.Rereads reread .reopen := fun _ => hread rfl
    have hsame : (σ.node.call H reread .reopen).1 = σ.node := by
      rcases call_cases (H := H) h.node.stable hrereads with
        heq | ⟨op, now, t, hop, -⟩
      · exact heq
      · cases hop
    simp only [Server.step, hsame]
    exact ⟨⟨h.node, (fun v hv => by cases hv), h.settled, h.agree⟩, le_refl _⟩
  | advance now writes =>
    simp only [Server.step]
    split
    next => exact ⟨h, le_refl _⟩
    next op hop =>
      obtain rfl := maybeAdvanceConsensusRound_op hop
      have hop : Operation.Steady config.validatorAddress σ.node.store
        (.advanceRound now) := hsteady
      exact ⟨h.called _ now writes hop, (h.node.positionStep hop).position_le⟩
  | propose signPayload now writes =>
    simp only [Server.step]
    split
    next p _ =>
      have hop : Operation.Steady config.validatorAddress σ.node.store
        (.recordProposal p) := trivial
      exact ⟨h.called _ now writes hop, (h.node.positionStep hop).position_le⟩
    next => exact ⟨h, le_refl _⟩
  | vote signPayload now writes =>
    simp only [Server.step]
    split
    next v hstage =>
      have hop : Operation.Steady config.validatorAddress σ.node.store
        (.recordVote v) := trivial
      exact ⟨h.recorded (h.stage v hstage),
        (h.node.positionStep hop).position_le⟩
    next =>
      exact ⟨⟨h.node, fun v hv => maybeAutomateVoteRead_voter h.stage hv,
        h.settled, h.agree⟩, le_refl _⟩

theorem Server.Reaches.inv {τ : Server}
    (h : Server.Reaches H reread config σ τ)
    (hinv : ServerInv H reread chainID config σ) :
    ServerInv H reread chainID config τ ∧
      σ.node.store.position ≤ τ.node.store.position := by
  induction h with
  | refl => exact ⟨hinv, le_refl _⟩
  | step st _ hsteady hread ih =>
    obtain ⟨hmid, hle⟩ := ih
    obtain ⟨hnext, hle'⟩ := hmid.step hsteady hread
    exact ⟨hnext, le_trans hle hle'⟩

theorem serverInv_opened (h : newStoreWithChainID H chainID = .ok s) :
    ServerInv H reread chainID config (Server.opened s) :=
  ⟨.opened h, (fun v hv => by cases hv),
    fun _ hv => absurd hv List.not_mem_nil,
    fun _ hv => absurd hv List.not_mem_nil⟩

/-- In every run of steady steps the broadcast votes of a height and
round are for one block, and the next height and round never move back. -/
theorem validator_never_equivocates {chainID : Bytes} {σ τ : Server}
    (hopen : newStoreWithChainID H chainID = .ok s)
    (h : Server.Reaches H reread config (Server.opened s) σ)
    (h' : Server.Reaches H reread config σ τ) :
    (∀ v ∈ τ.broadcast, ∀ v' ∈ τ.broadcast, v.height = v'.height →
        v.round = v'.round → v.blockHash = v'.blockHash) ∧
      σ.node.store.position ≤ τ.node.store.position := by
  obtain ⟨hinv, -⟩ := h.inv (serverInv_opened hopen)
  obtain ⟨hinv', hle⟩ := h'.inv hinv
  exact ⟨hinv'.agree, hle⟩

-- ==== samples

/-- The validator with a key of one byte. -/
def sampleConfig (key : UInt8) : Config where
  chainID := sampleChain
  validatorAddress := sampleAddress key
  publicKey := [key]
  consensusRoundTimeout := 1
  enableBlockProduction := true
  maxTransactionsPerBlock := 0

def sampleSign : Bytes → Except Error Bytes := fun _ => .ok sampleSignature

/-- A server of the validator with key 2 after some steps. -/
def sampleServer (steps : List ServerStep) : Server :=
  steps.foldl (Server.step sampleHost id (sampleConfig 2))
    (Server.opened (emptyState sampleChain))

/-- The steps of one `maybeAutomateVote`. -/
def votingSteps : List ServerStep :=
  List.replicate 4 (.vote sampleSign 6 true)

/-- Requests, one after the other. -/
def requests (ops : List Operation) : List ServerStep :=
  ops.map (ServerStep.request · 4 true)

/-- Members that all have the same power. -/
def sampleMembers (keys : List UInt8) : List Validator :=
  keys.map fun key => ⟨1, sampleAddress key, 10, 0, 0, 0⟩

/-- The validator proposes a block and votes for it. -/
def proposingSteps : List ServerStep :=
  requests (openingOps (sampleMembers [2])) ++
    [.propose sampleSign 6 true] ++ votingSteps

theorem sampleServer_append (steps : List ServerStep) (st : ServerStep) :
    sampleServer (steps ++ [st]) =
      (sampleServer steps).step sampleHost id (sampleConfig 2) st := by
  rw [sampleServer, List.foldl_append]
  rfl

theorem sampleServer_reaches {steps : List ServerStep}
    (h : Server.Reaches sampleHost id (sampleConfig 2) σ (sampleServer steps))
    (st : ServerStep)
    (hsteady : (sampleServer steps).Steady (sampleConfig 2) st) :
    Server.Reaches sampleHost id (sampleConfig 2) σ
      (sampleServer (steps ++ [st])) := by
  rw [sampleServer_append]
  exact h.step st hsteady fun _ => rfl

theorem proposingSteps_agree :
    (sampleServer proposingSteps).broadcast.length = 1 ∧
      (sampleServer []).node.store.position ≤
        (sampleServer proposingSteps).node.store.position := by
  have hunvoted : (sampleServer (requests
      [.creditWithID (utf8 "r") (sampleAddress 1) 9,
        .accept (sampleEnvelope 1 3 3 1)])).node.store.Unvoted
      (sampleAddress 2) := ⟨by decide +kernel, by decide +kernel⟩
  have hopened : Server.Reaches sampleHost id (sampleConfig 2)
      (sampleServer []) (sampleServer []) := .refl
  have hset := sampleServer_reaches (sampleServer_reaches
    (sampleServer_reaches hopened (.request
      (.creditWithID (utf8 "r") (sampleAddress 1) 9) 4 true) trivial)
    (.request (.accept (sampleEnvelope 1 3 3 1)) 4 true) trivial)
    (.request (.setValidators (sampleMembers [2]) ⟨0, 0, 0⟩) 4 true) hunvoted
  have hproposed := sampleServer_reaches hset (.propose sampleSign 6 true)
    trivial
  have hvoted := sampleServer_reaches (sampleServer_reaches
    (sampleServer_reaches (sampleServer_reaches hproposed
      (.vote sampleSign 6 true) trivial) (.vote sampleSign 6 true) trivial)
    (.vote sampleSign 6 true) trivial) (.vote sampleSign 6 true) trivial
  exact ⟨by decide +kernel,
    (validator_never_equivocates sampleChain_opens hopened hvoted).2⟩

/-- The validator set is set again after the vote, and the validator
proposes and votes once more. -/
def clearingSteps : List ServerStep :=
  proposingSteps ++ requests [.accept (sampleEnvelope 1 3 2 2),
    .advanceRound 6, .setValidators (sampleMembers [2]) ⟨0, 0, 0⟩] ++
    [.propose sampleSign 7 true] ++ votingSteps

/-- The steps up to the advance. -/
def advancedSteps : List ServerStep :=
  proposingSteps ++ requests [.accept (sampleEnvelope 1 3 2 2),
    .advanceRound 6]

/-- A message of the last round, and an advance. -/
def wrappingSteps : List ServerStep :=
  requests (openingOps (sampleMembers [2, 3]) ++
    [.recordProposal (sampleProposal 3 lastRound (sampleBlock (sampleRun
      (openingOps (sampleMembers [2, 3]))))), .advanceRound 6])

/-- A new validator set at the same height makes the validator broadcast
votes for two blocks of one round and puts the round back, and so does
the end of the round counter. -/
theorem clearedVotes_equivocate :
    ((sampleServer clearingSteps).broadcast.map
        fun v => (v.height, v.round)) = [(1, 0), (1, 0)] ∧
      ((sampleServer clearingSteps).broadcast.map Vote.blockHash).Nodup ∧
      ((sampleServer advancedSteps).node.store.blocks.length,
          (sampleServer advancedSteps).node.store.roundState.round) = (0, 1) ∧
      ((sampleServer clearingSteps).node.store.blocks.length,
          (sampleServer clearingSteps).node.store.roundState.round) = (0, 0) ∧
      (sampleServer (wrappingSteps.take 4)).node.store.roundState.round =
        lastRound ∧
      ((sampleServer wrappingSteps).node.store.blocks.length,
          (sampleServer wrappingSteps).node.store.roundState.round) =
        (0, 0) := by
  decide +kernel

end ZephyrChain.Ledger
