/-
Runs of commits.

# One commit

A commit that went through has passed every check, and its stages have
changed no more than their own file or store (`commit_eq_ok`). The store
of each shard answers with the root the block's commitment names.

# Progress

The other direction is about the proposer: what `BuildCandidate` returns
passes the checks of `Commit`, so a certificate is all it needs.

# Whole runs

`Run` is what any calls of `Commit` make of a runtime: candidates and
certificates of any origin, every interleaving of the workers, every
fault of the operating system. As long as the runtime is not in recovery
the blocks that went through are one certified chain, the stores are
what the last block commits to, and the anchor and the history stand at
that block.
-/
import ZephyrChain.Consensus.Proofs.Quorum
import ZephyrChain.Node.Proofs.Build

namespace ZephyrChain.Node

open Lib
open WorldState (AppendFault Mirrors)
open Consensus (ValidatorSet Certificate Vote headerConsensusHash)
open Economics (Telemetry)

variable {C : Crypto} {T : Telemetry} {r r' : Runtime C T}

-- ==== stores

variable {fault : AppendFault} {root : Hash}

/-- A store that has taken a delta has taken it in memory. -/
theorem Backend.apply_eq_none {b b' : Backend} {consumed : List ObjectID}
    {created : List Object}
    (h : b.apply C fault consumed created = (b', root, none)) :
    b.mem.apply C consumed created = (b'.mem, root, none) := by
  cases b with
  | memory m =>
    obtain ⟨hstore, hout⟩ := Prod.ext_iff.1 h
    have hmem : (m.apply C consumed created).1 = b'.mem :=
      congrArg Backend.mem hstore
    exact Prod.ext hmem hout
  | disk s =>
    simp only [Backend.apply, WorldState.Disk.apply] at h
    show s.disk.mem.apply C consumed created = _
    split at h
    case isTrue => cases h
    case isFalse =>
      split at h
      case h_1 => cases h
      case h_2 =>
        split at h
        case h_1 => cases h
        case h_2 =>
          split at h
          case h_1 => cases h
          case h_2 hm =>
            cases h
            exact hm

/-- Such a store mirrors its objects still, at the root returned. -/
theorem Backend.mirrors_apply {b b' : Backend} {consumed : List ObjectID}
    {created : List Object} (hb : Mirrors C b.mem)
    (h : b.apply C fault consumed created = (b', root, none)) :
    Mirrors C b'.mem ∧ b'.root C = root := by
  have happly := Backend.apply_eq_none h
  rcases hb.apply_cases consumed created with ⟨e, he⟩ | ⟨_, hm, _, hroot⟩
  · rw [happly] at he
    have hnone : none = some e := congrArg (fun out => out.2.2) he
    cases hnone
  · rw [happly] at hm hroot
    exact ⟨hm, (congrArg Prod.fst hroot).symm⟩

-- ==== stages

theorem Stage.andThen_eq_nil {first second : Stage C T}
    (h : first.andThen second r = (r', [])) :
    ∃ s, first r = (s, []) ∧ second s = (r', []) := by
  rw [Stage.andThen_eq] at h
  split at h
  case isTrue hnil => exact ⟨_, Prod.ext rfl hnil, h⟩
  case isFalse hne => exact absurd (congrArg Prod.snd h) hne

theorem writeIntent_eq_nil {fault : ReplaceFault}
    {intent : Option GlobalCommitIntent}
    (h : writeIntent fault intent r = (r', [])) :
    ∃ journal, r' = { r with journal := journal } := by
  unfold writeIntent at h
  split at h
  case h_2 =>
    cases h
    exact ⟨r.journal, rfl⟩
  case h_1 =>
    split at h
    case h_1 =>
      cases h
      exact ⟨_, rfl⟩
    case h_2 => cases h

/-- The history stands at an intent. -/
structure CertifiedHistory.AtIntent (C : Crypto) (h : CertifiedHistory)
    (i : GlobalCommitIntent) : Prop where
  height : h.height = i.header.height
  parent : h.parent = headerConsensusHash C i.header
  roots : ∀ shard c, commitmentOf i.commitments shard = some c →
    h.roots shard = some c.stateRoot

theorem CertifiedHistory.taken_at (h : CertifiedHistory)
    (i : GlobalCommitIntent) (payload : Bytes) :
    (h.taken C i payload).AtIntent C i := by
  refine ⟨rfl, rfl, fun shard c hc => ?_⟩
  simp only [taken, hc]

variable {validators : ValidatorSet}

/-- The history has taken the intent, if there is a history. -/
theorem appendHistory_eq_nil {fault : WriteFault}
    {intent : Option GlobalCommitIntent}
    (h : appendHistory fault intent validators r = (r', [])) :
    ∃ history, r' = { r with history := history } ∧
      ∀ h' ∈ history, ∃ i, intent = some i ∧ h'.AtIntent C i := by
  unfold appendHistory at h
  split at h
  case h_1 hnone =>
    cases h
    refine ⟨r.history, rfl, fun h' hh' => ?_⟩
    rw [hnone] at hh'
    cases hh'
  case h_2 history _ =>
    split at h
    case h_1 => cases h
    case h_2 i =>
      split at h
      case h_2 => cases h
      case h_1 taken happend =>
        cases h
        refine ⟨some taken, rfl, fun h' hh' => ?_⟩
        cases hh'
        unfold CertifiedHistory.append at happend
        split at happend
        case h_1 => cases happend
        case h_2 payload _ =>
          refine ⟨i, rfl, ?_⟩
          dsimp only at happend
          split at happend
          case isTrue => cases happend
          case isFalse =>
            split at happend
            case h_1 => cases happend
            case h_2 => cases happend
            case h_3 =>
              cases happend
              exact history.taken_at i payload

/-- The anchor stands at the mark, if there is an anchor. -/
theorem advanceAnchor_eq_nil {fault : WriteFault} {height : UInt64}
    {hash : Hash} (h : advanceAnchor fault height hash r = (r', [])) :
    ∃ anchor, r' = { r with anchorStore := anchor } ∧
      ∀ a ∈ anchor, a.height = height ∧ a.hash = hash := by
  unfold advanceAnchor at h
  split at h
  case h_1 hnone =>
    cases h
    refine ⟨r.anchorStore, rfl, fun a ha => ?_⟩
    rw [hnone] at ha
    cases ha
  case h_2 anchor _ =>
    split at h
    case h_2 => cases h
    case h_1 advanced hadvance =>
      cases h
      refine ⟨some advanced, rfl, fun a ha => ?_⟩
      cases ha
      unfold FinalityAnchorStore.advance at hadvance
      split at hadvance
      case h_1 => cases hadvance
      case h_2 hcheck =>
        split at hadvance
        case isTrue heq =>
          -- the mark is the one the anchor stands at
          simp only [FinalityAnchorStore.checkAdvance, ok_iff, not_or,
            not_and, not_not] at hcheck
          cases hadvance
          exact ⟨heq.symm, (hcheck.2.2.1.2 heq).symm⟩
        case isFalse =>
          split at hadvance
          case h_1 => cases hadvance
          case h_2 => cases hadvance
          case h_3 =>
            cases hadvance
            exact ⟨rfl, rfl⟩

/-- A shard has taken its delta and answers with the committed root. -/
def ShardApplied (C : Crypto) (candidate : Candidate) (shard : UInt32)
    (before after : Backend) : Prop :=
  ∃ fault root, before.apply C fault
      ((candidate.deltas.lookup shard).getD ⟨[], []⟩).consumed
      ((candidate.deltas.lookup shard).getD ⟨[], []⟩).created =
        (after, root, none) ∧
    (commitmentOf candidate.commitments shard).map Commitment.stateRoot =
      some root

variable {candidate : Candidate} {shard : UInt32}

theorem applyShard_eq_nil
    (h : applyShard fault candidate shard r = (r', [])) :
    ∃ store, ShardApplied C candidate shard (r.states shard) store ∧
      r' = { r with states := Function.update r.states shard store } := by
  simp only [applyShard] at h
  generalize happly : (r.states shard).apply C fault _ _ = out at h
  obtain ⟨store, root, error⟩ := out
  cases error with
  | some e => cases h
  | none =>
    simp only at h
    split at h
    case isTrue hroot =>
      cases h
      exact ⟨store, ⟨fault, root, happly, hroot⟩, rfl⟩
    case isFalse => cases h

/-- Each shard of a list has taken its delta, every other is as it was. -/
theorem applyShards_eq_nil {faults : UInt32 → AppendFault}
    {shards : List UInt32} (hnodup : shards.Nodup)
    (h : applyShards faults candidate shards r = (r', [])) :
    ∃ states, r' = { r with states := states } ∧
      ∀ shard, if shard ∈ shards then
        ShardApplied C candidate shard (r.states shard) (states shard)
        else states shard = r.states shard := by
  induction shards generalizing r with
  | nil =>
    cases h
    exact ⟨_, rfl, fun shard => by simp⟩
  | cons first shards ih =>
    obtain ⟨hnot, hnodup⟩ := List.nodup_cons.1 hnodup
    obtain ⟨s, hfirst, hrest⟩ := Stage.andThen_eq_nil h
    obtain ⟨store, happlied, rfl⟩ := applyShard_eq_nil hfirst
    obtain ⟨states, rfl, hstates⟩ := ih hnodup hrest
    refine ⟨states, rfl, fun shard => ?_⟩
    have hshard := hstates shard
    by_cases heq : shard = first
    · subst heq
      rw [if_neg hnot] at hshard
      simp only [Function.update_self] at hshard
      rw [if_pos List.mem_cons_self, hshard]
      exact happlied
    · simp only [Function.update_of_ne heq] at hshard
      simpa only [List.mem_cons, heq, false_or] using hshard

-- ==== one commit

/-- A block as a run has finalized it. -/
structure FinalizedBlock where
  header : GlobalHeader
  certificate : Certificate
  validators : ValidatorSet
  commitments : List Commitment

/-- A quorum of the set with this root has signed the header. -/
structure FinalizedBlock.Certified (C : Crypto) (root : Hash)
    (b : FinalizedBlock) : Prop where
  root : b.validators.root C = .ok root
  header : b.certificate.headerHash = headerConsensusHash C b.header
  height : b.certificate.height = b.header.height
  hash : b.header.certificateHash = b.certificate.hash C
  quorum : b.validators.verifyCertificate C b.certificate = .ok ()

/-- Runtime, anchor and history stand at a block, and the stores are what
its header commits to. -/
structure InStep (r : Runtime C T) (b : FinalizedBlock) : Prop where
  height : r.height = b.header.height
  parent : r.parentHash = headerConsensusHash C b.header
  commitments :
    commitmentRoot C b.commitments = .ok b.header.shardCommitmentRoot
  states : ∀ shard < r.shardCount,
    (commitmentOf b.commitments shard).map Commitment.stateRoot =
      some ((r.states shard).root C)
  anchor : ∀ a ∈ r.anchorStore,
    a.height = r.height ∧ a.hash = r.parentHash
  history : ∀ h ∈ r.history, h.height = r.height ∧ h.parent = r.parentHash ∧
    ∀ shard < r.shardCount, h.roots shard = some ((r.states shard).root C)

/-- What a commit that went through has done. -/
structure Commits (r r' : Runtime C T) (b : FinalizedBlock) : Prop where
  live : r.recoveryRequired = false
  next : b.header.height = r.height + 1
  parent : b.header.parentHash = r.parentHash
  certified : b.Certified C r.validatorRoot
  alive : r'.recoveryRequired = false
  validatorRoot : r'.validatorRoot = r.validatorRoot
  stores : (∀ shard, Mirrors C (r.states shard).mem) →
    (∀ shard, Mirrors C (r'.states shard).mem) ∧ InStep r' b

theorem mem_changedShards :
    shard ∈ r.changedShards candidate ↔
      shard < r.shardCount ∧ shard ∈ candidate.deltas := by
  rw [Runtime.changedShards, List.mem_filter, decide_eq_true_iff,
    mem_topology]

/-- What the checks in front of the first write say. -/
structure Prepares (r : Runtime C T) (candidate : Candidate)
    (certificate : Certificate) (validators : ValidatorSet)
    (p : Prepared C T) : Prop where
  live : r.recoveryRequired = false
  next : candidate.header.height = r.height + 1
  parent : candidate.header.parentHash = r.parentHash
  finalized : p.finalized =
    { candidate.header with certificateHash := certificate.hash C }
  postParent : p.postParent = headerConsensusHash C p.finalized
  certified : FinalizedBlock.Certified C r.validatorRoot
    ⟨p.finalized, certificate, validators, candidate.commitments⟩
  commitments : commitmentRoot C candidate.commitments =
    .ok candidate.header.shardCommitmentRoot
  verified : ∃ leaves, r.verified candidate = .ok leaves
  intent : ∀ i, p.intent = some i →
    i.header = candidate.header ∧ i.commitments = candidate.commitments

theorem prepare_eq_ok {certificate : Certificate} {p : Prepared C T}
    (h : r.prepare candidate certificate validators
      (r.verified candidate) = .ok p) :
    Prepares r candidate certificate validators p := by
  simp only [Runtime.prepare, Runtime.preflight, Runtime.checkTopology,
    Runtime.checkCandidate, ok_iff, not_or, not_not, Bool.not_eq_true] at h
  obtain ⟨⟨hlive, ⟨hnext, hparent, _⟩, root, hroot, ⟨_, hown⟩,
    ⟨hhash, hheight, _⟩, hquorum, _⟩, ⟨⟨_, _, croot, hcroot, hheader, _⟩,
    leaves, hleaves, _⟩, step, _, intent, hintent, hp⟩ := h
  subst hp hown hheader
  refine ⟨hlive, hnext, hparent, rfl, rfl,
    ⟨hroot, hhash, hheight, rfl, hquorum⟩, hcroot, ⟨leaves, hleaves⟩, ?_⟩
  intro i hi
  simp only at hi
  subst hi
  unfold Runtime.prepareIntent at hintent
  split at hintent
  case h_1 => cases hintent
  case h_2 =>
    simp only [Runtime.buildGlobalCommitIntent, ok_iff] at hintent
    obtain ⟨_, _, i', ⟨_, deltas, _, _, hi'⟩, hi⟩ := hintent
    subst hi'
    cases hi
    exact ⟨rfl, rfl⟩

/-- A verified shard that does not change has the committed root. -/
theorem root_of_verified {leaves : List Hash}
    (h : r.verified candidate = .ok leaves) (hlt : shard < r.shardCount) :
    ∃ c, commitmentOf candidate.commitments shard = some c ∧
      (shard ∉ candidate.deltas → c.stateRoot = (r.states shard).root C) := by
  have hmem : shard.toNat ∈ List.range r.shardCount.toNat :=
    List.mem_range.2 (UInt32.lt_iff_toNat_lt.1 hlt)
  obtain ⟨leaf, _, hleaf⟩ := exists_of_forall₂ (mapM_eq_ok h).flip hmem
  rw [UInt32.ofNat_toNat] at hleaf
  simp only [Runtime.verifyShard, ok_iff] at hleaf
  obtain ⟨c, hc, hleaf⟩ := hleaf
  refine ⟨c, hc, fun hnot => ?_⟩
  rw [Finmap.lookup_eq_none.2 hnot] at hleaf
  simp only [ok_bind, ok_iff, not_not] at hleaf
  exact hleaf.1.symm

/-- What the writes of a commit have done, if none of them failed. -/
theorem commitStages_eq_nil {faults : CommitFaults} {shards : List UInt32}
    {p : Prepared C T} (hnodup : shards.Nodup)
    (h : commitStages faults candidate validators shards p r = (r', [])) :
    ∃ journal history states anchor,
      r' = { r with
        journal := journal, history := history, states := states
        anchorStore := anchor } ∧
      (∀ h' ∈ history, ∃ i, p.intent = some i ∧ h'.AtIntent C i) ∧
      (∀ shard, if shard ∈ shards then
        ShardApplied C candidate shard (r.states shard) (states shard)
        else states shard = r.states shard) ∧
      ∀ a ∈ anchor, a.height = p.finalized.height ∧ a.hash = p.postParent := by
  obtain ⟨r1, h1, h⟩ := Stage.andThen_eq_nil h
  obtain ⟨r2, h2, h⟩ := Stage.andThen_eq_nil h
  obtain ⟨r3, h3, h⟩ := Stage.andThen_eq_nil h
  obtain ⟨r4, h4, h5⟩ := Stage.andThen_eq_nil h
  obtain ⟨_, rfl⟩ := writeIntent_eq_nil h1
  obtain ⟨history, rfl, hhistory⟩ := appendHistory_eq_nil h2
  obtain ⟨states, rfl, hstates⟩ := applyShards_eq_nil hnodup h3
  obtain ⟨journal, rfl⟩ := writeIntent_eq_nil h4
  obtain ⟨anchor, rfl, hanchor⟩ := advanceAnchor_eq_nil h5
  exact ⟨journal, history, states, anchor, rfl, hhistory, hstates, hanchor⟩

theorem commit_eq_ok {faults : CommitFaults} {certificate : Certificate}
    {header : GlobalHeader}
    (h : r.commit faults candidate certificate validators
      (r.verified candidate) = (r', .ok header)) :
    Commits r r'
      ⟨header, certificate, validators, candidate.commitments⟩ := by
  unfold Runtime.commit at h
  split at h
  case h_1 => cases h
  case h_2 p hprepare =>
    split at h
    case h_2 => cases h
    case h_1 s hstages =>
      cases h
      have hp := prepare_eq_ok hprepare
      obtain ⟨journal, history, states, anchor, rfl, hhistory, hstates,
        hanchor⟩ := commitStages_eq_nil (changedShards_nodup r candidate)
          hstages
      refine ⟨hp.live, ?_, ?_, hp.certified, hp.live, rfl,
        fun hsound => ?_⟩
      · rw [hp.finalized, ← hp.next]
      · rw [hp.finalized, ← hp.parent]
      have hshards : ∀ shard, Mirrors C (states shard).mem ∧
          (shard < r.shardCount →
            (commitmentOf candidate.commitments shard).map
              Commitment.stateRoot = some ((states shard).root C)) := by
        intro shard
        have hshard := hstates shard
        by_cases hchanged : shard ∈ r.changedShards candidate
        · rw [if_pos hchanged] at hshard
          obtain ⟨fault, root', happly, hcommitted⟩ := hshard
          obtain ⟨hmirrors, hanswer⟩ :=
            Backend.mirrors_apply (hsound shard) happly
          exact ⟨hmirrors, fun _ => by rw [hcommitted, hanswer]⟩
        · rw [if_neg hchanged] at hshard
          rw [hshard]
          refine ⟨hsound shard, fun hlt => ?_⟩
          obtain ⟨leaves, hleaves⟩ := hp.verified
          obtain ⟨c, hc, hkept⟩ := root_of_verified hleaves hlt
          rw [hc, Option.map_some,
            hkept fun hin => hchanged (mem_changedShards.2 ⟨hlt, hin⟩)]
      refine ⟨fun shard => (hshards shard).1, rfl, hp.postParent, ?_,
        fun shard => (hshards shard).2, hanchor, fun h' hh' => ?_⟩
      · rw [hp.commitments, hp.finalized]
      · obtain ⟨i, hi, hat⟩ := hhistory h' hh'
        obtain ⟨hheader, hcommitments⟩ := hp.intent i hi
        refine ⟨?_, ?_, fun shard hlt => ?_⟩
        · rw [hat.height, hheader]
          exact (congrArg GlobalHeader.height hp.finalized).symm
        · rw [hat.parent, hheader]
          exact (hp.postParent.trans
            (congrArg (headerConsensusHash C) hp.finalized)).symm
        · obtain ⟨c, hc, hroot⟩ :=
            Option.map_eq_some_iff.1 ((hshards shard).2 hlt)
          rw [hat.roots shard c (hcommitments ▸ hc), hroot]
          rfl

-- ==== progress

section Progress

variable {script : ZephyrChain.Runtime} {choices : BuildChoices}
  {orders : UInt32 → Execution.BatchOrders} {height : UInt64}
  {batches : ShardMap ShardBatch} {outputs : List ShardBuildOutput}
  {candidate : Candidate}

/-- A shard as it was built is a shard `Commit` accepts. -/
theorem verifyShard_of_built
    (h : r.Outputs script orders height batches outputs)
    (hassemble : r.assemble height outputs = .ok candidate)
    {out : ShardBuildOutput} (hout : out ∈ outputs) {shard : UInt32}
    {batch : ShardBatch} {executed : Except Error (List Execution.Result)}
    (hbuilt : ShardBuilt r shard batch executed out) :
    r.verifyShard candidate shard = .ok out.dataLeaf := by
  simp only [Runtime.assemble, ok_iff] at hassemble
  obtain ⟨croot, _, rfl⟩ := hassemble
  have hcommitment : commitmentOf
      (outputs.map ShardBuildOutput.commitment) shard =
        some out.commitment := by
    refine (commitmentOf_eq_some ?_).2
      ⟨List.mem_map_of_mem hout, hbuilt.shardID⟩
    rw [List.map_map]
    exact h.nodup
  have hlookup : ∀ {α : Type} (entry : ShardBuildOutput → Option α),
      (Runtime.gather outputs entry).lookup shard = entry out := by
    intro α entry
    rw [← hbuilt.shardID]
    exact lookup_gather h.nodup hout
  have hroot := hbuilt.root
  unfold Runtime.rootAfter at hroot
  simp only [Runtime.verifyShard, hcommitment, hlookup, hbuilt.hasDelta,
    hbuilt.dataLeaf, hbuilt.receipts, Option.getD_some, require, ok_bind,
    failWith_ok]
  by_cases hempty : out.delta.IsEmpty
  · rw [if_pos hempty] at hroot
    simp [hempty, Except.ok.inj hroot, refuse]
  · rw [if_neg hempty] at hroot
    simp [hempty, hroot, refuse]

/-- A candidate as it was built passes the checks on topology and state. -/
theorem preflight_of_built
    (h : BuildReturns C script r choices height batches (.ok candidate)) :
    r.preflight candidate (r.verified candidate) = .ok () := by
  obtain ⟨outputs, houtputs, hassemble⟩ := exists_outputs h
  have hverified : r.verified candidate =
      .ok (outputs.map ShardBuildOutput.dataLeaf) := by
    refine mapM_ok (List.forall₂_map_right_iff.2 ?_)
    have hall := List.forall₂_iff_get.1 houtputs.built
    refine List.forall₂_iff_get.2 ⟨hall.1, fun i hi hi' => ?_⟩
    exact verifyShard_of_built houtputs hassemble (List.get_mem _ _)
      (hall.2 i hi hi')
  rw [hverified]
  simp only [Runtime.assemble, ok_iff] at hassemble
  obtain ⟨croot, hcroot, rfl⟩ := hassemble
  have hids : (outputs.map ShardBuildOutput.commitment).map
      Commitment.shardID =
        (List.range r.shardCount.toNat).map UInt32.ofNat := by
    rw [List.map_map]
    exact houtputs.shardIDs
  have hinside : ∀ {α : Type} (entry : ShardBuildOutput → Option α),
      ¬ r.outside (Runtime.gather outputs entry) := by
    rintro α entry ⟨shard, hmem, hge⟩
    have hne : shard ∉ outputs.map fun out => out.commitment.shardID := by
      rw [houtputs.shardIDs, mem_topology]
      exact UInt32.not_lt.2 hge
    exact Finmap.lookup_eq_none.1 (lookup_gather_of_ne hne)
      (Finmap.mem_keys.1 hmem)
  simp only [Runtime.preflight, Runtime.checkTopology, ok_iff, not_or,
    not_not, hids]
  refine ⟨⟨?_, ⟨hinside _, hinside _, hinside _, hinside _⟩, croot, hcroot,
    rfl, ?_, ofNat_nodup _⟩, _, rfl, rfl⟩
  · rw [List.length_map, ← houtputs.built.length_eq, List.length_range]
  · rintro ⟨c, hc, hge⟩
    have hlt := mem_topology.1 (hids ▸ List.mem_map_of_mem hc)
    exact UInt32.not_lt.2 hge hlt

/-- A quorum of a set with the pinned root has signed a candidate. -/
structure SignedBy (r : Runtime C T) (validators : ValidatorSet)
    (certificate : Certificate) (header : GlobalHeader) : Prop where
  root : validators.root C = .ok r.validatorRoot
  quorum : validators.verifyCertificate C certificate = .ok ()
  height : certificate.height = header.height
  hash : certificate.headerHash = headerConsensusHash C header
  network : certificate.network = r.network

/-- A runtime without shadow economics. -/
def Runtime.Quiet (r : Runtime C T) : Prop :=
  r.economicCollector = none ∧ r.economicEngine = none ∧
    r.pendingEconomic = none

theorem prepare_of_built (hjournal : r.journal = none) (hquiet : r.Quiet)
    (hbuilt : BuildReturns C script r choices height batches (.ok candidate))
    {certificate : Certificate} {validators : ValidatorSet}
    (hsigned : SignedBy r validators certificate candidate.header) :
    ∃ p, r.prepare candidate certificate validators
      (r.verified candidate) = .ok p := by
  obtain ⟨hcollector, hengine, hpending⟩ := hquiet
  have hpreflight := preflight_of_built hbuilt
  obtain ⟨_, _, hlive, hnext, _, _⟩ := buildReturns_ok hbuilt
  obtain ⟨outputs, houtputs, hassemble⟩ := exists_outputs hbuilt
  have hchecked : r.checkCandidate candidate certificate validators =
      .ok () := by
    have hzero : IsZero32 ((outputs.head?.map
        ShardBuildOutput.economicPendingStateHash).getD Bytes32.zero) := by
      cases outputs with
      | nil => rfl
      | cons out rest =>
        obtain ⟨shard, _, hout⟩ :=
          exists_of_forall₂ houtputs.built List.mem_cons_self
        exact hout.pending hpending
    simp only [Runtime.assemble, ok_iff] at hassemble
    obtain ⟨_, _, rfl⟩ := hassemble
    simp only [Runtime.checkCandidate, ok_iff, not_or, not_not, hpending]
    exact ⟨by simp [hlive], ⟨hnext, trivial, trivial⟩, _, hsigned.root,
      ⟨rfl, rfl⟩, ⟨hsigned.hash, hsigned.height, hsigned.network⟩,
      hsigned.quorum, hzero⟩
  simp only [Runtime.prepare, hchecked, hpreflight, ok_bind,
    Runtime.previewEconomics, Runtime.observeBlock, hcollector,
    Runtime.acceptPending, hengine, hpending, Runtime.prepareIntent,
    hjournal]
  exact ⟨_, rfl⟩

theorem sampleRuntime_volatile : sampleRuntime.Volatile :=
  ⟨rfl, rfl, rfl, fun _ => ⟨WorldState.newMemory, rfl,
    WorldState.mirrors_newMemory⟩⟩

/-- A block with nothing in it is built, and its certificate verifies. -/
theorem sampleRuntime_builds (script : ZephyrChain.Runtime) :
    ∃ choices candidate, BuildReturns WorldState.truncatingCrypto script
      sampleRuntime choices 1 ∅ (.ok candidate) ∧
      SignedBy sampleRuntime sampleValidators
        (sampleCertificate candidate.header) candidate.header := by
  have hchecked : (do
      let c ← emptyCandidate sampleRuntime
      sampleValidators.validate WorldState.truncatingCrypto
      sampleValidators.verifyCertificate WorldState.truncatingCrypto
        (sampleCertificate c.header)) = .ok () := by
    decide +kernel
  simp only [ok_iff] at hchecked
  obtain ⟨candidate, hbuilt, hvalid, hquorum⟩ := hchecked
  refine ⟨⟨fun _ => ⟨.stored, fun _ => .stored⟩, 1⟩, candidate,
    buildReturns_iff.2 hbuilt.symm, ?_, hquorum, rfl, rfl, rfl⟩
  rw [ValidatorSet.root, hvalid]
  rfl

end Progress

-- ==== whole runs

/-- What calls of `Commit` make of a runtime, and the blocks that went
through. -/
inductive Run (r₀ : Runtime C T) : List FinalizedBlock → Runtime C T → Prop
  | start : Run r₀ [] r₀
  | finalized {blocks : List FinalizedBlock} {r r' : Runtime C T}
      {procs : Int} {faults : CommitFaults} {candidate : Candidate}
      {certificate : Certificate} {validators : ValidatorSet}
      {header : GlobalHeader} (run : Run r₀ blocks r)
      (h : CommitReturns r procs faults candidate certificate validators
        (r', .ok header)) :
      Run r₀ (blocks ++
        [⟨header, certificate, validators, candidate.commitments⟩]) r'
  | failed {blocks : List FinalizedBlock} {r r' : Runtime C T}
      {procs : Int} {faults : CommitFaults} {candidate : Candidate}
      {certificate : Certificate} {validators : ValidatorSet}
      {errors : List Error} (run : Run r₀ blocks r)
      (h : CommitReturns r procs faults candidate certificate validators
        (r', .error errors)) :
      Run r₀ blocks r'

variable {r₀ : Runtime C T} {blocks : List FinalizedBlock}

/-- The blocks of a run are certified by the set the runtime started
with. -/
theorem Run.certified (run : Run r₀ blocks r) :
    (r.recoveryRequired = true ∨ r.validatorRoot = r₀.validatorRoot) ∧
      ∀ b ∈ blocks, b.Certified C r₀.validatorRoot := by
  induction run with
  | start => exact ⟨.inr rfl, by simp⟩
  | finalized run h ih =>
    have hcommits := commit_eq_ok (commitReturns_iff.1 h).symm
    obtain ⟨hrecovery | hroot, hblocks⟩ := ih
    · rw [hcommits.live] at hrecovery
      cases hrecovery
    · refine ⟨.inr (hcommits.validatorRoot.trans hroot), ?_⟩
      exact forall_mem_concat hblocks (hroot ▸ hcommits.certified)
  | failed run h ih =>
    refine ⟨?_, ih.2⟩
    rcases commit_eq_error (commitReturns_iff.1 h).symm with
      ⟨_, _, rfl, _⟩ | ⟨_, _, _, hrecovery⟩
    · exact ih.1
    · exact .inl hrecovery

/-- The next block of a chain. -/
def FinalizedBlock.Precedes (C : Crypto) (a b : FinalizedBlock) : Prop :=
  b.header.height = a.header.height + 1 ∧
    b.header.parentHash = headerConsensusHash C a.header

/-- What holds of a runtime and the blocks it has finalized. -/
structure Run.Holds (r₀ : Runtime C T) (blocks : List FinalizedBlock)
    (r : Runtime C T) : Prop where
  sound : ∀ shard, Mirrors C (r.states shard).mem
  start : blocks = [] → r = r₀
  first : ∀ b ∈ blocks.head?, b.header.height = r₀.height + 1 ∧
    b.header.parentHash = r₀.parentHash
  linked : blocks.IsChain (FinalizedBlock.Precedes C)
  tip : ∀ b ∈ blocks.getLast?, InStep r b

variable {b : FinalizedBlock}

theorem Run.Holds.finalized (h : Holds r₀ blocks r)
    (hcommits : Commits r r' b) : Holds r₀ (blocks ++ [b]) r' := by
  obtain ⟨hsound, hstep⟩ := hcommits.stores h.sound
  refine ⟨hsound, by simp, ?_, ?_, ?_⟩
  · intro a ha
    cases blocks with
    | nil =>
      cases ha
      rw [← h.start rfl]
      exact ⟨hcommits.next, hcommits.parent⟩
    | cons c cs => exact h.first a ha
  · refine List.isChain_append.2 ⟨h.linked, .singleton b, ?_⟩
    intro a ha c hc
    cases hc
    have htip := h.tip a ha
    exact ⟨by rw [hcommits.next, htip.height],
      by rw [hcommits.parent, htip.parent]⟩
  · intro a ha
    rw [List.getLast?_append, List.getLast?_singleton] at ha
    cases ha
    exact hstep

/-- The runtime with that block on top. -/
theorem sampleRuntime_runs : ∃ b r, Run sampleRuntime [b] r ∧
    r.recoveryRequired = false := by
  obtain ⟨_, candidate, hbuilt, hsigned⟩ :=
    sampleRuntime_builds ⟨fun _ => .ok (), fun _ => .error .scriptRuntime⟩
  obtain ⟨p, hprepare⟩ :=
    prepare_of_built rfl ⟨rfl, rfl, rfl⟩ hbuilt hsigned
  obtain ⟨r', hcommit⟩ : ∃ r', sampleRuntime.commit noFaults candidate
      (sampleCertificate candidate.header) sampleValidators
      (sampleRuntime.verified candidate) = (r', .ok p.finalized) :=
    commit_of_prepare sampleRuntime_volatile hprepare
  have hreturns : CommitReturns sampleRuntime 1 noFaults candidate
      (sampleCertificate candidate.header) sampleValidators
      (r', .ok p.finalized) := commitReturns_iff.2 hcommit.symm
  exact ⟨_, r', Run.start.finalized hreturns, (commit_eq_ok hcommit).alive⟩

/-- As long as a runtime is not in recovery, whatever was tried on it, the
blocks that went through are one chain from where it started, each signed
by a quorum of the pinned set, and stores, anchor and history are those of
the last block. -/
theorem commit_runs_hold (run : Run r₀ blocks r)
    (hlive : r.recoveryRequired = false)
    (hsound : ∀ shard, Mirrors C (r₀.states shard).mem) :
    (∀ b ∈ blocks, b.Certified C r₀.validatorRoot) ∧
      Run.Holds r₀ blocks r := by
  refine ⟨run.certified.2, ?_⟩
  induction run with
  | start =>
    exact ⟨hsound, fun _ => rfl, by simp, .nil, by simp⟩
  | finalized run h ih =>
    have hcommits := commit_eq_ok (commitReturns_iff.1 h).symm
    exact (ih hcommits.live).finalized hcommits
  | failed run h ih =>
    rcases commit_eq_error (commitReturns_iff.1 h).symm with
      ⟨_, _, rfl, _⟩ | ⟨_, _, _, hrecovery⟩
    · exact ih hlive
    · rw [hlive] at hrecovery
      cases hrecovery

theorem commit_runs_hold_sample : ∃ b r, Run sampleRuntime [b] r ∧
    Run.Holds sampleRuntime [b] r := by
  obtain ⟨b, r, run, hlive⟩ := sampleRuntime_runs
  exact ⟨b, r, run, (commit_runs_hold run hlive fun _ =>
    WorldState.mirrors_newMemory).2⟩

-- ==== forks

theorem FinalizedBlock.Certified.valid (h : b.Certified C root) :
    b.validators.Valid C := by
  have hroot := h.root
  simp only [ValidatorSet.root, ok_iff] at hroot
  exact ValidatorSet.validate_iff.1 hroot.1

theorem FinalizedBlock.Certified.signed (h : b.Certified C root)
    {id : ValidatorID} (hid : id ∈ ValidatorSet.voters b.certificate) :
    ∃ v : Vote, v.voter = id ∧ v.height = b.header.height ∧
      b.validators.verifyVote C v = .ok () ∧
      v.headerHash = headerConsensusHash C b.header := by
  obtain ⟨hvotes, _⟩ := h.valid.verifyCertificate_iff.1 h.quorum
  obtain ⟨v, hv, rfl⟩ := List.mem_map.1 (List.mem_toFinset.1 hid)
  obtain ⟨hfor, hverify⟩ := hvotes v hv
  exact ⟨v, rfl, hfor.height.trans h.height, hverify,
    hfor.headerHash.trans h.header⟩

end ZephyrChain.Node
