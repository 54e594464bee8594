/-
What the honest validators agree on. A network is one server for every
honest validator of a fixed set. Messages are delivered in any order,
late, twice or never; those of Byzantine validators are arbitrary, and a
valid vote of an honest validator is one it has broadcast.

# One round

With less than a third of the power Byzantine, certificates of one height
and round name one block in all honest stores (`certificates_agree`): two
quorums have an honest voter in common, its votes in both stores were
broadcast by it, its own store holds every vote it has broadcast, and
holds one for a round.

# Several rounds

Nothing ties a vote of a later round to a certificate of an earlier one:
a server votes for the proposal of the current round, and a proposer
repeats an earlier candidate only if it has received it. Four honest
validators come to certificates for two blocks of one height
(`laterRound_certifies_another_block`).
-/
import ZephyrChain.Ledger.Proofs.Equivocation

namespace ZephyrChain.Ledger

open Lib

-- ==== network

/-- The servers of the validators by their addresses. -/
abbrev Network := Bytes → Server

/-- What a network is run with: the chain, the members, their
configurations and those of them that are Byzantine. -/
structure Setting where
  chainID : Bytes
  validators : List Validator
  config : Bytes → Config
  configured : ∀ a, (config a).validatorAddress = a
  byzantine : Finset Bytes

/-- A vote that is valid and of an honest validator was broadcast by it,
for the same height, round and block. -/
def Unforged (H : Host) (S : Setting) (net : Network) (v : Vote) : Prop :=
  v.validateForChain H S.chainID = .ok () → v.voter ∉ S.byzantine →
    ∃ v' ∈ (net v.voter).broadcast, v'.height = v.height ∧
      v'.round = v.round ∧ v'.blockHash = v.blockHash

/-- The steps of an honest server: no change of the validators, and only
votes that are not forged. -/
def Delivers (H : Host) (S : Setting) (net : Network) : ServerStep → Prop
  | .request op now _ => ¬ op.Clears ∧ ∀ v ∈ op.votes now, Unforged H S net v
  | _ => True

/-- A server that has not voted yet, on a store with the members of the
setting and without proposals, votes and certificates. -/
structure Server.Starts (S : Setting) (σ : Server) : Prop where
  file : σ.node.file = σ.node.store
  normal : normalizeState σ.node.store = σ.node.store
  chainID : σ.node.store.chainID = S.chainID
  validators : σ.node.store.validatorSnapshot.validators = S.validators
  proposals : σ.node.store.proposals = []
  votes : σ.node.store.votes = []
  certificates : σ.node.store.commitCertificates = []
  stage : σ.stage = .idle
  broadcast : σ.broadcast = []

/-- One server takes a step. -/
def Network.step (H : Host) (reread : PersistedState → PersistedState)
    (S : Setting) (net : Network) (a : Bytes) (st : ServerStep) : Network :=
  Function.update net a ((net a).step H reread (S.config a) st)

/-- The runs of the honest validators. -/
inductive Network.Runs (H : Host) (reread : PersistedState → PersistedState)
    (S : Setting) : Network → Prop
  | start {net : Network} : (∀ a ∉ S.byzantine, (net a).Starts S) →
      Network.Runs H reread S net
  | step {net : Network} (a : Bytes) (st : ServerStep) :
      Network.Runs H reread S net → a ∉ S.byzantine → Delivers H S net st →
      (st = .restart → reread (net a).node.file = (net a).node.file) →
      Network.Runs H reread S (net.step H reread S a st)

-- ==== invariant

/-- The part of the invariant about one honest server. -/
structure HonestServer (H : Host) (S : Setting) (a : Bytes) (σ : Server) :
    Prop where
  stable : σ.node.Stable
  certified : Certified H σ.node.store
  chainID : σ.node.store.chainID = S.chainID
  validators : σ.node.store.validatorSnapshot.validators = S.validators
  stage : ∀ v, σ.stage = .signed v → v.voter = a
  voters : ∀ v ∈ σ.broadcast, v.voter = a
  stored : ∀ v ∈ σ.broadcast, StoredVote a σ.node.store v

/-- The stored votes of honest validators were broadcast by them. -/
def Authentic (S : Setting) (net : Network) (s : PersistedState) : Prop :=
  ∀ r ∈ s.votes, r.vote.voter ∉ S.byzantine →
    ∃ v ∈ (net r.vote.voter).broadcast, v.height = r.vote.height ∧
      v.round = r.vote.round ∧ v.blockHash = r.vote.blockHash

structure NetworkInv (H : Host) (S : Setting) (net : Network) : Prop where
  server : ∀ a ∉ S.byzantine, HonestServer H S a (net a)
  authentic : ∀ a ∉ S.byzantine, Authentic S net (net a).node.store

variable {H : Host} {S : Setting} {net net' : Network}
  {reread : PersistedState → PersistedState} {s t : PersistedState}
  {now : Time} {a : Bytes} {σ τ : Server}

/-- Broadcasts are only added to. -/
def Network.Extends (net net' : Network) : Prop :=
  ∀ a, (net a).broadcast ⊆ (net' a).broadcast

theorem Authentic.mono (h : Authentic S net s) (hext : net.Extends net') :
    Authentic S net' s := by
  intro r hr hhonest
  obtain ⟨v, hv, hsame⟩ := h r hr hhonest
  exact ⟨v, hext _ hv, hsame⟩

variable {v : Vote}

theorem Unforged.mono (h : Unforged H S net v) (hext : net.Extends net') :
    Unforged H S net' v := by
  intro hvalid hhonest
  obtain ⟨v', hv', hsame⟩ := h hvalid hhonest
  exact ⟨v', hext _ hv', hsame⟩

variable {op : Operation}

/-- What an operation that changes no validators does to the votes. -/
theorem ConsensusStep.votes (h : ConsensusStep H now op s t)
    (hclears : ¬ op.Clears) :
    t.validatorSnapshot.validators = s.validatorSnapshot.validators ∧
      t.chainID = s.chainID ∧ s.votes ⊆ t.votes ∧
      ∀ r ∈ t.votes, r ∈ s.votes ∨ (r.vote ∈ op.votes now ∧
        r.vote.validateForChain H s.chainID = .ok ()) := by
  cases h with
  | same hsame =>
    refine ⟨hsame.validators, hsame.chainID, ?_, ?_⟩
    · rw [hsame.votes]
      exact List.Subset.refl _
    · rw [hsame.votes]
      exact fun r hr => .inl hr
  | proposed p hp =>
    refine ⟨hp.message.validators, hp.message.ledger.chainID, ?_, ?_⟩
    · rw [hp.votes]
      exact List.Subset.refl _
    · rw [hp.votes]
      exact fun r hr => .inl hr
  | voted v power hmem hv =>
    refine ⟨hv.message.validators, hv.message.ledger.chainID, ?_, ?_⟩
    · rw [hv.votes]
      exact List.subset_append_left _ _
    · rw [hv.votes]
      exact forall_mem_concat (fun _ => .inl) (.inr ⟨hmem, hv.valid⟩)
  | certified b evidence hvotes he =>
    obtain ⟨hchain, hvalidators⟩ := he.same
    obtain ⟨stored, counted, hstored, hloop, -, -, -, hmerged, -⟩ :=
      he.counted
    have hcounted := countedVotes_of_loops hstored hloop
    refine ⟨hvalidators, hchain, ?_, ?_⟩
    · rw [hmerged]
      exact subset_mergeVotes _ _
    · rw [hmerged]
      intro r hr
      rcases mem_mergeVotes hr with hold | hadded
      · exact .inl hold
      · have hsupplied := hcounted.validated r hadded
        exact .inr ⟨hvotes ▸ hsupplied.supplied, hsupplied.valid⟩
  | cleared hclear => exact absurd hclear hclears

/-- The state of a server whose stored votes have grown. -/
structure Grown (H : Host) (S : Setting) (op : Operation) (now : Time)
    (s t : PersistedState) : Prop where
  votes : s.votes ⊆ t.votes
  added : ∀ r ∈ t.votes, r ∈ s.votes ∨ (r.vote ∈ op.votes now ∧
    r.vote.validateForChain H S.chainID = .ok ())

/-- An operation on the store of an honest server. -/
theorem HonestServer.call (h : HonestServer H S a σ)
    (reread : PersistedState → PersistedState) (now : Time)
    (writes : Bool) (hclears : ¬ op.Clears) :
    HonestServer H S a { σ with
        node := (σ.node.call H reread (.operation op now writes)).1 } ∧
      Grown H S op now σ.node.store
        (σ.node.call H reread (.operation op now writes)).1.store := by
  have hread : σ.node.Rereads reread (.operation op now writes) :=
    fun hreopen => by cases hreopen
  rcases call_cases (H := H) h.stable hread with
    heq | ⟨op', now', t, hsame, hnext, heq⟩
  · rw [heq]
    exact ⟨⟨h.stable, h.certified, h.chainID, h.validators, h.stage,
      h.voters, h.stored⟩, List.Subset.refl _, fun r hr => .inl hr⟩
  · cases hsame
    have hstep := next_consensusStep hnext
    obtain ⟨hvalidators, hchain, hvotes, hadded⟩ := hstep.votes hclears
    rw [heq]
    refine ⟨⟨⟨rfl, normalizeState_idem t⟩, (h.certified.step hstep).of_same
      (sameConsensus_normalizeState t), hchain.trans h.chainID, ?_, h.stage,
      h.voters, ?_⟩, hvotes, ?_⟩
    · exact (normalizeValidatorSnapshot_validators _).trans
        (hvalidators.trans h.validators)
    · intro v hv
      obtain ⟨r, hr, hsame⟩ := h.stored v hv
      exact ⟨r, hvotes hr, hsame⟩
    · rw [← h.chainID]
      exact hadded

/-- What a step of one server can add to the votes it stores. -/
structure ServerStepped (H : Host) (S : Setting) (net : Network) (a : Bytes)
    (σ τ : Server) : Prop where
  honest : HonestServer H S a τ
  broadcast : σ.broadcast ⊆ τ.broadcast
  added : ∀ r ∈ τ.node.store.votes, r ∈ σ.node.store.votes ∨
    (Unforged H S net r.vote ∧
      r.vote.validateForChain H S.chainID = .ok ()) ∨
    (r.vote.voter = a ∧ ∃ v ∈ τ.broadcast, v.height = r.vote.height ∧
      v.round = r.vote.round ∧ v.blockHash = r.vote.blockHash)

variable {writes : Bool}

/-- An operation that brings no forged votes. -/
theorem HonestServer.stepped (h : HonestServer H S a σ)
    (hclears : ¬ op.Clears)
    (hvotes : ∀ v ∈ op.votes now, Unforged H S net v) :
    ServerStepped H S net a σ { σ with
      node := (σ.node.call H reread (.operation op now writes)).1 } := by
  obtain ⟨hhonest, hgrown⟩ := h.call reread now writes hclears
  refine ⟨hhonest, List.Subset.refl _, fun r hr => ?_⟩
  rcases hgrown.added r hr with hold | ⟨hmem, hvalid⟩
  · exact .inl hold
  · exact .inr (.inl ⟨hvotes _ hmem, hvalid⟩)

/-- A step that leaves the node and the broadcasts. -/
theorem HonestServer.idle {stage : VoteStage} (h : HonestServer H S a σ)
    (hstage : ∀ v, stage = .signed v → v.voter = a) :
    ServerStepped H S net a σ { σ with stage := stage } :=
  ⟨⟨h.stable, h.certified, h.chainID, h.validators, hstage, h.voters,
    h.stored⟩, List.Subset.refl _, fun _ hr => .inl hr⟩

theorem HonestServer.recorded (h : HonestServer H S a σ)
    (hvoter : v.voter = a) :
    ServerStepped H S net a σ
      (σ.recordAndBroadcast H reread v now writes) := by
  unfold Server.recordAndBroadcast
  dsimp only
  by_cases hok :
      (σ.node.call H reread (.operation (.recordVote v) now writes)).2 = none
  swap
  · rw [if_neg hok, Node.call_error σ.node _ hok]
    exact h.idle (fun v hv => by cases hv)
  rw [if_pos hok]
  obtain ⟨result, hrecord, hstore⟩ := recordVote_of_call hok
  obtain ⟨-, hstored, -⟩ := recordVote_stored hrecord
    h.certified.votes.distinct
  have hclears : ¬ Operation.Clears (.recordVote v) := id
  obtain ⟨hhonest, hgrown⟩ := h.call reread now writes hclears
  refine ⟨⟨hhonest.stable, hhonest.certified, hhonest.chainID,
    hhonest.validators, (fun v hv => by cases hv), ?_, ?_⟩,
    List.subset_append_left _ _, ?_⟩
  · exact forall_mem_concat h.voters hvoter
  · refine forall_mem_concat hhonest.stored ?_
    rw [← hvoter]
    obtain ⟨r, hr, hsame⟩ := hstored
    exact ⟨r, hstore ▸ hr, hsame⟩
  · intro r hr
    rcases hgrown.added r hr with hold | ⟨hmem, -⟩
    · exact .inl hold
    · obtain ⟨hheight, hround, hvoter', hhash⟩ := v.observed_slot now
      rw [List.mem_singleton.1 hmem]
      exact .inr (.inr ⟨hvoter'.trans hvoter, v, by simp, hheight.symm,
        hround.symm, hhash.symm⟩)

variable {st : ServerStep}

theorem HonestServer.step (h : HonestServer H S a σ)
    (hdelivers : Delivers H S net st)
    (hread : st = .restart → reread σ.node.file = σ.node.file) :
    ServerStepped H S net a σ (σ.step H reread (S.config a) st) := by
  cases st with
  | request op now writes => exact h.stepped hdelivers.1 hdelivers.2
  | restart =>
    have hrereads : σ.node.Rereads reread .reopen := fun _ => hread rfl
    have hsame : (σ.node.call H reread .reopen).1 = σ.node := by
      rcases call_cases (H := H) h.stable hrereads with
        heq | ⟨op, now, t, hop, -⟩
      · exact heq
      · cases hop
    simp only [Server.step, hsame]
    exact h.idle (fun v hv => by cases hv)
  | advance now writes =>
    simp only [Server.step]
    split
    next => exact h.idle h.stage
    next op hop =>
      obtain rfl := maybeAdvanceConsensusRound_op hop
      exact h.stepped id fun v hv => absurd hv List.not_mem_nil
  | propose signPayload now writes =>
    simp only [Server.step]
    split
    next p _ => exact h.stepped id fun v hv => absurd hv List.not_mem_nil
    next => exact h.idle h.stage
  | vote signPayload now writes =>
    simp only [Server.step]
    split
    next v hstage => exact h.recorded (h.stage v hstage)
    next =>
      refine h.idle fun v hv => ?_
      rw [← S.configured a]
      refine maybeAutomateVoteRead_voter (fun v hv => ?_) hv
      rw [S.configured a]
      exact h.stage v hv

-- ==== runs

theorem Network.step_self (st : ServerStep) :
    net.step H reread S a st a = (net a).step H reread (S.config a) st :=
  Function.update_self ..

theorem Network.step_of_ne {b : Bytes} (hne : b ≠ a) (st : ServerStep) :
    net.step H reread S a st b = net b :=
  Function.update_of_ne hne ..

theorem Network.step_extends (h : ServerStepped H S net a (net a)
      ((net a).step H reread (S.config a) st)) :
    net.Extends (net.step H reread S a st) := by
  intro b
  by_cases hb : b = a
  · subst hb
    rw [Network.step_self]
    exact h.broadcast
  · rw [Network.step_of_ne hb]
    exact List.Subset.refl _

theorem NetworkInv.step (h : NetworkInv H S net)
    (hhonest : a ∉ S.byzantine) (hdelivers : Delivers H S net st)
    (hread : st = .restart → reread (net a).node.file = (net a).node.file) :
    NetworkInv H S (net.step H reread S a st) := by
  have hstepped := (h.server a hhonest).step hdelivers hread
  have hext := Network.step_extends hstepped
  refine ⟨fun b hb => ?_, fun b hb => ?_⟩
  · by_cases heq : b = a
    · subst heq
      rw [Network.step_self]
      exact hstepped.honest
    · rw [Network.step_of_ne heq]
      exact h.server b hb
  · by_cases heq : b = a
    · subst heq
      intro r hr hvoter
      rw [Network.step_self] at hr
      rcases hstepped.added r hr with hold | ⟨hunforged, hvalid⟩ | ⟨hown, v, hv⟩
      · exact (h.authentic b hb).mono hext r hold hvoter
      · obtain ⟨v, hv, hsame⟩ := hunforged hvalid hvoter
        exact ⟨v, hext _ hv, hsame⟩
      · rw [hown, Network.step_self]
        exact ⟨v, hv⟩
    · rw [Network.step_of_ne heq]
      exact (h.authentic b hb).mono hext

theorem Server.Starts.honest (h : σ.Starts S)
    (hfits : exactTotal S.validators < 2 ^ 64) : HonestServer H S a σ := by
  refine ⟨⟨h.file, h.normal⟩, ?_, h.chainID, h.validators, ?_, ?_, ?_⟩
  · refine certified_of_cleared ?_ h.proposals h.votes h.certificates
    rw [h.validators]
    exact hfits
  · intro v hv
    rw [h.stage] at hv
    cases hv
  · intro v hv
    rw [h.broadcast] at hv
    cases hv
  · intro v hv
    rw [h.broadcast] at hv
    cases hv

theorem Network.Runs.inv (h : Network.Runs H reread S net)
    (hfits : exactTotal S.validators < 2 ^ 64) : NetworkInv H S net := by
  induction h with
  | start hstart =>
    refine ⟨fun a ha => (hstart a ha).honest hfits, fun a ha r hr => ?_⟩
    rw [(hstart a ha).votes] at hr
    cases hr
  | step a st _ hhonest hdelivers hread ih =>
    exact ih.step hhonest hdelivers hread

-- ==== agreement

/-- The broadcast votes of an honest validator agree: its store holds
them, one for a round. -/
theorem HonestServer.agree (h : HonestServer H S a σ) {v' : Vote}
    (hv : v ∈ σ.broadcast) (hv' : v' ∈ σ.broadcast)
    (hheight : v.height = v'.height) (hround : v.round = v'.round) :
    v.blockHash = v'.blockHash := by
  obtain ⟨r, hr, hvoter, hrheight, hrround, hrhash⟩ := h.stored v hv
  obtain ⟨r', hr', hvoter', hrheight', hrround', hrhash'⟩ := h.stored v' hv'
  have hslot : r.SameSlot r' :=
    ⟨hrheight.trans (hheight.trans hrheight'.symm),
      hrround.trans (hround.trans hrround'.symm), hvoter.trans hvoter'.symm⟩
  rw [← hrhash, ← hrhash', h.certified.votes.distinct.eq hr hr' hslot]

/-- Two quorums have an honest voter in common. -/
theorem exists_honest_voter {snapshot : ValidatorSnapshot} {xs ys : List Bytes}
    {byzantine : Finset Bytes} (hx : xs.Nodup) (hy : ys.Nodup)
    (hxs : 2 * exactTotal snapshot.validators < 3 * exactPower snapshot xs)
    (hys : 2 * exactTotal snapshot.validators < 3 * exactPower snapshot ys)
    (hbyzantine : 3 * ∑ a ∈ byzantine, listedPower snapshot.validators a <
      exactTotal snapshot.validators) :
    ∃ a ∈ xs, a ∈ ys ∧ a ∉ byzantine := by
  have hcommon := quorum_intersection hx hy hxs hys
  by_contra hnone
  push Not at hnone
  have hsub : xs.toFinset ∩ ys.toFinset ⊆ byzantine := by
    intro a ha
    obtain ⟨hax, hay⟩ := Finset.mem_inter.1 ha
    exact hnone a (List.mem_toFinset.1 hax) (List.mem_toFinset.1 hay)
  have hle := Finset.sum_le_sum_of_subset
    (f := listedPower snapshot.validators) hsub
  omega

/-- Certificates of one height and round name one block in all honest
stores. -/
theorem certificates_agree (h : Network.Runs H reread S net)
    (hfits : exactTotal S.validators < 2 ^ 64)
    (hbyzantine : 3 * ∑ a ∈ S.byzantine, listedPower S.validators a <
      exactTotal S.validators) {a b : Bytes} (ha : a ∉ S.byzantine)
    (hb : b ∉ S.byzantine) {c c' : CommitCertificate}
    (hc : c ∈ (net a).node.store.commitCertificates)
    (hc' : c' ∈ (net b).node.store.commitCertificates)
    (hheight : c.height = c'.height) (hround : c.round = c'.round) :
    c.blockHash = c'.blockHash := by
  have hinv := h.inv hfits
  have hserver := hinv.server a ha
  have hserver' := hinv.server b hb
  obtain ⟨hsound, -⟩ := hserver.certified.certificates c hc
  obtain ⟨hsound', -⟩ := hserver'.certified.certificates c' hc'
  have hquorum' := hsound'.quorum
  rw [exactPower_congr (hserver'.validators.trans hserver.validators.symm),
    hserver'.validators, ← hserver.validators] at hquorum'
  rw [← hserver.validators] at hbyzantine
  obtain ⟨voter, hvoter, hvoter', hhonest⟩ := exists_honest_voter
    hsound.distinct hsound'.distinct hsound.quorum hquorum' hbyzantine
  obtain ⟨r, hr, hrvoter, ⟨hrheight, hrround, hrhash⟩, -⟩ :=
    hsound.voted voter hvoter
  obtain ⟨r', hr', hrvoter', ⟨hrheight', hrround', hrhash'⟩, -⟩ :=
    hsound'.voted voter hvoter'
  -- what the two stores hold of the voter, it has broadcast
  obtain ⟨v, hv, hvheight, hvround, hvhash⟩ :=
    hinv.authentic a ha r hr (hrvoter ▸ hhonest)
  obtain ⟨v', hv', hvheight', hvround', hvhash'⟩ :=
    hinv.authentic b hb r' hr' (hrvoter' ▸ hhonest)
  rw [hrvoter] at hv
  rw [hrvoter'] at hv'
  have hsame := (hinv.server voter hhonest).agree hv hv'
    (by rw [hvheight, hrheight, hheight, ← hrheight', ← hvheight'])
    (by rw [hvround, hrround, hround, ← hrround', ← hvround'])
  rw [← hrhash, ← hvhash, hsame, hvhash', hrhash']

-- ==== samples

theorem Delivers.mono (h : Delivers H S net st) (hext : net.Extends net') :
    Delivers H S net' st := by
  cases st with
  | request op now writes =>
    exact ⟨h.1, fun v hv => (h.2 v hv).mono hext⟩
  | restart => trivial
  | advance now writes => trivial
  | propose signPayload now writes => trivial
  | vote signPayload now writes => trivial

/-- Several steps of one server, on files JSON keeps as they are. -/
theorem Network.Runs.steps {net : Network} (h : Network.Runs H id S net)
    (hfits : exactTotal S.validators < 2 ^ 64) (ha : a ∉ S.byzantine)
    {steps : List ServerStep} (hdelivers : ∀ st ∈ steps, Delivers H S net st) :
    Network.Runs H id S (Function.update net a
      (steps.foldl (Server.step H id (S.config a)) (net a))) := by
  induction steps generalizing net with
  | nil => simpa using h
  | cons st rest ih =>
    have hfirst := hdelivers st List.mem_cons_self
    have hstep := h.step a st ha hfirst fun _ => rfl
    have hstepped : ServerStepped H S net a (net a)
        ((net a).step H id (S.config a) st) :=
      ((h.inv hfits).server a ha).step hfirst fun _ => rfl
    have hext := Network.step_extends hstepped
    have hrest := ih hstep fun st' hst' =>
      (hdelivers st' (List.mem_cons_of_mem st hst')).mono hext
    rw [Network.step_self, Network.step, Function.update_idem] at hrest
    exact hrest

/-- A vote arrives that its voter has broadcast. -/
theorem delivers_broadcast (hv : v ∈ (net a).broadcast)
    (hvoter : v.voter = a) :
    Delivers H S net (.request (.recordVote v) now writes) := by
  obtain ⟨hheight, hround, hvoter', hhash⟩ := v.observed_slot now
  refine ⟨id, fun v' hv' _ _ => ?_⟩
  rw [List.mem_singleton.1 hv', hvoter', hvoter]
  exact ⟨v, hv, hheight.symm, hround.symm, hhash.symm⟩

/-- The key of an address, 0 if it is none of the four members. -/
def keyOf (a : Bytes) : UInt8 :=
  ([2, 3, 4, 5].find? fun key => sampleAddress key = a).getD 0

theorem keyOf_eq_iff {key : UInt8} (hkey : key ∈ [2, 3, 4, 5]) {a : Bytes} :
    keyOf a = key ↔ a = sampleAddress key := by
  have hkeys : ∀ key ∈ [2, 3, 4, 5], key ≠ 0 ∧
      keyOf (sampleAddress key) = key := by
    decide +kernel
  constructor
  · intro heq
    unfold keyOf at heq
    cases hfind : [2, 3, 4, 5].find? fun key => sampleAddress key = a with
    | none =>
      rw [hfind] at heq
      exact absurd heq.symm (hkeys key hkey).1
    | some found =>
      rw [hfind] at heq
      have hfound := List.find?_some hfind
      rw [← of_decide_eq_true hfound]
      exact congrArg sampleAddress heq
  · intro heq
    rw [heq]
    exact (hkeys key hkey).2

/-- Four honest members with the same power. -/
def fourMembers : Setting where
  chainID := sampleChain
  validators := sampleMembers [2, 3, 4, 5]
  config := fun a => { sampleConfig (keyOf a) with validatorAddress := a }
  configured := fun _ => rfl
  byzantine := ∅

/-- The network with a server for each key. -/
def byKey (f : UInt8 → Server) : Network := fun a => f (keyOf a)

/-- The server of one key takes some steps. -/
def runKey (f : UInt8 → Server) (key : UInt8) (steps : List ServerStep) :
    UInt8 → Server :=
  Function.update f key (steps.foldl
    (Server.step sampleHost id (fourMembers.config (sampleAddress key)))
    (f key))

theorem fourMembers_fits : exactTotal fourMembers.validators < 2 ^ 64 := by
  decide +kernel

theorem runKey_runs {f : UInt8 → Server} {key : UInt8}
    {steps : List ServerStep}
    (h : Network.Runs sampleHost id fourMembers (byKey f))
    (hkey : key ∈ [2, 3, 4, 5])
    (hdelivers : ∀ st ∈ steps,
      Delivers sampleHost fourMembers (byKey f) st) :
    Network.Runs sampleHost id fourMembers (byKey (runKey f key steps)) := by
  have hself : byKey f (sampleAddress key) = f key := by
    rw [byKey, (keyOf_eq_iff hkey).2 rfl]
  have hrun := h.steps fourMembers_fits (Finset.notMem_empty
    (sampleAddress key)) hdelivers
  rw [hself] at hrun
  have heq : byKey (runKey f key steps) = Function.update (byKey f)
      (sampleAddress key) (steps.foldl (Server.step sampleHost id
        (fourMembers.config (sampleAddress key))) (f key)) := by
    funext a
    by_cases ha : a = sampleAddress key
    · rw [ha, Function.update_self, byKey, (keyOf_eq_iff hkey).2 rfl, runKey,
        Function.update_self]
    · rw [Function.update_of_ne ha, byKey, runKey,
        Function.update_of_ne (mt (keyOf_eq_iff hkey).1 ha)]
      rfl
  rw [heq]
  exact hrun

/-- The votes some members have broadcast arrive. -/
def deliver (f : UInt8 → Server) (keys : List UInt8) : List ServerStep :=
  keys.flatMap fun key => (f key).broadcast.map
    fun v => .request (.recordVote v) 7 true

theorem deliver_delivers {f : UInt8 → Server} {keys : List UInt8}
    (h : Network.Runs sampleHost id fourMembers (byKey f))
    (hkeys : ∀ key ∈ keys, key ∈ [2, 3, 4, 5]) :
    ∀ st ∈ deliver f keys, Delivers sampleHost fourMembers (byKey f) st := by
  intro st hst
  obtain ⟨key, hkey, hst⟩ := List.mem_flatMap.1 hst
  obtain ⟨v, hv, rfl⟩ := List.mem_map.1 hst
  have hself : byKey f (sampleAddress key) = f key := by
    rw [byKey, (keyOf_eq_iff (hkeys key hkey)).2 rfl]
  have hserver := (h.inv fourMembers_fits).server (sampleAddress key)
    (Finset.notMem_empty _)
  rw [← hself] at hv
  exact delivers_broadcast hv (hserver.voters v hv)

/-- A member before the first round: the sender has its credit, and some
transactions are queued. -/
def startServer (queued : List Operation) : Server :=
  Server.opened (sampleRun ([.creditWithID (utf8 "r") (sampleAddress 1) 9] ++
    queued ++ [.setValidators (sampleMembers [2, 3, 4, 5])
      ⟨0, 0, 0⟩])).store

/-- The first two members know different transactions. -/
def startServers (key : UInt8) : Server :=
  if key = 2 then startServer [.accept (sampleEnvelope 1 6 3 1)]
  else if key = 3 then startServer [.accept (sampleEnvelope 1 6 2 1)]
  else startServer []

/-- The proposal a server holds first. -/
def heldProposal (σ : Server) : Proposal :=
  σ.node.store.proposals.headD (sampleProposal 0 0
    (sealedBlock sampleHost sampleChain 0 [] [] 0 [] []))

/-- A proposal arrives and is voted for. -/
def proposalSteps (p : Proposal) : List ServerStep :=
  .request (.recordProposal p) 6 true :: votingSteps

/-- Member 2 proposes in round 0, members 4 and 5 vote, and their votes
reach member 2. -/
def proposed : UInt8 → Server :=
  runKey startServers 2 (.propose sampleSign 6 true :: votingSteps)

def votedByFour : UInt8 → Server :=
  runKey proposed 4 (proposalSteps (heldProposal (proposed 2)))

def votedByFive : UInt8 → Server :=
  runKey votedByFour 5 (proposalSteps (heldProposal (proposed 2)))

def certifiedByTwo : UInt8 → Server :=
  runKey votedByFive 2 (deliver votedByFive [4, 5])

/-- The votes of members 2 and 5 reach member 4 as well. -/
def certifiedByFour : UInt8 → Server :=
  runKey certifiedByTwo 4 (deliver certifiedByTwo [2, 5])

/-- Member 3 has heard nothing of it. Its round times out, and it
proposes in round 1. -/
def proposedAgain : UInt8 → Server :=
  runKey certifiedByFour 3 ([.request (.ensureRoundStarted 5) 5 true,
    .advance 9 true, .propose sampleSign 9 true] ++ votingSteps)

def againByFour : UInt8 → Server :=
  runKey proposedAgain 4 (proposalSteps (heldProposal (proposedAgain 3)))

def againByFive : UInt8 → Server :=
  runKey againByFour 5 (proposalSteps (heldProposal (proposedAgain 3)))

def certifiedByThree : UInt8 → Server :=
  runKey againByFive 3 (deliver againByFive [4, 5])

theorem startServer_starts {queued : List Operation}
    (hvalidators : (startServer queued).node.store.validatorSnapshot.validators
      = sampleMembers [2, 3, 4, 5])
    (hchain : (startServer queued).node.store.chainID = sampleChain)
    (hempty : (startServer queued).node.store.proposals = [] ∧
      (startServer queued).node.store.votes = [] ∧
      (startServer queued).node.store.commitCertificates = []) :
    (startServer queued).Starts fourMembers :=
  ⟨rfl, (sampleRun_reachable _).stable.normal, hchain, hvalidators, hempty.1,
    hempty.2.1, hempty.2.2, rfl, rfl⟩

theorem startServers_runs :
    Network.Runs sampleHost id fourMembers (byKey startServers) := by
  refine .start fun a _ => ?_
  unfold byKey startServers
  split
  · exact startServer_starts (by decide +kernel) (by decide +kernel)
      (by decide +kernel)
  · split
    · exact startServer_starts (by decide +kernel) (by decide +kernel)
        (by decide +kernel)
    · exact startServer_starts (by decide +kernel) (by decide +kernel)
        (by decide +kernel)

theorem votingSteps_delivers (h : st ∈ votingSteps) :
    Delivers H S net st := by
  rw [List.eq_of_mem_replicate h]
  trivial

theorem proposalSteps_delivers (p : Proposal) :
    ∀ st ∈ proposalSteps p, Delivers H S net st := by
  intro st hst
  rcases List.mem_cons.1 hst with rfl | hst
  · exact ⟨id, fun v hv => absurd hv List.not_mem_nil⟩
  · exact votingSteps_delivers hst

theorem certifiedByFour_runs :
    Network.Runs sampleHost id fourMembers (byKey certifiedByFour) := by
  have hproposed : Network.Runs sampleHost id fourMembers (byKey proposed) := by
    refine runKey_runs startServers_runs (by decide) fun st hst => ?_
    rcases List.mem_cons.1 hst with rfl | hst
    · trivial
    · exact votingSteps_delivers hst
  have hfour : Network.Runs sampleHost id fourMembers (byKey votedByFour) :=
    runKey_runs hproposed (by decide) (proposalSteps_delivers _)
  have hfive : Network.Runs sampleHost id fourMembers (byKey votedByFive) :=
    runKey_runs hfour (by decide) (proposalSteps_delivers _)
  have htwo : Network.Runs sampleHost id fourMembers (byKey certifiedByTwo) :=
    runKey_runs hfive (by decide) (deliver_delivers hfive (by decide +kernel))
  exact runKey_runs htwo (by decide) (deliver_delivers htwo (by decide +kernel))

theorem certifiedByThree_runs :
    Network.Runs sampleHost id fourMembers (byKey certifiedByThree) := by
  have hproposed : Network.Runs sampleHost id fourMembers
      (byKey proposedAgain) := by
    refine runKey_runs certifiedByFour_runs (by decide) fun st hst => ?_
    rcases List.mem_append.1 hst with hst | hst
    · simp only [List.mem_cons, List.not_mem_nil, or_false] at hst
      rcases hst with rfl | rfl | rfl
      · exact ⟨id, fun v hv => absurd hv List.not_mem_nil⟩
      · trivial
      · trivial
    · exact votingSteps_delivers hst
  have hfour : Network.Runs sampleHost id fourMembers (byKey againByFour) :=
    runKey_runs hproposed (by decide) (proposalSteps_delivers _)
  have hfive : Network.Runs sampleHost id fourMembers (byKey againByFive) :=
    runKey_runs hfour (by decide) (proposalSteps_delivers _)
  exact runKey_runs hfive (by decide) (deliver_delivers hfive (by decide +kernel))

/-- The certificates at the end of the run. -/
theorem certifiedByThree_certificates :
    ∃ c ∈ (byKey certifiedByThree
        (sampleAddress 2)).node.store.commitCertificates,
      (∃ c' ∈ (byKey certifiedByThree
          (sampleAddress 4)).node.store.commitCertificates,
        c.height = c'.height ∧ c.round = c'.round) ∧
      ∃ c' ∈ (byKey certifiedByThree
          (sampleAddress 3)).node.store.commitCertificates,
        c.height = c'.height ∧ c.blockHash ≠ c'.blockHash := by
  decide +kernel

theorem fourMembers_honest :
    3 * ∑ a ∈ fourMembers.byzantine, listedPower fourMembers.validators a <
      exactTotal fourMembers.validators := by
  decide +kernel

/-- Members 2 and 4 hold certificates of round 0, and they agree. -/
theorem certifiedByThree_agree :
    ∃ c ∈ (byKey certifiedByThree
        (sampleAddress 2)).node.store.commitCertificates,
      ∃ c' ∈ (byKey certifiedByThree
        (sampleAddress 4)).node.store.commitCertificates,
      c.blockHash = c'.blockHash := by
  obtain ⟨c, hc, ⟨c', hc', hheight, hround⟩, -⟩ :=
    certifiedByThree_certificates
  exact ⟨c, hc, c', hc', certificates_agree certifiedByThree_runs
    fourMembers_fits fourMembers_honest (Finset.notMem_empty _)
    (Finset.notMem_empty _) hc hc' hheight hround⟩

/-- Without any Byzantine member, the stores of members 2 and 3 hold
certificates of height 1 for different blocks. -/
theorem laterRound_certifies_another_block :
    Network.Runs sampleHost id fourMembers (byKey certifiedByThree) ∧
      exactTotal fourMembers.validators < 2 ^ 64 ∧
      3 * ∑ a ∈ fourMembers.byzantine,
        listedPower fourMembers.validators a <
          exactTotal fourMembers.validators ∧
      ∃ c ∈ (byKey certifiedByThree
          (sampleAddress 2)).node.store.commitCertificates,
        ∃ c' ∈ (byKey certifiedByThree
          (sampleAddress 3)).node.store.commitCertificates,
        c.height = c'.height ∧ c.blockHash ≠ c'.blockHash := by
  obtain ⟨c, hc, -, hother⟩ := certifiedByThree_certificates
  exact ⟨certifiedByThree_runs, fourMembers_fits, fourMembers_honest, c, hc,
    hother⟩

end ZephyrChain.Ledger
