/-
The validator trust chain holds what it was pinned to. Whatever calls of
`append` are made, the entries a chain holds are the heights from one to
its own, each certified by the committee its predecessor handed over to,
back to the genesis committee.

# The argument

`append_cases` says all an append can do: refuse and change nothing, or
write one entry whose checks have passed. `Trusted` is the invariant, and
its one step lemma reads the second case against it. The entries below
the new one are not touched, since the new height is above all of them
(`Accepts.above`): a height that wraps to zero has no certificate.
-/
import ZephyrChain.Consensus.Checkpoint
import ZephyrChain.Consensus.Proofs.Quorum

namespace ZephyrChain.Consensus.Checkpoint

open Lib

variable {C : Crypto} {c c' : Chain} {a : Call}

-- ==== one append

/-- A set certifies an entry of a height: it has the root the header
names, and its quorum certificate is over that header. -/
structure Entry.Certified (C : Crypto) (network : NetworkID)
    (height : UInt64) (e : Entry) : Prop where
  network : e.header.network = network
  height : e.header.height = height
  root : e.validators.root C = .ok e.header.validatorRoot
  quorum : e.validators.verifyCertificate C e.certificate = .ok ()
  certificateHeight : e.certificate.height = e.header.height
  headerHash : e.certificate.headerHash = headerConsensusHash C e.header
  certificateHash : e.header.certificateHash = e.certificate.hash C

/-- The call passes every check of `append`. -/
structure Chain.Accepts (C : Crypto) (c : Chain) (a : Call) : Prop where
  certified : Entry.Certified C c.network (c.lastHeight + 1)
    ⟨a.header, a.certificate, a.current⟩
  parent : 0 < c.lastHeight → a.header.parentHash = c.lastHash
  root : a.header.validatorRoot = c.currentRoot
  /-- A set that comes along for the next height has its root. -/
  next : ∀ s, a.next = some s →
    s.root C = .ok a.header.effectiveNextValidatorRoot
  /-- A handover brings the next set along. -/
  handover : a.header.effectiveNextValidatorRoot ≠ c.currentRoot →
    ∃ s, a.next = some s

theorem Chain.checkHeader_eq_ok {root : Hash} :
    c.checkHeader C a = .ok root ↔
      root = c.currentRoot ∧ a.certificate.network = c.network ∧
        a.current.network = c.network ∧
        Entry.Certified C c.network (c.lastHeight + 1)
          ⟨a.header, a.certificate, a.current⟩ ∧
        (0 < c.lastHeight → a.header.parentHash = c.lastHash) ∧
        a.header.validatorRoot = c.currentRoot := by
  simp only [checkHeader, ok_iff, not_or, not_not, not_and]
  constructor
  · rintro ⟨⟨hn, hcn, hvn⟩, ⟨hh, hp⟩, _, hr, ⟨rfl, hv⟩, ⟨hch, hhash, hc⟩,
      hq, rfl⟩
    exact ⟨rfl, hcn, hvn, ⟨hn, hh, hv ▸ hr, hq, hch, hhash, hc⟩, hp, hv⟩
  · rintro ⟨rfl, hcn, hvn, h, hp, hv⟩
    exact ⟨⟨h.network, hcn, hvn⟩, ⟨h.height, hp⟩, _, hv ▸ h.root,
      ⟨rfl, hv⟩, ⟨h.certificateHeight, h.headerHash, h.certificateHash⟩,
      h.quorum, rfl⟩

theorem Chain.checkNext_eq_ok {root : Hash}
    (h : c.checkNext C a root = .ok ()) :
    (∀ s, a.next = some s →
      s.root C = .ok a.header.effectiveNextValidatorRoot) ∧
    (a.header.effectiveNextValidatorRoot ≠ root →
      ∃ s, a.next = some s) := by
  unfold checkNext at h
  cases hnext : a.next with
  | none =>
    rw [hnext] at h
    simp only [refuse_eq_ok, not_not] at h
    exact ⟨nofun, fun hne => absurd h hne⟩
  | some next =>
    rw [hnext] at h
    simp only [ok_iff, not_not] at h
    obtain ⟨-, computed, hroot, rfl⟩ := h
    refine ⟨?_, fun _ => ⟨next, rfl⟩⟩
    intro s hs
    cases hs
    exact hroot

/-- Everything an append can do: it refuses and leaves the chain as it
was, or it writes an entry that passed every check. -/
theorem Chain.append_cases (C : Crypto) (c : Chain) (a : Call) :
    (∃ e, c.append C a = (c, some e)) ∨
    (c.append C a = (c.extended C a c.currentRoot, none) ∧
      c.Accepts C a) := by
  unfold append
  cases hheader : c.checkHeader C a with
  | error e => exact .inl ⟨e, rfl⟩
  | ok root =>
    obtain ⟨rfl, -, -, hcert, hparent, hroot⟩ :=
      checkHeader_eq_ok.1 hheader
    cases hnext : c.checkNext C a c.currentRoot with
    | error e => exact .inl ⟨e, by simp only [hnext]⟩
    | ok u =>
      obtain ⟨hset, hhand⟩ := checkNext_eq_ok hnext
      exact .inr ⟨by simp only [hnext], hcert, hparent, hroot, hset,
        hhand⟩

/-- A certified height is not zero, so the height after the last one is
above it. -/
theorem Chain.Accepts.above (h : c.Accepts C a) :
    c.lastHeight.toNat + 1 < 2 ^ 64 := by
  have hquorum := h.certified.quorum
  simp only [ValidatorSet.verifyCertificate, ok_iff, not_or] at hquorum
  have hzero : c.lastHeight + 1 ≠ 0 := by
    rw [← h.certified.height, ← h.certified.certificateHeight]
    exact hquorum.2.1.2.1
  have hlt := c.lastHeight.toNat_lt
  by_contra hwrap
  apply hzero
  apply UInt64.toNat_inj.1
  rw [UInt64.toNat_add]
  show (c.lastHeight.toNat + 1) % 2 ^ 64 = 0
  omega

theorem Chain.Accepts.toNat_height (h : c.Accepts C a) :
    a.header.height.toNat = c.lastHeight.toNat + 1 := by
  have hheight : a.header.height = c.lastHeight + 1 := h.certified.height
  have habove := h.above
  rw [hheight, UInt64.toNat_add]
  show (c.lastHeight.toNat + 1) % 2 ^ 64 = c.lastHeight.toNat + 1
  omega

-- ==== the invariant

/-- The committee root that is authorized after a height: the genesis
root at first, then what the header of that height hands over to. -/
def Chain.rootAfter (c : Chain) (genesisRoot : Hash) (height : Nat) :
    Option Hash :=
  if height = 0 then some genesisRoot
  else (c.entries (UInt64.ofNat height)).map fun e =>
    e.header.effectiveNextValidatorRoot

/-- What a chain pinned to a committee root holds, whatever was appended
to it. -/
structure Chain.Trusted (C : Crypto) (genesisRoot : Hash) (c : Chain) :
    Prop where
  /-- The stored heights are those from one to the chain's own. -/
  heights : ∀ height, (∃ e, c.entries height = some e) ↔
    1 ≤ height.toNat ∧ height.toNat ≤ c.lastHeight.toNat
  certified : ∀ height e, c.entries height = some e →
    e.Certified C c.network height
  /-- The committee of an entry is the one its predecessor authorized. -/
  authorized : ∀ height e, c.entries height = some e →
    c.rootAfter genesisRoot (height.toNat - 1) =
      some e.header.validatorRoot
  parent : ∀ height e p, c.entries height = some e →
    c.entries (UInt64.ofNat (height.toNat - 1)) = some p →
    e.header.parentHash = headerConsensusHash C p.header
  current : c.rootAfter genesisRoot c.lastHeight.toNat =
    some c.currentRoot
  lastHash : ∀ e, c.entries c.lastHeight = some e →
    c.lastHash = headerConsensusHash C e.header
  /-- The set to check the next header with is at hand. -/
  stored : ∃ s, c.sets c.currentRoot = some s ∧
    s.root C = .ok c.currentRoot

namespace Chain

theorem trusted_newChain {network : NetworkID} {genesis : ValidatorSet}
    (h : newChain C network genesis = .ok c) :
    ∃ root, genesis.root C = .ok root ∧ c.network = network ∧
      c.lastHeight = 0 ∧ c.Trusted C root := by
  simp only [newChain, ok_iff] at h
  obtain ⟨-, root, hroot, -, rfl⟩ := h
  refine ⟨root, hroot, rfl, rfl, ?_, ?_, ?_, ?_, rfl, ?_, ?_⟩
  · intro height
    constructor
    · rintro ⟨e, he⟩
      cases he
    · rintro ⟨hlo, hhi⟩
      have hzero : (0 : UInt64).toNat = 0 := rfl
      exact absurd (hzero ▸ hhi) (by omega)
  · intro height e he
    cases he
  · intro height e he
    cases he
  · intro height e p he
    cases he
  · intro e he
    cases he
  · refine ⟨genesis, ?_, hroot⟩
    simp only [Function.update_self]

end Chain

-- ==== one step

section Extend

variable (h : c.Accepts C a) {genesisRoot : Hash}
  (ht : c.Trusted C genesisRoot)

/-- The entries of the longer chain: the new one on top of the old. -/
theorem Chain.entries_extended (height : UInt64) :
    (c.extended C a c.currentRoot).entries height =
      if height = a.header.height then
        some ⟨a.header, a.certificate, a.current⟩
      else c.entries height := by
  by_cases heq : height = a.header.height
  · rw [if_pos heq, heq]
    exact Function.update_self _ _ _
  · rw [if_neg heq]
    exact Function.update_of_ne heq _ _

theorem Chain.network_extended :
    (c.extended C a c.currentRoot).network = c.network := by
  unfold extended setStored
  cases a.next <;> rfl

include h

variable {height : UInt64}

/-- Below the new height nothing changes. -/
theorem Chain.Accepts.entries_below
    (hle : height.toNat ≤ c.lastHeight.toNat) :
    (c.extended C a c.currentRoot).entries height =
      c.entries height := by
  rw [entries_extended, if_neg]
  rintro rfl
  have := h.toNat_height
  omega

theorem Chain.Accepts.rootAfter_below {height : Nat}
    (hle : height ≤ c.lastHeight.toNat) :
    (c.extended C a c.currentRoot).rootAfter genesisRoot height =
      c.rootAfter genesisRoot height := by
  have hlt := c.lastHeight.toNat_lt
  have hnat : (UInt64.ofNat height).toNat = height :=
    UInt64.toNat_ofNat_of_lt' (Nat.lt_of_le_of_lt hle hlt)
  unfold rootAfter
  rw [h.entries_below (by rw [hnat]; exact hle)]

/-- The set for the next height is the one the call brought along, or the
current one where the committee stays. -/
theorem Chain.Accepts.stored_extended :
    ∃ s, (c.extended C a c.currentRoot).sets
        a.header.effectiveNextValidatorRoot = some s ∧
      s.root C = .ok a.header.effectiveNextValidatorRoot := by
  by_cases hkeep : a.header.effectiveNextValidatorRoot = c.currentRoot
  · refine ⟨a.current, ?_, ?_⟩
    · rw [hkeep]
      exact Function.update_self _ _ _
    · rw [hkeep, ← h.root]
      exact h.certified.root
  · obtain ⟨s, hs⟩ := h.handover hkeep
    refine ⟨s, ?_, h.next s hs⟩
    show Function.update _ c.currentRoot _ _ = _
    rw [Function.update_of_ne hkeep, hs]
    exact Function.update_self _ _ _

include ht

/-- An entry of the longer chain is the new one, or an old one. -/
theorem Chain.Accepts.entry_cases {e : Entry}
    (he : (c.extended C a c.currentRoot).entries height = some e) :
    (height = a.header.height ∧ height.toNat = c.lastHeight.toNat + 1 ∧
      e = ⟨a.header, a.certificate, a.current⟩) ∨
    (height.toNat ≤ c.lastHeight.toNat ∧ c.entries height = some e) := by
  rw [entries_extended] at he
  split at he
  case isTrue heq =>
    cases he
    exact .inl ⟨heq, heq ▸ h.toNat_height, rfl⟩
  case isFalse =>
    exact .inr ⟨((ht.heights height).1 ⟨e, he⟩).2, he⟩

theorem Chain.Accepts.heights_extended (height : UInt64) :
    (∃ e, (c.extended C a c.currentRoot).entries height = some e) ↔
      1 ≤ height.toNat ∧ height.toNat ≤ a.header.height.toNat := by
  have hnew := h.toNat_height
  constructor
  · rintro ⟨e, he⟩
    rcases h.entry_cases ht he with ⟨-, heq, -⟩ | ⟨-, hold⟩
    · omega
    · have hbound := (ht.heights height).1 ⟨e, hold⟩
      omega
  · rintro ⟨hlo, hhi⟩
    by_cases heq : height = a.header.height
    · exact ⟨_, by rw [entries_extended, if_pos heq]⟩
    · have hne : height.toNat ≠ a.header.height.toNat := fun hn =>
        heq (UInt64.toNat_inj.1 hn)
      rw [entries_extended, if_neg heq]
      exact (ht.heights height).2 (by omega)

/-- The parent named by an entry of the longer chain. -/
theorem Chain.Accepts.parent_extended {e p : Entry}
    (he : (c.extended C a c.currentRoot).entries height = some e)
    (hp : (c.extended C a c.currentRoot).entries
      (UInt64.ofNat (height.toNat - 1)) = some p) :
    e.header.parentHash = headerConsensusHash C p.header := by
  rcases h.entry_cases ht he with ⟨-, heq, rfl⟩ | ⟨hle, hold⟩
  · -- the new entry: its predecessor is the last one of `c`
    have hpred : UInt64.ofNat (height.toNat - 1) = c.lastHeight := by
      rw [heq, Nat.add_sub_cancel, UInt64.ofNat_toNat]
    rw [hpred, h.entries_below (Nat.le_refl _)] at hp
    have hpos := ((ht.heights c.lastHeight).1 ⟨p, hp⟩).1
    rw [← ht.lastHash p hp]
    exact h.parent (UInt64.lt_iff_toNat_lt.2 hpos)
  · have hlt := height.toNat_lt
    have hnat : (UInt64.ofNat (height.toNat - 1)).toNat =
        height.toNat - 1 :=
      UInt64.toNat_ofNat_of_lt' (Nat.lt_of_le_of_lt (Nat.sub_le _ 1) hlt)
    rw [h.entries_below (by omega)] at hp
    exact ht.parent height e p hold hp

theorem Chain.Accepts.trusted_extended :
    (c.extended C a c.currentRoot).Trusted C genesisRoot := by
  have hnew := h.toNat_height
  refine ⟨h.heights_extended ht, ?_, ?_, ?_, ?_, ?_,
    h.stored_extended⟩
  · intro height e he
    rw [network_extended]
    rcases h.entry_cases ht he with ⟨rfl, -, rfl⟩ | ⟨-, hold⟩
    · have hheight : a.header.height = c.lastHeight + 1 :=
        h.certified.height
      rw [hheight]
      exact h.certified
    · exact ht.certified height e hold
  · intro height e he
    rcases h.entry_cases ht he with ⟨-, heq, rfl⟩ | ⟨hle, hold⟩
    · rw [heq, Nat.add_sub_cancel, h.rootAfter_below (Nat.le_refl _),
        ht.current, h.root]
    · rw [h.rootAfter_below (by omega)]
      exact ht.authorized height e hold
  · intro height e p he hp
    exact h.parent_extended ht he hp
  · show rootAfter _ _ a.header.height.toNat = _
    rw [rootAfter, if_neg (by omega), UInt64.ofNat_toNat,
      entries_extended, if_pos rfl]
    rfl
  · intro e he
    have hlast : (c.extended C a c.currentRoot).lastHeight =
        a.header.height := rfl
    rw [hlast, entries_extended, if_pos rfl] at he
    cases he
    rfl

end Extend

-- ==== runs

namespace Chain

variable {genesisRoot : Hash}

/-- One call keeps the invariant, and a call that fails keeps the
chain. -/
theorem Trusted.append (ht : c.Trusted C genesisRoot) (a : Call) :
    (c.append C a).1.Trusted C genesisRoot ∧
      (c.append C a).1.network = c.network := by
  rcases c.append_cases C a with ⟨e, he⟩ | ⟨hok, h⟩
  · rw [he]
    exact ⟨ht, rfl⟩
  · rw [hok]
    exact ⟨h.trusted_extended ht, network_extended⟩

theorem Trusted.appendAll (ht : c.Trusted C genesisRoot)
    (calls : List Call) :
    (c.appendAll C calls).Trusted C genesisRoot ∧
      (c.appendAll C calls).network = c.network := by
  induction calls generalizing c with
  | nil => exact ⟨ht, rfl⟩
  | cons a rest ih =>
    obtain ⟨hnext, hnetwork⟩ := ht.append a
    obtain ⟨hall, hrest⟩ := ih hnext
    exact ⟨hall, hrest.trans hnetwork⟩

theorem append_error_unchanged {e : Error}
    (h : (c.append C a).2 = some e) : (c.append C a).1 = c := by
  rcases c.append_cases C a with ⟨e', he⟩ | ⟨hok, -⟩
  · rw [he]
  · rw [hok] at h
    cases h

theorem Trusted.verifyEntry (ht : c.Trusted C genesisRoot)
    {height : UInt64} {e : Entry} (he : c.entries height = some e) :
    c.verifyEntry C height = .ok () := by
  have h := ht.certified height e he
  simp only [Chain.verifyEntry, ok_iff, not_or, not_not]
  exact ⟨e, he, _, h.root, rfl, ⟨h.headerHash, h.certificateHash⟩,
    h.quorum⟩

end Chain

/-- Whatever is appended to a chain pinned to a genesis committee, every
committee it trusts was handed over to from that one: the chain it leaves
is `Trusted`, a call that fails changes nothing, and every stored entry
verifies again. -/
theorem checkpoint_chain_trusted {network : NetworkID}
    {genesis : ValidatorSet} {c₀ : Chain}
    (hnew : newChain C network genesis = .ok c₀) (calls : List Call) :
    ∃ genesisRoot, genesis.root C = .ok genesisRoot ∧
      (c₀.appendAll C calls).network = network ∧
      (c₀.appendAll C calls).Trusted C genesisRoot ∧
      (∀ a e, ((c₀.appendAll C calls).append C a).2 = some e →
        ((c₀.appendAll C calls).append C a).1 = c₀.appendAll C calls) ∧
      ∀ height : UInt64, 1 ≤ height.toNat →
        height.toNat ≤ (c₀.appendAll C calls).lastHeight.toNat →
        (c₀.appendAll C calls).verifyEntry C height = .ok () := by
  obtain ⟨root, hroot, hnetwork, -, ht⟩ := Chain.trusted_newChain hnew
  obtain ⟨hall, hsame⟩ := ht.appendAll calls
  refine ⟨root, hroot, hsame.trans hnetwork, hall,
    fun a e he => Chain.append_error_unchanged he, ?_⟩
  intro height hlo hhi
  obtain ⟨e, he⟩ := (hall.heights height).2 ⟨hlo, hhi⟩
  exact hall.verifyEntry he

-- ==== a handover

/-- One validator with all the power. -/
def singleSet (b : UInt8) : ValidatorSet :=
  ⟨Vector.replicate 32 1,
    [⟨validatorIDFromPublicKey sumCrypto (singleKey b), singleKey b, 1⟩]⟩

def singleRoot (b : UInt8) : Hash :=
  Merkle.root sumCrypto
    ((singleSet b).sorted.map (ValidatorSet.leaf sumCrypto))

/-- A header of the first height that hands over from one key to
another, without its certificate. -/
def handoverHeader : GlobalHeader where
  version := 1
  network := Vector.replicate 32 1
  height := 1
  parentHash := Bytes32.zero
  shardCommitmentRoot := Bytes32.zero
  validatorRoot := singleRoot 4
  nextValidatorRoot := singleRoot 5
  dataRoot := Bytes32.zero
  certificateHash := Bytes32.zero

def handoverCertificate : Certificate :=
  let hash := headerConsensusHash sumCrypto handoverHeader
  ⟨Vector.replicate 32 1, 1, 0, hash,
    [⟨Vector.replicate 32 1, 1, 0, hash,
      validatorIDFromPublicKey sumCrypto (singleKey 4), singleKey 4,
      List.replicate 64 1⟩]⟩

def handoverCall : Call where
  header := { handoverHeader with
    certificateHash := handoverCertificate.hash sumCrypto }
  certificate := handoverCertificate
  current := singleSet 4
  next := some (singleSet 5)

theorem root_singleSet : (singleSet 4).root sumCrypto = .ok (singleRoot 4) := by
  decide +kernel

/-- The committee of the second key is trusted after the handover, and
the same call again is refused. -/
theorem checkpoint_chain_trusted_handover :
    ∃ c₀, newChain sumCrypto (Vector.replicate 32 1) (singleSet 4) =
        .ok c₀ ∧
      (c₀.appendAll sumCrypto [handoverCall, handoverCall]).Trusted
        sumCrypto (singleRoot 4) ∧
      (c₀.appendAll sumCrypto [handoverCall, handoverCall]).currentRoot =
        singleRoot 5 := by
  have hnew : newChain sumCrypto (Vector.replicate 32 1) (singleSet 4) =
      .ok ⟨Vector.replicate 32 1, singleRoot 4, 0, Bytes32.zero,
        fun _ => none, Function.update (fun _ => none) (singleRoot 4)
          (some (singleSet 4))⟩ := by
    simp only [newChain, root_singleSet, bind_eq_ok, exists_unit,
      refuse_eq_ok, failWith_eq_ok, pure_eq_ok]
    exact ⟨by decide, _, rfl, by decide +kernel, rfl⟩
  refine ⟨_, hnew, ?_, ?_⟩
  · obtain ⟨root, hroot, -, h, -⟩ :=
      checkpoint_chain_trusted hnew [handoverCall, handoverCall]
    rw [root_singleSet] at hroot
    cases hroot
    exact h
  · decide +kernel

end ZephyrChain.Consensus.Checkpoint
