/-
Quorum certificates: what a valid validator set is, which certificates it
accepts, and what two accepted certificates have in common.

# Shape of the argument

Both loops of the source are turned into statements about the whole list:
`validate_iff` for the loop over the validators, `tally_eq_ok` for the
loop over the votes. The powers are added up modulo 2^64 there and as
numbers here. The powers of a valid set fit together, and so do those of
distinct voters, so the two sums agree. The overlap is counted on sets of
ids: what two sets of voters have in common is what they have together
beyond the total.
-/
import ZephyrChain.Consensus.Validators
import Mathlib.Algebra.BigOperators.Group.Finset.Basic
import Mathlib.Algebra.Order.BigOperators.Group.Finset

namespace ZephyrChain.Consensus

open Lib

variable {C : Crypto} {s : ValidatorSet}

-- ==== valid sets

/-- The exact sum of the powers. -/
def exactPower (validators : List Validator) : Nat :=
  (validators.map fun v => v.power.toNat).sum

/-- A P-256 key with its id, and some power. -/
structure Validator.Sound (C : Crypto) (v : Validator) : Prop where
  power : v.power ≠ 0
  key : v.publicKey.length = 65
  id : validatorIDFromPublicKey C v.publicKey = v.id
  point : C.onCurve v.publicKey = true

/-- What the loop over the validators establishes. -/
structure ValidatorSet.Valid (C : Crypto) (s : ValidatorSet) : Prop where
  network : ¬ IsZero32 s.network
  nonempty : s.validators ≠ []
  sound : ∀ v ∈ s.validators, v.Sound C
  nodup : (s.validators.map Validator.id).Nodup
  fits : exactPower s.validators < 2 ^ 64

theorem validatorStep_eq_ok {t t' : Tally} {v : Validator} :
    validatorStep C t v = .ok t' ↔ v.Sound C ∧ v.id ∉ t.seen ∧
      t.total.toNat + v.power.toNat < 2 ^ 64 ∧
      t' = ⟨insert v.id t.seen, t.total + v.power⟩ := by
  simp only [validatorStep, ok_iff, not_or, not_not, not_overflows_iff,
    Bool.not_eq_false]
  constructor
  · rintro ⟨⟨hpower, hkey, hid⟩, hpoint, hseen, hfits, ht⟩
    exact ⟨⟨hpower, hkey, hid, hpoint⟩, hseen, hfits, ht.symm⟩
  · rintro ⟨hsound, hseen, hfits, ht⟩
    exact ⟨⟨hsound.power, hsound.key, hsound.id⟩, hsound.point, hseen,
      hfits, ht.symm⟩

/-- The loop over the validators from a partial tally. -/
theorem validators_eq_ok {vs : List Validator} {t : Tally} :
    (∃ t', vs.foldlM (validatorStep C) t = .ok t') ↔
      (∀ v ∈ vs, v.Sound C) ∧ (vs.map Validator.id).Nodup ∧
        (∀ v ∈ vs, v.id ∉ t.seen) ∧
        (vs ≠ [] → t.total.toNat + exactPower vs < 2 ^ 64) := by
  induction vs generalizing t with
  | nil => simp
  | cons v vs ih =>
    simp only [List.foldlM_cons, bind_eq_ok, validatorStep_eq_ok]
    rw [exists_comm]
    constructor
    · rintro ⟨_, t', ⟨hsound, hseen, hfits, rfl⟩, hrun⟩
      obtain ⟨hall, hnodup, hfresh, hrest⟩ := ih.1 ⟨t', hrun⟩
      have hsum := toNat_add_of_fits (not_overflows_iff.2 hfits)
      refine ⟨List.forall_mem_cons.2 ⟨hsound, hall⟩, ?_, ?_, fun _ => ?_⟩
      · refine List.nodup_cons.2 ⟨fun hmem => ?_, hnodup⟩
        obtain ⟨w, hw, hid⟩ := List.mem_map.1 hmem
        exact hfresh w hw (hid ▸ Finset.mem_insert_self v.id t.seen)
      · refine List.forall_mem_cons.2 ⟨hseen, fun w hw hmem => ?_⟩
        exact hfresh w hw (Finset.mem_insert_of_mem hmem)
      · cases vs with
        | nil => exact hfits
        | cons w ws =>
          have hmore := hrest (List.cons_ne_nil _ _)
          simp only [hsum, exactPower, List.map_cons,
            List.sum_cons] at hmore ⊢
          omega
    · rintro ⟨hall, hnodup, hfresh, hfits⟩
      obtain ⟨hsound, hall⟩ := List.forall_mem_cons.1 hall
      obtain ⟨hnew, hnodup⟩ := List.nodup_cons.1 hnodup
      obtain ⟨hseen, hfresh⟩ := List.forall_mem_cons.1 hfresh
      have hmore := hfits (List.cons_ne_nil _ _)
      simp only [exactPower, List.map_cons, List.sum_cons] at hmore
      have hhere : t.total.toNat + v.power.toNat < 2 ^ 64 := by omega
      have hsum := toNat_add_of_fits (not_overflows_iff.2 hhere)
      have hstill : ∀ w ∈ vs, w.id ∉ insert v.id t.seen := by
        intro w hw hmem
        rcases Finset.mem_insert.1 hmem with hid | hmem
        · exact hnew (hid ▸ List.mem_map_of_mem hw)
        · exact hfresh w hw hmem
      have hrest : (t.total + v.power).toNat + exactPower vs < 2 ^ 64 := by
        rw [hsum, exactPower]
        omega
      obtain ⟨t', hrun⟩ := (ih (t := ⟨insert v.id t.seen,
        t.total + v.power⟩)).2 ⟨hall, hnodup, hstill, fun _ => hrest⟩
      exact ⟨_, t', ⟨hsound, hseen, hhere, rfl⟩, hrun⟩

theorem ValidatorSet.validate_iff : s.validate C = .ok () ↔ s.Valid C := by
  simp only [validate, ok_iff, not_or, and_true, validators_eq_ok]
  constructor
  · rintro ⟨⟨hnet, hne⟩, hsound, hnodup, _, hfits⟩
    have hfits := hfits hne
    rw [show (0 : UInt64).toNat = 0 from rfl, Nat.zero_add] at hfits
    exact ⟨hnet, hne, hsound, hnodup, hfits⟩
  · intro h
    refine ⟨⟨h.network, h.nonempty⟩, h.sound, h.nodup,
      fun v _ => Finset.notMem_empty v.id, fun _ => ?_⟩
    rw [show (0 : UInt64).toNat = 0 from rfl, Nat.zero_add]
    exact h.fits

-- ==== powers

theorem exactPower_cons (v : Validator) (vs : List Validator) :
    exactPower (v :: vs) = v.power.toNat + exactPower vs :=
  List.sum_cons

theorem addPowers_eq (vs : List Validator) :
    addPowers vs = UInt64.ofNat (exactPower vs) := by
  have hgen : ∀ start : UInt64,
      vs.foldl (fun total v => total + v.power) start =
        start + UInt64.ofNat (exactPower vs) := by
    induction vs with
    | nil => exact fun start => (UInt64.add_zero start).symm
    | cons v vs ih =>
      intro start
      rw [List.foldl_cons, ih, exactPower_cons, UInt64.ofNat_add,
        UInt64.ofNat_toNat, UInt64.add_assoc]
  rw [addPowers, hgen, UInt64.zero_add]

namespace ValidatorSet

theorem Valid.toNat_addPowers (h : s.Valid C) :
    (addPowers s.validators).toNat = exactPower s.validators := by
  rw [addPowers_eq, UInt64.toNat_ofNat', Nat.mod_eq_of_lt h.fits]

theorem Valid.power_pos (h : s.Valid C) : 0 < exactPower s.validators := by
  obtain ⟨v, vs, hvs⟩ := List.exists_cons_of_ne_nil h.nonempty
  have hpower := (h.sound v (hvs ▸ List.mem_cons_self)).power
  have hpos : 0 < v.power.toNat := by
    rcases Nat.eq_zero_or_pos v.power.toNat with hzero | hpos
    · exact absurd (UInt64.toNat_inj.1 hzero) hpower
    · exact hpos
  rw [hvs, exactPower_cons]
  omega

end ValidatorSet

/-- The quorum as numbers: no step of the sum goes over. -/
theorem toNat_quorumPower {total : UInt64} (h : total ≠ 0) :
    (quorumPower total).toNat =
      total.toNat / 3 * 2 + total.toNat % 3 * 2 / 3 + 1 := by
  have hlt := total.toNat_lt
  have hmod : total.toNat % 3 < 3 := Nat.mod_lt _ (by decide)
  have htwice : (total / 3 * 2).toNat = total.toNat / 3 * 2 := by
    rw [UInt64.toNat_mul, UInt64.toNat_div]
    exact Nat.mod_eq_of_lt (by show total.toNat / 3 * 2 < 2 ^ 64; omega)
  have hrest : (total % 3 * 2 / 3).toNat = total.toNat % 3 * 2 / 3 := by
    rw [UInt64.toNat_div, UInt64.toNat_mul, UInt64.toNat_mod]
    show total.toNat % 3 * 2 % 2 ^ 64 / 3 = total.toNat % 3 * 2 / 3
    rw [Nat.mod_eq_of_lt (by omega)]
  rw [quorumPower, if_neg h, UInt64.toNat_add, UInt64.toNat_add, htwice,
    hrest]
  show ((_ + _) % 2 ^ 64 + 1) % 2 ^ 64 = _
  rw [Nat.mod_eq_of_lt (a := _ + _) (by omega), Nat.mod_eq_of_lt (by omega)]

theorem isLeast_quorumPower {total : UInt64} (h : total ≠ 0) :
    IsLeast {q : Nat | 2 * total.toNat < 3 * q}
      (quorumPower total).toNat := by
  rw [toNat_quorumPower h]
  constructor
  · show 2 * total.toNat < 3 * (_ + _ + 1)
    omega
  · intro q hq
    have hq : 2 * total.toNat < 3 * q := hq
    omega

-- ==== members

namespace ValidatorSet

/-- The power of an id, 0 if no member has it. -/
def powerOf (s : ValidatorSet) (id : ValidatorID) : Nat :=
  ((s.member id).map fun v => v.power.toNat).getD 0

variable {v : Validator}

theorem member_eq_some {id : ValidatorID} (h : s.member id = some v) :
    v ∈ s.validators ∧ v.id = id := by
  refine ⟨List.mem_of_find?_eq_some h, ?_⟩
  have hfound := List.find?_some h
  exact of_decide_eq_true hfound

theorem Valid.member_id (h : s.Valid C) (hv : v ∈ s.validators) :
    s.member v.id = some v := by
  have hsome : (s.member v.id).isSome :=
    List.find?_isSome.2 ⟨v, hv, decide_eq_true rfl⟩
  obtain ⟨w, hw⟩ := Option.isSome_iff_exists.1 hsome
  obtain ⟨hmem, hid⟩ := member_eq_some hw
  rw [hw, List.inj_on_of_nodup_map h.nodup hmem hv hid]

theorem Valid.powerOf_id (h : s.Valid C) (hv : v ∈ s.validators) :
    s.powerOf v.id = v.power.toNat := by
  rw [powerOf, h.member_id hv, Option.map_some, Option.getD_some]

/-- The ids of the members. -/
def members (s : ValidatorSet) : Finset ValidatorID :=
  (s.validators.map Validator.id).toFinset

theorem mem_members {id : ValidatorID} (h : s.powerOf id ≠ 0) :
    id ∈ s.members := by
  cases hmember : s.member id with
  | none =>
    rw [powerOf, hmember] at h
    exact absurd rfl h
  | some v =>
    obtain ⟨hv, hid⟩ := member_eq_some hmember
    exact List.mem_toFinset.2 (hid ▸ List.mem_map_of_mem hv)

theorem Valid.sum_members (h : s.Valid C) :
    ∑ id ∈ s.members, s.powerOf id = exactPower s.validators := by
  rw [members, List.sum_toFinset _ h.nodup, List.map_map, exactPower]
  exact congrArg List.sum
    (List.map_congr_left fun v hv => h.powerOf_id hv)

/-- No set of ids has more power than the members together. -/
theorem Valid.sum_le (h : s.Valid C) (ids : Finset ValidatorID) :
    ∑ id ∈ ids, s.powerOf id ≤ exactPower s.validators := by
  rw [← h.sum_members]
  exact Finset.sum_le_sum_of_ne_zero fun id _ hne => mem_members hne

end ValidatorSet

-- ==== votes

/-- A vote for what the certificate certifies. -/
structure Vote.For (v : Vote) (c : Certificate) : Prop where
  network : v.network = c.network
  height : v.height = c.height
  round : v.round = c.round
  headerHash : v.headerHash = c.headerHash

/-- A vote under a member's key with a signature that verifies. -/
def Vote.Signed (C : Crypto) (s : ValidatorSet) (v : Vote) : Prop :=
  ∃ m, s.member v.voter = some m ∧
    validatorIDFromPublicKey C v.publicKey = v.voter ∧
    m.publicKey = v.publicKey ∧
    verifyDigest C v.publicKey (v.signingDigest C) v.signature = .ok ()

namespace ValidatorSet

variable {c c' : Certificate}

theorem verifyVote_eq_ok {v : Vote} : s.verifyVote C v = .ok () ↔
    v.network = s.network ∧ v.height ≠ 0 ∧ ¬ IsZero32 v.headerHash ∧
      v.Signed C s := by
  simp only [verifyVote, ok_iff, not_or, not_not, Vote.Signed]
  constructor
  · rintro ⟨⟨hnet, hheight, hhash, hid⟩, m, hm, hkey, hsig⟩
    exact ⟨hnet, hheight, hhash, m, hm, hid, hkey, hsig⟩
  · rintro ⟨hnet, hheight, hhash, m, hm, hid, hkey, hsig⟩
    exact ⟨⟨hnet, hheight, hhash, hid⟩, m, hm, hkey, hsig⟩

theorem voteStep_eq_ok {t t' : Tally} {v : Vote} :
    voteStep C s c t v = .ok t' ↔ v.For c ∧ v.Signed C s ∧
      v.voter ∉ t.seen ∧ t' = ⟨insert v.voter t.seen,
        t.total + UInt64.ofNat (s.powerOf v.voter)⟩ := by
  simp only [voteStep, ok_iff, not_or, not_not]
  have hpower : ∀ m, s.member v.voter = some m →
      UInt64.ofNat (s.powerOf v.voter) = m.power := by
    intro m hm
    rw [powerOf, hm, Option.map_some, Option.getD_some, UInt64.ofNat_toNat]
  constructor
  · rintro ⟨⟨hnet, hheight, hround, hhash⟩, hseen, m, hm, ⟨hid, hkey⟩, hsig,
      ht⟩
    rw [hpower m hm]
    exact ⟨⟨hnet, hheight, hround, hhash⟩, ⟨m, hm, hid, hkey, hsig⟩, hseen,
      ht.symm⟩
  · rintro ⟨hfor, ⟨m, hm, hid, hkey, hsig⟩, hseen, ht⟩
    rw [hpower m hm] at ht
    exact ⟨⟨hfor.network, hfor.height, hfor.round, hfor.headerHash⟩, hseen,
      m, hm, ⟨hid, hkey⟩, hsig, ht.symm⟩

/-- The exact power of the voters, vote by vote. -/
def votedPower (s : ValidatorSet) (votes : List Vote) : Nat :=
  (votes.map fun v => s.powerOf v.voter).sum

/-- The loop over the votes from a partial tally. -/
theorem tally_eq_ok {votes : List Vote} {t : Tally} {total : UInt64} :
    (∃ seen, votes.foldlM (voteStep C s c) t = .ok ⟨seen, total⟩) ↔
      (∀ v ∈ votes, v.For c ∧ v.Signed C s) ∧
        (votes.map Vote.voter).Nodup ∧ (∀ v ∈ votes, v.voter ∉ t.seen) ∧
        total = t.total + UInt64.ofNat (s.votedPower votes) := by
  induction votes generalizing t with
  | nil =>
    have hzero : t.total + UInt64.ofNat (s.votedPower []) = t.total :=
      UInt64.add_zero _
    simp only [List.foldlM_nil, pure_eq_ok, hzero]
    constructor
    · rintro ⟨seen, rfl⟩
      simp
    · rintro ⟨_, _, _, rfl⟩
      exact ⟨t.seen, rfl⟩
  | cons v votes ih =>
    have hsum : t.total + UInt64.ofNat (s.votedPower (v :: votes)) =
        t.total + UInt64.ofNat (s.powerOf v.voter) +
          UInt64.ofNat (s.votedPower votes) := by
      rw [votedPower, List.map_cons, List.sum_cons, UInt64.ofNat_add,
        UInt64.add_assoc]
      rfl
    simp only [List.foldlM_cons, bind_eq_ok, voteStep_eq_ok]
    rw [hsum, exists_comm]
    constructor
    · rintro ⟨_, seen, ⟨hfor, hsigned, hseen, rfl⟩, hrun⟩
      obtain ⟨hall, hnodup, hfresh, htotal⟩ := ih.1 ⟨seen, hrun⟩
      refine ⟨List.forall_mem_cons.2 ⟨⟨hfor, hsigned⟩, hall⟩, ?_, ?_,
        htotal⟩
      · refine List.nodup_cons.2 ⟨fun hmem => ?_, hnodup⟩
        obtain ⟨w, hw, hvoter⟩ := List.mem_map.1 hmem
        exact hfresh w hw (hvoter ▸ Finset.mem_insert_self v.voter t.seen)
      · refine List.forall_mem_cons.2 ⟨hseen, fun w hw hmem => ?_⟩
        exact hfresh w hw (Finset.mem_insert_of_mem hmem)
    · rintro ⟨hall, hnodup, hfresh, htotal⟩
      obtain ⟨⟨hfor, hsigned⟩, hall⟩ := List.forall_mem_cons.1 hall
      obtain ⟨hnew, hnodup⟩ := List.nodup_cons.1 hnodup
      obtain ⟨hseen, hfresh⟩ := List.forall_mem_cons.1 hfresh
      have hstill : ∀ w ∈ votes, w.voter ∉ insert v.voter t.seen := by
        intro w hw hmem
        rcases Finset.mem_insert.1 hmem with hvoter | hmem
        · exact hnew (hvoter ▸ List.mem_map_of_mem hw)
        · exact hfresh w hw hmem
      obtain ⟨seen, hrun⟩ := (ih (t := ⟨insert v.voter t.seen, _⟩)).2
        ⟨hall, hnodup, hstill, htotal⟩
      exact ⟨_, seen, ⟨hfor, hsigned, hseen, rfl⟩, hrun⟩

-- ==== certificates

/-- The ids that voted. -/
def voters (c : Certificate) : Finset ValidatorID :=
  (c.votes.map Vote.voter).toFinset

theorem votedPower_eq_sum (hnodup : (c.votes.map Vote.voter).Nodup) :
    s.votedPower c.votes = ∑ id ∈ voters c, s.powerOf id := by
  rw [voters, List.sum_toFinset _ hnodup, List.map_map]
  rfl

/-- The quorum of a set, as a number. -/
def quorum (s : ValidatorSet) : Nat :=
  (quorumPower (addPowers s.validators)).toNat

theorem Valid.addPowers_ne_zero (h : s.Valid C) :
    addPowers s.validators ≠ 0 := by
  intro hzero
  have hpos := h.power_pos
  rw [← h.toNat_addPowers, hzero] at hpos
  exact absurd hpos (Nat.lt_irrefl 0)

theorem Valid.isLeast_quorum (h : s.Valid C) :
    IsLeast {q : Nat | 2 * exactPower s.validators < 3 * q} s.quorum := by
  have hleast := isLeast_quorumPower h.addPowers_ne_zero
  rwa [h.toNat_addPowers] at hleast

theorem Valid.verifyCertificate_iff (h : s.Valid C) :
    s.verifyCertificate C c = .ok () ↔
      (∀ v ∈ c.votes, v.For c ∧ s.verifyVote C v = .ok ()) ∧
        (c.votes.map Vote.voter).Nodup ∧
        s.quorum ≤ s.votedPower c.votes := by
  have hloop : s.verifyCertificate C c = .ok () ↔
      (c.network = s.network ∧ c.height ≠ 0 ∧ ¬ IsZero32 c.headerHash) ∧
        (∀ v ∈ c.votes, v.For c ∧ v.Signed C s) ∧
        (c.votes.map Vote.voter).Nodup ∧
        quorumPower (addPowers s.validators) ≤
          UInt64.ofNat (s.votedPower c.votes) := by
    simp only [verifyCertificate, ok_iff, validate_iff.2 h, true_and,
      not_or, not_not, UInt64.not_lt]
    refine and_congr_right fun _ => ?_
    constructor
    · rintro ⟨⟨seen, total⟩, hrun, hquorum⟩
      obtain ⟨hall, hnodup, _, rfl⟩ := tally_eq_ok.1 ⟨seen, hrun⟩
      rw [UInt64.zero_add] at hquorum
      exact ⟨hall, hnodup, hquorum⟩
    · rintro ⟨hall, hnodup, hquorum⟩
      obtain ⟨seen, hrun⟩ := (tally_eq_ok (t := ⟨∅, 0⟩)).2 ⟨hall, hnodup,
        fun v _ => Finset.notMem_empty v.voter, rfl⟩
      rw [UInt64.zero_add] at hrun
      exact ⟨_, hrun, hquorum⟩
  -- the powers of distinct voters fit, so the sum is the exact one
  have hexact : (c.votes.map Vote.voter).Nodup →
      (quorumPower (addPowers s.validators) ≤
          UInt64.ofNat (s.votedPower c.votes) ↔
        s.quorum ≤ s.votedPower c.votes) := by
    intro hnodup
    have hle : s.votedPower c.votes ≤ exactPower s.validators :=
      votedPower_eq_sum hnodup ▸ h.sum_le _
    rw [UInt64.le_iff_toNat_le, UInt64.toNat_ofNat',
      Nat.mod_eq_of_lt (hle.trans_lt h.fits)]
    rfl
  rw [hloop]
  constructor
  · rintro ⟨⟨hnet, hheight, hhash⟩, hall, hnodup, hquorum⟩
    refine ⟨fun v hv => ⟨(hall v hv).1, ?_⟩, hnodup,
      (hexact hnodup).1 hquorum⟩
    obtain ⟨hfor, hsigned⟩ := hall v hv
    exact verifyVote_eq_ok.2 ⟨hfor.network.trans hnet,
      hfor.height ▸ hheight, hfor.headerHash ▸ hhash, hsigned⟩
  · rintro ⟨hall, hnodup, hquorum⟩
    -- a quorum is not empty, and its first vote has the set's network
    have hpos : 2 * exactPower s.validators < 3 * s.quorum :=
      h.isLeast_quorum.1
    cases hvotes : c.votes with
    | nil =>
      have hzero : s.votedPower c.votes = 0 := by rw [hvotes]; rfl
      omega
    | cons v votes =>
      rw [← hvotes]
      obtain ⟨hfor, hvote⟩ := hall v (hvotes ▸ List.mem_cons_self)
      obtain ⟨hnet, hheight, hhash, _⟩ := verifyVote_eq_ok.1 hvote
      refine ⟨⟨hfor.network.symm.trans hnet, hfor.height ▸ hheight,
        hfor.headerHash ▸ hhash⟩, fun w hw => ⟨(hall w hw).1, ?_⟩, hnodup,
        (hexact hnodup).2 hquorum⟩
      exact (verifyVote_eq_ok.1 (hall w hw).2).2.2.2

/-- What two quorums have in common is more than a third. -/
theorem Valid.overlap (h : s.Valid C)
    (hc : s.verifyCertificate C c = .ok ())
    (hc' : s.verifyCertificate C c' = .ok ()) :
    exactPower s.validators <
      3 * ∑ id ∈ voters c ∩ voters c', s.powerOf id := by
  obtain ⟨_, hnodup, hquorum⟩ := h.verifyCertificate_iff.1 hc
  obtain ⟨_, hnodup', hquorum'⟩ := h.verifyCertificate_iff.1 hc'
  rw [votedPower_eq_sum hnodup] at hquorum
  rw [votedPower_eq_sum hnodup'] at hquorum'
  have hpos : 2 * exactPower s.validators < 3 * s.quorum :=
    h.isLeast_quorum.1
  have hunion := h.sum_le (voters c ∪ voters c')
  have hboth : ∑ id ∈ voters c ∪ voters c', s.powerOf id +
      ∑ id ∈ voters c ∩ voters c', s.powerOf id =
        ∑ id ∈ voters c, s.powerOf id + ∑ id ∈ voters c', s.powerOf id :=
    Finset.sum_union_inter
  omega

end ValidatorSet

/-- For every valid set: the quorum is the least number above two thirds
of the exact total and no step of its computation goes over; a
certificate is accepted exactly when its votes are for what it certifies,
verify, come from distinct voters and reach the quorum; and two accepted
certificates share more than a third of the power. -/
theorem quorum_certificates (h : s.validate C = .ok ()) :
    ∃ total, s.totalPower C = .ok total ∧
      total.toNat = exactPower s.validators ∧
      (quorumPower total).toNat =
        total.toNat / 3 * 2 + total.toNat % 3 * 2 / 3 + 1 ∧
      IsLeast {q : Nat | 2 * total.toNat < 3 * q}
        (quorumPower total).toNat ∧
      (∀ c, s.verifyCertificate C c = .ok () ↔
        (∀ v ∈ c.votes, v.For c ∧ s.verifyVote C v = .ok ()) ∧
          (c.votes.map Vote.voter).Nodup ∧
          (quorumPower total).toNat ≤ s.votedPower c.votes) ∧
      ∀ c c', s.verifyCertificate C c = .ok () →
        s.verifyCertificate C c' = .ok () →
        total.toNat < 3 * ∑ id ∈ ValidatorSet.voters c ∩
          ValidatorSet.voters c', s.powerOf id := by
  have hvalid := ValidatorSet.validate_iff.1 h
  have hne := hvalid.addPowers_ne_zero
  have htotal : s.totalPower C = .ok (addPowers s.validators) := by
    simp only [ValidatorSet.totalPower, bind_eq_ok, exists_unit, h,
      pure_eq_ok, and_self]
  refine ⟨_, htotal, hvalid.toNat_addPowers, toNat_quorumPower hne,
    isLeast_quorumPower hne, fun c => hvalid.verifyCertificate_iff,
    fun c c' hc hc' => ?_⟩
  rw [hvalid.toNat_addPowers]
  exact hvalid.overlap hc hc'

-- ==== samples

/-- A hash that adds up the bytes; every signature verifies. -/
def sumCrypto : Crypto where
  sha256 := fun bs => Vector.replicate 32 (bs.foldl (· + ·) 1)
  onCurve := fun _ => true
  ecdsaVerify := fun _ _ _ _ => true

def singleKey (b : UInt8) : Bytes := List.replicate 65 b

/-- Two validators with keys of ones and of twos. -/
def pairSet (first second : UInt64) : ValidatorSet :=
  ⟨Vector.replicate 32 1,
    [⟨validatorIDFromPublicKey sumCrypto (singleKey 1), singleKey 1, first⟩,
      ⟨validatorIDFromPublicKey sumCrypto (singleKey 2), singleKey 2,
        second⟩]⟩

theorem quorum_certificates_pairSet :
    (pairSet 3 1).validate sumCrypto = .ok () ∧
      ∃ total, (pairSet 3 1).totalPower sumCrypto = .ok total ∧
        IsLeast {q : Nat | 2 * total.toNat < 3 * q}
          (quorumPower total).toNat := by
  have hvalid : (pairSet 3 1).validate sumCrypto = .ok () := by
    decide +kernel
  obtain ⟨total, htotal, _, _, hleast, _⟩ := quorum_certificates hvalid
  exact ⟨hvalid, total, htotal, hleast⟩

end ZephyrChain.Consensus
