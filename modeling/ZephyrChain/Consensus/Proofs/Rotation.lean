/-
The weighted rotation of proposers. The schedule gives every validator,
in the order of the ids, as many consecutive slots as it has power, and
height and round together move through the slots.

# The wrapped sum

The source takes both remainders first and adds them in 64 bits. Up to a
total of 2^63 the sum fits and the slot is the exact one. Above that it
can wrap, and the slot is then `2 ^ 64 - total` below the exact one
(`toNat_slot`). That goes unnoticed only where one validator owns both
slots, and for every pair of slots this means that the first validator
owns all slots but perhaps the last: `rotates_iff`.
-/
import ZephyrChain.Consensus.Proofs.Quorum
import ZephyrChain.Lib.Slots
import ZephyrChain.Lib.SortBy

namespace ZephyrChain.Consensus

open Lib

variable {C : Crypto} {s : ValidatorSet}

/-- The weight of a validator in the schedule. -/
def weight (v : Validator) : Nat := v.power.toNat

/-- The slot of a height and a round, computed exactly. -/
def exactSlot (s : ValidatorSet) (height round : UInt64) : Nat :=
  (height.toNat - 1 + round.toNat) % exactPower s.validators

-- ==== the loop

/-- The loop over cumulative powers finds the owner of the slot. -/
theorem slotOwner_eq {slot : UInt64} {vs : List Validator}
    {cumulative : UInt64}
    (hfits : cumulative.toNat + exactPower vs < 2 ^ 64)
    (hle : cumulative.toNat ≤ slot.toNat) :
    ValidatorSet.slotOwner slot cumulative vs =
      ownerAt weight vs (slot.toNat - cumulative.toNat) := by
  induction vs generalizing cumulative with
  | nil => rfl
  | cons v vs ih =>
    rw [exactPower_cons] at hfits
    have hsum : (cumulative + v.power).toNat =
        cumulative.toNat + v.power.toNat :=
      toNat_add_of_fits (not_overflows_iff.2 (by omega))
    rw [ValidatorSet.slotOwner, ownerAt]
    by_cases hhere : slot < cumulative + v.power
    · have hlt : slot.toNat - cumulative.toNat < weight v := by
        rw [UInt64.lt_iff_toNat_lt, hsum] at hhere
        show _ < v.power.toNat
        omega
      rw [if_pos hhere, if_pos hlt]
    · have hge : ¬ slot.toNat - cumulative.toNat < weight v := by
        rw [UInt64.lt_iff_toNat_lt, hsum] at hhere
        show ¬ _ < v.power.toNat
        omega
      rw [if_neg hhere, if_neg hge, ih (by omega) ?_, hsum, Nat.sub_add_eq]
      · rfl
      · rw [UInt64.lt_iff_toNat_lt, hsum] at hhere
        omega

namespace ValidatorSet

theorem sorted_perm (s : ValidatorSet) : s.sorted.Perm s.validators :=
  List.perm_insertionSort _ _

theorem exactPower_sorted (s : ValidatorSet) :
    exactPower s.sorted = exactPower s.validators :=
  (s.sorted_perm.map _).sum_eq

theorem Valid.sorted_nodup (h : s.Valid C) : s.sorted.Nodup :=
  s.sorted_perm.nodup_iff.2 (List.Nodup.of_map _ h.nodup)

/-- The slot as the source computes it. -/
def slot (s : ValidatorSet) (height round : UInt64) : UInt64 :=
  ((height - 1) % addPowers s.validators +
    round % addPowers s.validators) % addPowers s.validators

variable {height : UInt64}

theorem Valid.proposer_eq (h : s.Valid C) (hheight : height ≠ 0)
    (round : UInt64) :
    s.proposer C height round =
      require (ownerAt weight s.sorted (s.slot height round).toNat)
        .validatorSet := by
  have hfits : (0 : UInt64).toNat + exactPower s.sorted < 2 ^ 64 := by
    rw [exactPower_sorted]
    exact (Nat.zero_add _).trans_lt h.fits
  simp only [proposer, totalPower, validate_iff.2 h, ok_bind]
  rw [refuse_of_not _ hheight]
  show require (slotOwner (s.slot height round) 0 s.sorted) _ = _
  rw [slotOwner_eq hfits (Nat.zero_le _)]
  rfl

theorem Valid.proposer_eq_ok (h : s.Valid C) (hheight : height ≠ 0)
    {round : UInt64} {v : Validator} :
    s.proposer C height round = .ok v ↔
      ownerAt weight s.sorted (s.slot height round).toNat = some v := by
  rw [h.proposer_eq hheight, require_eq_ok]

-- ==== the slot

theorem Valid.toNat_slot (h : s.Valid C) (hheight : height ≠ 0)
    (round : UInt64) :
    (s.slot height round).toNat =
      ((height.toNat - 1) % exactPower s.validators +
        round.toNat % exactPower s.validators) % 2 ^ 64 %
          exactPower s.validators := by
  have hone : (height - 1).toNat = height.toNat - 1 := by
    have hle : (1 : UInt64) ≤ height := by
      rw [UInt64.le_iff_toNat_le]
      have hne : height.toNat ≠ 0 := fun h0 => hheight (UInt64.toNat_inj.1 h0)
      exact Nat.one_le_iff_ne_zero.2 hne
    exact UInt64.toNat_sub_of_le _ _ hle
  rw [slot, UInt64.toNat_mod, UInt64.toNat_add, UInt64.toNat_mod,
    UInt64.toNat_mod, hone, h.toNat_addPowers]

/-- The exact slot unless the sum of the remainders goes over; then the
slot is below the exact one by what the total lacks to 2^64. -/
theorem Valid.slot_cases (h : s.Valid C) (hheight : height ≠ 0)
    (round : UInt64) :
    (s.slot height round).toNat = exactSlot s height round ∨
      2 ^ 63 < exactPower s.validators ∧
        (s.slot height round).toNat < exactSlot s height round ∧
        exactSlot s height round + 1 < exactPower s.validators := by
  have hfits := h.fits
  have hexact : exactSlot s height round =
      ((height.toNat - 1) % exactPower s.validators +
        round.toNat % exactPower s.validators) % exactPower s.validators :=
    Nat.add_mod _ _ _
  rw [h.toNat_slot hheight, hexact]
  have ha := Nat.mod_lt (height.toNat - 1) h.power_pos
  have hb := Nat.mod_lt round.toNat h.power_pos
  generalize (height.toNat - 1) % exactPower s.validators = a at ha
  generalize round.toNat % exactPower s.validators = b at hb
  generalize exactPower s.validators = N at *
  by_cases hwrap : a + b < 2 ^ 64
  · rw [Nat.mod_eq_of_lt hwrap]
    exact .inl rfl
  · right
    have hover : (a + b) % N = a + b - N := by
      rw [Nat.mod_eq_sub_mod (by omega), Nat.mod_eq_of_lt (by omega)]
    have hlow : (a + b) % 2 ^ 64 % N = a + b - 2 ^ 64 := by
      have hwrapped : (a + b) % 2 ^ 64 = a + b - 2 ^ 64 := by
        rw [Nat.mod_eq_sub_mod (by omega), Nat.mod_eq_of_lt (by omega)]
      rw [hwrapped, Nat.mod_eq_of_lt (by omega)]
    rw [hover, hlow]
    omega

-- ==== the rotation

/-- Where a wrapped sum goes unnoticed: it does not happen, or all slots
but perhaps the last belong to the first validator. -/
def Steady (s : ValidatorSet) : Prop :=
  exactPower s.validators ≤ 2 ^ 63 ∨
    ∃ v rest, s.sorted = v :: rest ∧
      exactPower s.validators ≤ v.power.toNat + 1

theorem Valid.owner_slot (h : s.Valid C) (hsteady : s.Steady)
    (hheight : height ≠ 0) (round : UInt64) :
    ownerAt weight s.sorted (s.slot height round).toNat =
      ownerAt weight s.sorted (exactSlot s height round) := by
  rcases h.slot_cases hheight round with heq | ⟨hlarge, hbelow, hlast⟩
  · rw [heq]
  · rcases hsteady with hsmall | ⟨v, rest, hsorted, hfirst⟩
    · omega
    · have hslot : (s.slot height round).toNat < weight v := by
        show _ < v.power.toNat
        omega
      have hexact : exactSlot s height round < weight v := by
        show _ < v.power.toNat
        omega
      rw [hsorted, ownerAt, ownerAt, if_pos hslot, if_pos hexact]

theorem Valid.proposer_steady (h : s.Valid C) (hsteady : s.Steady)
    (hheight : height ≠ 0) {round : UInt64} {v : Validator} :
    s.proposer C height round = .ok v ↔
      ownerAt weight s.sorted (exactSlot s height round) = some v := by
  rw [h.proposer_eq_ok hheight, h.owner_slot hsteady hheight]

theorem Valid.exactSlot_lt (h : s.Valid C) (height round : UInt64) :
    exactSlot s height round < totalWeight weight s.sorted :=
  (Nat.mod_lt _ h.power_pos).trans_eq s.exactPower_sorted.symm

theorem Valid.perm {s' : ValidatorSet} (h : s.Valid C)
    (hnetwork : s'.network = s.network)
    (hperm : s'.validators.Perm s.validators) :
    s'.Valid C ∧ s'.sorted = s.sorted ∧
      exactPower s'.validators = exactPower s.validators := by
  have hpower : exactPower s'.validators = exactPower s.validators :=
    (hperm.map _).sum_eq
  have hnodup : (s'.validators.map Validator.id).Nodup :=
    (hperm.map _).nodup_iff.2 h.nodup
  refine ⟨⟨hnetwork ▸ h.network, fun hnil => h.nonempty ?_,
    fun v hv => h.sound v (hperm.mem_iff.1 hv), hnodup, hpower ▸ h.fits⟩,
    insertionSort_eq_of_perm hperm hnodup, hpower⟩
  exact List.perm_nil.1 (hnil ▸ hperm).symm

end ValidatorSet

/-- The rotation of a set: who is chosen, in which order the set may be
listed, and how often a validator is chosen while the heights or the
rounds go once through the slots. -/
structure Rotates (C : Crypto) (s : ValidatorSet) : Prop where
  chosen : ∀ height round : UInt64, height ≠ 0 →
    ∃ v, s.proposer C height round = .ok v ∧
      Owns weight s.sorted (exactSlot s height round) v
  order : ∀ s' : ValidatorSet, s'.network = s.network →
    s'.validators.Perm s.validators → ∀ height round : UInt64,
      s'.proposer C height round = s.proposer C height round
  heights : ∀ v ∈ s.validators, ∀ (first : Nat) (round : UInt64),
    1 ≤ first → first + exactPower s.validators ≤ 2 ^ 64 →
      (exactPower s.validators).count (fun i =>
        s.proposer C (UInt64.ofNat (first + i)) round = .ok v) =
          v.power.toNat
  rounds : ∀ v ∈ s.validators, ∀ (height : UInt64) (first : Nat),
    height ≠ 0 → first + exactPower s.validators ≤ 2 ^ 64 →
      (exactPower s.validators).count (fun i =>
        s.proposer C height (UInt64.ofNat (first + i)) = .ok v) =
          v.power.toNat

namespace ValidatorSet

theorem Valid.proposer_perm {s' : ValidatorSet} (h : s.Valid C)
    (hnetwork : s'.network = s.network)
    (hperm : s'.validators.Perm s.validators) (height round : UInt64) :
    s'.proposer C height round = s.proposer C height round := by
  obtain ⟨h', hsorted, hpower⟩ := h.perm hnetwork hperm
  have hadd : addPowers s'.validators = addPowers s.validators := by
    rw [addPowers_eq, addPowers_eq, hpower]
  by_cases hheight : height = 0
  · simp only [proposer, totalPower, validate_iff.2 h, validate_iff.2 h',
      ok_bind, hadd, hsorted, hheight]
  · rw [h.proposer_eq hheight, h'.proposer_eq hheight, hsorted, slot, slot,
      hadd]

/-- How often a validator is chosen while the exact slot goes once
through the slots. -/
theorem Valid.count_turns (h : s.Valid C) (hsteady : s.Steady)
    {v : Validator} (hv : v ∈ s.validators) (height round : Nat → UInt64)
    (start : Nat)
    (hturn : ∀ i < exactPower s.validators, height i ≠ 0 ∧
      (height i).toNat - 1 + (round i).toNat = start + i) :
    (exactPower s.validators).count (fun i =>
      s.proposer C (height i) (round i) = .ok v) = v.power.toNat := by
  have hcount := @Lib.count_turns _ weight _ v _ h.sorted_nodup
    (s.sorted_perm.mem_iff.2 hv) start
  rw [show totalWeight weight s.sorted = exactPower s.validators from
    s.exactPower_sorted] at hcount
  refine Eq.trans ?_ hcount
  rw [Nat.count_eq_card_filter_range, Nat.count_eq_card_filter_range]
  refine congrArg Finset.card (Finset.filter_congr fun i hi => ?_)
  obtain ⟨hheight, hsum⟩ := hturn i (Finset.mem_range.1 hi)
  rw [h.proposer_steady hsteady hheight, exactSlot, hsum]

theorem Valid.rotates (h : s.Valid C) (hsteady : s.Steady) :
    Rotates C s where
  chosen height round hheight := by
    obtain ⟨v, hv⟩ := exists_ownerAt (h.exactSlot_lt height round)
    exact ⟨v, (h.proposer_steady hsteady hheight).2 hv,
      ownerAt_eq_some_iff.1 hv⟩
  order s' hnetwork hperm := h.proposer_perm hnetwork hperm
  heights v hv first round hfirst hlast := by
    refine h.count_turns hsteady hv _ _ (first - 1 + round.toNat)
      fun i hi => ?_
    have hnat : (UInt64.ofNat (first + i)).toNat = first + i := by
      rw [UInt64.toNat_ofNat', Nat.mod_eq_of_lt (by omega)]
    refine ⟨fun hzero => ?_, by omega⟩
    rw [hzero] at hnat
    exact absurd hnat (by rw [show (0 : UInt64).toNat = 0 from rfl]; omega)
  rounds v hv height first hheight hlast := by
    refine h.count_turns hsteady hv _ _ (height.toNat - 1 + first)
      fun i hi => ⟨hheight, ?_⟩
    rw [UInt64.toNat_ofNat', Nat.mod_eq_of_lt (by omega)]
    omega

/-- Beyond the steady sets some height and round have a wrapped slot in
front of the first validator's last one and an exact slot behind it. -/
theorem Valid.steady (h : s.Valid C) (hrotates : Rotates C s) :
    s.Steady := by
  by_contra hnot
  obtain ⟨hlarge, hfirst⟩ := not_or.1 hnot
  have hfits := h.fits
  have hpower := s.exactPower_sorted
  cases hsorted : s.sorted with
  | nil =>
    have hpos := h.power_pos
    rw [hsorted] at hpower
    exact absurd (hpower.symm.trans rfl) hpos.ne'
  | cons v rest =>
    have hv : v ∈ s.validators :=
      s.sorted_perm.mem_iff.1 (hsorted ▸ List.mem_cons_self)
    have hfirst : v.power.toNat + 1 < exactPower s.validators :=
      Nat.lt_of_not_le fun hle => hfirst ⟨v, rest, hsorted, hle⟩
    have hpos : 0 < v.power.toNat := by
      refine Nat.pos_of_ne_zero fun hzero => ?_
      exact (h.sound v hv).power (UInt64.toNat_inj.1 hzero)
    obtain ⟨e, hlow, hhigh, hbehind, hfront⟩ : ∃ e : Nat,
        2 ^ 64 ≤ exactPower s.validators + e ∧
          e + 1 < exactPower s.validators ∧ v.power.toNat ≤ e ∧
          exactPower s.validators + e - 2 ^ 64 < v.power.toNat :=
      ⟨max v.power.toNat (2 ^ 64 - exactPower s.validators), by omega,
        by omega, by omega, by omega⟩
    have hheight : (UInt64.ofNat (exactPower s.validators)).toNat =
        exactPower s.validators := by
      rw [UInt64.toNat_ofNat', Nat.mod_eq_of_lt hfits]
    have hround : (UInt64.ofNat (e + 1)).toNat = e + 1 := by
      rw [UInt64.toNat_ofNat', Nat.mod_eq_of_lt (by omega)]
    have hne : UInt64.ofNat (exactPower s.validators) ≠ 0 := by
      intro hzero
      rw [hzero] at hheight
      exact h.power_pos.ne hheight
    obtain ⟨w, hchosen, howns⟩ := hrotates.chosen _ (UInt64.ofNat (e + 1))
      hne
    rw [h.proposer_eq_ok hne, h.toNat_slot hne, hheight, hround,
      hsorted] at hchosen
    rw [← ownerAt_eq_some_iff, exactSlot, hheight, hround, hsorted] at howns
    generalize exactPower s.validators = N at *
    have hexact : (N - 1 + (e + 1)) % N = e := by
      rw [show N - 1 + (e + 1) = N + e by omega, Nat.add_mod_left,
        Nat.mod_eq_of_lt (by omega)]
    have hwrapped : ((N - 1) % N + (e + 1) % N) % 2 ^ 64 % N =
        N + e - 2 ^ 64 := by
      rw [Nat.mod_eq_of_lt (show N - 1 < N by omega),
        Nat.mod_eq_of_lt (show e + 1 < N by omega),
        show N - 1 + (e + 1) = N + e by omega,
        Nat.mod_eq_sub_mod (show 2 ^ 64 ≤ N + e by omega),
        Nat.mod_eq_of_lt (show N + e - 2 ^ 64 < 2 ^ 64 by omega),
        Nat.mod_eq_of_lt (by omega)]
    rw [hwrapped, ownerAt, if_pos (show _ < weight v from hfront)] at hchosen
    rw [hexact, ownerAt,
      if_neg (show ¬ _ < weight v from Nat.not_lt.2 hbehind)] at howns
    have hnodup := h.sorted_nodup
    rw [hsorted] at hnodup
    exact (List.nodup_cons.1 hnodup).1
      (Option.some.inj hchosen ▸ mem_of_ownerAt howns)

end ValidatorSet

/-- A valid set rotates exactly, and fairly over heights and over rounds,
just when its total power is at most 2^63 or the validator with the least
id owns all slots but perhaps the last. -/
theorem weighted_rotation_iff (h : s.validate C = .ok ()) :
    Rotates C s ↔ s.Steady := by
  have hvalid := ValidatorSet.validate_iff.1 h
  exact ⟨hvalid.steady, hvalid.rotates⟩

theorem weighted_rotation_pairSet :
    (pairSet 3 1).validate sumCrypto = .ok () ∧
      Rotates sumCrypto (pairSet 3 1) := by
  have hvalid : (pairSet 3 1).validate sumCrypto = .ok () := by
    decide +kernel
  have hsteady : (pairSet 3 1).Steady := .inl (by decide +kernel)
  exact ⟨hvalid, (weighted_rotation_iff hvalid).2 hsteady⟩

/-- Two validators of the greatest total power, 2^64 - 1. -/
def heavySet : ValidatorSet := pairSet 0xfffffffffffffffd 2

/-- The set is valid, and there is a height and a round whose exact slot
belongs to another validator than the one that is chosen. -/
theorem heavySet_not_rotates :
    heavySet.validate sumCrypto = .ok () ∧
      ∃ v w, v ≠ w ∧ heavySet.proposer sumCrypto 0xffffffffffffffff
          0xfffffffffffffffe = .ok v ∧
        Owns weight heavySet.sorted (exactSlot heavySet 0xffffffffffffffff
          0xfffffffffffffffe) w := by
  refine ⟨by decide +kernel, ⟨validatorIDFromPublicKey sumCrypto
    (singleKey 1), singleKey 1, 0xfffffffffffffffd⟩,
    ⟨validatorIDFromPublicKey sumCrypto (singleKey 2), singleKey 2, 2⟩,
    by decide +kernel, by decide +kernel,
    ownerAt_eq_some_iff.1 (by decide +kernel)⟩

end ZephyrChain.Consensus
