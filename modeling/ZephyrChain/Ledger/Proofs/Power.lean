/-
Voting power. The source adds up power in 64 bits with guarded or
saturating sums; here the sums are compared with exact ones. A quorum is
more than two thirds of the exact total, and no set of distinct members
has more power than the total, even when addresses are listed twice.
-/
import ZephyrChain.Ledger.Proofs.Executors

namespace ZephyrChain.Ledger

open Lib

/-- The exact sum of all listed powers. -/
def exactTotal (validators : List Validator) : Nat :=
  (validators.map fun v => v.votingPower.toNat).sum

/-- The power of an address: that of its first entry, 0 without one. -/
def powerOf (snapshot : ValidatorSnapshot) (address : Bytes) : Nat :=
  ((validatorVotingPower snapshot address).getD 0).toNat

/-- The exact power of a list of addresses. -/
def exactPower (snapshot : ValidatorSnapshot) (addresses : List Bytes) : Nat :=
  (addresses.map (powerOf snapshot)).sum

-- ==== totals

variable {validators : List Validator}

/-- The guarded loop from a partial sum. -/
theorem sumFrom_eq_some {start t : UInt64} :
    validators.foldlM (fun total v => addUint64 total v.votingPower) start =
        some t ↔
      t.toNat = start.toNat + exactTotal validators := by
  induction validators generalizing start with
  | nil =>
    simp only [List.foldlM_nil, Option.pure_def, Option.some.injEq,
      exactTotal, List.map_nil, List.sum_nil, Nat.add_zero]
    exact ⟨fun h => congrArg UInt64.toNat h.symm,
      fun h => (UInt64.toNat_inj.1 h).symm⟩
  | cons v rest ih =>
    simp only [List.foldlM_cons, Option.bind_eq_bind,
      Option.bind_eq_some_iff, ih, addUint64_eq_some, exactTotal,
      List.map_cons, List.sum_cons]
    constructor
    · intro ⟨mid, hmid, ht⟩
      omega
    · intro ht
      have hlt : start.toNat + v.votingPower.toNat < 2 ^ 64 := by
        have := t.toNat_lt
        omega
      refine ⟨start + v.votingPower, ?_, ?_⟩
      · exact toNat_add_of_fits (not_overflows_iff.2 hlt)
      · rw [toNat_add_of_fits (not_overflows_iff.2 hlt)]
        omega

theorem sumValidatorVotingPower_eq_some {t : UInt64} :
    sumValidatorVotingPower validators = some t ↔
      t.toNat = exactTotal validators := by
  have hzero : (0 : UInt64).toNat = 0 := rfl
  rw [sumValidatorVotingPower, sumFrom_eq_some, hzero, Nat.zero_add]

theorem sumValidatorVotingPower_ne_none :
    sumValidatorVotingPower validators ≠ none ↔
      exactTotal validators < 2 ^ 64 := by
  constructor
  · intro h
    obtain ⟨t, ht⟩ := Option.ne_none_iff_exists'.1 h
    rw [← sumValidatorVotingPower_eq_some.1 ht]
    exact t.toNat_lt
  · intro h hnone
    have hsome : sumValidatorVotingPower validators =
        some (UInt64.ofNat (exactTotal validators)) := by
      rw [sumValidatorVotingPower_eq_some, UInt64.toNat_ofNat',
        Nat.mod_eq_of_lt h]
    rw [hnone] at hsome
    cases hsome

variable {snapshot : ValidatorSnapshot}

/-- The total is exact when it fits. -/
theorem toNat_totalVotingPower
    (h : exactTotal snapshot.validators < 2 ^ 64) :
    (totalVotingPower snapshot).toNat = exactTotal snapshot.validators := by
  obtain ⟨t, ht⟩ := Option.ne_none_iff_exists'.1
    (sumValidatorVotingPower_ne_none.2 h)
  rw [totalVotingPower, normalizeValidatorSnapshot_validators, ht]
  exact sumValidatorVotingPower_eq_some.1 ht

-- ==== quorum

theorem toNat_quorumVotingPower {t : UInt64} (h : t ≠ 0) :
    (quorumVotingPower t).toNat = 2 * t.toNat / 3 + 1 := by
  have hlt := t.toNat_lt
  rw [quorumVotingPower, if_neg h]
  have h1 : (t / 3 * 2).toNat = t.toNat / 3 * 2 := by
    rw [UInt64.toNat_mul, UInt64.toNat_div]
    exact Nat.mod_eq_of_lt (by
      show t.toNat / 3 * 2 < 2 ^ 64
      omega)
  have h2 : (t % 3 * 2 / 3).toNat = t.toNat % 3 * 2 / 3 := by
    rw [UInt64.toNat_div, UInt64.toNat_mul, UInt64.toNat_mod]
    show t.toNat % 3 * 2 % 2 ^ 64 / 3 = _
    rw [Nat.mod_eq_of_lt (by omega)]
  have h3 : (t / 3 * 2 + t % 3 * 2 / 3).toNat =
      t.toNat / 3 * 2 + t.toNat % 3 * 2 / 3 := by
    rw [UInt64.toNat_add, h1, h2]
    exact Nat.mod_eq_of_lt (by omega)
  rw [UInt64.toNat_add, h3]
  show (t.toNat / 3 * 2 + t.toNat % 3 * 2 / 3 + 1) % 2 ^ 64 = _
  rw [Nat.mod_eq_of_lt (by omega)]
  omega

/-- Power that reaches the quorum is more than two thirds of the exact
total. -/
theorem quorum_exceeds {power : Nat}
    (hfits : exactTotal snapshot.validators < 2 ^ 64)
    (hquorum : quorumVotingPower (totalVotingPower snapshot) ≠ 0)
    (h : (quorumVotingPower (totalVotingPower snapshot)).toNat ≤ power) :
    2 * exactTotal snapshot.validators < 3 * power := by
  have hne : totalVotingPower snapshot ≠ 0 := by
    intro hzero
    rw [hzero] at hquorum
    exact hquorum rfl
  rw [toNat_quorumVotingPower hne, toNat_totalVotingPower hfits] at h
  omega

-- ==== sets of members

theorem powerOf_eq (snapshot : ValidatorSnapshot) (address : Bytes) :
    powerOf snapshot address =
      (((snapshot.validators.find? fun v => v.address = address).map
        Validator.votingPower).getD 0).toNat := by
  rw [powerOf, validatorVotingPower, normalizeValidatorSnapshot_validators]

/-- The power of an address in a list of members. -/
def listedPower (validators : List Validator) (address : Bytes) : Nat :=
  (((validators.find? fun v => v.address = address).map
    Validator.votingPower).getD 0).toNat

theorem listedPower_cons (v : Validator) (rest : List Validator)
    (address : Bytes) :
    listedPower (v :: rest) address =
      if v.address = address then v.votingPower.toNat
      else listedPower rest address := by
  by_cases h : v.address = address
  · simp [listedPower, h]
  · simp [listedPower, h]

/-- Distinct addresses have at most the power of the whole list: the
entry in front counts for at most one of them. -/
theorem listedPower_sum_le (validators : List Validator)
    (addresses : Finset Bytes) :
    ∑ a ∈ addresses, listedPower validators a ≤ exactTotal validators := by
  induction validators generalizing addresses with
  | nil => simp [listedPower, exactTotal]
  | cons v rest ih =>
    have hsplit : ∀ a ∈ addresses, listedPower (v :: rest) a ≤
        listedPower rest a +
          if v.address = a then v.votingPower.toNat else 0 := by
      intro a _
      rw [listedPower_cons]
      split
      · exact Nat.le_add_left _ _
      · exact Nat.le_add_right _ _
    calc ∑ a ∈ addresses, listedPower (v :: rest) a
        ≤ ∑ a ∈ addresses, (listedPower rest a +
            if v.address = a then v.votingPower.toNat else 0) :=
          Finset.sum_le_sum hsplit
      _ = ∑ a ∈ addresses, listedPower rest a +
            ∑ a ∈ addresses,
              (if v.address = a then v.votingPower.toNat else 0) :=
          Finset.sum_add_distrib
      _ ≤ exactTotal rest + v.votingPower.toNat := by
          refine Nat.add_le_add (ih addresses) ?_
          rw [Finset.sum_ite_eq]
          split
          · exact Nat.le_refl _
          · exact Nat.zero_le _
      _ = exactTotal (v :: rest) := by
          simp only [exactTotal, List.map_cons, List.sum_cons]
          exact Nat.add_comm _ _

/-- The exact power of distinct addresses is a sum over a set. -/
theorem exactPower_eq_sum {addresses : List Bytes} (h : addresses.Nodup) :
    exactPower snapshot addresses =
      ∑ a ∈ addresses.toFinset, listedPower snapshot.validators a := by
  rw [exactPower, List.sum_toFinset _ h]
  exact congrArg List.sum (List.map_congr_left fun a _ => powerOf_eq _ a)

/-- Two sets of distinct members that both have more than two thirds of
the power have members in common with more than a third of it. -/
theorem quorum_intersection {xs ys : List Bytes} (hx : xs.Nodup)
    (hy : ys.Nodup)
    (hxs : 2 * exactTotal snapshot.validators < 3 * exactPower snapshot xs)
    (hys : 2 * exactTotal snapshot.validators < 3 * exactPower snapshot ys) :
    exactTotal snapshot.validators <
      3 * ∑ a ∈ xs.toFinset ∩ ys.toFinset,
        listedPower snapshot.validators a := by
  rw [exactPower_eq_sum hx] at hxs
  rw [exactPower_eq_sum hy] at hys
  have hunion : ∑ a ∈ xs.toFinset ∪ ys.toFinset,
        listedPower snapshot.validators a +
      ∑ a ∈ xs.toFinset ∩ ys.toFinset, listedPower snapshot.validators a =
      ∑ a ∈ xs.toFinset, listedPower snapshot.validators a +
        ∑ a ∈ ys.toFinset, listedPower snapshot.validators a :=
    Finset.sum_union_inter
  have hle := listedPower_sum_le snapshot.validators
    (xs.toFinset ∪ ys.toFinset)
  omega

end ZephyrChain.Ledger
