/-
The base fee stays in its band, and where the controller gives up.

# One step

In natural numbers the step adds or subtracts the change and stops at
the ends of the band (`stepFee`). That function is monotone in the
usage, moves towards the usage and never rests inside the band. The
controller computes it whenever the change fits in 64 bits
(`nextBaseFee_eq`). Below the target the change is at most the fee
itself, so it always fits; above the target it may not, and then the
controller fails where it should stop at the maximum.

# Runs

A run stays in the band as long as it goes on, and it goes on exactly
as long as every change fits (`base_fee_controlled_iff`).
-/
import ZephyrChain.Economics.Fees
import Mathlib.Tactic.Linarith

namespace ZephyrChain.Economics

open Lib

variable {p : BaseFeePolicy} {current used : UInt64}

/-- A fee inside the band of the policy. -/
def BaseFeePolicy.InBand (p : BaseFeePolicy) (fee : UInt64) : Prop :=
  p.minBaseFee ≤ fee ∧ fee ≤ p.maxBaseFee

/-- The change above the target fits in 64 bits. -/
def BaseFeePolicy.Fits (p : BaseFeePolicy) (current used : UInt64) : Prop :=
  current.toNat * (used.toNat - p.targetUsage.toNat) / p.targetUsage.toNat /
    p.adjustmentDenominator.toNat < 2 ^ 64

/-- Every change along the run fits. -/
def BaseFeePolicy.RunFits (p : BaseFeePolicy) :
    UInt64 → List UInt64 → Prop
  | _, [] => True
  | current, used :: usages => p.Fits current used ∧
      ∀ next, nextBaseFee current used p = .ok next → p.RunFits next usages

/-- What the controller is for, at one fee and one usage. -/
structure Controlled (p : BaseFeePolicy) (current used fee : UInt64) :
    Prop where
  returns : nextBaseFee current used p = .ok fee
  inBand : p.InBand fee
  rises : p.targetUsage < used → current < fee ∨
    (fee = p.maxBaseFee ∧ current = fee)
  falls : used < p.targetUsage → fee < current ∨
    (fee = p.minBaseFee ∧ current = fee)
  monotone : ∀ used' fee', nextBaseFee current used' p = .ok fee' →
    (used ≤ used' → fee ≤ fee') ∧ (used' ≤ used → fee' ≤ fee)

-- ==== one step in Nat

/-- The change in natural numbers. -/
def changeBy (current distance target denominator : Nat) : Nat :=
  max 1 (current * distance / target / denominator)

/-- The step in natural numbers, with no bound on the change. -/
def stepFee (low high target denominator current used : Nat) : Nat :=
  if used = target then current
  else if target < used then
    min high (current + changeBy current (used - target) target denominator)
  else max low (current - changeBy current (target - used) target denominator)

section Step

variable {low high target denominator c u u' : Nat}

theorem changeBy_mono (h : u ≤ u') :
    changeBy c u target denominator ≤ changeBy c u' target denominator :=
  max_le_max (Nat.le_refl 1)
    (Nat.div_le_div_right (Nat.div_le_div_right (Nat.mul_le_mul_left c h)))

theorem changeBy_pos (c d target denominator : Nat) :
    0 < changeBy c d target denominator :=
  Nat.lt_of_lt_of_le Nat.one_pos (le_max_left ..)

theorem stepFee_below (h : u < target) :
    stepFee low high target denominator c u =
      max low (c - changeBy c (target - u) target denominator) := by
  rw [stepFee, if_neg (Nat.ne_of_lt h), if_neg (Nat.lt_asymm h)]

theorem stepFee_above (h : target < u) :
    stepFee low high target denominator c u =
      min high (c + changeBy c (u - target) target denominator) := by
  rw [stepFee, if_neg (Nat.ne_of_gt h), if_pos h]

theorem stepFee_mem (target denominator u : Nat) (hlow : low ≤ c)
    (hhigh : c ≤ high) :
    low ≤ stepFee low high target denominator c u ∧
      stepFee low high target denominator c u ≤ high := by
  unfold stepFee
  split
  · exact ⟨hlow, hhigh⟩
  · split <;> omega

theorem stepFee_mono (hlow : low ≤ c) (hhigh : c ≤ high) (h : u ≤ u') :
    stepFee low high target denominator c u ≤
      stepFee low high target denominator c u' := by
  have hup : changeBy c (u - target) target denominator ≤
      changeBy c (u' - target) target denominator :=
    changeBy_mono (by omega)
  have hdown : changeBy c (target - u') target denominator ≤
      changeBy c (target - u) target denominator :=
    changeBy_mono (by omega)
  unfold stepFee
  split <;> split <;> (try split) <;> (try split) <;> omega

end Step

-- ==== the code's step

theorem BaseFeePolicy.change_eq (distance : UInt64) :
    p.change current distance = changeBy current.toNat distance.toNat
      p.targetUsage.toNat p.adjustmentDenominator.toNat := by
  unfold change changeBy
  simp only
  generalize current.toNat * distance.toNat / p.targetUsage.toNat /
    p.adjustmentDenominator.toNat = n
  split <;> omega

/-- Below the target the change is at most the fee. -/
theorem changeBy_lt_of_le {c d target : Nat} (denominator : Nat)
    (hd : d ≤ target) (hc : c < 2 ^ 64) :
    changeBy c d target denominator < 2 ^ 64 := by
  have hfirst : c * d / target ≤ c :=
    Nat.div_le_of_le_mul (by
      rw [Nat.mul_comm target c]
      exact Nat.mul_le_mul_left c hd)
  have hsecond := Nat.div_le_self (c * d / target) denominator
  unfold changeBy
  omega

variable {fee : UInt64}

/-- The controller computes the step, unless the change does not fit. -/
theorem nextBaseFee_eq (hp : p.validate = .ok ())
    (hband : p.InBand current) :
    nextBaseFee current used p = .ok fee ↔ p.Fits current used ∧
      fee.toNat = stepFee p.minBaseFee.toNat p.maxBaseFee.toNat
        p.targetUsage.toNat p.adjustmentDenominator.toNat current.toNat
        used.toNat := by
  have hlow := UInt64.le_iff_toNat_le.1 hband.1
  have hhigh := UInt64.le_iff_toNat_le.1 hband.2
  have hmax := p.maxBaseFee.toNat_lt
  have hin : ¬ (current < p.minBaseFee ∨ p.maxBaseFee < current) := by
    rw [not_or, UInt64.not_lt, UInt64.not_lt]
    exact hband
  unfold nextBaseFee
  rw [hp, failWith_ok, ok_bind, refuse_of_not _ hin, ok_bind]
  rcases Nat.lt_trichotomy used.toNat p.targetUsage.toNat with
    hbelow | heq | habove
  · -- the change is at most the fee
    have hne : used ≠ p.targetUsage := fun h => by
      rw [h] at hbelow
      omega
    have hnot : ¬ p.targetUsage < used := by
      rw [UInt64.lt_iff_toNat_lt]
      omega
    have hfits : p.Fits current used := by
      unfold BaseFeePolicy.Fits
      rw [Nat.sub_eq_zero_of_le (Nat.le_of_lt hbelow), Nat.mul_zero,
        Nat.zero_div, Nat.zero_div]
      decide
    have hdistance : (p.targetUsage - used).toNat =
        p.targetUsage.toNat - used.toNat :=
      UInt64.toNat_sub_of_le _ _ (UInt64.le_iff_toNat_le.2
        (Nat.le_of_lt hbelow))
    have hchange := changeBy_lt_of_le p.adjustmentDenominator.toNat
      (Nat.sub_le p.targetUsage.toNat used.toNat) current.toNat_lt
    simp only [hne, hnot, if_false, BaseFeePolicy.change_eq, hdistance]
    rw [refuse_of_not _ (Nat.not_le.2 hchange), ok_bind, pure_eq_ok,
      and_iff_right hfits, stepFee_below hbelow, ← UInt64.toNat_inj]
    generalize hn : changeBy current.toNat _ _ _ = n at hchange ⊢
    have hdelta : (UInt64.ofNat n).toNat = n :=
      UInt64.toNat_ofNat_of_lt' hchange
    by_cases hle : current.toNat ≤ n
    · have hall : current ≤ UInt64.ofNat n :=
        UInt64.le_iff_toNat_le.2 (by rwa [hdelta])
      simp only [hall, true_or, if_true]
      omega
    · have hsub : (current - UInt64.ofNat n).toNat = current.toNat - n := by
        rw [UInt64.toNat_sub_of_le _ _ (UInt64.le_iff_toNat_le.2 (by
          rw [hdelta]
          omega)), hdelta]
      have hsome : ¬ current ≤ UInt64.ofNat n := by
        rwa [UInt64.le_iff_toNat_le, hdelta]
      simp only [hsome, false_or, UInt64.lt_iff_toNat_lt, hsub]
      split <;> omega
  · have hsame : used = p.targetUsage := UInt64.toNat_inj.1 heq
    have hfits : p.Fits current used := by
      unfold BaseFeePolicy.Fits
      rw [heq, Nat.sub_self, Nat.mul_zero, Nat.zero_div, Nat.zero_div]
      decide
    rw [if_pos hsame, pure_eq_ok, and_iff_right hfits, stepFee, if_pos heq,
      ← UInt64.toNat_inj]
    exact eq_comm
  · have hne : used ≠ p.targetUsage := fun h => by
      rw [h] at habove
      omega
    have hlt : p.targetUsage < used := UInt64.lt_iff_toNat_lt.2 habove
    have hdistance : (used - p.targetUsage).toNat =
        used.toNat - p.targetUsage.toNat :=
      UInt64.toNat_sub_of_le _ _ (UInt64.le_iff_toNat_le.2
        (Nat.le_of_lt habove))
    have hfits : p.Fits current used ↔ changeBy current.toNat
        (used.toNat - p.targetUsage.toNat) p.targetUsage.toNat
        p.adjustmentDenominator.toNat < 2 ^ 64 := by
      unfold BaseFeePolicy.Fits changeBy
      omega
    simp only [hne, hlt, if_false, if_true, BaseFeePolicy.change_eq,
      hdistance]
    rw [bind_eq_ok, exists_unit, refuse_eq_ok, Nat.not_le, pure_eq_ok,
      hfits, stepFee_above habove, ← UInt64.toNat_inj]
    refine and_congr_right fun hchange => ?_
    generalize changeBy current.toNat _ _ _ = n at hchange ⊢
    have hdelta : (UInt64.ofNat n).toNat = n :=
      UInt64.toNat_ofNat_of_lt' hchange
    rw [hdelta]
    split
    case isTrue => omega
    case isFalse hroom =>
      have hnext : (UInt64.ofNat (current.toNat + n)).toNat =
          current.toNat + n :=
        UInt64.toNat_ofNat_of_lt' (by
          show current.toNat + n < 2 ^ 64
          omega)
      omega

theorem exists_fee_iff (hp : p.validate = .ok ()) (hband : p.InBand current) :
    (∃ fee, nextBaseFee current used p = .ok fee) ↔
      p.Fits current used := by
  refine ⟨fun ⟨fee, h⟩ => ((nextBaseFee_eq hp hband).1 h).1, fun h => ?_⟩
  have hmem := stepFee_mem p.targetUsage.toNat
    p.adjustmentDenominator.toNat used.toNat
    (UInt64.le_iff_toNat_le.1 hband.1) (UInt64.le_iff_toNat_le.1 hband.2)
  exact ⟨UInt64.ofNat _, (nextBaseFee_eq hp hband).2
    ⟨h, UInt64.toNat_ofNat_of_lt'
      (Nat.lt_of_le_of_lt hmem.2 p.maxBaseFee.toNat_lt)⟩⟩

theorem inBand_of_next (hp : p.validate = .ok ())
    (hband : p.InBand current) (h : nextBaseFee current used p = .ok fee) :
    p.InBand fee := by
  have hmem := stepFee_mem p.targetUsage.toNat
    p.adjustmentDenominator.toNat used.toNat
    (UInt64.le_iff_toNat_le.1 hband.1) (UInt64.le_iff_toNat_le.1 hband.2)
  rw [← ((nextBaseFee_eq hp hband).1 h).2] at hmem
  exact ⟨UInt64.le_iff_toNat_le.2 hmem.1, UInt64.le_iff_toNat_le.2 hmem.2⟩

theorem controlled_of_next (hp : p.validate = .ok ())
    (hband : p.InBand current) (h : nextBaseFee current used p = .ok fee) :
    Controlled p current used fee := by
  have hlow := UInt64.le_iff_toNat_le.1 hband.1
  have hhigh := UInt64.le_iff_toNat_le.1 hband.2
  have hfee := ((nextBaseFee_eq hp hband).1 h).2
  refine ⟨h, inBand_of_next hp hband h, fun hup => ?_, fun hdown => ?_,
    fun used' fee' h' => ?_⟩
  · rw [stepFee_above (UInt64.lt_iff_toNat_lt.1 hup)] at hfee
    have hpos := changeBy_pos current.toNat
      (used.toNat - p.targetUsage.toNat) p.targetUsage.toNat
      p.adjustmentDenominator.toNat
    rw [UInt64.lt_iff_toNat_lt, ← UInt64.toNat_inj, ← UInt64.toNat_inj]
    omega
  · rw [stepFee_below (UInt64.lt_iff_toNat_lt.1 hdown)] at hfee
    have hpos := changeBy_pos current.toNat
      (p.targetUsage.toNat - used.toNat) p.targetUsage.toNat
      p.adjustmentDenominator.toNat
    rw [UInt64.lt_iff_toNat_lt, ← UInt64.toNat_inj, ← UInt64.toNat_inj]
    omega
  · have hfee' := ((nextBaseFee_eq hp hband).1 h').2
    simp only [UInt64.le_iff_toNat_le, hfee, hfee']
    exact ⟨stepFee_mono hlow hhigh, stepFee_mono hlow hhigh⟩

-- ==== runs

theorem inBand_of_run (hp : p.validate = .ok ())
    (hband : p.InBand current) {usages : List UInt64}
    (h : baseFees p current usages = .ok fee) : p.InBand fee :=
  foldlM_invariant p.InBand
    (fun _ _ _ hs hnext => inBand_of_next hp hs hnext) usages current fee
    hband h

theorem exists_run_iff (hp : p.validate = .ok ()) {usages : List UInt64}
    (hband : p.InBand current) :
    (∃ fee, baseFees p current usages = .ok fee) ↔
      p.RunFits current usages := by
  induction usages generalizing current with
  | nil => exact ⟨fun _ => trivial, fun _ => ⟨current, rfl⟩⟩
  | cons used usages ih =>
    constructor
    · rintro ⟨fee, h⟩
      obtain ⟨next, hnext, hrest⟩ := bind_eq_ok.1 h
      refine ⟨(exists_fee_iff hp hband).1 ⟨next, hnext⟩, ?_⟩
      intro next' hnext'
      obtain rfl := Except.ok.inj (hnext.symm.trans hnext')
      exact (ih (inBand_of_next hp hband hnext)).1 ⟨fee, hrest⟩
    · rintro ⟨hfits, hrest⟩
      obtain ⟨next, hnext⟩ := (exists_fee_iff hp hband).2 hfits
      obtain ⟨fee, hfee⟩ :=
        (ih (inBand_of_next hp hband hnext)).2 (hrest next hnext)
      exact ⟨fee, bind_eq_ok.2 ⟨next, hnext, hfee⟩⟩

/-- The controller does its work exactly where the change fits, and keeps
a run in the band as long as every change of it does. -/
theorem base_fee_controlled_iff (p : BaseFeePolicy) (current : UInt64)
    (hp : p.validate = .ok ()) (hband : p.InBand current) :
    (∀ used, (∃ fee, Controlled p current used fee) ↔
      p.Fits current used) ∧
    ∀ usages,
      ((∃ fee, baseFees p current usages = .ok fee) ↔
        p.RunFits current usages) ∧
      ∀ fee, baseFees p current usages = .ok fee → p.InBand fee := by
  refine ⟨fun used => ⟨?_, fun hfits => ?_⟩, fun usages =>
    ⟨exists_run_iff hp hband, fun fee => inBand_of_run hp hband⟩⟩
  · rintro ⟨fee, h⟩
    exact (exists_fee_iff hp hband).1 ⟨fee, h.returns⟩
  · obtain ⟨fee, h⟩ := (exists_fee_iff hp hband).2 hfits
    exact ⟨fee, controlled_of_next hp hband h⟩

def samplePolicy : BaseFeePolicy := ⟨100, 8, 1, 1000⟩

/-- Twice the target from a fee of 800. -/
theorem base_fee_controlled_sample :
    ∃ fee, Controlled samplePolicy 800 200 fee :=
  ((base_fee_controlled_iff samplePolicy 800 (by decide)
    ⟨by decide, by decide⟩).1 200).2 (by
      show 800 * 100 / 100 / 8 < 2 ^ 64
      decide)

/-- The widest band, a target of one and no damping. -/
def widePolicy : BaseFeePolicy := ⟨1, 1, 1, 18446744073709551615⟩

/-- A fee that should stop at the maximum is refused. -/
theorem large_change_refused :
    widePolicy.validate = .ok () ∧ widePolicy.InBand 4294967296 ∧
      nextBaseFee 4294967296 4294967297 widePolicy =
        .error .resourceFee :=
  ⟨by decide, ⟨by decide, by decide⟩, by decide +kernel⟩

end ZephyrChain.Economics
