/-
The congestion controller of the base fee
(`internal/v2/economics/fees.go`). Fees are 64-bit; the change is formed
with `big.Int`, so it is a natural number here, and is refused when it
does not fit a fee.
-/
import ZephyrChain.Lib.Except
import ZephyrChain.Basic

namespace ZephyrChain.Economics

open Lib

structure BaseFeePolicy where
  targetUsage : UInt64
  adjustmentDenominator : UInt64
  minBaseFee : UInt64
  maxBaseFee : UInt64
  deriving DecidableEq

def BaseFeePolicy.validate (p : BaseFeePolicy) : Except Error Unit :=
  refuse (p.targetUsage = 0 ∨ p.adjustmentDenominator = 0 ∨
    p.minBaseFee = 0 ∨ p.maxBaseFee < p.minBaseFee) .feePolicy

/-- The change for a usage this far from the target, at least one. -/
def BaseFeePolicy.change (p : BaseFeePolicy) (current distance : UInt64) :
    Nat :=
  let change := current.toNat * distance.toNat / p.targetUsage.toNat /
    p.adjustmentDenominator.toNat
  if change = 0 then 1 else change

def nextBaseFee (current used : UInt64) (p : BaseFeePolicy) :
    Except Error UInt64 := do
  failWith .feePolicy p.validate
  refuse (current < p.minBaseFee ∨ p.maxBaseFee < current) .feePolicy
  if used = p.targetUsage then return current
  let distance := if p.targetUsage < used then used - p.targetUsage
    else p.targetUsage - used
  let change := p.change current distance
  refuse (2 ^ 64 ≤ change) .resourceFee
  let delta := UInt64.ofNat change
  if p.targetUsage < used then
    let next := current.toNat + delta.toNat
    return if p.maxBaseFee.toNat < next then p.maxBaseFee
      else UInt64.ofNat next
  return if current ≤ delta ∨ current - delta < p.minBaseFee
    then p.minBaseFee else current - delta

/-- The controller over the usages of a row of blocks. -/
def baseFees (p : BaseFeePolicy) (current : UInt64) (usages : List UInt64) :
    Except Error UInt64 :=
  usages.foldlM (fun fee used => nextBaseFee fee used p) current

end ZephyrChain.Economics
